/-
  Metta.MettaFs.BTree.Split — what the splits of `Split_insert` do to the nodes.

    • `moveRight_eq`, `splitNode_eq` — the right half of a node goes to a new one,
      which becomes the parent of its children,
    • `newRoot_node`, `addUpward_eq` — the element that goes upward.
-/
import Metta.MettaFs.BTree.Search

namespace Metta.MettaFs.BTree

open Metta.Machine

variable {α β : Type}

/-! ## §1. The nodes that a step writes. -/

@[simp] theorem setNode_node (s : BTree α) (id j : Nat) (n : BTreeNode α) :
    (s.setNode id n).node j = if j = id then n else s.node j := by
  show Function.update s.node id n j = _
  rw [Function.update_apply]

@[simp] theorem setNode_order (s : BTree α) (id : Nat) (n : BTreeNode α) :
    (s.setNode id n).order = s.order := rfl

@[simp] theorem setNode_root (s : BTree α) (id : Nat) (n : BTreeNode α) :
    (s.setNode id n).root = s.root := rfl

@[simp] theorem setNode_next (s : BTree α) (id : Nat) (n : BTreeNode α) :
    (s.setNode id n).next = s.next := rfl

@[simp] theorem adopt_order (s : BTree α) (id : Nat) (c : Option Nat) :
    (s.adopt id c).order = s.order := by
  cases c <;> rfl

@[simp] theorem adopt_root (s : BTree α) (id : Nat) (c : Option Nat) :
    (s.adopt id c).root = s.root := by
  cases c <;> rfl

@[simp] theorem adopt_next (s : BTree α) (id : Nat) (c : Option Nat) :
    (s.adopt id c).next = s.next := by
  cases c <;> rfl

@[simp] theorem adopt_node (s : BTree α) (id j : Nat) (c : Option Nat) :
    (s.adopt id c).node j
      = if c = some j then { s.node j with parent := some id } else s.node j := by
  cases c with
  | none => simp [adopt]
  | some c =>
    show (s.setNode c _).node j = _
    rw [setNode_node]
    by_cases h : j = c
    · rw [if_pos h, if_pos (congrArg some h.symm), h]
    · rw [if_neg h, if_neg (fun he => h (Option.some.inj he).symm)]

/-- What moving part of a node to another does: the two nodes, and the children whose parent
is now the other one. -/
structure Moved (s s' : BTree α) (sr new : Nat) (here there : BTreeNode α)
    (adopted : List (Option Nat)) : Prop where
  order : s'.order = s.order
  root : s'.root = s.root
  next : s'.next = s.next
  here : s'.node sr = here
  there : s'.node new = there
  rest : ∀ j, j ≠ sr → j ≠ new →
    s'.node j = if some j ∈ adopted then { s.node j with parent := some new } else s.node j

/-! ## §2. The right half of a node. -/

/-- One element and one child go to the new node. -/
theorem moveOne_eq {s : BTree α} {sr new : Nat} {L R D : List α} {up d : α}
    {Cl Cr C : List (Option Nat)} {c : Option Nat} {par par' : Option Nat}
    (hsr : s.node sr = ⟨L ++ up :: d :: R, Cl ++ c :: Cr, par⟩)
    (hnew : s.node new = ⟨D, C, par'⟩) (hne : sr ≠ new) (hCl : Cl.length = L.length + 1)
    (hc : c ≠ some sr) (hcn : c ≠ some new) :
    ∃ s', moveOne sr new L.length s = .ok s' ∧
      Moved s s' sr new ⟨L ++ up :: R, Cl ++ Cr, par⟩ ⟨D ++ [d], C ++ [c], par'⟩ [c] := by
  have hL : L ++ up :: d :: R = (L ++ [up]) ++ d :: R := by simp
  have hd : elemAt (s.node sr).data (L.length + 1) = .ok d := by
    rw [hsr]
    show elemAt (L ++ up :: d :: R) _ = _
    rw [hL, elemAt_append (by simp)]
  have hch : elemAt (s.node sr).child (L.length + 1) = .ok c := by
    rw [hsr]
    exact elemAt_append (by omega)
  unfold moveOne
  rw [hd, hch]
  -- the two nodes after the new one has been written and the child has its new parent
  simp only [Except.bind, adopt_node, setNode_node, if_neg hc, if_neg hne, hsr]
  rw [hL, eraseAt_append (by simp), eraseAt_append (by omega)]
  refine ⟨_, rfl, by simp, by simp, by simp, by simp, ?_, ?_⟩
  · rw [setNode_node, if_neg (Ne.symm hne), adopt_node, if_neg hcn, setNode_node, if_pos rfl, hnew]
  · intro j hj hj'
    rw [setNode_node, if_neg hj, adopt_node, setNode_node, if_neg hj']
    simp only [List.mem_singleton, eq_comm]

/-- The loop over the right half: its elements go to the new node, with the children before
them. -/
theorem moveRight_eq {sr new : Nat} {L : List α} {up : α} {Cl : List (Option Nat)}
    {c : Option Nat} {par par' : Option Nat} (hne : sr ≠ new) (hCl : Cl.length = L.length + 1) :
    ∀ {R : List α} {Cr : List (Option Nat)} {s : BTree α} {D : List α} {C : List (Option Nat)},
      Cr.length = R.length → s.node sr = ⟨L ++ up :: R, Cl ++ (Cr ++ [c]), par⟩ →
      s.node new = ⟨D, C, par'⟩ → some sr ∉ Cr → some new ∉ Cr →
      ∃ s', moveRight sr new L.length R.length s = .ok s' ∧
        Moved s s' sr new ⟨L ++ [up], Cl ++ [c], par⟩ ⟨D ++ R, C ++ Cr, par'⟩ Cr
  | [], Cr, s, D, C, hlen, hsr, hnew, _, _ => by
    have hCr : Cr = [] := List.length_eq_zero_iff.mp hlen
    subst hCr
    refine ⟨s, rfl, rfl, rfl, rfl, hsr, ?_, ?_⟩
    · rw [hnew, List.append_nil, List.append_nil]
    · intro j _ _
      rw [if_neg List.not_mem_nil]
  | d :: R, [], _, _, _, hlen, _, _, _, _ => by simp at hlen
  | d :: R, c' :: Cr, s, D, C, hlen, hsr, hnew, hs, hn => by
    have hsr' : s.node sr = ⟨L ++ up :: d :: R, Cl ++ c' :: (Cr ++ [c]), par⟩ := hsr
    obtain ⟨s₁, hstep, hm⟩ := moveOne_eq hsr' hnew hne hCl
      (fun h => hs (h ▸ List.mem_cons_self)) (fun h => hn (h ▸ List.mem_cons_self))
    obtain ⟨s', hrun, hm'⟩ := moveRight_eq hne hCl (by simpa using hlen) hm.here hm.there
      (fun h => hs (List.mem_cons_of_mem _ h)) (fun h => hn (List.mem_cons_of_mem _ h))
    refine ⟨s', ?_, ?_⟩
    · show (moveOne sr new L.length s).bind _ = _
      rw [hstep]
      exact hrun
    · refine ⟨hm'.order.trans hm.order, hm'.root.trans hm.root, hm'.next.trans hm.next, hm'.here,
        ?_, ?_⟩
      · rw [hm'.there, List.append_assoc, List.append_assoc]
        rfl
      · intro j hj hj'
        rw [hm'.rest j hj hj', hm.rest j hj hj']
        by_cases h1 : some j = c'
        · subst h1
          simp
        · by_cases h2 : some j ∈ Cr
          · simp [h1, h2]
          · simp [h1, h2]

/-- The one more child goes to the new node. -/
theorem moveLast_eq {s : BTree α} {sr new : Nat} {L R : List α} {up : α}
    {Cl C : List (Option Nat)} {c par par' : Option Nat}
    (hsr : s.node sr = ⟨L ++ [up], Cl ++ [c], par⟩) (hnew : s.node new = ⟨R, C, par'⟩)
    (hne : sr ≠ new) (hCl : Cl.length = L.length + 1) (hc : c ≠ some sr) (hcn : c ≠ some new) :
    ∃ s', moveLast sr new L.length s = .ok s' ∧
      Moved s s' sr new ⟨L ++ [up], Cl, par⟩ ⟨R, C ++ [c], par'⟩ [c] := by
  have hch : elemAt (s.node sr).child (L.length + 1) = .ok c := by
    rw [hsr]
    exact elemAt_append (by omega)
  unfold moveLast
  rw [hch]
  simp only [Except.bind, adopt_node, setNode_node, if_neg hc, if_neg hne, hsr]
  rw [eraseAt_append (by omega)]
  refine ⟨_, rfl, by simp, by simp, by simp, by simp, ?_, ?_⟩
  · rw [setNode_node, if_neg (Ne.symm hne), adopt_node, if_neg hcn, setNode_node, if_pos rfl, hnew]
  · intro j hj hj'
    rw [setNode_node, if_neg hj, adopt_node, setNode_node, if_neg hj']
    simp only [List.mem_singleton, eq_comm]

/-- **A node is split around its middle element**: the right half is in a new node, which is the
parent of its children and has the parent that the node has. -/
theorem splitNode_eq {s : BTree α} {sr : Nat} {L R : List α} {up : α}
    {Cl Cr : List (Option Nat)} {par : Option Nat}
    (hsr : s.node sr = ⟨L ++ up :: R, Cl ++ Cr, par⟩) (hL : L.length = (L ++ up :: R).length / 2)
    (hCl : Cl.length = L.length + 1) (hCr : Cr.length = R.length + 1) (hlt : sr < s.next)
    (hs : some sr ∉ Cr) (hn : some s.next ∉ Cr) :
    ∃ s', splitNode sr s = .ok (up, s.next, s') ∧
      s'.order = s.order ∧ s'.root = s.root ∧ s'.next = s.next + 1 ∧
      s'.node sr = ⟨L, Cl, par⟩ ∧ s'.node s.next = ⟨R, Cr, par⟩ ∧
      ∀ j, j ≠ sr → j ≠ s.next →
        s'.node j = if some j ∈ Cr then { s.node j with parent := some s.next } else s.node j := by
  obtain ⟨Ci, c, rfl⟩ : ∃ Ci c, Cr = Ci ++ [c] :=
    ⟨Cr.dropLast, Cr.getLast (List.ne_nil_of_length_eq_add_one hCr),
      (List.dropLast_concat_getLast _).symm⟩
  have hne : sr ≠ s.next := Nat.ne_of_lt hlt
  have hCi : Ci.length = R.length := by simpa using hCr
  simp only [List.mem_append, List.mem_singleton, not_or] at hs hn
  -- the new node is there, and empty
  obtain ⟨s₁, hs₁⟩ : ∃ s₁, (s.allocate par) = (s.next, s₁) := ⟨_, rfl⟩
  have h₁ : s₁ = { s.setNode s.next ⟨[], [], par⟩ with next := s.next + 1 } :=
    (congrArg Prod.snd hs₁).symm
  have hsr₁ : s₁.node sr = ⟨L ++ up :: R, Cl ++ (Ci ++ [c]), par⟩ := by
    rw [h₁]
    show (s.setNode s.next _).node sr = _
    rw [setNode_node, if_neg hne, hsr]
  have hnew₁ : s₁.node s.next = ⟨[], [], par⟩ := by
    rw [h₁]
    show (s.setNode s.next _).node s.next = _
    rw [setNode_node, if_pos rfl]
  obtain ⟨s₂, hmove, hm⟩ := moveRight_eq hne hCl hCi hsr₁ hnew₁ hs.1 hn.1
  obtain ⟨s₃, hlast, hm'⟩ := moveLast_eq hm.here hm.there hne hCl (Ne.symm hs.2) (Ne.symm hn.2)
  have hlen : (s.node sr).data.length = L.length + (R.length + 1) := by
    rw [hsr]
    simp
  have hhalf : (L.length + (R.length + 1)) / 2 = L.length := by
    rw [List.length_append, List.length_cons] at hL
    exact hL.symm
  have hturns : L.length + (R.length + 1) - (L.length + 1) = R.length := by omega
  have hpar : (s.node sr).parent = par := by rw [hsr]
  have hup : elemAt (L ++ [up]) (L.length : Int) = .ok up := elemAt_append rfl
  have herase : eraseAt (L ++ [up]) L.length = .ok (L ++ []) := eraseAt_append rfl
  unfold splitNode
  simp only [hpar, hs₁, hlen, hturns, hhalf]
  rw [hmove]
  show ∃ s', ((moveLast sr s.next L.length s₂).bind _) = _ ∧ _
  rw [hlast]
  simp only [Except.bind, Except.map, hm'.here, hup, herase, List.append_nil]
  refine ⟨_, rfl, ?_, ?_, ?_, ?_, ?_, ?_⟩
  · rw [setNode_order, setNode_order, hm'.order, hm.order, h₁]
    rfl
  · rw [setNode_root, setNode_root, hm'.root, hm.root, h₁]
    rfl
  · rw [setNode_next, setNode_next, hm'.next, hm.next, h₁]
  · rw [setNode_node, if_neg hne, setNode_node, if_pos rfl]
  · simp only [setNode_node, if_pos, if_neg (Ne.symm hne), hm'.there]
    rfl
  · intro j hj hj'
    rw [setNode_node, if_neg hj', setNode_node, if_neg hj, hm'.rest j hj hj', hm.rest j hj hj']
    have hs₁j : s₁.node j = s.node j := by
      rw [h₁]
      show (s.setNode s.next _).node j = _
      rw [setNode_node, if_neg hj']
    rw [hs₁j]
    by_cases h1 : some j ∈ Ci
    · simp [h1]
    · by_cases h2 : some j = c
      · subst h2
        simp [h1]
      · simp [h1, h2]

/-! ## §3. The element that goes upward. -/

/-- A new root, above the two halves of the old one. -/
theorem newRoot_node {s : BTree α} (up : α) {sr new : Nat} (hsr : sr < s.next)
    (hnew : new < s.next) (hne : sr ≠ new) :
    (s.newRoot up sr new).order = s.order ∧ (s.newRoot up sr new).root = some s.next ∧
      (s.newRoot up sr new).next = s.next + 1 ∧
      (s.newRoot up sr new).node s.next = ⟨[up], [some sr, some new], none⟩ ∧
      (s.newRoot up sr new).node sr = { s.node sr with parent := some s.next } ∧
      (s.newRoot up sr new).node new = { s.node new with parent := some s.next } ∧
      ∀ j, j ≠ s.next → j ≠ sr → j ≠ new → (s.newRoot up sr new).node j = s.node j := by
  have h1 : sr ≠ s.next := Nat.ne_of_lt hsr
  have h2 : new ≠ s.next := Nat.ne_of_lt hnew
  unfold newRoot allocate setNode
  refine ⟨rfl, rfl, rfl, ?_, ?_, ?_, ?_⟩
  · simp [h1.symm, h2.symm]
  · simp [h1, hne]
  · simp [h2, hne.symm]
  · intro j hj hj' hj''
    simp [hj, hj', hj'']

variable [LinearOrder α]

/-- The loop finds the place of the element. -/
theorem position_append {t : α} {A B : List α} (hA : ∀ x ∈ A, x < t) (hB : ∀ x ∈ B, t < x) :
    position t (A ++ B) = A.length := by
  induction A with
  | nil =>
    cases B with
    | nil => rfl
    | cons b B =>
      show (if b < t then _ else _) = _
      rw [if_neg (lt_asymm (hB b List.mem_cons_self))]
      rfl
  | cons d A ih =>
    rw [List.cons_append, position, if_pos (hA d List.mem_cons_self),
      ih (fun x hx => hA x (List.mem_cons_of_mem _ hx))]
    rfl

/-- An element that goes upward is put between its neighbours in the parent, and the new node
behind it. -/
theorem addUpward_eq {s : BTree α} {up : α} (new : Nat) {parent : Nat} {A B : List α}
    {Ps Qs : List (Option Nat)} {c par : Option Nat}
    (hn : s.node parent = ⟨A ++ B, Ps ++ c :: Qs, par⟩) (hP : Ps.length = A.length)
    (hA : ∀ x ∈ A, x < up) (hB : ∀ x ∈ B, up < x) :
    s.addUpward up new parent
      = .ok (s.setNode parent ⟨A ++ up :: B, Ps ++ c :: some new :: Qs, par⟩) := by
  have hc : Ps ++ c :: Qs = (Ps ++ [c]) ++ Qs := by simp
  unfold addUpward
  simp only [hn, position_append hA hB]
  rw [insertAt_append rfl, hc, insertAt_append (by simp [hP])]
  simp [Except.bind, Except.map]

/-- The new element is put between its neighbours in a bottom node, with a null child. -/
theorem addAt_eq {s : BTree α} {t : α} {sr : Nat} {A B : List α} {Ps Qs : List (Option Nat)}
    {par : Option Nat} (hn : s.node sr = ⟨A ++ B, Ps ++ Qs, par⟩) (hP : Ps.length = A.length)
    (hA : ∀ x ∈ A, x < t) (hB : ∀ x ∈ B, t < x) :
    s.addAt t sr = .ok (s.setNode sr ⟨A ++ t :: B, Ps ++ none :: Qs, par⟩) := by
  unfold addAt
  simp only [hn, position_append hA hB]
  rw [insertAt_append rfl, insertAt_append hP.symm]
  rfl

end Metta.MettaFs.BTree
