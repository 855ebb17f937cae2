/-
  Metta.MettaFs.BTree.Insert — `Insertion` does what the multiway search tree
  does with a new element.

  The loop of `Split_insert` goes up from the bottom: when it has come to a node,
  the nodes below it hold what the tree has become there, and the node has one
  element more if the one below it was split.

    • `Subtree` — a tree in the nodes, with its bounds and its names,
    • `climb` — the loop comes to the top of a subtree,
    • `insertion_eq` — the whole tree.
-/
import Metta.MettaFs.BTree.Split

namespace Metta.MettaFs.BTree

open Metta.Machine Multiway

variable {α : Type}

/-! ## §1. Names. -/

/-- A child has no name in common with another one. -/
theorem ids_disjoint {h : Nat} {cs : List (Multiway Nat α h)}
    (hnodup : (cs.flatMap (ids h)).Nodup) {c d : Multiway Nat α h} (hc : c ∈ cs) (hd : d ∈ cs)
    (hne : c ≠ d) {j : Nat} (hjc : j ∈ ids h c) : j ∉ ids h d := by
  rw [List.nodup_flatMap] at hnodup
  have hsymm : Std.Symm (Function.onFun List.Disjoint (ids h : Multiway Nat α h → List Nat)) :=
    ⟨fun _ _ hdisj => hdisj.symm⟩
  exact fun hjd => hnodup.2.forall hc hd hne hjc hjd

/-- The children on both sides of one have other names than it has. -/
theorem ids_beside {h : Nat} {Ps Qs : List (Multiway Nat α h)} {c d : Multiway Nat α h}
    (hnodup : ((Ps ++ c :: Qs).flatMap (ids h)).Nodup) (hd : d ∈ Ps ++ Qs) {j : Nat}
    (hj : j ∈ ids h d) : j ∉ ids h c := by
  rw [List.flatMap_append, List.flatMap_cons, List.nodup_append, List.nodup_append] at hnodup
  obtain ⟨-, ⟨-, -, hcQ⟩, hP⟩ := hnodup
  intro hjc
  rw [List.mem_append] at hd
  cases hd with
  | inl hd =>
    exact hP j (List.mem_flatMap.mpr ⟨d, hd, hj⟩) j (List.mem_append_left _ hjc) rfl
  | inr hd => exact hcQ j hjc j (List.mem_flatMap.mpr ⟨d, hd, hj⟩) rfl

/-- The name of a top is among the names of a list of trees. -/
theorem mem_flatMap_of_top {h j : Nat} {cs : List (Multiway Nat α h)}
    (hj : some j ∈ cs.map (top h)) : ∃ c ∈ cs, top h c = some j ∧ j ∈ ids h c := by
  obtain ⟨c, hc, htop⟩ := List.mem_map.mp hj
  exact ⟨c, hc, htop, mem_ids_of_top htop⟩

/-! ## §2. Up one level. -/

/-- What the loop has done below a node, and to it: the subtree is another one, `k` nodes are
new, and the other nodes are as they were. -/
structure Climbed (s s' : BTree α) (h : Nat) (parent : Option Nat) (t page : Multiway Nat α (h + 1))
    (k : Nat) : Prop where
  rep : Rep s'.node (h + 1) parent page
  order : s'.order = s.order
  root : s'.root = s.root
  next : s'.next = s.next + k
  names : (ids (h + 1) page).Perm (ids (h + 1) t ++ (List.range k).map fun i => s.next + i)
  frame : ∀ j, j ∉ ids (h + 1) t → j < s.next → s'.node j = s.node j

/-- The names are all different still, and the new ones are new. -/
theorem Climbed.fresh {s s' : BTree α} {h k : Nat} {parent : Option Nat}
    {t page : Multiway Nat α (h + 1)} (hcl : Climbed s s' h parent t page k)
    (hnodup : (ids (h + 1) t).Nodup) (hlt : ∀ j ∈ ids (h + 1) t, j < s.next) :
    (ids (h + 1) page).Nodup ∧ (∀ j ∈ ids (h + 1) page, j < s'.next) ∧
      ∀ j ∈ ids (h + 1) page, j ∈ ids (h + 1) t ∨ s.next ≤ j := by
  have hmem : ∀ j ∈ ids (h + 1) page, j ∈ ids (h + 1) t ∨ ∃ i < k, j = s.next + i := by
    intro j hj
    have hj' := hcl.names.mem_iff.mp hj
    simp only [List.mem_append, List.mem_map, List.mem_range] at hj'
    exact hj'.imp_right fun ⟨i, hi, he⟩ => ⟨i, hi, he.symm⟩
  refine ⟨?_, ?_, ?_⟩
  · rw [hcl.names.nodup_iff, List.nodup_append]
    refine ⟨hnodup, ?_, ?_⟩
    · exact List.nodup_range.map fun i j hij => Nat.add_left_cancel hij
    · intro j hj j' hj'
      obtain ⟨i, -, rfl⟩ := List.mem_map.mp hj'
      have := hlt j hj
      omega
  · intro j hj
    rw [hcl.next]
    cases hmem j hj with
    | inl hj =>
      have := hlt j hj
      omega
    | inr hj =>
      obtain ⟨i, hi, rfl⟩ := hj
      omega
  · intro j hj
    refine (hmem j hj).imp_right ?_
    intro ⟨i, _, hi⟩
    omega

section Level

variable {s s' : BTree α} {h k : Nat} {parent : Option Nat} {t : Multiway Nat α (h + 2)}
  {c page : Multiway Nat α (h + 1)} {Ps Qs : List (Multiway Nat α (h + 1))}

/-- A child that has taken the new element and is not overfull. -/
theorem Climbed.up_fits {A B : List α} (hr : Rep s.node (h + 2) parent t) (hnodup : (ids (h + 2) t).Nodup)
    (hlt : ∀ j ∈ ids (h + 2) t, j < s.next) (hd : t.data = A ++ B)
    (hc : t.child = Ps ++ c :: Qs) (hP : Ps.length = A.length) (hid : page.id = c.id)
    (hcl : Climbed s s' h (some t.id) c page k) :
    Climbed s s' (h + 1) parent t (Page.place t A.length (.fits page)) k := by
  have hnames := place_ids_perm (g := .fits page) hd hc hP hcl.names
  rw [Page.place_fits hc hP] at hnames ⊢
  have hcm : c ∈ t.child := by rw [hc]; simp
  have hsub : ∀ d ∈ t.child, ∀ j ∈ ids (h + 1) d, j ∈ ids (h + 2) t := fun d hd j hj =>
    List.mem_cons_of_mem _ (List.mem_flatMap.mpr ⟨d, hd, hj⟩)
  obtain ⟨hnot, hnd⟩ := List.nodup_cons.mp hnodup
  rw [hc] at hnd
  refine ⟨⟨?_, ?_⟩, hcl.order, hcl.root, hcl.next, hnames, ?_⟩
  · -- the node itself has the same pointers
    have htid : t.id ∉ ids (h + 1) c := fun hj => hnot (List.mem_flatMap.mpr ⟨c, hcm, hj⟩)
    rw [hcl.frame t.id htid (hlt t.id List.mem_cons_self), hr.1, hc, List.map_append,
      List.map_append, List.map_cons, List.map_cons]
    have htop : top (h + 1) page = top (h + 1) c := congrArg some hid
    rw [htop]
  · intro d hd
    have hcase : d = page ∨ d ∈ Ps ++ Qs := by
      simp only [List.mem_append, List.mem_cons] at hd ⊢
      tauto
    cases hcase with
    | inl hd =>
      rw [hd]
      exact hcl.rep
    | inr hd =>
      have hdm : d ∈ t.child := by
        rw [hc]
        simp only [List.mem_append, List.mem_cons] at hd ⊢
        tauto
      apply (hr.2 d hdm).congr
      intro j hj
      exact hcl.frame j (ids_beside hnd hd hj) (hlt j (hsub d hdm j hj))
  · intro j hj hjn
    exact hcl.frame j (fun hjc => hj (hsub c hcm j hjc)) hjn

/-- The nodes of a child that is overfull, after its split. -/
theorem Rep.halves {node : Nat → BTreeNode α} (node' : Nat → BTreeNode α) (new : Nat)
    {par : Option Nat} (par' : Option Nat) {L R : List α} {Cl Cr : List (Multiway Nat α h)}
    (hr : Rep node (h + 1) par page)
    (hnodup : (ids (h + 1) page).Nodup) (hch : page.child = Cl ++ Cr)
    (hl : node' page.id = ⟨L, Cl.map (top h), par'⟩)
    (hrt : node' new = ⟨R, Cr.map (top h), par'⟩)
    (hrest : ∀ j ∈ ids (h + 1) page, j ≠ page.id →
      node' j = if some j ∈ Cr.map (top h) then { node j with parent := some new } else node j) :
    Rep node' (h + 1) par' (Multiway.node page.id L Cl) ∧
      Rep node' (h + 1) par' (Multiway.node new R Cr) := by
  obtain ⟨hnot, hnd⟩ := List.nodup_cons.mp hnodup
  have hsub : ∀ d ∈ page.child, ∀ j ∈ ids h d, j ∈ ids (h + 1) page ∧ j ≠ page.id := by
    intro d hdm j hj
    have hmem : j ∈ page.child.flatMap (ids h) := List.mem_flatMap.mpr ⟨d, hdm, hj⟩
    exact ⟨List.mem_cons_of_mem _ hmem, fun he => hnot (he ▸ hmem)⟩
  have hleft : ∀ d ∈ Cl, d ∈ page.child := fun d hd => hch ▸ List.mem_append_left _ hd
  have hright : ∀ d ∈ Cr, d ∈ page.child := fun d hd => hch ▸ List.mem_append_right _ hd
  constructor
  · refine ⟨hl, ?_⟩
    intro d hdm
    apply (hr.2 d (hleft d hdm)).congr
    intro j hj
    obtain ⟨hjm, hjne⟩ := hsub d (hleft d hdm) j hj
    rw [hrest j hjm hjne, if_neg]
    -- no child of the right half has a name that one of the left half has
    intro hjr
    obtain ⟨e, he, -, hje⟩ := mem_flatMap_of_top hjr
    rw [hch, List.flatMap_append, List.nodup_append] at hnd
    exact hnd.2.2 j (List.mem_flatMap.mpr ⟨d, hdm, hj⟩) j (List.mem_flatMap.mpr ⟨e, he, hje⟩) rfl
  · refine ⟨hrt, ?_⟩
    intro d hdm
    have hdn : (ids h d).Nodup := (List.nodup_flatMap.mp hnd).1 d (hright d hdm)
    apply (hr.2 d (hright d hdm)).reparent hdn
    · intro j hj
      obtain ⟨hjm, hjne⟩ := hsub d (hright d hdm) j (mem_ids_of_top hj)
      rw [hrest j hjm hjne, if_pos (List.mem_map.mpr ⟨d, hdm, hj⟩)]
    · intro j hj htop
      obtain ⟨hjm, hjne⟩ := hsub d (hright d hdm) j hj
      rw [hrest j hjm hjne, if_neg]
      intro hjr
      obtain ⟨e, he, hte, hje⟩ := mem_flatMap_of_top hjr
      by_cases hde : d = e
      · exact htop (hde ▸ hte)
      · exact ids_disjoint hnd (hright d hdm) (hright e he) hde hj hje

/-- A child that has taken the new element and is overfull: the loop splits it, and comes to the
node above it. -/
theorem Climbed.up_splits [LinearOrder α] {A B L R : List α} {up : α}
    {Cl Cr : List (Multiway Nat α h)} (hr : Rep s.node (h + 2) parent t)
    (hnodup : (ids (h + 2) t).Nodup) (hlt : ∀ j ∈ ids (h + 2) t, j < s.next)
    (hd : t.data = A ++ B) (hc : t.child = Ps ++ c :: Qs) (hP : Ps.length = A.length)
    (hid : page.id = c.id) (hroot : s.root ≠ some c.id)
    (hcl : Climbed s s' h (some t.id) c page k)
    (hfull : s.order ≤ page.data.length) (hpd : page.data = L ++ up :: R)
    (hpc : page.child = Cl ++ Cr) (hL : L.length = page.data.length / 2)
    (hCl : Cl.length = L.length + 1) (hCr : Cr.length = R.length + 1)
    (hA : ∀ x ∈ A, x < up) (hB : ∀ x ∈ B, up < x) :
    ∃ s'', (∀ fuel, splitFrom (fuel + 1) c.id s' = splitFrom fuel t.id s'') ∧
      Climbed s s'' (h + 1) parent t
        (Page.place t A.length
          (.splits (Multiway.node page.id L Cl) up (Multiway.node s'.next R Cr))) (k + 1) := by
  have hnames : (ids (h + 2) (Page.place t A.length
      (.splits (Multiway.node page.id L Cl) up (Multiway.node s'.next R Cr)))).Perm
      (ids (h + 2) t ++ (List.range (k + 1)).map fun i => s.next + i) := by
    apply place_ids_perm hd hc hP
    rw [List.range_succ, List.map_append, ← List.append_assoc, List.map_singleton, ← hcl.next]
    exact (ids_halves s'.next hpc).trans (hcl.names.append_right _)
  rw [Page.place_splits hd hc hP rfl] at hnames ⊢
  have hcm : c ∈ t.child := by rw [hc]; simp
  have hsub : ∀ d ∈ t.child, ∀ j ∈ ids (h + 1) d, j ∈ ids (h + 2) t := fun d hd j hj =>
    List.mem_cons_of_mem _ (List.mem_flatMap.mpr ⟨d, hd, hj⟩)
  obtain ⟨hnot, hnd⟩ := List.nodup_cons.mp hnodup
  have htid : t.id ∉ ids (h + 1) c := fun hj => hnot (List.mem_flatMap.mpr ⟨c, hcm, hj⟩)
  have htlt : t.id < s.next := hlt t.id List.mem_cons_self
  have hnext := hcl.next
  have hcid : c.id ∈ ids (h + 1) page := hid ▸ List.mem_cons_self
  have hcn : (ids (h + 1) c).Nodup := (List.nodup_flatMap.mp hnd).1 c hcm
  obtain ⟨hpn, hpl, hpm⟩ := hcl.fresh hcn fun j hj => hlt j (hsub c hcm j hj)
  have htpage : t.id ∉ ids (h + 1) page := by
    intro hj
    cases hpm t.id hj with
    | inl hj => exact htid hj
    | inr hj => omega
  have hpt : page.id ≠ t.id := fun h => htpage ((hid.symm.trans h) ▸ hcid)
  -- the tops of the right half
  have htops : ∀ j, some j ∈ Cr.map (top h) → j ∈ ids (h + 1) page ∧ j ≠ page.id := by
    intro j hj
    obtain ⟨e, he, -, hje⟩ := mem_flatMap_of_top hj
    have hmem : j ∈ page.child.flatMap (ids h) :=
      List.mem_flatMap.mpr ⟨e, hpc ▸ List.mem_append_right _ he, hje⟩
    exact ⟨List.mem_cons_of_mem _ hmem, fun h => (List.nodup_cons.mp hpn).1 (h ▸ hmem)⟩
  have hsr : s'.node c.id = ⟨L ++ up :: R, Cl.map (top h) ++ Cr.map (top h), some t.id⟩ := by
    rw [← hid, hcl.rep.1, hpd, hpc, List.map_append]
  obtain ⟨s₂, hsplit, ho₂, hr₂, hn₂, hhere, hthere, hrest⟩ :=
    splitNode_eq hsr (by rw [← hpd, hL]) (by rw [List.length_map, hCl])
      (by rw [List.length_map, hCr]) (hpl c.id hcid) (fun hj => (htops _ hj).2 hid.symm)
      (fun hj => Nat.lt_irrefl _ (hpl _ (htops _ hj).1))
  -- the node above has been left as it was
  have hpar : s₂.node t.id = ⟨A ++ B, Ps.map (top (h + 1)) ++ some c.id :: Qs.map (top (h + 1)),
      parent⟩ := by
    rw [hrest t.id (fun h => htpage (h ▸ hcid)) (by omega),
      if_neg (fun hj => htpage (htops _ hj).1), hcl.frame t.id htid htlt, hr.1, hd, hc,
      List.map_append, List.map_cons]
    rfl
  have hadd := addUpward_eq s'.next hpar (by rw [List.length_map, hP]) hA hB
  have hthis : ∀ j, j ∉ ids (h + 1) c → j < s.next → j ≠ t.id → s₂.node j = s.node j := by
    intro j hj hjn hjt
    have hjp : j ∉ ids (h + 1) page := fun h => (hpm j h).elim hj (fun h => by omega)
    rw [hrest j (fun h => hjp (h ▸ hcid)) (by omega), if_neg (fun h => hjp (htops j h).1),
      hcl.frame j hj hjn]
  refine ⟨s₂.setNode t.id ⟨A ++ up :: B, Ps.map (top (h + 1)) ++ some c.id ::
    some s'.next :: Qs.map (top (h + 1)), parent⟩, ?_, ⟨⟨?_, ?_⟩, ho₂.trans hcl.order, hr₂.trans hcl.root, ?_, hnames, ?_⟩⟩
  · intro fuel
    have hfull' : ¬ (s'.node c.id).data.length < s'.order := by
      rw [hsr, hcl.order, ← hpd]
      exact Nat.not_lt_of_le hfull
    rw [splitFrom, if_neg hfull', hsplit]
    show (if s₂.root = some c.id then _ else _) = _
    rw [hr₂, hcl.root, if_neg hroot, hhere]
    show (s₂.addUpward up s'.next t.id).bind (splitFrom fuel t.id) = _
    rw [hadd]
    rfl
  · rw [setNode_node, if_pos rfl, List.map_append, List.map_cons, List.map_cons]
    rw [hid]
    rfl
  · intro d hdm
    have hcase : d = Multiway.node page.id L Cl ∨ d = Multiway.node s'.next R Cr ∨
        d ∈ Ps ++ Qs := by
      simp only [List.mem_append, List.mem_cons] at hdm ⊢
      tauto
    obtain ⟨hleft, hright⟩ := hcl.rep.halves
      (s₂.setNode t.id ⟨A ++ up :: B, Ps.map (top (h + 1)) ++ some c.id ::
        some s'.next :: Qs.map (top (h + 1)), parent⟩).node s'.next (some t.id) (L := L) (R := R)
      hpn hpc
      (by rw [setNode_node, if_neg hpt, hid, hhere])
      (by rw [setNode_node, if_neg (by omega), hthere])
      (by
        intro j hj hjp
        have hjt : j ≠ t.id := fun h => htpage (h ▸ hj)
        rw [setNode_node, if_neg hjt, hrest j (hid ▸ hjp) (Nat.ne_of_lt (hpl j hj))])
    rcases hcase with rfl | rfl | hdm
    · exact hleft
    · exact hright
    · have hdt : d ∈ t.child := by
        rw [hc]
        simp only [List.mem_append, List.mem_cons] at hdm ⊢
        tauto
      apply (hr.2 d hdt).congr
      intro j hj
      have hjt : j ≠ t.id := fun h => hnot (h ▸ List.mem_flatMap.mpr ⟨d, hdt, hj⟩)
      rw [setNode_node, if_neg hjt]
      exact hthis j (ids_beside (hc ▸ hnd) hdm hj) (hlt j (hsub d hdt j hj)) hjt
  · rw [setNode_next, hn₂, hnext, Nat.add_assoc]
  · intro j hj hjn
    have hjt : j ≠ t.id := fun h => hj (h ▸ List.mem_cons_self)
    rw [setNode_node, if_neg hjt]
    exact hthis j (fun hjc => hj (hsub c hcm j hjc)) hjn hjt

end Level

/-! ## §3. The climb. -/

variable [LinearOrder α]

/-- A tree in the nodes, with its bounds, and with a name of its own for each node. -/
structure Subtree (s : BTree α) (h : Nat) (parent : Option Nat) (t : Multiway Nat α h) : Prop where
  rep : Rep s.node h parent t
  filled : Filled ((s.order - 1) / 2) (s.order - 1) h t
  sized : Sized 1 (s.order - 1) h t
  ordered : Ordered h t
  nodup : (ids h t).Nodup
  lt_next : ∀ j ∈ ids h t, j < s.next

/-- The child that a new element goes to is such a tree too. -/
theorem Subtree.child {s : BTree α} {h : Nat} {parent : Option Nat} {t : Multiway Nat α (h + 1)}
    {A B : List α} {Ps Qs : List (Multiway Nat α h)} {c : Multiway Nat α h} {a : α}
    (hs : Subtree s (h + 1) parent t) (h3 : 3 ≤ s.order) (hd : t.data = A ++ B)
    (hc : t.child = Ps ++ c :: Qs) (hP : Ps.length = A.length) (hA : ∀ x ∈ A, x < a)
    (hB : ∀ x ∈ B, a < x) : Subtree s h (some t.id) c := by
  have hcm : c ∈ t.child := by rw [hc]; simp
  obtain ⟨hsc, hfc⟩ := hs.filled.2 c hcm
  have hsub : ∀ j ∈ ids h c, j ∈ t.child.flatMap (ids h) := fun j hj =>
    List.mem_flatMap.mpr ⟨c, hcm, hj⟩
  refine ⟨hs.rep.2 c hcm, hfc, Sized.mono hsc (by omega), (hs.ordered.around hd hc hP hA hB).1, ?_,
    fun j hj => hs.lt_next j (List.mem_cons_of_mem _ (hsub j hj))⟩
  exact (List.nodup_flatMap.mp (List.nodup_cons.mp hs.nodup).2).1 c hcm

/-- **The loop comes to the top of a subtree**: below it, the nodes hold what the tree has become
there; the top node is as the child that has taken the new element leaves it. -/
theorem climb {a : α} :
    ∀ {h : Nat} {s : BTree α} {parent : Option Nat} {t : Multiway Nat α (h + 1)} {A B : List α}
      {Ps Qs : List (Multiway Nat α h)} {c : Multiway Nat α h}, 3 ≤ s.order →
      Subtree s (h + 1) parent t → a ∉ elems (h + 1) t →
      (∀ d ∈ t.child, ∀ j ∈ ids h d, s.root ≠ some j) → t.data = A ++ B →
      t.child = Ps ++ c :: Qs → A.length = locate a t.data → Ps.length = A.length →
      (∀ x ∈ A, x < a) → (∀ x ∈ B, a < x) →
      ∃ s₁ s' m k, s.addAt a (bottom a h t) = .ok s₁ ∧ m ≤ h ∧
        SplitsUp h k (grow s.order (fun i => s.next + i) a h c) ∧
        Climbed s s' h parent t
          (Page.place t A.length (grow s.order (fun i => s.next + i) a h c)) k ∧
        ∀ fuel, splitFrom (fuel + 1 + m) (bottom a h t) s₁ = splitFrom (fuel + 1) t.id s'
  | 0, s, parent, t, A, B, Ps, Qs, c, h3, hs, ha, hroot, hd, hc, hA, hP, hlt, hgt => by
    have hn : s.node t.id = ⟨A ++ B, Ps.map (top 0) ++ (top 0 c :: Qs.map (top 0)), parent⟩ := by
      rw [hs.rep.1, hd, hc, List.map_append, List.map_cons]
    have hadd := addAt_eq hn (by rw [List.length_map, hP]) hlt hgt
    refine ⟨_, _, 0, 0, hadd, Nat.le_refl 0, rfl, ?_, fun fuel => rfl⟩
    have hnames : (ids 1 (Page.place t A.length (.splits c a c))).Perm (ids 1 t ++ []) :=
      place_ids_perm hd hc hP (List.Perm.refl [])
    show Climbed s _ 0 parent t (Page.place t A.length (.splits c a c)) 0
    rw [Page.place_splits hd hc hP rfl] at hnames ⊢
    refine ⟨⟨?_, fun _ _ => trivial⟩, rfl, rfl, rfl, hnames, ?_⟩
    · rw [setNode_node, if_pos rfl, List.map_append, List.map_cons, List.map_cons]
      rfl
    · intro j hj _
      have hjt : j ≠ t.id := fun h => hj (h ▸ List.mem_cons_self)
      rw [setNode_node, if_neg hjt]
  | h + 1, s, parent, t, A, B, Ps, Qs, c, h3, hs, ha, hroot, hd, hc, hA, hP, hlt, hgt => by
    have hcm : c ∈ t.child := by rw [hc]; simp
    have hsc := hs.child h3 hd hc hP hlt hgt
    have hac : a ∉ elems (h + 1) c := fun hx =>
      ha ((mem_elems_iff hs.ordered hd hc hP hlt hgt).mpr hx)
    have hcd := fun hx => hac (mem_elems_of_mem_data hsc.filled.1 hx)
    obtain ⟨A', B', Ps', c', Qs', hd', hc', hA', hP', hQ', hlt', hgt'⟩ :=
      exists_locate hsc.filled.1 (hsc.ordered.data hsc.filled.1) hcd
    have hroot' : ∀ d ∈ c.child, ∀ j ∈ ids h d, s.root ≠ some j := fun d hdm j hj =>
      hroot c hcm j (List.mem_cons_of_mem _ (List.mem_flatMap.mpr ⟨d, hdm, hj⟩))
    obtain ⟨s₁, s', m, k, hadd, hm, hk, hcl, hrun⟩ :=
      climb h3 hsc hac hroot' hd' hc' hA' hP' hlt' hgt'
    have hsize : t.data.length ≤ s.order - 1 := hs.sized.2
    have hord := ordered_place s.order (fun i => s.next + i) (by omega) hs.filled hs.ordered ha hd
      hc hA hP
    rw [grow_succ hc' hA' hP'] at hord
    rw [bottom_succ hc hA hP, grow_succ hc' hA' hP']
    have hlen := Page.place_length (g := grow s.order (fun i => s.next + i) a h c') hsc.filled.1
      hd' hc' hP'
    have hid := Page.place_id c A'.length (grow s.order (fun i => s.next + i) a h c')
    generalize hpage : Page.place c A'.length (grow s.order (fun i => s.next + i) a h c') = page
      at hcl hord hlen hid ⊢
    by_cases hfit : page.data.length < s.order
    · -- the child is not overfull, and the loop ends there as it would at this node
      rw [Page.settle_fits hfit]
      have hup := hcl.up_fits hs.rep hs.nodup hs.lt_next hd hc hP hid
      refine ⟨s₁, s', m, k, hadd, Nat.le_succ_of_le hm, Nat.lt_succ_of_le hk.le, hup, ?_⟩
      intro fuel
      rw [hrun fuel, ← hid, splitFrom, hcl.rep.1, if_pos (by rw [hcl.order]; exact hfit)]
      have htop : (s'.node t.id).data = t.data := congrArg BTreeNode.data hup.rep.1
      rw [splitFrom, htop, if_pos (by rw [hcl.order]; omega)]
    · -- the child is overfull: its own child has split, and so have all below
      have hcsize : c.data.length ≤ s.order - 1 := hsc.sized.2
      have hkh : k = h := splitsUp_of_length_lt hk (t := c) (i := A'.length)
        (by rw [hpage]; omega)
      obtain ⟨L, up, R, Cl, Cr, hpd, hpc, hL, hCl, hCr⟩ := Page.exists_middle hlen (by omega)
      have hnext : s.next + h = s'.next := by rw [hcl.next, hkh]
      have hlenb := hs.filled.1
      rw [hd, hc, List.length_append, List.length_append, List.length_cons] at hlenb
      rw [Page.settle_splits (by omega) hpd hpc hL hCl, hnext] at hord ⊢
      obtain ⟨hAup, hBup⟩ := between_of_ordered hd hc hP (by omega) hord
      obtain ⟨s'', hturn, hup⟩ := hcl.up_splits hs.rep hs.nodup hs.lt_next hd hc hP hid
        (hroot c hcm c.id List.mem_cons_self) (by omega) hpd hpc hL hCl hCr hAup hBup
      refine ⟨s₁, s'', m + 1, k + 1, hadd, Nat.succ_le_succ hm, congrArg (· + 1) hkh, hup, ?_⟩
      intro fuel
      have hfuel : fuel + 1 + (m + 1) = fuel + 1 + 1 + m := by omega
      rw [hfuel, hrun (fuel + 1), hturn (fuel + 1)]

/-! ## §4. The whole tree. -/

/-- The members of a tree, the nodes of which hold a multiway search tree. -/
structure Holds (s : BTree α) (h : Nat) (t : Multiway Nat α h) : Prop where
  subtree : Subtree s h none t
  root : s.root = top h t
  three_le : 3 ≤ s.order
  order_le : s.order ≤ 2 ^ 30

theorem Holds.searchable {s : BTree α} {h : Nat} {t : Multiway Nat α h} (hs : Holds s h t) :
    Searchable ((s.order - 1) / 2) (s.order - 1) h t := by
  have h3 := hs.three_le
  have hb := hs.order_le
  exact ⟨hs.subtree.filled, hs.subtree.sized, hs.subtree.ordered, by omega, by omega⟩

/-- There are nodes enough for the turns of the loops. -/
theorem Holds.height_le_next {s : BTree α} {h : Nat} {t : Multiway Nat α h} (hs : Holds s h t) :
    h ≤ s.next :=
  Nat.le_trans (height_le hs.subtree.filled)
    (length_le_of_nodup hs.subtree.nodup hs.subtree.lt_next)

/-- What the search remembers is nothing to the tree. -/
theorem Holds.searched {s : BTree α} {h : Nat} {t : Multiway Nat α h} (hs : Holds s h t)
    (p : Option Nat) : Holds { s with searchResult := p } h t :=
  ⟨⟨hs.subtree.rep, hs.subtree.filled, hs.subtree.sized, hs.subtree.ordered, hs.subtree.nodup,
    hs.subtree.lt_next⟩, hs.root, hs.three_le, hs.order_le⟩

/-- The first element of all. -/
theorem firstNode_holds {s : BTree α} (a : α) (h3 : 3 ≤ s.order) (hb : s.order ≤ 2 ^ 30) :
    Holds (s.firstNode a) 1 (Multiway.node s.next [a] [(), ()]) := by
  have hnode : (s.firstNode a).node s.next = ⟨[a], [none, none], none⟩ := by
    show (BTree.setNode _ s.next _).node s.next = _
    rw [setNode_node, if_pos rfl]
  have hlt : ∀ j ∈ ids 1 (Multiway.node s.next [a] [(), ()]), j < (s.firstNode a).next := by
    intro j hj
    have hj' : j = s.next := by simpa [ids, List.flatMap] using hj
    rw [hj']
    exact Nat.lt_succ_self _
  have horder : (s.firstNode a).order = s.order := rfl
  refine ⟨⟨⟨hnode, fun _ _ => trivial⟩, ⟨rfl, fun _ _ => ⟨trivial, trivial⟩⟩, ?_, ?_, ?_, hlt⟩, rfl,
    h3, hb⟩
  · show 1 ≤ 1 ∧ 1 ≤ (s.firstNode a).order - 1
    omega
  · exact List.pairwise_singleton _ a
  · exact List.nodup_singleton s.next

/-- Writing the new element leaves the other members as they are. -/
theorem addAt_members {s s₁ : BTree α} {a : α} {sr : Nat} (h : s.addAt a sr = .ok s₁) :
    s₁.searchResult = s.searchResult ∧ s₁.order = s.order ∧ s₁.next = s.next := by
  unfold addAt at h
  obtain ⟨data, -, h⟩ := bind_eq_ok.mp h
  obtain ⟨child, -, h⟩ := map_eq_ok.mp h
  subst h
  exact ⟨rfl, rfl, rfl⟩

/-- The split of an overfull root. -/
theorem split_root {s s' : BTree α} {h k : Nat} {t page : Multiway Nat α (h + 1)}
    {L R : List α} {up : α} {Cl Cr : List (Multiway Nat α h)} (hs : Subtree s (h + 1) none t)
    (hroot : s.root = some t.id) (hid : page.id = t.id) (hcl : Climbed s s' h none t page k)
    (hfull : s.order ≤ page.data.length) (hpd : page.data = L ++ up :: R)
    (hpc : page.child = Cl ++ Cr) (hL : L.length = page.data.length / 2)
    (hCl : Cl.length = L.length + 1) (hCr : Cr.length = R.length + 1) (fuel : Nat) :
    ∃ s'', splitFrom (fuel + 1) t.id s' = .ok s'' ∧ s''.order = s.order ∧
      s''.root = some (s'.next + 1) ∧ s''.next = s'.next + 2 ∧
      Rep s''.node (h + 2) none (Multiway.node (s'.next + 1) [up]
        [Multiway.node page.id L Cl, Multiway.node s'.next R Cr]) := by
  obtain ⟨hpn, hpl, -⟩ := hcl.fresh hs.nodup hs.lt_next
  have htid : t.id ∈ ids (h + 1) page := hid ▸ List.mem_cons_self
  have htlt : t.id < s'.next := hpl t.id htid
  have htops : ∀ j, some j ∈ Cr.map (top h) → j ∈ ids (h + 1) page ∧ j ≠ page.id := by
    intro j hj
    obtain ⟨e, he, -, hje⟩ := mem_flatMap_of_top hj
    have hmem : j ∈ page.child.flatMap (ids h) :=
      List.mem_flatMap.mpr ⟨e, hpc ▸ List.mem_append_right _ he, hje⟩
    exact ⟨List.mem_cons_of_mem _ hmem, fun h => (List.nodup_cons.mp hpn).1 (h ▸ hmem)⟩
  have hsr : s'.node t.id = ⟨L ++ up :: R, Cl.map (top h) ++ Cr.map (top h), none⟩ := by
    rw [← hid, hcl.rep.1, hpd, hpc, List.map_append]
  obtain ⟨s₂, hsplit, ho₂, hr₂, hn₂, hhere, hthere, hrest⟩ :=
    splitNode_eq hsr (by rw [← hpd, hL]) (by rw [List.length_map, hCl])
      (by rw [List.length_map, hCr]) htlt (fun hj => (htops _ hj).2 hid.symm)
      (fun hj => Nat.lt_irrefl _ (hpl _ (htops _ hj).1))
  obtain ⟨ho₃, hr₃, hn₃, hnew₂, hhere₃, hthere₃, hrest₃⟩ :=
    newRoot_node up (hn₂ ▸ Nat.lt_succ_of_lt htlt : t.id < s₂.next)
      (hn₂ ▸ Nat.lt_succ_self s'.next : s'.next < s₂.next) (Nat.ne_of_lt htlt)
  rw [hn₂] at hr₃ hn₃ hnew₂ hhere₃ hthere₃ hrest₃
  refine ⟨s₂.newRoot up t.id s'.next, ?_, by rw [ho₃, ho₂, hcl.order], hr₃, hn₃, ⟨?_, ?_⟩⟩
  · have hfull' : ¬ (s'.node t.id).data.length < s'.order := by
      rw [hsr, hcl.order, ← hpd]
      exact Nat.not_lt_of_le hfull
    rw [splitFrom, if_neg hfull', hsplit]
    show (if s₂.root = some t.id then _ else _) = _
    rw [hr₂, hcl.root, if_pos hroot]
  · show (s₂.newRoot up t.id s'.next).node (s'.next + 1) = _
    rw [hnew₂, ← hid]
    rfl
  · obtain ⟨hleft, hright⟩ := hcl.rep.halves (s₂.newRoot up t.id s'.next).node s'.next
      (some (s'.next + 1)) (L := L) (R := R) hpn hpc (by rw [hid, hhere₃, hhere])
      (by rw [hthere₃, hthere])
      (by
        intro j hj hjp
        have hjlt := hpl j hj
        rw [hrest₃ j (by omega) (hid ▸ hjp) (by omega), hrest j (hid ▸ hjp) (by omega)])
    intro d hd
    rw [List.mem_pair] at hd
    cases hd with
    | inl hd => exact hd ▸ hleft
    | inr hd => exact hd ▸ hright

/-- The whole loop: a tree that has taken the new element. -/
theorem splitFrom_holds {s : BTree α} {h : Nat} {t : Multiway Nat α (h + 1)} {a : α}
    (hs : Holds s (h + 1) t) (ha : a ∉ elems (h + 1) t) :
    ∃ s₁ s' h' t', s.addAt a (bottom a h t) = .ok s₁ ∧
      splitFrom s.next (bottom a h t) s₁ = .ok s' ∧ Holds s' h' t' ∧ s'.order = s.order ∧
      (elems h' t').Perm (a :: elems (h + 1) t) := by
  have h3 := hs.three_le
  have hsub := hs.subtree
  have had := fun hx => ha (mem_elems_of_mem_data hsub.filled.1 hx)
  obtain ⟨A, B, Ps, c, Qs, hd, hc, hA, hP, -, hlt, hgt⟩ :=
    exists_locate hsub.filled.1 (hsub.ordered.data hsub.filled.1) had
  have hroot : ∀ d ∈ t.child, ∀ j ∈ ids h d, s.root ≠ some j := by
    intro d hdm j hj he
    have hid : t.id = j := Option.some.inj (hs.root.symm.trans he)
    exact (List.nodup_cons.mp hsub.nodup).1 (hid ▸ List.mem_flatMap.mpr ⟨d, hdm, hj⟩)
  obtain ⟨s₁, s', m, k, hadd, hm, hk, hcl, hrun⟩ :=
    climb h3 hsub ha hroot hd hc hA hP hlt hgt
  obtain ⟨fuel, hfuel⟩ : ∃ fuel, s.next = fuel + 1 + m :=
    ⟨s.next - (m + 1), by have := hs.height_le_next; omega⟩
  -- what the abstract tree becomes
  obtain ⟨hperm, hsorted⟩ :=
    elems_grow s.order (fun i => s.next + i) (by omega) hsub.filled hsub.ordered ha
  have hfilled :=
    filled_grow s.order (fun i => s.next + i) (by omega) hsub.sized hsub.filled hsub.ordered ha
  rw [grow_succ hc hA hP] at hperm hsorted hfilled
  have hlen := Page.place_length (g := grow s.order (fun i => s.next + i) a h c) hsub.filled.1
    hd hc hP
  have hid := Page.place_id t A.length (grow s.order (fun i => s.next + i) a h c)
  generalize hpage : Page.place t A.length (grow s.order (fun i => s.next + i) a h c) = page
    at hcl hperm hsorted hfilled hlen hid
  obtain ⟨hpn, hpl, -⟩ := hcl.fresh hsub.nodup hsub.lt_next
  by_cases hfit : page.data.length < s.order
  · rw [Page.settle_fits hfit] at hperm hsorted hfilled
    refine ⟨s₁, s', h + 1, page, hadd, ?_, ⟨⟨hcl.rep, ?_, ?_, hsorted, hpn, hpl⟩, ?_, ?_, ?_⟩,
      hcl.order, hperm⟩
    · rw [hfuel, hrun, ← hid, splitFrom, hcl.rep.1, if_pos (by rw [hcl.order]; exact hfit)]
    · rw [hcl.order]
      exact hfilled.2
    · rw [hcl.order]
      exact hfilled.1
    · rw [hcl.root, hs.root]
      exact congrArg some hid.symm
    · rw [hcl.order]
      exact h3
    · rw [hcl.order]
      exact hs.order_le
  · have htsize : t.data.length ≤ s.order - 1 := hsub.sized.2
    have hkh : k = h := splitsUp_of_length_lt hk (t := t) (i := A.length) (by rw [hpage]; omega)
    obtain ⟨L, up, R, Cl, Cr, hpd, hpc, hL, hCl, hCr⟩ := Page.exists_middle hlen (by omega)
    have hnext : s.next + h = s'.next := by rw [hcl.next, hkh]
    rw [Page.settle_splits (by omega) hpd hpc hL hCl, hnext] at hperm hsorted hfilled
    obtain ⟨s'', hturn, ho'', hr'', hn'', hrep⟩ :=
      split_root hsub hs.root hid hcl (by omega) hpd hpc hL hCl hCr fuel
    have hnames : (ids (h + 2) (Multiway.node (s'.next + 1) [up]
        [Multiway.node page.id L Cl, Multiway.node s'.next R Cr])).Perm
        ((s'.next + 1) :: (ids (h + 1) page ++ [s'.next])) := by
      apply List.Perm.cons
      rw [List.flatMap_cons, List.flatMap_singleton]
      exact ids_halves s'.next hpc
    have helems : elems (h + 2) (Multiway.node (s'.next + 1) [up]
        [Multiway.node page.id L Cl, Multiway.node s'.next R Cr])
        = (Grown.splits (Multiway.node page.id L Cl) up (Multiway.node s'.next R Cr)).all
          (elems (h + 1)) := rfl
    refine ⟨s₁, s'', h + 2, _, hadd, by rw [hfuel, hrun, hturn],
      ⟨⟨hrep, ?_, ?_, ?_, ?_, ?_⟩, hr'', ?_, ?_⟩, ho'', ?_⟩
    · rw [ho'']
      refine ⟨rfl, ?_⟩
      intro d hdm
      rw [List.mem_pair] at hdm
      cases hdm with
      | inl hdm => exact hdm ▸ hfilled.1
      | inr hdm => exact hdm ▸ hfilled.2
    · show 1 ≤ 1 ∧ 1 ≤ s''.order - 1
      omega
    · show (elems (h + 2) _).Pairwise (· < ·)
      rw [helems]
      exact hsorted
    · rw [hnames.nodup_iff, List.nodup_cons, List.nodup_append]
      refine ⟨?_, hpn, List.nodup_singleton _, ?_⟩
      · intro hj
        rw [List.mem_append, List.mem_singleton] at hj
        cases hj with
        | inl hj =>
          have := hpl _ hj
          omega
        | inr hj => omega
      · intro j hj j' hj'
        have := hpl j hj
        have := List.mem_singleton.mp hj'
        omega
    · intro j hj
      have hj' := hnames.mem_iff.mp hj
      rw [List.mem_cons, List.mem_append, List.mem_singleton] at hj'
      rcases hj' with hj' | hj' | hj'
      · omega
      · have := hpl j hj'
        omega
      · omega
    · rw [ho'']
      exact h3
    · rw [ho'']
      exact hs.order_le
    · rw [helems]
      exact hperm

/-- `Search` of an element that the tree has. -/
theorem search_found {s : BTree α} {h : Nat} {t : Multiway Nat α h} {a : α} (hs : Holds s h t)
    (ha : a ∈ elems h t) :
    ∃ p, a ∈ (s.node p).data ∧ s.search a = .ok (some p, { s with searchResult := some p }) := by
  obtain ⟨p, -, hin, hsearch⟩ :=
    searchFrom_found hs.subtree.rep hs.searchable ha hs.height_le_next
  refine ⟨p, hin, ?_⟩
  unfold search
  rw [← hsearch]
  exact congrArg _ hs.root

/-- `Search` of an element that the tree has not. -/
theorem search_missed {s : BTree α} {h : Nat} {t : Multiway Nat α (h + 1)} {a : α}
    (hs : Holds s (h + 1) t) (ha : a ∉ elems (h + 1) t) :
    s.search a = .ok (none, { s with searchResult := some (bottom a h t) }) := by
  have hsearch := searchFrom_missed s.next hs.subtree.rep hs.searchable ha hs.height_le_next
  unfold search
  rw [← hsearch]
  exact congrArg _ hs.root

/-- `Search` in an empty tree. -/
theorem search_empty {s : BTree α} {a : α} (hroot : s.root = none) : s.search a = .ok (none, s) := by
  unfold search
  rw [hroot, searchFrom]

theorem insertNew_some {s : BTree α} {a : α} {r sr : Nat} (hroot : s.root = some r)
    (hsr : s.searchResult = some sr) :
    s.insertNew a = (s.addAt a sr).bind fun s =>
      if (s.node sr).data.length < s.order then .ok (true, s) else s.splitInsert := by
  unfold insertNew
  simp only [hroot, hsr]

/-- The test before `Split_insert` is the one its loop begins with. -/
theorem splitInsert_of_splitFrom {s s' : BTree α} {sr : Nat} (hsr : s.searchResult = some sr)
    (hrun : splitFrom s.next sr s = .ok s') :
    (if (s.node sr).data.length < s.order then .ok (true, s) else s.splitInsert)
      = .ok (true, s') := by
  by_cases hlt : (s.node sr).data.length < s.order
  · have hnone : splitFrom s.next sr s = .ok s := by
      cases s.next with
      | zero => rw [splitFrom, if_pos hlt]
      | succ n => rw [splitFrom, if_pos hlt]
    rw [if_pos hlt, Except.ok.inj (hnone.symm.trans hrun)]
  · rw [if_neg hlt, splitInsert]
    simp only [hsr]
    rw [hrun]
    rfl

/-- **`Insertion` of an element that the tree has not** adds it. -/
theorem insertion_new {s : BTree α} {h : Nat} {t : Multiway Nat α h} {a : α} (hs : Holds s h t)
    (ha : a ∉ elems h t) :
    ∃ s' h' t', s.insertion a = .ok (true, s') ∧ Holds s' h' t' ∧ s'.order = s.order ∧
      (elems h' t').Perm (a :: elems h t) := by
  cases h with
  | zero =>
    have hroot : s.root = none := hs.root
    refine ⟨s.firstNode a, 1, Multiway.node s.next [a] [(), ()], ?_,
      firstNode_holds a hs.three_le hs.order_le, rfl, List.Perm.refl [a]⟩
    unfold insertion
    rw [search_empty hroot]
    show s.insertNew a = _
    unfold insertNew
    simp only [hroot]
  | succ h =>
    obtain ⟨s₁, s', h', t', hadd, hrun, hs', ho', hperm⟩ :=
      splitFrom_holds (hs.searched (some (bottom a h t))) ha
    obtain ⟨hsr, -, hn⟩ := addAt_members hadd
    refine ⟨s', h', t', ?_, hs', ho', hperm⟩
    unfold insertion
    rw [search_missed hs ha]
    show BTree.insertNew { s with searchResult := some (bottom a h t) } a = _
    rw [insertNew_some (s := { s with searchResult := some (bottom a h t) }) hs.root rfl, hadd]
    exact splitInsert_of_splitFrom hsr (hn ▸ hrun)

/-- `Insertion` of an element that the tree has changes nothing but what the search remembers. -/
theorem insertion_old {s : BTree α} {h : Nat} {t : Multiway Nat α h} {a : α} (hs : Holds s h t)
    (ha : a ∈ elems h t) :
    ∃ p, s.insertion a = .ok (false, { s with searchResult := p }) := by
  obtain ⟨p, -, hsearch⟩ := search_found hs ha
  refine ⟨some p, ?_⟩
  unfold insertion
  rw [hsearch]
  rfl

end Metta.MettaFs.BTree
