/-
  Metta.MettaFs.BTree.Search — the nodes in memory are a multiway search tree,
  and `Search` goes down it.

    • `Rep` — the nodes hold a tree, with each node's parent,
    • `searchNode_found`, `searchNode_missed` — the binary search in one node,
    • `searchFrom_found`, `searchFrom_missed` — the way down.
-/
import Metta.Machine.Multiway
import Metta.MettaFs.BTree.Def

namespace Metta.MettaFs.BTree

open Metta.Machine

variable {α β : Type}

/-! ## §1. Vectors. -/

theorem elemAt_append {L R : List β} {x : β} {i : Int} (h : i = L.length) :
    elemAt (L ++ x :: R) i = .ok x := by
  unfold elemAt
  rw [if_neg (by omega), h]
  simp

theorem elemAt_getElem {v : List β} {i : Int} {n : Nat} (hi : i = n) (h : n < v.length) :
    elemAt v i = .ok v[n] := by
  unfold elemAt
  rw [if_neg (by omega), hi]
  simp [h]

theorem insertAt_append {L R : List β} {x : β} {i : Nat} (h : i = L.length) :
    insertAt (L ++ R) i x = .ok (L ++ x :: R) := by
  unfold insertAt
  rw [h, if_pos (by simp)]
  simp

theorem eraseAt_append {L R : List β} {x : β} {i : Nat} (h : i = L.length) :
    eraseAt (L ++ x :: R) i = .ok (L ++ R) := by
  unfold eraseAt
  rw [h, if_pos (by simp)]
  simp

/-! ## §2. The binary search in a node. -/

variable [LinearOrder α]

theorem half_eq (first last : Int) (h0 : 0 ≤ first) (hle : first ≤ last) (hb : last < 2 ^ 30) :
    ∃ mid, half first last = .ok mid ∧ first ≤ mid ∧ mid ≤ last := by
  refine ⟨(first + last).tdiv 2, ?_, ?_⟩
  · unfold half
    rw [if_pos (by omega)]
  · rw [Int.tdiv_eq_ediv_of_nonneg (by omega)]
    omega

/-- The element is in the node: the loop comes to it. -/
theorem binarySearch_found {t : α} {A B : List α} (hA : ∀ x ∈ A, x < t) (hB : ∀ x ∈ B, t < x)
    (hb : (A ++ t :: B).length ≤ 2 ^ 30) (fuel : Nat) {first last mid : Int} (h0 : 0 ≤ first)
    (hf : first ≤ A.length) (hl : A.length ≤ last) (hlast : last < (A ++ t :: B).length)
    (hfuel : last - first < fuel) :
    binarySearch t (A ++ t :: B) fuel first last mid = .ok .found := by
  induction fuel generalizing first last mid with
  | zero => omega
  | succ fuel ih =>
    obtain ⟨mid, hmid, hge, hle⟩ := half_eq first last h0 (by omega) (by omega)
    obtain ⟨m, rfl⟩ := Int.eq_ofNat_of_zero_le (by omega : 0 ≤ mid)
    have hm : m < (A ++ t :: B).length := by omega
    unfold binarySearch
    rw [if_pos (by omega), hmid]
    show (elemAt (A ++ t :: B) m).bind _ = _
    rw [elemAt_getElem rfl hm]
    show (if (A ++ t :: B)[m] = t then _ else _) = _
    rcases Nat.lt_trichotomy m A.length with hlt | heq | hgt
    · -- the middle is before the element
      have hd : (A ++ t :: B)[m] < t := by
        rw [List.getElem_append_left hlt]
        exact hA _ (List.getElem_mem hlt)
      rw [if_neg (ne_of_lt hd), if_pos hd, if_neg (lt_asymm hd)]
      exact ih (by omega) (by omega) hl hlast (by omega)
    · have hd : (A ++ t :: B)[m] = t := by
        subst heq
        simp
      rw [if_pos hd]
    · -- the middle is behind the element
      have hd : t < (A ++ t :: B)[m] := by
        rw [List.getElem_append_right (by omega), List.getElem_cons, dif_neg (by omega)]
        exact hB _ (List.getElem_mem _)
      rw [if_neg (ne_of_gt hd), if_neg (lt_asymm hd), if_pos hd]
      exact ih h0 hf (by omega) (by omega) (by omega)

/-- The element is not in the node: the loop ends beside the place where it would be. -/
theorem binarySearch_missed {t : α} {A B : List α} (hA : ∀ x ∈ A, x < t) (hB : ∀ x ∈ B, t < x)
    (hb : (A ++ B).length ≤ 2 ^ 30) (fuel : Nat) (first last mid : Int)
    (h0 : 0 ≤ first) (hf : first ≤ A.length) (hl : A.length ≤ last + 1) (hlast : last < (A ++ B).length)
    (hmid : first ≤ last ∨ mid = first - 1 ∨ mid = last + 1)
    (hrange : first ≤ last ∨ 0 ≤ mid ∧ mid < (A ++ B).length)
    (hfuel : last - first + 1 ≤ fuel) :
    ∃ m : Nat, binarySearch t (A ++ B) fuel first last mid = .ok (.missed m) ∧
      m < (A ++ B).length ∧ (m + 1 = A.length ∨ m = A.length) := by
  induction fuel generalizing first last mid with
  | zero =>
    obtain ⟨m, rfl⟩ := Int.eq_ofNat_of_zero_le (by omega : 0 ≤ mid)
    refine ⟨m, ?_, by omega, by omega⟩
    unfold binarySearch
    rw [if_neg (by omega)]
  | succ fuel ih =>
    by_cases hle : first ≤ last
    · obtain ⟨mid', hmid', hge, hle'⟩ := half_eq first last h0 hle (by omega)
      obtain ⟨m, rfl⟩ := Int.eq_ofNat_of_zero_le (by omega : 0 ≤ mid')
      have hm : m < (A ++ B).length := by omega
      unfold binarySearch
      rw [if_pos hle, hmid']
      show ∃ m' : Nat, (elemAt (A ++ B) m).bind _ = _ ∧ _
      rw [elemAt_getElem rfl hm]
      show ∃ m' : Nat, (if (A ++ B)[m] = t then _ else _) = _ ∧ _
      by_cases hlt : m < A.length
      · have hd : (A ++ B)[m] < t := by
          rw [List.getElem_append_left hlt]
          exact hA _ (List.getElem_mem hlt)
        rw [if_neg (ne_of_lt hd), if_pos hd, if_neg (lt_asymm hd)]
        exact ih _ _ m (by omega) (by omega) hl hlast (by omega) (by omega) (by omega)
      · have hd : t < (A ++ B)[m] := by
          rw [List.getElem_append_right (by omega)]
          exact hB _ (List.getElem_mem _)
        rw [if_neg (ne_of_gt hd), if_neg (lt_asymm hd), if_pos hd]
        exact ih _ _ m h0 hf (by omega) (by omega) (by omega) (by omega) (by omega)
    · obtain ⟨m, rfl⟩ := Int.eq_ofNat_of_zero_le (by omega : 0 ≤ mid)
      refine ⟨m, ?_, by omega, by omega⟩
      unfold binarySearch
      rw [if_neg hle]

theorem searchNode_found {t : α} {n : BTreeNode α} (hs : n.data.Pairwise (· < ·))
    (hb : n.data.length ≤ 2 ^ 30) (ht : t ∈ n.data) : searchNode t n = .ok none := by
  obtain ⟨A, B, hd⟩ := List.append_of_mem ht
  rw [hd, List.pairwise_append, List.pairwise_cons] at hs
  have hA : ∀ x ∈ A, x < t := fun x hx => hs.2.2 x hx t List.mem_cons_self
  have hlen : (A ++ t :: B).length = A.length + (B.length + 1) := by simp
  obtain ⟨mid, hmid, -⟩ :=
    half_eq 0 (((A ++ t :: B).length : Int) - 1) (Int.le_refl 0) (by omega)
      (by rw [hd] at hb; omega)
  unfold searchNode
  rw [hd, hmid]
  show (binarySearch t (A ++ t :: B) _ _ _ _).bind _ = _
  rw [binarySearch_found hA hs.2.1.1 (hd ▸ hb) _ (Int.le_refl 0) (by omega) (by omega) (by omega)
    (by omega)]
  rfl

theorem searchNode_missed {t : α} {n : BTreeNode α} {A B : List α} {Ps Qs : List (Option Nat)}
    {c : Option Nat} (hd : n.data = A ++ B) (hc : n.child = Ps ++ c :: Qs)
    (hP : Ps.length = A.length) (hA : ∀ x ∈ A, x < t) (hB : ∀ x ∈ B, t < x)
    (hb : n.data.length ≤ 2 ^ 30) (hpos : 0 < n.data.length) :
    searchNode t n = .ok (some c) := by
  rw [hd] at hb hpos
  obtain ⟨mid, hmid, -⟩ :=
    half_eq 0 (((A ++ B).length : Int) - 1) (Int.le_refl 0) (by omega)
      (by omega)
  have hlen : (A ++ B).length = A.length + B.length := List.length_append
  obtain ⟨m, hend, hm, hbeside⟩ :=
    binarySearch_missed hA hB hb ((A ++ B).length + 1) 0 (((A ++ B).length : Int) - 1) mid (Int.le_refl 0) (by omega) (by omega) (by omega)
      (Or.inl (by omega)) (Or.inl (by omega)) (by omega)
  unfold searchNode
  rw [hd, hmid]
  show (binarySearch t (A ++ B) _ _ _ _).bind _ = _
  rw [hend]
  show (elemAt (A ++ B) m).bind _ = _
  rw [elemAt_getElem rfl hm]
  show (elemAt n.child (if (A ++ B)[m] > t then (m : Int) else m + 1)).map some = _
  have hindex : (if (A ++ B)[m] > t then (m : Int) else m + 1) = Ps.length := by
    cases hbeside with
    | inl hbefore =>
      have hlt : (A ++ B)[m] < t := by
        rw [List.getElem_append_left (by omega)]
        exact hA _ (List.getElem_mem _)
      rw [if_neg (lt_asymm hlt)]
      omega
    | inr hbehind =>
      have hgt : t < (A ++ B)[m] := by
        rw [List.getElem_append_right (by omega)]
        exact hB _ (List.getElem_mem _)
      rw [if_pos hgt]
      omega
  rw [hindex, hc, elemAt_append rfl]
  rfl

/-! ## §3. A tree in the nodes. -/

section Rep

variable {α : Type}

open Multiway

/-- The nodes hold a tree: each has its elements, the pointers to its children, and its parent. -/
def Rep (node : Nat → BTreeNode α) : (h : Nat) → Option Nat → Multiway Nat α h → Prop
  | 0, _, _ => True
  | h + 1, parent, t => node t.id = ⟨t.data, t.child.map (top h), parent⟩ ∧
      ∀ c ∈ t.child, Rep node h (some t.id) c

/-- Only the nodes of a tree matter. -/
theorem Rep.congr {node node' : Nat → BTreeNode α} :
    ∀ {h : Nat} {parent : Option Nat} {t : Multiway Nat α h}, Rep node h parent t →
      (∀ j ∈ ids h t, node' j = node j) → Rep node' h parent t
  | 0, _, _, _, _ => trivial
  | h + 1, parent, t, hr, heq => by
    constructor
    · rw [heq t.id List.mem_cons_self]
      exact hr.1
    · intro c hc
      apply (hr.2 c hc).congr
      intro j hj
      apply heq
      exact List.mem_cons_of_mem _ (List.mem_flatMap.mpr ⟨c, hc, hj⟩)

/-- A tree under another parent. -/
theorem Rep.reparent {node node' : Nat → BTreeNode α} {h : Nat} {parent parent' : Option Nat}
    {t : Multiway Nat α h} (hr : Rep node h parent t) (hnodup : (ids h t).Nodup)
    (htop : ∀ j, top h t = some j → node' j = { node j with parent := parent' })
    (heq : ∀ j ∈ ids h t, top h t ≠ some j → node' j = node j) : Rep node' h parent' t := by
  cases h with
  | zero => trivial
  | succ h =>
    constructor
    · rw [htop t.id rfl, hr.1]
    · intro c hc
      apply (hr.2 c hc).congr
      intro j hj
      have hmem : j ∈ t.child.flatMap (ids h) := List.mem_flatMap.mpr ⟨c, hc, hj⟩
      apply heq j (List.mem_cons_of_mem _ hmem)
      intro h
      have hid : t.id = j := Option.some.inj h
      exact (List.nodup_cons.mp hnodup).1 (hid ▸ hmem)

/-- The name of the top node is one of the names. -/
theorem mem_ids_of_top {h j : Nat} {t : Multiway Nat α h} (htop : top h t = some j) :
    j ∈ ids h t := by
  cases h with
  | zero => cases htop
  | succ h =>
    cases htop
    exact List.mem_cons_self

/-- There are at least as many nodes as the tree is high. -/
theorem height_le {lo hi : Nat} :
    ∀ {h : Nat} {t : Multiway Nat α h}, Filled lo hi h t → h ≤ (ids h t).length
  | 0, _, _ => Nat.zero_le _
  | h + 1, t, hf => by
    obtain ⟨c, cs, hc⟩ : ∃ c cs, t.child = c :: cs :=
      List.exists_cons_of_length_eq_add_one hf.1
    have ih := height_le (hf.2 c (by rw [hc]; exact List.mem_cons_self)).2
    show h + 1 ≤ (t.id :: t.child.flatMap (ids h)).length
    rw [hc, List.flatMap_cons, List.length_cons, List.length_append]
    omega

/-- Numbers that are all different and below a bound are not more than the bound. -/
theorem length_le_of_nodup {l : List Nat} {n : Nat} (hl : l.Nodup) (hlt : ∀ j ∈ l, j < n) :
    l.length ≤ n := by
  have hsub : l ⊆ List.range n := fun j hj => List.mem_range.mpr (hlt j hj)
  simpa using (hl.subperm hsub).length_le

theorem Sized.mono {lo lo' hi h : Nat} {t : Multiway Nat α h} (hs : Sized lo hi h t)
    (hle : lo' ≤ lo) : Sized lo' hi h t := by
  cases h with
  | zero => trivial
  | succ h => exact ⟨Nat.le_trans hle hs.1, hs.2⟩

end Rep

/-! ## §4. The way down. -/

section Way

open Multiway

/-- The name of the bottom node on the way to an element. -/
def bottom (a : α) : (h : Nat) → Multiway Nat α (h + 1) → Nat
  | 0, t => t.id
  | h + 1, t =>
      match t.child[locate a t.data]? with
      | none => t.id
      | some c => bottom a h c

theorem bottom_succ {a : α} {h : Nat} {t : Multiway Nat α (h + 2)} {A : List α}
    {Ps Qs : List (Multiway Nat α (h + 1))} {c : Multiway Nat α (h + 1)}
    (hc : t.child = Ps ++ c :: Qs) (hA : A.length = locate a t.data) (hP : Ps.length = A.length) :
    bottom a (h + 1) t = bottom a h c := by
  have hget : t.child[locate a t.data]? = some c := by
    rw [hc, ← hA, ← hP]
    simp
  rw [bottom, hget]

/-- What the search needs of the nodes: they are not empty, and an `int` can number their
elements. -/
structure Searchable (lo hi : Nat) (h : Nat) (t : Multiway Nat α h) : Prop where
  filled : Filled lo hi h t
  sized : Sized 1 hi h t
  ordered : Ordered h t
  lo_pos : 1 ≤ lo
  hi_le : hi ≤ 2 ^ 30

/-- One level of the search: an element that is not in the node is for the child around which
the node's elements are. -/
theorem Searchable.around {lo hi h : Nat} {t : Multiway Nat α (h + 1)} {a : α}
    (hs : Searchable lo hi (h + 1) t) (ha : a ∉ t.data) :
    ∃ A B Ps c Qs, t.data = A ++ B ∧ t.child = Ps ++ c :: Qs ∧ A.length = locate a t.data ∧
      Ps.length = A.length ∧ (∀ x ∈ A, x < a) ∧ (∀ x ∈ B, a < x) ∧ Searchable lo hi h c ∧
      (a ∈ elems (h + 1) t ↔ a ∈ elems h c) := by
  obtain ⟨A, B, Ps, c, Qs, hd, hc, hA, hP, -, hlt, hgt⟩ :=
    exists_locate hs.filled.1 (hs.ordered.data hs.filled.1) ha
  obtain ⟨hsc, hfc⟩ := hs.filled.2 c (by rw [hc]; simp)
  exact ⟨A, B, Ps, c, Qs, hd, hc, hA, hP, hlt, hgt,
    ⟨hfc, Sized.mono hsc hs.lo_pos, (hs.ordered.around hd hc hP hlt hgt).1, hs.lo_pos, hs.hi_le⟩,
    mem_elems_iff hs.ordered hd hc hP hlt hgt⟩

/-- One turn of the loop at a node without the element. -/
theorem searchFrom_succ {lo hi h fuel : Nat} {s : BTree α} {parent : Option Nat}
    {t : Multiway Nat α (h + 1)} {a : α} {A B : List α} {Ps Qs : List (Multiway Nat α h)}
    {c : Multiway Nat α h} (hr : Rep s.node (h + 1) parent t) (hs : Searchable lo hi (h + 1) t)
    (hd : t.data = A ++ B) (hc : t.child = Ps ++ c :: Qs) (hP : Ps.length = A.length)
    (hA : ∀ x ∈ A, x < a) (hB : ∀ x ∈ B, a < x) :
    searchFrom a (fuel + 1) s (some t.id)
      = searchFrom a fuel { s with searchResult := some t.id } (top h c) := by
  have hsize : 1 ≤ t.data.length ∧ t.data.length ≤ hi := hs.sized
  have hhi := hs.hi_le
  rw [searchFrom]
  show (searchNode a (s.node t.id)).bind _ = _
  rw [hr.1, searchNode_missed (c := top h c) hd (by rw [hc, List.map_append, List.map_cons])
    (by rw [List.length_map, hP]) hA hB (by show t.data.length ≤ _; omega)
    (by show 0 < t.data.length; omega)]
  rfl

/-- **An element of the tree is found**, in a node that has it. -/
theorem searchFrom_found {lo hi : Nat} {a : α} :
    ∀ {h fuel : Nat} {s : BTree α} {parent : Option Nat} {t : Multiway Nat α h},
      Rep s.node h parent t → Searchable lo hi h t → a ∈ elems h t → h ≤ fuel →
      ∃ p, p ∈ ids h t ∧ a ∈ (s.node p).data ∧
        searchFrom a fuel s (top h t) = .ok (some p, { s with searchResult := some p })
  | 0, _, _, _, _, _, _, ha, _ => absurd ha List.not_mem_nil
  | h + 1, 0, _, _, _, _, _, _, hfuel => absurd hfuel (by omega)
  | h + 1, fuel + 1, s, parent, t, hr, hs, ha, hfuel => by
    show ∃ p, _ ∧ _ ∧ searchFrom a (fuel + 1) s (some t.id) = _
    by_cases hmem : a ∈ t.data
    · refine ⟨t.id, List.mem_cons_self, by rw [hr.1]; exact hmem, ?_⟩
      have hsize : 1 ≤ t.data.length ∧ t.data.length ≤ hi := hs.sized
      have hhi := hs.hi_le
      rw [searchFrom]
      show (searchNode a (s.node t.id)).bind _ = _
      rw [hr.1, searchNode_found (hs.ordered.data hs.filled.1)
        (by show t.data.length ≤ _; omega) hmem]
      rfl
    · obtain ⟨A, B, Ps, c, Qs, hd, hc, -, hP, hlt, hgt, hsc, hiff⟩ := hs.around hmem
      have hcm : c ∈ t.child := by rw [hc]; simp
      rw [searchFrom_succ hr hs hd hc hP hlt hgt]
      obtain ⟨p, hp, hin, heq⟩ :=
        searchFrom_found (s := { s with searchResult := some t.id }) (hr.2 c hcm) hsc (hiff.mp ha)
          (Nat.le_of_succ_le_succ hfuel)
      exact ⟨p, List.mem_cons_of_mem _ (List.mem_flatMap.mpr ⟨c, hcm, hp⟩), hin, heq⟩

/-- **An element that is not in the tree is not found**, and the search has ended in the bottom
node on its way. -/
theorem searchFrom_missed {lo hi : Nat} {a : α} :
    ∀ {h : Nat} (fuel : Nat) {s : BTree α} {parent : Option Nat} {t : Multiway Nat α (h + 1)},
      Rep s.node (h + 1) parent t → Searchable lo hi (h + 1) t → a ∉ elems (h + 1) t →
      h + 1 ≤ fuel →
      searchFrom a fuel s (some t.id)
        = .ok (none, { s with searchResult := some (bottom a h t) })
  | _, 0, _, _, _, _, _, _, hfuel => absurd hfuel (by omega)
  | 0, fuel + 1, s, parent, t, hr, hs, ha, _ => by
    have hmem := fun hx => ha (mem_elems_of_mem_data hs.filled.1 hx)
    obtain ⟨A, B, Ps, c, Qs, hd, hc, -, hP, hlt, hgt, -⟩ := hs.around hmem
    rw [searchFrom_succ hr hs hd hc hP hlt hgt]
    cases fuel with
    | zero => rfl
    | succ fuel => rfl
  | h + 1, fuel + 1, s, parent, t, hr, hs, ha, hfuel => by
    have hmem := fun hx => ha (mem_elems_of_mem_data hs.filled.1 hx)
    obtain ⟨A, B, Ps, c, Qs, hd, hc, hA, hP, hlt, hgt, hsc, hiff⟩ := hs.around hmem
    rw [searchFrom_succ hr hs hd hc hP hlt hgt, bottom_succ hc hA hP]
    exact searchFrom_missed fuel (s := { s with searchResult := some t.id })
      (hr.2 c (by rw [hc]; simp)) hsc (fun hx => ha (hiff.mpr hx))
      (Nat.le_of_succ_le_succ hfuel)

end Way

end Metta.MettaFs.BTree
