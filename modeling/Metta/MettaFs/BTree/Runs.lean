/-
  Metta.MettaFs.BTree.Runs — sequences of calls of `Insertion` and `Search`.

    • `calls_as_set` — with an order of three or more, no call faults and each answers as
      a set would; `print` visits the elements of the set in their order,
    • `calls_return_iff` — with a smaller order there are calls that fault,
    • `balanced` — the ways down are of one length, which the number of elements
      bounds,
    • `nodes_in_order` — the elements around a child are around what is below it.
-/
import Metta.MettaFs.BTree.Insert

namespace Metta.MettaFs.BTree

open Metta.Machine Multiway

variable {α : Type}

/-! ## §1. Sequences of calls. -/

/-- A call of one of the two operations. -/
inductive Op (α : Type) where
  | insert (t : α)
  | search (t : α)

section Calls

variable [LinearOrder α]

/-- One call: whether the element was inserted, or found. -/
def exec (s : BTree α) : Op α → Except Fault (Bool × BTree α)
  | .insert t => s.insertion t
  | .search t => (s.search t).map fun (p, s) => (p.isSome, s)

/-- One call after another. -/
def run : BTree α → List (Op α) → Except Fault (List Bool × BTree α)
  | s, [] => .ok ([], s)
  | s, op :: ops => (exec s op).bind fun (b, s) => (run s ops).map fun (bs, s) => (b :: bs, s)

/-- What a set answers. -/
def answers : Finset α → List (Op α) → List Bool
  | _, [] => []
  | seen, .insert t :: ops => decide (t ∉ seen) :: answers (insert t seen) ops
  | seen, .search t :: ops => decide (t ∈ seen) :: answers seen ops

/-- The elements that were inserted. -/
def contents : Finset α → List (Op α) → Finset α
  | seen, [] => seen
  | seen, .insert t :: ops => contents (insert t seen) ops
  | seen, .search _ :: ops => contents seen ops

theorem toFinset_insert {a : α} {l l' : List α} (h : l'.Perm (a :: l)) :
    l'.toFinset = insert a l.toFinset := by
  rw [List.toFinset_eq_of_perm _ _ h, List.toFinset_cons]

/-- One call of a tree that holds a search tree: it is answered, and the tree holds one again. -/
theorem exec_holds {s : BTree α} {h : Nat} {t : Multiway Nat α h} (hs : Holds s h t) (op : Op α) :
    ∃ s' h' t', exec s op = .ok ((answers (elems h t).toFinset [op]).headD false, s') ∧
      Holds s' h' t' ∧ s'.order = s.order ∧
      (elems h' t').toFinset = contents (elems h t).toFinset [op] := by
  cases op with
  | insert a =>
    by_cases ha : a ∈ elems h t
    · obtain ⟨p, heq⟩ := insertion_old hs ha
      refine ⟨_, h, t, ?_, hs.searched p, rfl, ?_⟩
      · show s.insertion a = _
        rw [heq]
        simp [answers, ha]
      · show _ = insert a (elems h t).toFinset
        rw [Finset.insert_eq_of_mem (List.mem_toFinset.mpr ha)]
    · obtain ⟨s', h', t', heq, hs', ho, hperm⟩ := insertion_new hs ha
      refine ⟨s', h', t', ?_, hs', ho, toFinset_insert hperm⟩
      show s.insertion a = _
      rw [heq]
      simp [answers, ha]
  | search a =>
    by_cases ha : a ∈ elems h t
    · obtain ⟨p, -, heq⟩ := search_found hs ha
      refine ⟨_, h, t, ?_, hs.searched (some p), rfl, rfl⟩
      show (s.search a).map _ = _
      rw [heq]
      simp [answers, ha, Except.map]
    · cases h with
      | zero =>
        refine ⟨s, 0, t, ?_, hs, rfl, rfl⟩
        show (s.search a).map _ = _
        rw [search_empty hs.root]
        simp [answers, ha, Except.map]
      | succ h =>
        refine ⟨_, h + 1, t, ?_, hs.searched (some (bottom a h t)), rfl, rfl⟩
        show (s.search a).map _ = _
        rw [search_missed hs ha]
        simp [answers, ha, Except.map]

theorem run_cons {s s' : BTree α} {b : Bool} (op : Op α) {ops : List (Op α)}
    (h : exec s op = .ok (b, s')) :
    run s (op :: ops) = (run s' ops).map fun (bs, s) => (b :: bs, s) := by
  rw [run, h]
  rfl

theorem answers_cons (seen : Finset α) (op : Op α) (ops : List (Op α)) :
    answers seen (op :: ops)
      = (answers seen [op]).headD false :: answers (contents seen [op]) ops := by
  cases op <;> rfl

theorem contents_cons (seen : Finset α) (op : Op α) (ops : List (Op α)) :
    contents seen (op :: ops) = contents (contents seen [op]) ops := by
  cases op <;> rfl

/-- Any sequence of calls of such a tree. -/
theorem run_holds (ops : List (Op α)) :
    ∀ {s : BTree α} {h : Nat} {t : Multiway Nat α h}, Holds s h t →
      ∃ s' h' t', run s ops = .ok (answers (elems h t).toFinset ops, s') ∧ Holds s' h' t' ∧
        s'.order = s.order ∧ (elems h' t').toFinset = contents (elems h t).toFinset ops := by
  induction ops with
  | nil => exact fun hs => ⟨_, _, _, rfl, hs, rfl, rfl⟩
  | cons op ops ih =>
    intro s h t hs
    obtain ⟨s₁, h₁, t₁, hexec, hs₁, ho₁, hc₁⟩ := exec_holds hs op
    obtain ⟨s', h', t', hrun, hs', ho', hc'⟩ := ih hs₁
    refine ⟨s', h', t', ?_, hs', ho'.trans ho₁, ?_⟩
    · rw [run_cons op hexec, hrun, hc₁, answers_cons _ op ops]
      rfl
    · rw [hc', hc₁, contents_cons _ op ops]

/-- A new tree holds the empty search tree. -/
theorem new_holds {order : Nat} (h3 : 3 ≤ order) (hb : order ≤ 2 ^ 30) :
    Holds (new order : BTree α) 0 () :=
  ⟨⟨trivial, trivial, trivial, List.Pairwise.nil, List.nodup_nil,
    fun _ hj => absurd hj List.not_mem_nil⟩, rfl, h3, hb⟩

end Calls

/-! ## §2. Ways down. -/

/-- A way down from a pointer to a null pointer, past that many nodes. -/
def Way (s : BTree α) : Nat → Option Nat → Prop
  | 0, c => c = none
  | n + 1, c => ∃ p, c = some p ∧ ∃ d ∈ (s.node p).child, Way s n d

/-- All ways down a subtree are as long as it is high. -/
theorem way_iff {s : BTree α} {lo hi : Nat} :
    ∀ {h n : Nat} {parent : Option Nat} {t : Multiway Nat α h}, Rep s.node h parent t →
      Filled lo hi h t → (Way s n (top h t) ↔ n = h)
  | 0, 0, _, _, _, _ => by
    constructor
    · exact fun _ => rfl
    · exact fun _ => rfl
  | 0, n + 1, _, _, _, _ => by
    constructor
    · intro ⟨p, hp, _⟩
      cases hp
    · exact fun h => absurd h (Nat.succ_ne_zero n)
  | h + 1, 0, _, _, _, _ => by
    constructor
    · intro hw
      cases hw
    · exact fun h => absurd h.symm (Nat.succ_ne_zero _)
  | h + 1, n + 1, parent, t, hr, hf => by
    have hchild : (s.node t.id).child = t.child.map (top h) := by rw [hr.1]
    constructor
    · intro ⟨p, hp, d, hd, hw⟩
      have hid : t.id = p := Option.some.inj hp
      rw [← hid, hchild] at hd
      obtain ⟨c, hc, rfl⟩ := List.mem_map.mp hd
      exact congrArg (· + 1) ((way_iff (hr.2 c hc) (hf.2 c hc).2).mp hw)
    · intro hn
      obtain ⟨c, cs, hc⟩ := List.exists_cons_of_length_eq_add_one hf.1
      have hcm : c ∈ t.child := hc ▸ List.mem_cons_self
      refine ⟨t.id, rfl, top h c, ?_, (way_iff (hr.2 c hcm) (hf.2 c hcm).2).mpr (Nat.succ.inj hn)⟩
      rw [hchild]
      exact List.mem_map_of_mem hcm

/-! ## §3. What the root leads to. -/

/-- The nodes that the root leads to. -/
inductive Reached (s : BTree α) : Nat → Prop
  | root {p : Nat} (hp : s.root = some p) : Reached s p
  | child {p c : Nat} (hp : Reached s p) (hc : some c ∈ (s.node p).child) : Reached s c

/-- The elements below a pointer. -/
inductive Below (s : BTree α) : Option Nat → α → Prop
  | here {p : Nat} {x : α} (hx : x ∈ (s.node p).data) : Below s (some p) x
  | down {p : Nat} {c : Option Nat} {x : α} (hc : c ∈ (s.node p).child) (hx : Below s c x) :
      Below s (some p) x

/-- What is below the pointer to a subtree is in the subtree. -/
theorem Below.mem {s : BTree α} {lo hi : Nat} {c : Option Nat} {x : α} (hx : Below s c x) :
    ∀ {h : Nat} {par : Option Nat} {t : Multiway Nat α h}, Rep s.node h par t →
      Filled lo hi h t → top h t = c → x ∈ elems h t := by
  induction hx with
  | here hx =>
    intro h par t hrep hfill htop
    cases h with
    | zero => cases htop
    | succ h =>
      have hid : t.id = _ := Option.some.inj htop
      rw [← hid, hrep.1] at hx
      exact mem_elems_of_mem_data hfill.1 hx
  | down hc _ ih =>
    intro h par t hrep hfill htop
    cases h with
    | zero => cases htop
    | succ h =>
      have hid : t.id = _ := Option.some.inj htop
      rw [← hid, hrep.1] at hc
      obtain ⟨e, he, hte⟩ := List.mem_map.mp hc
      have hin := ih (hrep.2 e he) (hfill.2 e he).2 hte
      exact (sublist_weave (by rw [List.length_map, hfill.1]) (List.mem_map_of_mem he)).subset hin

/-! ## §4. `travel`. -/

/-- The loop over the children of a node. -/
theorem visits_eq {h : Nat} {go : Option Nat → Except Fault (List α)}
    {cs : List (Multiway Nat α h)} {ds : List α} (hlen : cs.length = ds.length + 1)
    (hgo : ∀ c ∈ cs, go (top h c) = .ok (elems h c)) :
    visits go (cs.map (top h)) ds = .ok (weave (cs.map (elems h)) ds) := by
  induction ds generalizing cs with
  | nil =>
    obtain ⟨c, rfl⟩ := List.length_eq_one_iff.mp hlen
    exact hgo c List.mem_cons_self
  | cons d ds ih =>
    obtain ⟨c, cs, rfl⟩ := List.exists_cons_of_length_eq_add_one hlen
    obtain ⟨c', cs, rfl⟩ : ∃ c' cs', cs = c' :: cs' :=
      List.exists_cons_of_length_eq_add_one (by simpa using hlen)
    have hrest := @ih (c' :: cs) (by simpa using hlen)
      fun e he => hgo e (List.mem_cons_of_mem _ he)
    show (go (top h c)).bind _ = _
    rw [hgo c List.mem_cons_self]
    show (visits go ((c' :: cs).map (top h)) ds).map _ = _
    rw [hrest]
    rfl

/-- `travel` visits the elements of a subtree in the order of the tree. -/
theorem travelFrom_eq {s : BTree α} {lo hi : Nat} :
    ∀ {h fuel : Nat} {parent : Option Nat} {t : Multiway Nat α h}, Rep s.node h parent t →
      Filled lo hi h t → h ≤ fuel → s.travelFrom fuel (top h t) = .ok (elems h t)
  | 0, 0, _, _, _, _, _ => rfl
  | 0, _ + 1, _, _, _, _, _ => rfl
  | h + 1, 0, _, _, _, _, hfuel => absurd hfuel (by omega)
  | h + 1, fuel + 1, parent, t, hr, hf, hfuel => by
    show visits (s.travelFrom fuel) (s.node t.id).child (s.node t.id).data = _
    rw [hr.1]
    exact visits_eq hf.1 fun c hc =>
      travelFrom_eq (hr.2 c hc) (hf.2 c hc).2 (Nat.le_of_succ_le_succ hfuel)

variable [LinearOrder α]

theorem print_eq {s : BTree α} {h : Nat} {t : Multiway Nat α h} (hs : Holds s h t) :
    s.print = .ok ((elems h t).toFinset.sort (· ≤ ·)) := by
  have hsort : (elems h t).toFinset.sort (· ≤ ·) = elems h t := by
    have hnodup : (elems h t).Nodup := hs.subtree.ordered.imp fun h => ne_of_lt h
    rw [List.toFinset_sort _ hnodup]
    exact hs.subtree.ordered.imp fun h => le_of_lt h
  rw [hsort, ← travelFrom_eq hs.subtree.rep hs.subtree.filled hs.height_le_next, ← hs.root]
  rfl

/-- **The tree is a set.**  With an order of three or more, every call of every sequence returns,
an element is inserted exactly when it was not there, and found exactly when it was inserted; the
node that `Search` returns has it, and `print` visits what was inserted in increasing order. -/
theorem calls_as_set {order : Nat} (h3 : 3 ≤ order) (hb : order ≤ 2 ^ 30) (ops : List (Op α)) :
    ∃ s, run (new order) ops = .ok (answers ∅ ops, s) ∧
      s.print = .ok ((contents ∅ ops).sort (· ≤ ·)) ∧
      ∀ a ∈ contents ∅ ops, ∃ p s', s.search a = .ok (some p, s') ∧ a ∈ (s'.node p).data := by
  obtain ⟨s, h, t, hrun, hs, -, hc⟩ := run_holds ops (new_holds (α := α) h3 hb)
  have hc' : (elems h t).toFinset = contents ∅ ops := hc
  refine ⟨s, hrun, ?_, ?_⟩
  · rw [print_eq hs, hc']
  · intro a ha
    rw [← hc', List.mem_toFinset] at ha
    obtain ⟨p, hin, hsearch⟩ := search_found hs ha
    exact ⟨p, _, hsearch, hin⟩

/-- Insertions that split a leaf twice, one of an element that is there, and two searches. -/
def calls : List (Op Nat) :=
  [.insert 2, .insert 1, .insert 3, .insert 5, .insert 4, .insert 2, .search 4, .search 6]

/-- The tree of `calls`: a root with two elements above three leaves. -/
theorem run_calls :
    ∃ s, run (new 3) calls = .ok ([true, true, true, true, true, false, true, false], s) ∧
      s.root = some 2 ∧ s.node 2 = ⟨[2, 4], [some 0, some 1, some 3], none⟩ ∧
      s.node 3 = ⟨[5], [none, none], some 2⟩ :=
  ⟨_, rfl, rfl, rfl, rfl⟩

theorem calls_as_set_splits :
    3 ≤ 3 ∧ 3 ≤ 2 ^ 30 ∧
    ∃ s, run (new 3) calls = .ok (answers ∅ calls, s) ∧
      s.print = .ok ((contents ∅ calls).sort (· ≤ ·)) ∧
      ∀ a ∈ contents ∅ calls, ∃ p s', s.search a = .ok (some p, s') ∧ a ∈ (s'.node p).data :=
  ⟨Nat.le_refl 3, by norm_num, calls_as_set (Nat.le_refl 3) (by norm_num) calls⟩

/-! ## §5. Small orders. -/

/-- The first binary search in a node without elements reads the first of them. -/
theorem searchNode_empty (t : α) (child : List (Option Nat)) (parent : Option Nat) :
    searchNode t ⟨[], child, parent⟩ = .error .outOfRange := rfl

/-- The second element, when it is greater and the order is below three: the root has it, and
the node behind it has none. -/
theorem insertion_second {order : Nat} (hlt : order < 3) {a b : α} (hab : a < b) :
    ∃ s, insertion ((new order).firstNode a) b = .ok (true, s) ∧ s.root = some 2 ∧ s.next = 3 ∧
      s.node 2 = ⟨[b], [some 0, some 1], none⟩ ∧ s.node 1 = ⟨[], [none], some 2⟩ := by
  have hA : ∀ x ∈ [a], x < b := fun x hx => List.mem_singleton.mp hx ▸ hab
  have hB : ∀ x ∈ ([] : List α), b < x := fun x hx => absurd hx List.not_mem_nil
  have hn : ((new order).firstNode a).node 0 = ⟨[a], [none, none], none⟩ := rfl
  -- the search ends in the only node
  have hsearch : ((new order).firstNode a).search b
      = .ok (none, { (new order).firstNode a with searchResult := some 0 }) := by
    show searchFrom b 1 ((new order).firstNode a) (some 0) = _
    rw [searchFrom]
    show (searchNode b (((new order).firstNode a).node 0)).bind _ = _
    rw [hn, searchNode_missed (show _ = [a] ++ [] from rfl) (show _ = [none] ++ none :: [] from rfl)
      rfl hA hB (by simp) (by simp)]
    rfl
  have hn₀ : BTree.node { (new order).firstNode a with searchResult := some 0 } 0
      = ⟨[a] ++ [], [none] ++ [none], none⟩ := rfl
  have hadd : addAt { (new order).firstNode a with searchResult := some 0 } b 0
      = .ok (setNode { (new order).firstNode a with searchResult := some 0 } 0
          ⟨[a, b], [none, none, none], none⟩) :=
    addAt_eq hn₀ rfl hA hB
  generalize hs₁ : setNode { (new order).firstNode a with searchResult := some 0 } 0
    ⟨[a, b], [none, none, none], none⟩ = s₁ at hadd
  have hn₁ : s₁.node 0 = ⟨[a] ++ b :: [], [none, none] ++ [none], none⟩ := by
    rw [← hs₁, setNode_node, if_pos rfl]
    rfl
  have hnext : s₁.next = 1 := by rw [← hs₁]; rfl
  have hroot : s₁.root = some 0 := by rw [← hs₁]; rfl
  have horder : s₁.order = order := by rw [← hs₁]; rfl
  have hsr : s₁.searchResult = some 0 := by rw [← hs₁]; rfl
  obtain ⟨s₂, hsplit, -, hr₂, hn₂, hhere, hthere, -⟩ :=
    splitNode_eq hn₁ (by simp) rfl rfl (by omega) (by simp) (by simp)
  rw [hnext] at hn₂ hsplit hthere
  obtain ⟨-, hr₃, hn₃, hnew, -, hbehind, -⟩ :=
    newRoot_node b (hn₂ ▸ (by decide) : 0 < s₂.next) (hn₂ ▸ (by decide) : 1 < s₂.next)
      (by decide : (0 : Nat) ≠ 1)
  rw [hn₂] at hr₃ hn₃ hnew hbehind
  have hrun : splitFrom s₁.next 0 s₁ = .ok (s₂.newRoot b 0 1) := by
    rw [hnext, splitFrom, hn₁, horder, if_neg (by simp; omega), hsplit]
    show (if s₂.root = some 0 then _ else _) = _
    rw [hr₂, if_pos hroot]
  refine ⟨s₂.newRoot b 0 1, ?_, hr₃, hn₃, hnew, ?_⟩
  · unfold insertion
    rw [hsearch]
    show insertNew { (new order).firstNode a with searchResult := some 0 } b = _
    rw [insertNew_some (s := { (new order).firstNode a with searchResult := some 0 }) rfl rfl, hadd]
    exact splitInsert_of_splitFrom hsr hrun
  · rw [hbehind, hthere]

/-- With an order below three there are three elements whose insertions fault. -/
theorem run_small {order : Nat} (hlt : order < 3) {a b c : α} (hab : a < b) (hbc : b < c) :
    run (new order) [.insert a, .insert b, .insert c] = .error .outOfRange := by
  obtain ⟨s, hins, hroot, hnext, hn2, hn1⟩ := insertion_second hlt hab
  have hsearch : s.search c = .error .outOfRange := by
    unfold search
    rw [hroot, hnext, searchFrom]
    show (searchNode c (s.node 2)).bind _ = _
    rw [hn2, searchNode_missed (show _ = [b] ++ [] from rfl)
      (show _ = [some 0] ++ some 1 :: [] from rfl) rfl
      (fun x hx => List.mem_singleton.mp hx ▸ hbc) (fun x hx => absurd hx List.not_mem_nil)
      (by simp) (by simp)]
    show (searchNode c (s.node 1)).bind _ = _
    rw [hn1, searchNode_empty]
    rfl
  have hthird : insertion s c = .error .outOfRange := by
    unfold insertion
    rw [hsearch]
    rfl
  have hfirst : exec (new order) (.insert a) = .ok (true, (new order).firstNode a) := rfl
  rw [run_cons (.insert a) hfirst, run_cons (.insert b) hins, run]
  show (((insertion s c).bind _).map _).map _ = _
  rw [hthird]
  rfl

/-- **An order of three is needed, and enough**, for no call to fault. -/
theorem calls_return_iff {order : Nat} (hb : order ≤ 2 ^ 30) {a b c : α} (hab : a < b) (hbc : b < c) :
    (∀ ops : List (Op α), ∃ r, run (new order) ops = .ok r) ↔ 3 ≤ order := by
  constructor
  · intro h
    apply Nat.le_of_not_lt
    intro hlt
    obtain ⟨r, hr⟩ := h [.insert a, .insert b, .insert c]
    rw [run_small hlt hab hbc] at hr
    cases hr
  · intro h3 ops
    obtain ⟨s, h, t, hrun, -⟩ := run_holds ops (new_holds (α := α) h3 hb)
    exact ⟨_, hrun⟩

/-- Elements that are numbers, and the least order. -/
theorem calls_return_iff_three :
    (3 ≤ 2 ^ 30 ∧ 1 < 2 ∧ 2 < 3) ∧
    ((∀ ops : List (Op Nat), ∃ r, run (new 3) ops = .ok r) ↔ 3 ≤ 3) :=
  ⟨by norm_num, calls_return_iff (by norm_num) (by decide : (1 : Nat) < 2) (by decide : (2 : Nat) < 3)⟩

/-! ## §6. The shape of the tree. -/

/-- A search that has come to its end is not changed by more turns. -/
theorem searchFrom_mono {a : α} {r : Option Nat × BTree α} :
    ∀ {n m : Nat} {s : BTree α} {c : Option Nat}, searchFrom a n s c = .ok r → n ≤ m →
      searchFrom a m s c = .ok r
  | 0, 0, _, none, h, _ => h
  | 0, _ + 1, _, none, h, _ => h
  | _ + 1, _ + 1, _, none, h, _ => h
  | _ + 1, 0, _, _, _, hle => absurd hle (by omega)
  | 0, _, _, some _, h, _ => by cases h
  | n + 1, m + 1, s, some p, h, hle => by
    rw [searchFrom] at h ⊢
    obtain ⟨found, hnode, h⟩ := bind_eq_ok.mp h
    rw [hnode]
    cases found with
    | none => exact h
    | some c => exact searchFrom_mono h (Nat.le_of_succ_le_succ hle)

/-- The search in a tree takes no more turns than the tree is high. -/
theorem searchFrom_height {s : BTree α} {h : Nat} {t : Multiway Nat α h} (hs : Holds s h t)
    (a : α) : searchFrom a h s s.root = s.search a := by
  obtain ⟨r, hr⟩ : ∃ r, searchFrom a h s s.root = .ok r := by
    rw [hs.root]
    by_cases ha : a ∈ elems h t
    · obtain ⟨p, -, -, hsearch⟩ :=
        searchFrom_found hs.subtree.rep hs.searchable ha (Nat.le_refl h)
      exact ⟨_, hsearch⟩
    · cases h with
      | zero => exact ⟨_, rfl⟩
      | succ h =>
        exact ⟨_, searchFrom_missed (h + 1) hs.subtree.rep hs.searchable ha (Nat.le_refl _)⟩
  unfold search
  rw [hr, searchFrom_mono hr hs.height_le_next]

/-- **The tree is balanced.**  After any sequence of calls all ways down from the root are of one
length, which grows with the logarithm of the number of elements, and a search visits no more
nodes than that. -/
theorem balanced {order : Nat} (h3 : 3 ≤ order) (hb : order ≤ 2 ^ 30) (ops : List (Op α))
    {bs : List Bool} {s : BTree α} (hrun : run (new order) ops = .ok (bs, s)) :
    ∃ h, (∀ n, Way s n s.root ↔ n = h) ∧
      (0 < h → 2 * ((order + 1) / 2) ^ (h - 1) ≤ (contents ∅ ops).card + 1) ∧
      ∀ a, searchFrom a h s s.root = s.search a := by
  obtain ⟨s', h, t, hrun', hs, ho, hc⟩ := run_holds ops (new_holds (α := α) h3 hb)
  obtain ⟨-, rfl⟩ := Prod.mk.inj (Except.ok.inj (hrun.symm.trans hrun'))
  refine ⟨h, ?_, ?_, searchFrom_height hs⟩
  · intro n
    rw [hs.root]
    exact way_iff hs.subtree.rep hs.subtree.filled
  · intro hpos
    have hc' : (elems h t).toFinset = contents ∅ ops := hc
    have hnodup : (elems h t).Nodup := hs.subtree.ordered.imp fun h => ne_of_lt h
    rw [← hc', List.toFinset_card_of_nodup hnodup]
    have ho' : s.order = order := ho
    have hhalf : (order + 1) / 2 = (s.order - 1) / 2 + 1 := by omega
    rw [hhalf]
    cases h with
    | zero => exact absurd hpos (Nat.lt_irrefl 0)
    | succ h => exact two_mul_pow_le_length hs.subtree.sized hs.subtree.filled

theorem balanced_two_levels :
    ∃ bs s, (3 ≤ 3 ∧ 3 ≤ 2 ^ 30 ∧ run (new 3) calls = .ok (bs, s)) ∧ s.root = some 2 ∧
      s.node 2 = ⟨[2, 4], [some 0, some 1, some 3], none⟩ ∧
      ∃ h, (∀ n, Way s n s.root ↔ n = h) ∧
        (0 < h → 2 * ((3 + 1) / 2) ^ (h - 1) ≤ (contents ∅ calls).card + 1) ∧
        ∀ a, searchFrom a h s s.root = s.search a := by
  obtain ⟨s, hrun, hroot, htop, -⟩ := run_calls
  exact ⟨_, s, ⟨Nat.le_refl 3, by norm_num, hrun⟩, hroot, htop,
    balanced (Nat.le_refl 3) (by norm_num) calls hrun⟩

/-- A node that the root leads to is the top of a subtree. -/
theorem Reached.subtree {s : BTree α} {h p : Nat} {t : Multiway Nat α h} (hs : Holds s h t)
    (hp : Reached s p) :
    ∃ (h' : Nat) (par : Option Nat) (t' : Multiway Nat α (h' + 1)), t'.id = p ∧
      Rep s.node (h' + 1) par t' ∧ Filled ((s.order - 1) / 2) (s.order - 1) (h' + 1) t' ∧
      Ordered (h' + 1) t' ∧ t'.data.length ≤ s.order - 1 ∧
      (s.root ≠ some p → (s.order - 1) / 2 ≤ t'.data.length) := by
  induction hp with
  | root hp =>
    cases h with
    | zero => cases hs.root.symm.trans hp
    | succ h =>
      exact ⟨h, none, t, Option.some.inj (hs.root.symm.trans hp), hs.subtree.rep, hs.subtree.filled,
        hs.subtree.ordered, hs.subtree.sized.2, fun hne => absurd hp hne⟩
  | child _ hc ih =>
    obtain ⟨h', par, t', hid, hrep, hfill, hord, -⟩ := ih
    rw [← hid, hrep.1] at hc
    obtain ⟨e, he, htop⟩ := List.mem_map.mp hc
    cases h' with
    | zero => cases htop
    | succ h' =>
      obtain ⟨hsized, hfe⟩ := hfill.2 e he
      exact ⟨h', some t'.id, e, Option.some.inj htop, hrep.2 e he, hfe, hord.child hfill.1 he,
        hsized.2, fun _ => hsized.1⟩

/-- **The nodes are as the comment on `m_child` draws them.**  After any sequence of calls, every
node that the root leads to has its elements in increasing order and one child more than elements,
fewer elements than the order and, but for the root, at least half as many; it is the parent of its
children; and what is below `m_child[i]` is smaller than `m_data[i]`, what is below
`m_child[i + 1]` is greater. -/
theorem nodes_in_order {order : Nat} (h3 : 3 ≤ order) (hb : order ≤ 2 ^ 30) (ops : List (Op α))
    {bs : List Bool} {s : BTree α} (hrun : run (new order) ops = .ok (bs, s)) {p : Nat}
    (hp : Reached s p) :
    (s.node p).data.Pairwise (· < ·) ∧
      (s.node p).child.length = (s.node p).data.length + 1 ∧ (s.node p).data.length < order ∧
      (s.root ≠ some p → (order - 1) / 2 ≤ (s.node p).data.length) ∧
      (∀ c, some c ∈ (s.node p).child → (s.node c).parent = some p) ∧
      ∀ i d c x, (s.node p).data[i]? = some d → Below s c x →
        ((s.node p).child[i]? = some c → x < d) ∧ ((s.node p).child[i + 1]? = some c → d < x) := by
  obtain ⟨s', h, t, hrun', hs, ho, -⟩ := run_holds ops (new_holds (α := α) h3 hb)
  obtain ⟨-, rfl⟩ := Prod.mk.inj (Except.ok.inj (hrun.symm.trans hrun'))
  obtain ⟨h', par, t', rfl, hrep, hfill, hord, hle, hge⟩ := hp.subtree hs
  have ho' : s.order = order := ho
  rw [hrep.1]
  refine ⟨hord.data hfill.1, ?_, ?_, ?_, ?_, ?_⟩
  · show (t'.child.map (top h')).length = t'.data.length + 1
    rw [List.length_map]
    exact hfill.1
  · show t'.data.length < order
    omega
  · rw [← ho']
    exact hge
  · intro c hc
    obtain ⟨e, he, htop⟩ := List.mem_map.mp hc
    have hre := hrep.2 e he
    cases h' with
    | zero => cases htop
    | succ h' =>
      cases htop
      rw [hre.1]
  · intro i d c x hd hx
    obtain ⟨hi, hdi⟩ := List.getElem?_eq_some_iff.mp hd
    have hi' : i < t'.data.length := hi
    have hsplit : t'.data = t'.data.take i ++ d :: t'.data.drop (i + 1) := by
      rw [← hdi, ← List.drop_eq_getElem_cons hi', List.take_append_drop]
    have hchild : t'.child = t'.child.take (i + 1) ++ t'.child.drop (i + 1) :=
      (List.take_append_drop _ _).symm
    have hlen : (t'.child.take (i + 1)).length = (t'.data.take i).length + 1 := by
      have := hfill.1
      rw [List.length_take, List.length_take]
      omega
    have hgets : ∀ j : Nat, (t'.child.map (top h'))[j]? = some c → ∃ e, t'.child[j]? = some e ∧
        x ∈ elems h' e := by
      intro j hj
      rw [List.getElem?_map, Option.map_eq_some_iff] at hj
      obtain ⟨e, he, htop⟩ := hj
      have hmem := List.mem_of_getElem? he
      exact ⟨e, he, hx.mem (hrep.2 e hmem) (hfill.2 e hmem).2 htop⟩
    constructor
    · intro hc
      obtain ⟨e, he, hxe⟩ := hgets i hc
      refine (hord.child_lt hfill.1 hsplit hchild hlen hxe).1 (List.mem_of_getElem? (i := i) ?_)
      rw [List.getElem?_take_of_lt (Nat.lt_succ_self i), he]
    · intro hc
      obtain ⟨e, he, hxe⟩ := hgets (i + 1) hc
      refine (hord.child_lt hfill.1 hsplit hchild hlen hxe).2 (List.mem_of_getElem? (i := 0) ?_)
      rw [List.getElem?_drop, Nat.add_zero, he]

/-- The root of that tree, and the last of its leaves. -/
theorem nodes_in_order_two_levels :
    ∃ bs s, (3 ≤ 3 ∧ 3 ≤ 2 ^ 30 ∧ run (new 3) calls = .ok (bs, s) ∧ Reached s 2) ∧
      (s.node 2).data = [2, 4] ∧ (s.node 3).data = [5] ∧
      (s.node 2).data.Pairwise (· < ·) ∧ (s.node 3).parent = some 2 ∧
      ∀ i d c x, (s.node 2).data[i]? = some d → Below s c x →
        ((s.node 2).child[i]? = some c → x < d) ∧ ((s.node 2).child[i + 1]? = some c → d < x) := by
  obtain ⟨s, hrun, hroot, htop, hleaf⟩ := run_calls
  have hreached : Reached s 2 := .root hroot
  obtain ⟨hsorted, -, -, -, hparent, hbetween⟩ :=
    nodes_in_order (Nat.le_refl 3) (by norm_num) calls hrun hreached
  have hchild : some 3 ∈ (s.node 2).child := by simp [htop]
  exact ⟨_, s, ⟨Nat.le_refl 3, by norm_num, hrun, hreached⟩, by rw [htop], by rw [hleaf], hsorted,
    hparent 3 hchild, hbetween⟩

end Metta.MettaFs.BTree
