/-
  Metta.Machine.Multiway — multiway search trees whose leaves are all at one
  depth.

  A tree of height `h` has its height in its type, so a node's children are as
  high as each other by construction.  A new element goes to the bottom and a
  node that is overfull splits in two around its middle element, which goes one
  level up.

    • `weave` — the parts between the elements of a node, with the elements;
    • `Multiway`, `elems`, `Filled` — trees, what they hold, how full they are;
    • `Multiway.grow` — a new element: the tree, or two of them and an element;
    • `elems_grow`, `filled_grow` — what is held is one element more, in order,
      and every node stays filled;
    • `pow_le_length` — a tree of height `h` holds at least that many.
-/
import Mathlib.Data.List.TakeWhile
import Mathlib.Tactic

namespace Metta.Machine

/-! ## §1. Parts and the elements between them. -/

section Weave

variable {α : Type*}

/-- The parts one after another, with the elements between them. -/
def weave : List (List α) → List α → List α
  | [], _ => []
  | p :: _, [] => p
  | p :: ps, d :: ds => p ++ d :: weave ps ds

@[simp] theorem weave_nil (ds : List α) : weave [] ds = [] := rfl

@[simp] theorem weave_cons_nil (p : List α) (ps : List (List α)) : weave (p :: ps) [] = p := rfl

@[simp] theorem weave_cons_cons (p : List α) (ps : List (List α)) (d : α) (ds : List α) :
    weave (p :: ps) (d :: ds) = p ++ d :: weave ps ds := rfl

/-- As many parts as elements in front: they come before the rest. -/
theorem weave_append {Ps Qs : List (List α)} {A B : List α} (h : Ps.length = A.length) :
    weave (Ps ++ Qs) (A ++ B) = weave Ps A ++ weave Qs B := by
  induction Ps generalizing A with
  | nil =>
    have hA : A = [] := List.length_eq_zero_iff.mp h.symm
    simp [hA]
  | cons p Ps ih =>
    cases A with
    | nil => simp at h
    | cons d A =>
      simp only [List.cons_append, weave_cons_cons, List.append_assoc]
      rw [ih (by simpa using h)]

/-- The first part, and what comes after it. -/
theorem weave_cons (p : List α) (ps : List (List α)) (ds : List α) :
    weave (p :: ps) ds = p ++ weave ([] :: ps) ds := by
  cases ds with
  | nil => simp
  | cons d ds => simp

/-- A part with what comes before and after it. -/
theorem weave_part {Ps Qs : List (List α)} {A B p : List α} (h : Ps.length = A.length) :
    weave (Ps ++ p :: Qs) (A ++ B) = weave Ps A ++ p ++ weave ([] :: Qs) B := by
  rw [weave_append h, weave_cons, List.append_assoc]

/-- Two parts with the element between them, in the place of one part. -/
theorem weave_two {Ps Qs : List (List α)} {A B l r : List α} {d : α} (h : Ps.length = A.length) :
    weave (Ps ++ l :: r :: Qs) (A ++ d :: B)
      = weave Ps A ++ (l ++ d :: r) ++ weave ([] :: Qs) B := by
  rw [weave_append h, weave_cons_cons, weave_cons r]
  simp

/-- The whole around one of the elements. -/
theorem weave_split {Ps Qs : List (List α)} {A B : List α} {d : α}
    (h : Ps.length = A.length + 1) :
    weave (Ps ++ Qs) (A ++ d :: B) = weave Ps A ++ d :: weave Qs B := by
  induction A generalizing Ps with
  | nil =>
    obtain ⟨p, rfl⟩ := List.length_eq_one_iff.mp h
    simp
  | cons e A ih =>
    cases Ps with
    | nil => simp at h
    | cons p Ps =>
      simp only [List.cons_append, weave_cons_cons, List.append_assoc]
      rw [ih (by simpa using h)]

/-- Every element between the parts is one of the whole. -/
theorem mem_weave_of_mem {ps : List (List α)} {ds : List α} (h : ds.length ≤ ps.length) {x : α}
    (hx : x ∈ ds) : x ∈ weave ps ds := by
  induction ds generalizing ps with
  | nil => cases hx
  | cons d ds ih =>
    cases ps with
    | nil => simp at h
    | cons p ps =>
      rw [weave_cons_cons, List.mem_append, List.mem_cons]
      cases hx with
      | head => exact Or.inr (Or.inl rfl)
      | tail _ hx => exact Or.inr (Or.inr (ih (by simpa using h) hx))

/-- Every part is in the whole. -/
theorem sublist_weave {ps : List (List α)} {ds : List α} (h : ps.length ≤ ds.length + 1)
    {p : List α} (hp : p ∈ ps) : p.Sublist (weave ps ds) := by
  induction ps generalizing ds with
  | nil => cases hp
  | cons q ps ih =>
    cases ds with
    | nil =>
      have hnil : ps = [] := List.length_eq_zero_iff.mp (by simpa using h)
      subst hnil
      rw [List.mem_singleton.mp hp]
      exact List.Sublist.refl _
    | cons d ds =>
      rw [weave_cons_cons]
      cases hp with
      | head => exact List.sublist_append_left _ _
      | tail _ hp =>
        exact ((ih (by simpa using h) hp).cons d).trans (List.sublist_append_right _ _)

/-- How long the whole is, with one more for every part. -/
theorem length_weave {ps : List (List α)} {ds : List α} (h : ps.length = ds.length + 1) :
    (weave ps ds).length + 1 = (ps.map fun p => p.length + 1).sum := by
  induction ds generalizing ps with
  | nil =>
    obtain ⟨p, rfl⟩ := List.length_eq_one_iff.mp h
    simp
  | cons d ds ih =>
    cases ps with
    | nil => simp at h
    | cons p ps =>
      have ih := @ih ps (by simpa using h)
      simp only [weave_cons_cons, List.length_append, List.length_cons, List.map_cons,
        List.sum_cons]
      omega

variable [LinearOrder α]

/-- Parts in front whose elements are smaller have only smaller ones. -/
theorem lt_of_mem_weave {Ps : List (List α)} {A : List α} {a : α}
    (hs : (weave Ps A).Pairwise (· < ·)) (h : Ps.length = A.length) (hA : ∀ x ∈ A, x < a) :
    ∀ x ∈ weave Ps A, x < a := by
  induction Ps generalizing A with
  | nil => simp
  | cons p Ps ih =>
    cases A with
    | nil => simp at h
    | cons d A =>
      rw [weave_cons_cons, List.pairwise_append, List.pairwise_cons] at hs
      obtain ⟨-, ⟨-, hs⟩, hp⟩ := hs
      intro x hx
      rw [weave_cons_cons, List.mem_append, List.mem_cons] at hx
      have hd : d < a := hA d List.mem_cons_self
      cases hx with
      | inl hx => exact lt_trans (hp x hx d List.mem_cons_self) hd
      | inr hx =>
        cases hx with
        | inl hx => exact hx ▸ hd
        | inr hx =>
          exact ih hs (by simpa using h) (fun y hy => hA y (List.mem_cons_of_mem _ hy)) x hx

/-- Parts behind whose elements are greater have only greater ones. -/
theorem gt_of_mem_weave {Qs : List (List α)} {B : List α} {a : α}
    (hs : (weave ([] :: Qs) B).Pairwise (· < ·)) (hB : ∀ x ∈ B, a < x) :
    ∀ x ∈ weave ([] :: Qs) B, a < x := by
  cases B with
  | nil => simp
  | cons b B =>
    simp only [weave_cons_cons, List.nil_append, List.pairwise_cons] at hs
    intro x hx
    simp only [weave_cons_cons, List.nil_append, List.mem_cons] at hx
    have hb : a < b := hB b List.mem_cons_self
    cases hx with
    | inl hx => exact hx ▸ hb
    | inr hx => exact lt_trans hb (hs.1 x hx)

/-- A run of a sorted list gets one element more that is between its neighbours. -/
theorem pairwise_replace {l r x x' : List α} {a : α} (hs : (l ++ x ++ r).Pairwise (· < ·))
    (hx' : x'.Pairwise (· < ·)) (hp : x'.Perm (a :: x)) (hl : ∀ y ∈ l, y < a)
    (hr : ∀ y ∈ r, a < y) : (l ++ x' ++ r).Pairwise (· < ·) := by
  rw [List.append_assoc, List.pairwise_append, List.pairwise_append] at hs ⊢
  obtain ⟨hsl, ⟨-, hsr, hxr⟩, hlx⟩ := hs
  have hmem : ∀ y ∈ x', y = a ∨ y ∈ x := fun y hy => List.mem_cons.mp (hp.mem_iff.mp hy)
  refine ⟨hsl, ⟨hx', hsr, ?_⟩, ?_⟩
  · intro y hy z hz
    cases hmem y hy with
    | inl h => exact h ▸ hr z hz
    | inr h => exact hxr y h z hz
  · intro y hy z hz
    rw [List.mem_append] at hz
    cases hz with
    | inl hz =>
      cases hmem z hz with
      | inl h => exact h ▸ hl y hy
      | inr h => exact hlx y hy z (List.mem_append_left _ h)
    | inr hz => exact hlx y hy z (List.mem_append_right _ hz)

end Weave

/-! ## §2. Trees. -/

/-- A node: its name, its elements, and the children around them. -/
structure Page (ι α C : Type*) where
  id : ι
  data : List α
  child : List C

/-- A tree of height `h`; what is below a leaf is a tree of height zero. -/
def Multiway (ι α : Type) : Nat → Type
  | 0 => Unit
  | h + 1 => Page ι α (Multiway ι α h)

namespace Multiway

variable {ι α : Type}

/-- A tree from the parts of its top node. -/
abbrev node {h : Nat} (id : ι) (data : List α) (child : List (Multiway ι α h)) :
    Multiway ι α (h + 1) := (⟨id, data, child⟩ : Page ι α (Multiway ι α h))

/-- The elements, in the order of the tree. -/
def elems : (h : Nat) → Multiway ι α h → List α
  | 0, _ => []
  | h + 1, t => weave (t.child.map (elems h)) t.data

/-- The names of the nodes. -/
def ids : (h : Nat) → Multiway ι α h → List ι
  | 0, _ => []
  | h + 1, t => t.id :: t.child.flatMap (ids h)

/-- The name of the top node. -/
def top : (h : Nat) → Multiway ι α h → Option ι
  | 0, _ => none
  | _ + 1, t => some t.id

/-- The number of elements of the top node is between two bounds. -/
def Sized (lo hi : Nat) : (h : Nat) → Multiway ι α h → Prop
  | 0, _ => True
  | _ + 1, t => lo ≤ t.data.length ∧ t.data.length ≤ hi

/-- There is a child around every element, and the nodes below the top have a number of
elements between two bounds. -/
def Filled (lo hi : Nat) : (h : Nat) → Multiway ι α h → Prop
  | 0, _ => True
  | h + 1, t => t.child.length = t.data.length + 1 ∧
      ∀ c ∈ t.child, Sized lo hi h c ∧ Filled lo hi h c

/-- In order, and no element twice. -/
def Ordered [LT α] (h : Nat) (t : Multiway ι α h) : Prop := (elems h t).Pairwise (· < ·)

end Multiway

/-! ## §3. A new element. -/

/-- What a tree has become: a tree, or two with an element between them. -/
inductive Grown (C α : Type) where
  | fits (c : C)
  | splits (l : C) (up : α) (r : C)

/-- What all of it holds. -/
def Grown.all {C α : Type} (f : C → List α) : Grown C α → List α
  | .fits c => f c
  | .splits l up r => f l ++ up :: f r

/-- Where an element belongs among those of a node. -/
def locate {α : Type} [LinearOrder α] (a : α) (data : List α) : Nat :=
  (data.takeWhile (· < a)).length

namespace Page

variable {ι α C : Type}

/-- What the child at `i` has become is put in its place. -/
def place (t : Page ι α C) (i : Nat) : Grown C α → Page ι α C
  | .fits c => { t with child := t.child.take i ++ c :: t.child.drop (i + 1) }
  | .splits l up r =>
      { t with
        data := t.data.take i ++ up :: t.data.drop i,
        child := t.child.take i ++ l :: r :: t.child.drop (i + 1) }

/-- A node with `order` elements splits around the middle one; the right half is a new node. -/
def settle (t : Page ι α C) (order : Nat) (new : ι) : Grown (Page ι α C) α :=
  if t.data.length < order then .fits t
  else
    match t.data.drop (t.data.length / 2) with
    | [] => .fits t
    | up :: right =>
        .splits { t with data := t.data.take (t.data.length / 2),
                         child := t.child.take (t.data.length / 2 + 1) }
          up ⟨new, right, t.child.drop (t.data.length / 2 + 1)⟩

end Page

namespace Multiway

variable {ι α : Type} [LinearOrder α]

/-- A new element: it goes down to the bottom, and up from there.  `label` names the nodes
that are split off, by their heights. -/
def grow (order : Nat) (label : Nat → ι) (a : α) :
    (h : Nat) → Multiway ι α h → Grown (Multiway ι α h) α
  | 0, t => .splits t a t
  | h + 1, t =>
      match t.child[locate a t.data]? with
      | none => .fits t
      | some c =>
          (t.place (locate a t.data) (grow order label a h c)).settle order (label h)

end Multiway

/-! ## §4. Where a new element goes. -/

section Locate

variable {ι α C : Type} [LinearOrder α]

theorem lt_of_mem_takeWhile {a x : α} {data : List α}
    (hx : x ∈ data.takeWhile (· < a)) : x < a := by
  simpa using List.mem_takeWhile_imp hx

/-- What is not smaller than an element, in a sorted list without it, is greater. -/
theorem gt_of_mem_dropWhile {a x : α} {data : List α} (hs : data.Pairwise (· < ·))
    (ha : a ∉ data) (hx : x ∈ data.dropWhile (· < a)) : a < x := by
  induction data with
  | nil => cases hx
  | cons d ds ih =>
    rw [List.pairwise_cons] at hs
    rw [List.dropWhile_cons] at hx
    split at hx
    · exact ih hs.2 (fun h => ha (List.mem_cons_of_mem _ h)) hx
    · rename_i hd
      have hda : a < d := by
        have hne : a ≠ d := fun h => ha (h ▸ List.mem_cons_self)
        exact lt_of_le_of_ne (by simpa using hd) hne
      cases hx with
      | head => exact hda
      | tail _ hx => exact lt_trans hda (hs.1 x hx)

/-- A node around the place of a new element: the smaller elements with the children before
them, the child it goes to, and the greater elements with the children behind them. -/
theorem exists_locate {t : Page ι α C} {a : α} (hlen : t.child.length = t.data.length + 1)
    (hs : t.data.Pairwise (· < ·)) (ha : a ∉ t.data) :
    ∃ A B Ps c Qs, t.data = A ++ B ∧ t.child = Ps ++ c :: Qs ∧ A.length = locate a t.data ∧
      Ps.length = A.length ∧ Qs.length = B.length ∧ (∀ x ∈ A, x < a) ∧ ∀ x ∈ B, a < x := by
  have hdata := List.takeWhile_append_dropWhile (p := fun x => decide (x < a)) (l := t.data)
  have hsum := congrArg List.length hdata
  rw [List.length_append] at hsum
  have hlt : locate a t.data < t.child.length := by
    unfold locate
    omega
  refine ⟨t.data.takeWhile (· < a), t.data.dropWhile (· < a), t.child.take (locate a t.data),
    t.child[locate a t.data], t.child.drop (locate a t.data + 1), hdata.symm, ?_, rfl, ?_, ?_,
    fun x => lt_of_mem_takeWhile, fun x => gt_of_mem_dropWhile hs ha⟩
  · rw [← List.drop_eq_getElem_cons hlt, List.take_append_drop]
  · rw [List.length_take, Nat.min_eq_left (Nat.le_of_lt hlt)]
    rfl
  · rw [List.length_drop]
    unfold locate at hlt ⊢
    omega

end Locate

namespace Page

variable {ι α C : Type}

theorem place_fits {t : Page ι α C} {Ps Qs : List C} {c c' : C} {i : Nat}
    (hc : t.child = Ps ++ c :: Qs) (hi : Ps.length = i) :
    t.place i (.fits c') = { t with child := Ps ++ c' :: Qs } := by
  unfold place
  subst hi
  rw [hc]
  simp

theorem place_splits {t : Page ι α C} {Ps Qs : List C} {A B : List α} {c l r : C} {up : α}
    {i : Nat} (hd : t.data = A ++ B) (hc : t.child = Ps ++ c :: Qs) (hi : Ps.length = i)
    (hA : A.length = i) :
    t.place i (.splits l up r)
      = { t with data := A ++ up :: B, child := Ps ++ l :: r :: Qs } := by
  unfold place
  subst hi
  rw [hd, hc, ← hA]
  simp [hA]

theorem settle_fits {t : Page ι α C} {order : Nat} {new : ι} (h : t.data.length < order) :
    t.settle order new = .fits t := by
  unfold settle
  rw [if_pos h]

/-- An overfull node around its middle element. -/
theorem exists_middle {t : Page ι α C} (hlen : t.child.length = t.data.length + 1)
    (hpos : 0 < t.data.length) :
    ∃ L up R Cl Cr, t.data = L ++ up :: R ∧ t.child = Cl ++ Cr ∧
      L.length = t.data.length / 2 ∧ Cl.length = L.length + 1 ∧ Cr.length = R.length + 1 := by
  have hlt : t.data.length / 2 < t.data.length := Nat.div_lt_self hpos (by decide)
  have hL : (t.data.take (t.data.length / 2)).length = t.data.length / 2 := by
    rw [List.length_take]
    omega
  refine ⟨t.data.take (t.data.length / 2), t.data[t.data.length / 2],
    t.data.drop (t.data.length / 2 + 1), t.child.take (t.data.length / 2 + 1),
    t.child.drop (t.data.length / 2 + 1), ?_, (List.take_append_drop _ _).symm, hL, ?_, ?_⟩
  · rw [← List.drop_eq_getElem_cons hlt, List.take_append_drop]
  · rw [List.length_take, hL]
    omega
  · rw [List.length_drop, List.length_drop]
    omega

theorem settle_splits {t : Page ι α C} {order : Nat} {new : ι} {L R : List α} {up : α}
    {Cl Cr : List C} (hge : order ≤ t.data.length) (hd : t.data = L ++ up :: R)
    (hc : t.child = Cl ++ Cr) (hL : L.length = t.data.length / 2)
    (hCl : Cl.length = L.length + 1) :
    t.settle order new
      = .splits { t with data := L, child := Cl } up ⟨new, R, Cr⟩ := by
  unfold settle
  rw [if_neg (by omega), ← hL, ← hCl, hc, List.take_left, List.drop_left, hd, List.take_left,
    List.drop_left]

end Page

/-! ## §5. What is held. -/

namespace Multiway

variable {ι α : Type}

/-- A node around one of its children. -/
theorem elems_around {h : Nat} {t : Multiway ι α (h + 1)} {A B : List α}
    {Ps Qs : List (Multiway ι α h)} {c : Multiway ι α h} (hd : t.data = A ++ B)
    (hc : t.child = Ps ++ c :: Qs) (hP : Ps.length = A.length) :
    elems (h + 1) t
      = weave (Ps.map (elems h)) A ++ elems h c ++ weave ([] :: Qs.map (elems h)) B := by
  show weave (t.child.map (elems h)) t.data = _
  rw [hd, hc, List.map_append, List.map_cons]
  exact weave_part (by rw [List.length_map, hP])

/-- The elements of the top node are among those of the tree. -/
theorem mem_elems_of_mem_data {h : Nat} {t : Multiway ι α (h + 1)}
    (hlen : t.child.length = t.data.length + 1) {x : α} (hx : x ∈ t.data) :
    x ∈ elems (h + 1) t :=
  mem_weave_of_mem (by rw [List.length_map]; omega) hx

variable [LinearOrder α]

/-- The elements of the top node are in order. -/
theorem Ordered.data {h : Nat} {t : Multiway ι α (h + 1)}
    (hlen : t.child.length = t.data.length + 1) (ho : Ordered (h + 1) t) :
    t.data.Pairwise (· < ·) := by
  have hsub : ∀ {ps : List (List α)} {ds : List α}, ds.length ≤ ps.length →
      ds.Sublist (weave ps ds) := by
    intro ps ds
    induction ds generalizing ps with
    | nil => exact fun _ => List.nil_sublist _
    | cons d ds ih =>
      cases ps with
      | nil => simp
      | cons p ps =>
        intro hle
        rw [weave_cons_cons]
        exact ((ih (by simpa using hle)).cons_cons d).trans (List.sublist_append_right _ _)
  exact ho.sublist (hsub (by rw [List.length_map]; omega))

/-- A child is in order too. -/
theorem Ordered.child {h : Nat} {t : Multiway ι α (h + 1)}
    (hlen : t.child.length = t.data.length + 1) (ho : Ordered (h + 1) t) {c : Multiway ι α h}
    (hc : c ∈ t.child) : Ordered h c :=
  ho.sublist (sublist_weave (by rw [List.length_map, hlen]) (List.mem_map_of_mem hc))

/-- What a child holds is smaller than an element behind it, and greater than one before it. -/
theorem Ordered.child_lt {h : Nat} {t : Multiway ι α (h + 1)}
    (hlen : t.child.length = t.data.length + 1) (ho : Ordered (h + 1) t) {L R : List α} {d x : α}
    {Cl Cr : List (Multiway ι α h)} {c : Multiway ι α h} (hd : t.data = L ++ d :: R)
    (hch : t.child = Cl ++ Cr) (hCl : Cl.length = L.length + 1) (hx : x ∈ elems h c) :
    (c ∈ Cl → x < d) ∧ (c ∈ Cr → d < x) := by
  have hsplit : elems (h + 1) t
      = weave (Cl.map (elems h)) L ++ d :: weave (Cr.map (elems h)) R := by
    show weave (t.child.map (elems h)) t.data = _
    rw [hd, hch, List.map_append, weave_split (by rw [List.length_map, hCl])]
  unfold Ordered at ho
  rw [hsplit, List.pairwise_append, List.pairwise_cons] at ho
  rw [hd, hch, List.length_append, List.length_append, List.length_cons] at hlen
  constructor
  · intro hc
    exact ho.2.2 x ((sublist_weave (by rw [List.length_map, hCl]) (List.mem_map_of_mem hc)).subset hx)
      d List.mem_cons_self
  · intro hc
    refine ho.2.1.1 x ((sublist_weave ?_ (List.mem_map_of_mem hc)).subset hx)
    rw [List.length_map]
    omega

/-- A node around the place of an element that the tree has not: what is before it is smaller
and what is behind it is greater. -/
theorem Ordered.around {h : Nat} {t : Multiway ι α (h + 1)} {A B : List α}
    {Ps Qs : List (Multiway ι α h)} {c : Multiway ι α h} {a : α} (ho : Ordered (h + 1) t)
    (hd : t.data = A ++ B) (hc : t.child = Ps ++ c :: Qs) (hP : Ps.length = A.length)
    (hA : ∀ x ∈ A, x < a) (hB : ∀ x ∈ B, a < x) :
    Ordered h c ∧ (∀ x ∈ weave (Ps.map (elems h)) A, x < a) ∧
      ∀ x ∈ weave ([] :: Qs.map (elems h)) B, a < x := by
  unfold Ordered at ho
  rw [elems_around hd hc hP, List.append_assoc, List.pairwise_append] at ho
  obtain ⟨hpre, hrest, -⟩ := ho
  rw [List.pairwise_append] at hrest
  obtain ⟨hmid, hpost, -⟩ := hrest
  exact ⟨hmid, lt_of_mem_weave hpre (by rw [List.length_map, hP]) hA, gt_of_mem_weave hpost hB⟩

/-- An element is in a tree when it is in the top node or in the child where it belongs. -/
theorem mem_elems_iff {h : Nat} {t : Multiway ι α (h + 1)} {A B : List α}
    {Ps Qs : List (Multiway ι α h)} {c : Multiway ι α h} {a : α} (ho : Ordered (h + 1) t)
    (hd : t.data = A ++ B) (hc : t.child = Ps ++ c :: Qs) (hP : Ps.length = A.length)
    (hA : ∀ x ∈ A, x < a) (hB : ∀ x ∈ B, a < x) : a ∈ elems (h + 1) t ↔ a ∈ elems h c := by
  obtain ⟨-, hpre, hpost⟩ := ho.around hd hc hP hA hB
  rw [elems_around hd hc hP, List.mem_append, List.mem_append]
  constructor
  · intro hx
    cases hx with
    | inl hx =>
      cases hx with
      | inl hx => exact absurd (hpre a hx) (lt_irrefl a)
      | inr hx => exact hx
    | inr hx => exact absurd (hpost a hx) (lt_irrefl a)
  · exact fun hx => Or.inl (Or.inr hx)

end Multiway

namespace Page

variable {ι α : Type}

open Multiway

/-- Splitting a node leaves what is held as it is. -/
theorem settle_all {h : Nat} {t : Multiway ι α (h + 1)} {order : Nat} {new : ι}
    (hlen : t.child.length = t.data.length + 1) (hpos : 0 < order) :
    (settle t order new).all (elems (h + 1)) = elems (h + 1) t := by
  by_cases hlt : t.data.length < order
  · rw [settle_fits hlt]
    rfl
  · obtain ⟨L, up, R, Cl, Cr, hd, hc, hL, hCl, -⟩ := exists_middle hlen (by omega)
    rw [settle_splits (by omega) hd hc hL hCl]
    show weave (Cl.map (elems h)) L ++ up :: weave (Cr.map (elems h)) R
      = weave (t.child.map (elems h)) t.data
    rw [hd, hc, List.map_append, weave_split (by rw [List.length_map, hCl])]

/-- The child that a new element goes to has become something else: so has the node. -/
theorem place_elems {h : Nat} {t : Multiway ι α (h + 1)} {A B : List α}
    {Ps Qs : List (Multiway ι α h)} {c : Multiway ι α h} {g : Grown (Multiway ι α h) α}
    (hd : t.data = A ++ B) (hc : t.child = Ps ++ c :: Qs) (hP : Ps.length = A.length) :
    elems (h + 1) (place t A.length g)
      = weave (Ps.map (elems h)) A ++ g.all (elems h) ++ weave ([] :: Qs.map (elems h)) B := by
  cases g with
  | fits c' =>
    rw [place_fits hc hP]
    exact elems_around hd rfl hP
  | splits l up r =>
    rw [place_splits hd hc hP rfl]
    show weave ((Ps ++ l :: r :: Qs).map (elems h)) (A ++ up :: B) = _
    rw [List.map_append, List.map_cons, List.map_cons]
    exact weave_two (by rw [List.length_map, hP])

@[simp] theorem place_id {C : Type} (t : Page ι α C) (i : Nat) (g : Grown C α) :
    (place t i g).id = t.id := by
  cases g <;> rfl

theorem place_length {C : Type} {t : Page ι α C} {A B : List α} {Ps Qs : List C} {c : C}
    {g : Grown C α} (hlen : t.child.length = t.data.length + 1) (hd : t.data = A ++ B)
    (hc : t.child = Ps ++ c :: Qs) (hP : Ps.length = A.length) :
    (place t A.length g).child.length = (place t A.length g).data.length + 1 := by
  rw [hd, hc] at hlen
  cases g with
  | fits c' =>
    rw [place_fits hc hP]
    simpa [hd] using hlen
  | splits l up r =>
    rw [place_splits hd hc hP rfl]
    simp only [List.length_append, List.length_cons] at hlen ⊢
    omega

end Page

namespace Multiway

variable {ι α : Type} [LinearOrder α]

/-- One level of a new element's way. -/
theorem grow_succ {h : Nat} {t : Multiway ι α (h + 1)} {order : Nat} {label : Nat → ι} {a : α}
    {A : List α} {Ps Qs : List (Multiway ι α h)} {c : Multiway ι α h}
    (hc : t.child = Ps ++ c :: Qs) (hA : A.length = locate a t.data) (hP : Ps.length = A.length) :
    grow order label a (h + 1) t
      = (Page.place t A.length (grow order label a h c)).settle order (label h) := by
  have hget : t.child[locate a t.data]? = some c := by
    rw [hc, ← hA, ← hP]
    simp
  rw [grow, hget, hA]

/-- **A new element is held, with all that was held before, in order.** -/
theorem elems_grow (order : Nat) (label : Nat → ι) {a : α} {lo hi : Nat}
    (hpos : 0 < order) :
    ∀ {h : Nat} {t : Multiway ι α h}, Filled lo hi h t → Ordered h t → a ∉ elems h t →
      ((grow order label a h t).all (elems h)).Perm (a :: elems h t) ∧
      ((grow order label a h t).all (elems h)).Pairwise (· < ·)
  | 0, _, _, _, _ => by
    constructor
    · exact List.Perm.refl _
    · exact List.pairwise_singleton _ a
  | h + 1, t, hf, ho, ha => by
    have hmem := fun hx => ha (mem_elems_of_mem_data hf.1 (x := a) hx)
    obtain ⟨A, B, Ps, c, Qs, hd, hc, hA, hP, -, hlt, hgt⟩ :=
      exists_locate hf.1 (ho.data hf.1) hmem
    obtain ⟨hoc, hpre, hpost⟩ := ho.around hd hc hP hlt hgt
    have hac : a ∉ elems h c := fun hx => ha ((mem_elems_iff ho hd hc hP hlt hgt).mpr hx)
    have hfc := (hf.2 c (by rw [hc]; simp)).2
    obtain ⟨hperm, hsorted⟩ := elems_grow order label hpos hfc hoc hac
    rw [grow_succ hc hA hP, Page.settle_all (Page.place_length hf.1 hd hc hP) hpos,
      Page.place_elems hd hc hP, elems_around hd hc hP]
    constructor
    · -- what comes before the child is passed over
      refine ((hperm.append_left _).append_right _).trans ?_
      rw [List.append_assoc, List.append_assoc, List.cons_append]
      exact List.perm_middle
    · unfold Ordered at ho
      rw [elems_around hd hc hP] at ho
      exact pairwise_replace ho hsorted hperm hpre hpost

end Multiway

namespace Multiway

variable {ι α : Type} [LinearOrder α]

/-- The tree whose child has taken a new element is in order, before its top node splits. -/
theorem ordered_place (order : Nat) (label : Nat → ι) {h : Nat} {a : α} {lo hi : Nat}
    {t : Multiway ι α (h + 1)} {A B : List α} {Ps Qs : List (Multiway ι α h)}
    {c : Multiway ι α h} (hpos : 0 < order) (hf : Filled lo hi (h + 1) t)
    (ho : Ordered (h + 1) t) (ha : a ∉ elems (h + 1) t) (hd : t.data = A ++ B)
    (hc : t.child = Ps ++ c :: Qs) (hA : A.length = locate a t.data) (hP : Ps.length = A.length) :
    Ordered (h + 1) (Page.place t A.length (grow order label a h c)) := by
  have hs := (elems_grow order label hpos hf ho ha).2
  rw [grow_succ hc hA hP, Page.settle_all (Page.place_length hf.1 hd hc hP) hpos] at hs
  exact hs

/-- The element that comes up from a child is between its neighbours. -/
theorem between_of_ordered {h : Nat} {t : Multiway ι α (h + 1)} {A B : List α}
    {Ps Qs : List (Multiway ι α h)} {c l r : Multiway ι α h} {up : α} (hd : t.data = A ++ B)
    (hc : t.child = Ps ++ c :: Qs) (hP : Ps.length = A.length) (hQ : B.length ≤ Qs.length)
    (ho : Ordered (h + 1) (Page.place t A.length (.splits l up r))) :
    (∀ x ∈ A, x < up) ∧ ∀ x ∈ B, up < x := by
  unfold Ordered at ho
  rw [Page.place_elems hd hc hP, List.pairwise_append, List.pairwise_append] at ho
  obtain ⟨⟨-, -, hbefore⟩, -, hbehind⟩ := ho
  have hup : up ∈ (Grown.splits l up r).all (elems h) :=
    List.mem_append_right _ List.mem_cons_self
  constructor
  · intro x hx
    exact hbefore x (mem_weave_of_mem (by rw [List.length_map]; omega) hx) up hup
  · intro x hx
    refine hbehind up (List.mem_append_right _ hup) x (mem_weave_of_mem ?_ hx)
    rw [List.length_cons, List.length_map]
    omega

end Multiway

/-! ## §6. How full the nodes are. -/

namespace Multiway

variable {ι α : Type}

/-- What has become of a tree whose top node had at least `least` elements. -/
def GrownFilled (lo hi least : Nat) (h : Nat) : Grown (Multiway ι α h) α → Prop
  | .fits c => Sized least hi h c ∧ Filled lo hi h c
  | .splits l _ r => (Sized lo hi h l ∧ Filled lo hi h l) ∧ Sized lo hi h r ∧ Filled lo hi h r

/-- The bounds of a tree whose nodes have fewer than `order` elements. -/
theorem settle_filled {order least h : Nat} {new : ι} {t : Multiway ι α (h + 1)}
    (hpos : 0 < order) (hle : t.data.length ≤ order) (hleast : least ≤ t.data.length)
    (hf : Filled ((order - 1) / 2) (order - 1) (h + 1) t) :
    GrownFilled ((order - 1) / 2) (order - 1) least (h + 1) (Page.settle t order new) := by
  by_cases hlt : t.data.length < order
  · rw [Page.settle_fits hlt]
    exact ⟨⟨hleast, Nat.le_sub_one_of_lt hlt⟩, hf⟩
  · obtain ⟨L, up, R, Cl, Cr, hd, hc, hL, hCl, hCr⟩ := Page.exists_middle hf.1 (by omega)
    rw [Page.settle_splits (by omega) hd hc hL hCl]
    have hsum := congrArg List.length hd
    rw [List.length_append, List.length_cons] at hsum
    have hl : ∀ c ∈ Cl, c ∈ t.child := fun c h => hc ▸ List.mem_append_left _ h
    have hr : ∀ c ∈ Cr, c ∈ t.child := fun c h => hc ▸ List.mem_append_right _ h
    -- the halves of `order` elements without the middle one
    refine ⟨⟨⟨?_, ?_⟩, hCl, fun c h => hf.2 c (hl c h)⟩, ⟨?_, ?_⟩, hCr, fun c h => hf.2 c (hr c h)⟩
    · show (order - 1) / 2 ≤ L.length
      omega
    · show L.length ≤ order - 1
      omega
    · show (order - 1) / 2 ≤ R.length
      omega
    · show R.length ≤ order - 1
      omega

/-- The child that a new element goes to has become something filled: so has the node, which
has at most one element more. -/
theorem place_filled {lo hi h : Nat} {t : Multiway ι α (h + 1)} {A B : List α}
    {Ps Qs : List (Multiway ι α h)} {c : Multiway ι α h} {g : Grown (Multiway ι α h) α}
    (hd : t.data = A ++ B) (hc : t.child = Ps ++ c :: Qs) (hP : Ps.length = A.length)
    (hf : Filled lo hi (h + 1) t) (hg : GrownFilled lo hi lo h g) :
    Filled lo hi (h + 1) (Page.place t A.length g) ∧
      t.data.length ≤ (Page.place t A.length g).data.length ∧
      (Page.place t A.length g).data.length ≤ t.data.length + 1 := by
  have hlen := Page.place_length (g := g) hf.1 hd hc hP
  have hold : ∀ d ∈ Ps ++ Qs, Sized lo hi h d ∧ Filled lo hi h d := by
    intro d hd
    rw [List.mem_append] at hd
    apply hf.2
    rw [hc, List.mem_append, List.mem_cons]
    exact hd.imp_right Or.inr
  cases g with
  | fits c' =>
    rw [Page.place_fits hc hP] at hlen ⊢
    refine ⟨⟨hlen, ?_⟩, Nat.le_refl _, Nat.le_succ _⟩
    intro d hd
    rw [List.mem_append, List.mem_cons] at hd
    rcases hd with hd | rfl | hd
    · exact hold d (List.mem_append_left _ hd)
    · exact hg
    · exact hold d (List.mem_append_right _ hd)
  | splits l up r =>
    rw [Page.place_splits hd hc hP rfl] at hlen ⊢
    refine ⟨⟨hlen, ?_⟩, ?_⟩
    · intro d hd
      simp only [List.mem_append, List.mem_cons] at hd
      rcases hd with hd | rfl | rfl | hd
      · exact hold d (List.mem_append_left _ hd)
      · exact hg.1
      · exact hg.2
      · exact hold d (List.mem_append_right _ hd)
    · rw [hd]
      simp only [List.length_append, List.length_cons]
      omega

/-- **Every node stays filled** when an element is added to a tree whose top node has fewer
than `order` elements. -/
theorem filled_grow [LinearOrder α] (order : Nat) (label : Nat → ι) {a : α} (hpos : 0 < order) :
    ∀ {h : Nat} {t : Multiway ι α h} {least : Nat}, Sized least (order - 1) h t →
      Filled ((order - 1) / 2) (order - 1) h t → Ordered h t → a ∉ elems h t →
      GrownFilled ((order - 1) / 2) (order - 1) least h (grow order label a h t)
  | 0, _, _, _, _, _, _ => ⟨⟨trivial, trivial⟩, trivial, trivial⟩
  | h + 1, t, least, hs, hf, ho, ha => by
    have hmem := fun hx => ha (mem_elems_of_mem_data hf.1 (x := a) hx)
    obtain ⟨A, B, Ps, c, Qs, hd, hc, hA, hP, -, hlt, hgt⟩ :=
      exists_locate hf.1 (ho.data hf.1) hmem
    have hac : a ∉ elems h c := fun hx => ha ((mem_elems_iff ho hd hc hP hlt hgt).mpr hx)
    obtain ⟨hsc, hfc⟩ := hf.2 c (by rw [hc]; simp)
    have hg := filled_grow order label hpos hsc hfc (ho.around hd hc hP hlt hgt).1 hac
    obtain ⟨hfp, hge, hle⟩ := place_filled hd hc hP hf hg
    rw [grow_succ hc hA hP]
    have hs' : least ≤ t.data.length ∧ t.data.length ≤ order - 1 := hs
    exact settle_filled hpos (by omega) (by omega) hfp

/-- A tree holds as much as its children hold, with an element between every two. -/
theorem child_mul_le {h k : Nat} {t : Multiway ι α (h + 1)}
    (hlen : t.child.length = t.data.length + 1)
    (hk : ∀ c ∈ t.child, k ≤ (elems h c).length + 1) :
    t.child.length * k ≤ (elems (h + 1) t).length + 1 := by
  have hsum : (elems (h + 1) t).length + 1
      = ((t.child.map (elems h)).map fun p => p.length + 1).sum :=
    length_weave (by rw [List.length_map]; exact hlen)
  have hle := List.card_nsmul_le_sum (t.child.map ((fun p => p.length + 1) ∘ elems h)) k (by
    intro x hx
    obtain ⟨c, hc, rfl⟩ := List.mem_map.mp hx
    exact hk c hc)
  rwa [List.length_map, smul_eq_mul, ← List.map_map, ← hsum] at hle

/-- A tree holds at least as much as its height and the bound say. -/
theorem pow_le_length {lo hi : Nat} :
    ∀ {h : Nat} {t : Multiway ι α h}, Sized lo hi h t → Filled lo hi h t →
      (lo + 1) ^ h ≤ (elems h t).length + 1
  | 0, _, _, _ => Nat.le_refl 1
  | h + 1, t, hs, hf => by
    have hlo : lo ≤ t.data.length := hs.1
    calc (lo + 1) ^ (h + 1) = (lo + 1) * (lo + 1) ^ h := by rw [pow_succ, Nat.mul_comm]
      _ ≤ t.child.length * (lo + 1) ^ h := Nat.mul_le_mul_right _ (by rw [hf.1]; omega)
      _ ≤ _ := child_mul_le hf.1 fun c hc => pow_le_length (hf.2 c hc).1 (hf.2 c hc).2

/-- A root with one element holds what two trees below it hold, at least. -/
theorem two_mul_pow_le_length {lo hi h : Nat} {t : Multiway ι α (h + 1)}
    (hs : Sized 1 hi (h + 1) t) (hf : Filled lo hi (h + 1) t) :
    2 * (lo + 1) ^ h ≤ (elems (h + 1) t).length + 1 := by
  have hpos : 1 ≤ t.data.length := hs.1
  calc 2 * (lo + 1) ^ h ≤ t.child.length * (lo + 1) ^ h :=
        Nat.mul_le_mul_right _ (by rw [hf.1]; omega)
    _ ≤ _ := child_mul_le hf.1 fun c hc => pow_le_length (hf.2 c hc).1 (hf.2 c hc).2

end Multiway

/-! ## §7. The names of the nodes. -/

namespace Multiway

variable {ι α : Type}

/-- The names of the nodes of what a tree has become. -/
def grownIds (h : Nat) : Grown (Multiway ι α h) α → List ι
  | .fits c => ids h c
  | .splits l _ r => ids h l ++ ids h r

/-- `k` nodes were split off: all the way up, or not. -/
def SplitsUp {C : Type} (h k : Nat) : Grown C α → Prop
  | .fits _ => k < h
  | .splits _ _ _ => k = h

/-- A node that splits has the name of one half; the other half has the new name. -/
theorem ids_halves {h : Nat} {t : Multiway ι α (h + 1)} {L R : List α}
    {Cl Cr : List (Multiway ι α h)} (new : ι) (hc : t.child = Cl ++ Cr) :
    (ids (h + 1) (node t.id L Cl) ++ ids (h + 1) (node new R Cr)).Perm
      (ids (h + 1) t ++ [new]) := by
  show (t.id :: Cl.flatMap (ids h) ++ new :: Cr.flatMap (ids h)).Perm
    (t.id :: t.child.flatMap (ids h) ++ [new])
  rw [hc, List.flatMap_append, List.cons_append, List.cons_append, List.append_assoc]
  apply List.Perm.cons
  apply List.Perm.append_left
  exact (List.perm_append_singleton new _).symm

theorem place_ids {h : Nat} {t : Multiway ι α (h + 1)} {A B : List α}
    {Ps Qs : List (Multiway ι α h)} {c : Multiway ι α h} {g : Grown (Multiway ι α h) α}
    (hd : t.data = A ++ B) (hc : t.child = Ps ++ c :: Qs) (hP : Ps.length = A.length) :
    ids (h + 1) (Page.place t A.length g)
      = t.id :: (Ps.flatMap (ids h) ++ grownIds h g ++ Qs.flatMap (ids h)) := by
  cases g with
  | fits c' =>
    rw [Page.place_fits hc hP]
    show t.id :: (Ps ++ c' :: Qs).flatMap (ids h) = _
    simp [grownIds]
  | splits l up r =>
    rw [Page.place_splits hd hc hP rfl]
    show t.id :: (Ps ++ l :: r :: Qs).flatMap (ids h) = _
    simp [grownIds]

theorem SplitsUp.le {C : Type} {h k : Nat} {g : Grown C α} (hk : SplitsUp h k g) : k ≤ h := by
  cases g with
  | fits c => exact Nat.le_of_lt hk
  | splits l up r => exact Nat.le_of_eq hk

/-- A node gets an element more only when the child split. -/
theorem splitsUp_of_length_lt {C : Type} {t : Page ι α C} {i h k : Nat} {g : Grown C α}
    (hk : SplitsUp h k g) (hlt : t.data.length < (t.place i g).data.length) : k = h := by
  cases g with
  | fits c => exact absurd hlt (lt_irrefl _)
  | splits l up r => exact hk

/-- The nodes of a tree whose child has become something with other nodes as well. -/
theorem place_ids_perm {h : Nat} {t : Multiway ι α (h + 1)} {A B : List α}
    {Ps Qs : List (Multiway ι α h)} {c : Multiway ι α h} {g : Grown (Multiway ι α h) α}
    {names : List ι} (hd : t.data = A ++ B) (hc : t.child = Ps ++ c :: Qs)
    (hP : Ps.length = A.length) (hperm : (grownIds h g).Perm (ids h c ++ names)) :
    (ids (h + 1) (Page.place t A.length g)).Perm (ids (h + 1) t ++ names) := by
  rw [place_ids hd hc hP]
  show (t.id :: _).Perm (t.id :: t.child.flatMap (ids h) ++ _)
  rw [hc, List.flatMap_append, List.flatMap_cons, List.cons_append]
  apply List.Perm.cons
  rw [List.append_assoc, List.append_assoc, List.append_assoc]
  apply List.Perm.append_left
  refine (hperm.append_right _).trans ?_
  rw [List.append_assoc]
  apply List.Perm.append_left
  exact List.perm_append_comm

end Multiway

end Metta.Machine
