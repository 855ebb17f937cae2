/-
  Metta.Machine.Hierarchy — maps that have maps as values.

  A map takes a label to a value, and a value can be a map again; `f n l` is the
  value of the label `l` in the map `n`, and `sub v` is the map that the value `v`
  is.  Paths of labels lead through the maps.

    • `walk`, `resolve` — where a path leads and what it is bound to,
    • `Forest` — no map is in two places or in itself, `walk_unique`,
    • `AgreeOff`, `resolve_of_agreeOff` — maps that differ in one place,
    • `bindAt`, `unbindAt` — one binding more and one less,
    • `resolve_bindAt`, `resolve_unbindAt` — what they change.
-/
import Mathlib.Tactic

namespace Metta.Machine.Hierarchy

universe u v w

variable {N : Type u} {L : Type v} {V : Type w}

/-- Where a path leads: to a map, to a label that is not bound, or to a value that is no
map. -/
inductive Arrival (N : Type u) (L : Type v) where
  | node (n : N)
  | unbound (l : L)
  | leaf

section

variable (sub : V → Option N) (f : N → L → Option V)

/-- Where a path leads from a map. -/
def walk : N → List L → Arrival N L
  | n, [] => .node n
  | n, l :: path =>
      match f n l with
      | none => .unbound l
      | some v =>
          match sub v with
          | none => .leaf
          | some m => walk m path

/-- The value that a path is bound to. -/
def resolve : N → List L → Option V
  | _, [] => none
  | n, [l] => f n l
  | n, l :: path => (f n l).bind fun v => (sub v).bind fun m => resolve m path

/-- One map is found below another. -/
def Leads (n m : N) : Prop := ∃ path, walk sub f n path = .node m

/-- No map is in two places, and none is in itself. -/
structure Forest : Prop where
  once : ∀ {n n' : N} {l l' : L} {v v' : V} {m : N}, f n l = some v → sub v = some m →
    f n' l' = some v' → sub v' = some m → n = n' ∧ l = l'
  acyclic : ∀ {n : N} {path : List L}, walk sub f n path = .node n → path = []

end

variable {sub : V → Option N} {f : N → L → Option V}

/-! ## §1. Paths. -/

theorem walk_cons {n m : N} {l : L} {v : V} (hv : f n l = some v) (hm : sub v = some m)
    (path : List L) : walk sub f n (l :: path) = walk sub f m path := by
  rw [walk, hv]
  simp only [hm]

theorem walk_cons_eq_node {n x : N} {l : L} {path : List L}
    (h : walk sub f n (l :: path) = .node x) :
    ∃ v m, f n l = some v ∧ sub v = some m ∧ walk sub f m path = .node x := by
  rw [walk] at h
  cases hv : f n l with
  | none => rw [hv] at h; cases h
  | some v =>
      simp only [hv] at h
      cases hm : sub v with
      | none => rw [hm] at h; cases h
      | some m => exact ⟨v, m, rfl, hm, by rwa [hm] at h⟩

theorem walk_append {n x : N} {path path' : List L} (h : walk sub f n path = .node x) :
    walk sub f n (path ++ path') = walk sub f x path' := by
  induction path generalizing n with
  | nil =>
      cases h
      rfl
  | cons l path ih =>
      obtain ⟨v, m, hv, hm, hrest⟩ := walk_cons_eq_node h
      rw [List.cons_append, walk_cons hv hm, ih hrest]

theorem walk_append_eq_node {n x : N} {path : List L} {l : L}
    (h : walk sub f n (path ++ [l]) = .node x) :
    ∃ m v, walk sub f n path = .node m ∧ f m l = some v ∧ sub v = some x := by
  induction path generalizing n with
  | nil =>
      obtain ⟨v, m, hv, hm, hrest⟩ := walk_cons_eq_node h
      cases hrest
      exact ⟨n, v, rfl, hv, hm⟩
  | cons k path ih =>
      obtain ⟨u, m, hu, hm, hrest⟩ := walk_cons_eq_node h
      obtain ⟨m', v, hwalk, hv⟩ := ih hrest
      exact ⟨m', v, by rw [walk_cons hu hm, hwalk], hv⟩

/-- The value of a path is in the map that all but its last label lead to. -/
theorem resolve_append {n : N} {path : List L} {l : L} :
    resolve sub f n (path ++ [l])
      = match walk sub f n path with
        | .node m => f m l
        | _ => none := by
  induction path generalizing n with
  | nil => rfl
  | cons k path ih =>
      obtain ⟨k', rest, hrest⟩ : ∃ k' rest, path ++ [l] = k' :: rest := by
        cases path with
        | nil => exact ⟨l, [], rfl⟩
        | cons k' path => exact ⟨k', path ++ [l], rfl⟩
      rw [List.cons_append, hrest, resolve, ← hrest, walk]
      · cases f n k with
        | none => rfl
        | some v =>
            cases hm : sub v with
            | none => simp [hm]
            | some m => simp [hm, ih]
      · simp

theorem Leads.refl (n : N) : Leads sub f n n := ⟨[], rfl⟩

theorem Leads.trans {n m x : N} (h : Leads sub f n m) (h' : Leads sub f m x) :
    Leads sub f n x := by
  obtain ⟨path, hpath⟩ := h
  obtain ⟨path', hpath'⟩ := h'
  exact ⟨path ++ path', by rw [walk_append hpath, hpath']⟩

theorem Leads.head {n m x : N} {l : L} {v : V} (hv : f n l = some v) (hm : sub v = some m)
    (h : Leads sub f m x) : Leads sub f n x := by
  obtain ⟨path, hpath⟩ := h
  exact ⟨l :: path, by rw [walk_cons hv hm, hpath]⟩

/-- **In a forest one path leads to a map.** -/
theorem Forest.walk_unique (h : Forest sub f) {n x : N} {path path' : List L}
    (hp : walk sub f n path = .node x) (hp' : walk sub f n path' = .node x) : path = path' := by
  induction path using List.reverseRecOn generalizing path' x with
  | nil =>
      cases hp
      exact (h.acyclic hp').symm
  | append_singleton path l ih =>
      induction path' using List.reverseRecOn with
      | nil =>
          cases hp'
          exact h.acyclic hp
      | append_singleton path' l' _ =>
          obtain ⟨m, v, hm, hv, hx⟩ := walk_append_eq_node hp
          obtain ⟨m', v', hm', hv', hx'⟩ := walk_append_eq_node hp'
          obtain ⟨rfl, rfl⟩ := h.once hv hx hv' hx'
          rw [ih hm hm']

/-- A map is not found below a value of itself. -/
theorem Forest.not_leads (h : Forest sub f) {n m : N} {l : L} {v : V} (hv : f n l = some v)
    (hm : sub v = some m) : ¬ Leads sub f m n := by
  rintro ⟨path, hpath⟩
  have := h.acyclic (show walk sub f n (l :: path) = .node n by rw [walk_cons hv hm, hpath])
  cases this

/-! ## §2. Maps that differ in one place. -/

/-- The maps of `g` are those of `f` but for what `p` has for `k`. -/
def AgreeOff (f g : N → L → Option V) (p : N) (k : L) : Prop :=
  ∀ n l, ¬ (n = p ∧ l = k) → g n l = f n l

section

variable {g : N → L → Option V} {n p : N} {k l : L}

/-- Where the place is not below, nothing changes. -/
theorem AgreeOff.resolve_of_not_leads (h : AgreeOff f g p k) (hn : ¬ Leads sub f n p)
    (path : List L) : resolve sub g n path = resolve sub f n path := by
  induction path generalizing n with
  | nil => rfl
  | cons l path ih =>
      have hne : n ≠ p := fun heq => hn (heq ▸ Leads.refl n)
      have hsame : g n l = f n l := h n l fun heq => hne heq.1
      cases path with
      | nil => exact hsame
      | cons l' path =>
          simp only [resolve, hsame]
          cases hu : f n l with
          | none => rfl
          | some u =>
              cases hm : sub u with
              | none => simp [hm]
              | some m =>
                  simp only [Option.bind_some, hm]
                  exact ih fun hreach => hn (Leads.head hu hm hreach)

/-- A path that begins elsewhere, and not with a map that the place is below, is as it was. -/
theorem AgreeOff.resolve_cons (h : AgreeOff f g p k) (hne : ¬ (n = p ∧ l = k))
    (hbelow : ∀ u m, f n l = some u → sub u = some m → ¬ Leads sub f m p) (path : List L) :
    resolve sub g n (l :: path) = resolve sub f n (l :: path) := by
  cases path with
  | nil => exact h n l hne
  | cons l' path =>
      simp only [resolve, h n l hne]
      cases hu : f n l with
      | none => rfl
      | some u =>
          cases hm : sub u with
          | none => simp [hm]
          | some m =>
              simp only [Option.bind_some, hm]
              exact h.resolve_of_not_leads (hbelow u m hu hm) _

/-- **What a difference in one place changes**: in a forest, the paths that lead over the place,
and no others. -/
theorem Forest.resolve_of_agreeOff (hf : Forest sub f) (h : AgreeOff f g p k) {pre : List L}
    (hpre : walk sub f n pre = .node p) (path : List L) :
    ((∃ rest, path = pre ++ k :: rest ∧ resolve sub g n path = resolve sub g p (k :: rest)) ∨
      (¬ (pre ++ [k]) <+: path ∧ resolve sub g n path = resolve sub f n path)) := by
  induction pre generalizing n path with
  | nil =>
      cases hpre
      cases path with
      | nil => exact .inr ⟨by simp, rfl⟩
      | cons l rest =>
          by_cases hl : l = k
          · subst hl
            exact .inl ⟨rest, rfl, rfl⟩
          · refine .inr ⟨by simp [Ne.symm hl], ?_⟩
            exact h.resolve_cons (fun heq => hl heq.2) (fun u m hu hm => hf.not_leads hu hm) _
  | cons l pre ih =>
      obtain ⟨u, m, hu, hm, hrest⟩ := walk_cons_eq_node hpre
      have hne : n ≠ p := by
        rintro rfl
        exact hf.not_leads hu hm ⟨pre, hrest⟩
      cases path with
      | nil => exact .inr ⟨by simp, rfl⟩
      | cons l' path =>
          by_cases hl : l' = l
          · subst hl
            cases path with
            | nil =>
                refine .inr ⟨fun hprefix => by simpa using hprefix.length_le, ?_⟩
                exact h n l' fun heq => hne heq.1
            | cons l'' path =>
                have hover : ∀ f' : N → L → Option V, f' n l' = some u →
                    resolve sub f' n (l' :: l'' :: path) = resolve sub f' m (l'' :: path) := by
                  intro f' hu'
                  simp only [resolve, hu', Option.bind_some, hm]
                have hug : g n l' = some u := (h n l' fun heq => hne heq.1).trans hu
                rw [hover g hug, hover f hu]
                rcases ih hrest (l'' :: path) with ⟨rest, hpath, hres⟩ | ⟨hno, hres⟩
                · exact .inl ⟨rest, by rw [hpath, List.cons_append], hres⟩
                · exact .inr ⟨by simpa using hno, hres⟩
          · refine .inr ⟨by simp [Ne.symm hl], ?_⟩
            refine h.resolve_cons (fun heq => hne heq.1) ?_ _
            -- else there are two paths to the place
            rintro u' m' hu' hm' ⟨path', hpath'⟩
            have := hf.walk_unique hpre (show walk sub f n (l' :: path') = .node p by
              rw [walk_cons hu' hm', hpath'])
            exact hl (List.cons.inj this).1.symm

end

/-! ## §3. One more binding. -/

variable [DecidableEq N] [DecidableEq L]

/-- The maps with one more binding. -/
def bindAt (f : N → L → Option V) (p : N) (k : L) (v : V) : N → L → Option V := fun n l =>
  if n = p ∧ l = k then some v else f n l

theorem bindAt_of_ne {p n : N} {k l : L} {v : V} (h : ¬ (n = p ∧ l = k)) :
    bindAt f p k v n l = f n l := if_neg h

theorem bindAt_self {p : N} {k : L} {v : V} : bindAt f p k v p k = some v := if_pos ⟨rfl, rfl⟩

theorem agreeOff_bindAt (p : N) (k : L) (v : V) : AgreeOff f (bindAt f p k v) p k :=
  fun _ _ => bindAt_of_ne

/-- A walk after the binding was there before, or it goes over the binding. -/
theorem walk_bindAt_cases {p n x : N} {k : L} {v : V} {path : List L}
    (h : walk sub (bindAt f p k v) n path = .node x) :
    walk sub f n path = .node x ∨
    ∃ m, sub v = some m ∧ Leads sub f n p ∧ Leads sub f m x := by
  induction path generalizing n with
  | nil => exact .inl h
  | cons l path ih =>
      obtain ⟨u, y, hu, hy, hrest⟩ := walk_cons_eq_node h
      by_cases hnew : n = p ∧ l = k
      · obtain ⟨rfl, rfl⟩ := hnew
        rw [bindAt_self] at hu
        cases hu
        refine .inr ⟨y, hy, Leads.refl n, ?_⟩
        rcases ih hrest with hwalk | ⟨m, hm, -, hreach⟩
        · exact ⟨path, hwalk⟩
        · rw [hy] at hm
          cases hm
          exact hreach
      · rw [bindAt_of_ne hnew] at hu
        rcases ih hrest with hwalk | ⟨m, hm, hreach, hrest⟩
        · exact .inl (by rw [walk_cons hu hy, hwalk])
        · exact .inr ⟨m, hm, Leads.head hu hy hreach, hrest⟩

/-- **A forest stays one** when what is bound is in no place yet and the place is not below
it. -/
theorem Forest.bindAt (h : Forest sub f) {p : N} {k : L} {v : V}
    (hnew : ∀ m, sub v = some m →
      (∀ n l u, f n l = some u → sub u ≠ some m) ∧ ¬ Leads sub f m p) :
    Forest sub (bindAt f p k v) where
  once := by
    intro n n' l l' u u' m hu hm hu' hm'
    by_cases h1 : n = p ∧ l = k
    · rw [h1.1, h1.2, bindAt_self] at hu
      cases hu
      by_cases h2 : n' = p ∧ l' = k
      · exact ⟨h1.1.trans h2.1.symm, h1.2.trans h2.2.symm⟩
      · rw [bindAt_of_ne h2] at hu'
        exact absurd hm' ((hnew m hm).1 n' l' u' hu')
    · rw [bindAt_of_ne h1] at hu
      by_cases h2 : n' = p ∧ l' = k
      · rw [h2.1, h2.2, bindAt_self] at hu'
        cases hu'
        exact absurd hm ((hnew m hm').1 n l u hu)
      · rw [bindAt_of_ne h2] at hu'
        exact h.once hu hm hu' hm'
  acyclic := by
    intro n path hwalk
    rcases walk_bindAt_cases hwalk with hwalk | ⟨m, hm, hreach, hreach'⟩
    · exact h.acyclic hwalk
    · exact absurd (hreach'.trans hreach) (hnew m hm).2

/-- **What a new binding changes**: the path has the value, the paths through it are those of
the value, and all other paths are as they were. -/
theorem Forest.resolve_bindAt (h : Forest sub f) {n p : N} {pre : List L} {k : L} {v : V}
    (hpre : walk sub f n pre = .node p) (hnew : ∀ m, sub v = some m → ¬ Leads sub f m p)
    (path : List L) :
    resolve sub (Hierarchy.bindAt f p k v) n path
      = if path = pre ++ [k] then some v
        else if (pre ++ [k]) <+: path then
          (sub v).bind fun m => resolve sub f m (path.drop (pre.length + 1))
        else resolve sub f n path := by
  have hoff : AgreeOff f (Hierarchy.bindAt f p k v) p k := agreeOff_bindAt p k v
  rcases h.resolve_of_agreeOff hoff hpre path with ⟨rest, rfl, hres⟩ | ⟨hno, hres⟩
  · rw [hres]
    cases rest with
    | nil => rw [if_pos rfl, resolve, bindAt_self]
    | cons l rest =>
        rw [if_neg (by simp), if_pos (by simp), resolve, bindAt_self, Option.bind_some]
        · cases hm : sub v with
          | none => rfl
          | some m =>
              have hdrop : (pre ++ k :: l :: rest).drop (pre.length + 1) = l :: rest := by simp
              rw [hdrop]
              exact hoff.resolve_of_not_leads (hnew m hm) _
        · simp
  · have hne : path ≠ pre ++ [k] := fun heq => hno (by rw [heq])
    rw [if_neg hne, if_neg hno, hres]

/-! ## §4. One binding less. -/

/-- The maps without a binding. -/
def unbindAt (f : N → L → Option V) (p : N) (k : L) : N → L → Option V := fun n l =>
  if n = p ∧ l = k then none else f n l

theorem agreeOff_unbindAt (p : N) (k : L) : AgreeOff f (unbindAt f p k) p k :=
  fun _ _ h => if_neg h

/-- What is bound was bound before. -/
theorem eq_some_of_unbindAt {p n : N} {k l : L} {v : V} (h : unbindAt f p k n l = some v) :
    f n l = some v := by
  unfold unbindAt at h
  split at h
  · cases h
  · exact h

theorem walk_of_unbindAt {p n x : N} {k : L} {path : List L}
    (h : walk sub (unbindAt f p k) n path = .node x) : walk sub f n path = .node x := by
  induction path generalizing n with
  | nil => exact h
  | cons l path ih =>
      obtain ⟨v, m, hv, hm, hrest⟩ := walk_cons_eq_node h
      rw [walk_cons (eq_some_of_unbindAt hv) hm]
      exact ih hrest

/-- **A forest stays one** when a binding goes. -/
theorem Forest.unbindAt (h : Forest sub f) (p : N) (k : L) :
    Forest sub (Hierarchy.unbindAt f p k) where
  once hu hm hu' hm' := h.once (eq_some_of_unbindAt hu) hm (eq_some_of_unbindAt hu') hm'
  acyclic hwalk := h.acyclic (walk_of_unbindAt hwalk)

/-- **What goes with a binding**: the path and the paths through it. -/
theorem Forest.resolve_unbindAt (h : Forest sub f) {n p : N} {pre : List L} {k : L}
    (hpre : walk sub f n pre = .node p) (path : List L) :
    resolve sub (Hierarchy.unbindAt f p k) n path
      = if (pre ++ [k]) <+: path then none else resolve sub f n path := by
  have hnone : Hierarchy.unbindAt f p k p k = none := if_pos ⟨rfl, rfl⟩
  rcases h.resolve_of_agreeOff (agreeOff_unbindAt p k) hpre path with ⟨rest, rfl, hres⟩ | ⟨hno, hres⟩
  · rw [if_pos (by simp), hres]
    cases rest with
    | nil => exact hnone
    | cons l rest => simp only [resolve, hnone, Option.bind_none]
  · rw [if_neg hno, hres]

end Metta.Machine.Hierarchy
