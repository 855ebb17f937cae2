/-
  Metta.ContextMod.Removal — removing names.

  `remove` goes along a pathname like `get` and `add`, but it does not return from
  the branch that it recurses in: it goes on to the statement that raises
  `not_found`.  A name of one component is removed rightly; behind a longer
  pathname the binding is removed, and the call raises.

    • `components` — what the calls take a pathname apart into,
    • `stopAt` — the value that is no context where a walk ends,
    • `removeFrom_eq` — where `remove` ends up,
    • `RemoveSpec` — what it is to do,
    • `remove_iff` — when it does,
    • `forest_run`, `forest_remove` — contexts stay a tree.
-/
import Metta.ContextMod.Paths

namespace Metta.ContextMod

open Metta.Machine Metta.Machine.Hierarchy Metta.TypesystemMod

/-! ## §1. Components. -/

/-- The components of any name: it is cut at a dot that something is behind. -/
def components (key : Name) : List Name :=
  if _h : (split dot key).2 = [] then [key]
  else (split dot key).1 :: components (split dot key).2
termination_by key.length
decreasing_by exact length_split_lt _h

theorem components_of_nil {key : Name} (h : (split dot key).2 = []) : components key = [key] := by
  rw [components, dif_pos h]

theorem components_of_ne_nil {key : Name} (h : (split dot key).2 ≠ []) :
    components key = (split dot key).1 :: components (split dot key).2 := by
  rw [components, dif_neg h]

theorem components_ne_nil (key : Name) : components key ≠ [] := by
  by_cases h : (split dot key).2 = []
  · rw [components_of_nil h]
    exact List.cons_ne_nil _ _
  · rw [components_of_ne_nil h]
    exact List.cons_ne_nil _ _

/-- The components of a pathname of arc-names are these. -/
theorem components_pathname (path : List Arc) (a : Arc) :
    components (pathname (path ++ [a])) = (path ++ [a]).map Arc.name := by
  induction path with
  | nil =>
      have hsplit : (split dot (pathname [a])).2 = [] := by rw [split_pathname_one]
      exact components_of_nil hsplit
  | cons b path ih =>
      obtain ⟨d, rest, hrest⟩ : ∃ d rest, path ++ [a] = d :: rest := by
        cases path with
        | nil => exact ⟨a, [], rfl⟩
        | cons d path => exact ⟨d, path ++ [a], rfl⟩
      rw [hrest] at ih
      rw [List.cons_append, hrest]
      have hne : (split dot (pathname (b :: d :: rest))).2 ≠ [] := by
        rw [split_pathname]
        exact pathname_ne_nil (List.cons_ne_nil _ _)
      rw [components_of_ne_nil hne, split_pathname, ih]
      rfl

/-- The components that lead to the context of the name. -/
def way (key : Name) : List Name := (components key).dropLast

/-- The name in that context. -/
def lastName (key : Name) : Name := (components key).getLast (components_ne_nil key)

theorem way_append (key : Name) : components key = way key ++ [lastName key] :=
  (List.dropLast_append_getLast (components_ne_nil key)).symm

/-! ## §2. Where `remove` ends up. -/

variable {isContext : Code → Bool} {isType : Code → Except Code Bool} {w : World} {c : Nat} {key : Name}

/-- The type codes of contexts. -/
def recognises (isType : Code → Except Code Bool) (tc : Code) : Bool :=
  match isType tc with
  | .ok known => known
  | .error _ => false

@[simp] theorem recognises_answers (isContext : Code → Bool) :
    recognises (answers isContext) = isContext := by
  funext tc
  rfl

/-- The value on the path that is no context, where the walk ends. -/
def stopAt (sub : Any → Option Nat) (f : Nat → Name → Option Any) : Nat → List Name → Option Any
  | _, [] => none
  | c, b :: path =>
      match f c b with
      | none => none
      | some v =>
          match sub v with
          | none => some v
          | some m => stopAt sub f m path

/-- A walk ends at a value exactly if there is one. -/
theorem walk_eq_leaf_iff {sub : Any → Option Nat} {f : Nat → Name → Option Any} {c : Nat}
    {path : List Name} : walk sub f c path = .leaf ↔ ∃ v, stopAt sub f c path = some v := by
  induction path generalizing c with
  | nil => simp [walk, stopAt]
  | cons b path ih =>
      unfold walk stopAt
      cases hv : f c b with
      | none => simp
      | some v =>
          dsimp only
          cases hm : sub v with
          | none => simp
          | some m => exact ih

/-- What a call raises at a value that is no context: the type system does not know its type, or
it is of another one. -/
def refusal (isType : Code → Except Code Bool) (v : Any) : Raise :=
  match isType v.type_ with
  | .error tc => .badCode tc
  | .ok _ => .notContext

/-- A binding less, in a context. -/
theorem World.find_erase (w : World) (c : Nat) (k : Name) :
    (w.erase c k).find = unbindAt w.find c k := by
  funext c' k'
  simp only [find, erase, unbindAt]
  by_cases hc : c' = c
  · subst hc
    rw [Function.update_self]
    cases w.contexts c' with
    | none => simp
    | some map =>
        simp only [Option.map_some, Option.bind_some, UnorderedMap.find_erase, true_and]
        by_cases hk : k = k'
        · rw [if_pos hk, if_pos hk.symm]
        · rw [if_neg hk, if_neg (Ne.symm hk)]
  · rw [Function.update_of_ne hc, if_neg fun h => hc h.1]

/-- What a call raises that has removed the name behind `way`: the context next to it. -/
def raisedAfter (way : List Name) : Option Halt :=
  way.getLast?.map fun b => .raised (.notFound b)

/-- **Where `remove` ends up.** -/
theorem World.removeFrom_eq (self : Nat) (key : Name) (pre : List Name) (last : Name)
    (hkey : components key = pre ++ [last]) (fuel : Nat) (hfuel : key.length < fuel) :
    w.removeFrom isType fuel self key
      = match walk (subContext (recognises isType)) w.find self pre with
        | .node c =>
            match w.find c last with
            | some _ => (w.erase c last, raisedAfter pre)
            | none => (w, some (.raised (.notFound last)))
        | .unbound b => (w, some (.raised (.notFound b)))
        | .leaf => (w, (stopAt (subContext (recognises isType)) w.find self pre).map fun v =>
            .raised (refusal isType v)) := by
  induction pre generalizing self key fuel with
  | nil =>
      obtain ⟨fuel, rfl⟩ : ∃ k, fuel = k + 1 := ⟨fuel - 1, by omega⟩
      have hone : (split dot key).2 = [] := by
        by_contra hne
        rw [components_of_ne_nil hne, List.nil_append, List.cons.injEq] at hkey
        exact components_ne_nil _ hkey.2
      rw [components_of_nil hone, List.nil_append, List.cons.injEq] at hkey
      obtain ⟨rfl, -⟩ := hkey
      unfold removeFrom
      simp only [hone, ne_eq, not_true_eq_false, if_false, if_true, walk]
      rfl
  | cons b pre ih =>
      obtain ⟨fuel, rfl⟩ : ∃ k, fuel = k + 1 := ⟨fuel - 1, by omega⟩
      have hne : (split dot key).2 ≠ [] := by
        intro hone
        rw [components_of_nil hone] at hkey
        simpa using congrArg List.length hkey
      have hlt := length_split_lt hne
      rw [components_of_ne_nil hne, List.cons_append, List.cons.injEq] at hkey
      obtain ⟨rfl, hrest⟩ := hkey
      unfold removeFrom walk stopAt
      simp only [hne, ne_eq, not_false_eq_true, if_true, if_false]
      cases hv : w.find self (split dot key).1 with
      | none => rfl
      | some v =>
          -- the type system may not know the value, or know that it is none or one
          cases hc : isType v.type_ with
          | error tc => simp [subContext, recognises, refusal, hc]
          | ok known =>
              cases known with
              | false => simp [subContext, recognises, refusal, hc]
              | true =>
                  simp only [subContext, recognises, hc, if_true]
                  rw [ih (closureOf v) (split dot key).2 hrest fuel (by omega)]
                  cases hwalk : walk (subContext (recognises isType)) w.find (closureOf v) pre with
                  | unbound d => rfl
                  | leaf =>
                      obtain ⟨u, hstop⟩ := walk_eq_leaf_iff.mp hwalk
                      rw [hstop]
                      rfl
                  | node p =>
                      dsimp only
                      cases w.find p last with
                      | none => rfl
                      | some u =>
                          -- the call next to the name raises, and the others hand it on
                          cases pre with
                          | nil => rfl
                          | cons d pre =>
                              obtain ⟨e, he⟩ : ∃ e, (d :: pre).getLast? = some e :=
                                ⟨_, List.getLast?_eq_getLast_of_ne_nil (List.cons_ne_nil d pre)⟩
                              have hlast : ((split dot key).1 :: d :: pre).getLast? = some e := by
                                rw [List.getLast?_cons_cons, he]
                              simp only [raisedAfter, he, hlast, Option.map_some]

theorem World.remove_eq (w : World) (c : Nat) (key : Name) :
    w.remove isType c key
      = match walk (subContext (recognises isType)) w.find c (way key) with
        | .node p =>
            match w.find p (lastName key) with
            | some _ => (w.erase p (lastName key), raisedAfter (way key))
            | none => (w, some (.raised (.notFound (lastName key))))
        | .unbound b => (w, some (.raised (.notFound b)))
        | .leaf => (w, (stopAt (subContext (recognises isType)) w.find c (way key)).map fun v =>
            .raised (refusal isType v)) :=
  World.removeFrom_eq c key (way key) (lastName key) (way_append key) _ (Nat.lt_succ_self _)

/-- **A removal keeps a tree.** -/
theorem forest_remove (h : Forest (subContext (recognises isType)) w.find) (c : Nat) (key : Name) :
    Forest (subContext (recognises isType)) (w.remove isType c key).1.find := by
  rw [World.remove_eq]
  cases walk (subContext (recognises isType)) w.find c (way key) with
  | unbound b => exact h
  | leaf => exact h
  | node p =>
      dsimp only
      cases w.find p (lastName key) with
      | none => exact h
      | some v =>
          show Forest (subContext (recognises isType)) (w.erase p (lastName key)).find
          rw [World.find_erase]
          exact h.unbindAt p (lastName key)

/-! ## §3. What `remove` is to do. -/

/-- A name on the path is not bound, in a context that the names before it lead to. -/
def Misses (sub : Any → Option Nat) (f : Nat → Name → Option Any) (c : Nat) (path : List Name) :
    Prop :=
  ∃ pre b post p, path = pre ++ b :: post ∧ walk sub f c pre = .node p ∧ f p b = none

/-- What `remove` of a name does to the tree of contexts below `c`. -/
structure RemoveSpec (isType : Code → Except Code Bool) (w : World) (c : Nat) (key : Name) : Prop where
  returns : (w.remove isType c key).2 = none ↔
    ∃ v, resolve (subContext (recognises isType)) w.find c (components key) = some v
  only : (w.remove isType c key).2 = none →
    ∀ p, walk (subContext (recognises isType)) w.find c (way key) = .node p →
      (w.remove isType c key).1.find = unbindAt w.find p (lastName key)
  paths : (w.remove isType c key).2 = none → ∀ path,
    resolve (subContext (recognises isType)) (w.remove isType c key).1.find c path
      = if components key <+: path then none
        else resolve (subContext (recognises isType)) w.find c path
  raisesNotContext : (w.remove isType c key).2 = some (.raised .notContext) ↔
    walk (subContext (recognises isType)) w.find c (way key) = .leaf
  raisesNotFound : (∃ name, (w.remove isType c key).2 = some (.raised (.notFound name))) ↔
    Misses (subContext (recognises isType)) w.find c (components key)
  unchanged : (w.remove isType c key).2 ≠ none → (w.remove isType c key).1 = w

/-- Where a walk is stopped by a name that is not bound. -/
theorem misses_of_walk_unbound {sub : Any → Option Nat} {f : Nat → Name → Option Any} {c : Nat}
    {path : List Name} {b : Name} (h : walk sub f c path = .unbound b) :
    Misses sub f c path := by
  induction path generalizing c with
  | nil => cases h
  | cons a path ih =>
      unfold walk at h
      cases hv : f c a with
      | none =>
          simp only [hv] at h
          cases h
          exact ⟨[], b, path, c, rfl, rfl, hv⟩
      | some v =>
          simp only [hv] at h
          cases hm : sub v with
          | none => simp [hm] at h
          | some m =>
              simp only [hm] at h
              obtain ⟨pre, d, post, p, hpath, hwalk, hd⟩ := ih h
              exact ⟨a :: pre, d, post, p, by rw [hpath, List.cons_append],
                by rw [walk_cons hv hm, hwalk], hd⟩

/-- A name on the path is not bound exactly if the walk before the last one ends there, or if
it is the last one. -/
theorem misses_iff {sub : Any → Option Nat} {f : Nat → Name → Option Any} {c : Nat}
    {path : List Name} {last : Name} :
    Misses sub f c (path ++ [last]) ↔
    (∃ b, walk sub f c path = .unbound b) ∨ ∃ p, walk sub f c path = .node p ∧ f p last = none := by
  constructor
  · rintro ⟨pre, b, post, p, hpath, hwalk, hb⟩
    rcases List.eq_nil_or_concat post with rfl | ⟨post', d, rfl⟩
    · obtain ⟨rfl, hlast⟩ := List.append_inj' hpath rfl
      cases hlast
      exact .inr ⟨p, hwalk, hb⟩
    · rw [List.concat_eq_append, ← List.cons_append, ← List.append_assoc] at hpath
      obtain ⟨rfl, -⟩ := List.append_inj' hpath rfl
      refine .inl ⟨b, ?_⟩
      rw [walk_append hwalk, walk, hb]
  · rintro (⟨b, h⟩ | ⟨p, hwalk, hlast⟩)
    · obtain ⟨pre, d, post, p, hpath, hwalk, hd⟩ := misses_of_walk_unbound h
      exact ⟨pre, d, post ++ [last], p, by rw [hpath, List.append_assoc]; rfl, hwalk, hd⟩
    · exact ⟨path, last, [], p, rfl, hwalk, hlast⟩

/-- On the way to the context of the name there is a value of a type that the type system does not
know: it is the first that is no context. -/
def Unknown (isType : Code → Except Code Bool) (w : World) (c : Nat) (key : Name) : Prop :=
  ∃ v tc, stopAt (subContext (recognises isType)) w.find c (way key) = some v ∧
    isType v.type_ = .error tc

/-- **A name of one component, or one that is not bound**, is removed rightly, unless the type
system does not know a value on the way. -/
theorem removeSpec (h : Forest (subContext (recognises isType)) w.find)
    (hkey : way key = [] ∨
      resolve (subContext (recognises isType)) w.find c (components key) = none)
    (hknown : ¬ Unknown isType w c key) : RemoveSpec isType w c key := by
  have hremove : w.remove isType c key = _ := World.remove_eq w c key
  have hbound : resolve (subContext (recognises isType)) w.find c (components key) = _ :=
    (congrArg _ (way_append key)).trans resolve_append
  have hmisses : Misses (subContext (recognises isType)) w.find c (way key ++ [lastName key]) ↔ _ :=
    misses_iff
  rw [← way_append key] at hmisses
  cases hwalk : walk (subContext (recognises isType)) w.find c (way key) with
  | unbound b =>
      simp only [hwalk] at hremove hbound hmisses
      constructor <;> simp [hremove, hbound, hmisses, hwalk]
  | leaf =>
      obtain ⟨v, hstop⟩ := walk_eq_leaf_iff.mp hwalk
      -- the type system knows the value that is no context
      have hrefusal : refusal isType v = .notContext := by
        unfold refusal
        cases htype : isType v.type_ with
        | error tc => exact absurd ⟨v, tc, hstop, htype⟩ hknown
        | ok known => rfl
      simp only [hwalk, hstop, Option.map_some, hrefusal] at hremove hbound hmisses
      constructor <;> simp [hremove, hbound, hmisses, hwalk]
  | node p =>
      simp only [hwalk] at hremove hbound hmisses
      cases hfind : w.find p (lastName key) with
      | none =>
          simp only [hfind] at hremove hbound
          constructor <;> simp [hremove, hbound, hmisses, hwalk, hfind]
      | some v =>
          -- the name is bound, so it has one component
          have hway : way key = [] := hkey.resolve_right (by simp [hbound, hfind])
          have hafter : raisedAfter (way key) = none := by rw [hway]; rfl
          simp only [hfind, hafter] at hremove hbound
          constructor
          case paths =>
            intro _ path
            have hgone := h.resolve_unbindAt (k := lastName key) hwalk path
            rw [← way_append key, ← World.find_erase] at hgone
            rw [hremove]
            exact hgone
          case only =>
            intro _ p' hp'
            rw [hwalk] at hp'
            cases hp'
            rw [hremove]
            exact World.find_erase w p (lastName key)
          all_goals simp [hremove, hbound, hmisses, hwalk, hfind]

/-- **`remove` does what it is to do exactly when** the name has one component or is not bound, and
the type system knows the values on the way: over every tree of contexts, and for every name. -/
theorem remove_iff (isType : Code → Except Code Bool) (w : World) (c : Nat) (key : Name)
    (h : Forest (subContext (recognises isType)) w.find) :
    RemoveSpec isType w c key ↔
      ((components key).length = 1 ∨
        resolve (subContext (recognises isType)) w.find c (components key) = none) ∧
      ¬ Unknown isType w c key := by
  have hlen : (components key).length = 1 ↔ way key = [] := by
    rw [way_append key]
    simp
  rw [hlen]
  constructor
  · intro hspec
    constructor
    · by_contra hnot
      rw [not_or] at hnot
      -- the name is bound in a context below: the binding is gone, and the call above it raises
      obtain ⟨v, hv⟩ := Option.ne_none_iff_exists'.mp hnot.2
      have hreturns := hspec.returns.mpr ⟨v, hv⟩
      rw [way_append key, resolve_append] at hv
      rw [World.remove_eq] at hreturns
      cases hwalk : walk (subContext (recognises isType)) w.find c (way key) with
      | unbound b => simp [hwalk] at hv
      | leaf => simp [hwalk] at hv
      | node p =>
          simp only [hwalk] at hv hreturns
          simp only [hv, raisedAfter, Option.map_eq_none_iff, List.getLast?_eq_none_iff] at hreturns
          exact hnot.1 hreturns
    · intro ⟨v, tc, hstop, htype⟩
      -- the type system raises, where the call is to raise that there is no context
      have hleaf := walk_eq_leaf_iff.mpr ⟨v, hstop⟩
      have hraises := hspec.raisesNotContext.mpr hleaf
      have hrefusal : refusal isType v = .badCode tc := by
        unfold refusal
        rw [htype]
      rw [World.remove_eq, hleaf] at hraises
      simp [hstop, hrefusal] at hraises
  · intro hwhen
    exact removeSpec h hwhen.1 hwhen.2

/-! ## §4. Contexts that were built by calls. -/

/-- All names that are bound are arc-names. -/
def Plain (w : World) : Prop := ∀ c k v, w.find c k = some v → ∃ a : Arc, a.name = k

theorem plain_step (h : Plain w) {op : Op} (hgood : Good isContext w)
    (hop : Legal isContext w op) : Plain (w.step (answers isContext) op) := by
  cases op with
  | createContext a =>
      intro c k v hv
      refine h c k v ?_
      simp only [World.step, World.createContext, World.find] at hv ⊢
      by_cases hc : c = a
      · rw [hc, Function.update_self] at hv
        cases hv
      · rwa [Function.update_of_ne hc] at hv
  | add self key value =>
      obtain ⟨hself, path, a, rfl, -⟩ := hop
      intro c k v hv
      rw [World.step, World.add_eq] at hv
      -- only a name that the path ends with is new
      cases hwalk : walk (subContext isContext) w.bindings self path with
      | unbound b => exact h c k v (by simpa only [hwalk] using hv)
      | leaf => exact h c k v (by simpa only [hwalk] using hv)
      | node p =>
          simp only [hwalk] at hv
          cases hfind : w.find p a.name with
          | some u => exact h c k v (by simpa only [hfind] using hv)
          | none =>
              simp only [hfind] at hv
              rw [World.find_insert (hgood.isSome_of_walk hself hwalk) hfind] at hv
              split at hv
              · next hnew => exact ⟨a, hnew.2.symm⟩
              · exact h c k v hv

theorem plain_run (h : Plain w) (hgood : Good isContext w) {ops : List Op}
    (hops : LegalRun isContext w ops) : Plain (w.run (answers isContext) ops) := by
  induction ops generalizing w with
  | nil => exact h
  | cons op ops ih => exact ih (plain_step h hgood hops.1) (hgood.step hops.1) hops.2

/-- A walk goes over arc-names. -/
theorem Plain.walk_bindings (h : Plain w) {c x : Nat} {path : List Name}
    (hwalk : walk (subContext isContext) w.find c path = .node x) :
    ∃ arcs : List Arc, path = arcs.map Arc.name ∧
      walk (subContext isContext) w.bindings c arcs = .node x := by
  induction path generalizing c with
  | nil =>
      cases hwalk
      exact ⟨[], rfl, rfl⟩
  | cons k path ih =>
      obtain ⟨v, m, hv, hm, hrest⟩ := walk_cons_eq_node hwalk
      obtain ⟨a, rfl⟩ := h c k v hv
      obtain ⟨arcs, rfl, harcs⟩ := ih hrest
      refine ⟨a :: arcs, rfl, ?_⟩
      have hbound : w.bindings c a = some v := hv
      rw [walk_cons hbound hm, harcs]

/-- **Contexts that were built by calls are a tree**, by all names. -/
theorem forest_run {ops : List Op} (hops : LegalRun isContext World.empty ops) :
    Forest (subContext isContext) (World.empty.run (answers isContext) ops).find := by
  have hgood := good_run (good_empty isContext) hops
  have hplain : Plain (World.empty.run (answers isContext) ops) :=
    plain_run (fun c k v hv => by cases hv) (good_empty isContext) hops
  constructor
  · intro n n' l l' v v' m hv hm hv' hm'
    obtain ⟨a, rfl⟩ := hplain n l v hv
    obtain ⟨a', rfl⟩ := hplain n' l' v' hv'
    have hv : World.bindings _ n a = some v := hv
    have hv' : World.bindings _ n' a' = some v' := hv'
    obtain ⟨hn, ha⟩ := hgood.forest.once hv hm hv' hm'
    exact ⟨hn, congrArg Arc.name ha⟩
  · intro n path hwalk
    obtain ⟨arcs, rfl, harcs⟩ := hplain.walk_bindings hwalk
    rw [hgood.forest.acyclic harcs]
    rfl

/-- "a" is removed, and "a.b" with it; behind "a.b" there is nothing to remove. -/
theorem remove_one_component :
    ((World.empty.run (answers (· == 1)) sampleOps).remove (answers (· == 1)) 0x1000
      (pathname [arcA])).2 = none ∧
    ((World.empty.run (answers (· == 1)) sampleOps).remove (answers (· == 1)) 0x1000
      (pathname [arcA, arcB, arcA])).2 = some (.raised .notContext) ∧
    RemoveSpec (answers (· == 1)) (World.empty.run (answers (· == 1)) sampleOps) 0x1000
      (pathname [arcA]) ∧
    RemoveSpec (answers (· == 1)) (World.empty.run (answers (· == 1)) sampleOps) 0x1000
      (pathname [arcA, arcB, arcA]) := by
  have hone : components (pathname [arcA]) = [arcA.name] := components_pathname [] arcA
  have hthree : components (pathname [arcA, arcB, arcA]) = [arcA.name, arcB.name, arcA.name] :=
    components_pathname [arcA, arcB] arcA
  have hforest : Forest (subContext (recognises (answers (· == 1))))
      (World.empty.run (answers (· == 1)) sampleOps).find := by
    rw [recognises_answers]
    exact forest_run legalRun_sampleOps
  have hknown : ∀ key, ¬ Unknown (answers (· == 1)) (World.empty.run (answers (· == 1)) sampleOps)
      0x1000 key := by
    intro key hunknown
    obtain ⟨v, tc, -, htype⟩ := hunknown
    cases htype
  refine ⟨by decide +kernel, by decide +kernel, (remove_iff _ _ _ _ hforest).mpr ⟨.inl ?_, hknown _⟩,
    (remove_iff _ _ _ _ hforest).mpr ⟨.inr ?_, hknown _⟩⟩
  · rw [hone]
    rfl
  · rw [hthree]
    decide +kernel

/-- A type system that knows the type code of contexts, and no other one. -/
def contextsOnly (tc : Code) : Except Code Bool := if tc = 1 then .ok true else .error tc

/-- **"a.b" is removed, and the call raises that "a" is not found.**  Behind "a.b", which is of a
type that the type system does not know, the call raises `bad_code`. -/
theorem removed_and_raised :
    (((World.empty.run (answers (· == 1)) sampleOps).remove (answers (· == 1)) 0x1000
        (pathname [arcA, arcB])).2 = some (.raised (.notFound arcA.name)) ∧
      ((World.empty.run (answers (· == 1)) sampleOps).remove (answers (· == 1)) 0x1000
        (pathname [arcA, arcB])).1.find 0x2000 arcB.name = none ∧
      ¬ RemoveSpec (answers (· == 1)) (World.empty.run (answers (· == 1)) sampleOps) 0x1000
        (pathname [arcA, arcB])) ∧
    ((World.empty.run contextsOnly sampleOps).remove contextsOnly 0x1000
        (pathname [arcA, arcB, arcA])).2 = some (.raised (.badCode 0)) ∧
      ¬ RemoveSpec contextsOnly (World.empty.run contextsOnly sampleOps) 0x1000
        (pathname [arcA, arcB, arcA]) := by
  have hraised : ((World.empty.run (answers (· == 1)) sampleOps).remove (answers (· == 1)) 0x1000
      (pathname [arcA, arcB])).2 = some (.raised (.notFound arcA.name)) := by decide +kernel
  have hrefused : ((World.empty.run contextsOnly sampleOps).remove contextsOnly 0x1000
      (pathname [arcA, arcB, arcA])).2 = some (.raised (.badCode 0)) := by decide +kernel
  refine ⟨⟨hraised, by decide +kernel, fun h => ?_⟩, hrefused, fun h => ?_⟩
  · have htwo : components (pathname [arcA, arcB]) = [arcA.name, arcB.name] :=
      components_pathname [arcA] arcB
    have hbound : resolve (subContext (recognises (answers (· == 1))))
        (World.empty.run (answers (· == 1)) sampleOps).find 0x1000 [arcA.name, arcB.name]
          = some ⟨0, 7⟩ := by decide +kernel
    have hreturns := h.returns.mpr ⟨⟨0, 7⟩, by rw [htwo, hbound]⟩
    rw [hraised] at hreturns
    cases hreturns
  · have hthree : components (pathname [arcA, arcB, arcA])
        = [arcA.name] ++ [arcB.name] ++ [arcA.name] := components_pathname [arcA, arcB] arcA
    have hway : way (pathname [arcA, arcB, arcA]) = [arcA.name, arcB.name] := by
      unfold way
      rw [hthree]
      rfl
    have hstop : stopAt (subContext (recognises contextsOnly))
        (World.empty.run contextsOnly sampleOps).find 0x1000 [arcA.name, arcB.name]
          = some ⟨0, 7⟩ := by decide +kernel
    have hraises := h.raisesNotContext.mpr (walk_eq_leaf_iff.mpr ⟨⟨0, 7⟩, by rw [hway, hstop]⟩)
    rw [hrefused] at hraises
    cases hraises

end Metta.ContextMod
