/-
  Metta.ContextMod.Paths — naming contexts are a hierarchical map.

  `get` and `add` go along a pathname from context to context.  The contexts that
  calls of `create_context` and `add` build are a forest, as long as no context is
  bound twice or below itself; there a binding is found under one path, and `add`
  changes what is bound at its path and below it, and nothing else.

    • `pathname` — a pathname from its components, `split_pathname`,
    • `get_eq`, `add_eq` — where the calls end up,
    • `Good`, `good_run` — what holds after every sequence of calls,
    • `naming_contexts` — the map.
-/
import Metta.ContextMod.Def
import Metta.Machine.Hierarchy

namespace Metta.ContextMod

open Metta.Machine Metta.Machine.Hierarchy Metta.TypesystemMod

/-! ## §1. Pathnames. -/

/-- An arc-name: not empty and without a separator. -/
structure Arc where
  name : Name
  ne_nil : name ≠ []
  plain : dot ∉ name
  deriving DecidableEq

@[ext] theorem Arc.ext {a b : Arc} (h : a.name = b.name) : a = b := by
  cases a
  cases b
  cases h
  rfl

/-- The pathname of arc-names. -/
def pathname : List Arc → Name
  | [] => []
  | [a] => a.name
  | a :: path => a.name ++ dot :: pathname path

theorem pathname_ne_nil {path : List Arc} (h : path ≠ []) : pathname path ≠ [] := by
  match path with
  | [] => exact absurd rfl h
  | [a] => exact a.ne_nil
  | a :: b :: path => simp [pathname]

theorem split_pathname_one (a : Arc) : split dot (pathname [a]) = (a.name, []) :=
  split_of_not_mem a.plain

/-- The first component and the rest of a pathname are found by the first dot. -/
theorem split_pathname (a b : Arc) (path : List Arc) :
    split dot (pathname (a :: b :: path)) = (a.name, pathname (b :: path)) :=
  split_append a.plain _

theorem length_pathname (a b : Arc) (path : List Arc) :
    (pathname (b :: path)).length < (pathname (a :: b :: path)).length := by
  simp only [pathname, List.length_append, List.length_cons]
  omega

/-! ## §2. The calls. -/

/-- The context that a value is. -/
def subContext (isContext : Code → Bool) (v : Any) : Option Nat :=
  if isContext v.type_ then some (World.closureOf v) else none

/-- The bindings of a context, by arc-names. -/
def World.bindings (w : World) (c : Nat) (a : Arc) : Option Any := w.find c a.name

variable {isContext : Code → Bool} {exceptions : Bool} {w : World}

/-- **Where `get` ends up.** -/
theorem World.getFrom_eq (self : Nat) (path : List Arc) (a : Arc) (fuel : Nat)
    (hfuel : (pathname (path ++ [a])).length < fuel) :
    w.getFrom (answers isContext) exceptions fuel self (pathname (path ++ [a]))
      = match walk (subContext isContext) w.bindings self path with
        | .node c => .ok (w.find c a.name)
        | .unbound _ => .ok none
        | .leaf => if exceptions then .error (.raised .notContext) else .ok none := by
  induction path generalizing self fuel with
  | nil =>
      obtain ⟨fuel, rfl⟩ : ∃ k, fuel = k + 1 := ⟨fuel - 1, by omega⟩
      rw [List.nil_append, getFrom]
      simp only [split_pathname_one, ne_eq, not_true_eq_false, if_false, if_true, walk]
      rfl
  | cons b path ih =>
      obtain ⟨fuel, rfl⟩ : ∃ k, fuel = k + 1 := ⟨fuel - 1, by omega⟩
      have hnonempty : path ++ [a] ≠ [] := List.concat_ne_nil a path
      obtain ⟨d, rest, hrest⟩ := List.exists_cons_of_ne_nil hnonempty
      have hne : pathname (d :: rest) ≠ [] := pathname_ne_nil (by simp)
      have hlen := length_pathname b d rest
      rw [List.cons_append, hrest] at hfuel ⊢
      rw [getFrom, walk]
      simp only [split_pathname, ne_eq, hne, not_false_eq_true, if_true, if_false, bindings]
      -- the first component is looked up here, the others in the context that it is bound to
      cases hv : w.find self b.name with
      | none => rfl
      | some v =>
          cases hc : isContext v.type_ with
          | false => simp [subContext, answers, hc]
          | true =>
              simp only [subContext, answers, hc, if_true]
              rw [← hrest, ih (closureOf v) fuel (by rw [hrest]; omega)]

/-- **Where `add` ends up.** -/
theorem World.addFrom_eq (self : Nat) (path : List Arc) (a : Arc) (value : Any) (fuel : Nat)
    (hfuel : (pathname (path ++ [a])).length < fuel) :
    w.addFrom (answers isContext) fuel self (pathname (path ++ [a])) value
      = match walk (subContext isContext) w.bindings self path with
        | .node c =>
            match w.find c a.name with
            | some _ => (w, some (.raised .exists_))
            | none => (w.insert c a.name value, none)
        | .unbound b => (w, some (.raised (.notFound b.name)))
        | .leaf => (w, some (.raised .notContext)) := by
  induction path generalizing self fuel with
  | nil =>
      obtain ⟨fuel, rfl⟩ : ∃ k, fuel = k + 1 := ⟨fuel - 1, by omega⟩
      rw [List.nil_append, addFrom]
      simp only [split_pathname_one, ne_eq, not_true_eq_false, if_false, if_true, walk]
      rfl
  | cons b path ih =>
      obtain ⟨fuel, rfl⟩ : ∃ k, fuel = k + 1 := ⟨fuel - 1, by omega⟩
      have hnonempty : path ++ [a] ≠ [] := List.concat_ne_nil a path
      obtain ⟨d, rest, hrest⟩ := List.exists_cons_of_ne_nil hnonempty
      have hne : pathname (d :: rest) ≠ [] := pathname_ne_nil (by simp)
      have hlen := length_pathname b d rest
      rw [List.cons_append, hrest] at hfuel ⊢
      rw [addFrom, walk]
      simp only [split_pathname, ne_eq, hne, not_false_eq_true, if_true, if_false, bindings]
      -- as for `get`, but a component that is missing raises
      cases hv : w.find self b.name with
      | none => rfl
      | some v =>
          cases hc : isContext v.type_ with
          | false => simp [subContext, answers, hc]
          | true =>
              simp only [subContext, answers, hc, if_true]
              rw [← hrest, ih (closureOf v) fuel (by rw [hrest]; omega)]

/-- One binding more, in a context that there is. -/
theorem World.find_insert {c : Nat} (hc : (w.contexts c).isSome) {key : Name} {v : Any}
    (hfree : w.find c key = none) (c' : Nat) (key' : Name) :
    (w.insert c key v).find c' key' = if c' = c ∧ key' = key then some v else w.find c' key' := by
  obtain ⟨map, hmap⟩ := Option.isSome_iff_exists.mp hc
  have hnone : map.find key = none := by
    rw [find, hmap] at hfree
    exact hfree
  simp only [find, insert]
  by_cases hcc : c' = c
  · subst hcc
    rw [Function.update_self, hmap]
    simp only [Option.map_some, Option.bind_some, UnorderedMap.find_insert, hnone,
      Option.getD_none, true_and]
    by_cases hb : key = key'
    · rw [if_pos hb, if_pos hb.symm]
    · rw [if_neg hb, if_neg (Ne.symm hb)]
  · rw [Function.update_of_ne hcc, if_neg fun h => hcc h.1]

theorem World.bindings_insert {c : Nat} (hc : (w.contexts c).isSome) {a : Arc} {v : Any}
    (hfree : w.find c a.name = none) :
    (w.insert c a.name v).bindings = bindAt w.bindings c a v := by
  funext c' b
  rw [bindings, World.find_insert hc hfree, bindAt]
  by_cases hb : b = a
  · simp only [hb, and_true, bindings]
  · have hname : b.name ≠ a.name := fun h => hb (Arc.ext h)
    simp only [hb, hname, and_false, if_false, bindings]

theorem World.isSome_contexts_insert {c c' : Nat} {key : Name} {v : Any} :
    ((w.insert c key v).contexts c').isSome = (w.contexts c').isSome := by
  simp only [insert]
  by_cases hc : c' = c
  · rw [hc, Function.update_self, Option.isSome_map]
  · rw [Function.update_of_ne hc]

/-! ## §3. What holds after every sequence of calls. -/

/-- Values that are contexts are there, and the contexts are a forest. -/
structure Good (isContext : Code → Bool) (w : World) : Prop where
  typed : ∀ {c x : Nat} {a : Arc} {v : Any}, w.bindings c a = some v →
    subContext isContext v = some x → (w.contexts x).isSome
  forest : Forest (subContext isContext) w.bindings

theorem good_empty (isContext : Code → Bool) : Good isContext World.empty where
  typed h := by cases h
  forest :=
    { once := fun h => by cases h
      acyclic := by
        intro n path h
        cases path with
        | nil => rfl
        | cons a path => cases h }

/-- A walk from a context ends in a context. -/
theorem Good.isSome_of_walk (h : Good isContext w) {c x : Nat} {path : List Arc}
    (hc : (w.contexts c).isSome) (hwalk : walk (subContext isContext) w.bindings c path = .node x) :
    (w.contexts x).isSome := by
  induction path generalizing c with
  | nil =>
      cases hwalk
      exact hc
  | cons a path ih =>
      obtain ⟨v, m, hv, hm, hrest⟩ := walk_cons_eq_node hwalk
      exact ih (h.typed hv hm) hrest

/-- A value for `a` in the context that `path` leads to: when it is a context it is there, it
is not bound yet, and the place is not below it. -/
def Attachable (isContext : Code → Bool) (w : World) (c : Nat) (path : List Arc) (v : Any) : Prop :=
  ∀ x, subContext isContext v = some x →
    (w.contexts x).isSome ∧
    (∀ c' b u, w.bindings c' b = some u → subContext isContext u ≠ some x) ∧
    ∀ p, walk (subContext isContext) w.bindings c path = .node p →
      ¬ Leads (subContext isContext) w.bindings x p

/-- Calls of a tree of contexts: contexts are new, and what `add` binds keeps the tree. -/
def Legal (isContext : Code → Bool) (w : World) : Op → Prop
  | .createContext a => w.contexts a = none
  | .add self key value => (w.contexts self).isSome ∧
      ∃ path a, key = pathname (path ++ [a]) ∧
        ((w.add (answers isContext) self key value).2 = none → Attachable isContext w self path value)

/-- All calls are such. -/
def LegalRun (isContext : Code → Bool) : World → List Op → Prop
  | _, [] => True
  | w, op :: ops => Legal isContext w op ∧ LegalRun isContext (w.step (answers isContext) op) ops

theorem World.add_eq (self : Nat) (path : List Arc) (a : Arc) (value : Any) :
    w.add (answers isContext) self (pathname (path ++ [a])) value
      = match walk (subContext isContext) w.bindings self path with
        | .node c =>
            match w.find c a.name with
            | some _ => (w, some (.raised .exists_))
            | none => (w.insert c a.name value, none)
        | .unbound b => (w, some (.raised (.notFound b.name)))
        | .leaf => (w, some (.raised .notContext)) :=
  World.addFrom_eq self path a value _ (Nat.lt_succ_self _)

/-- One more binding that keeps the tree. -/
theorem Good.insert (h : Good isContext w) {self p : Nat} {path : List Arc} {a : Arc} {v : Any}
    (hself : (w.contexts self).isSome)
    (hwalk : walk (subContext isContext) w.bindings self path = .node p)
    (hfree : w.find p a.name = none) (hattach : Attachable isContext w self path v) :
    Good isContext (w.insert p a.name v) := by
  have hbind := World.bindings_insert (h.isSome_of_walk hself hwalk) (v := v) hfree
  constructor
  · intro c x b u hu hx
    rw [World.isSome_contexts_insert]
    rw [hbind] at hu
    by_cases hnew : c = p ∧ b = a
    · rw [hnew.1, hnew.2, bindAt_self] at hu
      cases hu
      exact (hattach x hx).1
    · rw [bindAt_of_ne hnew] at hu
      exact h.typed hu hx
  · rw [hbind]
    exact h.forest.bindAt fun m hm => ⟨(hattach m hm).2.1, (hattach m hm).2.2 p hwalk⟩

theorem Good.step (h : Good isContext w) {op : Op} (hop : Legal isContext w op) :
    Good isContext (w.step (answers isContext) op) := by
  cases op with
  | createContext a =>
      -- a new context has no bindings
      have hbind : (w.createContext a).bindings = w.bindings := by
        funext c b
        simp only [World.bindings, World.find, World.createContext]
        by_cases hc : c = a
        · rw [hc, Function.update_self, show w.contexts a = none from hop]
          rfl
        · rw [Function.update_of_ne hc]
      constructor
      · intro c x b v hv hx
        have hsome : (w.contexts x).isSome := h.typed (hbind ▸ hv) hx
        simp only [World.step, World.createContext]
        by_cases hxa : x = a
        · rw [hxa, Function.update_self]
          rfl
        · rw [Function.update_of_ne hxa]
          exact hsome
      · simp only [World.step]
        rw [hbind]
        exact h.forest
  | add self key v =>
      obtain ⟨hself, path, a, rfl, hattach⟩ := hop
      rw [World.step]
      rw [World.add_eq] at hattach ⊢
      -- only a binding of a free name in an existing context changes anything
      cases hwalk : walk (subContext isContext) w.bindings self path with
      | node p =>
          simp only [hwalk] at hattach ⊢
          cases hfree : w.find p a.name with
          | some u => exact h
          | none =>
              simp only [hfree] at hattach ⊢
              exact h.insert hself hwalk hfree (hattach trivial)
      | unbound b => exact h
      | leaf => exact h

/-- **After every sequence of calls** the contexts are a forest. -/
theorem good_run (h : Good isContext w) {ops : List Op} (hops : LegalRun isContext w ops) :
    Good isContext (w.run (answers isContext) ops) := by
  induction ops generalizing w with
  | nil => exact h
  | cons op ops ih => exact ih (h.step hops.1) hops.2

/-! ## §4. The map. -/

/-- What `get` of a path tells of the tree below `c`. -/
structure GetSpec (isContext : Code → Bool) (exceptions : Bool) (w : World) (c : Nat)
    (path : List Arc) : Prop where
  found : ∀ v, w.get (answers isContext) exceptions c (pathname path) = .ok (some v) ↔
    resolve (subContext isContext) w.bindings c path = some v
  absent : ∀ pre b post p, path = pre ++ b :: post →
    walk (subContext isContext) w.bindings c pre = .node p → w.bindings p b = none →
    w.get (answers isContext) exceptions c (pathname path) = .ok none
  returns : w.get (answers isContext) exceptions c (pathname path) ≠ .error .outOfFuel

/-- What `add` at `path` and then `a` does to the tree below `c`. -/
structure AddSpec (isContext : Code → Bool) (w : World) (c : Nat) (path : List Arc) (a : Arc)
    (v : Any) : Prop where
  succeeds : (w.add (answers isContext) c (pathname (path ++ [a])) v).2 = none ↔
    ∃ p, walk (subContext isContext) w.bindings c path = .node p ∧ w.find p a.name = none
  only : (w.add (answers isContext) c (pathname (path ++ [a])) v).2 = none →
    ∀ p, walk (subContext isContext) w.bindings c path = .node p → ∀ c' key,
      (w.add (answers isContext) c (pathname (path ++ [a])) v).1.find c' key
        = if c' = p ∧ key = a.name then some v else w.find c' key
  paths : (w.add (answers isContext) c (pathname (path ++ [a])) v).2 = none →
    Attachable isContext w c path v → ∀ q,
    resolve (subContext isContext) (w.add (answers isContext) c (pathname (path ++ [a])) v).1.bindings c q
      = if q = path ++ [a] then some v
        else if (path ++ [a]) <+: q then
          (subContext isContext v).bind fun x =>
            resolve (subContext isContext) w.bindings x (q.drop (path.length + 1))
        else resolve (subContext isContext) w.bindings c q
  raisesExists : (w.add (answers isContext) c (pathname (path ++ [a])) v).2 = some (.raised .exists_) ↔
    ∃ p u, walk (subContext isContext) w.bindings c path = .node p ∧ w.find p a.name = some u
  raisesNotContext :
    (w.add (answers isContext) c (pathname (path ++ [a])) v).2 = some (.raised .notContext) ↔
      walk (subContext isContext) w.bindings c path = .leaf
  raisesNotFound : ∀ name,
    (w.add (answers isContext) c (pathname (path ++ [a])) v).2 = some (.raised (.notFound name)) ↔
      ∃ b, walk (subContext isContext) w.bindings c path = .unbound b ∧ b.name = name
  unchanged : (w.add (answers isContext) c (pathname (path ++ [a])) v).2 ≠ none →
    (w.add (answers isContext) c (pathname (path ++ [a])) v).1 = w
  returns : (w.add (answers isContext) c (pathname (path ++ [a])) v).2 ≠ some .outOfFuel

theorem World.get_eq (self : Nat) (path : List Arc) (a : Arc) :
    w.get (answers isContext) exceptions self (pathname (path ++ [a]))
      = match walk (subContext isContext) w.bindings self path with
        | .node c => .ok (w.find c a.name)
        | .unbound _ => .ok none
        | .leaf => if exceptions then .error (.raised .notContext) else .ok none :=
  World.getFrom_eq self path a _ (Nat.lt_succ_self _)

/-- A walk over a name that is not bound ends there. -/
theorem walk_unbound {c p : Nat} {pre post : List Arc} {b : Arc}
    (hwalk : walk (subContext isContext) w.bindings c pre = .node p)
    (hb : w.bindings p b = none) :
    walk (subContext isContext) w.bindings c (pre ++ b :: post) = .unbound b := by
  rw [walk_append hwalk, walk, hb]

theorem getSpec (isContext : Code → Bool) (exceptions : Bool) (w : World) (c : Nat)
    (path : List Arc) (a : Arc) : GetSpec isContext exceptions w c (path ++ [a]) := by
  refine ⟨fun v => ?_, fun pre b post p hpath hwalk hb => ?_, ?_⟩
  · rw [World.get_eq, resolve_append]
    cases walk (subContext isContext) w.bindings c path with
    | node p => simp [World.bindings]
    | unbound b => simp
    | leaf => cases exceptions <;> simp
  · rw [World.get_eq]
    rcases List.eq_nil_or_concat post with rfl | ⟨post', d, rfl⟩
    · obtain ⟨rfl, rfl⟩ := List.append_inj' hpath rfl |>.imp_right List.singleton_inj.mp
      rw [hwalk]
      exact congrArg Except.ok hb
    · rw [List.concat_eq_append, ← List.cons_append, ← List.append_assoc] at hpath
      obtain ⟨rfl, -⟩ := List.append_inj' hpath rfl
      rw [walk_unbound hwalk hb]
  · rw [World.get_eq]
    cases walk (subContext isContext) w.bindings c path with
    | node p => simp
    | unbound b => simp
    | leaf => cases exceptions <;> simp

theorem addSpec (h : Good isContext w) {c : Nat} (hc : (w.contexts c).isSome) (path : List Arc)
    (a : Arc) (v : Any) : AddSpec isContext w c path a v := by
  have hadd : w.add (answers isContext) c (pathname (path ++ [a])) v = _ := World.add_eq c path a v
  cases hwalk : walk (subContext isContext) w.bindings c path with
  | unbound b =>
      simp only [hwalk] at hadd
      constructor <;> rw [hadd] <;> simp [hwalk]
  | leaf =>
      simp only [hwalk] at hadd
      constructor <;> rw [hadd] <;> simp [hwalk]
  | node p =>
      simp only [hwalk] at hadd
      cases hfind : w.find p a.name with
      | some u =>
          simp only [hfind] at hadd
          constructor <;> rw [hadd] <;> simp [hwalk, hfind]
      | none =>
          simp only [hfind] at hadd
          have hp := h.isSome_of_walk hc hwalk
          constructor
          case only =>
            -- what was bound stays bound, in every context
            intro _ p' hp' c' key
            rw [hwalk] at hp'
            cases hp'
            rw [hadd]
            exact World.find_insert hp hfind c' key
          case paths =>
            -- a path to the new binding goes through it, any other resolves as before
            intro _ hattach q
            rw [hadd, World.bindings_insert hp hfind]
            exact h.forest.resolve_bindAt hwalk (fun m hm => (hattach m hm).2.2 p hwalk) q
          all_goals rw [hadd]; simp [hwalk, hfind]

/-- **Naming contexts are a hierarchical map**: after every sequence of calls that build a
tree, `get` of a path gives what is bound there, and `add` binds the path and nothing else, or
raises and changes nothing. -/
theorem naming_contexts (isContext : Code → Bool) (ops : List Op)
    (hops : LegalRun isContext World.empty ops) (c : Nat)
    (hc : ((World.empty.run (answers isContext) ops).contexts c).isSome) (path : List Arc) (a : Arc) :
    (∀ exceptions, GetSpec isContext exceptions (World.empty.run (answers isContext) ops) c (path ++ [a])) ∧
    ∀ v, AddSpec isContext (World.empty.run (answers isContext) ops) c path a v :=
  ⟨fun exceptions => getSpec isContext exceptions _ c path a,
    fun v => addSpec (good_run (good_empty isContext) hops) hc path a v⟩

/-- The arc-name "a". -/
def arcA : Arc := ⟨[97], by decide, by decide⟩

/-- The arc-name "b". -/
def arcB : Arc := ⟨[98], by decide, by decide⟩

/-- A context at `0x2000` is bound to "a" in the one at `0x1000`, and the number 7 to "a.b". -/
def sampleOps : List Op :=
  [.createContext 0x1000, .createContext 0x2000, .add 0x1000 (pathname [arcA]) ⟨1, 0x2000⟩,
    .add 0x1000 (pathname [arcA, arcB]) ⟨0, 7⟩]

/-- The calls build a tree. -/
theorem legalRun_sampleOps : LegalRun (· == 1) World.empty sampleOps := by
  refine ⟨rfl, rfl, ⟨rfl, [], arcA, rfl, fun _ => ?_⟩, ⟨rfl, [arcA], arcB, rfl, fun _ => ?_⟩,
    trivial⟩
  · intro x hx
    cases hx
    have hnone : ∀ c b, ((World.empty.step (answers (· == 1)) (.createContext 0x1000)).step
        (answers (· == 1)) (.createContext 0x2000)).bindings c b = none := by
      intro c b
      simp only [World.bindings, World.find, World.step, World.createContext, World.empty,
        Function.update_apply]
      split
      · rfl
      · split <;> rfl
    refine ⟨rfl, fun c' b u hu => ?_, fun p hp => ?_⟩
    · rw [hnone] at hu
      cases hu
    · cases hp
      rintro ⟨path, hpath⟩
      cases path with
      | nil => cases hpath
      | cons b path =>
          rw [walk, hnone] at hpath
          cases hpath
  · intro x hx
    cases hx

/-- What is bound to "a.b" is found. -/
theorem naming_contexts_two_levels :
    (World.empty.run (answers (· == 1)) sampleOps).get (answers (· == 1)) true 0x1000
        (pathname [arcA, arcB]) = .ok (some ⟨0, 7⟩) ∧
    GetSpec (· == 1) true (World.empty.run (answers (· == 1)) sampleOps) 0x1000 [arcA, arcB] :=
  ⟨by decide +kernel, (naming_contexts (· == 1) sampleOps legalRun_sampleOps 0x1000
    (by decide +kernel) [arcA] arcB).1 true⟩

end Metta.ContextMod
