/-
  Metta.Tables.Maps — the tables against the maps that their interfaces
  describe.

  By `stretch_table_v1.if` and `map_card64_address_v1.if`, `put` sets the value
  of the key and tells whether the key was there.  The tables keep the value
  that was there first and tell the opposite.

    • `mapStep` — the map that is described,
    • `keepStep` — the map that the tables are, `tables_keep_first`,
    • `answers_eq_iff` — the answers agree when nothing is put,
    • `table_modules_iff` — so it is for both tables, and for `null_bind`.
-/
import Metta.Tables.Def

namespace Metta.Tables

open Metta.Machine

universe u v

/-! ## §1. Calls. -/

/-- A call of a table. -/
inductive Call (K : Type u) (V : Type v) where
  | get (k : K) (out : V)
  | put (k : K) (v : V)
  | remove (k : K) (out : V)

/-- A call of a table that has `size`. -/
inductive SizedCall (K : Type u) (V : Type v) where
  | call (c : Call K V)
  | size

/-- What is returned: a truth value and the out parameter, a truth value, or a number. -/
inductive Answer (V : Type v) where
  | found (b : Bool) (out : V)
  | told (b : Bool)
  | count (n : Nat)
  deriving DecidableEq

/-- The call is a `put`. -/
def Call.IsPut {K : Type u} {V : Type v} : Call K V → Prop
  | put _ _ => True
  | _ => False

/-- The call is a `put`. -/
def SizedCall.IsPut {K : Type u} {V : Type v} : SizedCall K V → Prop
  | call c => c.IsPut
  | size => False

/-- The answers to calls, one after the other. -/
def answers {σ : Type*} {γ : Type*} {α : Type*} (step : σ → γ → σ × α) : σ → List γ → List α
  | _, [] => []
  | s, c :: cs => (step s c).2 :: answers step (step s c).1 cs

/-! ## §2. The tables. -/

section

variable {K : Type u} {V : Type v} [DecidableEq K]

/-- A call of a table. -/
def tableStep (t : UnorderedMap K V) : Call K V → UnorderedMap K V × Answer V
  | .get k out => (t, .found (tableGet t k out).1 (tableGet t k out).2)
  | .put k v => ((tablePut t k v).1, .told (tablePut t k v).2)
  | .remove k out => ((tableRemove t k out).1,
      .found (tableRemove t k out).2.1 (tableRemove t k out).2.2)

end

/-- A call of the stretch table. -/
def StretchTable.step (t : StretchTable) : Call Nat DriverRec → StretchTable × Answer DriverRec
  | .get k out => (t, .found (StretchTable.get t k out).1 (StretchTable.get t k out).2)
  | .put k v => ((StretchTable.put t k v.pageWidth v.driver).1,
      .told (StretchTable.put t k v.pageWidth v.driver).2)
  | .remove k out => ((StretchTable.remove t k out).1,
      .found (StretchTable.remove t k out).2.1 (StretchTable.remove t k out).2.2)

/-- A call of the card64 table. -/
def Card64Table.step (t : Card64Table) : SizedCall (BitVec 64) Nat → Card64Table × Answer Nat
  | .call (.get k out) => (t, .found (Card64Table.get t k out).1 (Card64Table.get t k out).2)
  | .call (.put k v) => ((Card64Table.put t k v).1, .told (Card64Table.put t k v).2)
  | .call (.remove k out) => ((Card64Table.remove t k out).1,
      .found (Card64Table.remove t k out).2.1 (Card64Table.remove t k out).2.2)
  | .size => (t, .count (Card64Table.size t))

theorem StretchTable.step_eq (t : StretchTable) (c : Call Nat DriverRec) :
    StretchTable.step t c = tableStep t c := by
  cases c <;> rfl

theorem Card64Table.step_call (t : Card64Table) (c : Call (BitVec 64) Nat) :
    Card64Table.step t (.call c) = tableStep t c := by
  cases c <;> rfl

/-! ## §3. Maps. -/

section

variable {K : Type u} {V : Type v} [DecidableEq K]

/-- A call of a map whose `put` makes of the map and answers what `put` says. -/
def partialStep (put : (K → Option V) → K → V → (K → Option V) × Bool) (f : K → Option V) :
    Call K V → (K → Option V) × Answer V
  | .get k out => (f, .found (f k).isSome ((f k).getD out))
  | .put k v => ((put f k v).1, .told (put f k v).2)
  | .remove k out => (Function.update f k none, .found (f k).isSome ((f k).getD out))

/-- The map that the interfaces describe: `put` sets the value and tells whether the key
was there. -/
def mapStep : (K → Option V) → Call K V → (K → Option V) × Answer V :=
  partialStep fun f k v => (Function.update f k (some v), (f k).isSome)

/-- The map that the tables are: `put` keeps the value that is there and tells whether the
key was not. -/
def keepStep : (K → Option V) → Call K V → (K → Option V) × Answer V :=
  partialStep fun f k v => (Function.update f k (some ((f k).getD v)), (f k).isNone)

/-- A map with `size`, which is the number of keys that have a value. -/
noncomputable def sized (step : (K → Option V) → Call K V → (K → Option V) × Answer V)
    (f : K → Option V) : SizedCall K V → (K → Option V) × Answer V
  | .call c => step f c
  | .size => (f, .count {k | f k ≠ none}.ncard)

/-- The map with no values. -/
def noValues : K → Option V := fun _ => none

/-! ## §4. What the tables are. -/

/-- What a table does at a call is what the map that keeps values does. -/
theorem keepStep_find (t : UnorderedMap K V) (c : Call K V) :
    keepStep t.find c = ((tableStep t c).1.find, (tableStep t c).2) := by
  cases c with
  | get k out =>
      rw [keepStep, partialStep, tableStep, tableGet]
      cases t.find k <;> rfl
  -- an insertion keeps the value that is there
  | put k v =>
      rw [keepStep, partialStep, tableStep, tablePut, UnorderedMap.insert_snd]
      refine Prod.ext (funext fun k' => ?_) rfl
      simp only
      rw [UnorderedMap.find_insert]
      by_cases hk : k = k'
      · subst hk
        rw [if_pos rfl]
        exact Function.update_self ..
      · rw [if_neg hk]
        exact Function.update_of_ne (Ne.symm hk) ..
  | remove k out =>
      rw [keepStep, partialStep, tableStep, tableRemove]
      cases h : t.find k with
      | none =>
          refine Prod.ext (funext fun k' => ?_) rfl
          by_cases hk : k' = k
          · rw [hk]
            simp [h]
          · simp [hk]
      | some v =>
          refine Prod.ext (funext fun k' => ?_) rfl
          simp only
          rw [UnorderedMap.find_erase]
          by_cases hk : k' = k
          · simp [hk]
          · simp [hk, Ne.symm hk]

/-- **The tables keep what was put first**, over every sequence of calls. -/
theorem tables_keep_first (t : UnorderedMap K V) (cs : List (Call K V)) :
    answers tableStep t cs = answers keepStep t.find cs := by
  induction cs generalizing t with
  | nil => rfl
  | cons c cs ih => rw [answers, answers, keepStep_find, ih]

/-! ## §5. When the answers agree. -/

omit [DecidableEq K] in
/-- Two machines that stay where they are and answer the same, except at some calls, answer
the same exactly when there is no such call. -/
theorem answers_eq_iff {γ α σ τ : Type*} {isPut : γ → Prop} {code : σ → γ → σ × α}
    {map : τ → γ → τ × α} {s : σ} {t : τ}
    (hsame : ∀ c, ¬ isPut c → (code s c).1 = s ∧ (map t c).1 = t ∧ (code s c).2 = (map t c).2)
    (hput : ∀ c, isPut c → (code s c).2 ≠ (map t c).2) (cs : List γ) :
    answers code s cs = answers map t cs ↔ ∀ c ∈ cs, ¬ isPut c := by
  induction cs with
  | nil => simp [answers]
  | cons c cs ih =>
      rw [answers, answers, List.cons.injEq, List.forall_mem_cons]
      by_cases h : isPut c
      · exact ⟨fun heq => absurd heq.1 (hput c h), fun hno => absurd h hno.1⟩
      · obtain ⟨h1, h2, h3⟩ := hsame c h
        rw [h1, h2, h3, ih]
        simp [h]

/-- Where nothing is put, an empty table and an empty map stay so and answer the same. -/
theorem tableStep_empty {c : Call K V} (h : ¬ c.IsPut) :
    (tableStep (.empty : UnorderedMap K V) c).1 = .empty ∧
    (mapStep (noValues : K → Option V) c).1 = noValues ∧
    (tableStep (.empty : UnorderedMap K V) c).2 = (mapStep (noValues : K → Option V) c).2 := by
  cases c with
  | get k out => exact ⟨rfl, rfl, rfl⟩
  | put k v => exact absurd trivial h
  | remove k out =>
      refine ⟨rfl, funext fun k' => ?_, rfl⟩
      by_cases hk : k' = k <;> simp [mapStep, partialStep, noValues, hk]

/-- A `put` into an empty table is answered in another way than by the map. -/
theorem tableStep_put {c : Call K V} (h : c.IsPut) :
    (tableStep (.empty : UnorderedMap K V) c).2 ≠ (mapStep (noValues : K → Option V) c).2 := by
  cases c with
  | put k v => simp [tableStep, tablePut, mapStep, partialStep, noValues]
  | get k out => exact absurd h not_false
  | remove k out => exact absurd h not_false

end

/-- **The tables are the maps of their interfaces exactly on sequences without `put`**, and
`null_bind` reports confusion exactly when the stretch is not bound. -/
theorem table_modules_iff (cs : List (Call Nat DriverRec))
    (ds : List (SizedCall (BitVec 64) Nat)) (table : StretchTable)
    (self stretch size width : Nat) :
    (answers StretchTable.step .empty cs = answers mapStep noValues cs ↔ ∀ c ∈ cs, ¬ c.IsPut) ∧
    (answers Card64Table.step .empty ds = answers (sized mapStep) noValues ds
        ↔ ∀ c ∈ ds, ¬ c.IsPut) ∧
    ((nullBind table self stretch size width).confusion = true ↔ table.find stretch = none) := by
  refine ⟨?_, ?_, ?_⟩
  · simp only [funext₂ StretchTable.step_eq]
    exact answers_eq_iff (fun c => tableStep_empty) (fun c => tableStep_put) cs
  · refine answers_eq_iff (fun c h => ?_) (fun c h => ?_) ds
    · cases c with
      | call c =>
          rw [Card64Table.step_call]
          exact tableStep_empty h
      | size =>
          refine ⟨rfl, rfl, ?_⟩
          simp [Card64Table.step, Card64Table.size, tableSize, sized, noValues]
    · cases c with
      | call c =>
          rw [Card64Table.step_call]
          exact tableStep_put h
      | size => exact absurd h not_false
  · simp [nullBind, StretchTable.put, tablePut]

/-- **The first `put`** of a key is answered with true, and then a second one is not seen. -/
theorem put_keeps_old_value :
    answers Card64Table.step .empty
        [.call (.put 1 10), .call (.put 1 20), .call (.get 1 0)]
      = [.told true, .told false, .found true 10] ∧
    answers (sized mapStep) noValues [.call (.put (1 : BitVec 64) 10), .call (.put 1 20),
        .call (.get 1 0)]
      = [.told false, .told true, .found true 20] ∧
    (nullBind .empty 0x1000 0x2000 4096 12).confusion = true := by
  refine ⟨by decide +kernel, ?_, by decide +kernel⟩
  simp [answers, sized, mapStep, partialStep, noValues]

end Metta.Tables
