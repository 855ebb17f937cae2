/-
  Metta.TypesystemMod.Subtypes — `is_type` is reachability.

  `is_type` follows the supertypes of the first interface until it comes to the
  second one or to an interface without a supertype.  When every supertype is
  registered and no interface is above itself:

    • `Super`, `WellLinked` — the links from an interface to its supertype,
    • `isType_cases` — `is_type` says whether the second code is reached,
    • `subtyping_is_reachability` — so it is an order, and `narrow` follows it.
-/
import Metta.Machine.Chase
import Metta.TypesystemMod.Queries

namespace Metta.TypesystemMod

open Metta.Machine TypeSystem

namespace TypeSystem

variable {im : Image} {ts : TypeSystem} {a b c : Code}

/-! ## §1. Links to supertypes. -/

/-- `b` is the supertype of the interface with the code `a`. -/
def Super (im : Image) (ts : TypeSystem) (a b : Code) : Prop :=
  b ≠ 0 ∧ ∃ i, ts.byTypecode a = some i ∧ (im.interface i).supertype = b

/-- Every supertype is registered, and no interface is above itself. -/
structure WellLinked (im : Image) (ts : TypeSystem) : Prop where
  registered : ∀ a b, Super im ts a b → ∃ i, ts.byTypecode b = some i
  acyclic : ∀ a, ¬ Relation.TransGen (Super im ts) a a

/-- The code of an interface that is registered. -/
def IsInterface (ts : TypeSystem) (c : Code) : Prop :=
  tcodeIsInterface c = true ∧ ∃ i, ts.byTypecode c = some i

/-- Zero or more links to supertypes. -/
def Below (im : Image) (ts : TypeSystem) : Code → Code → Prop :=
  Relation.ReflTransGen (Super im ts)

/-- Interfaces are found under the codes that they have. -/
def Keyed (im : Image) (ts : TypeSystem) : Prop :=
  ∀ c i, ts.byTypecode c = some i → im.codeOf i = c

theorem keyed_registerAll (im : Image) (intfs : List Nat) : Keyed im (registerAll im intfs).1 :=
  fun c i h => (((inStep_registerAll im intfs).byTypecode c i).mp h).2

theorem WellLinked.registered_below (h : WellLinked im ts) (hab : Below im ts a b) {i : Nat}
    (ha : ts.byTypecode a = some i) : ∃ j, ts.byTypecode b = some j := by
  rcases Relation.ReflTransGen.cases_tail hab with rfl | ⟨c, -, hcb⟩
  · exact ⟨i, ha⟩
  · exact h.registered c b hcb

theorem WellLinked.antisymm (h : WellLinked im ts) (hab : Below im ts a b)
    (hba : Below im ts b a) : a = b := by
  rcases Relation.reflTransGen_iff_eq_or_transGen.mp hab with rfl | hlt
  · rfl
  · exact absurd (hlt.trans_left hba) (h.acyclic a)

/-- Links to supertypes cannot be followed for ever: only what is registered has one. -/
theorem acc_super {intfs : List Nat} (h : WellLinked im (registerAll im intfs).1) (a : Code) :
    Acc (fun b a => Super im (registerAll im intfs).1 a b) a := by
  refine Chase.acc_of_acyclic ((registerAll im intfs).2.map im.codeOf) ?_ h.acyclic a
  rintro a b ⟨-, i, hi, -⟩
  obtain ⟨hmem, hcode⟩ := ((inStep_registerAll im intfs).byTypecode a i).mp hi
  exact List.mem_map.mpr ⟨i, hmem, hcode⟩

/-! ## §2. The loop. -/

/-- A turn of the loop of `is_type`, at the interface with the code `c`. -/
def superTurn (im : Image) (ts : TypeSystem) (super : Code) (c : Code) :
    Except Halt Bool ⊕ Code :=
  match ts.byTypecode c with
  | none => .inl (raise (.badCode c))
  | some i =>
      if im.codeOf i ≠ super then
        if (im.interface i).supertype = 0 then .inl (.ok false)
        else .inr (im.interface i).supertype
      else .inl (.ok true)

/-- What a turn does at an interface that is registered. -/
theorem superTurn_cases (hkeyed : Keyed im ts) (super : Code) {i : Nat}
    (hc : ts.byTypecode c = some i) :
    (c = super ∧ superTurn im ts super c = .inl (.ok true)) ∨
    (c ≠ super ∧ (∀ d, ¬ Super im ts c d) ∧ superTurn im ts super c = .inl (.ok false)) ∨
    (c ≠ super ∧ ∃ d, Super im ts c d ∧ superTurn im ts super c = .inr d) := by
  have hcode := hkeyed c i hc
  rw [superTurn, hc]
  by_cases heq : c = super
  · exact .inl ⟨heq, by simp [hcode, heq]⟩
  · refine .inr ?_
    by_cases hzero : (im.interface i).supertype = 0
    · refine .inl ⟨heq, fun d ⟨hd, j, hj, hsuper⟩ => hd ?_, by simp [hcode, heq, hzero]⟩
      rw [hc, Option.some.injEq] at hj
      rw [← hsuper, ← hj, hzero]
    · refine .inr ⟨heq, _, ⟨hzero, i, hc, rfl⟩, ?_⟩
      simp only [hcode, ne_eq, heq, not_false_eq_true, if_true, if_neg hzero]

/-- A link of the loop is one to a supertype. -/
theorem super_of_link (hkeyed : Keyed im ts) {super : Code}
    (h : Chase.Link (superTurn im ts super) a b) : Super im ts a b := by
  rw [Chase.Link] at h
  cases ha : ts.byTypecode a with
  | none =>
      rw [superTurn, ha] at h
      cases h
  | some i =>
      rcases superTurn_cases hkeyed super ha with ⟨-, hturn⟩ | ⟨-, -, hturn⟩ | ⟨-, d, hd, hturn⟩
      · rw [hturn] at h
        cases h
      · rw [hturn] at h
        cases h
      · rw [hturn, Sum.inr.injEq] at h
        exact h ▸ hd

/-- The loop follows the links up to the code it looks for. -/
theorem reaches_of_below (hkeyed : Keyed im ts) (h : Below im ts a b) :
    Chase.Reaches (superTurn im ts b) a b := by
  induction h using Relation.ReflTransGen.head_induction_on with
  | refl => exact .refl
  | @head a c hac hcb ih =>
      by_cases heq : a = b
      · rw [heq]
        exact .refl
      · obtain ⟨-, i, hi, -⟩ := id hac
        refine .head ?_ ih
        rcases superTurn_cases hkeyed b hi with ⟨hab, -⟩ | ⟨-, hno, -⟩ | ⟨-, d, hd, hturn⟩
        · exact absurd hab heq
        · exact absurd hac (hno c)
        · obtain ⟨-, j, hj, hc⟩ := hac
          obtain ⟨-, k, hk, hd'⟩ := hd
          rw [hj, Option.some.injEq] at hk
          rw [Chase.Link, hturn, ← hc, ← hd', hk]

/-- The loop of `is_type` follows links, when every supertype is registered. -/
theorem isTypeLoop_eq (h : WellLinked im ts) (super : Code) (fuel : Nat) {i : Nat}
    (hc : ts.byTypecode c = some i) (hkeyed : Keyed im ts) :
    isTypeLoop im ts super fuel (im.interface i)
      = (Chase.run (superTurn im ts super) fuel c).getD (.error .outOfFuel) := by
  induction fuel generalizing c i with
  | zero => rfl
  | succ fuel ih =>
      have hcode : (im.interface i).rep.code.value = c := hkeyed c i hc
      rcases superTurn_cases hkeyed super hc with
        ⟨heq, hturn⟩ | ⟨hne, hno, hturn⟩ | ⟨hne, d, hd, hturn⟩
      · rw [Chase.run_of_result hturn, isTypeLoop, if_neg (by simp [hcode, heq])]
        rfl
      · have hzero : (im.interface i).supertype = 0 := by
          by_contra hzero
          exact hno _ ⟨hzero, i, hc, rfl⟩
        rw [Chase.run_of_result hturn, isTypeLoop, if_pos (by rwa [hcode]), if_pos hzero]
        rfl
      · obtain ⟨j, hj⟩ := h.registered c d hd
        obtain ⟨hzero, k, hk, hsuper⟩ := hd
        rw [hc, Option.some.injEq] at hk
        subst hk
        rw [Chase.run_of_link hturn, ← ih hj, isTypeLoop, if_pos (by rwa [hcode]), hsuper,
          if_neg hzero, hj]

/-! ## §3. `is_type`. -/

/-- `is_type` returns true. -/
def IsType (im : Image) (ts : TypeSystem) (a b : Code) : Prop :=
  Settles (fun fuel => isType im ts fuel a b) (.ok true)

/-- For two interfaces, `is_type` is the test for equality and the loop. -/
theorem isType_eq (ha : IsInterface ts a) (hb : IsInterface ts b) (hne : a ≠ b) {i : Nat}
    (hi : ts.byTypecode a = some i) (fuel : Nat) :
    isType im ts fuel a b = isTypeLoop im ts b fuel (im.interface i) := by
  obtain ⟨j, hj⟩ := hb.2
  simp only [isType, tcodeIntfCode_of_isInterface hb.1, hj, if_neg hne,
    tcodeIntfCode_of_isInterface ha.1, hi, ha.1, if_true]

/-- **`is_type` ends, and says whether the second code is reached.** -/
theorem isType_cases (h : WellLinked im ts) (hkeyed : Keyed im ts)
    (hacc : Acc (fun b a => Super im ts a b) a) (ha : IsInterface ts a) (hb : IsInterface ts b) :
    (IsType im ts a b ∧ Below im ts a b) ∨
    (Settles (fun fuel => isType im ts fuel a b) (.ok false) ∧ ¬ Below im ts a b) := by
  obtain ⟨i, hi⟩ := ha.2
  obtain ⟨j, hj⟩ := hb.2
  -- an interface is below itself, and the loop is not entered
  by_cases heq : a = b
  · subst heq
    refine .inl ⟨.of_eq fun fuel => ?_, .refl⟩
    simp only [isType, tcodeIntfCode_of_isInterface ha.1, hi, if_true]
  have hloop : (fun fuel => isType im ts fuel a b)
      = fun fuel => (Chase.run (superTurn im ts b) fuel a).getD (.error .outOfFuel) := by
    funext fuel
    rw [isType_eq ha hb heq hi, isTypeLoop_eq h b fuel hi hkeyed]
  rw [IsType, hloop]
  -- below: the chain of extensions comes to `b`, where the loop answers true
  by_cases hbelow : Below im ts a b
  · have hfound : superTurn im ts b b = .inl (.ok true) := by
      rcases superTurn_cases hkeyed b hj with ⟨-, hturn⟩ | ⟨hne, -, -⟩ | ⟨hne, -⟩
      · exact hturn
      · exact absurd rfl hne
      · exact absurd rfl hne
    have hsettles := Chase.settles_run (reaches_of_below hkeyed hbelow) hfound
    exact .inl ⟨hsettles.map fun r => r.getD (.error .outOfFuel), hbelow⟩
  · -- the chain ends, and not at `b`
    have hlink : Acc (fun d c => Chase.Link (superTurn im ts b) c d) a :=
      Subrelation.accessible (super_of_link hkeyed) hacc
    obtain ⟨z, r, hz, hr⟩ := Chase.ends_iff_acc.mpr hlink
    have haz : Below im ts a z := hz.lift id fun _ _ => super_of_link hkeyed
    obtain ⟨k, hk⟩ := h.registered_below haz hi
    rcases superTurn_cases hkeyed b hk with ⟨rfl, -⟩ | ⟨-, -, hturn⟩ | ⟨-, d, -, hturn⟩
    · exact absurd haz hbelow
    · have hsettles := Chase.settles_run hz hturn
      exact .inr ⟨hsettles.map fun r => r.getD (.error .outOfFuel), hbelow⟩
    · rw [hr] at hturn
      cases hturn

/-- `narrow` raises what `is_type` says no to. -/
theorem narrow_settles {r : Bool} (v : BitVec 64)
    (h : Settles (fun fuel => isType im ts fuel a b) (.ok r)) :
    Settles (fun fuel => narrow im ts fuel ⟨a, v⟩ b)
      (if r then .ok v else raise .incompatible) := by
  have hbind := h.map fun x => x.bind fun r => if !r then raise .incompatible else .ok v
  cases r with
  | true => exact hbind
  | false => exact hbind

/-! ## §4. The order. -/

/-- Subtyping is reachability along supertypes. -/
structure Subtyping (im : Image) (ts : TypeSystem) : Prop where
  terminates : ∀ a b, IsInterface ts a → IsInterface ts b →
    ∃ r, Settles (fun fuel => isType im ts fuel a b) (.ok r)
  isType_iff : ∀ a b, IsInterface ts a → IsInterface ts b → (IsType im ts a b ↔ Below im ts a b)
  refl : ∀ a, IsInterface ts a → IsType im ts a a
  trans : ∀ a b c, IsInterface ts a → IsInterface ts b → IsInterface ts c →
    IsType im ts a b → IsType im ts b c → IsType im ts a c
  antisymm : ∀ a b, IsInterface ts a → IsInterface ts b →
    IsType im ts a b → IsType im ts b a → a = b
  narrow_iff : ∀ a b v, IsInterface ts a → IsInterface ts b →
    (Settles (fun fuel => narrow im ts fuel ⟨a, v⟩ b) (.ok v) ↔ IsType im ts a b)
  narrow_raises : ∀ a b v, IsInterface ts a → IsInterface ts b → ¬ IsType im ts a b →
    Settles (fun fuel => narrow im ts fuel ⟨a, v⟩ b) (raise .incompatible)

/-- **Subtyping is reachability**, whatever interfaces are registered. -/
theorem subtyping_is_reachability (im : Image) (intfs : List Nat)
    (h : WellLinked im (registerAll im intfs).1) : Subtyping im (registerAll im intfs).1 := by
  have hcases : ∀ a b, IsInterface (registerAll im intfs).1 a →
      IsInterface (registerAll im intfs).1 b → _ := fun a b =>
    isType_cases h (keyed_registerAll im intfs) (acc_super h a)
  generalize (registerAll im intfs).1 = ts at h hcases
  have hiff : ∀ a b, IsInterface ts a → IsInterface ts b →
      (IsType im ts a b ↔ Below im ts a b) := by
    intro a b ha hb
    rcases hcases a b ha hb with ⟨htrue, hbelow⟩ | ⟨hfalse, hnot⟩
    · exact iff_of_true htrue hbelow
    · refine iff_of_false (fun htrue => ?_) hnot
      cases htrue.unique hfalse
  have hnarrow : ∀ a b v, IsInterface ts a → IsInterface ts b → ¬ IsType im ts a b →
      Settles (fun fuel => narrow im ts fuel ⟨a, v⟩ b) (raise .incompatible) := by
    intro a b v ha hb hnot
    rcases hcases a b ha hb with ⟨htrue, -⟩ | ⟨hfalse, -⟩
    · exact absurd htrue hnot
    · exact narrow_settles v hfalse
  constructor
  case terminates =>
    intro a b ha hb
    rcases hcases a b ha hb with ⟨htrue, -⟩ | ⟨hfalse, -⟩
    · exact ⟨true, htrue⟩
    · exact ⟨false, hfalse⟩
  case isType_iff => exact hiff
  case refl => exact fun a ha => (hiff a a ha ha).mpr .refl
  case trans =>
    intro a b c ha hb hc hab hbc
    exact (hiff a c ha hc).mpr (((hiff a b ha hb).mp hab).trans ((hiff b c hb hc).mp hbc))
  case antisymm =>
    intro a b ha hb hab hba
    exact h.antisymm ((hiff a b ha hb).mp hab) ((hiff b a hb ha).mp hba)
  case narrow_iff =>
    intro a b v ha hb
    refine ⟨fun hok => ?_, narrow_settles v⟩
    by_contra hnot
    cases hok.unique (hnarrow a b v ha hb hnot)
  case narrow_raises => exact hnarrow

theorem m_ne_nul : (109 : UInt8) ≠ 0 := by decide

/-- A `circle` is a `shape`, which is a `thing`. -/
def chainImage : Image where
  interface i :=
    let rep (name : Nat) (code : Code) : TypeRepresentation := ⟨⟨0, 0⟩, ⟨0, code⟩, name, 0, 4⟩
    if i = 0x1000 then ⟨rep 0x100 0x10000, [], 0x20000⟩
    else if i = 0x2000 then ⟨rep 0x200 0x20000, [], 0x30000⟩
    else if i = 0x3000 then ⟨rep 0x300 0x30000, [], 0⟩
    else ⟨rep 0x10 0, [], 0⟩
  text _ := letter 109 m_ne_nul
  metaInterface := 0
  metaInterfaceClosure := 0
  aliasTypeCode := 0

theorem super_chainImage {a b : Code}
    (h : Super chainImage (registerAll chainImage [0x3000, 0x2000, 0x1000]).1 a b) :
    (a = 0x10000 ∧ b = 0x20000) ∨ (a = 0x20000 ∧ b = 0x30000) := by
  obtain ⟨hb, i, hi, rfl⟩ := h
  obtain ⟨hmem, rfl⟩ := ((inStep_registerAll chainImage _).byTypecode a i).mp hi
  have hin := mem_registerAll hmem
  simp only [List.mem_cons, List.not_mem_nil, or_false] at hin
  rcases hin with rfl | rfl | rfl | rfl
  · exact absurd rfl hb
  · exact absurd rfl hb
  · exact .inr ⟨rfl, rfl⟩
  · exact .inl ⟨rfl, rfl⟩

theorem wellLinked_chainImage :
    WellLinked chainImage (registerAll chainImage [0x3000, 0x2000, 0x1000]).1 where
  registered a b h := by
    rcases super_chainImage h with ⟨-, rfl⟩ | ⟨-, rfl⟩
    · exact ⟨0x2000, by decide +kernel⟩
    · exact ⟨0x3000, by decide +kernel⟩
  acyclic a h := by
    have hlt : ∀ b, Relation.TransGen
        (Super chainImage (registerAll chainImage [0x3000, 0x2000, 0x1000]).1) a b →
        a.toNat < b.toNat := by
      intro b hab
      induction hab with
      | single hab =>
          rcases super_chainImage hab with ⟨rfl, rfl⟩ | ⟨rfl, rfl⟩
          · decide
          · decide
      | tail _ hbc ih =>
          rcases super_chainImage hbc with ⟨rfl, rfl⟩ | ⟨rfl, rfl⟩
          · exact ih.trans (by decide)
          · exact ih.trans (by decide)
    exact absurd (hlt a h) (lt_irrefl _)

/-- A circle is a thing, and a thing is not a circle. -/
theorem subtyping_chain :
    Subtyping chainImage (registerAll chainImage [0x3000, 0x2000, 0x1000]).1 ∧
    isType chainImage (registerAll chainImage [0x3000, 0x2000, 0x1000]).1 3 0x10000 0x30000
      = .ok true ∧
    isType chainImage (registerAll chainImage [0x3000, 0x2000, 0x1000]).1 3 0x30000 0x10000
      = .ok false :=
  ⟨subtyping_is_reachability chainImage _ wellLinked_chainImage, by decide +kernel,
    by decide +kernel⟩

end TypeSystem

end Metta.TypesystemMod
