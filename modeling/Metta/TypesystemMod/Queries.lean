/-
  Metta.TypesystemMod.Queries — which type codes the queries accept.

  `info`, `size`, `name`, `docstring` and `unalias` look at both parts of a type
  code.  `is_type`, and `narrow` through it, look at the interface part only:
  an index that is out of range is not noticed there.

    • `Valid` — the codes that there are,
    • `query_of_valid`, `query_of_not_valid` — the one check of four queries,
    • `isTypeLoop_badCode`, `isTypeLoop_stuck` — what the loop of `is_type` raises,
    • `queries_agree_iff` — when all of them accept or all of them raise.
-/
import Metta.TypesystemMod.Registry
import Metta.Machine.Outcome

namespace Metta.TypesystemMod

open Metta.Machine Metta.Tables TypeSystem

/-! ## §1. Type codes. -/

theorem tcodeIsInterface_iff {tc : Code} : tcodeIsInterface tc = true ↔ tcodeIndex tc = 0 := by
  rw [tcodeIsInterface, beq_iff_eq, tcodeIndex, ← BitVec.toNat_inj]
  rfl

theorem tcodeIntfCode_of_isInterface {tc : Code} (h : tcodeIsInterface tc = true) :
    tcodeIntfCode tc = tc := by
  rw [tcodeIsInterface, beq_iff_eq] at h
  refine BitVec.eq_of_getLsbD_eq fun i hi => ?_
  have hbit : (tc &&& tcodeMask).getLsbD i = false := by rw [h]; simp
  rw [BitVec.getLsbD_and] at hbit
  rw [tcodeIntfCode, BitVec.getLsbD_and, BitVec.getLsbD_not]
  cases htc : tc.getLsbD i with
  | false => rfl
  | true =>
      rw [htc, Bool.true_and] at hbit
      simp only [hbit, hi, decide_true, Bool.not_false, Bool.and_self]

theorem tcodeIndex_pos {tc : Code} (hindex : tcodeIsInterface tc = false) : 0 < tcodeIndex tc := by
  refine Nat.pos_of_ne_zero fun h => ?_
  rw [tcodeIsInterface_iff.mpr h] at hindex
  cases hindex

/-- A valid index is inside of the array, and types are counted from one. -/
theorem tcodeWhichType_of_valid {tc : Code} {b : Interface} (hindex : tcodeIsInterface tc = false)
    (hvalid : tcodeValidType tc b = true) :
    ∃ trep, b.types[tcodeIndex tc - 1]? = some trep ∧ tcodeWhichType tc b = .ok trep := by
  have hpos := tcodeIndex_pos hindex
  have hle : tcodeIndex tc ≤ b.types.length := of_decide_eq_true hvalid
  have hsub : ((tc &&& tcodeMask) - 1).toNat = tcodeIndex tc - 1 := by
    unfold tcodeIndex at hpos ⊢
    bv_omega
  have hlt : tcodeIndex tc - 1 < b.types.length := by omega
  have hget := List.getElem?_eq_getElem hlt
  exact ⟨b.types[tcodeIndex tc - 1], hget, by rw [tcodeWhichType, hsub, hget]⟩

namespace TypeSystem

variable {im : Image} {ts : TypeSystem} {tc : Code}

/-! ## §2. The queries that look at both parts. -/

/-- The type codes that there are: the interface is registered, and the index is zero or the
one of a type of it. -/
def Valid (im : Image) (ts : TypeSystem) (tc : Code) : Prop :=
  ∃ a, ts.byTypecode (tcodeIntfCode tc) = some a ∧ tcodeIndex tc ≤ (im.interface a).numTypes

/-- A code of an interface that is registered, but not valid: it is the one of a type. -/
theorem not_interface_of_not_valid (h : ¬ Valid im ts tc) {a : Nat}
    (ha : ts.byTypecode (tcodeIntfCode tc) = some a) :
    tcodeIsInterface tc = false ∧ ¬ tcodeIndex tc ≤ (im.interface a).numTypes := by
  have hindex : ¬ tcodeIndex tc ≤ (im.interface a).numTypes := fun hle => h ⟨a, ha, hle⟩
  refine ⟨?_, hindex⟩
  rw [Bool.eq_false_iff]
  intro htrue
  exact hindex (by rw [tcodeIsInterface_iff.mp htrue]; exact Nat.zero_le _)

section

variable {α : Type} (ofInterface : Interface → α) (ofType : Interface → TypeRepresentation → α)

theorem query_of_valid (h : Valid im ts tc) : ∃ r, query im ts ofInterface ofType tc = .ok r := by
  obtain ⟨a, ha, hindex⟩ := h
  cases hi : tcodeIsInterface tc with
  | true => exact ⟨_, by simp [query, ha, hi]; rfl⟩
  | false =>
      have hvalid : tcodeValidType tc (im.interface a) = true := decide_eq_true hindex
      obtain ⟨trep, -, htrep⟩ := tcodeWhichType_of_valid hi hvalid
      exact ⟨_, by simp [query, ha, hi, hvalid, htrep, Except.map]; rfl⟩

theorem query_of_not_valid (h : ¬ Valid im ts tc) :
    query im ts ofInterface ofType tc = raise (.badCode tc) := by
  unfold query
  cases ha : ts.byTypecode (tcodeIntfCode tc) with
  | none => rfl
  | some a =>
      obtain ⟨hi, hindex⟩ := not_interface_of_not_valid h ha
      simp [hi, tcodeValidType, hindex]

end

theorem unalias_of_not_valid (h : ¬ Valid im ts tc) (fuel : Nat) :
    unalias im ts (fuel + 1) tc = raise (.badCode tc) := by
  unfold unalias
  cases ha : ts.byTypecode (tcodeIntfCode tc) with
  | none => rfl
  | some a =>
      obtain ⟨hi, hindex⟩ := not_interface_of_not_valid h ha
      simp [hi, tcodeValidType, hindex]

/-- What `unalias` raises is about a code that is not there. -/
theorem unalias_error {fuel : Nat} {e : Halt} (h : unalias im ts fuel tc = .error e) :
    e = .outOfFuel ∨ ∃ c, e = .raised (.badCode c) ∧ ¬ Valid im ts c := by
  induction fuel generalizing tc with
  | zero =>
      cases h
      exact .inl rfl
  | succ fuel ih =>
      by_cases hvalid : Valid im ts tc
      · obtain ⟨a, ha, hindex⟩ := hvalid
        simp only [unalias, ha] at h
        cases hi : tcodeIsInterface tc with
        | true => simp [hi] at h
        | false =>
            have hv : tcodeValidType tc (im.interface a) = true := decide_eq_true hindex
            obtain ⟨trep, -, htrep⟩ := tcodeWhichType_of_valid hi hv
            simp only [hi, hv, htrep, Except.bind, Bool.not_true, Bool.false_eq_true,
              if_false] at h
            split at h
            · cases h
            · exact ih h
      · rw [unalias_of_not_valid hvalid] at h
        cases h
        exact .inr ⟨tc, rfl, hvalid⟩

/-! ## §3. The queries that look at the interface only. -/

/-- The interface at `b` is the supertype of the one at `a`. -/
def Extends (im : Image) (ts : TypeSystem) (a b : Nat) : Prop :=
  (im.interface a).supertype ≠ 0 ∧ ts.byTypecode (im.interface a).supertype = some b

/-- The loop raises when it comes to a supertype that is not registered. -/
theorem isTypeLoop_error {super : Code} {fuel a : Nat} {e : Halt}
    (h : isTypeLoop im ts super fuel (im.interface a) = .error e) :
    e = .outOfFuel ∨ ∃ b, Relation.ReflTransGen (Extends im ts) a b ∧
      (im.interface b).supertype ≠ 0 ∧ ts.byTypecode (im.interface b).supertype = none ∧
      e = .raised (.badCode (im.interface b).supertype) := by
  induction fuel generalizing a with
  | zero =>
      cases h
      exact .inl rfl
  | succ fuel ih =>
      unfold isTypeLoop at h
      split at h
      · split at h
        · cases h
        · next hsuper =>
          cases hb : ts.byTypecode (im.interface a).supertype with
          | none =>
              simp only [hb, raise, Except.error.injEq] at h
              exact .inr ⟨a, .refl, hsuper, hb, h.symm⟩
          | some b =>
              simp only [hb] at h
              refine (ih h).imp_right ?_
              rintro ⟨c, hc, hrest⟩
              exact ⟨c, .head ⟨hsuper, hb⟩ hc, hrest⟩
      · cases h

/-- From an interface that `super` is not above, the loop comes to every supertype. -/
theorem isTypeLoop_stuck (super : Code) {a b : Nat}
    (hab : Relation.ReflTransGen (Extends im ts) a b)
    (hcode : ∀ c, (im.codeOf c = super) → ¬ Relation.ReflTransGen (Extends im ts) a c)
    (hsuper : (im.interface b).supertype ≠ 0)
    (hnone : ts.byTypecode (im.interface b).supertype = none) :
    ∃ fuel, isTypeLoop im ts super fuel (im.interface a)
      = raise (.badCode (im.interface b).supertype) := by
  induction hab using Relation.ReflTransGen.head_induction_on with
  | refl =>
      have hne : ¬ (im.interface b).rep.code.value = super := fun h => hcode b h .refl
      exact ⟨1, by rw [isTypeLoop, if_pos hne, if_neg hsuper, hnone]⟩
  | head hac hcb ih =>
      rename_i a c
      have hne : ¬ (im.interface a).rep.code.value = super := fun h => hcode a h .refl
      obtain ⟨fuel, hfuel⟩ := ih fun d hd hreach => hcode d hd (.head hac hreach)
      exact ⟨fuel + 1, by rw [isTypeLoop, if_pos hne, if_neg hac.1, hac.2]; exact hfuel⟩

/-- What `is_type` raises is about an argument that has no interface, or about a supertype
that is not registered. -/
theorem isType_error {fuel : Nat} {sub super : Code} {e : Halt}
    (h : isType im ts fuel sub super = .error e) :
    (e = .raised (.badCode super) ∧ ts.byTypecode (tcodeIntfCode super) = none) ∨
    (e = .raised (.badCode sub) ∧ ts.byTypecode (tcodeIntfCode sub) = none ∧ sub ≠ super) ∨
    e = .outOfFuel ∨
    ∃ a b, tcodeIsInterface sub = true ∧ ts.byTypecode sub = some a ∧
      Relation.ReflTransGen (Extends im ts) a b ∧ (im.interface b).supertype ≠ 0 ∧
      ts.byTypecode (im.interface b).supertype = none ∧
      e = .raised (.badCode (im.interface b).supertype) := by
  unfold isType at h
  cases hsuper : ts.byTypecode (tcodeIntfCode super) with
  | none =>
      simp only [hsuper, raise, Except.error.injEq] at h
      exact .inl ⟨h.symm, rfl⟩
  | some s =>
      simp only [hsuper] at h
      split at h
      · cases h
      · next hne =>
        cases hsub : ts.byTypecode (tcodeIntfCode sub) with
        | none =>
            simp only [hsub, raise, Except.error.injEq] at h
            exact .inr (.inl ⟨h.symm, rfl, hne⟩)
        | some a =>
            simp only [hsub] at h
            split at h
            · next hi =>
              rw [tcodeIntfCode_of_isInterface hi] at hsub
              rcases isTypeLoop_error h with hfuel | ⟨b, hb⟩
              · exact .inr (.inr (.inl hfuel))
              · exact .inr (.inr (.inr ⟨a, b, hi, hsub, hb⟩))
            · cases h

/-- What `narrow` raises besides `incompatible`, `is_type` has raised. -/
theorem narrow_error {fuel : Nat} {a : Any} {e : Halt} (h : narrow im ts fuel a tc = .error e) :
    e = .raised .incompatible ∨ isType im ts fuel a.type_ tc = .error e := by
  rcases bind_eq_error.mp h with h | ⟨b, -, h⟩
  · exact .inr h
  · cases b with
    | true => cases h
    | false =>
        cases h
        exact .inl rfl

/-! ## §4. All accept or all raise. -/

/-- All queries accept `tc`: the four that read a field return, and nothing raises `bad_code`
about `tc`. -/
structure Accepts (im : Image) (ts : TypeSystem) (tc : Code) : Prop where
  valid : Valid im ts tc
  info : ∃ r, info im ts tc = .ok r
  size : ∃ r, size im ts tc = .ok r
  name : ∃ r, name im ts tc = .ok r
  docstring : ∃ r, docstring im ts tc = .ok r
  unalias : ∀ fuel, unalias im ts fuel tc ≠ raise (.badCode tc)
  isSub : ∀ fuel super, isType im ts fuel tc super ≠ raise (.badCode tc)
  isSuper : ∀ fuel sub, isType im ts fuel sub tc ≠ raise (.badCode tc)
  narrowSub : ∀ fuel value super, narrow im ts fuel ⟨tc, value⟩ super ≠ raise (.badCode tc)
  narrowSuper : ∀ fuel a, narrow im ts fuel a tc ≠ raise (.badCode tc)

/-- All queries raise `bad_code` at `tc`; `is_type` looks at its second argument first. -/
structure Rejects (im : Image) (ts : TypeSystem) (tc : Code) : Prop where
  info : info im ts tc = raise (.badCode tc)
  size : size im ts tc = raise (.badCode tc)
  name : name im ts tc = raise (.badCode tc)
  docstring : docstring im ts tc = raise (.badCode tc)
  unalias : ∀ fuel, unalias im ts (fuel + 1) tc = raise (.badCode tc)
  isSub : ∀ fuel super, ∃ c ∈ [tc, super], isType im ts fuel tc super = raise (.badCode c)
  isSuper : ∀ fuel sub, isType im ts fuel sub tc = raise (.badCode tc)
  narrowSub : ∀ fuel value super, ∃ c ∈ [tc, super],
    narrow im ts fuel ⟨tc, value⟩ super = raise (.badCode c)
  narrowSuper : ∀ fuel a, narrow im ts fuel a tc = raise (.badCode tc)

/-- No query indexes an array of types outside of it. -/
structure InBounds (im : Image) (ts : TypeSystem) (tc : Code) : Prop where
  info : info im ts tc ≠ .error .outOfBounds
  size : size im ts tc ≠ .error .outOfBounds
  name : name im ts tc ≠ .error .outOfBounds
  docstring : docstring im ts tc ≠ .error .outOfBounds
  unalias : ∀ fuel, unalias im ts fuel tc ≠ .error .outOfBounds

/-- Above some interface, `tc` is named as the supertype, and there is no such interface. -/
def Dangling (im : Image) (ts : TypeSystem) (tc : Code) : Prop :=
  ∃ sub a b, tcodeIsInterface sub = true ∧ ts.byTypecode sub = some a ∧
    Relation.ReflTransGen (Extends im ts) a b ∧ (im.interface b).supertype = tc ∧
    tc ≠ 0 ∧ ts.byTypecode tc = none

theorem inBounds (im : Image) (ts : TypeSystem) (tc : Code) : InBounds im ts tc := by
  have hquery : ∀ {α : Type} (f : Interface → α) (g : Interface → TypeRepresentation → α),
      query im ts f g tc ≠ .error .outOfBounds := by
    intro α f g h
    by_cases hvalid : Valid im ts tc
    · obtain ⟨r, hr⟩ := query_of_valid f g hvalid
      rw [hr] at h
      cases h
    · rw [query_of_not_valid f g hvalid] at h
      cases h
  refine ⟨hquery _ _, hquery _ _, hquery _ _, hquery _ _, fun fuel h => ?_⟩
  rcases unalias_error h with he | ⟨c, he, -⟩
  · cases he
  · cases he

theorem rejects_of_none (h : ts.byTypecode (tcodeIntfCode tc) = none) : Rejects im ts tc := by
  have hvalid : ¬ Valid im ts tc := by
    rintro ⟨a, ha, -⟩
    rw [h] at ha
    cases ha
  have hsuper : ∀ fuel sub, isType im ts fuel sub tc = raise (.badCode tc) := fun fuel sub => by
    simp [isType, h]
  have hsub : ∀ fuel super, ∃ c ∈ [tc, super], isType im ts fuel tc super = raise (.badCode c) := by
    intro fuel super
    cases hs : ts.byTypecode (tcodeIntfCode super) with
    | none => exact ⟨super, by simp, by simp [isType, hs]⟩
    | some a =>
        have hne : tc ≠ super := fun heq => by
          rw [heq, hs] at h
          cases h
        exact ⟨tc, by simp, by simp [isType, hs, h, hne]⟩
  refine ⟨query_of_not_valid _ _ hvalid, query_of_not_valid _ _ hvalid,
    query_of_not_valid _ _ hvalid, query_of_not_valid _ _ hvalid, unalias_of_not_valid hvalid,
    hsub, hsuper, fun fuel value super => ?_, fun fuel a => ?_⟩
  · obtain ⟨c, hc, heq⟩ := hsub fuel super
    exact ⟨c, hc, by rw [narrow, heq]; rfl⟩
  · rw [narrow, hsuper]
    rfl

theorem accepts_of_valid (hvalid : Valid im ts tc) (hdangling : ¬ Dangling im ts tc) :
    Accepts im ts tc := by
  obtain ⟨s, hs, -⟩ := id hvalid
  have hnotNone : ts.byTypecode (tcodeIntfCode tc) ≠ none := by rw [hs]; simp
  have hsub : ∀ fuel super, isType im ts fuel tc super ≠ raise (.badCode tc) := by
    intro fuel super h
    rcases isType_error h with ⟨he, hn⟩ | ⟨-, hn, -⟩ | he | ⟨a, b, hi, -, -, -, hn, he⟩
    · cases he
      exact hnotNone hn
    · exact hnotNone hn
    · cases he
    · cases he
      rw [tcodeIntfCode_of_isInterface hi] at hnotNone
      exact hnotNone hn
  have hsuper : ∀ fuel sub, isType im ts fuel sub tc ≠ raise (.badCode tc) := by
    intro fuel sub h
    rcases isType_error h with ⟨-, hn⟩ | ⟨he, -, hne⟩ | he | ⟨a, b, hi, ha, hab, hz, hn, he⟩
    · exact hnotNone hn
    · cases he
      exact hne rfl
    · cases he
    · cases he
      exact hdangling ⟨sub, a, b, hi, ha, hab, rfl, hz, hn⟩
  refine ⟨hvalid, query_of_valid _ _ hvalid, query_of_valid _ _ hvalid, query_of_valid _ _ hvalid,
    query_of_valid _ _ hvalid, fun fuel h => ?_, hsub, hsuper, fun fuel value super h => ?_,
    fun fuel a h => ?_⟩
  · rcases unalias_error h with he | ⟨c, he, hc⟩
    · cases he
    · cases he
      exact hc hvalid
  · rcases narrow_error h with he | he
    · cases he
    · exact hsub fuel super he
  · rcases narrow_error h with he | he
    · cases he
    · exact hsuper fuel a.type_ he

/-- **All queries accept a type code or all raise `bad_code`, exactly when** its interface is
not registered, or its index is in range and it is not a dangling supertype. -/
theorem queries_agree_iff (im : Image) (intfs : List Nat) (tc : Code) :
    ((Accepts im (registerAll im intfs).1 tc ∨ Rejects im (registerAll im intfs).1 tc) ∧
      InBounds im (registerAll im intfs).1 tc) ↔
    ∀ a, (registerAll im intfs).1.byTypecode (tcodeIntfCode tc) = some a →
      tcodeIndex tc ≤ (im.interface a).numTypes ∧ ¬ Dangling im (registerAll im intfs).1 tc := by
  obtain ⟨ts, hts⟩ : ∃ ts, ts = (registerAll im intfs).1 := ⟨_, rfl⟩
  have hcode : ∀ c a, ts.byTypecode c = some a → im.codeOf a = c := fun c a ha =>
    ((inStep_registerAll im intfs).byTypecode c a).mp (hts ▸ ha) |>.2
  rw [← hts]
  constructor
  · rintro ⟨hall | hall, -⟩ a ha
    · obtain ⟨b, hb, hindex⟩ := hall.valid
      rw [ha] at hb
      cases hb
      refine ⟨hindex, ?_⟩
      rintro ⟨sub, c, d, hi, hc, hcd, rfl, hz, hn⟩
      -- every interface above is registered under its code
      have hother : ∀ e, im.codeOf e = (im.interface d).supertype →
          ¬ Relation.ReflTransGen (Extends im ts) c e := by
        intro e he hreach
        have hreg : ts.byTypecode (im.codeOf e) = some e := by
          rcases Relation.ReflTransGen.cases_tail hreach with rfl | ⟨f, -, hf⟩
          · rw [hcode _ _ hc, hc]
          · rw [hcode _ _ hf.2, hf.2]
        rw [he, hn] at hreg
        cases hreg
      -- so the loop of `is_type` comes to the dangling supertype and raises
      obtain ⟨fuel, hfuel⟩ := isTypeLoop_stuck (im.interface d).supertype hcd hother hz hn
      refine hall.isSuper fuel sub ?_
      have hne : sub ≠ (im.interface d).supertype := fun heq => by
        rw [← heq, hc] at hn
        cases hn
      rw [isType, ha]
      simp only [hne, if_false, tcodeIntfCode_of_isInterface hi, hc, hi, if_true, hfuel]
    · exfalso
      have := hall.isSuper 0 tc
      simp [isType, ha, raise] at this
  · intro h
    refine ⟨?_, inBounds im ts tc⟩
    cases ha : ts.byTypecode (tcodeIntfCode tc) with
    | none => exact .inr (rejects_of_none ha)
    | some a => exact .inl (accepts_of_valid ⟨a, ha, (h a ha).1⟩ (h a ha).2)

/-- **An index that is out of range**: `info` raises `bad_code` and `is_type` says that the
type is of itself. -/
theorem bad_index_is_type :
    tcodeIndex 0x30001 = 1 ∧
    (sampleImage.interface 0x3000).numTypes = 0 ∧
    info sampleImage (registerAll sampleImage [0x3000]).1 0x30001 = raise (.badCode 0x30001) ∧
    isType sampleImage (registerAll sampleImage [0x3000]).1 0 0x30001 0x30001 = .ok true ∧
    ¬ ((Accepts sampleImage (registerAll sampleImage [0x3000]).1 0x30001 ∨
        Rejects sampleImage (registerAll sampleImage [0x3000]).1 0x30001) ∧
      InBounds sampleImage (registerAll sampleImage [0x3000]).1 0x30001) := by
  have hinfo : info sampleImage (registerAll sampleImage [0x3000]).1 0x30001
      = raise (.badCode 0x30001) := by decide +kernel
  have htype : isType sampleImage (registerAll sampleImage [0x3000]).1 0 0x30001 0x30001
      = .ok true := by decide +kernel
  refine ⟨by decide +kernel, by decide +kernel, hinfo, htype, ?_⟩
  rintro ⟨hall | hall, -⟩
  · obtain ⟨r, hr⟩ := hall.info
    rw [hinfo] at hr
    cases hr
  · have := hall.isSuper 0 0x30001
    rw [htype] at this
    cases this

end TypeSystem

end Metta.TypesystemMod
