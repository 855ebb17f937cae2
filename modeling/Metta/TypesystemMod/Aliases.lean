/-
  Metta.TypesystemMod.Aliases — `unalias` goes to the end of a chain.

  A type within an interface can be an alias of another type code, which can be
  one of an alias again.  `unalias` follows these for as long as there are any.

    • `AliasOf`, `Chain` — the links that are followed,
    • `IsEnd` — an interface, a type that is no alias, or no valid code,
    • `unalias_settles_iff` — the result is the one at the end of the chain,
    • `alias_resolution` — when `unalias` ends, and with what.
-/
import Metta.Machine.Chase
import Metta.TypesystemMod.Queries

namespace Metta.TypesystemMod

open Metta.Machine TypeSystem

namespace TypeSystem

variable {im : Image} {ts : TypeSystem} {tc c d u : Code}

/-! ## §1. Chains of aliases. -/

/-- The type with the code `c` within its interface. -/
def TypeAt (im : Image) (ts : TypeSystem) (c : Code) (trep : TypeRepresentation) : Prop :=
  ∃ a, ts.byTypecode (tcodeIntfCode c) = some a ∧ 0 < tcodeIndex c ∧
    (im.interface a).types[tcodeIndex c - 1]? = some trep

/-- `c` is an alias of `d`. -/
def AliasOf (im : Image) (ts : TypeSystem) (c d : Code) : Prop :=
  ∃ trep, TypeAt im ts c trep ∧ trep.any = ⟨im.aliasTypeCode, d⟩

/-- From a type code to the one that it is an alias of, and on. -/
def Chain (im : Image) (ts : TypeSystem) : Code → Code → Prop :=
  Relation.ReflTransGen (AliasOf im ts)

/-- Where a chain ends: at an invalid code, at an interface or at a type that is no alias. -/
def IsEnd (im : Image) (ts : TypeSystem) (c : Code) : Prop :=
  ¬ Valid im ts c ∨ tcodeIsInterface c = true ∨
    ∃ trep, TypeAt im ts c trep ∧ trep.any.type_ ≠ im.aliasTypeCode

theorem TypeAt.unique {trep trep' : TypeRepresentation} (h : TypeAt im ts c trep)
    (h' : TypeAt im ts c trep') : trep = trep' := by
  obtain ⟨a, ha, -, htrep⟩ := h
  obtain ⟨a', ha', -, htrep'⟩ := h'
  rw [ha, Option.some.injEq] at ha'
  subst ha'
  rw [htrep, Option.some.injEq] at htrep'
  exact htrep'

theorem TypeAt.valid {trep : TypeRepresentation} (h : TypeAt im ts c trep) : Valid im ts c := by
  obtain ⟨a, ha, hpos, htrep⟩ := h
  obtain ⟨hlt, -⟩ := List.getElem?_eq_some_iff.mp htrep
  refine ⟨a, ha, ?_⟩
  rw [Interface.numTypes]
  omega

/-! ## §2. The loop. -/

/-- A turn of the loop of `unalias`. -/
def aliasTurn (im : Image) (ts : TypeSystem) (tc : Code) : Except Halt Code ⊕ Code :=
  match ts.byTypecode (tcodeIntfCode tc) with
  | none => .inl (raise (.badCode tc))
  | some a =>
      if tcodeIsInterface tc then .inl (.ok tc)
      else if !tcodeValidType tc (im.interface a) then .inl (raise (.badCode tc))
      else
        match tcodeWhichType tc (im.interface a) with
        | .error e => .inl (.error e)
        | .ok trep =>
            if trep.any.type_ ≠ im.aliasTypeCode then .inl (.ok tc) else .inr trep.any.value

/-- `unalias` is its loop. -/
theorem unalias_eq (fuel : Nat) (tc : Code) :
    unalias im ts fuel tc = (Chase.run (aliasTurn im ts) fuel tc).getD (.error .outOfFuel) := by
  induction fuel generalizing tc with
  | zero => rfl
  | succ fuel ih =>
      rw [unalias, Chase.run, aliasTurn]
      cases ts.byTypecode (tcodeIntfCode tc) with
      | none => rfl
      | some a =>
          simp only
          split
          · rfl
          split
          · rfl
          cases tcodeWhichType tc (im.interface a) with
          | error e => rfl
          | ok trep =>
              simp only [Except.bind]
              split
              · rfl
              · exact ih _

/-- What one turn does. -/
theorem aliasTurn_cases (im : Image) (ts : TypeSystem) (c : Code) :
    (¬ Valid im ts c ∧ aliasTurn im ts c = .inl (raise (.badCode c))) ∨
    (Valid im ts c ∧ IsEnd im ts c ∧ (∀ d, ¬ AliasOf im ts c d) ∧
      aliasTurn im ts c = .inl (.ok c)) ∨
    (Valid im ts c ∧ ¬ IsEnd im ts c ∧ ∃ d, AliasOf im ts c d ∧ aliasTurn im ts c = .inr d) := by
  -- `unalias` tests first whether the code is one of a type that is there
  by_cases hvalid : Valid im ts c
  · refine .inr ?_
    obtain ⟨a, ha, hle⟩ := id hvalid
    have hv : tcodeValidType c (im.interface a) = true := decide_eq_true hle
    simp only [aliasTurn, ha, hv, Bool.not_true, Bool.false_eq_true, if_false]
    cases hi : tcodeIsInterface c with
    | true =>
        refine .inl ⟨hvalid, .inr (.inl hi), ?_, rfl⟩
        -- an interface is no alias
        rintro d ⟨trep, ⟨a', -, hpos, -⟩, -⟩
        rw [tcodeIsInterface_iff.mp hi] at hpos
        exact absurd hpos (lt_irrefl 0)
    | false =>
        obtain ⟨trep, hget, htrep⟩ := tcodeWhichType_of_valid hi hv
        have hat : TypeAt im ts c trep := ⟨a, ha, tcodeIndex_pos hi, hget⟩
        simp only [htrep, Bool.false_eq_true, if_false]
        -- an alias leads on, any other type ends the chain
        by_cases halias : trep.any.type_ = im.aliasTypeCode
        · refine .inr ⟨hvalid, ?_, trep.any.value, ⟨trep, hat, ?_⟩, by simp [halias]⟩
          · rintro (hnot | hinterface | ⟨trep', hat', hne⟩)
            · exact hnot hvalid
            · rw [hi] at hinterface
              cases hinterface
            · rw [hat'.unique hat] at hne
              exact hne halias
          · rw [← halias]
        · refine .inl ⟨hvalid, .inr (.inr ⟨trep, hat, halias⟩), ?_, by simp [halias]⟩
          rintro d ⟨trep', hat', hany⟩
          rw [hat'.unique hat] at hany
          exact halias (by rw [hany])
  · -- no interface of the code, or no type of its index
    refine .inl ⟨hvalid, ?_⟩
    rw [aliasTurn]
    cases ha : ts.byTypecode (tcodeIntfCode c) with
    | none => rfl
    | some a =>
        obtain ⟨hi, hindex⟩ := not_interface_of_not_valid hvalid ha
        simp [hi, tcodeValidType, hindex]

theorem AliasOf.valid (h : AliasOf im ts c d) : Valid im ts c := by
  obtain ⟨trep, hat, -⟩ := h
  exact hat.valid

theorem AliasOf.unique {d' : Code} (h : AliasOf im ts c d) (h' : AliasOf im ts c d') : d = d' := by
  obtain ⟨trep, hat, hany⟩ := h
  obtain ⟨trep', hat', hany'⟩ := h'
  rw [hat.unique hat', hany'] at hany
  exact (congrArg Any.value hany).symm

/-- The loop follows aliases. -/
theorem link_iff : Chase.Link (aliasTurn im ts) c d ↔ AliasOf im ts c d := by
  rw [Chase.Link]
  rcases aliasTurn_cases im ts c with ⟨hnot, hturn⟩ | ⟨-, -, hno, hturn⟩ | ⟨-, -, d', hd', hturn⟩
  · rw [hturn]
    exact iff_of_false (fun h => by cases h) fun h => hnot h.valid
  · rw [hturn]
    exact iff_of_false (fun h => by cases h) (hno d)
  · rw [hturn, Sum.inr.injEq]
    exact ⟨fun h => h ▸ hd', fun h => hd'.unique h⟩

theorem reaches_iff : Chase.Reaches (aliasTurn im ts) c d ↔ Chain im ts c d := by
  have hrel : Chase.Link (aliasTurn im ts) = AliasOf im ts := by
    funext c d
    exact propext link_iff
  rw [Chase.Reaches, hrel, Chain]

/-! ## §3. Results. -/

/-- **What `unalias` ends with** is what it says at the end of the chain. -/
theorem unalias_settles_iff {r : Except Halt Code} (hr : r ≠ .error .outOfFuel) :
    Settles (fun fuel => unalias im ts fuel tc) r ↔
      ∃ z, Chain im ts tc z ∧ aliasTurn im ts z = .inl r := by
  have hsome : Settles (fun fuel => unalias im ts fuel tc) r ↔
      Settles (fun fuel => Chase.run (aliasTurn im ts) fuel tc) (some r) := by
    constructor
    · rintro ⟨n, hn⟩
      refine ⟨n, fun fuel hfuel => ?_⟩
      have heq : unalias im ts fuel tc = r := hn fuel hfuel
      rw [unalias_eq] at heq
      cases hrun : Chase.run (aliasTurn im ts) fuel tc with
      | none =>
          rw [hrun] at heq
          exact absurd heq.symm hr
      | some r' =>
          rw [hrun] at heq
          exact hrun.trans (congrArg some heq)
    · intro h
      rw [funext fun fuel => unalias_eq fuel tc]
      exact h.map fun r => r.getD (.error .outOfFuel)
  rw [hsome, Chase.settles_run_iff]
  exact exists_congr fun z => and_congr_left fun _ => reaches_iff

theorem isEnd_iff_result : IsEnd im ts c ↔ ∃ r, aliasTurn im ts c = .inl r := by
  rcases aliasTurn_cases im ts c with ⟨hnot, hturn⟩ | ⟨-, hend, -, hturn⟩ | ⟨-, hend, d, -, hturn⟩
  · exact iff_of_true (.inl hnot) ⟨_, hturn⟩
  · exact iff_of_true hend ⟨_, hturn⟩
  · refine iff_of_false hend ?_
    rintro ⟨r, hr⟩
    rw [hr] at hturn
    cases hturn

/-- `unalias` never runs out of the array of types or of fuel at the end of a chain. -/
theorem aliasTurn_ne (h : aliasTurn im ts c = .inl r) : r ≠ .error .outOfFuel := by
  rcases aliasTurn_cases im ts c with ⟨-, hturn⟩ | ⟨-, -, -, hturn⟩ | ⟨-, -, d, -, hturn⟩
  · rw [hturn] at h
    cases h
    intro h
    cases h
  · rw [hturn] at h
    cases h
    intro h
    cases h
  · rw [hturn] at h
    cases h

theorem unalias_ok_iff :
    Settles (fun fuel => unalias im ts fuel tc) (.ok u) ↔
      Chain im ts tc u ∧ Valid im ts u ∧ ∀ d, ¬ AliasOf im ts u d := by
  rw [unalias_settles_iff (fun h => by cases h)]
  constructor
  · rintro ⟨z, hz, hr⟩
    rcases aliasTurn_cases im ts z with ⟨-, hturn⟩ | ⟨hv, -, hno, hturn⟩ | ⟨-, -, d, -, hturn⟩
    · rw [hturn] at hr
      cases hr
    · rw [hturn] at hr
      cases hr
      exact ⟨hz, hv, hno⟩
    · rw [hturn] at hr
      cases hr
  · rintro ⟨hu, hv, hno⟩
    refine ⟨u, hu, ?_⟩
    rcases aliasTurn_cases im ts u with ⟨hnot, -⟩ | ⟨-, -, -, hturn⟩ | ⟨-, -, d, hd, -⟩
    · exact absurd hv hnot
    · exact hturn
    · exact absurd hd (hno d)

theorem unalias_raises_iff :
    Settles (fun fuel => unalias im ts fuel tc) (raise (.badCode c)) ↔
      Chain im ts tc c ∧ ¬ Valid im ts c := by
  rw [unalias_settles_iff (fun h => by cases h)]
  constructor
  · rintro ⟨z, hz, hr⟩
    rcases aliasTurn_cases im ts z with ⟨hnot, hturn⟩ | ⟨-, -, -, hturn⟩ | ⟨-, -, d, -, hturn⟩
    · rw [hturn] at hr
      cases hr
      exact ⟨hz, hnot⟩
    · rw [hturn] at hr
      cases hr
    · rw [hturn] at hr
      cases hr
  · rintro ⟨hc, hnot⟩
    refine ⟨c, hc, ?_⟩
    rcases aliasTurn_cases im ts c with ⟨-, hturn⟩ | ⟨hv, -⟩ | ⟨hv, -⟩
    · exact hturn
    · exact absurd hv hnot
    · exact absurd hv hnot

/-- What `unalias` does with a type code. -/
structure Resolution (im : Image) (ts : TypeSystem) (tc : Code) : Prop where
  terminates : (∃ r, r ≠ .error .outOfFuel ∧ Settles (fun fuel => unalias im ts fuel tc) r) ↔
    ∃ z, Chain im ts tc z ∧ IsEnd im ts z
  noAlias : ∀ u, Settles (fun fuel => unalias im ts fuel tc) (.ok u) → ∀ d, ¬ AliasOf im ts u d
  idempotent : ∀ u, Settles (fun fuel => unalias im ts fuel tc) (.ok u) →
    Settles (fun fuel => unalias im ts fuel u) (.ok u)
  onChain : ∀ u, Settles (fun fuel => unalias im ts fuel tc) (.ok u) →
    ∀ c, Chain im ts tc c → Settles (fun fuel => unalias im ts fuel c) (.ok u)
  raises : (∃ c, Settles (fun fuel => unalias im ts fuel tc) (raise (.badCode c))) ↔
    ∃ c, Chain im ts tc c ∧ ¬ Valid im ts c

/-- **Alias resolution**, for every registry and every type code. -/
theorem alias_resolution (im : Image) (ts : TypeSystem) (tc : Code) : Resolution im ts tc := by
  constructor
  case terminates =>
    constructor
    · rintro ⟨r, hr, hsettles⟩
      obtain ⟨z, hz, hturn⟩ := (unalias_settles_iff hr).mp hsettles
      exact ⟨z, hz, isEnd_iff_result.mpr ⟨r, hturn⟩⟩
    · rintro ⟨z, hz, hend⟩
      obtain ⟨r, hturn⟩ := isEnd_iff_result.mp hend
      have hr := aliasTurn_ne hturn
      exact ⟨r, hr, (unalias_settles_iff hr).mpr ⟨z, hz, hturn⟩⟩
  case noAlias => exact fun u h => (unalias_ok_iff.mp h).2.2
  case idempotent => exact fun u h => unalias_ok_iff.mpr ⟨.refl, (unalias_ok_iff.mp h).2⟩
  case onChain =>
    intro u h c hc
    obtain ⟨hu, hlast⟩ := unalias_ok_iff.mp h
    have hunique : Relator.RightUnique (AliasOf im ts) := fun _ _ _ hd hd' => hd.unique hd'
    rcases Relation.ReflTransGen.total_of_right_unique hunique hc hu with hcu | huc
    · exact unalias_ok_iff.mpr ⟨hcu, hlast⟩
    · rcases Relation.ReflTransGen.cases_head huc with rfl | ⟨d, hd, -⟩
      · exact unalias_ok_iff.mpr ⟨.refl, hlast⟩
      · exact absurd hd (hlast.2 d)
  case raises => exact exists_congr fun c => unalias_raises_iff

end TypeSystem

end Metta.TypesystemMod
