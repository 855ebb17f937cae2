/-
  Metta.MmuMod.Rights — the rights tables as a map.

  A rights table has four bits for each stretch; `set_rights` is meant to set
  those of one stretch and leave the others.  The set of rights has five
  members, and the fifth, `global`, goes beyond the four bits: for an even
  sid it lands in the entry of the next stretch, where it reads `read`.

    • `nibble_setNibble`, `nibble_setNibble_other` — one byte,
    • `setRights_agree_iff` — one call,
    • `rights_table_is_map_iff` — sequences of calls.
-/
import Metta.MmuMod.DomainRuns

namespace Metta.MmuMod

open Domains

/-! ## §1. Sets of rights (set_t.h, stretch_v1.if). -/

/-- `stretch_v1::right`. -/
inductive Right where
  | read
  | write
  | execute
  | meta_
  | global
  deriving DecidableEq, Repr

/-- `set_t::element` takes the place of a member in the enumeration. -/
def Right.place : Right → Nat
  | read => 0
  | write => 1
  | execute => 2
  | meta_ => 3
  | global => 4

/-- `set_t::has`. -/
def hasRight (rights : BitVec 32) (r : Right) : Bool := rights.getLsbD r.place

/-- A value of the set type has no bits but those of the five rights. -/
def IsRights (rights : BitVec 32) : Prop := rights.toNat < 2 ^ 5

/-! ## §2. One byte. -/

/-- The four bits of a stretch in its byte. -/
def nibble (b : BitVec 8) (odd : Bool) : BitVec 4 :=
  if odd then (b >>> 4).setWidth 4 else b.setWidth 4

theorem nibble_setNibble (b : BitVec 8) (odd : Bool) (rights : BitVec 32) :
    nibble (setNibble b odd rights) odd = rights.setWidth 4 := by
  apply BitVec.eq_of_getLsbD_eq
  intro i hi
  cases odd with
  | true => interval_cases i <;> simp [nibble, setNibble]
  | false => interval_cases i <;> simp [nibble, setNibble]

theorem nibble_setNibble_odd (b : BitVec 8) (rights : BitVec 32) :
    nibble (setNibble b true rights) false = nibble b false := by
  apply BitVec.eq_of_getLsbD_eq
  intro i hi
  interval_cases i <;> simp [nibble, setNibble]

/-- The fifth right of an even sid goes to the odd one. -/
theorem nibble_setNibble_even (b : BitVec 8) {rights : BitVec 32} (hr : IsRights rights) :
    nibble (setNibble b false rights) true
      = nibble b true ||| (BitVec.ofBool (hasRight rights .global)).setWidth 4 := by
  have hhigh : ∀ i (hi : i < 32), 5 ≤ i → rights[i] = false := fun i hi h5 =>
    Nat.testBit_lt_two_pow (lt_of_lt_of_le hr (Nat.pow_le_pow_right (by decide) h5))
  apply BitVec.eq_of_getLsbD_eq
  intro i hi
  interval_cases i <;> simp [nibble, setNibble, hasRight, Right.place, hhigh]

/-- So the odd entry stays exactly when there is no fifth right, or it has `read`
already. -/
theorem nibble_setNibble_even_iff (b : BitVec 8) {rights : BitVec 32} (hr : IsRights rights) :
    nibble (setNibble b false rights) true = nibble b true ↔
      hasRight rights .global = false ∨ (nibble b true).getLsbD 0 = true := by
  rw [nibble_setNibble_even b hr]
  generalize nibble b true = x
  generalize hasRight rights .global = g
  revert x g
  decide

/-! ## §3. One call. -/

/-- The rights of each domain, by its slot, on each stretch. -/
abbrev RightsMap := Nat → Nat → BitVec 4

/-- The four bits of a stretch in the table at `base`. -/
def Domains.entry (s : Domains) (base sid : Nat) : BitVec 4 :=
  nibble (s.rights base (sid / 2)) (sid % 2 == 1)

/-- The map that the tables hold. -/
def Domains.entries (s : Domains) : RightsMap := fun i sid =>
  match s.pdomTbl i with
  | none => 0
  | some base => s.entry base sid

/-- The arguments of a call of `set_rights`. -/
structure SetCall where
  domId : Pdid
  sid : Nat
  rights : BitVec 32

def SetCall.exec (c : SetCall) (s : Domains) : Domains := s.setRights c.domId c.sid c.rights

/-- What the call is meant to do. -/
def SetCall.set (c : SetCall) (m : RightsMap) : RightsMap :=
  Function.update m (pdidx c.domId)
    (Function.update (m (pdidx c.domId)) c.sid (c.rights.setWidth 4))

/-- A live domain, a stretch and a set of rights. -/
structure SetCall.Valid (s : Domains) (c : SetCall) : Prop where
  live : s.bogus c.domId = false
  sid : c.sid < sidMax
  rights : IsRights c.rights

/-- The tables of the live domains hold the map `m`. -/
def Agree (s : Domains) (m : RightsMap) : Prop :=
  ∀ i < pdidxMax, s.pdomTbl i ≠ none → ∀ sid < sidMax, s.entries i sid = m i sid

/-- The call does not leak: an odd sid, or no `global`, or the next stretch has `read`
already. -/
def NoLeak (s : Domains) (c : SetCall) : Prop :=
  c.sid % 2 = 1 ∨ hasRight c.rights .global = false ∨
    (s.entries (pdidx c.domId) (c.sid + 1)).getLsbD 0 = true

/-- Live domains have tables of their own. -/
def Distinct (s : Domains) : Prop :=
  ∀ i < pdidxMax, ∀ j < pdidxMax, ∀ base, s.pdomTbl i = some base → s.pdomTbl j = some base → i = j

variable {s : Domains} {m : RightsMap} {c : SetCall}

/-- The entries after a call. -/
theorem exec_entries (D : Distinct s) (hc : c.Valid s) {i sid : Nat} (hi : i < pdidxMax) :
    (c.exec s).entries i sid =
      if i = pdidx c.domId ∧ sid / 2 = c.sid / 2 then
        nibble (setNibble (s.rights ((s.pdomTbl i).getD 0) (c.sid / 2)) (c.sid % 2 == 1) c.rights)
          (sid % 2 == 1)
      else s.entries i sid := by
  obtain ⟨hlt, base, hbase⟩ := bogus_eq_false hc.live
  have heq : c.exec s = { s with
      rights := Function.update s.rights base (Function.update (s.rights base) (c.sid / 2)
        (setNibble (s.rights base (c.sid / 2)) (c.sid % 2 == 1) c.rights)) } := by
    simp [SetCall.exec, setRights, hc.live, hbase]
  rw [heq]
  simp only [entries]
  cases htbl : s.pdomTbl i with
  | none =>
      have hne : i ≠ pdidx c.domId := fun h => by rw [h, hbase] at htbl; cases htbl
      rw [if_neg fun h => hne h.1]
  | some base' =>
      simp only [entry]
      by_cases hsame : i = pdidx c.domId
      · rw [hsame, hbase] at htbl
        cases htbl
        by_cases hbyte : sid / 2 = c.sid / 2
        · rw [if_pos ⟨hsame, hbyte⟩, Function.update_self, hbyte, Function.update_self]
          rfl
        · rw [if_neg fun h => hbyte h.2, Function.update_self, Function.update_of_ne hbyte]
      · have hne : base' ≠ base := fun h => hsame (D i hi _ hlt base (h ▸ htbl) hbase)
        rw [if_neg fun h => hsame h.1, Function.update_of_ne hne]

/-- The call does what it is meant to exactly when the other entry of its byte stays. -/
theorem setRights_agree_other (D : Distinct s) (hc : c.Valid s) (A : Agree s m) {base : Nat}
    (hbase : s.pdomTbl (pdidx c.domId) = some base) :
    Agree (c.exec s) (c.set m) ↔
      nibble (setNibble (s.rights base (c.sid / 2)) (c.sid % 2 == 1) c.rights) (!(c.sid % 2 == 1))
        = nibble (s.rights base (c.sid / 2)) (!(c.sid % 2 == 1)) := by
  have hlt := (bogus_eq_false hc.live).1
  have htbl : (c.exec s).pdomTbl = s.pdomTbl := (setRights_tables c.domId c.sid c.rights).2.1
  have hlive : s.pdomTbl (pdidx c.domId) ≠ none := by simp [hbase]
  have hentry : ∀ sid, s.entries (pdidx c.domId) sid
      = nibble (s.rights base (sid / 2)) (sid % 2 == 1) := fun sid => by
    simp [entries, hbase, entry]
  have hset : ∀ sid, c.set m (pdidx c.domId) sid
      = if sid = c.sid then c.rights.setWidth 4 else m (pdidx c.domId) sid := fun sid => by
    by_cases h : sid = c.sid
    · simp [SetCall.set, h]
    · simp [SetCall.set, h]
  -- the two entries of a byte
  have hother : ∀ sid, sid / 2 = c.sid / 2 → sid ≠ c.sid →
      (sid % 2 == 1) = !(c.sid % 2 == 1) := by
    intro sid hbyte hne
    rcases Nat.mod_two_eq_zero_or_one sid with h | h
    · rw [h, show c.sid % 2 = 1 by omega]
      rfl
    · rw [h, show c.sid % 2 = 0 by omega]
      rfl
  constructor
  · -- look at the other entry
    intro A'
    obtain ⟨sid, hbyte, hne, hmax⟩ : ∃ sid, sid / 2 = c.sid / 2 ∧ sid ≠ c.sid ∧ sid < sidMax := by
      have := hc.sid
      simp only [sidMax] at *
      exact ⟨2 * (c.sid / 2) + (1 - c.sid % 2), by omega, by omega, by omega⟩
    have h := A' _ hlt (by rw [htbl]; exact hlive) _ hmax
    rw [exec_entries D hc hlt, if_pos ⟨rfl, hbyte⟩, hset, if_neg hne, hbase, Option.getD_some,
      ← A _ hlt hlive _ hmax, hentry, hbyte, hother sid hbyte hne] at h
    exact h
  · -- the other entry of the byte stays, and all others are in other bytes
    intro hstay i hi hlive sid hsid
    rw [htbl] at hlive
    rw [exec_entries D hc hi]
    by_cases hsame : i = pdidx c.domId
    · subst hsame
      rw [hset]
      by_cases hbyte : sid / 2 = c.sid / 2
      · rw [if_pos ⟨rfl, hbyte⟩, hbase, Option.getD_some]
        by_cases hs : sid = c.sid
        · rw [if_pos hs, hs]
          exact nibble_setNibble ..
        · rw [if_neg hs, ← A _ hi hlive sid hsid, hentry, hother sid hbyte hs, hstay, hbyte]
      · rw [if_neg fun h => hbyte h.2, if_neg fun h => hbyte (by rw [h])]
        exact A _ hi hlive sid hsid
    · rw [if_neg fun h => hsame h.1, SetCall.set, Function.update_of_ne hsame]
      exact A i hi hlive sid hsid

/-- **One call** does what it is meant to exactly when it does not leak. -/
theorem setRights_agree_iff (D : Distinct s) (hc : c.Valid s) (A : Agree s m) :
    Agree (c.exec s) (c.set m) ↔ NoLeak s c := by
  obtain ⟨-, base, hbase⟩ := bogus_eq_false hc.live
  rw [setRights_agree_other D hc A hbase, NoLeak]
  by_cases hodd : c.sid % 2 = 1
  · rw [hodd]
    exact ⟨fun _ => .inl rfl, fun _ => nibble_setNibble_odd ..⟩
  · have heven : c.sid % 2 = 0 := by omega
    have hnext : (c.sid + 1) / 2 = c.sid / 2 := by omega
    have hnext' : (c.sid + 1) % 2 = 1 := by omega
    have hentry : s.entries (pdidx c.domId) (c.sid + 1)
        = nibble (s.rights base (c.sid / 2)) true := by
      simp [entries, hbase, entry, hnext, hnext']
    rw [heven, hentry]
    exact (nibble_setNibble_even_iff _ hc.rights).trans ⟨.inr, fun h => h.resolve_left (by decide)⟩

/-! ## §4. Sequences of calls. -/

/-- The tables hold what was set last, before the calls and after each of them. -/
def Follows (s : Domains) (m : RightsMap) : List SetCall → Prop
  | [] => Agree s m
  | c :: cs => Agree s m ∧ Follows (c.exec s) (c.set m) cs

/-- None of the calls leaks. -/
def NoneLeaks (s : Domains) : List SetCall → Prop
  | [] => True
  | c :: cs => NoLeak s c ∧ NoneLeaks (c.exec s) cs

theorem Follows.agree {cs : List SetCall} (h : Follows s m cs) : Agree s m := by
  cases cs with
  | nil => exact h
  | cons c cs => exact h.1

theorem SetCall.Valid.exec {c' : SetCall} (hc : c.Valid s) : c.Valid (c'.exec s) where
  live := by
    have htbl := (@setRights_tables s c'.domId c'.sid c'.rights).2.1
    rw [bogus, SetCall.exec, htbl]
    exact hc.live
  sid := hc.sid
  rights := hc.rights

theorem Distinct.exec (D : Distinct s) : Distinct (c.exec s) := by
  intro i hi j hj base
  rw [SetCall.exec, (setRights_tables c.domId c.sid c.rights).2.1]
  exact D i hi j hj base

theorem follows_iff (D : Distinct s) (A : Agree s m) {cs : List SetCall}
    (hcs : ∀ c ∈ cs, c.Valid s) : Follows s m cs ↔ NoneLeaks s cs := by
  induction cs generalizing s m with
  | nil => exact ⟨fun _ => trivial, fun _ => A⟩
  | cons c cs ih =>
      obtain ⟨hc, hcs⟩ := List.forall_mem_cons.mp hcs
      have hstep := setRights_agree_iff D hc A
      have hrest : ∀ c' ∈ cs, c'.Valid (c.exec s) := fun c' hc' => (hcs c' hc').exec
      constructor
      · rintro ⟨-, h⟩
        exact ⟨hstep.mp h.agree, (ih D.exec h.agree hrest).mp h⟩
      · rintro ⟨h, h'⟩
        exact ⟨A, (ih D.exec (hstep.mpr h) hrest).mpr h'⟩

/-- The domains of a run have tables of their own. -/
theorem distinct_of_run {w : World} (h : DomainRun Creates w) :
    w.s.nextPdidx < pdidxMax ∧ Distinct w.s := by
  induction h with
  | init => exact ⟨by decide, fun i _ j _ base h => nomatch h⟩
  | @step w w' c _ hc hstep ih =>
      obtain ⟨hnext, D⟩ := ih
      cases c with
      | create stretch base =>
          obtain ⟨i, hi, -, heq⟩ := createDomain_spec hnext hc.1 stretch base
          rw [hstep, Option.some_inj] at heq
          subst heq
          refine ⟨Nat.mod_lt _ (by decide), fun j hj k hk b hbj hbk => ?_⟩
          have hold : ∀ l < pdidxMax, l ≠ i →
              Function.update w.s.pdomTbl i (some base) l ≠ some base := by
            intro l hl hne
            rw [Function.update_of_ne hne]
            exact hc.2 l hl
          by_cases hji : j = i
          · by_cases hki : k = i
            · rw [hji, hki]
            · rw [hji] at hbj
              simp only [Function.update_self, Option.some_inj] at hbj
              exact absurd (hbj ▸ hbk) (hold k hk hki)
          · by_cases hki : k = i
            · rw [hki] at hbk
              simp only [Function.update_self, Option.some_inj] at hbk
              exact absurd (hbk ▸ hbj) (hold j hj hji)
            · simp only [Function.update_of_ne hji, Function.update_of_ne hki] at hbj hbk
              exact D j hj k hk b hbj hbk
      | use d u =>
          cases hstep
          rw [World.use_s, use_nextPdidx]
          exact ⟨hnext, fun i hi j hj b hbi hbj =>
            D i hi j hj b (use_pdomTbl_some hbi) (use_pdomTbl_some hbj)⟩

/-- **The rights tables are a map** from domain and stretch to rights, through a sequence
of calls of `set_rights` on the live domains of any run, exactly when none of the calls
leaks. -/
theorem rights_table_is_map_iff {w : World} (hrun : DomainRun Creates w) {cs : List SetCall}
    (hcs : ∀ c ∈ cs, c.Valid w.s) : Follows w.s w.s.entries cs ↔ NoneLeaks w.s cs :=
  follows_iff (distinct_of_run hrun).2 (fun _ _ _ _ _ => rfl) hcs

/-- The rights `read`, `write` and `meta` for an even and an odd stretch. -/
theorem rights_table_is_map_default :
    ∃ w, DomainRun Creates w ∧
      Follows w.s w.s.entries [⟨0x10000#32, 4, 0xb#32⟩, ⟨0x10000#32, 5, 0xb#32⟩] := by
  obtain ⟨w, hw⟩ := exists_retained 0
  have hvalid : ∀ sid < sidMax, SetCall.Valid w.s ⟨0x10000#32, sid, 0xb#32⟩ := fun sid h =>
    ⟨hw.bogus, h, show (0xb#32).toNat < 2 ^ 5 by decide⟩
  refine ⟨w, hw.run, (rights_table_is_map_iff hw.run ?_).mpr ⟨.inr (.inl rfl), .inl rfl, trivial⟩⟩
  exact List.forall_mem_cons.mpr ⟨hvalid 4 (by decide),
    List.forall_mem_singleton.mpr (hvalid 5 (by decide))⟩

/-- **Setting `global` for an even stretch gives `read` to the next one.** -/
theorem set_rights_leaks :
    ¬ ∀ w, DomainRun Creates w → ∀ cs, (∀ c ∈ cs, SetCall.Valid w.s c) →
      Follows w.s w.s.entries cs := by
  intro h
  have hcreate := step_create_next (w := World.init) rfl (by decide) 0 0
  have hrun := DomainRun.step .init
    (show Creates .init (.create 0 0) from ⟨by decide, fun _ _ => nofun⟩) hcreate
  obtain ⟨w, hrun, hb, hread⟩ : ∃ w, DomainRun Creates w ∧ w.s.bogus 0x10000#32 = false ∧
      (w.s.entries (pdidx 0x10000#32) 1).getLsbD 0 = false := ⟨_, hrun, by decide, by decide⟩
  have hcs : ∀ c ∈ [(⟨0x10000#32, 0, 0x10#32⟩ : SetCall)], c.Valid w.s :=
    List.forall_mem_singleton.mpr ⟨hb, by decide, show (0x10#32).toNat < 2 ^ 5 by decide⟩
  have hleaks := (follows_iff (distinct_of_run hrun).2 (fun _ _ _ _ _ => rfl) hcs).mp
    (h w hrun _ hcs)
  rcases hleaks.1 with hodd | hglobal | hread'
  · exact absurd hodd (by decide)
  · exact absurd hglobal (by decide)
  · rw [hread] at hread'
    cases hread'

end Metta.MmuMod
