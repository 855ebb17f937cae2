/-
  Metta.MmuMod.DomainRuns — runs of the calls on protection domains.

  A run keeps the history that the tables do not: the id that each domain in
  a slot was created with, how often it was retained and released, and the
  ids of the domains that are destroyed.

    • `use_same_iff` — when a call leaves every domain as it is,
    • `stale_ids_along_runs` — so for an id whose domain is destroyed,
    • `World.Inv`, `step_inv` — what runs keep,
    • `domain_life_cycle_along_runs` — ids and lifetimes.
-/
import Metta.MmuMod.Domains

namespace Metta.MmuMod

open Domains

/-! ## §1. Histories. -/

/-- The domains with their history: `owner i` is the id of the domain in slot `i`. -/
structure World where
  s : Domains
  owner : Nat → Option Pdid
  retained : Nat → Nat
  released : Nat → Nat
  dead : List Pdid

namespace World

def init : World := ⟨.init, fun _ => none, fun _ => 0, fun _ => 0, []⟩

/-- A call with an id, in the history.  A domain is retained and released by the calls
with its own id. -/
def use (w : World) (d : Pdid) (u : Use) : World :=
  let i := pdidx d
  let w' := { w with s := w.s.use d u }
  if w.s.bogus d then w
  else
    match u with
    | .retain =>
        if w.owner i = some d then
          { w' with retained := Function.update w.retained i (w.retained i + 1) }
        else w'
    | .release =>
        let w' :=
          if w.owner i = some d then
            { w' with released := Function.update w.released i (w.released i + 1) }
          else w'
        if w'.s.pdomTbl i = none then
          { w' with owner := Function.update w.owner i none, dead := (w.owner i).toList ++ w.dead }
        else w'
    | .setRights _ _ => w'

/-- A call; `create_domain` with every slot in use does not return. -/
def step (w : World) : DomainCall → Option World
  | .create stretch base =>
      (w.s.createDomain stretch base).map fun (d, s) =>
        { w with
          s := s
          owner := Function.update w.owner (pdidx d) (some d)
          retained := Function.update w.retained (pdidx d) 0
          released := Function.update w.released (pdidx d) 0 }
  | .use d u => some (w.use d u)

end World

/-- How many domains are alive. -/
def Domains.alive (s : Domains) : Nat := (List.range pdidxMax).countP fun i => (s.pdomTbl i).isSome

/-- What the callers of `create_domain` see to: there is a free slot, and the rights
table is in no other domain's stretch. -/
def Creates (w : World) : DomainCall → Prop
  | .create _ base => w.s.alive < pdidxMax ∧ ∀ i < pdidxMax, w.s.pdomTbl i ≠ some base
  | .use _ _ => True

/-- Runs whose calls meet `ok`. -/
inductive DomainRun (ok : World → DomainCall → Prop) : World → Prop
  | init : DomainRun ok .init
  | step {w w' : World} {c : DomainCall} :
      DomainRun ok w → ok w c → w.step c = some w' → DomainRun ok w'

/-! ## §2. Stale ids. -/

/-- Every domain is as it was: alive or not, with its reference count and rights. -/
def Same (s s' : Domains) : Prop :=
  ∀ i < pdidxMax, s'.pdomTbl i = s.pdomTbl i ∧ (s'.pdominfo i).refcnt = (s.pdominfo i).refcnt ∧
    ∀ base, s.pdomTbl i = some base → s'.rights base = s.rights base

/-- The slot of an id is free; or the call sets rights that the table of the slot's
domain has already. -/
def Harmless (s : Domains) (d : Pdid) : Use → Prop
  | .retain => s.bogus d = true
  | .release => s.bogus d = true
  | .setRights sid rights =>
      s.bogus d = true ∨ ∃ base, s.pdomTbl (pdidx d) = some base ∧
        setNibble (s.rights base (sid / 2)) (sid % 2 == 1) rights = s.rights base (sid / 2)

theorem Same.refl (s : Domains) : Same s s := fun _ _ => ⟨rfl, rfl, fun _ _ => rfl⟩

variable {s : Domains} {d : Pdid}

theorem bogus_eq_false (h : s.bogus d = false) :
    pdidx d < pdidxMax ∧ ∃ base, s.pdomTbl (pdidx d) = some base := by
  simp only [bogus, Bool.or_eq_false_iff, decide_eq_false_iff_not, not_le,
    Option.isNone_eq_false_iff] at h
  exact ⟨h.1, Option.isSome_iff_exists.mp h.2⟩

theorem use_bogus (h : s.bogus d = true) (u : Use) : s.use d u = s := by
  cases u with
  | retain => simp [Domains.use, retainDomain, h]
  | release => simp [Domains.use, releaseDomain, h]
  | setRights sid rights => simp [Domains.use, setRights, h]

@[simp]
theorem setRefcnt_self (i : Nat) (r : BitVec 16) : ((s.setRefcnt i r).pdominfo i).refcnt = r := by
  simp [setRefcnt]

theorem setRefcnt_of_ne {i j : Nat} (hj : j ≠ i) (r : BitVec 16) :
    (s.setRefcnt i r).pdominfo j = s.pdominfo j := Function.update_of_ne hj ..

@[simp]
theorem setRefcnt_gen (i j : Nat) (r : BitVec 16) :
    ((s.setRefcnt i r).pdominfo j).gen = (s.pdominfo j).gen := by
  by_cases hj : j = i
  · simp [hj, setRefcnt]
  · rw [setRefcnt_of_ne hj]

/-- What `release_domain` does to a slot that is in use. -/
theorem releaseDomain_eq (h : s.bogus d = false) :
    s.releaseDomain d =
      if (s.pdominfo (pdidx d)).refcnt = 0 then
        { s with pdomTbl := Function.update s.pdomTbl (pdidx d) none }
      else if (s.pdominfo (pdidx d)).refcnt = 1 then
        { s.setRefcnt (pdidx d) 0 with pdomTbl := Function.update s.pdomTbl (pdidx d) none }
      else s.setRefcnt (pdidx d) ((s.pdominfo (pdidx d)).refcnt - 1) := by
  simp only [releaseDomain, h, Bool.false_eq_true, if_false]
  by_cases h0 : (s.pdominfo (pdidx d)).refcnt = 0
  · rw [if_neg (not_not.mpr h0), if_pos h0, if_pos h0]
  · rw [if_pos h0, if_neg h0, setRefcnt_self]
    by_cases h1 : (s.pdominfo (pdidx d)).refcnt = 1
    · rw [if_pos h1, h1, if_pos (by decide)]
      rfl
    · rw [if_neg h1, if_neg fun h' => h1 (by grind)]

/-- **When a call leaves every domain as it is.** -/
theorem use_same_iff (u : Use) : Same s (s.use d u) ↔ Harmless s d u := by
  by_cases hb : s.bogus d = true
  · rw [use_bogus hb]
    refine ⟨fun _ => ?_, fun _ => .refl s⟩
    cases u with
    | retain => exact hb
    | release => exact hb
    | setRights sid rights => exact .inl hb
  · have hfalse : s.bogus d = false := by simpa using hb
    obtain ⟨hlt, base, hbase⟩ := bogus_eq_false hfalse
    cases u with
    | retain =>
        -- the count of a slot in use always changes
        refine ⟨fun h => ?_, fun h => absurd h hb⟩
        have hcount := (h (pdidx d) hlt).2.1
        simp only [Domains.use, retainDomain, hfalse, setRefcnt, Bool.false_eq_true, if_false,
          Function.update_self] at hcount
        exact absurd hcount (by grind)
    | release =>
        refine ⟨fun h => ?_, fun h => absurd h hb⟩
        obtain ⟨htbl, hcount, -⟩ := h (pdidx d) hlt
        rw [Domains.use, releaseDomain_eq hfalse] at htbl hcount
        split_ifs at htbl hcount with h0 h1
        · simp [hbase] at htbl
        · simp [hbase] at htbl
        · simp only [setRefcnt, Function.update_self] at hcount
          exact absurd hcount (by grind)
    | setRights sid rights =>
        have heq : s.setRights d sid rights = { s with
            rights := Function.update s.rights base (Function.update (s.rights base) (sid / 2)
              (setNibble (s.rights base (sid / 2)) (sid % 2 == 1) rights)) } := by
          simp [setRights, hfalse, hbase]
        constructor
        · intro h
          have hsame := (h (pdidx d) hlt).2.2 base hbase
          rw [Domains.use, heq] at hsame
          have hbyte := congrFun hsame (sid / 2)
          simp only [Function.update_self] at hbyte
          exact .inr ⟨base, hbase, hbyte⟩
        · rintro (h | ⟨base', hbase', hbyte⟩)
          · exact absurd h hb
          · rw [hbase] at hbase'
            cases hbase'
            rw [Domains.use, heq, hbyte, Function.update_eq_self, Function.update_eq_self]
            exact .refl s

/-- A call with the id of a domain that was destroyed. -/
def Stale (w : World) : DomainCall → Prop
  | .create _ _ => False
  | .use d _ => d ∈ w.dead

/-- A stale call that leaves every domain as it is. -/
def StaleHarmless (w : World) : DomainCall → Prop
  | .create _ _ => True
  | .use d u => d ∈ w.dead → Harmless w.s d u

/-- A harmless call changes nothing at all. -/
theorem World.use_of_harmless {w : World} {u : Use} (h : Harmless w.s d u) : w.use d u = w := by
  by_cases hb : w.s.bogus d = true
  · simp [World.use, hb]
  · cases u with
    | retain => exact absurd h hb
    | release => exact absurd h hb
    | setRights sid rights =>
        obtain ⟨base, hbase, hbyte⟩ := h.resolve_left hb
        simp [World.use, Domains.use, setRights, hb, hbase, hbyte, Function.update_eq_self]

/-- The slots: occupied ones have an owner with that slot in its id. -/
structure Slots (w : World) : Prop where
  next : w.s.nextPdidx < pdidxMax
  owned : ∀ i, (w.s.pdomTbl i).isSome = (w.owner i).isSome
  index : ∀ i d, w.owner i = some d → i < pdidxMax ∧
    d = ((w.s.pdominfo i).gen.setWidth 32 <<< 16 ||| BitVec.ofNat 32 i)

theorem pdidx_of_slot (gen : BitVec 16) {i : Nat} (hi : i < pdidxMax) :
    pdidx (gen.setWidth 32 <<< 16 ||| BitVec.ofNat 32 i) = i := by
  simp only [pdidxMax] at hi
  have hlow : ((gen.setWidth 32 <<< 16 ||| BitVec.ofNat 32 i) &&& 0xffff#32) = BitVec.ofNat 32 i := by
    apply BitVec.eq_of_getLsbD_eq
    intro j hj
    have hmask : (0xffff#32).getLsbD j = decide (j < 16) := by interval_cases j <;> rfl
    simp only [BitVec.getLsbD_and, BitVec.getLsbD_or, BitVec.getLsbD_shiftLeft, hmask,
      BitVec.getLsbD_ofNat]
    by_cases h : j < 16
    · simp [h]
    · have hhigh : i.testBit j = false := by
        apply Nat.testBit_lt_two_pow
        calc i < 2 ^ 16 := by omega
          _ ≤ 2 ^ j := Nat.pow_le_pow_right (by decide) (by omega)
      simp [h, hhigh]
  rw [pdidx, hlow, BitVec.toNat_ofNat]
  omega

/-! ## §3. Free slots. -/

theorem allocFrom_some {n i j : Nat} (h : s.allocFrom n i = some j) (hi : i < pdidxMax) :
    s.pdomTbl j = none ∧ j < pdidxMax := by
  induction n generalizing i with
  | zero => cases h
  | succ n ih =>
      simp only [allocFrom] at h
      split_ifs at h with hfree hround
      · cases h
        exact ⟨hfree, hi⟩
      · exact ih h (Nat.mod_lt _ (by decide))

/-- The search goes through all the slots. -/
theorem allocFrom_none {n k : Nat} (hnk : n + k = pdidxMax)
    (h : s.allocFrom n ((s.nextPdidx + k) % pdidxMax) = none) :
    ∀ j, k ≤ j → j < pdidxMax → s.pdomTbl ((s.nextPdidx + j) % pdidxMax) ≠ none := by
  induction n generalizing k with
  | zero =>
      intro j hkj hj
      omega
  | succ n ih =>
      simp only [allocFrom] at h
      have hsucc : ((s.nextPdidx + k) % pdidxMax + 1) % pdidxMax
          = (s.nextPdidx + (k + 1)) % pdidxMax := by
        rw [Nat.mod_add_mod, Nat.add_assoc]
      rw [hsucc] at h
      split_ifs at h with hfree hround
      · -- back where it started: this was the last slot
        intro j hkj hj
        have hk : k = j := by
          simp only [pdidxMax] at *
          omega
        rw [← hk]
        exact hfree
      · intro j hkj hj
        rcases Nat.eq_or_lt_of_le hkj with rfl | hlt
        · exact hfree
        · exact ih (by omega) h j hlt hj

/-- **A free slot is found** when there is one. -/
theorem allocPdidx_of_alive (hnext : s.nextPdidx < pdidxMax) (hfree : s.alive < pdidxMax) :
    ∃ i, s.allocPdidx = some (i, { s with nextPdidx := (i + 1) % pdidxMax }) ∧
      s.pdomTbl i = none ∧ i < pdidxMax := by
  cases h : s.allocFrom pdidxMax s.nextPdidx with
  | some i =>
      obtain ⟨h1, h2⟩ := allocFrom_some h hnext
      exact ⟨i, by rw [allocPdidx, h]; rfl, h1, h2⟩
  | none =>
      have hstart : (s.nextPdidx + 0) % pdidxMax = s.nextPdidx := Nat.mod_eq_of_lt hnext
      have hall := allocFrom_none (n := pdidxMax) (k := 0) rfl (by rw [hstart]; exact h)
      have hfull : s.alive = (List.range pdidxMax).length := by
        refine List.countP_eq_length.mpr fun i hi => ?_
        have hi : i < pdidxMax := List.mem_range.mp hi
        have hne := hall ((i + pdidxMax - s.nextPdidx) % pdidxMax) (Nat.zero_le _)
          (Nat.mod_lt _ (by decide))
        have hidx : (s.nextPdidx + (i + pdidxMax - s.nextPdidx) % pdidxMax) % pdidxMax = i := by
          simp only [pdidxMax] at *
          omega
        rw [hidx] at hne
        exact Option.isSome_iff_ne_none.mpr hne
      rw [hfull, List.length_range] at hfree
      exact absurd hfree (lt_irrefl _)

/-! ## §4. Life cycles. -/

/-- The generation in an id is that of its slot. -/
def Domains.Current (s : Domains) (d : Pdid) : Prop :=
  (d >>> 16).setWidth 16 = (s.pdominfo (pdidx d)).gen

/-- The calls that keep count: `retain_domain` and `release_domain` with an id that is
bogus or current, and no `retain_domain` of a domain whose count is at its limit. -/
def Proper (w : World) : DomainCall → Prop
  | .create stretch base => Creates w (.create stretch base)
  | .use d .retain =>
      w.s.bogus d = true ∨ (w.s.Current d ∧ (w.s.pdominfo (pdidx d)).refcnt ≠ 0xffff#16)
  | .use d .release => w.s.bogus d = true ∨ w.s.Current d
  | .use _ (.setRights _ _) => True

/-- The reference count of each domain is what its history tells, and it is alive. -/
structure World.Inv (w : World) : Prop extends Slots w where
  count : ∀ i d, w.owner i = some d →
    (w.s.pdominfo i).refcnt.toNat + w.released i = w.retained i ∧
      (w.retained i = 0 ∨ w.released i < w.retained i)

variable {w w' : World}

theorem World.init_inv : World.init.Inv where
  next := by decide
  owned _ := rfl
  index _ _ h := nomatch h
  count _ _ h := nomatch h

theorem pdid_split (d : Pdid) :
    d = (((d >>> 16).setWidth 16).setWidth 32 <<< 16 ||| BitVec.ofNat 32 (pdidx d)) := by
  apply BitVec.eq_of_getLsbD_eq
  intro j hj
  have hmask : (0xffff#32).getLsbD j = decide (j < 16) := by interval_cases j <;> rfl
  rw [pdidx, BitVec.ofNat_toNat, BitVec.setWidth_eq]
  simp only [BitVec.getLsbD_and, BitVec.getLsbD_or, BitVec.getLsbD_shiftLeft, hmask,
    BitVec.getLsbD_setWidth, BitVec.getLsbD_ushiftRight]
  by_cases h : j < 16
  · simp [h]
  · have hj' : 16 + (j - 16) = j := by omega
    simp [h, hj, hj', show j - 16 < 32 by omega, show j - 16 < 16 by omega]

theorem owner_of_current (S : Slots w) (hb : w.s.bogus d = false) (hcur : w.s.Current d) :
    w.owner (pdidx d) = some d := by
  obtain ⟨hlt, base, hbase⟩ := bogus_eq_false hb
  have hsome := S.owned (pdidx d)
  rw [hbase] at hsome
  obtain ⟨e, he⟩ := Option.isSome_iff_exists.mp hsome.symm
  rw [he, (S.index _ _ he).2, ← hcur, ← pdid_split]

/-- Calls with a bogus id leave the history as it is. -/
theorem World.use_bogus (h : w.s.bogus d = true) (u : Use) : w.use d u = w := by
  simp [World.use, h]

theorem createDomain_spec (hnext : w.s.nextPdidx < pdidxMax) (hfree : w.s.alive < pdidxMax) (stretch base : Nat) :
    ∃ i, i < pdidxMax ∧ w.s.pdomTbl i = none ∧
      w.step (.create stretch base) = some
        { s :=
            { nextPdidx := (i + 1) % pdidxMax
              pdomTbl := Function.update w.s.pdomTbl i (some base)
              pdominfo := Function.update w.s.pdominfo i
                ⟨0, (w.s.pdominfo i).gen + 1, some stretch⟩
              rights := Function.update w.s.rights base fun _ => 0 }
          owner := Function.update w.owner i
            (some (((w.s.pdominfo i).gen + 1).setWidth 32 <<< 16 ||| BitVec.ofNat 32 i))
          retained := Function.update w.retained i 0
          released := Function.update w.released i 0
          dead := w.dead } := by
  obtain ⟨i, halloc, hnone, hi⟩ := allocPdidx_of_alive hnext hfree
  refine ⟨i, hi, hnone, ?_⟩
  have hidx := pdidx_of_slot ((w.s.pdominfo i).gen + 1) hi
  simp only [World.step, createDomain, halloc, Option.map_some, hidx]

/-- The count of slot `i` and its history change; the rest stays. -/
theorem World.Inv.recount {i : Nat} {refcnt : BitVec 16} {ret rel : Nat} (I : w.Inv)
    (hs : w'.s = w.s.setRefcnt i refcnt)
    (howner : w'.owner = w.owner) (hret : w'.retained = Function.update w.retained i ret)
    (hrel : w'.released = Function.update w.released i rel)
    (hcount : refcnt.toNat + rel = ret ∧ (ret = 0 ∨ rel < ret)) : w'.Inv := by
  refine ⟨⟨?_, ?_, ?_⟩, ?_⟩
  · rw [hs]
    exact I.next
  · intro j
    rw [howner, hs]
    exact I.owned j
  · intro j e he
    rw [howner] at he
    rw [hs, setRefcnt_gen]
    exact I.index j e he
  · intro j e he
    rw [howner] at he
    rw [hs, hret, hrel]
    by_cases hj : j = i
    · rw [hj, setRefcnt_self, Function.update_self, Function.update_self]
      exact hcount
    · rw [setRefcnt_of_ne hj, Function.update_of_ne hj, Function.update_of_ne hj]
      exact I.count j e he

/-- The slot `i` becomes free. -/
theorem World.Inv.free {i : Nat} (I : w.Inv) (hnext : w'.s.nextPdidx = w.s.nextPdidx)
    (htbl : w'.s.pdomTbl = Function.update w.s.pdomTbl i none)
    (howner : w'.owner = Function.update w.owner i none)
    (hinfo : ∀ j ≠ i, w'.s.pdominfo j = w.s.pdominfo j ∧ w'.retained j = w.retained j ∧
      w'.released j = w.released j) : w'.Inv := by
  have hother : ∀ j e, w'.owner j = some e → j ≠ i ∧ w.owner j = some e := by
    intro j e he
    rw [howner] at he
    by_cases hj : j = i
    · rw [hj, Function.update_self] at he
      cases he
    · rw [Function.update_of_ne hj] at he
      exact ⟨hj, he⟩
  refine ⟨⟨by rw [hnext]; exact I.next, fun j => ?_, fun j e he => ?_⟩, fun j e he => ?_⟩
  · rw [htbl, howner]
    by_cases hj : j = i
    · rw [hj, Function.update_self, Function.update_self]
      rfl
    · rw [Function.update_of_ne hj, Function.update_of_ne hj]
      exact I.owned j
  · obtain ⟨hj, he⟩ := hother j e he
    rw [(hinfo j hj).1]
    exact I.index j e he
  · obtain ⟨hj, he⟩ := hother j e he
    obtain ⟨h1, h2, h3⟩ := hinfo j hj
    rw [h1, h2, h3]
    exact I.count j e he

theorem World.Inv.create (I : w.Inv) {stretch base : Nat} (hfree : w.s.alive < pdidxMax)
    (h : w.step (.create stretch base) = some w') : w'.Inv := by
  obtain ⟨i, hi, hnone, heq⟩ := createDomain_spec I.next hfree stretch base
  rw [h, Option.some_inj] at heq
  subst heq
  refine ⟨⟨Nat.mod_lt _ (by decide), fun j => ?_, fun j e he => ?_⟩, fun j e he => ?_⟩
  · by_cases hj : j = i
    · simp [hj]
    · simp only [Function.update_of_ne hj]
      exact I.owned j
  · by_cases hj : j = i
    · subst hj
      simp only [Function.update_self, Option.some_inj] at he ⊢
      exact ⟨hi, he.symm⟩
    · simp only [Function.update_of_ne hj] at he ⊢
      exact I.index j e he
  · by_cases hj : j = i
    · subst hj
      simp
    · simp only [Function.update_of_ne hj] at he ⊢
      exact I.count j e he

/-- `retain_domain` of a domain by its id. -/
theorem World.Inv.retain (I : w.Inv) (hb : w.s.bogus d = false) (ho : w.owner (pdidx d) = some d)
    (hmax : (w.s.pdominfo (pdidx d)).refcnt ≠ 0xffff#16) : (w.use d .retain).Inv := by
  obtain ⟨hsum, halive⟩ := I.count _ _ ho
  have hlt := (w.s.pdominfo (pdidx d)).refcnt.isLt
  have hne : (w.s.pdominfo (pdidx d)).refcnt.toNat ≠ 0xffff := fun h =>
    hmax (BitVec.eq_of_toNat_eq h)
  have hadd : ((w.s.pdominfo (pdidx d)).refcnt + 1).toNat
      = (w.s.pdominfo (pdidx d)).refcnt.toNat + 1 := by
    rw [BitVec.toNat_add]
    exact Nat.mod_eq_of_lt (by show _ + 1 < 2 ^ 16; omega)
  have heq : w.use d .retain = { w with
      s := w.s.setRefcnt (pdidx d) ((w.s.pdominfo (pdidx d)).refcnt + 1)
      retained := Function.update w.retained (pdidx d) (w.retained (pdidx d) + 1) } := by
    simp [World.use, Domains.use, retainDomain, hb, ho]
  rw [heq]
  refine I.recount rfl rfl rfl (Function.update_eq_self (pdidx d) w.released).symm ⟨?_, ?_⟩
  · rw [hadd]
    omega
  · omega

/-- What `release_domain` does to the history of a domain, by its id. -/
theorem World.use_release (hb : w.s.bogus d = false) (ho : w.owner (pdidx d) = some d) :
    w.use d .release =
      if (w.s.pdominfo (pdidx d)).refcnt = 0 ∨ (w.s.pdominfo (pdidx d)).refcnt = 1 then
        { w with
          s := { w.s.setRefcnt (pdidx d) 0 with
                 pdomTbl := Function.update w.s.pdomTbl (pdidx d) none }
          owner := Function.update w.owner (pdidx d) none
          released := Function.update w.released (pdidx d) (w.released (pdidx d) + 1)
          dead := d :: w.dead }
      else
        { w with
          s := w.s.setRefcnt (pdidx d) ((w.s.pdominfo (pdidx d)).refcnt - 1)
          released := Function.update w.released (pdidx d) (w.released (pdidx d) + 1) } := by
  obtain ⟨-, base, hbase⟩ := bogus_eq_false hb
  by_cases h0 : (w.s.pdominfo (pdidx d)).refcnt = 0
  · have hsame : w.s.setRefcnt (pdidx d) 0 = w.s := by
      rw [setRefcnt, ← h0, Function.update_eq_self]
    rw [if_pos (.inl h0), hsame]
    have hrel : w.s.releaseDomain d
        = { w.s with pdomTbl := Function.update w.s.pdomTbl (pdidx d) none } := by
      rw [releaseDomain_eq hb, if_pos h0]
    simp [World.use, Domains.use, hrel, ho, hb]
  · by_cases h1 : (w.s.pdominfo (pdidx d)).refcnt = 1
    · rw [if_pos (.inr h1)]
      have hrel := releaseDomain_eq hb
      rw [if_neg h0, if_pos h1] at hrel
      simp [World.use, Domains.use, hrel, ho, hb]
    · rw [if_neg (not_or.mpr ⟨h0, h1⟩)]
      have hrel := releaseDomain_eq hb
      rw [if_neg h0, if_neg h1] at hrel
      have hsome : ¬ (w.s.setRefcnt (pdidx d)
          ((w.s.pdominfo (pdidx d)).refcnt - 1)).pdomTbl (pdidx d) = none :=
        fun h => by simp [setRefcnt, hbase] at h
      simp only [World.use, Domains.use, hb, Bool.false_eq_true, if_false, ho, if_true, hrel,
        if_neg hsome]

/-- The count is at most 1 when this is the last release. -/
theorem World.Inv.last_release_iff (I : w.Inv) {i : Nat} (ho : w.owner i = some d) :
    (w.s.pdominfo i).refcnt = 0 ∨ (w.s.pdominfo i).refcnt = 1 ↔
      w.released i + 1 = max 1 (w.retained i) := by
  obtain ⟨hsum, halive⟩ := I.count _ _ ho
  have hzero : (w.s.pdominfo i).refcnt = 0 ↔ (w.s.pdominfo i).refcnt.toNat = 0 :=
    ⟨fun h => by rw [h]; rfl, fun h => BitVec.eq_of_toNat_eq h⟩
  have hone : (w.s.pdominfo i).refcnt = 1 ↔ (w.s.pdominfo i).refcnt.toNat = 1 :=
    ⟨fun h => by rw [h]; rfl, fun h => BitVec.eq_of_toNat_eq h⟩
  rw [hzero, hone]
  omega

theorem World.Inv.release (I : w.Inv) (hb : w.s.bogus d = false)
    (ho : w.owner (pdidx d) = some d) : (w.use d .release).Inv := by
  rw [World.use_release hb ho]
  split_ifs with hlast
  · refine I.free (i := pdidx d) rfl rfl rfl fun j hj => ⟨setRefcnt_of_ne hj _, rfl, ?_⟩
    exact Function.update_of_ne hj ..
  · obtain ⟨hsum, halive⟩ := I.count _ _ ho
    rw [I.last_release_iff ho] at hlast
    have hsub : ((w.s.pdominfo (pdidx d)).refcnt - 1).toNat
        = (w.s.pdominfo (pdidx d)).refcnt.toNat - 1 := by
      rw [BitVec.toNat_sub_of_le]
      · rfl
      · rw [BitVec.le_def]
        show 1 ≤ _
        omega
    refine I.recount rfl rfl (Function.update_eq_self (pdidx d) w.retained).symm rfl ⟨?_, ?_⟩
    · rw [hsub]
      omega
    · omega

/-- A call of `set_rights` leaves the slots and counts alone. -/
theorem setRights_tables (d : Pdid) (sid : Nat) (rights : BitVec 32) :
    (s.setRights d sid rights).nextPdidx = s.nextPdidx ∧
      (s.setRights d sid rights).pdomTbl = s.pdomTbl ∧
      (s.setRights d sid rights).pdominfo = s.pdominfo := by
  rw [setRights]
  split
  · exact ⟨rfl, rfl, rfl⟩
  · split <;> exact ⟨rfl, rfl, rfl⟩

theorem World.Inv.setRights (I : w.Inv) (hb : w.s.bogus d = false) (sid : Nat)
    (rights : BitVec 32) : (w.use d (.setRights sid rights)).Inv := by
  obtain ⟨hnext, htbl, hinfo⟩ := @setRights_tables w.s d sid rights
  have heq : w.use d (.setRights sid rights) = { w with s := w.s.setRights d sid rights } := by
    simp [World.use, Domains.use, hb]
  rw [heq]
  refine ⟨⟨?_, fun i => ?_, fun i e he => ?_⟩, fun i e he => ?_⟩
  · show (w.s.setRights d sid rights).nextPdidx < pdidxMax
    rw [hnext]
    exact I.next
  · show ((w.s.setRights d sid rights).pdomTbl i).isSome = _
    rw [htbl]
    exact I.owned i
  · show i < pdidxMax ∧ e = (((w.s.setRights d sid rights).pdominfo i).gen.setWidth 32 <<< 16 |||
      BitVec.ofNat 32 i)
    rw [hinfo]
    exact I.index i e he
  · show ((w.s.setRights d sid rights).pdominfo i).refcnt.toNat + w.released i = _ ∧ _
    rw [hinfo]
    exact I.count i e he

/-- **Every proper call keeps the history and the counts together.** -/
theorem step_inv (I : w.Inv) {c : DomainCall} (hc : Proper w c) (h : w.step c = some w') :
    w'.Inv := by
  cases c with
  | create stretch base => exact I.create hc.1 h
  | use d u =>
      cases h
      by_cases hb : w.s.bogus d = true
      · rw [World.use_bogus hb]
        exact I
      · have hfalse : w.s.bogus d = false := by simpa using hb
        cases u with
        | retain =>
            obtain ⟨hcur, hmax⟩ := hc.resolve_left hb
            exact I.retain hfalse (owner_of_current I.toSlots hfalse hcur) hmax
        | release =>
            exact I.release hfalse (owner_of_current I.toSlots hfalse (hc.resolve_left hb))
        | setRights sid rights => exact I.setRights hfalse sid rights

theorem inv_of_run (h : DomainRun Proper w) : w.Inv := by
  induction h with
  | init => exact World.init_inv
  | step _ hc hstep ih => exact step_inv ih hc hstep

/-- Calls with an id leave the other slots alone. -/
theorem use_pdomTbl_of_ne {i : Nat} (hi : i ≠ pdidx d) (u : Use) :
    (s.use d u).pdomTbl i = s.pdomTbl i := by
  by_cases hb : s.bogus d = true
  · rw [use_bogus hb]
  · have hfalse : s.bogus d = false := by simpa using hb
    cases u with
    | retain => simp [Domains.use, retainDomain, hfalse, setRefcnt]
    | release =>
        rw [Domains.use, releaseDomain_eq hfalse]
        split_ifs
        · exact Function.update_of_ne hi ..
        · exact Function.update_of_ne hi ..
        · rfl
    | setRights sid rights => rw [Domains.use, (setRights_tables d sid rights).2.1]

/-- Calls with an id bring no new table. -/
theorem use_pdomTbl_some {i base : Nat} {u : Use} (h : (s.use d u).pdomTbl i = some base) :
    s.pdomTbl i = some base := by
  by_cases hi : i = pdidx d
  · by_cases hb : s.bogus d = true
    · rwa [use_bogus hb] at h
    · have hfalse : s.bogus d = false := by simpa using hb
      cases u with
      | retain => simpa [Domains.use, retainDomain, hfalse, setRefcnt] using h
      | release =>
          rw [Domains.use, releaseDomain_eq hfalse] at h
          split_ifs at h
          · simp [hi] at h
          · simp [hi] at h
          · exact h
      | setRights sid rights => rwa [Domains.use, (setRights_tables d sid rights).2.1] at h
  · rwa [use_pdomTbl_of_ne hi] at h

theorem use_nextPdidx (d : Pdid) (u : Use) : (s.use d u).nextPdidx = s.nextPdidx := by
  by_cases hb : s.bogus d = true
  · rw [use_bogus hb]
  · have hfalse : s.bogus d = false := by simpa using hb
    cases u with
    | retain => simp [Domains.use, retainDomain, hfalse, setRefcnt]
    | release =>
        rw [Domains.use, releaseDomain_eq hfalse]
        split_ifs <;> rfl
    | setRights sid rights => rw [Domains.use, (setRights_tables d sid rights).1]

theorem World.use_s (w : World) (d : Pdid) (u : Use) : (w.use d u).s = w.s.use d u := by
  by_cases hb : w.s.bogus d = true
  · rw [World.use_bogus hb, Metta.MmuMod.use_bogus hb]
  · simp only [World.use, if_neg hb]
    cases u with
    | retain =>
        dsimp only
        split_ifs <;> rfl
    | release =>
        dsimp only
        split_ifs <;> rfl
    | setRights sid rights => rfl

/-- **A domain goes with its last release**, and with nothing else. -/
theorem destroyed_iff (I : w.Inv) {c : DomainCall} {i : Nat} {e : Pdid} (hc : Proper w c)
    (h : w.step c = some w') (ho : w.owner i = some e) :
    w'.s.pdomTbl i = none ↔
      c = .use e .release ∧ w.released i + 1 = max 1 (w.retained i) := by
  have hsome : w.s.pdomTbl i ≠ none := by
    have hsome := I.owned i
    rw [ho] at hsome
    exact Option.isSome_iff_ne_none.mp hsome
  obtain ⟨hi, hidx⟩ := I.index i e ho
  have hei : pdidx e = i := by
    rw [hidx]
    exact pdidx_of_slot _ hi
  cases c with
  -- a new domain takes a free slot, and this one is not free
  | create stretch base =>
      obtain ⟨j, hj, hnone, heq⟩ := createDomain_spec I.next hc.1 stretch base
      rw [h, Option.some_inj] at heq
      subst heq
      have hij : i ≠ j := fun h' => hsome (h' ▸ hnone)
      simp [Function.update_of_ne hij, hsome]
  | use d u =>
      cases h
      rw [World.use_s]
      by_cases hd : i = pdidx d
      · have hfalse : w.s.bogus d = false := by
          rw [bogus, ← hd]
          simp [Nat.not_le.mpr hi, Option.isSome_iff_ne_none.mpr hsome]
        cases u with
        -- neither of these two frees a slot
        | retain => simp [Domains.use, retainDomain, hfalse, setRefcnt, hsome]
        | setRights sid rights =>
            rw [Domains.use, (setRights_tables d sid rights).2.1]
            simp [hsome]
        -- the last release of the owner, and no other, frees the slot
        | release =>
            have hcur : w.s.Current d := hc.resolve_left (by simp [hfalse])
            have hde : w.owner i = some d := by
              rw [hd]
              exact owner_of_current I.toSlots hfalse hcur
            have hed : d = e := by
              rw [ho, Option.some_inj] at hde
              exact hde.symm
            subst hed
            rw [← I.last_release_iff ho, hd, Domains.use, releaseDomain_eq hfalse]
            have hsome' : w.s.pdomTbl (pdidx d) ≠ none := hd ▸ hsome
            split_ifs with h0 h1
            · simp [h0]
            · simp [h1]
            · exact ⟨fun h' => absurd h' hsome', fun h' => h'.2.elim (absurd · h0) (absurd · h1)⟩
      · -- a call for another slot
        rw [use_pdomTbl_of_ne hd]
        refine ⟨fun h' => absurd h' hsome, ?_⟩
        rintro ⟨h', -⟩
        cases h'
        exact absurd hei.symm hd

/-! ## §5. Runs. -/

/-- **When a dead id does no harm.**  In every state a run comes to, a call with the id
of a destroyed domain leaves all domains as they are exactly when the slot of the id is
free, or the call sets rights that are set already.  A run whose stale calls are all so
comes to the same state without them. -/
theorem stale_ids_along_runs (w : World) :
    (DomainRun Creates w → ∀ d ∈ w.dead, ∀ u, Same w.s (w.s.use d u) ↔ Harmless w.s d u) ∧
    (DomainRun (fun w c => Creates w c ∧ StaleHarmless w c) w →
      DomainRun (fun w c => Creates w c ∧ ¬ Stale w c) w) := by
  refine ⟨fun _ d _ u => use_same_iff u, fun hrun => ?_⟩
  induction hrun with
  | init => exact .init
  | @step w w' c _ hc hstep ih =>
      by_cases hstale : Stale w c
      · -- the call changes nothing: the run without it is there already
        cases c with
        | create stretch base => exact hstale.elim
        | use d u =>
            cases hstep
            rw [World.use_of_harmless (hc.2 hstale)]
            exact ih
      · exact .step ih ⟨hc.1, hstale⟩ hstep

/-- The hint points to a free slot, which is taken. -/
theorem step_create_next (hnone : w.s.pdomTbl w.s.nextPdidx = none)
    (hnext : w.s.nextPdidx < pdidxMax) (stretch base : Nat) :
    w.step (.create stretch base) = some
      { s :=
          { nextPdidx := (w.s.nextPdidx + 1) % pdidxMax
            pdomTbl := Function.update w.s.pdomTbl w.s.nextPdidx (some base)
            pdominfo := Function.update w.s.pdominfo w.s.nextPdidx
              ⟨0, (w.s.pdominfo w.s.nextPdidx).gen + 1, some stretch⟩
            rights := Function.update w.s.rights base fun _ => 0 }
        owner := Function.update w.owner w.s.nextPdidx
          (some (((w.s.pdominfo w.s.nextPdidx).gen + 1).setWidth 32 <<< 16 |||
            BitVec.ofNat 32 w.s.nextPdidx))
        retained := Function.update w.retained w.s.nextPdidx 0
        released := Function.update w.released w.s.nextPdidx 0
        dead := w.dead } := by
  have halloc : w.s.allocPdidx
      = some (w.s.nextPdidx, { w.s with nextPdidx := (w.s.nextPdidx + 1) % pdidxMax }) := by
    have hfrom : w.s.allocFrom pdidxMax w.s.nextPdidx = some w.s.nextPdidx := by
      rw [pdidxMax, allocFrom, if_pos hnone]
    rw [allocPdidx, hfrom]
    rfl
  have hidx := pdidx_of_slot ((w.s.pdominfo w.s.nextPdidx).gen + 1) hnext
  simp only [World.step, createDomain, halloc, Option.map_some, hidx]

/-- A run after which no domain is alive, the one with id `0x10000` is destroyed, and
its slot has not come round again. -/
structure Emptied (w : World) (n : Nat) : Prop where
  run : DomainRun Creates w
  tbl : ∀ i, w.s.pdomTbl i = none
  next : w.s.nextPdidx = n
  dead : 0x10000#32 ∈ w.dead
  gen : (w.s.pdominfo 0).gen = 1#16

theorem alive_of_empty (h : ∀ i, s.pdomTbl i = none) : s.alive < pdidxMax := by
  have hzero : s.alive = 0 := List.countP_eq_zero.mpr fun i _ => by simp [h]
  rw [hzero]
  decide

/-- A domain that is created and released again. -/
theorem create_release (hrun : DomainRun Creates w) (htbl : ∀ i, w.s.pdomTbl i = none)
    (hnext : w.s.nextPdidx < pdidxMax) :
    ∃ w', DomainRun Creates w' ∧ (∀ i, w'.s.pdomTbl i = none) ∧
      w'.s.nextPdidx = (w.s.nextPdidx + 1) % pdidxMax ∧
      w'.dead = (((w.s.pdominfo w.s.nextPdidx).gen + 1).setWidth 32 <<< 16 |||
        BitVec.ofNat 32 w.s.nextPdidx) :: w.dead ∧
      ∀ i, (w'.s.pdominfo i).gen = if i = w.s.nextPdidx then (w.s.pdominfo i).gen + 1
        else (w.s.pdominfo i).gen := by
  -- create and release: the slot is free again, and its generation one higher
  have hcreate := step_create_next (htbl _) hnext 0 0
  have hrun' := DomainRun.step hrun
    (show Creates w (.create 0 0) from ⟨alive_of_empty htbl, fun i _ => by simp [htbl]⟩) hcreate
  generalize hw₁ : World.mk _ _ _ _ _ = w₁ at hrun' hcreate
  generalize hd : (((w.s.pdominfo w.s.nextPdidx).gen + 1).setWidth 32 <<< 16 |||
    BitVec.ofNat 32 w.s.nextPdidx) = d at hw₁ ⊢
  have hidx : pdidx d = w.s.nextPdidx := by
    rw [← hd]
    exact pdidx_of_slot _ hnext
  have hb : w₁.s.bogus d = false := by
    rw [← hw₁, bogus, hidx]
    simp [Nat.not_le.mpr hnext]
  have ho : w₁.owner (pdidx d) = some d := by
    rw [← hw₁, hidx]
    exact Function.update_self ..
  have hzero : (w₁.s.pdominfo (pdidx d)).refcnt = 0 := by
    rw [← hw₁, hidx]
    simp
  have hrelease := World.use_release hb ho
  rw [if_pos (.inl hzero)] at hrelease
  have hrun'' := DomainRun.step hrun' (show Creates w₁ (.use d .release) from trivial) rfl
  rw [hrelease] at hrun''
  refine ⟨_, hrun'', fun i => ?_, ?_, ?_, fun i => ?_⟩
  · show Function.update w₁.s.pdomTbl (pdidx d) none i = none
    rw [hidx, ← hw₁]
    by_cases hi : i = w.s.nextPdidx
    · rw [hi, Function.update_self]
    · simp only [Function.update_of_ne hi]
      exact htbl i
  · show w₁.s.nextPdidx = _
    rw [← hw₁]
  · show d :: w₁.dead = d :: w.dead
    rw [← hw₁]
  · show ((w₁.s.setRefcnt (pdidx d) 0).pdominfo i).gen = _
    rw [setRefcnt_gen, ← hw₁]
    by_cases hi : i = w.s.nextPdidx
    · simp [hi]
    · simp [hi]

theorem exists_emptied (n : Nat) (hn : n < pdidxMax) : ∃ w, Emptied w ((n + 1) % pdidxMax) := by
  induction n with
  | zero =>
      obtain ⟨w, hrun, htbl, hnext, hdead, hgen⟩ :=
        create_release DomainRun.init (fun _ => rfl) (by decide)
      refine ⟨w, hrun, htbl, hnext, ?_, ?_⟩
      · rw [hdead]
        decide
      · rw [hgen]
        decide
  | succ n ih =>
      obtain ⟨w, hw⟩ := ih (by omega)
      have hmod : (n + 1) % pdidxMax = n + 1 := Nat.mod_eq_of_lt hn
      rw [hmod] at hw
      obtain ⟨w', hrun, htbl, hnext, hdead, hgen⟩ :=
        create_release hw.run hw.tbl (by rw [hw.next]; exact hn)
      refine ⟨w', hrun, htbl, by rw [hnext, hw.next], ?_, ?_⟩
      · rw [hdead]
        exact List.mem_cons_of_mem _ hw.dead
      · rw [hgen, if_neg (by rw [hw.next]; omega)]
        exact hw.gen

/-- **A dead id kills another domain**: the slot of `0x10000` is used again, and
releasing the dead id destroys the domain that is in it now. -/
theorem stale_release_destroys :
    ¬ ∀ w, DomainRun Creates w → ∀ d ∈ w.dead, ∀ u, Same w.s (w.s.use d u) := by
  intro h
  obtain ⟨w, hw⟩ := exists_emptied 127 (by decide)
  have hnext : w.s.nextPdidx = 0 := hw.next
  have hcreate := step_create_next (w := w) (hw.tbl _) (by rw [hnext]; decide) 0 0
  have hrun := DomainRun.step hw.run
    (show Creates w (.create 0 0) from ⟨alive_of_empty hw.tbl, fun i _ => by simp [hw.tbl]⟩) hcreate
  have hharmless := (use_same_iff .release).mp (h _ hrun _ hw.dead .release)
  have hidx : pdidx 0x10000#32 = 0 := by decide
  simp [Harmless, bogus, hidx, hnext, pdidxMax] at hharmless

/-- The dead id does no harm while its slot is free. -/
theorem stale_ids_harmless_retain :
    ∃ w, DomainRun Creates w ∧ 0x10000#32 ∈ w.dead ∧
      Same w.s (w.s.use 0x10000#32 .retain) := by
  obtain ⟨w, hw⟩ := exists_emptied 0 (by decide)
  have hbogus : w.s.bogus 0x10000#32 = true := by simp [bogus, hw.tbl]
  exact ⟨w, hw.run, hw.dead, ((stale_ids_along_runs w).1 hw.run _ hw.dead .retain).mpr hbogus⟩

/-- **Life cycle of protection domains.**  In every state that proper calls come to,
domains that are alive have different ids with their slot below the bound, a free slot
is found when there is one, and a domain goes with exactly its last release. -/
theorem domain_life_cycle_along_runs (hrun : DomainRun Proper w) :
    (∀ i j d, w.owner i = some d → w.owner j = some d → i = j) ∧
    (∀ i, (∃ d, w.owner i = some d) ↔ w.s.pdomTbl i ≠ none) ∧
    (∀ i d, w.owner i = some d → pdidx d = i ∧ i < pdidxMax) ∧
    (w.s.alive < pdidxMax → ∃ i s', w.s.allocPdidx = some (i, s') ∧ w.s.pdomTbl i = none ∧
      i < pdidxMax) ∧
    ∀ c w' i d, Proper w c → w.step c = some w' → w.owner i = some d →
      (w'.s.pdomTbl i = none ↔
        c = .use d .release ∧ w.released i + 1 = max 1 (w.retained i)) := by
  have I := inv_of_run hrun
  have hidx : ∀ i d, w.owner i = some d → pdidx d = i ∧ i < pdidxMax := by
    intro i d ho
    obtain ⟨hi, heq⟩ := I.index i d ho
    refine ⟨?_, hi⟩
    rw [heq]
    exact pdidx_of_slot _ hi
  refine ⟨fun i j d hi hj => ?_, fun i => ?_, hidx, fun hfree => ?_, fun c w' i d hc h ho => ?_⟩
  · rw [← (hidx i d hi).1, ← (hidx j d hj).1]
  · rw [← Option.isSome_iff_ne_none, I.owned i, Option.isSome_iff_exists]
  · obtain ⟨i, h1, h2, h3⟩ := allocPdidx_of_alive I.next hfree
    exact ⟨i, _, h1, h2, h3⟩
  · exact destroyed_iff I hc h ho

/-- The first domain after `n` calls of `retain_domain`. -/
structure Retained (ok : World → DomainCall → Prop) (w : World) (n : Nat) : Prop where
  run : DomainRun ok w
  owner : w.owner 0 = some 0x10000#32
  bogus : w.s.bogus 0x10000#32 = false
  count : (w.s.pdominfo 0).refcnt = BitVec.ofNat 16 n
  retained : w.retained 0 = n
  released : w.released 0 = 0

theorem exists_created (ok : World → DomainCall → Prop) (hok : ok .init (.create 0 0)) :
    ∃ w, Retained ok w 0 ∧ w.s.Current 0x10000#32 := by
  have hcreate := step_create_next (w := World.init) rfl (by decide) 0 0
  refine ⟨_, ⟨.step .init hok hcreate, ?_, ?_, ?_, ?_, ?_⟩, ?_⟩
  · decide
  · decide
  · decide
  · decide
  · decide
  · rw [Domains.Current]
    decide

theorem exists_retained (n : Nat) : ∃ w, Retained Creates w n := by
  induction n with
  | zero =>
      obtain ⟨w, hw, -⟩ := exists_created Creates ⟨by decide, fun _ _ => nofun⟩
      exact ⟨w, hw⟩
  | succ n ih =>
      obtain ⟨w, hw⟩ := ih
      have hidx : pdidx 0x10000#32 = 0 := by decide
      have heq : w.use 0x10000#32 .retain = { w with
          s := w.s.setRefcnt 0 ((w.s.pdominfo 0).refcnt + 1)
          retained := Function.update w.retained 0 (w.retained 0 + 1) } := by
        simp [World.use, Domains.use, retainDomain, hw.bogus, hidx, hw.owner]
      have hrun : DomainRun Creates (w.use 0x10000#32 .retain) :=
        .step (c := .use 0x10000#32 .retain) hw.run trivial rfl
      rw [heq] at hrun
      refine ⟨_, hrun, hw.owner, hw.bogus, ?_, ?_, hw.released⟩
      · show ((w.s.setRefcnt 0 _).pdominfo 0).refcnt = _
        rw [setRefcnt_self, hw.count]
        exact (BitVec.ofNat_add ..).symm
      · show Function.update w.retained 0 (w.retained 0 + 1) 0 = n + 1
        rw [Function.update_self, hw.retained]

/-- **A domain that is retained 65536 times goes with its first release**: the count
is back at zero. -/
theorem refcnt_wraps_destroys :
    ¬ ∀ w, DomainRun Creates w → ∀ c w' i d, Creates w c → w.step c = some w' →
      w.owner i = some d →
      (w'.s.pdomTbl i = none ↔
        c = .use d .release ∧ w.released i + 1 = max 1 (w.retained i)) := by
  intro h
  obtain ⟨w, hw⟩ := exists_retained 65536
  have hidx : pdidx 0x10000#32 = 0 := by decide
  have hzero : (w.s.pdominfo (pdidx 0x10000#32)).refcnt = 0 := by
    rw [hidx, hw.count]
    decide
  have hnone : (w.use 0x10000#32 .release).s.pdomTbl 0 = none := by
    rw [World.use_s, Domains.use, releaseDomain_eq hw.bogus, if_pos hzero, hidx]
    simp
  have hlast := (h w hw.run (.use 0x10000#32 .release) _ 0 _ trivial rfl hw.owner).mp hnone
  rw [hw.retained, hw.released] at hlast
  exact absurd hlast.2 (by decide)

/-- A domain that was never retained goes with its first release. -/
theorem domain_life_cycle_first_release :
    ∃ w, DomainRun Proper w ∧ w.owner 0 = some 0x10000#32 ∧
      (w.use 0x10000#32 .release).s.pdomTbl 0 = none := by
  obtain ⟨w, hw, hcur⟩ := exists_created Proper ⟨by decide, fun _ _ => nofun⟩
  refine ⟨w, hw.run, hw.owner, ?_⟩
  refine ((domain_life_cycle_along_runs hw.run).2.2.2.2 (.use 0x10000#32 .release) _ 0 _
    (.inr hcur) rfl hw.owner).mpr ⟨rfl, ?_⟩
  rw [hw.retained, hw.released]
  decide

end Metta.MmuMod
