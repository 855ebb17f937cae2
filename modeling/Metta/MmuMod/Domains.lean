/-
  Metta.MmuMod.Domains — the protection domains of
  modules/tcb/platform/pc99/mmu_mod/mmu_mod.cpp.

  A protection domain is a slot of a table of 128 and a table of 4-bit rights,
  two stretches to a byte, in a stretch of its own.  The id of a domain is its
  slot with the generation of the slot above it.

  The stretch of a new domain and the address of its table are arguments of
  the call.  `nucleus::debug_stop` is a breakpoint, after which the calls
  return; where no slot is free `create_domain` goes on with slot 0xdead,
  beyond the tables, which is a fault here.
-/
import Metta.MmuMod.Def

namespace Metta.MmuMod

/-! ## §1. The tables. -/

/-- `PDIDX_MAX`. -/
def pdidxMax : Nat := 0x80

/-- `SID_MAX`. -/
def sidMax : Nat := 16384

/-- `protection_domain_v1::id`. -/
abbrev Pdid := BitVec 32

/-- `PDIDX`. -/
def pdidx (pdid : Pdid) : Nat := (pdid &&& 0xffff#32).toNat

/-- `pdom_st`. -/
structure PdomSt where
  refcnt : BitVec 16
  gen : BitVec 16
  stretch : Option Nat
  deriving DecidableEq

/-- `mmu_v1::state_t`, as far as domains go.  `pdomTbl` has the addresses of the rights
tables, and `rights` the tables that are at them. -/
structure Domains where
  nextPdidx : Nat
  pdomTbl : Nat → Option Nat
  pdominfo : Nat → PdomSt
  rights : Nat → Nat → BitVec 8

namespace Domains

/-- The tables as `mmu_module_v1` makes them. -/
def init : Domains where
  nextPdidx := 0
  pdomTbl _ := none
  pdominfo _ := ⟨0, 0, none⟩
  rights _ _ := 0

/-! ## §2. Life cycle. -/

/-- The loop of `alloc_pdidx` from slot `i` on. -/
def allocFrom (s : Domains) : Nat → Nat → Option Nat
  | 0, _ => none
  | n + 1, i =>
      if s.pdomTbl i = none then some i
      else
        let i := (i + 1) % pdidxMax
        if i = s.nextPdidx then none else allocFrom s n i

/-- `alloc_pdidx`: the next free slot, and the hint after it. -/
def allocPdidx (s : Domains) : Option (Nat × Domains) :=
  (s.allocFrom pdidxMax s.nextPdidx).map fun i =>
    (i, { s with nextPdidx := (i + 1) % pdidxMax })

/-- `create_domain`, where `create` answered a stretch with the table at `base`. -/
def createDomain (s : Domains) (stretch base : Nat) : Option (Pdid × Domains) :=
  s.allocPdidx.map fun (idx, s) =>
    let gen := (s.pdominfo idx).gen + 1
    (gen.setWidth 32 <<< 16 ||| BitVec.ofNat 32 idx,
      { s with
        pdominfo := Function.update s.pdominfo idx ⟨0, gen, some stretch⟩
        rights := Function.update s.rights base fun _ => 0
        pdomTbl := Function.update s.pdomTbl idx (some base) })

/-- The check of the other calls: an id with no domain in its slot is bogus. -/
def bogus (s : Domains) (domId : Pdid) : Bool :=
  pdidxMax ≤ pdidx domId || (s.pdomTbl (pdidx domId)).isNone

def setRefcnt (s : Domains) (idx : Nat) (refcnt : BitVec 16) : Domains :=
  { s with pdominfo := Function.update s.pdominfo idx { s.pdominfo idx with refcnt := refcnt } }

/-- `retain_domain`. -/
def retainDomain (s : Domains) (domId : Pdid) : Domains :=
  let idx := pdidx domId
  if s.bogus domId then s else s.setRefcnt idx ((s.pdominfo idx).refcnt + 1)

/-- `release_domain`. -/
def releaseDomain (s : Domains) (domId : Pdid) : Domains :=
  let idx := pdidx domId
  if s.bogus domId then s
  else
    let s :=
      if (s.pdominfo idx).refcnt ≠ 0 then s.setRefcnt idx ((s.pdominfo idx).refcnt - 1) else s
    if (s.pdominfo idx).refcnt = 0 then { s with pdomTbl := Function.update s.pdomTbl idx none }
    else s

/-! ## §3. Rights. -/

/-- The byte `b` of a rights table after `set_rights` for a stretch with odd or even sid. -/
def setNibble (b : BitVec 8) (odd : Bool) (rights : BitVec 32) : BitVec 8 :=
  let mask : BitVec 8 := if odd then 0xf0 else 0x0f
  let val := if odd then rights <<< 4 else rights
  (b &&& ~~~mask) ||| val.setWidth 8

/-- `set_rights`. -/
def setRights (s : Domains) (domId : Pdid) (sid : Nat) (rights : BitVec 32) : Domains :=
  if s.bogus domId then s
  else
    match s.pdomTbl (pdidx domId) with
    | none => s
    | some base =>
        let table := s.rights base
        { s with
          rights := Function.update s.rights base
            (Function.update table (sid / 2) (setNibble (table (sid / 2)) (sid % 2 == 1) rights)) }

/-! ## §4. Calls. -/

/-- What a call does with a domain id. -/
inductive Use where
  | retain
  | release
  | setRights (sid : Nat) (rights : BitVec 32)

/-- A call with the id `domId`. -/
def use (s : Domains) (domId : Pdid) : Use → Domains
  | .retain => s.retainDomain domId
  | .release => s.releaseDomain domId
  | .setRights sid rights => s.setRights domId sid rights

end Domains

/-- A call on the domains. -/
inductive DomainCall where
  | create (stretch base : Nat)
  | use (domId : Pdid) (u : Domains.Use)

end Metta.MmuMod
