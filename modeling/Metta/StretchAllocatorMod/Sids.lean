/-
  Metta.StretchAllocatorMod.Sids — the ids of stretches.

  An id is the place of a clear bit in a table of words, which is scanned from
  its start; there is no call that clears a bit again.  So the ids come one
  after the other, and when all words are full the answer is `SID_NULL`, which
  `create_stretch` takes for an id.

  All allocators use the same two tables.  An index beyond a table is a fault.

    • `allocSid`, `registerSid`, `createStretch` — the code,
    • `Counted` — the first `n` ids are in use; `allocSid_counted`,
    • `createAll_ok_iff` — which sequences of calls go well,
    • `sids_unique_iff` — ids and tables over all sequences of calls.
-/
import Metta.StretchAllocatorMod.Def
import Metta.MmuMod.Domains
import Metta.Machine.Outcome

namespace Metta.StretchAllocatorMod

open Metta.Machine
open Metta.FramesMod (shl32)
open Metta.MmuMod (sidMax Domains Pdid)

/-! ## §1. The tables. -/

/-- `SID_NULL`. -/
def sidNull : Nat := 0xffff

/-- `SID_ARRAY_SZ`. -/
def sidArraySz : Nat := sidMax / 32

/-- `server_state_t`, as far as ids go: `sids` and `stretch_tab`. -/
structure SidTables where
  sids : Nat → BitVec 32
  stretchTab : Nat → Option Nat

/-- The tables as `stretch_allocator_module_v1_create` clears them. -/
def SidTables.cleared : SidTables := ⟨fun _ => 0, fun _ => none⟩

/-- Writing beyond the end of `stretch_tab`. -/
inductive SidFault where
  | outOfBounds (sid : Nat)
  deriving DecidableEq, Repr

/-- `stretch_v1::state_t`, at the address `self`. -/
structure Stretch where
  self : Nat
  base : Nat
  size : Nat
  sid : Nat
  deriving DecidableEq, Repr

/-! ## §2. `create_stretch`. -/

/-- The inner loop of `alloc_sid` from bit `k` on: the first clear bit. -/
def scanBits (sid : BitVec 32) : Nat → Nat → Nat
  | 0, k => k
  | n + 1, k => if k < 32 ∧ sid.getLsbD k then scanBits sid n (k + 1) else k

/-- The outer loop of `alloc_sid` from word `i` on. -/
def scanWords (t : SidTables) : Nat → Nat → Nat × SidTables
  | 0, _ => (sidNull, t)
  | n + 1, i =>
      let sid := t.sids i
      if sid ≠ BitVec.allOnes 32 then
        let k := scanBits sid 32 0
        ((i * 32 + k) % 2 ^ 16, { t with sids := Function.update t.sids i (sid ||| 1#32 <<< k) })
      else scanWords t n (i + 1)

/-- `alloc_sid`. -/
def allocSid (t : SidTables) : Nat × SidTables := scanWords t sidArraySz 0

/-- `register_sid`; `stretch_tab` has `SID_MAX` entries. -/
def registerSid (t : SidTables) (sid stretch : Nat) : Except SidFault SidTables :=
  if sid < sidMax then .ok { t with stretchTab := Function.update t.stretchTab sid (some stretch) }
  else .error (.outOfBounds sid)

/-- `create_stretch`, where `new` is what the heap answered. -/
def createStretch (t : SidTables) (base nPages : Nat) (new : Option Nat) :
    Except SidFault (Option Stretch × SidTables) :=
  match new with
  | none => .ok (none, t)
  | some self =>
      let (sid, t) := allocSid t
      (registerSid t sid self).map fun t => (some ⟨self, base, shl32 nPages pageWidth, sid⟩, t)

/-- A call of `create_stretch`. -/
structure StretchCall where
  base : Nat
  nPages : Nat
  new : Option Nat

/-- Calls one after the other, with the stretches that they created, the last one first. -/
def createAll : SidTables → List Stretch → List StretchCall →
    Except SidFault (List Stretch × SidTables)
  | t, created, [] => .ok (created, t)
  | t, created, c :: cs =>
      (createStretch t c.base c.nPages c.new).bind fun (stretch, t) =>
        createAll t (stretch.toList ++ created) cs

/-! ## §3. Counting. -/

/-- The first `n` ids are in use. -/
def Counted (t : SidTables) (n : Nat) : Prop :=
  ∀ i < sidArraySz, ∀ k < 32, (t.sids i).getLsbD k = decide (32 * i + k < n)

theorem counted_cleared : Counted .cleared 0 := by
  intro i _ k _
  simp [SidTables.cleared]

/-- Bits up to `m`, then a clear one. -/
theorem scanBits_eq {sid : BitVec 32} {m : Nat} (hm : m < 32)
    (hsid : ∀ k < 32, sid.getLsbD k = decide (k < m)) :
    ∀ n k, k ≤ m → m < n + k → scanBits sid n k = m := by
  intro n
  induction n with
  | zero =>
      intro k hk hn
      omega
  | succ n ih =>
      intro k hk hn
      rw [scanBits, hsid k (by omega)]
      by_cases hlt : k < m
      · rw [if_pos ⟨by omega, decide_eq_true hlt⟩]
        exact ih (k + 1) hlt (by omega)
      · rw [if_neg (by simp [hlt])]
        omega

/-- A word is full when all of its ids are in use. -/
theorem word_full_iff {t : SidTables} {n i : Nat} (C : Counted t n) (hi : i < sidArraySz) :
    t.sids i = BitVec.allOnes 32 ↔ 32 * (i + 1) ≤ n := by
  constructor
  · intro h
    have hlast := C i hi 31 (by decide)
    rw [h, BitVec.getLsbD_allOnes] at hlast
    have := of_decide_eq_true hlast.symm
    omega
  · intro h
    apply BitVec.eq_of_getLsbD_eq
    intro k hk
    rw [C i hi k hk, BitVec.getLsbD_allOnes]
    have : 32 * i + k < n := by omega
    simp [hk, this]

theorem getLsbD_setBit {x : BitVec 32} {m k : Nat} (hk : k < 32) :
    (x ||| 1#32 <<< m).getLsbD k = (x.getLsbD k || decide (k = m)) := by
  rw [BitVec.getLsbD_or, BitVec.getLsbD_shiftLeft, BitVec.getLsbD_one]
  congr 1
  by_cases hkm : k = m
  · simp [hkm, hkm ▸ hk]
  · have : ¬ (m ≤ k ∧ k - m = 0) := by omega
    simp [hkm]
    omega

/-- The words before `i` are full: the scan goes on to the first id that is not in use. -/
theorem scanWords_eq {t : SidTables} {n : Nat} (C : Counted t n) :
    ∀ m i, m + i = sidArraySz → 32 * i ≤ n → n < sidMax →
      ∃ t', scanWords t m i = (n, t') ∧ Counted t' (n + 1) ∧ t'.stretchTab = t.stretchTab := by
  intro m
  induction m with
  | zero =>
      intro i hi hlo hhi
      simp only [sidArraySz, sidMax] at hi hhi
      omega
  | succ m ih =>
      intro i hi hlo hhi
      have hin : i < sidArraySz := by omega
      rw [scanWords]
      split_ifs with hfull
      · -- the word with a clear bit
        have hword : n < 32 * (i + 1) := by
          rw [Ne, word_full_iff C hin] at hfull
          omega
        have hscan : scanBits (t.sids i) 32 0 = n - 32 * i := by
          refine scanBits_eq (by omega) (fun k hk => ?_) 32 0 (Nat.zero_le _) (by omega)
          rw [C i hin k hk, decide_eq_decide]
          omega
        have hsid : (i * 32 + (n - 32 * i)) % 2 ^ 16 = n := by
          simp only [sidMax] at hhi
          omega
        refine ⟨{ t with sids := Function.update t.sids i (t.sids i ||| 1#32 <<< (n - 32 * i)) },
          ?_, fun j hj k hk => ?_, rfl⟩
        · simp only [hscan, hsid]
        · show (Function.update t.sids i (t.sids i ||| 1#32 <<< (n - 32 * i)) j).getLsbD k = _
          by_cases hji : j = i
          · subst hji
            rw [Function.update_self, getLsbD_setBit (by omega), C j hj k hk, ← Bool.decide_or,
              decide_eq_decide]
            omega
          · rw [Function.update_of_ne hji, C j hj k hk, decide_eq_decide]
            omega
      · -- a full word: the next one is looked at
        rw [not_not, word_full_iff C hin] at hfull
        exact ih (i + 1) (by omega) hfull hhi

theorem scanWords_full {t : SidTables} (C : Counted t sidMax) :
    ∀ m i, m + i = sidArraySz → scanWords t m i = (sidNull, t) := by
  intro m
  induction m with
  | zero => exact fun _ _ => rfl
  | succ m ih =>
      intro i hi
      have hin : i < sidArraySz := by omega
      have hfull : t.sids i = BitVec.allOnes 32 := by
        rw [word_full_iff C hin]
        simp only [sidArraySz, sidMax] at *
        omega
      rw [scanWords, if_neg (not_not.mpr hfull)]
      exact ih (i + 1) (by omega)

/-- **The ids come in order.** -/
theorem allocSid_counted {t : SidTables} {n : Nat} (C : Counted t n) (hn : n < sidMax) :
    ∃ t', allocSid t = (n, t') ∧ Counted t' (n + 1) ∧ t'.stretchTab = t.stretchTab :=
  scanWords_eq C sidArraySz 0 rfl (Nat.zero_le _) hn

theorem allocSid_full {t : SidTables} (C : Counted t sidMax) : allocSid t = (sidNull, t) :=
  scanWords_full C sidArraySz 0 rfl

/-! ## §4. Sequences of calls. -/

section Calls

variable {t t' : SidTables} {created : List Stretch}

/-- A stretch with the next id. -/
theorem createStretch_next {n : Nat} (C : Counted t n) (hn : n < sidMax) (base nPages self : Nat) :
    ∃ t', createStretch t base nPages (some self) =
        .ok (some ⟨self, base, shl32 nPages pageWidth, n⟩, t') ∧ Counted t' (n + 1) ∧
      t'.stretchTab = Function.update t.stretchTab n (some self) := by
  obtain ⟨t₁, halloc, C₁, htab⟩ := allocSid_counted C hn
  refine ⟨{ t₁ with stretchTab := Function.update t₁.stretchTab n (some self) }, ?_, C₁, ?_⟩
  · simp only [createStretch, halloc, registerSid, if_pos hn, Except.map]
  · rw [htab]

/-- When there is no id left `SID_NULL` is the index. -/
theorem createStretch_full (C : Counted t sidMax) (base nPages self : Nat) :
    createStretch t base nPages (some self) = .error (.outOfBounds sidNull) := by
  simp only [createStretch, allocSid_full C, registerSid]
  rfl

/-- Ids and table after some calls. -/
structure SidsInv (t : SidTables) (created : List Stretch) : Prop where
  counted : Counted t created.length
  inOrder : created.map Stretch.sid = (List.range created.length).reverse
  registered : ∀ c ∈ created, t.stretchTab c.sid = some c.self

theorem sidsInv_cleared : SidsInv .cleared [] := ⟨counted_cleared, rfl, by simp⟩

theorem SidsInv.sid_lt (I : SidsInv t created) {c : Stretch} (hc : c ∈ created) :
    c.sid < created.length := by
  have hmem : c.sid ∈ created.map Stretch.sid := List.mem_map_of_mem hc
  rw [I.inOrder] at hmem
  simpa using hmem

/-- One more stretch. -/
theorem SidsInv.cons (I : SidsInv t created) {c : Stretch} (hsid : c.sid = created.length)
    (C : Counted t' (created.length + 1))
    (htab : t'.stretchTab = Function.update t.stretchTab created.length (some c.self)) :
    SidsInv t' (c :: created) := by
  refine ⟨C, ?_, ?_⟩
  · rw [List.map_cons, hsid, I.inOrder, List.length_cons, List.range_succ, List.reverse_append]
    rfl
  · intro c' hc'
    rcases List.mem_cons.mp hc' with rfl | hc'
    · rw [htab, hsid, Function.update_self]
    · rw [htab, Function.update_of_ne (I.sid_lt hc').ne, I.registered c' hc']

/-- How many records the heap gives for the calls. -/
def records (calls : List StretchCall) : Nat := (calls.filter (·.new.isSome)).length

/-- **A sequence of calls** goes well as long as there are ids, and ends with a write beyond the
table after that. -/
theorem createAll_spec (calls : List StretchCall) : ∀ {t : SidTables} {created : List Stretch},
    SidsInv t created → created.length ≤ sidMax →
    (created.length + records calls ≤ sidMax → ∃ created' t',
      createAll t created calls = .ok (created', t') ∧ SidsInv t' created' ∧
        created'.length = created.length + records calls) ∧
    (sidMax < created.length + records calls →
      createAll t created calls = .error (.outOfBounds sidNull)) := by
  induction calls with
  | nil =>
      intro t created I hle
      refine ⟨fun _ => ⟨created, t, rfl, I, rfl⟩, fun hlt => ?_⟩
      exact absurd hlt (not_lt.mpr hle)
  | cons c calls ih =>
      intro t created I hle
      obtain ⟨base, nPages, new⟩ := c
      cases new with
      -- a call without a record gives no number
      | none => exact ih I hle
      | some self =>
          have hrecords : records (⟨base, nPages, some self⟩ :: calls) = records calls + 1 := rfl
          rw [createAll, hrecords]
          by_cases hn : created.length < sidMax
          · -- one more bit is set
            obtain ⟨t', hcall, C, htab⟩ := createStretch_next I.counted hn base nPages self
            have I' : SidsInv t' (⟨self, base, shl32 nPages pageWidth, created.length⟩ :: created) :=
              I.cons rfl C htab
            rw [hcall]
            have hlen : created.length + (records calls + 1) = created.length + 1 + records calls := by
              omega
            rw [hlen]
            exact ih I' hn
          · have hfull : created.length = sidMax := by omega
            have C := I.counted
            rw [hfull] at C
            refine ⟨fun hle => absurd hle (by omega), fun _ => ?_⟩
            rw [createStretch_full C]
            rfl

/-- What is said of the ids: no two stretches have the same, all are in range, the table has
the stretches, and `set_rights` for them stays within the array of rights. -/
structure SidsOk (t : SidTables) (created : List Stretch) : Prop where
  unique : (created.map Stretch.sid).Nodup
  inRange : ∀ c ∈ created, c.sid < sidMax
  registered : ∀ c ∈ created, t.stretchTab c.sid = some c.self
  rights : ∀ c ∈ created, ∀ (d : Domains) (domId : Pdid) (rights : BitVec 32) (base j : Nat),
    sidMax / 2 ≤ j → (d.setRights domId c.sid rights).rights base j = d.rights base j

/-- `set_rights` touches the byte of the id only. -/
theorem setRights_frame (d : Domains) (domId : Pdid) (sid : Nat) (rights : BitVec 32)
    (base : Nat) {j : Nat} (hj : j ≠ sid / 2) :
    (d.setRights domId sid rights).rights base j = d.rights base j := by
  rw [Domains.setRights]
  split
  · rfl
  · split
    · rfl
    · next base' _ =>
        dsimp only
        by_cases hbase : base = base'
        · rw [hbase, Function.update_self, Function.update_of_ne hj]
        · rw [Function.update_of_ne hbase]

theorem SidsInv.ok (I : SidsInv t created) (hle : created.length ≤ sidMax) : SidsOk t created := by
  refine ⟨?_, fun c hc => lt_of_lt_of_le (I.sid_lt hc) hle, I.registered, ?_⟩
  · rw [I.inOrder]
    exact List.nodup_reverse.mpr List.nodup_range
  · intro c hc d domId rights base j hj
    refine setRights_frame d domId c.sid rights base ?_
    have := I.sid_lt hc
    simp only [sidMax] at *
    omega

/-- **The ids of stretches** are unique and in range, with nothing written beyond the tables,
if and only if the heap has given at most `SID_MAX` records. -/
theorem sids_unique_iff (calls : List StretchCall) :
    (∃ created t, createAll .cleared [] calls = .ok (created, t) ∧ SidsOk t created ∧
      created.length = records calls) ↔ records calls ≤ sidMax := by
  obtain ⟨hok, hfault⟩ := createAll_spec calls sidsInv_cleared (Nat.zero_le _)
  rw [List.length_nil, Nat.zero_add] at hok hfault
  constructor
  · rintro ⟨created, t, h, -, -⟩
    by_contra hlt
    rw [hfault (not_le.mp hlt)] at h
    cases h
  · intro hle
    obtain ⟨created, t, h, I, hlen⟩ := hok hle
    exact ⟨created, t, h, I.ok (hlen ▸ hle), hlen⟩

/-- One call more than there are ids. -/
theorem sids_out_of_bounds :
    createAll .cleared [] (List.replicate (sidMax + 1) ⟨0, 1, some 0x1000⟩) =
      .error (.outOfBounds sidNull) := by
  refine (createAll_spec _ sidsInv_cleared (Nat.zero_le _)).2 ?_
  have hrecords : records (List.replicate (sidMax + 1) ⟨0, 1, some 0x1000⟩) = sidMax + 1 := by
    rw [records, List.filter_replicate_of_pos rfl, List.length_replicate]
  rw [hrecords]
  decide

end Calls

end Metta.StretchAllocatorMod
