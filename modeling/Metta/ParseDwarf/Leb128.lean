/-
  Metta.ParseDwarf.Leb128 — the readers of tools/parsedwarf/leb128.h.

  Both loops or the digits into a word of 32 bits, each shifted by seven bits
  more than the one before.  A shift by 32 or more is undefined, and so a
  number has five bytes or the readers fail.  What is shifted out of the word
  is lost.

    • `uleb128`, `sleb128` — the two readers,
    • `reads_uleb128`, `reads_sleb128` — the value of a number, modulo `2 ^ 32`,
    • `fails_uleb128`, `fails_sleb128` — numbers that are too long,
    • `leb128_decodes` — the readers yield the words that were encoded, one or many.
-/
import Metta.Machine.Decoder
import Metta.Machine.Leb128

namespace Metta.ParseDwarf

open Metta.Machine Decoder

/-! ## §1. The readers. -/

/-- What stops the readers of the sections. -/
inductive Trouble where
  /-- A shift by the width of the word or more. -/
  | shift
  /-- A division by zero. -/
  | division
  /-- `PANIC`: a unit in the 64-bit format. -/
  | dwarf64
  /-- An index outside of a vector. -/
  | index
  /-- A call through a null pointer. -/
  | null
  /-- A member that has not been set is read. -/
  | unset
  /-- The loop has not come to its end. -/
  | going
  deriving DecidableEq, Repr

/-- The loop of both readers: the data, the shift behind the last byte, and that byte. -/
def lebLoop : Nat → UInt32 → UInt32 → Decoder Trouble (UInt32 × UInt32 × UInt8)
  | 0, _, _ => do
      -- the sixth byte would be shifted by 35
      let _ ← byte
      fail .shift
  | n + 1, data, shift => do
      let b ← byte
      let data := data ||| ((b &&& 0x7F).toUInt32 <<< shift)
      if b &&& 0x80 = 0 then pure (data, shift + 7, b)
      else lebLoop n data (shift + 7)

/-- `uleb128_t::decode`. -/
def uleb128 : Decoder Trouble UInt32 := do
  let (data, _, _) ← lebLoop 5 0 0
  pure data

/-- `sleb128_t::decode`; the `int32_t` is here its 32 bits. -/
def sleb128 : Decoder Trouble UInt32 := do
  let (data, shift, b) ← lebLoop 5 0 0
  if shift < 32 ∧ b &&& 0x40 ≠ 0 then pure (data ||| -(1 <<< shift))
  else pure data

/-- The value of an `int32_t`. -/
def asInt (data : UInt32) : Int := if data.toNat < 2 ^ 31 then data.toNat else data.toNat - 2 ^ 32

/-! ## §2. Digits in a word. -/

/-- Bits above the data are added. -/
theorem or_shift {data x : UInt32} {k : Nat} (hk : k < 32) (h : data.toNat < 2 ^ k) :
    data ||| (x <<< UInt32.ofNat k) = data + UInt32.ofNat (2 ^ k) * x := by
  apply UInt32.toNat_inj.mp
  have hk' : (UInt32.ofNat k).toNat % 32 = k := by
    rw [UInt32.toNat_ofNat']
    omega
  have hpow : 2 ^ k * 2 ^ (32 - k) = 2 ^ 32 := by
    rw [← pow_add]
    congr 1
    omega
  -- what is shifted out is what the product loses
  have hlost : 2 ^ k * x.toNat % 2 ^ 32 = 2 ^ k * (x.toNat % 2 ^ (32 - k)) := by
    rw [← hpow, Nat.mul_mod_mul_left]
  have hfits : 2 ^ k * (x.toNat % 2 ^ (32 - k)) + data.toNat < 2 ^ 32 := by
    have hdigit : x.toNat % 2 ^ (32 - k) + 1 ≤ 2 ^ (32 - k) := Nat.mod_lt _ (Nat.two_pow_pos _)
    have hmul := Nat.mul_le_mul_left (2 ^ k) hdigit
    rw [hpow, Nat.mul_add, Nat.mul_one] at hmul
    omega
  have hleft : (data ||| (x <<< UInt32.ofNat k)).toNat
      = 2 ^ k * (x.toNat % 2 ^ (32 - k)) + data.toNat := by
    rw [UInt32.toNat_or, UInt32.toNat_shiftLeft, hk', Nat.shiftLeft_eq, Nat.mul_comm, hlost,
      Nat.or_comm, ← Nat.two_pow_add_eq_or_of_lt h]
  have hright : (data + UInt32.ofNat (2 ^ k) * x).toNat
      = (data.toNat + 2 ^ k * x.toNat) % 2 ^ 32 := by
    rw [UInt32.toNat_add, UInt32.toNat_mul, UInt32.toNat_ofNat', Nat.mod_mul_mod, Nat.add_mod_mod]
  have hsum : data.toNat + 2 ^ k * (x.toNat % 2 ^ (32 - k)) < 2 ^ 32 := by
    rw [Nat.add_comm]
    exact hfits
  rw [hleft, hright, ← Nat.add_mod_mod, hlost, Nat.mod_eq_of_lt hsum, Nat.add_comm]

/-- A shift is a product. -/
theorem shift_eq_mul (x : UInt32) {k : Nat} (hk : k < 32) :
    x <<< UInt32.ofNat k = UInt32.ofNat (2 ^ k) * x := by
  have h := or_shift (x := x) hk (show (0 : UInt32).toNat < 2 ^ k from Nat.two_pow_pos k)
  rwa [UInt32.zero_or, UInt32.zero_add] at h

/-- The sign is put above the data. -/
theorem or_neg_shift {data : UInt32} {k : Nat} (hk : k < 32) (h : data.toNat < 2 ^ k) :
    data ||| -(1 <<< UInt32.ofNat k) = data - UInt32.ofNat (2 ^ k) := by
  have hneg : -(1 <<< UInt32.ofNat k) = (-1 : UInt32) <<< UInt32.ofNat k := by
    rw [shift_eq_mul 1 hk, shift_eq_mul (-1) hk, UInt32.mul_neg]
  rw [hneg, or_shift hk h, UInt32.mul_neg, UInt32.mul_one, UInt32.sub_eq_add_neg]

theorem toNat_low_bits (b : UInt8) : (b &&& 0x7F).toUInt32.toNat = b.toNat % 128 := by
  rw [UInt8.toNat_toUInt32, UInt8.toNat_and]
  exact Nat.and_two_pow_sub_one_eq_mod b.toNat 7

theorem low_bits_high {b : UInt8} (h : 128 ≤ b.toNat) :
    (b &&& 0x7F).toUInt32 = UInt32.ofNat (b.toNat - 128) := by
  apply UInt32.toNat_inj.mp
  have hb := b.toNat_lt
  rw [toNat_low_bits, UInt32.toNat_ofNat']
  omega

theorem low_bits_low {b : UInt8} (h : b.toNat < 128) :
    (b &&& 0x7F).toUInt32 = UInt32.ofNat b.toNat := by
  apply UInt32.toNat_inj.mp
  rw [toNat_low_bits, UInt32.toNat_ofNat']
  omega

/-- The two bits that the loops look at, for every byte. -/
theorem bits_of_byte : ∀ i : Fin 256, (UInt8.ofNat i &&& 0x80 = 0 ↔ i.val < 128) ∧
    (i.val < 128 → (UInt8.ofNat i &&& 0x40 ≠ 0 ↔ ¬ i.val < 64)) := by
  decide +kernel

/-- Whether a number goes on is the high bit of the byte. -/
theorem high_bit_iff (b : UInt8) : b &&& 0x80 = 0 ↔ b.toNat < 128 := by
  have h := (bits_of_byte ⟨b.toNat, b.toNat_lt⟩).1
  rwa [UInt8.ofNat_toNat] at h

theorem sign_bit_iff {b : UInt8} (hb : b.toNat < 128) : b &&& 0x40 ≠ 0 ↔ ¬ b.toNat < 64 := by
  have h := (bits_of_byte ⟨b.toNat, b.toNat_lt⟩).2 hb
  rwa [UInt8.ofNat_toNat] at h

theorem ofInt_natCast (n : Nat) : UInt32.ofInt n = UInt32.ofNat n := by
  apply UInt32.toNat_inj.mp
  unfold UInt32.ofInt
  rw [UInt32.toNat_ofNat', UInt32.toNat_ofNat']
  omega

theorem toNat_ofInt {i : Int} (h : 0 ≤ i) (hlt : i < 2 ^ 32) : ((UInt32.ofInt i).toNat : Int) = i := by
  obtain ⟨n, rfl⟩ := Int.eq_ofNat_of_zero_le h
  rw [ofInt_natCast, UInt32.toNat_ofNat']
  omega

theorem asInt_ofInt {i : Int} (h : -2 ^ 31 ≤ i) (hlt : i < 2 ^ 31) :
    asInt (UInt32.ofInt i) = i := by
  unfold asInt UInt32.ofInt
  rw [UInt32.toNat_ofNat']
  split <;> omega

theorem ofInt_asInt (v : UInt32) : UInt32.ofInt (asInt v) = v := by
  have hv := v.toNat_lt
  apply UInt32.toNat_inj.mp
  unfold asInt UInt32.ofInt
  rw [UInt32.toNat_ofNat']
  split <;> omega

/-- One more digit keeps the data below the shift. -/
theorem or_shift_lt {data x : UInt32} {k : Nat} (hdata : data.toNat < 2 ^ (7 * k))
    (hx : x.toNat < 128) : (data ||| (x <<< UInt32.ofNat (7 * k))).toNat < 2 ^ (7 * (k + 1)) := by
  have hpow : 2 ^ (7 * (k + 1)) = 2 ^ (7 * k) * 128 := by
    rw [Nat.mul_add, pow_add]
    rfl
  have hpos : 0 < 2 ^ (7 * k) := Nat.two_pow_pos _
  have hshift : (UInt32.ofNat (7 * k)).toNat % 32 ≤ 7 * k := by
    rw [UInt32.toNat_ofNat']
    omega
  rw [UInt32.toNat_or]
  apply Nat.or_lt_two_pow
  · omega
  · rw [UInt32.toNat_shiftLeft, Nat.shiftLeft_eq]
    calc x.toNat * 2 ^ ((UInt32.ofNat (7 * k)).toNat % 32) % 2 ^ 32
        ≤ x.toNat * 2 ^ ((UInt32.ofNat (7 * k)).toNat % 32) := Nat.mod_le _ _
      _ ≤ x.toNat * 2 ^ (7 * k) :=
          Nat.mul_le_mul_left _ (Nat.pow_le_pow_right (by decide) hshift)
      _ < 128 * 2 ^ (7 * k) := Nat.mul_lt_mul_of_pos_right hx hpos
      _ = 2 ^ (7 * (k + 1)) := by rw [hpow, Nat.mul_comm]

/-! ## §3. The loop. -/

/-- What the loop makes of the digits `more` and `last` when there are `k` digits already: they are
added to the data, behind them. -/
theorem reads_lebLoop {more : List UInt8} {last : UInt8} (hhigh : ∀ b ∈ more, 128 ≤ b.toNat)
    (hlow : last.toNat < 128) {n k : Nat} (hn : n + k = 5) (hlen : more.length < n) {data : UInt32}
    (hdata : data.toNat < 2 ^ (7 * k)) (o : Nat) :
    ∃ data', Reads (lebLoop n data (UInt32.ofNat (7 * k))) o (more ++ [last])
        (data', UInt32.ofNat (7 * (k + more.length + 1)), last) ∧
      data' = data + UInt32.ofNat (2 ^ (7 * k)) * UInt32.ofInt (Leb.value last.toNat more) ∧
      data'.toNat < 2 ^ (7 * (k + more.length + 1)) := by
  have hshift : ∀ k, UInt32.ofNat (7 * k) + 7 = UInt32.ofNat (7 * (k + 1)) := by
    intro k
    rw [Nat.mul_add, UInt32.ofNat_add]
    rfl
  induction more generalizing n k data o with
  | nil =>
      obtain ⟨n, rfl⟩ : ∃ m, n = m + 1 := ⟨n - 1, by omega⟩
      -- the last digit ends the loop, in its place
      have hx : (last &&& 0x7F).toUInt32.toNat < 128 := by
        rw [toNat_low_bits]
        exact Nat.mod_lt _ (by decide)
      refine ⟨data ||| ((last &&& 0x7F).toUInt32 <<< UInt32.ofNat (7 * k)), ?_, ?_,
        or_shift_lt hdata hx⟩
      · unfold lebLoop
        apply (Reads.byte last o).bind_last
        rw [if_pos ((high_bit_iff last).mpr hlow), hshift]
        exact Reads.pure _ _
      · rw [or_shift (by omega) hdata, low_bits_low hlow]
        show _ = data + _ * UInt32.ofInt (last.toNat : Int)
        rw [ofInt_natCast]
  | cons b more ih =>
      obtain ⟨n, rfl⟩ : ∃ m, n = m + 1 := ⟨n - 1, by omega⟩
      -- a digit with more behind it
      have hb : 128 ≤ b.toNat := hhigh b List.mem_cons_self
      have hx : (b &&& 0x7F).toUInt32.toNat < 128 := by
        rw [toNat_low_bits]
        exact Nat.mod_lt _ (by decide)
      obtain ⟨data', hreads, hvalue, hlt⟩ := ih (fun x hx => hhigh x (List.mem_cons_of_mem b hx))
        (by omega : n + (k + 1) = 5) (by simpa using hlen) (or_shift_lt hdata hx) (o + 1)
      have hcount : k + 1 + more.length + 1 = k + (b :: more).length + 1 := by
        rw [List.length_cons]
        omega
      rw [hcount] at hreads hlt
      refine ⟨data', ?_, ?_, hlt⟩
      · rw [lebLoop]
        apply (Reads.byte b o).bind
        rw [if_neg (by rw [high_bit_iff]; omega), hshift]
        exact hreads
      · -- the digits that follow count 128 times as much
        have hpow : UInt32.ofNat (2 ^ (7 * (k + 1))) = UInt32.ofNat (2 ^ (7 * k)) * 128 := by
          rw [Nat.mul_add, pow_add, UInt32.ofNat_mul]
          rfl
        have hdigit : UInt32.ofInt ((b.toNat : Int) - 128) = UInt32.ofNat (b.toNat - 128) := by
          rw [← ofInt_natCast, Nat.cast_sub hb]
          rfl
        rw [hvalue, or_shift (by omega) hdata, low_bits_high hb, hpow]
        show _ = data + _ * UInt32.ofInt (((b.toNat : Int) - 128) + 128 * Leb.value last.toNat more)
        rw [UInt32.ofInt_add, UInt32.ofInt_mul, hdigit, UInt32.mul_add, UInt32.add_assoc,
          UInt32.mul_assoc]
        rfl

/-- A number of six bytes or more is given up. -/
theorem fails_lebLoop {more : List UInt8} (hhigh : ∀ b ∈ more, 128 ≤ b.toNat) (last : UInt8)
    {n : Nat} (hlen : n ≤ more.length) (data shift : UInt32) (o : Nat) :
    Fails (lebLoop n data shift) o (more ++ [last]) := by
  induction n generalizing more data shift o with
  | zero =>
      obtain ⟨b, rest, hrest⟩ := List.exists_cons_of_ne_nil (show more ++ [last] ≠ [] by simp)
      rw [hrest, lebLoop]
      exact Fails.after (Reads.byte b o) (Fails.fail Trouble.shift _ rest)
  | succ n ih =>
      cases more with
      | nil => cases hlen
      | cons b more =>
          have hb : 128 ≤ b.toNat := hhigh b List.mem_cons_self
          rw [lebLoop]
          apply Fails.after (Reads.byte b o)
          rw [if_neg (by rw [high_bit_iff]; omega)]
          exact ih (fun x hx => hhigh x (List.mem_cons_of_mem b hx))
            (Nat.le_of_succ_le_succ hlen) _ _ _

/-! ## §4. What is read. -/

/-- A number that the readers can read: five digits or fewer. -/
def Short (l : Leb) : Prop := l.bytes.length ≤ 5

instance (l : Leb) : Decidable (Short l) := inferInstanceAs (Decidable (_ ≤ _))

variable {l : Leb}

theorem Short.length_more (h : Short l) : l.more.length < 5 := by
  have := l.length_bytes
  unfold Short at h
  omega

theorem reads_data (h : Short l) (o : Nat) :
    ∃ data, Reads (lebLoop 5 0 0) o l.bytes
        (data, UInt32.ofNat (7 * (l.more.length + 1)), l.last) ∧
      data = UInt32.ofInt l.unsigned ∧ data.toNat < 2 ^ (7 * (l.more.length + 1)) := by
  obtain ⟨data, hreads, hvalue, hlt⟩ := reads_lebLoop l.more_high l.last_low
    (by decide : 5 + 0 = 5) h.length_more (by decide : (0 : UInt32).toNat < 2 ^ (7 * 0)) o
  rw [Nat.zero_add] at hreads hlt
  refine ⟨data, hreads, ?_, hlt⟩
  rw [hvalue, Nat.mul_zero, pow_zero, UInt32.zero_add]
  exact UInt32.one_mul _

/-- **The value of a number** of five bytes or fewer, modulo `2 ^ 32`. -/
theorem reads_uleb128 (h : Short l) (o : Nat) :
    Reads uleb128 o l.bytes (UInt32.ofInt l.unsigned) := by
  obtain ⟨data, hreads, rfl, -⟩ := reads_data h o
  exact hreads.bind_last (Reads.pure _ _)

theorem fails_uleb128 (h : ¬ Short l) (o : Nat) : Fails uleb128 o l.bytes := by
  have hlen := l.length_bytes
  unfold Short at h
  exact (fails_lebLoop l.more_high l.last (by omega) 0 0 o).bind

/-- **The value of a number with a sign**, modulo `2 ^ 32`: below 32 bits the sign is put there,
and in five bytes it is there already. -/
theorem reads_sleb128 (h : Short l) (o : Nat) :
    Reads sleb128 o l.bytes (UInt32.ofInt l.signed) := by
  obtain ⟨data, hreads, hvalue, hlt⟩ := reads_data h o
  have hmore := h.length_more
  have hshift : (UInt32.ofNat (7 * (l.more.length + 1))).toNat = 7 * (l.more.length + 1) := by
    rw [UInt32.toNat_ofNat']
    omega
  have hpow : ∀ k : Nat, UInt32.ofInt (2 ^ k) = UInt32.ofNat (2 ^ k) := by
    intro k
    rw [← ofInt_natCast]
    push_cast
    rfl
  apply hreads.bind_last
  dsimp only
  by_cases hpos : l.last.toNat < 64
  · -- nothing is put there
    rw [if_neg (by rw [sign_bit_iff l.last_low]; exact fun h => h.2 hpos), l.signed_eq,
      if_pos hpos, ← hvalue]
    exact Reads.pure _ _
  · have hsigned : UInt32.ofInt l.signed
        = data - UInt32.ofNat (2 ^ (7 * (l.more.length + 1))) := by
      rw [l.signed_eq, if_neg hpos, Int.sub_eq_add_neg, UInt32.ofInt_add, UInt32.ofInt_neg, hpow,
        ← hvalue, UInt32.sub_eq_add_neg]
    rw [hsigned]
    by_cases hfull : l.more.length = 4
    · -- the sign is where it belongs, and what counts above it is lost
      rw [if_neg (by rw [hfull]; exact fun h => absurd h.1 (by decide)), hfull,
        show UInt32.ofNat (2 ^ (7 * (4 + 1))) = 0 by decide, UInt32.sub_zero]
      exact Reads.pure _ _
    · have hword : UInt32.ofNat (7 * (l.more.length + 1)) < 32 := by
        rw [UInt32.lt_iff_toNat_lt, hshift]
        show _ < 32
        omega
      rw [if_pos ⟨hword, (sign_bit_iff l.last_low).mpr hpos⟩, or_neg_shift (by omega) hlt]
      exact Reads.pure _ _

theorem fails_sleb128 (h : ¬ Short l) (o : Nat) : Fails sleb128 o l.bytes := by
  have hlen := l.length_bytes
  unfold Short at h
  exact (fails_lebLoop l.more_high l.last (by omega) 0 0 o).bind

/-! ## §5. Encodings. -/

/-- An encoding of `v` in five bytes or fewer, padded or not. -/
def Encodes (l : Leb) (v : UInt32) : Prop := Short l ∧ l.unsigned = v.toNat

/-- An encoding of the `int32_t` that `v` is. -/
def EncodesSigned (l : Leb) (v : UInt32) : Prop := Short l ∧ l.signed = asInt v

instance (l : Leb) (v : UInt32) : Decidable (Encodes l v) := inferInstanceAs (Decidable (_ ∧ _))

instance (l : Leb) (v : UInt32) : Decidable (EncodesSigned l v) :=
  inferInstanceAs (Decidable (_ ∧ _))

variable {v : UInt32}

theorem Encodes.reads (h : Encodes l v) (o : Nat) : Reads uleb128 o l.bytes v := by
  have hreads := reads_uleb128 h.1 o
  rwa [h.2, ofInt_natCast, UInt32.ofNat_toNat] at hreads

theorem EncodesSigned.reads (h : EncodesSigned l v) (o : Nat) : Reads sleb128 o l.bytes v := by
  have hreads := reads_sleb128 h.1 o
  rwa [h.2, ofInt_asInt] at hreads

/-- A number of five digits, the last of which is `last`. -/
def fiveDigits (n : Nat) (last : UInt8) (hlast : last.toNat < 128) : Leb where
  more := [UInt8.ofNat (n % 128 + 128), UInt8.ofNat (n / 128 % 128 + 128),
    UInt8.ofNat (n / 16384 % 128 + 128), UInt8.ofNat (n / 2097152 % 128 + 128)]
  last := last
  more_high := by
    simp only [List.mem_cons, List.not_mem_nil, or_false, forall_eq_or_imp, forall_eq,
      UInt8.toNat_ofNat']
    omega
  last_low := hlast

variable {b : UInt8} (hb : b.toNat < 128)

theorem value_fiveDigits (n : Nat) (last : Int) :
    Leb.value last (fiveDigits n b hb).more = n % 268435456 + 268435456 * last := by
  simp only [fiveDigits, Leb.value, UInt8.toNat_ofNat']
  omega

theorem unsigned_fiveDigits (n : Nat) :
    (fiveDigits n b hb).unsigned = n % 268435456 + 268435456 * (b.toNat : Int) :=
  value_fiveDigits hb n b.toNat

theorem signed_fiveDigits (n : Nat) :
    (fiveDigits n b hb).signed = n % 268435456 + 268435456 * Leb.signedDigit b :=
  value_fiveDigits hb n (Leb.signedDigit b)

/-- Every word has an encoding. -/
theorem exists_encodes (v : UInt32) : ∃ l, Encodes l v := by
  have hv := v.toNat_lt
  have hlast : (UInt8.ofNat (v.toNat / 268435456)).toNat = v.toNat / 268435456 := by
    rw [UInt8.toNat_ofNat']
    omega
  apply Exists.intro (fiveDigits v.toNat (UInt8.ofNat (v.toNat / 268435456)) (by omega))
  constructor
  · exact Nat.le_refl 5
  · rw [unsigned_fiveDigits, hlast]
    omega

/-- Every `int32_t` has an encoding. -/
theorem exists_encodesSigned (v : UInt32) : ∃ l, EncodesSigned l v := by
  have hv := v.toNat_lt
  by_cases hneg : v.toNat < 2 ^ 31
  · have hlast : (UInt8.ofNat (v.toNat / 268435456)).toNat = v.toNat / 268435456 := by
      rw [UInt8.toNat_ofNat']
      omega
    apply Exists.intro (fiveDigits v.toNat (UInt8.ofNat (v.toNat / 268435456)) (by omega))
    constructor
    · exact Nat.le_refl 5
    · rw [signed_fiveDigits, Leb.signedDigit, if_pos (by omega), hlast, asInt, if_pos hneg]
      omega
  · -- the sign goes on in the last digit
    have hlast : (UInt8.ofNat (v.toNat / 268435456 + 112)).toNat = v.toNat / 268435456 + 112 := by
      rw [UInt8.toNat_ofNat']
      omega
    apply Exists.intro (fiveDigits v.toNat (UInt8.ofNat (v.toNat / 268435456 + 112)) (by omega))
    constructor
    · exact Nat.le_refl 5
    · rw [signed_fiveDigits, Leb.signedDigit, if_neg (by omega), hlast, asInt, if_neg hneg]
      omega

/-- **The readers yield what was encoded**, one number or many, wherever the encodings lie. -/
theorem leb128_decodes :
    (∀ (v : UInt32) (l : Leb) (o : Nat), Encodes l v → Reads uleb128 o l.bytes v)
    ∧ (∀ (v : UInt32) (l : Leb) (o : Nat), EncodesSigned l v → Reads sleb128 o l.bytes v)
    ∧ (∀ (vs : List UInt32) (ls : List Leb) (o : Nat), List.Forall₂ Encodes ls vs →
        Reads (times uleb128 vs.length) o (ls.flatMap Leb.bytes) vs)
    ∧ ∀ (vs : List UInt32) (ls : List Leb) (o : Nat), List.Forall₂ EncodesSigned ls vs →
        Reads (times sleb128 vs.length) o (ls.flatMap Leb.bytes) vs := by
  constructor
  · intro v l o h
    exact h.reads o
  constructor
  · intro v l o h
    exact h.reads o
  constructor
  · intro vs ls o h
    rw [List.flatMap_def]
    apply Reads.times
    rw [List.forall₂_map_left_iff]
    exact h.imp fun l v hl => hl.reads
  · intro vs ls o h
    rw [List.flatMap_def]
    apply Reads.times
    rw [List.forall₂_map_left_iff]
    exact h.imp fun l v hl => hl.reads

/-- 624485, and then 0 with two bytes too many, behind a byte that is not read. -/
theorem leb128_decodes_two :
    times uleb128 2 [0xFF, 0xE5, 0x8E, 0x26, 0x80, 0x80, 0x00, 0xFF] 1 = .ok ([624485, 0], 7) :=
  leb128_decodes.2.2.1 [624485, 0]
    [⟨[0xE5, 0x8E], 0x26, high_of_all (by decide), by decide⟩,
      ⟨[0x80, 0x80], 0, high_of_all (by decide), by decide⟩] 1
    (.cons (by decide) (.cons (by decide) .nil)) _ ⟨[0xFF], rfl⟩

end Metta.ParseDwarf
