/-
  Metta.Runtime.Cstring — string_utf8_trait.

  The length of a sequence is told from its first byte by shifts to the right.  Where `char` is
  signed, a byte with the high bit is negative, and stays so: no shift of it is 6, 14 or 30, and
  its length is 0.  So a step over a character that is not in ASCII does not go forward.  Where
  `char` is unsigned, sequences of up to three bytes are read as they were written, and the last
  digit of those of four is taken from the first byte and not from the last one.

    • `getSequenceLength`, `getCodePoint` — as the source has them,
    • `Inverts` — stepping through an encoding, `inverts_iff` — character by character,
    • `inverts_signed_iff`, `inverts_unsigned_iff` — when a text is read back.
-/
import Metta.Machine.Bytes

namespace Metta.Runtime.Utf8

open Metta.Machine Metta.Machine.Memory

/-! ## §1. The functions. -/

/-- A `char` as an int, where it is signed. -/
def signed (b : UInt8) : Int32 := b.toInt8.toInt32

/-- A `char` as an int, where it is not. -/
def unsigned (b : UInt8) : Int32 := b.toUInt32.toInt32

/-- `string_utf8_trait::get_sequence_length`. -/
def getSequenceLength (data : Int32) : Nat :=
  if data &&& 0x80 = 0 then 1
  else if data >>> 5 = 0x6 then 2
  else if data >>> 4 = 0xE then 3
  else if data >>> 3 = 0x1E then 4
  else 0

/-- `(c << shift) & mask`. -/
def bits (c shift mask : Int32) : Int32 := (c <<< shift) &&& mask

/-- `string_utf8_trait::get_code_point`; `ch` is what a `char` is as an int. -/
def getCodePoint (ch : UInt8 → Int32) (m : Memory) (data : Nat) : UInt32 :=
  let char : Nat → Int32 := fun k => ch (m.byte (data + k))
  match getSequenceLength (char 0) with
  | 1 => Int32.toUInt32 (char 0)
  | 2 => Int32.toUInt32 (bits (char 0) 6 0x7FF + (char 1 &&& 0x3F))
  | 3 => Int32.toUInt32 (bits (char 0) 12 0xFFFF + bits (char 1) 6 0xFFF + (char 2 &&& 0x3F))
  | 4 =>
      -- the last one is `(*data + 3) & 0x3F`
      Int32.toUInt32 (bits (char 0) 18 0x1FFFFF + bits (char 1) 12 0x3FFFF + bits (char 2) 6 0xFFF
        + ((char 0 + 3) &&& 0x3F))
  | _ => 0

/-! ## §2. Stepping through an encoding. -/

/-- The encoding of a text. -/
def encode (cs : List Char) : List UInt8 := cs.flatMap String.utf8EncodeChar

variable (ch : UInt8 → Int32) (m : Memory) (a : Nat)

/-- Where the reader is after that many steps from `a`. -/
def position : Nat → Nat
  | 0 => a
  | n + 1 => position n + getSequenceLength (ch (m.byte (position n)))

/-- Each step goes forward by one character, the last one to the end, and the code points on the
way are the text. -/
structure Inverts (cs : List Char) : Prop where
  forward : ∀ i (h : i < cs.length),
    position ch m a (i + 1) = position ch m a i + (String.utf8EncodeChar cs[i]).length
  ends : position ch m a cs.length = a + (encode cs).length
  yields : (List.range cs.length).map (fun i => getCodePoint ch m (position ch m a i))
    = cs.map Char.val

/-- At `p` a character is read as it was written. -/
def Right (p : Nat) (c : Char) : Prop :=
  getSequenceLength (ch (m.byte p)) = (String.utf8EncodeChar c).length
    ∧ getCodePoint ch m p = c.val

variable {ch m a} {cs : List Char}

theorem length_encode_take {i : Nat} (h : i < cs.length) :
    (encode (cs.take (i + 1))).length
      = (encode (cs.take i)).length + (String.utf8EncodeChar cs[i]).length := by
  unfold encode
  rw [List.take_succ_eq_append_getElem h, List.flatMap_append, List.length_append]
  simp

/-- Each character is where the ones before it end. -/
theorem hasBytes_character (h : HasBytes m a (encode cs)) {i : Nat} (hi : i < cs.length) :
    HasBytes m (a + (encode (cs.take i)).length) (String.utf8EncodeChar cs[i]) := by
  have hsplit : encode cs
      = encode (cs.take i) ++ (String.utf8EncodeChar cs[i] ++ encode (cs.drop (i + 1))) := by
    unfold encode
    rw [← List.flatMap_cons, ← List.flatMap_append, ← List.drop_eq_getElem_cons hi,
      List.take_append_drop]
  rw [hsplit, hasBytes_append, hasBytes_append] at h
  exact h.2.1

/-- As long as every step goes forward by one character, the reader is at the next one. -/
theorem position_eq {n : Nat} (hn : n ≤ cs.length)
    (h : ∀ i (hi : i < cs.length), i < n →
      position ch m a (i + 1) = position ch m a i + (String.utf8EncodeChar cs[i]).length) :
    position ch m a n = a + (encode (cs.take n)).length := by
  induction n with
  | zero => rfl
  | succ n ih =>
      have hi : n < cs.length := hn
      rw [h n hi (Nat.lt_succ_self n), ih (Nat.le_of_succ_le hn) fun i hi hlt => h i hi (by omega),
        length_encode_take hi, Nat.add_assoc]

theorem yields_iff {n : Nat} {f : Nat → UInt32} (hn : n = cs.length) :
    (List.range n).map f = cs.map Char.val ↔ ∀ i (h : i < cs.length), f i = cs[i].val := by
  subst hn
  constructor
  · intro h i hi
    have hget := congrArg (fun l => l[i]?) h
    simpa [hi] using hget
  · intro h
    apply List.ext_getElem
    · simp
    · intro i hi hi'
      simpa using h i (by simpa using hi)

/-- **A text is read back** when each of its characters is. -/
theorem inverts_iff {Good : Char → Prop} (hgood : ∀ p c, HasBytes m p (String.utf8EncodeChar c) →
    (Right ch m p c ↔ Good c)) (h : HasBytes m a (encode cs)) :
    Inverts ch m a cs ↔ ∀ c ∈ cs, Good c := by
  constructor
  · intro hinv c hc
    obtain ⟨i, hi, rfl⟩ := List.getElem_of_mem hc
    have hpos := position_eq (Nat.le_of_lt hi) fun j hj _ => hinv.forward j hj
    have hbytes := hasBytes_character h hi
    rw [← hpos] at hbytes
    apply (hgood _ _ hbytes).mp
    constructor
    · have hforward := hinv.forward i hi
      rw [position] at hforward
      exact Nat.add_left_cancel hforward
    · exact (yields_iff rfl).mp hinv.yields i hi
  · intro hall
    have hright : ∀ i (hi : i < cs.length), Right ch m (a + (encode (cs.take i)).length) cs[i] := by
      intro i hi
      exact (hgood _ _ (hasBytes_character h hi)).mpr (hall _ (List.getElem_mem hi))
    -- by induction, with every character before the place read right
    have hpos : ∀ n ≤ cs.length, position ch m a n = a + (encode (cs.take n)).length := by
      intro n
      induction n with
      | zero => intro _; rfl
      | succ n ih =>
          intro hn
          have hi : n < cs.length := hn
          rw [position, ih (Nat.le_of_lt hi), (hright n hi).1, length_encode_take hi,
            Nat.add_assoc]
    constructor
    · intro i hi
      rw [hpos (i + 1) hi, hpos i (Nat.le_of_lt hi), length_encode_take hi, Nat.add_assoc]
    · rw [hpos cs.length (Nat.le_refl _), List.take_length]
    · rw [yields_iff rfl]
      intro i hi
      rw [hpos i (Nat.le_of_lt hi)]
      exact (hright i hi).2

/-! ## §3. Characters. -/

/-- The value of a character. -/
def value (c : Char) : Nat := c.val.toNat

theorem value_lt (c : Char) : value c < 0x110000 := by
  have h := c.valid
  unfold UInt32.isValidChar Nat.isValidChar at h
  unfold value
  omega

theorem eq_val_iff (c : Char) (v : UInt32) : v = c.val ↔ v.toNat = value c :=
  UInt32.toNat_inj.symm

/-- The four forms of an encoded character. -/
theorem utf8EncodeChar_cases (c : Char) :
    (value c < 0x80 ∧ String.utf8EncodeChar c = [UInt8.ofNat (value c)])
    ∨ (0x80 ≤ value c ∧ value c < 0x800 ∧ String.utf8EncodeChar c
        = [UInt8.ofNat (value c / 64 % 32 + 192), UInt8.ofNat (value c % 64 + 128)])
    ∨ (0x800 ≤ value c ∧ value c < 0x10000 ∧ String.utf8EncodeChar c
        = [UInt8.ofNat (value c / 4096 % 16 + 224), UInt8.ofNat (value c / 64 % 64 + 128),
          UInt8.ofNat (value c % 64 + 128)])
    ∨ (0x10000 ≤ value c ∧ String.utf8EncodeChar c
        = [UInt8.ofNat (value c / 262144 % 8 + 240), UInt8.ofNat (value c / 4096 % 64 + 128),
          UInt8.ofNat (value c / 64 % 64 + 128), UInt8.ofNat (value c % 64 + 128)]) := by
  unfold value String.utf8EncodeChar
  by_cases h1 : c.val.toNat ≤ 0x7F
  · left
    exact ⟨by omega, if_pos h1⟩
  · by_cases h2 : c.val.toNat ≤ 0x7FF
    · right; left
      exact ⟨by omega, by omega, (if_neg h1).trans (if_pos h2)⟩
    · by_cases h3 : c.val.toNat ≤ 0xFFFF
      · right; right; left
        exact ⟨by omega, by omega, (if_neg h1).trans ((if_neg h2).trans (if_pos h3))⟩
      · right; right; right
        exact ⟨by omega, (if_neg h1).trans ((if_neg h2).trans (if_neg h3))⟩

/-- The length of a sequence, for every first byte. -/
theorem getSequenceLength_bytes : ∀ i : Fin 256,
    getSequenceLength (signed (UInt8.ofNat i)) = (if i.val < 0x80 then 1 else 0)
    ∧ getSequenceLength (unsigned (UInt8.ofNat i))
      = if i.val < 0x80 then 1 else if i.val < 0xC0 then 0 else if i.val < 0xE0 then 2
        else if i.val < 0xF0 then 3 else if i.val < 0xF8 then 4 else 0 := by
  decide +kernel

/-! ## §4. Where `char` is signed. -/

/-- A byte that is not in ASCII has no length. -/
theorem getSequenceLength_signed {n : Nat} (hn : n < 256) :
    getSequenceLength (signed (UInt8.ofNat n)) = if n < 0x80 then 1 else 0 :=
  (getSequenceLength_bytes ⟨n, hn⟩).1

theorem right_signed_iff {p : Nat} {c : Char} (h : HasBytes m p (String.utf8EncodeChar c)) :
    Right signed m p c ↔ value c < 0x80 := by
  have hne : 0 < (String.utf8EncodeChar c).length := by
    rw [String.length_utf8EncodeChar]
    exact c.utf8Size_pos
  constructor
  · intro hright
    -- a first byte above ASCII would have to have length 0
    by_contra hhigh
    have hfirst : ∃ n rest, String.utf8EncodeChar c = UInt8.ofNat n :: rest ∧ 0x80 ≤ n ∧ n < 256 := by
      rcases utf8EncodeChar_cases c with h1 | h2 | h3 | h4
      · exact absurd h1.1 hhigh
      · exact ⟨_, _, h2.2.2, by omega, by omega⟩
      · exact ⟨_, _, h3.2.2, by omega, by omega⟩
      · exact ⟨_, _, h4.2, by omega, by omega⟩
    obtain ⟨n, rest, hbytes, hlow, hlt⟩ := hfirst
    have hlen := hright.1
    rw [hbytes] at h
    rw [(hasBytes_cons.mp h).1, getSequenceLength_signed hlt, if_neg (by omega)] at hlen
    omega
  · intro hlow
    have hform : String.utf8EncodeChar c = [UInt8.ofNat (value c)] := by
      rcases utf8EncodeChar_cases c with h1 | h2 | h3 | h4
      · exact h1.2
      · omega
      · omega
      · omega
    rw [hform] at h
    have hbyte : m.byte p = UInt8.ofNat (value c) := (hasBytes_cons.mp h).1
    have hlen : getSequenceLength (signed (m.byte p)) = 1 := by
      rw [hbyte, getSequenceLength_signed (by omega), if_pos hlow]
    constructor
    · rw [hlen, hform]
      rfl
    · have hcode : getCodePoint signed m p = (signed (m.byte p)).toUInt32 := by
        unfold getCodePoint
        simp only [Nat.add_zero, hlen]
      have hascii : ∀ i : Fin 128, ((signed (UInt8.ofNat i)).toUInt32).toNat = i.val := by
        decide +kernel
      rw [hcode, eq_val_iff, hbyte]
      exact hascii ⟨value c, hlow⟩

/-- **Where `char` is signed** a text is read back when all of it is in ASCII. -/
theorem inverts_signed_iff (h : HasBytes m a (encode cs)) :
    Inverts signed m a cs ↔ ∀ c ∈ cs, value c < 0x80 :=
  inverts_iff (fun _ _ => right_signed_iff) h

/-- The letters of "metta", read from the beginning of a memory that holds them. -/
theorem inverts_signed_metta :
    Inverts signed ⟨fun a => (encode ['m', 'e', 't', 't', 'a']).getD a 0, []⟩ 0
      ['m', 'e', 't', 't', 'a'] :=
  (inverts_signed_iff (fun i hi => by simp [hi])).mpr
    (by simp only [List.forall_mem_cons, List.not_mem_nil, false_imp_iff, forall_const]; decide)

/-- U+00E9, the letter e with an acute accent. -/
def accented : Char := Char.ofNat 0xE9

/-- Its two bytes, and NULs. -/
def accentedBytes : Memory := ⟨fun a => [0xC3, 0xA9].getD a 0, []⟩

/-- A step over the letter does not go forward. -/
theorem inverts_not_signed :
    HasBytes accentedBytes 0 (encode [accented]) ∧ ¬ Inverts signed accentedBytes 0 [accented] := by
  constructor
  · intro i hi
    have henc : encode [accented] = [0xC3, 0xA9] := by decide
    have hlen : i < 2 := by simpa [henc] using hi
    simp only [henc]
    match i, hlen with
    | 0, _ => rfl
    | 1, _ => rfl
  · intro h
    exact absurd h.ends (by decide)

/-! ## §5. Where `char` is unsigned. -/

theorem getSequenceLength_unsigned {n : Nat} (hn : n < 256) :
    getSequenceLength (unsigned (UInt8.ofNat n))
      = if n < 0x80 then 1 else if n < 0xC0 then 0 else if n < 0xE0 then 2
        else if n < 0xF0 then 3 else if n < 0xF8 then 4 else 0 :=
  (getSequenceLength_bytes ⟨n, hn⟩).2

/-- Of a byte that is shifted, a mask takes the low bits. -/
theorem toNat_shift_and (x : UInt32) (j : Nat) {k : Nat} (h : j + k ≤ 31) :
    ((x <<< UInt32.ofNat k) &&& UInt32.ofNat (2 ^ (j + k) - 1)).toNat
      = x.toNat % 2 ^ j * 2 ^ k := by
  have hpow : 2 ^ (j + k) ≤ 2 ^ 31 := Nat.pow_le_pow_right (by decide) h
  have hmask : (UInt32.ofNat (2 ^ (j + k) - 1)).toNat = 2 ^ (j + k) - 1 := by
    rw [UInt32.toNat_ofNat', Nat.mod_eq_of_lt]
    omega
  have hshift : (UInt32.ofNat k).toNat % 32 = k := by
    rw [UInt32.toNat_ofNat']
    omega
  rw [UInt32.toNat_and, hmask, Nat.and_two_pow_sub_one_eq_mod, UInt32.toNat_shiftLeft, hshift,
    Nat.shiftLeft_eq, Nat.mod_mod_of_dvd _ (Nat.pow_dvd_pow 2 (by omega)), Nat.pow_add,
    Nat.mul_mod_mul_right]

theorem toNat_and_digit (x : UInt32) : (x &&& 0x3F).toNat = x.toNat % 64 := by
  rw [UInt32.toNat_and]
  exact Nat.and_two_pow_sub_one_eq_mod x.toNat 6

variable {p : Nat} {b0 b1 b2 b3 : UInt8}

theorem codePoint_one (h0 : m.byte p = b0) (hlen : getSequenceLength (unsigned b0) = 1) :
    (getCodePoint unsigned m p).toNat = b0.toNat := by
  have hcode : getCodePoint unsigned m p = b0.toUInt32 := by
    unfold getCodePoint
    simp only [Nat.add_zero, h0, hlen]
    rfl
  rw [hcode, UInt8.toNat_toUInt32]

theorem codePoint_two (h0 : m.byte p = b0) (h1 : m.byte (p + 1) = b1)
    (hlen : getSequenceLength (unsigned b0) = 2) :
    (getCodePoint unsigned m p).toNat = b0.toNat % 32 * 64 + b1.toNat % 64 := by
  have hcode : getCodePoint unsigned m p
      = ((b0.toUInt32 <<< UInt32.ofNat 6) &&& UInt32.ofNat (2 ^ (5 + 6) - 1))
        + (b1.toUInt32 &&& 0x3F) := by
    unfold getCodePoint
    simp only [Nat.add_zero, h0, h1, hlen]
    rfl
  rw [hcode, UInt32.toNat_add, toNat_shift_and _ 5 (by decide), toNat_and_digit,
    UInt8.toNat_toUInt32, UInt8.toNat_toUInt32]
  omega

theorem codePoint_three (h0 : m.byte p = b0) (h1 : m.byte (p + 1) = b1)
    (h2 : m.byte (p + 2) = b2) (hlen : getSequenceLength (unsigned b0) = 3) :
    (getCodePoint unsigned m p).toNat
      = b0.toNat % 16 * 4096 + b1.toNat % 64 * 64 + b2.toNat % 64 := by
  have hcode : getCodePoint unsigned m p
      = ((b0.toUInt32 <<< UInt32.ofNat 12) &&& UInt32.ofNat (2 ^ (4 + 12) - 1))
        + ((b1.toUInt32 <<< UInt32.ofNat 6) &&& UInt32.ofNat (2 ^ (6 + 6) - 1))
        + (b2.toUInt32 &&& 0x3F) := by
    unfold getCodePoint
    simp only [Nat.add_zero, h0, h1, h2, hlen]
    rfl
  rw [hcode, UInt32.toNat_add, UInt32.toNat_add, toNat_shift_and _ 4 (by decide),
    toNat_shift_and _ 6 (by decide), toNat_and_digit, UInt8.toNat_toUInt32, UInt8.toNat_toUInt32,
    UInt8.toNat_toUInt32]
  omega

/-- The last byte is not looked at. -/
theorem codePoint_four (h0 : m.byte p = b0) (h1 : m.byte (p + 1) = b1)
    (h2 : m.byte (p + 2) = b2) (hlen : getSequenceLength (unsigned b0) = 4) :
    (getCodePoint unsigned m p).toNat
      = b0.toNat % 8 * 262144 + b1.toNat % 64 * 4096 + b2.toNat % 64 * 64
        + (b0.toNat + 3) % 64 := by
  have hcode : getCodePoint unsigned m p
      = ((b0.toUInt32 <<< UInt32.ofNat 18) &&& UInt32.ofNat (2 ^ (3 + 18) - 1))
        + ((b1.toUInt32 <<< UInt32.ofNat 12) &&& UInt32.ofNat (2 ^ (6 + 12) - 1))
        + ((b2.toUInt32 <<< UInt32.ofNat 6) &&& UInt32.ofNat (2 ^ (6 + 6) - 1))
        + ((b0.toUInt32 + 3) &&& 0x3F) := by
    unfold getCodePoint
    simp only [Nat.add_zero, h0, h1, h2, hlen]
    rfl
  have hsum : (b0.toUInt32 + 3).toNat = b0.toNat + 3 := by
    have hb := b0.toNat_lt
    rw [UInt32.toNat_add, UInt8.toNat_toUInt32]
    show (b0.toNat + 3) % 2 ^ 32 = b0.toNat + 3
    omega
  rw [hcode, UInt32.toNat_add, UInt32.toNat_add, UInt32.toNat_add, toNat_shift_and _ 3 (by decide),
    toNat_shift_and _ 6 (by decide), toNat_shift_and _ 6 (by decide), toNat_and_digit, hsum,
    UInt8.toNat_toUInt32, UInt8.toNat_toUInt32, UInt8.toNat_toUInt32]
  omega

/-- What a character of four bytes has to be, so that its last digit is the one that is made of
the first byte. -/
def Lucky (c : Char) : Prop := value c % 64 = 51 + value c / 262144

theorem right_unsigned_iff {c : Char} (h : HasBytes m p (String.utf8EncodeChar c)) :
    Right unsigned m p c ↔ value c < 0x10000 ∨ Lucky c := by
  have hvalue := value_lt c
  unfold Right
  rw [eq_val_iff]
  rcases utf8EncodeChar_cases c with
    ⟨hlt, hform⟩ | ⟨hge, hlt, hform⟩ | ⟨hge, hlt, hform⟩ | ⟨hge, hform⟩
  · rw [hform] at h ⊢
    have h0 := (hasBytes_cons.mp h).1
    have hlen := getSequenceLength_unsigned (n := value c) (by omega)
    rw [if_pos hlt] at hlen
    rw [codePoint_one h0 hlen, h0, hlen, UInt8.toNat_ofNat']
    exact iff_of_true ⟨rfl, by omega⟩ (.inl (by omega))
  · rw [hform] at h ⊢
    have h0 := hasBytes_cons.mp h
    have h1 := hasBytes_cons.mp h0.2
    have hlen := getSequenceLength_unsigned (n := value c / 64 % 32 + 192) (by omega)
    rw [if_neg (by omega), if_neg (by omega), if_pos (by omega)] at hlen
    rw [codePoint_two h0.1 h1.1 hlen, h0.1, hlen, UInt8.toNat_ofNat', UInt8.toNat_ofNat']
    exact iff_of_true ⟨rfl, by omega⟩ (.inl (by omega))
  · rw [hform] at h ⊢
    have h0 := hasBytes_cons.mp h
    have h1 := hasBytes_cons.mp h0.2
    have h2 := hasBytes_cons.mp h1.2
    have hlen := getSequenceLength_unsigned (n := value c / 4096 % 16 + 224) (by omega)
    rw [if_neg (by omega), if_neg (by omega), if_neg (by omega), if_pos (by omega)] at hlen
    rw [codePoint_three h0.1 h1.1 h2.1 hlen, h0.1, hlen, UInt8.toNat_ofNat', UInt8.toNat_ofNat',
      UInt8.toNat_ofNat']
    exact iff_of_true ⟨rfl, by omega⟩ (.inl (by omega))
  · rw [hform] at h ⊢
    have h0 := hasBytes_cons.mp h
    have h1 := hasBytes_cons.mp h0.2
    have h2 := hasBytes_cons.mp h1.2
    have hlen := getSequenceLength_unsigned (n := value c / 262144 % 8 + 240) (by omega)
    rw [if_neg (by omega), if_neg (by omega), if_neg (by omega), if_neg (by omega),
      if_pos (by omega)] at hlen
    -- the digits of the first three bytes, and the one that is made of the first
    have hfirst : (value c / 262144 % 8 + 240) % 2 ^ 8 = value c / 262144 + 240 := by omega
    have hsecond : (value c / 4096 % 64 + 128) % 2 ^ 8 % 64 = value c / 4096 % 64 := by omega
    have hthird : (value c / 64 % 64 + 128) % 2 ^ 8 % 64 = value c / 64 % 64 := by omega
    have hlast : (value c / 262144 + 240 + 3) % 64 = 51 + value c / 262144 := by omega
    have hhigh : (value c / 262144 + 240) % 8 = value c / 262144 := by omega
    have hdigits : value c / 262144 * 262144 + value c / 4096 % 64 * 4096 + value c / 64 % 64 * 64
        + value c % 64 = value c := by omega
    rw [codePoint_four h0.1 h1.1 h2.1 hlen, h0.1, hlen, UInt8.toNat_ofNat', UInt8.toNat_ofNat',
      UInt8.toNat_ofNat', hfirst, hsecond, hthird, hlast, hhigh]
    unfold Lucky
    constructor
    · intro hright
      right
      have hcode := hright.2
      omega
    · intro hlucky
      constructor
      · rfl
      · omega

/-- **Where `char` is unsigned** a text is read back when its characters of four bytes are
those few whose last digit comes out right. -/
theorem inverts_unsigned_iff (h : HasBytes m a (encode cs)) :
    Inverts unsigned m a cs ↔ ∀ c ∈ cs, value c < 0x10000 ∨ Lucky c :=
  inverts_iff (fun _ _ => right_unsigned_iff) h

end Metta.Runtime.Utf8
