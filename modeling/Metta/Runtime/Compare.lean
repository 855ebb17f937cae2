/-
  Metta.Runtime.Compare — comparing areas of memory and strings.

  A `char` is signed.  The difference of two of them is an int from -255 to 255, and
  `memory_difference` keeps it in a `signed char`: of two bytes that are 128 apart or more, the
  sign may say the wrong thing.  Equality is never wrong.

    • `signedChar`, `char` — bytes as the code has them,
    • `isMemoryEqual`, `memoryDifference`, `isStringEqual`, `Stringref` — as the source has them,
    • `isMemoryEqual_iff`, `settles_isStringEqual` — equality,
    • `Close`, `tells_byteDifference_iff` — when the sign is right for two bytes,
    • `memoryDifference_ordered_iff` — when a comparison is the lexicographic order,
    • `Stringref.tells_compare_iff`, `Stringref.equals_iff` — strings with their lengths.
-/
import Metta.Machine.Bytes
import Metta.Machine.Chase
import Metta.Machine.Lexicographic

namespace Metta.Runtime

open Metta.Machine Metta.Machine.Memory

/-! ## §1. The functions. -/

/-- What a conversion to `signed char` leaves of an int. -/
def signedChar (x : Int) : Int := x.bmod 256

/-- `*p` for a `const char*`. -/
def char (m : Memory) (p : Nat) : Int := signedChar (m.byte p).toNat

def isMemoryEqual (m : Memory) (left right : Nat) : Nat → Bool
  | 0 => true
  | count + 1 =>
      if char m left ≠ char m right then false
      else isMemoryEqual m (add32 left 1) (add32 right 1) count

def memoryDifference (m : Memory) (left right : Nat) : Nat → Int
  | 0 => 0
  | count + 1 =>
      let res := signedChar (char m left - char m right)
      if res ≠ 0 then res else memoryDifference m (add32 left 1) (add32 right 1) count

/-- One turn of the loop of `is_string_equal`. -/
def isStringEqualTurn (m : Memory) (s : Nat × Nat) : Bool ⊕ (Nat × Nat) :=
  let res := signedChar (char m s.1 - char m s.2)
  if res ≠ 0 ∨ char m s.1 = 0 then .inl (decide (res = 0))
  else .inr (add32 s.1 1, add32 s.2 1)

def isStringEqual (m : Memory) (s1 s2 fuel : Nat) : Option Bool :=
  if s1 = 0 ∧ s2 = 0 then some true
  else if s1 = 0 ∨ s2 = 0 then some false
  else Chase.run (isStringEqualTurn m) fuel (s1, s2)

/-- `stringref_t`. -/
structure Stringref where
  data : Nat
  length : Nat

namespace Stringref

def compareMemory (m : Memory) (lhs rhs length : Nat) : Int :=
  if length = 0 then 0 else memoryDifference m lhs rhs length

def equals (m : Memory) (s rhs : Stringref) : Bool :=
  s.length = rhs.length ∧ compareMemory m s.data rhs.data rhs.length = 0

def compare (m : Memory) (s rhs : Stringref) : Int :=
  let res := compareMemory m s.data rhs.data (min s.length rhs.length)
  if res ≠ 0 then if res < 0 then -1 else 1
  else if s.length = rhs.length then 0
  else if s.length < rhs.length then -1
  else 1

def startswith (m : Memory) (s pre : Stringref) : Bool :=
  pre.length ≤ s.length ∧ compareMemory m s.data pre.data pre.length = 0

end Stringref

/-! ## §2. Areas of memory. -/

/-- The bytes of an area. -/
def area (m : Memory) (a : Nat) : Nat → List UInt8
  | 0 => []
  | n + 1 => m.byte a :: area m (add32 a 1) n

variable {m : Memory}

@[simp] theorem length_area (a n : Nat) : (area m a n).length = n := by
  induction n generalizing a with
  | zero => rfl
  | succ n ih => rw [area, List.length_cons, ih]

/-- Every string that lies in memory is an area. -/
theorem area_eq {a : Nat} {bs : List UInt8} (h : HasBytes m a bs)
    (ha : a + bs.length ≤ wordSize) : area m a bs.length = bs := by
  induction bs generalizing a with
  | nil => rfl
  | cons b bs ih =>
      have hcons := hasBytes_cons.mp h
      rw [List.length_cons] at ha ⊢
      rw [area, hcons.1]
      congr 1
      by_cases hend : a + 1 = wordSize
      · -- the last byte of the address space is the last one of the string
        have hnil : bs = [] := List.length_eq_zero_iff.mp (by omega)
        subst hnil
        rfl
      · rw [add32_eq (by omega)]
        exact ih hcons.2 (by omega)

theorem area_take (a n k : Nat) : (area m a n).take k = area m a (min k n) := by
  induction n generalizing a k with
  | zero =>
      rw [Nat.min_zero]
      exact List.take_nil
  | succ n ih =>
      cases k with
      | zero =>
          rw [Nat.zero_min]
          rfl
      | succ k =>
          rw [Nat.succ_min_succ]
          show m.byte a :: (area m (add32 a 1) n).take k = m.byte a :: area m (add32 a 1) (min k n)
          rw [ih]

/-! ## §3. Two bytes. -/

/-- The difference of two bytes as `memory_difference` takes it. -/
def byteDifference (a b : UInt8) : Int := signedChar (signedChar a.toNat - signedChar b.toNat)

/-- The difference of the two, unsigned, is a `signed char`. -/
def Close (a b : UInt8) : Prop :=
  -128 ≤ (a.toNat : Int) - b.toNat ∧ (a.toNat : Int) - b.toNat ≤ 127

instance (a b : UInt8) : Decidable (Close a b) := inferInstanceAs (Decidable (_ ∧ _))

theorem byteDifference_eq (a b : UInt8) : byteDifference a b = signedChar (a.toNat - b.toNat) := by
  unfold byteDifference signedChar
  simp

/-- A byte difference is the difference, or 256 beside it. -/
theorem byteDifference_cases (a b : UInt8) :
    (Close a b ∧ byteDifference a b = (a.toNat : Int) - b.toNat) ∨
    ((a.toNat : Int) - b.toNat < -128 ∧ byteDifference a b = (a.toNat : Int) - b.toNat + 256) ∨
    (127 < (a.toNat : Int) - b.toNat ∧ byteDifference a b = (a.toNat : Int) - b.toNat - 256) := by
  have ha := a.toNat_lt
  have hb := b.toNat_lt
  rw [byteDifference_eq]
  unfold Close signedChar
  rw [Int.bmod_def]
  split <;> omega

theorem byteDifference_eq_zero_iff (a b : UInt8) : byteDifference a b = 0 ↔ a = b := by
  have ha := a.toNat_lt
  have hb := b.toNat_lt
  rw [← UInt8.toNat_inj]
  have hcases := byteDifference_cases a b
  unfold Close at hcases
  omega

theorem tells_byteDifference_iff (a b : UInt8) : Tells (byteDifference a b) a b ↔ Close a b := by
  have ha := a.toNat_lt
  have hb := b.toNat_lt
  have hcases := byteDifference_cases a b
  unfold Close at hcases ⊢
  constructor
  · intro h
    have hlt := h.lt
    have hgt := h.gt
    rw [UInt8.lt_iff_toNat_lt] at hlt hgt
    omega
  · intro h
    constructor
    · rw [UInt8.lt_iff_toNat_lt]
      omega
    · rw [UInt8.lt_iff_toNat_lt]
      omega

theorem signedChar_inj {a b : UInt8} : signedChar a.toNat = signedChar b.toNat ↔ a = b := by
  have ha := a.toNat_lt
  have hb := b.toNat_lt
  rw [← UInt8.toNat_inj]
  unfold signedChar
  rw [Int.bmod_def, Int.bmod_def]
  split <;> split <;> omega

/-! ## §4. Areas of one length. -/

/-- A comparison of the common part is one of the two areas. -/
theorem firstDifference_area (left right n k : Nat) :
    firstDifference byteDifference (area m left n) (area m right k)
      = memoryDifference m left right (min n k) := by
  induction n generalizing left right k with
  | zero =>
      rw [Nat.zero_min]
      rfl
  | succ n ih =>
      cases k with
      | zero =>
          rw [Nat.min_zero]
          rfl
      | succ k =>
          rw [Nat.succ_min_succ]
          unfold area firstDifference memoryDifference
          rw [ih]
          rfl

theorem memoryDifference_eq (m : Memory) (left right n : Nat) :
    memoryDifference m left right n
      = firstDifference byteDifference (area m left n) (area m right n) := by
  rw [firstDifference_area, Nat.min_self]

theorem memoryDifference_eq_zero_iff (left right n : Nat) :
    memoryDifference m left right n = 0 ↔ area m left n = area m right n := by
  rw [memoryDifference_eq]
  exact firstDifference_eq_zero_iff byteDifference_eq_zero_iff
    ((length_area left n).trans (length_area right n).symm)

/-- `is_memory_equal` says whether the areas are equal. -/
theorem isMemoryEqual_iff (left right n : Nat) :
    isMemoryEqual m left right n = true ↔ area m left n = area m right n := by
  induction n generalizing left right with
  | zero => exact iff_of_true rfl rfl
  | succ n ih =>
      unfold isMemoryEqual area char
      rw [List.cons_eq_cons, ← ih, ← signedChar_inj]
      by_cases heq : signedChar (m.byte left).toNat = signedChar (m.byte right).toNat
      · rw [if_neg (not_not_intro heq)]
        exact (and_iff_right heq).symm
      · rw [if_pos heq]
        exact iff_of_false Bool.false_ne_true fun h => heq h.1

theorem tells_memoryDifference_iff (left right n : Nat) :
    Tells (memoryDifference m left right n) (area m left n) (area m right n)
      ↔ AtFirst Close (area m left n) (area m right n) := by
  rw [memoryDifference_eq, tells_firstDifference_iff byteDifference_eq_zero_iff (by simp)]
  exact AtFirst.congr (fun a b _ => tells_byteDifference_iff a b) _ _

/-- What a comparison of areas of `n` bytes is to be, for the areas at `places`. -/
structure Ordered (m : Memory) (n : Nat) (places : Set Nat) : Prop where
  zero : ∀ l ∈ places, ∀ r ∈ places, memoryDifference m l r n = 0 ↔ area m l n = area m r n
  tells : ∀ l ∈ places, ∀ r ∈ places,
    Tells (memoryDifference m l r n) (area m l n) (area m r n)
  antisymm : ∀ l ∈ places, ∀ r ∈ places,
    memoryDifference m l r n < 0 ↔ 0 < memoryDifference m r l n
  trans : ∀ l ∈ places, ∀ r ∈ places, ∀ s ∈ places, memoryDifference m l r n < 0 →
    memoryDifference m r s n < 0 → memoryDifference m l s n < 0

/-- **A comparison of two areas** is their lexicographic order when the first bytes that differ
are close, and the comparisons among some areas are a total order when that holds of any two. -/
theorem memoryDifference_ordered_iff (m : Memory) (n : Nat) :
    (∀ l r, ((memoryDifference m l r n = 0 ↔ area m l n = area m r n)
        ∧ Tells (memoryDifference m l r n) (area m l n) (area m r n))
      ↔ AtFirst Close (area m l n) (area m r n))
    ∧ ∀ places, Ordered m n places
      ↔ ∀ l ∈ places, ∀ r ∈ places, AtFirst Close (area m l n) (area m r n) := by
  constructor
  · intro l r
    rw [tells_memoryDifference_iff]
    exact and_iff_right (memoryDifference_eq_zero_iff l r n)
  · intro places
    constructor
    · intro h l hl r hr
      exact (tells_memoryDifference_iff l r n).mp (h.tells l hl r hr)
    · intro h
      have htells : ∀ l ∈ places, ∀ r ∈ places,
          Tells (memoryDifference m l r n) (area m l n) (area m r n) := by
        intro l hl r hr
        exact (tells_memoryDifference_iff l r n).mpr (h l hl r hr)
      constructor
      · intro l _ r _
        exact memoryDifference_eq_zero_iff l r n
      · exact htells
      · intro l hl r hr
        exact (htells l hl r hr).swap (htells r hr l hl)
      · intro l hl r hr s hs
        exact (htells l hl r hr).trans (htells r hr s hs) (htells l hl s hs)

/-- The bytes 0x00, 0x60, 0xC0 and 0x80, from address 0 on. -/
def farBytes : Memory := ⟨fun a => [0x00, 0x60, 0xC0, 0x80].getD a 0, []⟩

/-- 0x00 is before 0x60, 0x60 before 0xC0, and 0x00 behind 0xC0; 0x00 and 0x80 are each before
the other. -/
theorem memoryDifference_not_ordered :
    memoryDifference farBytes 0 1 1 < 0 ∧ memoryDifference farBytes 1 2 1 < 0
      ∧ 0 < memoryDifference farBytes 0 2 1
      ∧ area farBytes 0 1 < area farBytes 2 1
      ∧ memoryDifference farBytes 0 3 1 < 0 ∧ memoryDifference farBytes 3 0 1 < 0
      ∧ ¬ ∀ (m : Memory) (n l r : Nat),
        (memoryDifference m l r n = 0 ↔ area m l n = area m r n)
          ∧ Tells (memoryDifference m l r n) (area m l n) (area m r n) := by
  have hpos : 0 < memoryDifference farBytes 0 2 1 := by decide
  have hlt : area farBytes 0 1 < area farBytes 2 1 := by decide
  refine ⟨by decide, by decide, hpos, hlt, by decide, by decide, ?_⟩
  intro h
  have hgt := ((h farBytes 1 0 2).2.gt).mp hpos
  exact List.lt_asymm hlt hgt

/-! ## §5. Strings. -/

/-- A turn goes on over two equal characters that are not the NUL. -/
theorem isStringEqualTurn_cons {s1 s2 : Nat} {b b' : UInt8} (h1 : m.byte s1 = b)
    (h2 : m.byte s2 = b') :
    isStringEqualTurn m (s1, s2)
      = if b = b' ∧ b ≠ 0 then .inr (add32 s1 1, add32 s2 1) else .inl (decide (b = b')) := by
  have hres : signedChar (char m s1 - char m s2) = byteDifference b b' := by
    unfold char byteDifference
    rw [h1, h2]
  have hnul : char m s1 = 0 ↔ b = 0 := by
    have h0 : signedChar (0 : UInt8).toNat = 0 := by decide
    have hinj : signedChar b.toNat = signedChar (0 : UInt8).toNat ↔ b = 0 := signedChar_inj
    unfold char
    rwa [h1, ← h0]
  unfold isStringEqualTurn
  simp only [hres, hnul, byteDifference_eq_zero_iff, ne_eq]
  by_cases heq : b = b'
  · by_cases h0 : b = 0
    · rw [if_pos (.inr h0), if_neg (fun h => h.2 h0)]
    · rw [if_neg (not_or.mpr ⟨not_not_intro heq, h0⟩), if_pos ⟨heq, h0⟩]
  · rw [if_pos (.inl heq), if_neg (fun h => heq h.1)]

/-- The loop over two strings ends, and says whether they are equal. -/
theorem reaches_isStringEqualTurn {s1 s2 : Nat} {t t' : Text} (h1 : HasBytes m s1 t.terminated)
    (h2 : HasBytes m s2 t'.terminated) (hs1 : s1 + t.terminated.length ≤ wordSize)
    (hs2 : s2 + t'.terminated.length ≤ wordSize) :
    ∃ z, Chase.Reaches (isStringEqualTurn m) (s1, s2) z
      ∧ isStringEqualTurn m z = .inl (decide (t.bytes = t'.bytes)) := by
  obtain ⟨bs, hbs⟩ := t
  obtain ⟨bs', hbs'⟩ := t'
  simp only [Text.terminated, List.length_append, List.length_singleton] at h1 h2 hs1 hs2 ⊢
  induction bs generalizing s1 s2 bs' with
  | nil =>
      have hb := (hasBytes_cons.mp h1).1
      apply Exists.intro (s1, s2)
      constructor
      · exact .refl
      · -- the first string ends here: equal if the other one does
        cases bs' with
        | nil =>
            rw [isStringEqualTurn_cons hb (hasBytes_cons.mp h2).1]
            rfl
        | cons b' bs' =>
            have hne : (0 : UInt8) ≠ b' := (hbs' b' List.mem_cons_self).symm
            rw [isStringEqualTurn_cons hb (hasBytes_cons.mp h2).1, if_neg (fun h => hne h.1),
              decide_eq_false hne, decide_eq_false (List.cons_ne_nil b' bs').symm]
  | cons b bs ih =>
      have hb := hasBytes_cons.mp h1
      have hb0 : b ≠ 0 := hbs b List.mem_cons_self
      rw [List.length_cons] at hs1
      -- the first string goes on: equal if the other one does with the same characters
      cases bs' with
      | nil =>
          have hb' := (hasBytes_cons.mp h2).1
          apply Exists.intro (s1, s2)
          constructor
          · exact .refl
          · rw [isStringEqualTurn_cons hb.1 hb', if_neg (fun h => hb0 h.1), decide_eq_false hb0,
              decide_eq_false (List.cons_ne_nil b bs)]
      | cons b' bs' =>
          have hb' := hasBytes_cons.mp h2
          rw [List.length_cons] at hs2
          have hturn := isStringEqualTurn_cons hb.1 hb'.1
          by_cases heq : b = b'
          · -- one character further in both
            rw [if_pos ⟨heq, hb0⟩] at hturn
            rw [add32_eq (by omega), add32_eq (by omega)] at hturn
            have hrest := ih (fun x hx => hbs x (List.mem_cons_of_mem b hx)) hb.2 bs'
              (fun x hx => hbs' x (List.mem_cons_of_mem b' hx)) hb'.2 (by omega) (by omega)
            obtain ⟨z, hz, hresult⟩ := hrest
            apply Exists.intro z
            constructor
            · exact Relation.ReflTransGen.head hturn hz
            · rw [hresult]
              simp only [List.cons.injEq, heq, true_and]
          · apply Exists.intro (s1, s2)
            constructor
            · exact .refl
            · rw [hturn, if_neg (fun h => heq h.1), decide_eq_false heq,
                decide_eq_false (fun h => heq (List.head_eq_of_cons_eq h))]

/-- `is_string_equal` ends, and says whether the two strings are equal. -/
theorem settles_isStringEqual {s1 s2 : Nat} {t t' : Text} (h1 : HasBytes m s1 t.terminated)
    (h2 : HasBytes m s2 t'.terminated) (hs1 : s1 + t.terminated.length ≤ wordSize)
    (hs2 : s2 + t'.terminated.length ≤ wordSize) (h1' : s1 ≠ 0) (h2' : s2 ≠ 0) :
    Settles (isStringEqual m s1 s2) (some (decide (t.bytes = t'.bytes))) := by
  obtain ⟨z, hz, hr⟩ := reaches_isStringEqualTurn h1 h2 hs1 hs2
  have hfun : isStringEqual m s1 s2 = fun fuel => Chase.run (isStringEqualTurn m) fuel (s1, s2) := by
    funext fuel
    unfold isStringEqual
    rw [if_neg (fun h => h1' h.1), if_neg (fun h => h.elim h1' h2')]
  rw [hfun]
  exact Chase.settles_run hz hr

/-! ## §6. Strings with their lengths. -/

namespace Stringref

variable {s rhs : Stringref}

/-- The bytes of a string. -/
def text (m : Memory) (s : Stringref) : List UInt8 := area m s.data s.length

theorem compareMemory_eq (l r n : Nat) : compareMemory m l r n = memoryDifference m l r n := by
  unfold compareMemory
  cases n with
  | zero => rfl
  | succ n => exact if_neg (Nat.succ_ne_zero n)

/-- `compare` has the sign of the general comparison. -/
theorem compare_sign (m : Memory) (s rhs : Stringref) :
    compare m s rhs = (compareBy byteDifference (text m s) (text m rhs)).sign := by
  unfold compare compareBy text
  rw [compareMemory_eq, firstDifference_area, length_area, length_area]
  by_cases h0 : memoryDifference m s.data rhs.data (min s.length rhs.length) = 0
  · rw [if_neg (not_not_intro h0), if_neg (not_not_intro h0)]
    by_cases heq : s.length = rhs.length
    · rw [if_pos heq, heq, Int.sub_self]
      rfl
    · rw [if_neg heq]
      by_cases hlt : s.length < rhs.length
      · rw [if_pos hlt, Int.sign_eq_neg_one_of_neg (by omega)]
      · rw [if_neg hlt, Int.sign_eq_one_of_pos (by omega)]
  · rw [if_pos h0, if_pos h0]
    by_cases hneg : memoryDifference m s.data rhs.data (min s.length rhs.length) < 0
    · rw [if_pos hneg, Int.sign_eq_neg_one_of_neg hneg]
    · rw [if_neg hneg, Int.sign_eq_one_of_pos (by omega)]

/-- `compare` is the lexicographic order when the first bytes that differ are close. -/
theorem tells_compare_iff (m : Memory) (s rhs : Stringref) :
    Tells (compare m s rhs) (text m s) (text m rhs)
      ↔ AtFirst Close (text m s) (text m rhs) := by
  have hsign : Tells (compare m s rhs) (text m s) (text m rhs)
      ↔ Tells (compareBy byteDifference (text m s) (text m rhs)) (text m s) (text m rhs) := by
    rw [compare_sign]
    constructor
    · intro h
      exact ⟨Int.sign_neg_iff.symm.trans h.lt, Int.sign_pos_iff.symm.trans h.gt⟩
    · intro h
      exact ⟨Int.sign_neg_iff.trans h.lt, Int.sign_pos_iff.trans h.gt⟩
  rw [hsign, tells_compareBy_iff byteDifference_eq_zero_iff]
  exact AtFirst.congr (fun a b _ => tells_byteDifference_iff a b) _ _

/-- `equals` says whether the two strings are equal. -/
theorem equals_iff (m : Memory) (s rhs : Stringref) :
    equals m s rhs = true ↔ text m s = text m rhs := by
  unfold equals text
  rw [decide_eq_true_iff, compareMemory_eq, memoryDifference_eq_zero_iff]
  constructor
  · intro h
    rw [h.1, h.2]
  · intro h
    have hlen : s.length = rhs.length := by
      have := congrArg List.length h
      rwa [length_area, length_area] at this
    exact ⟨hlen, hlen ▸ h⟩

/-- `startswith` says whether one string is a beginning of the other. -/
theorem startswith_iff (m : Memory) (s pre : Stringref) :
    startswith m s pre = true ↔ text m pre <+: text m s := by
  unfold startswith text
  rw [decide_eq_true_iff, compareMemory_eq, memoryDifference_eq_zero_iff, List.prefix_iff_eq_take,
    length_area, area_take]
  constructor
  · intro h
    rw [Nat.min_eq_left h.1]
    exact h.2.symm
  · intro h
    have hlen : pre.length = min pre.length s.length := by
      have := congrArg List.length h
      rwa [length_area, length_area] at this
    have hle : pre.length ≤ s.length := by omega
    rw [Nat.min_eq_left hle] at h
    exact ⟨hle, h.symm⟩

end Stringref

end Metta.Runtime
