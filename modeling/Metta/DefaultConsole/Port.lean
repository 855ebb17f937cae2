/-
  Metta.DefaultConsole.Port — the console on the debug port.

  `print_char` gives each character to the debug port too, where the log of a run is kept.  The
  characters of a call do not depend on what is on the screen, so the log is the calls written
  one after the other.

    • `sent` — what the port gets for a character,
    • `Op.chars` — the characters that a call prints, in their order,
    • `call_cells` — they are the ones that the screen shows,
    • `chars_printInt`, `chars_printHex` — the numerals,
    • `port` — the log of some calls.
-/
import Metta.DefaultConsole.Window

namespace Metta.DefaultConsole

/-! ## §1. The characters of a call. -/

/-- `bochs_console_print_char` behind the `switch`, which has changed what cannot be printed. -/
def sent (ch : UInt8) : UInt8 :=
  if ch = '\r'.toUInt8 then ch
  else if ch = '\n'.toUInt8 then ch
  else if ch = '\t'.toUInt8 then ch
  else shown ch

/-- `while (div > 0)`. -/
def digitChars (n div : Nat) : List UInt8 :=
  if hdiv : 0 < div then
    ('0'.toUInt8 + UInt8.ofNat (n / div)) :: digitChars (n % div) (div / 10)
  else []
termination_by div

/-- `print_int`. -/
def intChars (n : BitVec 32) : List UInt8 :=
  if n = 0 then ['0'.toUInt8]
  else
    let sign := if n.toInt < 0 then ['-'.toUInt8] else []
    let n := if n.toInt < 0 then -n else n
    sign ++ digitChars n.toNat (firstDiv n.toNat 1000000000)

/-- `print_byte_internal`. -/
def byteChars (n : UInt8) : List UInt8 :=
  [hexdigit ((n.toNat >>> 4) &&& 0xF), hexdigit (n.toNat &&& 0xF)]

/-- `print_hex`. -/
def hexChars (n : BitVec 32) : List UInt8 :=
  '0'.toUInt8 :: 'x'.toUInt8 :: (hexBytes n).flatMap byteChars

/-- The characters that `print_char` gets in a call. -/
def Op.chars : Op → List UInt8
  | .printChar ch => [ch]
  | .printStr str => str.takeWhile (· ≠ 0)
  | .printInt n => intChars n
  | .printHex n => hexChars n
  | .newline => [eol]
  | .setColor _ => []
  | .setBackground _ => []
  | .setAttr _ _ => []

/-- The characters of a text of the source. -/
def ascii (s : String) : List UInt8 := s.toList.map Char.toUInt8

/-- What some calls write to the debug port. -/
def port (ops : List Op) : List UInt8 := ops.flatMap fun op => op.chars.map sent

@[simp] theorem port_nil : port [] = [] := rfl

@[simp] theorem port_cons (op : Op) (ops : List Op) :
    port (op :: ops) = op.chars.map sent ++ port ops := rfl

@[simp] theorem port_append (ops ops' : List Op) : port (ops ++ ops') = port ops ++ port ops' :=
  List.flatMap_append

/-! ## §2. Numerals. -/

theorem digitChars_eq_padded (n k : Nat) : digitChars n (10 ^ k) = padded (k + 1) n := by
  induction k generalizing n with
  | zero =>
      unfold digitChars
      rw [dif_pos (by decide)]
      unfold digitChars
      rw [dif_neg (by decide)]
      rfl
  | succ k ih =>
      have hdiv : 10 ^ (k + 1) / 10 = 10 ^ k := by
        rw [pow_succ]
        exact Nat.mul_div_cancel _ (by decide)
      unfold digitChars
      rw [dif_pos (by positivity), hdiv, ih]
      rfl

/-- **The digits of a number** are its decimal numeral. -/
theorem chars_printInt (n : BitVec 32) : (Op.printInt n).chars = decimal n.toInt := by
  show intChars n = _
  unfold intChars
  by_cases hzero : n = 0
  · rw [if_pos hzero, hzero]
    rfl
  · have habs : (if n.toInt < 0 then -n else n).toNat = n.toInt.natAbs := by
      have hlt := n.isLt
      have hne : n.toNat ≠ 0 := fun h0 => hzero (BitVec.eq_of_toNat_eq h0)
      by_cases hneg : n.toInt < 0
      · rw [if_pos hneg, BitVec.toNat_neg]
        rw [BitVec.toInt_eq_toNat_cond] at hneg ⊢
        split at hneg <;> omega
      · rw [if_neg hneg]
        rw [BitVec.toInt_eq_toNat_cond] at hneg ⊢
        split at hneg <;> omega
    have hpos : 0 < n.toInt.natAbs := by
      rw [Int.natAbs_pos]
      intro h0
      exact hzero (BitVec.eq_of_toInt_eq h0)
    have hlt : n.toInt.natAbs < 10 ^ (9 + 1) := by
      rw [← habs]
      exact lt_trans (BitVec.isLt _) (by decide)
    obtain ⟨j, hj, hjlt, hjge⟩ := firstDiv_eq hpos hlt
    rw [if_neg hzero]
    dsimp only
    rw [habs, show (1000000000 : Nat) = 10 ^ 9 from rfl, hj, digitChars_eq_padded,
      padded_eq_toDigits hjlt (.inr hjge)]
    rfl

/-- **The eight digits of a word.** -/
theorem chars_printHex (n : BitVec 32) : (Op.printHex n).chars = hexadecimal n.toNat := by
  show hexChars n = _
  unfold hexChars byteChars hexadecimal
  rw [hexBytes_digits]

/-- **What the screen shows for a call** are its characters; a colour is none. -/
theorem call_cells (o : Output) (op : Op) : (o.call op).cells = (o.chars op.chars).cells := by
  cases op with
  | printInt n => rw [chars_printInt]; rfl
  | printHex n => rw [chars_printHex]; rfl
  | _ => rfl

end Metta.DefaultConsole
