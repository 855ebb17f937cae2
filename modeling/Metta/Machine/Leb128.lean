/-
  Metta.Machine.Leb128 — numbers in base 128.

  A number is written with its lowest digit first, seven bits in a byte; every
  byte but the last one has its high bit set.  Leading zeros are allowed, so a
  number can be written in many ways.

    • `Leb` — a string of bytes that is such a number, `unsigned`, `signed`,
    • `signed_eq` — the two values differ by a power of two or not at all.
-/
import Mathlib.Tactic

namespace Metta.Machine

/-- The bytes of a number: those with the high bit, and the last one. -/
structure Leb where
  more : List UInt8
  last : UInt8
  more_high : ∀ b ∈ more, 128 ≤ b.toNat
  last_low : last.toNat < 128
  deriving DecidableEq

/-- Bytes that are looked at one by one. -/
theorem high_of_all {bs : List UInt8} (h : (bs.all fun b => 128 ≤ b.toNat) = true) :
    ∀ b ∈ bs, 128 ≤ b.toNat := fun b hb => by
  simpa using List.all_eq_true.mp h b hb

namespace Leb

/-- The string of bytes. -/
def bytes (l : Leb) : List UInt8 := l.more ++ [l.last]

/-- A number of one byte. -/
def small (b : UInt8) (h : b.toNat < 128) : Leb := ⟨[], b, by simp, h⟩

/-- The digits as a number. -/
def value (last : Int) : List UInt8 → Int
  | [] => last
  | b :: more => (b.toNat - 128) + 128 * value last more

/-- The last digit with its sign, which is the second bit. -/
def signedDigit (b : UInt8) : Int := if b.toNat < 64 then b.toNat else b.toNat - 128

def unsigned (l : Leb) : Int := value l.last.toNat l.more

def signed (l : Leb) : Int := value (signedDigit l.last) l.more

variable (l : Leb)

theorem length_bytes : l.bytes.length = l.more.length + 1 := by
  simp [bytes]

theorem bytes_ne_nil : l.bytes ≠ [] := by
  simp [bytes]

theorem value_nonneg {more : List UInt8} (h : ∀ b ∈ more, 128 ≤ b.toNat) {last : Int}
    (hlast : 0 ≤ last) : 0 ≤ value last more := by
  induction more with
  | nil => exact hlast
  | cons b more ih =>
      have hb := h b List.mem_cons_self
      have hmore := ih fun x hx => h x (List.mem_cons_of_mem b hx)
      unfold value
      omega

theorem unsigned_nonneg : 0 ≤ l.unsigned := value_nonneg l.more_high (Int.natCast_nonneg _)

/-- The last digit counts with the power of the digits before it. -/
theorem value_sub (last last' : Int) (more : List UInt8) :
    value last more - value last' more = 128 ^ more.length * (last - last') := by
  induction more with
  | nil => simp [value]
  | cons b more ih =>
      unfold value
      rw [List.length_cons, pow_succ]
      linear_combination 128 * ih

/-- **The sign**: a set sign bit stands for minus the power of two behind the digits. -/
theorem signed_eq :
    l.signed = if l.last.toNat < 64 then l.unsigned
      else l.unsigned - 2 ^ (7 * (l.more.length + 1)) := by
  have hsub := value_sub (signedDigit l.last) l.last.toNat l.more
  have hpow : (2 : Int) ^ (7 * (l.more.length + 1)) = 128 ^ l.more.length * 128 := by
    rw [pow_mul, pow_succ]
    norm_num
  unfold signed unsigned
  unfold signedDigit at hsub ⊢
  split at hsub
  · rename_i hlow
    rw [if_pos hlow, if_pos hlow]
  · rename_i hhigh
    rw [if_neg hhigh, if_neg hhigh, hpow]
    linear_combination hsub

end Leb

end Metta.Machine
