/-
  Metta.Machine.Packed — packed structures as strings of bytes.

  A packed structure has its fields one behind the other, without gaps, and
  words with their lowest byte first.  Any string of the right length is one.

    • `Packed` — a type with its bytes: the width, both ways, and that they
      undo each other,
    • `word`, `bytes`, `pair`, `congr` — words, arrays, two fields, and a
      record that is made of fields,
    • `overwrite` — a part of a string is written over.
-/
import Mathlib.Tactic
import Mathlib.Logic.Equiv.Basic

namespace Metta.Machine

/-! ## §1. Words. -/

/-- The lowest `n` bytes of a number, the lowest first. -/
def leBytes : Nat → Nat → List UInt8
  | 0, _ => []
  | n + 1, v => UInt8.ofNat v :: leBytes n (v / 256)

/-- The number with those bytes. -/
def leValue : List UInt8 → Nat
  | [] => 0
  | b :: bs => b.toNat + 256 * leValue bs

@[simp] theorem length_leBytes (n v : Nat) : (leBytes n v).length = n := by
  induction n generalizing v with
  | zero => rfl
  | succ n ih => rw [leBytes, List.length_cons, ih]

theorem leValue_leBytes (n v : Nat) : leValue (leBytes n v) = v % 256 ^ n := by
  induction n generalizing v with
  | zero =>
      rw [pow_zero, Nat.mod_one]
      rfl
  | succ n ih =>
      rw [leBytes, leValue, ih, pow_succ, Nat.mul_comm (256 ^ n), Nat.mod_mul]
      simp only [UInt8.toNat_ofNat']

theorem leValue_lt (bs : List UInt8) : leValue bs < 256 ^ bs.length := by
  induction bs with
  | nil => exact Nat.one_pos
  | cons b bs ih =>
      have hb := b.toNat_lt
      rw [leValue, List.length_cons, pow_succ]
      omega

theorem leBytes_leValue (bs : List UInt8) : leBytes bs.length (leValue bs) = bs := by
  induction bs with
  | nil => rfl
  | cons b bs ih =>
      have hb := b.toNat_lt
      have hdiv : (b.toNat + 256 * leValue bs) / 256 = leValue bs := by omega
      have hlow : UInt8.ofNat (b.toNat + 256 * leValue bs) = b := by
        apply UInt8.toNat.inj
        rw [UInt8.toNat_ofNat']
        omega
      rw [leValue, List.length_cons, leBytes, hdiv, ih, hlow]

/-! ## §2. Packed structures. -/

/-- A type whose values are the strings of a width. -/
structure Packed (α : Type) where
  width : Nat
  toBytes : α → List UInt8
  ofBytes : List UInt8 → α
  length_toBytes : ∀ x, (toBytes x).length = width
  ofBytes_toBytes : ∀ x, ofBytes (toBytes x) = x
  toBytes_ofBytes : ∀ bs, bs.length = width → toBytes (ofBytes bs) = bs

namespace Packed

variable {α β : Type}

/-- A word of `n` bytes. -/
def word (n : Nat) : Packed (BitVec (8 * n)) where
  width := n
  toBytes v := leBytes n v.toNat
  ofBytes bs := BitVec.ofNat _ (leValue bs)
  length_toBytes v := length_leBytes n v.toNat
  ofBytes_toBytes v := by
    apply BitVec.eq_of_toNat_eq
    have hlt := v.isLt
    rw [BitVec.toNat_ofNat, leValue_leBytes, show 256 = 2 ^ 8 from rfl, ← pow_mul,
      Nat.mod_mod, Nat.mod_eq_of_lt hlt]
  toBytes_ofBytes bs h := by
    have hlt := leValue_lt bs
    rw [BitVec.toNat_ofNat, pow_mul, Nat.mod_eq_of_lt (h ▸ hlt)]
    subst h
    exact leBytes_leValue bs

/-- An array of `n` bytes. -/
def bytes (n : Nat) : Packed (Vector UInt8 n) where
  width := n
  toBytes v := v.toList
  ofBytes bs := Vector.ofFn fun i => bs.getD i 0
  length_toBytes v := Vector.length_toList
  ofBytes_toBytes v := by
    apply Vector.ext
    intro i hi
    rw [Vector.getElem_ofFn, List.getD_eq_getElem?_getD, List.getElem?_eq_getElem (by simpa using hi),
      Option.getD_some, Vector.getElem_toList]
  toBytes_ofBytes bs h := by
    apply List.ext_getElem
    · rw [Vector.length_toList, h]
    · intro i h1 h2
      rw [Vector.getElem_toList, Vector.getElem_ofFn, List.getD_eq_getElem?_getD,
        List.getElem?_eq_getElem h2, Option.getD_some]

/-- One field behind another. -/
def pair (p : Packed α) (q : Packed β) : Packed (α × β) where
  width := p.width + q.width
  toBytes x := p.toBytes x.1 ++ q.toBytes x.2
  ofBytes bs := (p.ofBytes (bs.take p.width), q.ofBytes (bs.drop p.width))
  length_toBytes x := by rw [List.length_append, p.length_toBytes, q.length_toBytes]
  ofBytes_toBytes x := by
    rw [List.take_left' (p.length_toBytes x.1), List.drop_left' (p.length_toBytes x.1),
      p.ofBytes_toBytes, q.ofBytes_toBytes]
  toBytes_ofBytes bs h := by
    have hp : (bs.take p.width).length = p.width := by
      rw [List.length_take]
      omega
    have hq : (bs.drop p.width).length = q.width := by
      rw [List.length_drop]
      omega
    rw [p.toBytes_ofBytes _ hp, q.toBytes_ofBytes _ hq, List.take_append_drop]

/-- A record with the fields of another type. -/
def congr (p : Packed α) (e : α ≃ β) : Packed β where
  width := p.width
  toBytes x := p.toBytes (e.symm x)
  ofBytes bs := e (p.ofBytes bs)
  length_toBytes x := p.length_toBytes _
  ofBytes_toBytes x := by rw [p.ofBytes_toBytes, e.apply_symm_apply]
  toBytes_ofBytes bs h := by rw [e.symm_apply_apply, p.toBytes_ofBytes bs h]

end Packed

/-! ## §3. Writing over a part. -/

/-- The bytes from `off` on are replaced by `bs`. -/
def overwrite (buf : List UInt8) (off : Nat) (bs : List UInt8) : List UInt8 :=
  buf.take off ++ bs ++ buf.drop (off + bs.length)

variable {buf bs bs' pre old rest : List UInt8} {off : Nat}

theorem length_overwrite (h : off + bs.length ≤ buf.length) :
    (overwrite buf off bs).length = buf.length := by
  rw [overwrite, List.length_append, List.length_append, List.length_take, List.length_drop]
  omega

/-- What stands between two parts is replaced. -/
theorem overwrite_mid (hoff : pre.length = off) (hlen : old.length = bs.length) :
    overwrite (pre ++ (old ++ rest)) off bs = pre ++ (bs ++ rest) := by
  rw [overwrite, List.take_left' hoff, List.append_assoc, ← List.drop_drop, List.drop_left' hoff,
    List.drop_left' hlen]

/-- Only the last of two strings at one place stays. -/
theorem overwrite_overwrite (h : off ≤ buf.length) (hlen : bs.length = bs'.length) :
    overwrite (overwrite buf off bs) off bs' = overwrite buf off bs' := by
  have htake : (buf.take off).length = off := by
    rw [List.length_take]
    omega
  have hfirst : overwrite buf off bs = buf.take off ++ (bs ++ buf.drop (off + bs.length)) := by
    rw [overwrite, List.append_assoc]
  rw [hfirst, overwrite_mid htake hlen, hlen, overwrite, List.append_assoc]

theorem read_overwrite (h : off ≤ buf.length) :
    ((overwrite buf off bs).drop off).take bs.length = bs := by
  have htake : (buf.take off).length = off := by
    rw [List.length_take]
    omega
  rw [overwrite, List.append_assoc, List.drop_left' htake, List.take_left' rfl]

end Metta.Machine
