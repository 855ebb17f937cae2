/-
  Metta.Machine.XorShift — words that are combined with their own shifts.

    • `xor_shiftLeft_injective`, `xor_ushiftRight_injective` — `y ^ ((y << k) & c)`
      and `y ^ (y >> k)` lose nothing,
    • `smear_bit` — `u | (u >> d)` doubles the distance over which a bit reaches
      down,
    • `and_of_reaching` — a mask that every bit of a bound reaches down in keeps
      all words up to the bound.
-/
import Mathlib.Tactic

namespace Metta.Machine

variable {w : Nat}

/-! ## §1. What can be undone. -/

/-- From the low bits on, each bit is known once the ones below it are. -/
theorem xor_shiftLeft_injective {k : Nat} (hk : 0 < k) (c : BitVec w) :
    Function.Injective fun y : BitVec w => y ^^^ ((y <<< k) &&& c) := by
  intro y y' h
  have hbit : ∀ i, y.getLsbD i = y'.getLsbD i := by
    intro i
    induction i using Nat.strong_induction_on with
    | _ i ih =>
      have hi := congrArg (fun z => z.getLsbD i) h
      simp only [BitVec.getLsbD_xor, BitVec.getLsbD_and, BitVec.getLsbD_shiftLeft] at hi
      by_cases hlt : i < k
      · simpa [hlt] using hi
      · rw [ih (i - k) (by omega)] at hi
        simpa using hi
  exact BitVec.eq_of_getLsbD_eq fun i _ => hbit i

/-- From the high bits on, each bit is known once the ones above it are. -/
theorem xor_ushiftRight_injective {k : Nat} (hk : 0 < k) :
    Function.Injective fun y : BitVec w => y ^^^ (y >>> k) := by
  intro y y' h
  have hbit : ∀ n i, w ≤ i + n → y.getLsbD i = y'.getLsbD i := by
    intro n
    induction n with
    | zero =>
      intro i hi
      have hw : w ≤ i := hi
      rw [BitVec.getLsbD_of_ge _ _ hw, BitVec.getLsbD_of_ge _ _ hw]
    | succ n ih =>
      intro i hi
      have hbits := congrArg (fun z => z.getLsbD i) h
      simp only [BitVec.getLsbD_xor, BitVec.getLsbD_ushiftRight] at hbits
      rw [ih (k + i) (by omega)] at hbits
      simpa using hbits
  exact BitVec.eq_of_getLsbD_eq fun i _ => hbit w i (by omega)

/-! ## §2. Bits that reach down. -/

/-- The bits of `n` reach down over a distance of `d` in `u`. -/
def Reaching (d : Nat) (n u : BitVec w) : Prop :=
  ∀ i, u.getLsbD i = true ↔ ∃ j < d, n.getLsbD (i + j) = true

theorem Reaching.one (n : BitVec w) : Reaching 1 n n := by
  intro i
  constructor
  · exact fun h => ⟨0, Nat.one_pos, h⟩
  · intro ⟨j, hj, h⟩
    have hj' : j = 0 := by omega
    simpa [hj'] using h

/-- A shift by the distance doubles it. -/
theorem Reaching.smear {d : Nat} {n u : BitVec w} (h : Reaching d n u) :
    Reaching (d + d) n (u ||| (u >>> d)) := by
  intro i
  rw [BitVec.getLsbD_or, BitVec.getLsbD_ushiftRight, Bool.or_eq_true, h i, h (d + i)]
  constructor
  · intro hor
    cases hor with
    | inl hor =>
      obtain ⟨j, hj, hb⟩ := hor
      exact ⟨j, by omega, hb⟩
    | inr hor =>
      obtain ⟨j, hj, hb⟩ := hor
      refine ⟨d + j, by omega, ?_⟩
      rwa [← Nat.add_assoc, Nat.add_comm i d]
  · intro ⟨j, hj, hb⟩
    by_cases hlt : j < d
    · exact Or.inl ⟨j, hlt, hb⟩
    · refine Or.inr ⟨j - d, by omega, ?_⟩
      have hij : d + i + (j - d) = i + j := by omega
      rwa [hij]

/-- A bit of a word up to `n` has a bit of `n` at its place or above it. -/
theorem exists_bit_above {v n : BitVec w} (hle : v ≤ n) {i : Nat} (hi : v.getLsbD i = true) :
    ∃ j, n.getLsbD (i + j) = true := by
  have hv : 2 ^ i ≤ v.toNat := Nat.ge_two_pow_of_testBit hi
  have hn : v.toNat ≤ n.toNat := hle
  obtain ⟨k, hk, hb⟩ := Nat.exists_ge_and_testBit_of_ge_two_pow (Nat.le_trans hv hn)
  refine ⟨k - i, ?_⟩
  have hki : i + (k - i) = k := by omega
  rw [hki]
  exact hb

/-- The mask keeps every word up to the bound. -/
theorem Reaching.and_eq {n u v : BitVec w} (h : Reaching w n u) (hle : v ≤ n) : v &&& u = v := by
  apply BitVec.eq_of_getLsbD_eq
  intro i _
  rw [BitVec.getLsbD_and]
  cases hv : v.getLsbD i with
  | false => rfl
  | true =>
    obtain ⟨j, hj⟩ := exists_bit_above hle hv
    have hjw : i + j < w := by
      apply Nat.lt_of_not_le
      intro hge
      rw [BitVec.getLsbD_of_ge _ _ hge] at hj
      cases hj
    have hu : u.getLsbD i = true := (h i).mpr ⟨j, by omega, hj⟩
    rw [hu]
    rfl

end Metta.Machine
