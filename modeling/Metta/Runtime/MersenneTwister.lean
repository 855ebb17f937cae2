/-
  Metta.Runtime.MersenneTwister — `MTRand` of runtime/MersenneTwister.h.

  The state is an array of `N` words that a reload writes over in place, each
  word from ones that are old still and ones that are new already.  Underneath is
  one sequence of words, and the array is a window on it.

    • `initializeState`, `reload`, `randInt`, `randIntUpTo`, `save`, `load` — the members,
    • `randInt_stands` — the next value is the tempered next word of the sequence,
    • `run_eq_runStream` — so are the answers of all sequences of calls,
    • `randIntUpTo_spec` — the values in `[0, n]`,
    • `draws_agree` — `N` values in a row tell all that follow.
-/
import Metta.Machine.ShiftRegister
import Metta.Machine.XorShift

namespace Metta.Runtime

open Metta.Machine

/-! ## §1. The members. -/

/-- `MTRand`: `state` is the array by its indices, `pNext` an index into it. -/
structure MTRand where
  state : Nat → BitVec 32
  pNext : Nat
  left : Nat

namespace MTRand

/-- `N`. -/
def N : Nat := 624

/-- `M`. -/
def M : Nat := 397

def hiBit (u : BitVec 32) : BitVec 32 := u &&& 0x80000000#32
def loBit (u : BitVec 32) : BitVec 32 := u &&& 0x00000001#32
def loBits (u : BitVec 32) : BitVec 32 := u &&& 0x7fffffff#32
def mixBits (u v : BitVec 32) : BitVec 32 := hiBit u ||| loBits v
def magic (u : BitVec 32) : BitVec 32 := if loBit u ≠ 0#32 then 0x9908b0df#32 else 0#32

/-- `twist`. -/
def twist (m s0 s1 : BitVec 32) : BitVec 32 := m ^^^ (mixBits s0 s1 >>> 1) ^^^ magic s1

/-- What `initialize` does to the array. -/
def initializeState (seed : BitVec 32) : Nat → BitVec 32
  | 0 => seed
  | i + 1 =>
      1812433253#32 * (initializeState seed i ^^^ (initializeState seed i >>> 30)) + BitVec.ofNat 32 (i + 1)

/-- `*p = twist(…)`, from the places `i`, `p` and `j`. -/
def twistAt (s : Nat → BitVec 32) (p i j : Nat) : Nat → BitVec 32 :=
  Function.update s p (twist (s i) (s p) (s j))

/-- `reload`. -/
def reload (g : MTRand) : MTRand :=
  let s := (List.range (N - M)).foldl (fun s p => twistAt s p (p + M) (p + 1)) g.state
  let s := (List.range' (N - M) (M - 1)).foldl (fun s p => twistAt s p (p + M - N) (p + 1)) s
  ⟨twistAt s (N - 1) (N - 1 + M - N) 0, 0, N⟩

/-- `seed(oneSeed)`. -/
def seed (oneSeed : BitVec 32) : MTRand := reload ⟨initializeState oneSeed, 0, 0⟩

/-- `if (i >= N) { state[0] = state[N-1]; i = 1; }`, with the index. -/
def wrap (s : Nat → BitVec 32) (i : Nat) : (Nat → BitVec 32) × Nat :=
  if i ≥ N then (Function.update s 0 (s (N - 1)), 1) else (s, i)

/-- The first loop of `seed(bigSeed, seedLength)`. -/
def mixSeed (bigSeed : Nat → BitVec 32) (seedLength : Nat) :
    Nat → (Nat → BitVec 32) → Nat → Nat → (Nat → BitVec 32) × Nat
  | 0, s, i, _ => (s, i)
  | k + 1, s, i, j =>
      let s := Function.update s i (s i ^^^ ((s (i - 1) ^^^ (s (i - 1) >>> 30)) * 1664525#32))
      let s := Function.update s i (s i + bigSeed j + BitVec.ofNat 32 j)
      let (s, i) := wrap s (i + 1)
      mixSeed bigSeed seedLength k s i (if j + 1 ≥ seedLength then 0 else j + 1)

/-- The second loop of `seed(bigSeed, seedLength)`. -/
def mixAgain : Nat → (Nat → BitVec 32) → Nat → Nat → BitVec 32
  | 0, s, _ => s
  | k + 1, s, i =>
      let s := Function.update s i (s i ^^^ ((s (i - 1) ^^^ (s (i - 1) >>> 30)) * 1566083941#32))
      let s := Function.update s i (s i - BitVec.ofNat 32 i)
      let (s, i) := wrap s (i + 1)
      mixAgain k s i

/-- The array that `seed(bigSeed, seedLength)` makes before it reloads. -/
def initializeArray (bigSeed : Nat → BitVec 32) (seedLength : Nat) : Nat → BitVec 32 :=
  let (s, i) := mixSeed bigSeed seedLength (max N seedLength) (initializeState 19650218#32) 1 0
  Function.update (mixAgain (N - 1) s i) 0 0x80000000#32

/-- `seed(bigSeed, seedLength)`. -/
def seedArray (bigSeed : Nat → BitVec 32) (seedLength : Nat) : MTRand :=
  reload ⟨initializeArray bigSeed seedLength, 0, 0⟩

/-- The word that is pulled from the state, tempered. -/
def temper (s1 : BitVec 32) : BitVec 32 :=
  let s1 := s1 ^^^ (s1 >>> 11)
  let s1 := s1 ^^^ ((s1 <<< 7) &&& 0x9d2c5680#32)
  let s1 := s1 ^^^ ((s1 <<< 15) &&& 0xefc60000#32)
  s1 ^^^ (s1 >>> 18)

/-- `randInt()`. -/
def randInt (g : MTRand) : BitVec 32 × MTRand :=
  let g := if g.left = 0 then reload g else g
  (temper (g.state g.pNext), { g with pNext := g.pNext + 1, left := g.left - 1 })

/-- The bits that are used in `n`. -/
def usedBits (n : BitVec 32) : BitVec 32 :=
  let used := n ||| (n >>> 1)
  let used := used ||| (used >>> 2)
  let used := used ||| (used >>> 4)
  let used := used ||| (used >>> 8)
  used ||| (used >>> 16)

/-- `randInt(n)`, with fuel for the values that are tossed. -/
def randIntUpTo (n : BitVec 32) : Nat → MTRand → Option (BitVec 32 × MTRand)
  | 0, _ => none
  | fuel + 1, g =>
      let i := (randInt g).1 &&& usedBits n
      if i > n then randIntUpTo n fuel (randInt g).2 else some (i, (randInt g).2)

/-- `save`: the words, and the number of values that are left. -/
def save (g : MTRand) (i : Nat) : BitVec 32 :=
  if i < N then g.state i else BitVec.ofNat 32 g.left

/-- `load`, of an array whose last word is not above `N`. -/
def load (loadArray : Nat → BitVec 32) : MTRand :=
  ⟨loadArray, N - (loadArray N).toNat, (loadArray N).toNat⟩

/-! ## §2. The window. -/

/-- The sequence that begins as the array does. -/
def sequence (s : Nat → BitVec 32) : Nat → BitVec 32 :=
  extend N M twist (by decide) (by decide) s

theorem sequence_recurs (s : Nat → BitVec 32) : Recurs N M twist (sequence s) :=
  extend_recurs _ _ s

/-- The generator's array is a window on the sequence, and its next word is the one at `k`. -/
structure Stands (g : MTRand) (x : Nat → BitVec 32) (k : Nat) : Prop where
  window : ∃ b, Refilled N x b 0 g.state ∧ k = b + g.pNext
  place : g.pNext + g.left = N

/-- A loop of `reload`. -/
theorem foldl_twistAt {x : Nat → BitVec 32} (hx : Recurs N M twist x) {b : Nat} {f : Nat → Nat} :
    ∀ (c a : Nat) {s : Nat → BitVec 32}, Refilled N x b a s → a + c < N →
      (∀ p, a ≤ p → p < a + c → f p = if p + M < N then p + M else p + M - N) →
      Refilled N x b (a + c)
        ((List.range' a c).foldl (fun s p => twistAt s p (f p) (p + 1)) s)
  | 0, _, _, hs, _, _ => hs
  | c + 1, a, s, hs, hlt, hf => by
    rw [List.range'_succ, List.foldl_cons]
    have hstep := hs.write (i := f a) (j := a + 1) hx (by omega) (by decide) (by decide)
      (hf a (Nat.le_refl a) (by omega)) (by rw [if_pos (by omega)])
    have hrest := foldl_twistAt hx c (a + 1) hstep (by omega) fun p hp hp' =>
      hf p (by omega) (by omega)
    have hac : a + 1 + c = a + (c + 1) := by omega
    rwa [hac] at hrest

/-- **A reload moves the window** on by its length. -/
theorem reload_refilled {g : MTRand} {x : Nat → BitVec 32} (hx : Recurs N M twist x) {b : Nat}
    (hs : Refilled N x b 0 g.state) : Refilled N x (b + N) 0 (reload g).state := by
  have h1 := foldl_twistAt hx (N - M) 0 hs (by decide) fun p _ hp =>
    (if_pos (by unfold N M at hp ⊢; omega) : (if p + M < N then p + M else p + M - N) = p + M).symm
  have h2 := foldl_twistAt hx (M - 1) (0 + (N - M)) h1 (by decide) fun p hp _ =>
    (if_neg (by unfold N M at hp ⊢; omega) :
      (if p + M < N then p + M else p + M - N) = p + M - N).symm
  have h3 := h2.write (i := N - 1 + M - N) (j := 0) hx (by decide) (by decide) (by decide)
    (by decide) (by decide)
  unfold reload
  rw [List.range_eq_range']
  exact h3.next

/-! ## §3. The values. -/

/-- **The next value** is the next word of the sequence, tempered. -/
theorem randInt_stands {g : MTRand} {x : Nat → BitVec 32} {k : Nat} (hx : Recurs N M twist x)
    (hg : Stands g x k) :
    (randInt g).1 = temper (x k) ∧ Stands (randInt g).2 x (k + 1) := by
  obtain ⟨⟨b, hw, hk⟩, hplace⟩ := hg
  have hread : ∀ {g : MTRand} {b : Nat}, Refilled N x b 0 g.state → g.pNext < N →
      g.state g.pNext = x (b + g.pNext) := by
    intro g b hw hlt
    rw [hw _ hlt, if_neg (Nat.not_lt_zero _)]
  by_cases hleft : g.left = 0
  · -- the window is used up, and moves on
    have hw' := reload_refilled hx hw
    have hpos : (reload g).pNext < N := (by decide : 0 < N)
    unfold randInt
    rw [if_pos hleft]
    refine ⟨?_, ⟨b + N, hw', ?_⟩, rfl⟩
    · show temper ((reload g).state (reload g).pNext) = _
      rw [hread hw' hpos]
      exact congrArg (fun k => temper (x k)) (by show b + N + 0 = k; omega)
    · show k + 1 = b + N + (0 + 1)
      omega
  · have hpos : g.pNext < N := by omega
    unfold randInt
    rw [if_neg hleft]
    refine ⟨?_, ⟨b, hw, ?_⟩, ?_⟩
    · show temper (g.state g.pNext) = _
      rw [hread hw hpos, hk]
    · show k + 1 = b + (g.pNext + 1)
      omega
    · show g.pNext + 1 + (g.left - 1) = N
      omega

/-- A generator whose array is used up in part. -/
theorem stands_self {g : MTRand} (hplace : g.pNext + g.left = N) :
    Stands g (sequence g.state) g.pNext := by
  refine ⟨⟨0, ?_, (Nat.zero_add _).symm⟩, hplace⟩
  intro i hi
  rw [if_neg (Nat.not_lt_zero i), Nat.zero_add, sequence, extend_of_lt hi]

/-- A generator that has been seeded is at the second window of its sequence. -/
theorem reload_stands (s : Nat → BitVec 32) (p l : Nat) :
    Stands (reload ⟨s, p, l⟩) (sequence s) N := by
  have hself : Refilled N (sequence s) 0 0 s := by
    intro i hi
    rw [if_neg (Nat.not_lt_zero i), Nat.zero_add, sequence, extend_of_lt hi]
  have hnext := reload_refilled (g := ⟨s, p, l⟩) (sequence_recurs s) hself
  rw [Nat.zero_add] at hnext
  exact ⟨⟨N, hnext, rfl⟩, rfl⟩

/-- Saving and loading. -/
theorem load_save_stands {g : MTRand} {x : Nat → BitVec 32} {k : Nat} (hg : Stands g x k) :
    Stands (load (save g)) x k := by
  obtain ⟨⟨b, hw, hk⟩, hplace⟩ := hg
  have hlast : (save g N).toNat = g.left := by
    unfold save
    rw [if_neg (Nat.lt_irrefl N), BitVec.toNat_ofNat, Nat.mod_eq_of_lt]
    have hN : N < 2 ^ 32 := by decide
    omega
  have hnext : (load (save g)).pNext = g.pNext := by
    show N - (save g N).toNat = g.pNext
    omega
  refine ⟨⟨b, ?_, by rw [hnext, hk]⟩, ?_⟩
  · intro i hi
    show save g i = _
    unfold save
    rw [if_pos hi]
    exact hw i hi
  · rw [hnext]
    show g.pNext + (save g N).toNat = N
    omega

/-! ## §4. Sequences of calls. -/

/-- The calls: a value, a value in `[0, n]`, and a save that is loaded again. -/
inductive Call where
  | randInt
  | randIntUpTo (n : BitVec 32)
  | saveLoad

/-- The answers of the calls. -/
def run (fuel : Nat) : MTRand → List Call → Option (List (BitVec 32))
  | _, [] => some []
  | g, .randInt :: calls => (run fuel (randInt g).2 calls).map ((randInt g).1 :: ·)
  | g, .randIntUpTo n :: calls =>
      (randIntUpTo n fuel g).bind fun r => (run fuel r.2 calls).map (r.1 :: ·)
  | g, .saveLoad :: calls => run fuel (load (save g)) calls

/-- The first of a stream's values, from a place on, that is in `[0, n]` in the bits that `n`
uses; and the place behind it. -/
def firstUpTo (n : BitVec 32) (x : Nat → BitVec 32) : Nat → Nat → Option (BitVec 32 × Nat)
  | 0, _ => none
  | fuel + 1, k =>
      if temper (x k) &&& usedBits n > n then firstUpTo n x fuel (k + 1)
      else some (temper (x k) &&& usedBits n, k + 1)

/-- The same answers, from the sequence and a place in it. -/
def runStream (fuel : Nat) (x : Nat → BitVec 32) : Nat → List Call → Option (List (BitVec 32))
  | _, [] => some []
  | k, .randInt :: calls => (runStream fuel x (k + 1) calls).map (temper (x k) :: ·)
  | k, .randIntUpTo n :: calls =>
      (firstUpTo n x fuel k).bind fun r => (runStream fuel x r.2 calls).map (r.1 :: ·)
  | k, .saveLoad :: calls => runStream fuel x k calls

/-- `randInt(n)` takes the first value that fits. -/
theorem randIntUpTo_stands {n : BitVec 32} {x : Nat → BitVec 32} (hx : Recurs N M twist x) :
    ∀ (fuel : Nat) {g : MTRand} {k : Nat}, Stands g x k →
      (randIntUpTo n fuel g = none ∧ firstUpTo n x fuel k = none) ∨
      ∃ v g' k', randIntUpTo n fuel g = some (v, g') ∧ firstUpTo n x fuel k = some (v, k') ∧
        Stands g' x k'
  | 0, _, _, _ => Or.inl ⟨rfl, rfl⟩
  | fuel + 1, g, k, hg => by
    obtain ⟨hv, hg'⟩ := randInt_stands hx hg
    unfold randIntUpTo firstUpTo
    rw [hv]
    by_cases hgt : temper (x k) &&& usedBits n > n
    · rw [if_pos hgt, if_pos hgt]
      exact randIntUpTo_stands hx fuel hg'
    · rw [if_neg hgt, if_neg hgt]
      exact Or.inr ⟨_, _, _, rfl, rfl, hg'⟩

/-- The generator answers as its sequence does, from any place. -/
theorem run_stands {x : Nat → BitVec 32} (hx : Recurs N M twist x) (fuel : Nat) :
    ∀ (calls : List Call) {g : MTRand} {k : Nat}, Stands g x k →
      run fuel g calls = runStream fuel x k calls
  | [], _, _, _ => rfl
  | .randInt :: calls, g, k, hg => by
    obtain ⟨hv, hg'⟩ := randInt_stands hx hg
    rw [run, runStream, hv, run_stands hx fuel calls hg']
  | .randIntUpTo n :: calls, g, k, hg => by
    rw [run, runStream]
    cases randIntUpTo_stands (n := n) hx fuel hg with
    | inl hnone =>
      rw [hnone.1, hnone.2]
      rfl
    | inr hsome =>
      obtain ⟨v, g', k', hr, hf, hg'⟩ := hsome
      rw [hr, hf]
      show (run fuel g' calls).map _ = (runStream fuel x k' calls).map _
      rw [run_stands hx fuel calls hg']
  | .saveLoad :: calls, g, k, hg => by
    rw [run, runStream, run_stands hx fuel calls (load_save_stands hg)]

/-- **The generator is its sequence.**  After seeding from a word or from an array, whatever the
calls, the answers are the tempered words of the sequence that begins with the seeded array and
goes on by `twist`, from the `N`-th word on; a generator that is saved and loaded goes on with
the same ones. -/
theorem run_eq_runStream (fuel : Nat) (calls : List Call) :
    (∀ oneSeed, run fuel (seed oneSeed) calls
      = runStream fuel (sequence (initializeState oneSeed)) N calls) ∧
    ∀ bigSeed seedLength, run fuel (seedArray bigSeed seedLength) calls
      = runStream fuel (sequence (initializeArray bigSeed seedLength)) N calls := by
  constructor
  · intro oneSeed
    exact run_stands (sequence_recurs _) fuel calls (reload_stands _ 0 0)
  · intro bigSeed seedLength
    exact run_stands (sequence_recurs _) fuel calls (reload_stands _ 0 0)

/-! ## §5. Values in `[0, n]`. -/

/-- The mask has the bits of `n` and all bits below them. -/
theorem usedBits_reaching (n : BitVec 32) : Reaching 32 n (usedBits n) :=
  ((((Reaching.one n).smear.smear).smear).smear).smear

/-- The first value that fits, if one does. -/
theorem firstUpTo_some {n : BitVec 32} {x : Nat → BitVec 32} :
    ∀ {fuel k : Nat} {v : BitVec 32} {k' : Nat}, firstUpTo n x fuel k = some (v, k') →
      v ≤ n ∧ ∃ j < fuel, v = temper (x (k + j)) &&& usedBits n ∧ k' = k + j + 1 ∧
        ∀ i < j, n < temper (x (k + i)) &&& usedBits n
  | 0, _, _, _, h => by cases h
  | fuel + 1, k, v, k', h => by
    unfold firstUpTo at h
    by_cases hgt : temper (x k) &&& usedBits n > n
    · rw [if_pos hgt] at h
      obtain ⟨hle, j, hj, hv, hk, hall⟩ := firstUpTo_some h
      refine ⟨hle, j + 1, by omega, ?_, by omega, ?_⟩
      · rw [hv]
        exact congrArg (fun k => temper (x k) &&& usedBits n) (by omega)
      · intro i hi
        cases i with
        | zero => exact hgt
        | succ i =>
          have hki : k + (i + 1) = k + 1 + i := by omega
          rw [hki]
          exact hall i (by omega)
    · rw [if_neg hgt] at h
      cases h
      exact ⟨BitVec.not_lt.mp hgt, 0, by omega, rfl, rfl, fun i hi => absurd hi (Nat.not_lt_zero i)⟩

theorem firstUpTo_isSome {n : BitVec 32} {x : Nat → BitVec 32} :
    ∀ {fuel k j : Nat}, j < fuel → temper (x (k + j)) &&& usedBits n ≤ n →
      (firstUpTo n x fuel k).isSome
  | 0, _, _, hj, _ => absurd hj (Nat.not_lt_zero _)
  | fuel + 1, k, j, hj, hle => by
    unfold firstUpTo
    by_cases hgt : temper (x k) &&& usedBits n > n
    · rw [if_pos hgt]
      cases j with
      | zero => exact absurd hgt (BitVec.not_lt.mpr hle)
      | succ j =>
        have hki : k + (j + 1) = k + 1 + j := by omega
        rw [hki] at hle
        exact firstUpTo_isSome (by omega) hle
    · rw [if_neg hgt]
      rfl

/-- **`randInt(n)`**: no value in `[0, n]` is changed by tossing the bits that are not used; the
answer is the first of the values to come that is in `[0, n]` without them; and it comes when
one such value does. -/
theorem randIntUpTo_spec {g : MTRand} (hplace : g.pNext + g.left = N) (n : BitVec 32) :
    (∀ v, v ≤ n → v &&& usedBits n = v) ∧
    (∀ fuel v g', randIntUpTo n fuel g = some (v, g') →
      v ≤ n ∧ ∃ k < fuel, v = temper (sequence g.state (g.pNext + k)) &&& usedBits n ∧
        Stands g' (sequence g.state) (g.pNext + k + 1) ∧
        ∀ j < k, n < temper (sequence g.state (g.pNext + j)) &&& usedBits n) ∧
    ∀ fuel k, k < fuel → temper (sequence g.state (g.pNext + k)) &&& usedBits n ≤ n →
      (randIntUpTo n fuel g).isSome := by
  have hx := sequence_recurs g.state
  refine ⟨fun v hv => (usedBits_reaching n).and_eq hv, ?_, ?_⟩
  · intro fuel v g' h
    cases randIntUpTo_stands (n := n) hx fuel (stands_self hplace) with
    | inl hnone =>
      rw [hnone.1] at h
      cases h
    | inr hsome =>
      obtain ⟨v', g'', k', hr, hf, hg''⟩ := hsome
      rw [hr] at h
      cases h
      obtain ⟨hle, k, hk, hv, hk', hall⟩ := firstUpTo_some hf
      exact ⟨hle, k, hk, hv, hk' ▸ hg'', hall⟩
  · intro fuel k hk hle
    have hsome := firstUpTo_isSome hk hle
    cases randIntUpTo_stands (n := n) hx fuel (stands_self hplace) with
    | inl hnone =>
      rw [hnone.2] at hsome
      cases hsome
    | inr h =>
      obtain ⟨v', g'', k', hr, -⟩ := h
      rw [hr]
      rfl

/-- A generator that was loaded with other words than the first one. -/
def loaded : MTRand := ⟨fun i => if i = 0 then 12#32 else 5#32, 0, N⟩

/-- The first value is above 9 without the bits that are not used, and the second one is not. -/
theorem randIntUpTo_spec_second :
    ∃ g', randIntUpTo 9#32 2 loaded = some (5#32, g') ∧ Stands g' (sequence loaded.state) 2 := by
  have hfirst : sequence loaded.state (loaded.pNext + 0) = 12#32 := extend_of_lt (by decide)
  have hsecond : sequence loaded.state (loaded.pNext + 1) = 5#32 := extend_of_lt (by decide)
  obtain ⟨-, hanswer, hcomes⟩ := randIntUpTo_spec (g := loaded) rfl 9#32
  have hsome := hcomes 2 1 (by decide) (by rw [hsecond]; decide)
  obtain ⟨⟨v, g'⟩, hv⟩ := Option.isSome_iff_exists.mp hsome
  obtain ⟨hle, k, hk, hvalue, hstands, -⟩ := hanswer 2 v g' hv
  -- it is not the first value, which does not fit
  cases k with
  | zero =>
    rw [hvalue, hfirst] at hle
    exact absurd hle (by decide)
  | succ k =>
    obtain rfl : k = 0 := by omega
    have hfive : v = 5#32 := by
      rw [hvalue, hsecond]
      decide
    exact ⟨g', hfive ▸ hv, hstands⟩

/-! ## §6. What the values tell. -/

/-- `k` values in a row. -/
def draws : Nat → MTRand → List (BitVec 32)
  | 0, _ => []
  | k + 1, g => (randInt g).1 :: draws k (randInt g).2

/-- No two words are tempered alike. -/
theorem temper_injective : Function.Injective temper := by
  intro a b h
  apply xor_ushiftRight_injective (k := 11) (by decide)
  apply xor_shiftLeft_injective (k := 7) (by decide) 0x9d2c5680#32
  apply xor_shiftLeft_injective (k := 15) (by decide) 0xefc60000#32
  exact xor_ushiftRight_injective (k := 18) (by decide) h

theorem draws_eq {x : Nat → BitVec 32} (hx : Recurs N M twist x) :
    ∀ (c : Nat) {g : MTRand} {k : Nat}, Stands g x k →
      draws c g = (List.range c).map fun i => temper (x (k + i))
  | 0, _, _, _ => rfl
  | c + 1, g, k, hg => by
    obtain ⟨hv, hg'⟩ := randInt_stands hx hg
    rw [draws, hv, draws_eq hx c hg', List.range_succ_eq_map, List.map_cons, List.map_map]
    congr 1
    apply List.map_congr_left
    intro i _
    exact congrArg (fun k => temper (x k)) (by show k + 1 + i = k + (i + 1); omega)

/-- **`N` values in a row tell the rest**: two generators that give the same `N` values give the
same values for ever. -/
theorem draws_agree {g g' : MTRand} (hg : g.pNext + g.left = N) (hg' : g'.pNext + g'.left = N)
    (h : draws N g = draws N g') (c : Nat) : draws c g = draws c g' := by
  have hx := sequence_recurs g.state
  have hx' := sequence_recurs g'.state
  rw [draws_eq hx N (stands_self hg), draws_eq hx' N (stands_self hg')] at h
  have hwin : ∀ i < N, sequence g.state (g.pNext + i) = sequence g'.state (g'.pNext + i) := by
    intro i hi
    apply temper_injective
    exact List.map_inj_left.mp h i (List.mem_range.mpr hi)
  have hall := hx.agree hx' (by decide) (by decide) hwin
  rw [draws_eq hx c (stands_self hg), draws_eq hx' c (stands_self hg')]
  apply List.map_congr_left
  intro i _
  rw [hall i]

/-- A generator that has been saved and loaded. -/
theorem draws_agree_loaded :
    ((seed 1#32).pNext + (seed 1#32).left = N ∧
      (load (save (seed 1#32))).pNext + (load (save (seed 1#32))).left = N ∧
      draws N (seed 1#32) = draws N (load (save (seed 1#32)))) ∧
    draws 1000 (seed 1#32) = draws 1000 (load (save (seed 1#32))) := by
  have hg : Stands (seed 1#32) (sequence (seed 1#32).state) 0 := stands_self rfl
  have hg' := load_save_stands hg
  have hx := sequence_recurs (seed 1#32).state
  have h : draws N (seed 1#32) = draws N (load (save (seed 1#32))) := by
    rw [draws_eq hx N hg, draws_eq hx N hg']
  exact ⟨⟨rfl, hg'.place, h⟩, draws_agree rfl hg'.place h 1000⟩

end MTRand

end Metta.Runtime
