/-
  Metta.Runtime.MemUtils — filling, copying and moving areas of memory.

  The functions of memutils are string instructions: `rep stosb` and `rep movsb`, which go
  upwards or downwards as the direction flag says.  `move_memory` goes downwards for a
  destination above the source, and starts at the byte behind each area and not at its last one.

    • `fillMemory`, `copyMemory`, `moveMemory` — as the source has them,
    • `byte_fillMemory`, `byte_copyMemory`, `byte_repMovsbDown` — what they leave in memory,
    • `Moved` — what a move is to do,
    • `moved_of_le` — a move downwards does it,
    • `moveMemory_moved_iff` — when a move does.
-/
import Metta.Machine.Memory

namespace Metta.Runtime

open Metta.Machine Metta.Machine.Memory

/-! ## §1. The functions. -/

/-- `cld; rep stosb`. -/
def fillMemory (m : Memory) (dest : Nat) (value : UInt8) : Nat → Memory
  | 0 => m
  | n + 1 => fillMemory (m.poke dest value) (add32 dest 1) value n

/-- `cld; rep movsb`. -/
def copyMemory (m : Memory) (dest src count : Nat) : Memory := m.copy dest src count

/-- `std; rep movsb`, with `edi` and `esi` as they are before it. -/
def repMovsbDown (m : Memory) (edi esi : Nat) : Nat → Memory
  | 0 => m
  | n + 1 => repMovsbDown (m.poke edi (m.byte esi)) (sub32 edi 1) (sub32 esi 1) n

def moveMemory (m : Memory) (dest src count : Nat) : Memory :=
  if dest ≤ src then copyMemory m dest src count
  else
    -- `tmp` and `s` are one behind the last bytes of the two areas
    let tmp := add32 dest count
    let s := add32 src count
    repMovsbDown m tmp s count

/-! ## §2. What they leave in memory. -/

theorem byte_fillMemory (m : Memory) {dest n : Nat} (v : UInt8) (hdest : dest + n ≤ wordSize)
    (x : Nat) :
    (fillMemory m dest v n).byte x = if dest ≤ x ∧ x < dest + n then v else m.byte x := by
  induction n generalizing m dest with
  | zero => rw [fillMemory, if_neg (by omega)]
  | succ n ih =>
      unfold fillMemory
      by_cases hend : dest + 1 = wordSize
      · -- the last byte of the address space
        have hn : n = 0 := by omega
        subst hn
        show (m.poke dest v).byte x = _
        unfold poke
        by_cases hxd : x = dest
        · rw [if_pos (by omega)]
          exact if_pos hxd
        · rw [if_neg (by omega)]
          exact if_neg hxd
      · rw [add32_eq (by omega), ih _ (by omega)]
        by_cases hxd : x = dest
        · rw [if_neg (by omega), if_pos (by omega)]
          exact if_pos hxd
        · have hpoke : (m.poke dest v).byte x = m.byte x := if_neg hxd
          rw [hpoke]
          by_cases hin : dest + 1 ≤ x ∧ x < dest + 1 + n
          · rw [if_pos hin, if_pos (by omega)]
          · rw [if_neg hin, if_neg (by omega)]

/-- Upwards a byte is read before it is overwritten, when the destination is not above the source. -/
theorem byte_copyMemory (m : Memory) {dest src n : Nat} (hle : dest ≤ src)
    (hsrc : src + n ≤ wordSize) (x : Nat) :
    (copyMemory m dest src n).byte x
      = if dest ≤ x ∧ x < dest + n then m.byte (src + (x - dest)) else m.byte x := by
  unfold copyMemory
  induction n generalizing m dest src with
  | zero => rw [Memory.copy, if_neg (by omega)]
  | succ n ih =>
      unfold Memory.copy
      by_cases hend : src + 1 = wordSize
      · have hn : n = 0 := by omega
        subst hn
        show (m.poke dest (m.byte src)).byte x = _
        unfold poke
        by_cases hxd : x = dest
        · rw [if_pos (by omega), hxd, Nat.sub_self]
          exact if_pos rfl
        · rw [if_neg (by omega)]
          exact if_neg hxd
      · rw [add32_eq (by omega), add32_eq (by omega), ih _ (by omega) (by omega)]
        by_cases hxd : x = dest
        · rw [if_neg (by omega), if_pos (by omega), hxd, Nat.sub_self]
          exact if_pos rfl
        · have hpoke : ∀ y, y ≠ dest → (m.poke dest (m.byte src)).byte y = m.byte y :=
            fun y hy => if_neg hy
          by_cases hin : dest + 1 ≤ x ∧ x < dest + 1 + n
          · rw [if_pos hin, if_pos (by omega), hpoke _ (by omega)]
            congr 1
            omega
          · rw [if_neg hin, if_neg (by omega), hpoke _ hxd]

theorem byte_copyMemory_apart (m : Memory) {dest src n : Nat} (hdest : dest + n < wordSize)
    (hsrc : src + n < wordSize) (hapart : src + n ≤ dest ∨ dest + n ≤ src) (x : Nat) :
    (copyMemory m dest src n).byte x
      = if dest ≤ x ∧ x < dest + n then m.byte (src + (x - dest)) else m.byte x := by
  unfold copyMemory
  exact byte_copy m hdest hsrc hapart x

/-- **From one behind the last bytes downwards** the bytes `1` to `n` are copied, and not `0` to
`n - 1`; the one with number `n` can be the first byte of the address space. -/
theorem byte_repMovsbDown (m : Memory) {dest src n : Nat} (hlt : src < dest)
    (hdest : dest + n ≤ wordSize) {x : Nat} (hx : x < wordSize) :
    (repMovsbDown m (add32 dest n) (add32 src n) n).byte x
      = if 1 ≤ sub32 x dest ∧ sub32 x dest ≤ n then m.byte (src + sub32 x dest)
        else m.byte x := by
  induction n generalizing m with
  | zero => rw [repMovsbDown, if_neg (by omega)]
  | succ n ih =>
      have hd : sub32 (add32 dest (n + 1)) 1 = add32 dest n := by
        simp only [sub32, add32, wordSize] at hdest ⊢
        omega
      have hs : sub32 (add32 src (n + 1)) 1 = add32 src n := by
        simp only [sub32, add32, wordSize] at hdest ⊢
        omega
      unfold repMovsbDown
      rw [hd, hs, ih _ (by omega)]
      have hread : add32 src (n + 1) = src + (n + 1) := add32_eq (by omega)
      rw [hread]
      -- what is read later lies below what has been written
      have hlater : ∀ k, 1 ≤ k → k ≤ n →
          (m.poke (add32 dest (n + 1)) (m.byte (src + (n + 1)))).byte (src + k)
            = m.byte (src + k) := by
        intro k h1 hk
        apply if_neg
        simp only [add32, wordSize] at hdest ⊢
        omega
      have hplace : x = add32 dest (n + 1) ↔ sub32 x dest = n + 1 := by
        simp only [sub32, add32, wordSize] at hdest hx ⊢
        omega
      by_cases hin : 1 ≤ sub32 x dest ∧ sub32 x dest ≤ n
      · rw [if_pos hin, if_pos (by omega), hlater _ hin.1 hin.2]
      · rw [if_neg hin]
        by_cases hxd : x = add32 dest (n + 1)
        · have hsub := hplace.mp hxd
          rw [if_pos (by omega), hsub]
          exact if_pos hxd
        · have hsub : ¬sub32 x dest = n + 1 := fun h => hxd (hplace.mpr h)
          rw [if_neg (by omega)]
          exact if_neg hxd

/-! ## §3. Moving. -/

/-- The bytes of the source area are in the destination area, and nothing else has changed. -/
structure Moved (m m' : Memory) (dest src count : Nat) : Prop where
  copied : ∀ i < count, m'.byte (dest + i) = m.byte (src + i)
  frame : ∀ x < wordSize, x < dest ∨ dest + count ≤ x → m'.byte x = m.byte x

variable {dest src count : Nat}

theorem moved_of_le (m : Memory) (hle : dest ≤ src) (hsrc : src + count ≤ wordSize) :
    Moved m (moveMemory m dest src count) dest src count := by
  have hmove : moveMemory m dest src count = copyMemory m dest src count := if_pos hle
  rw [hmove]
  constructor
  · intro i hi
    rw [byte_copyMemory m hle hsrc, if_pos (by omega), Nat.add_sub_cancel_left]
  · intro x hx hout
    rw [byte_copyMemory m hle hsrc, if_neg (by omega)]

/-- **A move is right exactly when** the destination is not above the source, or there is nothing
to move, or the two bytes that a move upwards treats wrongly happen to be right: the first one of
the destination, which it leaves out, and the one behind it, which it overwrites. -/
theorem moveMemory_moved_iff (m : Memory) (hdest : dest + count ≤ wordSize)
    (hsrc : src + count ≤ wordSize) :
    Moved m (moveMemory m dest src count) dest src count ↔
      dest ≤ src ∨ count = 0 ∨
        (m.byte dest = m.byte src ∧ m.byte (add32 dest count) = m.byte (src + count)) := by
  by_cases hle : dest ≤ src
  · exact ⟨fun _ => .inl hle, fun _ => moved_of_le m hle hsrc⟩
  have hlt : src < dest := by omega
  have hmove : moveMemory m dest src count
      = repMovsbDown m (add32 dest count) (add32 src count) count := if_neg hle
  have hbyte : ∀ x < wordSize, (moveMemory m dest src count).byte x
      = if 1 ≤ sub32 x dest ∧ sub32 x dest ≤ count then m.byte (src + sub32 x dest)
        else m.byte x := by
    intro x hx
    rw [hmove]
    exact byte_repMovsbDown m hlt hdest hx
  rcases Nat.eq_zero_or_pos count with rfl | hpos
  · refine ⟨fun _ => .inr (.inl rfl), fun _ => ⟨fun i hi => by omega, fun x hx _ => ?_⟩⟩
    rw [hbyte x hx, if_neg (by omega)]
  -- the first byte of the destination is left out, the one behind it is overwritten
  have hfirst : (moveMemory m dest src count).byte dest = m.byte dest := by
    rw [hbyte dest (by omega), if_neg]
    simp only [sub32, wordSize] at hdest ⊢
    omega
  have hbehind : sub32 (add32 dest count) dest = count := by
    simp only [sub32, add32, wordSize] at hdest ⊢
    omega
  have hlast : (moveMemory m dest src count).byte (add32 dest count) = m.byte (src + count) := by
    rw [hbyte _ (add32_lt _ _), hbehind, if_pos (by omega)]
  constructor
  · intro h
    refine .inr (.inr ⟨?_, ?_⟩)
    · have := h.copied 0 hpos
      rw [← hfirst]
      exact this
    · rw [← hlast]
      refine (h.frame _ (add32_lt _ _) ?_).symm
      simp only [add32, wordSize] at hdest ⊢
      omega
  · rintro (h | h | ⟨hd, hs⟩)
    · exact absurd h hle
    · omega
    constructor
    · intro i hi
      rcases Nat.eq_zero_or_pos i with rfl | hi0
      · rw [Nat.add_zero, Nat.add_zero, hfirst, hd]
      · have hoff : sub32 (dest + i) dest = i := by
          simp only [sub32, wordSize] at hdest ⊢
          omega
        rw [hbyte _ (by omega), hoff, if_pos (by omega)]
    · intro x hx hout
      by_cases hxb : x = add32 dest count
      · rw [hxb, hlast, hs]
      · rw [hbyte x hx, if_neg]
        simp only [sub32, add32, wordSize] at hdest hx hxb ⊢
        omega

/-- A memory that has `1` and `2` at its first two addresses, and zeros. -/
def oneTwo : Memory := ⟨fun a => if a = 0 then 1 else if a = 1 then 2 else 0, []⟩

theorem moveMemory_moved_down :
    (0 + 1 ≤ wordSize ∧ 1 + 1 ≤ wordSize) ∧ Moved oneTwo (moveMemory oneTwo 0 1 1) 0 1 1 :=
  ⟨by decide, (moveMemory_moved_iff oneTwo (by decide) (by decide)).mpr (.inl (by decide))⟩

/-- One byte that is moved up by one goes to the address behind it. -/
theorem moveMemory_upwards_wrong : ¬ Moved oneTwo (moveMemory oneTwo 1 0 1) 1 0 1 := by
  intro h
  have h0 : (moveMemory oneTwo 1 0 1).byte 1 = oneTwo.byte 0 := h.copied 0 (by decide)
  exact absurd h0 (by decide)

-- what they leave in memory is told by the lemmas, and thousands of turns are not to be evaluated
attribute [irreducible] fillMemory copyMemory moveMemory

end Metta.Runtime
