/-
  Metta.Machine.Bytes — strings of bytes and where they are in memory.

    • `HasBytes` — a string of bytes lies at an address, `hasBytes_append`,
    • `writeAll` — strings that are written one after the other, `hasBytes_writeAll`,
    • `le32` — a word as four bytes, `HasBytes.load32` — reading it back,
    • `Text` — a string without its NUL, `matchesText` — comparing with one,
    • `cstringEquals` — comparing by length and then byte by byte.
-/
import Metta.Machine.Memory

namespace Metta.Machine

open Memory

/-! ## §1. Bytes in memory. -/

/-- The bytes `bs` lie at `a`. -/
def HasBytes (m : Memory) (a : Nat) (bs : List UInt8) : Prop :=
  ∀ i (h : i < bs.length), m.byte (a + i) = bs[i]

variable {m : Memory} {a : Nat} {bs bs' : List UInt8}

theorem hasBytes_nil (m : Memory) (a : Nat) : HasBytes m a [] := fun _ h => by cases h

theorem hasBytes_cons {b : UInt8} :
    HasBytes m a (b :: bs) ↔ m.byte a = b ∧ HasBytes m (a + 1) bs := by
  constructor
  · intro h
    refine ⟨h 0 (by simp), fun i hi => ?_⟩
    have := h (i + 1) (by simpa using hi)
    rwa [← Nat.add_assoc, Nat.add_right_comm] at this
  · rintro ⟨hb, h⟩ i hi
    cases i with
    | zero => exact hb
    | succ i =>
        have := h i (by simpa using hi)
        rwa [Nat.add_right_comm] at this

/-- Strings one behind the other. -/
theorem hasBytes_append :
    HasBytes m a (bs ++ bs') ↔ HasBytes m a bs ∧ HasBytes m (a + bs.length) bs' := by
  induction bs generalizing a with
  | nil => exact ⟨fun h => ⟨hasBytes_nil m a, h⟩, And.right⟩
  | cons b bs ih =>
      rw [List.cons_append, hasBytes_cons, hasBytes_cons, ih, and_assoc, List.length_cons,
        Nat.add_assoc, Nat.add_comm 1]

theorem HasBytes.of_prefix (h : HasBytes m a bs') (hp : bs <+: bs') : HasBytes m a bs := by
  obtain ⟨rest, rfl⟩ := hp
  exact (hasBytes_append.mp h).1

/-- A string is where it was when nothing is written there. -/
theorem HasBytes.congr {m' : Memory} (h : HasBytes m a bs)
    (hm : ∀ x, a ≤ x → x < a + bs.length → m'.byte x = m.byte x) : HasBytes m' a bs :=
  fun i hi => by rw [hm _ (by omega) (by omega), h i hi]

theorem HasBytes.byte (h : HasBytes m a bs) {i : Nat} {b : UInt8} (hi : bs[i]? = some b) :
    m.byte (a + i) = b := by
  obtain ⟨hlt, hb⟩ := List.getElem?_eq_some_iff.mp hi
  rw [h i hlt, hb]

/-- Strings of the same length one behind the other. -/
theorem HasBytes.flatMap {α : Type*} {f : α → List UInt8} {n : Nat} (hf : ∀ x, (f x).length = n)
    {xs : List α} (h : HasBytes m a (xs.flatMap f)) {i : Nat} {x : α} (hi : xs[i]? = some x) :
    HasBytes m (a + n * i) (f x) := by
  induction xs generalizing a i with
  | nil => simp at hi
  | cons y xs ih =>
      rw [List.flatMap_cons, hasBytes_append, hf] at h
      cases i with
      | zero =>
          cases hi
          exact h.1
      | succ i =>
          have hnext := ih h.2 hi
          rwa [Nat.add_assoc, Nat.add_comm n, ← Nat.mul_succ] at hnext

/-- A word as bytes, the lowest first. -/
def le32 (v : Nat) : List UInt8 :=
  [UInt8.ofNat v, UInt8.ofNat (v / 256), UInt8.ofNat (v / 65536), UInt8.ofNat (v / 16777216)]

@[simp] theorem length_le32 (v : Nat) : (le32 v).length = 4 := rfl

/-- A word is read back modulo `2 ^ 32`. -/
theorem HasBytes.load32 {v : Nat} (h : HasBytes m a (le32 v)) : m.load32 a = v % wordSize := by
  have h0 : m.byte a = UInt8.ofNat v := h.byte (i := 0) rfl
  have h1 : m.byte (a + 1) = UInt8.ofNat (v / 256) := h.byte rfl
  have h2 : m.byte (a + 2) = UInt8.ofNat (v / 65536) := h.byte rfl
  have h3 : m.byte (a + 3) = UInt8.ofNat (v / 16777216) := h.byte rfl
  rw [Memory.load32, h0, h1, h2, h3]
  simp only [UInt8.toNat_ofNat', wordSize]
  omega

/-! ## §2. Strings that are written one after the other. -/

theorem hasBytes_write (m : Memory) (a : Nat) (bs : List UInt8) : HasBytes (m.write a bs) a bs :=
  fun _ hi => byte_write_same m a bs hi

section Writes

variable {α : Type*} (p : α → Nat) (d : α → List UInt8)

/-- The string `d x` is written to `p x`, for one `x` after the other. -/
def writeAll (m : Memory) (xs : List α) : Memory := xs.foldl (fun m x => m.write (p x) (d x)) m

theorem byte_writeAll (m : Memory) {xs : List α} {a : Nat}
    (h : ∀ x ∈ xs, a < p x ∨ p x + (d x).length ≤ a) : (writeAll p d m xs).byte a = m.byte a := by
  induction xs generalizing m with
  | nil => rfl
  | cons x xs ih =>
      show (writeAll p d (m.write (p x) (d x)) xs).byte a = m.byte a
      rw [ih _ fun y hy => h y (List.mem_cons_of_mem _ hy)]
      exact byte_write_ne m (h x List.mem_cons_self)

/-- **Strings that do not overlap** are all there afterwards. -/
theorem hasBytes_writeAll (m : Memory) {xs : List α}
    (hapart : xs.Pairwise fun x y => p x + (d x).length ≤ p y ∨ p y + (d y).length ≤ p x) {x : α}
    (hx : x ∈ xs) : HasBytes (writeAll p d m xs) (p x) (d x) := by
  induction xs generalizing m with
  | nil => cases hx
  | cons y ys ih =>
      obtain ⟨hy, hys⟩ := List.pairwise_cons.mp hapart
      show HasBytes (writeAll p d (m.write (p y) (d y)) ys) (p x) (d x)
      rcases List.mem_cons.mp hx with rfl | hx
      · -- the others are written to other places
        apply (hasBytes_write m (p x) (d x)).congr
        intro a h1 h2
        apply byte_writeAll
        intro z hz
        have := hy z hz
        omega
      · exact ih _ hys hx

end Writes

/-! ## §3. Strings with a NUL. -/

/-- A string of bytes with no NUL in it. -/
structure Text where
  bytes : List UInt8
  noNul : ∀ b ∈ bytes, b ≠ 0
  deriving DecidableEq

/-- Bytes that are looked at one by one. -/
theorem noNul_of_all {bs : List UInt8} (h : (bs.all fun b => b != 0) = true) :
    ∀ b ∈ bs, b ≠ 0 := fun b hb => by
  simpa using List.all_eq_true.mp h b hb

namespace Text

@[ext] theorem ext {t t' : Text} (h : t.bytes = t'.bytes) : t = t' := by
  cases t
  cases t'
  cases h
  rfl

/-- The bytes and the NUL. -/
def terminated (t : Text) : List UInt8 := t.bytes ++ [0]

@[simp] theorem length_terminated (t : Text) : t.terminated.length = t.bytes.length + 1 := by
  simp [terminated]

end Text

/-- The bytes at `a` are `bs` and then a NUL: the loop of a comparison with the string
`bs`, which has no NUL. -/
def matchesText (m : Memory) : Nat → List UInt8 → Bool
  | a, [] => m.byte a == 0
  | a, b :: bs => m.byte a == b && matchesText m (a + 1) bs

/-- **A comparison is exact**: two strings that end in a NUL agree only when they are the
same. -/
theorem matchesText_iff {t t' : Text} (h : HasBytes m a t.terminated) :
    matchesText m a t'.bytes = true ↔ t = t' := by
  obtain ⟨bs, hbs⟩ := t
  obtain ⟨bs', hbs'⟩ := t'
  simp only [Text.terminated, Text.mk.injEq] at h ⊢
  induction bs generalizing a bs' with
  | nil =>
      obtain ⟨hnul, -⟩ := hasBytes_cons.mp h
      cases bs' with
      | nil => simp [matchesText, hnul]
      | cons b' bs' =>
          have := hbs' b' List.mem_cons_self
          simp [matchesText, hnul, Ne.symm this]
  | cons b bs ih =>
      obtain ⟨hb, hrest⟩ := hasBytes_cons.mp h
      have hne := hbs b List.mem_cons_self
      cases bs' with
      | nil => simp [matchesText, hb, hne]
      | cons b' bs' =>
          have hih := ih (fun x hx => hbs x (List.mem_cons_of_mem _ hx)) hrest bs'
            (fun x hx => hbs' x (List.mem_cons_of_mem _ hx))
          simp [matchesText, hb, hih]

theorem matchesText_iff_hasBytes : matchesText m a bs = true ↔ HasBytes m a (bs ++ [0]) := by
  induction bs generalizing a with
  | nil => simp [matchesText, hasBytes_cons, hasBytes_nil]
  | cons b bs ih => simp [matchesText, hasBytes_cons, ih]

/-- At an address there is at most one string that ends in a NUL. -/
theorem HasBytes.text_unique {t t' : Text} (h : HasBytes m a t.terminated)
    (h' : HasBytes m a t'.terminated) : t = t' :=
  (matchesText_iff h).mp (matchesText_iff_hasBytes.mpr h')

/-- A comparison with a string in memory: the first NUL is behind as many bytes as the
text has, and the bytes are the same. -/
def cstringEquals (m : Memory) (t : Text) (a : Nat) : Bool :=
  (List.range t.bytes.length).all (fun i => m.byte (a + i) != 0)
    && m.byte (a + t.bytes.length) == 0
    && (List.range t.bytes.length).all fun i => m.byte (a + i) == t.bytes.getD i 0

theorem cstringEquals_iff {t : Text} : cstringEquals m t a = true ↔ HasBytes m a t.terminated := by
  have hget : ∀ i (h : i < t.bytes.length), t.bytes.getD i 0 = t.bytes[i] := fun i h => by
    rw [List.getD_eq_getElem?_getD, List.getElem?_eq_getElem h, Option.getD_some]
  simp only [cstringEquals, Bool.and_eq_true, List.all_eq_true, List.mem_range, bne_iff_ne,
    beq_iff_eq, Text.terminated, hasBytes_append, hasBytes_cons, hasBytes_nil, and_true]
  constructor
  · rintro ⟨⟨-, hnul⟩, hsame⟩
    exact ⟨fun i hi => by rw [hsame i hi, hget i hi], hnul⟩
  · rintro ⟨hsame, hnul⟩
    refine ⟨⟨fun i hi => ?_, hnul⟩, fun i hi => by rw [hsame i hi, hget i hi]⟩
    rw [hsame i hi]
    exact t.noNul _ (List.getElem_mem hi)

end Metta.Machine
