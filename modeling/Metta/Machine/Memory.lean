/-
  Metta.Machine.Memory — byte-addressed memory with a store log.

  A memory is its bytes together with the addresses of the 32-bit stores
  made to it, newest first.  The log is what makes "does not write there"
  a statement about writes and not about values that happen to agree.

    • `load32`/`store32` — little-endian 32-bit access,
    • `load16`/`store16`, `clear`, `copy` — half words, zeroing and copying,
    • `load32_store32_same`/`_ne` — reading back, and past a store,
    • `byte_copy`, `byte_clear` — what is in memory after a copy,
    • `load32_foldl_amend` — words that are changed one after the other,
    • `Stored` — the stores of a run all fall in a set of addresses,
    • `Stored.byte_eq` — a byte no store of the run covers keeps its value,
    • `StoredAt` — a store that the run made.
-/
import Metta.Machine.Word

namespace Metta.Machine

/-! ## §1. Memories. -/

/-- The bytes of a memory and the addresses of the 32-bit stores made. -/
structure Memory where
  /-- The byte at each address. -/
  byte : Nat → UInt8
  /-- The addresses of the 32-bit stores, newest first. -/
  stores : List Nat

namespace Memory

/-- Little-endian 32-bit load. -/
def load32 (m : Memory) (a : Nat) : Nat :=
  (m.byte a).toNat + 256 * (m.byte (a + 1)).toNat
    + 65536 * (m.byte (a + 2)).toNat + 16777216 * (m.byte (a + 3)).toNat

/-- Little-endian 32-bit store. -/
def store32 (m : Memory) (a v : Nat) : Memory where
  byte x :=
    if x = a then UInt8.ofNat v
    else if x = a + 1 then UInt8.ofNat (v / 256)
    else if x = a + 2 then UInt8.ofNat (v / 65536)
    else if x = a + 3 then UInt8.ofNat (v / 16777216)
    else m.byte x
  stores := a :: m.stores

/-- A store of one byte (made by a client of the memory, so not logged). -/
def poke (m : Memory) (a : Nat) (v : UInt8) : Memory :=
  { m with byte := fun x => if x = a then v else m.byte x }

/-- Little-endian 16-bit load. -/
def load16 (m : Memory) (a : Nat) : Nat :=
  (m.byte a).toNat + 256 * (m.byte (a + 1)).toNat

/-- Little-endian 16-bit store. -/
def store16 (m : Memory) (a v : Nat) : Memory :=
  (m.poke a (UInt8.ofNat v)).poke (a + 1) (UInt8.ofNat (v / 256))

/-- Little-endian 64-bit load. -/
def load64 (m : Memory) (a : Nat) : Nat := m.load32 a + wordSize * m.load32 (a + 4)

/-- Little-endian 64-bit store. -/
def store64 (m : Memory) (a v : Nat) : Memory :=
  (m.store32 a (v % wordSize)).store32 (a + 4) (v / wordSize)

/-- Copy bytes to `a`. -/
def write (m : Memory) (a : Nat) (bs : List UInt8) : Memory :=
  { m with byte := fun x => if a ≤ x ∧ x < a + bs.length then bs.getD (x - a) 0 else m.byte x }

/-- Zero the `n` bytes at `a`, around the end of the address space. -/
def clear (m : Memory) (a n : Nat) : Memory :=
  { m with byte := fun x => if sub32 x a < n then 0 else m.byte x }

/-- Copy `n` bytes one by one, upwards, around the end of the address space. -/
def copy (m : Memory) (dest src : Nat) : Nat → Memory
  | 0 => m
  | n + 1 => (m.poke dest (m.byte src)).copy (add32 dest 1) (add32 src 1) n

theorem load32_lt (m : Memory) (a : Nat) : m.load32 a < wordSize := by
  have h0 := (m.byte a).toNat_lt
  have h1 := (m.byte (a + 1)).toNat_lt
  have h2 := (m.byte (a + 2)).toNat_lt
  have h3 := (m.byte (a + 3)).toNat_lt
  simp only [load32, wordSize]
  omega

/-- A load sees the four bytes at its address only. -/
theorem load32_congr {m m' : Memory} {a : Nat}
    (h : ∀ x, a ≤ x → x < a + 4 → m'.byte x = m.byte x) :
    m'.load32 a = m.load32 a := by
  simp only [load32]
  rw [h a (by omega) (by omega), h (a + 1) (by omega) (by omega),
    h (a + 2) (by omega) (by omega), h (a + 3) (by omega) (by omega)]

/-- The same bytes at another place are the same word. -/
theorem load32_shift {m m' : Memory} {a a' : Nat}
    (h : ∀ k < 4, m'.byte (a' + k) = m.byte (a + k)) : m'.load32 a' = m.load32 a := by
  simp only [load32]
  rw [h 1 (by omega), h 2 (by omega), h 3 (by omega)]
  have h0 := h 0 (by omega)
  rw [Nat.add_zero, Nat.add_zero] at h0
  rw [h0]

/-- The same word has the same bytes. -/
theorem byte_of_load32_eq {m m' : Memory} {a a' : Nat} (h : m'.load32 a' = m.load32 a) {k : Nat}
    (hk : k < 4) : m'.byte (a' + k) = m.byte (a + k) := by
  have hlt : ∀ (m : Memory) x, (m.byte x).toNat < 256 := fun m x => (m.byte x).toNat_lt
  have h0 := hlt m a
  have h1 := hlt m (a + 1)
  have h2 := hlt m (a + 2)
  have h3 := hlt m (a + 3)
  have h0' := hlt m' a'
  have h1' := hlt m' (a' + 1)
  have h2' := hlt m' (a' + 2)
  have h3' := hlt m' (a' + 3)
  simp only [load32] at h
  apply UInt8.toNat_inj.mp
  obtain rfl | rfl | rfl | rfl : k = 0 ∨ k = 1 ∨ k = 2 ∨ k = 3 := by omega
  · simp only [Nat.add_zero]
    omega
  · omega
  · omega
  · omega

theorem load16_shift {m m' : Memory} {a a' : Nat}
    (h : ∀ k < 2, m'.byte (a' + k) = m.byte (a + k)) : m'.load16 a' = m.load16 a := by
  simp only [load16]
  rw [h 1 (by omega)]
  have h0 := h 0 (by omega)
  rw [Nat.add_zero, Nat.add_zero] at h0
  rw [h0]

/-! ## §2. Reading after writing. -/

theorem load32_store32_same (m : Memory) (a v : Nat) (hv : v < wordSize) :
    (m.store32 a v).load32 a = v := by
  simp only [wordSize] at hv
  simp only [load32, store32]
  simp only [if_true, Nat.add_eq_left, Nat.add_right_inj, OfNat.ofNat_ne_zero,
    one_ne_zero, if_false, UInt8.toNat_ofNat', OfNat.ofNat_ne_one]
  norm_num
  omega

/-- A 32-bit store changes its four bytes only. -/
theorem byte_store32_ne (m : Memory) (a v x : Nat) (h : x < a ∨ a + 4 ≤ x) :
    (m.store32 a v).byte x = m.byte x := by
  simp only [store32]
  rw [if_neg (by omega), if_neg (by omega), if_neg (by omega), if_neg (by omega)]

theorem load32_store32_ne (m : Memory) (a v b : Nat) (h : a + 4 ≤ b ∨ b + 4 ≤ a) :
    (m.store32 a v).load32 b = m.load32 b :=
  load32_congr fun x _ _ => byte_store32_ne m a v x (by omega)

theorem load32_poke_ne (m : Memory) (a b : Nat) (v : UInt8) (h : a < b ∨ b + 4 ≤ a) :
    (m.poke a v).load32 b = m.load32 b := by
  apply load32_congr
  intro x hx hx'
  simp only [poke]
  rw [if_neg (by omega)]

theorem load16_congr {m m' : Memory} {a : Nat}
    (h : ∀ x, a ≤ x → x < a + 2 → m'.byte x = m.byte x) :
    m'.load16 a = m.load16 a := by
  simp only [load16]
  rw [h a (by omega) (by omega), h (a + 1) (by omega) (by omega)]

theorem load16_store16_same (m : Memory) (a v : Nat) (hv : v < 2 ^ 16) :
    (m.store16 a v).load16 a = v := by
  simp only [load16, store16, poke]
  simp only [if_neg (show ¬a = a + 1 by omega), if_true, UInt8.toNat_ofNat']
  omega

/-- A 16-bit store changes its two bytes only. -/
theorem byte_store16_ne (m : Memory) (a v x : Nat) (h : x < a ∨ a + 2 ≤ x) :
    (m.store16 a v).byte x = m.byte x := by
  simp only [store16, poke]
  rw [if_neg (by omega), if_neg (by omega)]

theorem load32_store16_ne (m : Memory) (a v b : Nat) (h : a + 2 ≤ b ∨ b + 4 ≤ a) :
    (m.store16 a v).load32 b = m.load32 b :=
  load32_congr fun x _ _ => byte_store16_ne m a v x (by omega)

theorem load16_store16_ne (m : Memory) (a v b : Nat) (h : a + 2 ≤ b ∨ b + 2 ≤ a) :
    (m.store16 a v).load16 b = m.load16 b :=
  load16_congr fun x _ _ => byte_store16_ne m a v x (by omega)

theorem load16_store32_ne (m : Memory) (a v b : Nat) (h : a + 4 ≤ b ∨ b + 2 ≤ a) :
    (m.store32 a v).load16 b = m.load16 b :=
  load16_congr fun x _ _ => byte_store32_ne m a v x (by omega)

theorem load64_congr {m m' : Memory} {a : Nat}
    (h : ∀ x, a ≤ x → x < a + 8 → m'.byte x = m.byte x) : m'.load64 a = m.load64 a := by
  rw [load64, load64, load32_congr fun x h1 h2 => h x h1 (by omega),
    load32_congr fun x h1 h2 => h x (by omega) (by omega)]

theorem load64_store64_same (m : Memory) (a v : Nat) (hv : v < 2 ^ 64) :
    (m.store64 a v).load64 a = v := by
  rw [load64, store64, load32_store32_ne _ _ _ _ (by omega),
    load32_store32_same _ _ _ (Nat.mod_lt _ (by decide)),
    load32_store32_same _ _ _ (by simp only [wordSize]; omega)]
  exact Nat.mod_add_div v wordSize

/-- A 64-bit store changes its eight bytes only. -/
theorem byte_store64_ne (m : Memory) (a v x : Nat) (h : x < a ∨ a + 8 ≤ x) :
    (m.store64 a v).byte x = m.byte x := by
  rw [store64, byte_store32_ne _ _ _ _ (by omega), byte_store32_ne _ _ _ _ (by omega)]

theorem byte_write_ne (m : Memory) {a x : Nat} {bs : List UInt8}
    (h : x < a ∨ a + bs.length ≤ x) : (m.write a bs).byte x = m.byte x := by
  simp only [write]
  rw [if_neg (by omega)]

theorem load32_store64_ne (m : Memory) (a v b : Nat) (h : a + 8 ≤ b ∨ b + 4 ≤ a) :
    (m.store64 a v).load32 b = m.load32 b :=
  load32_congr fun x _ _ => byte_store64_ne m a v x (by omega)

theorem load64_store32_ne (m : Memory) (a v b : Nat) (h : a + 4 ≤ b ∨ b + 8 ≤ a) :
    (m.store32 a v).load64 b = m.load64 b :=
  load64_congr fun x _ _ => byte_store32_ne m a v x (by omega)

theorem load64_store64_ne (m : Memory) (a v b : Nat) (h : a + 8 ≤ b ∨ b + 8 ≤ a) :
    (m.store64 a v).load64 b = m.load64 b :=
  load64_congr fun x _ _ => byte_store64_ne m a v x (by omega)

theorem load32_write_ne (m : Memory) {a b : Nat} {bs : List UInt8} (h : b + 4 ≤ a) :
    (m.write a bs).load32 b = m.load32 b :=
  load32_congr fun _ _ _ => byte_write_ne m (by omega)

theorem load64_write_ne (m : Memory) {a b : Nat} {bs : List UInt8} (h : b + 8 ≤ a) :
    (m.write a bs).load64 b = m.load64 b :=
  load64_congr fun _ _ _ => byte_write_ne m (by omega)

theorem byte_write_same (m : Memory) (a : Nat) (bs : List UInt8) {i : Nat} (hi : i < bs.length) :
    (m.write a bs).byte (a + i) = bs[i] := by
  simp only [write]
  rw [if_pos (by omega), Nat.add_sub_cancel_left]
  simp [hi]

theorem load32_eq_zero {m : Memory} {a : Nat} (h : ∀ x, a ≤ x → x < a + 4 → m.byte x = 0) :
    m.load32 a = 0 := by
  simp only [load32]
  rw [h a (by omega) (by omega), h (a + 1) (by omega) (by omega),
    h (a + 2) (by omega) (by omega), h (a + 3) (by omega) (by omega)]
  rfl

theorem load16_eq_zero {m : Memory} {a : Nat} (h : ∀ x, a ≤ x → x < a + 2 → m.byte x = 0) :
    m.load16 a = 0 := by
  simp only [load16]
  rw [h a (by omega) (by omega), h (a + 1) (by omega) (by omega)]
  rfl

/-- Copying, when source and destination do not overlap. -/
theorem byte_copy (m : Memory) {dest src n : Nat} (hdest : dest + n < wordSize)
    (hsrc : src + n < wordSize) (hapart : src + n ≤ dest ∨ dest + n ≤ src) (x : Nat) :
    (m.copy dest src n).byte x
      = if dest ≤ x ∧ x < dest + n then m.byte (src + (x - dest)) else m.byte x := by
  induction n generalizing m dest src with
  | zero => rw [copy, if_neg (by omega)]
  | succ n ih =>
      rw [copy, add32_eq (by omega), add32_eq (by omega),
        ih _ (by omega) (by omega) (by omega)]
      simp only [poke]
      by_cases hx : x = dest
      · rw [if_neg (by omega), if_pos hx, if_pos (by omega), hx, Nat.sub_self, Nat.add_zero]
      · by_cases hin : dest + 1 ≤ x ∧ x < dest + 1 + n
        · rw [if_pos hin, if_neg (by omega), if_pos (by omega)]
          congr 1
          omega
        · rw [if_neg hin, if_neg hx, if_neg (by omega)]

theorem byte_clear (m : Memory) {a n x : Nat} (ha : a + n < wordSize) (hx : x < wordSize) :
    (m.clear a n).byte x = if a ≤ x ∧ x < a + n then 0 else m.byte x := by
  have hsub : sub32 x a < n ↔ a ≤ x ∧ x < a + n := by
    simp only [sub32, wordSize] at *
    omega
  simp only [clear, hsub]

/-! ## §3. Words that are changed one after the other. -/

section Amend

variable {α : Type*} (p : α → Nat) (f : α → Nat → Nat)

/-- The word at `p x` becomes what `f x` makes of it. -/
def amend (m : Memory) (x : α) : Memory := m.store32 (p x) (f x (m.load32 (p x)))

theorem byte_foldl_amend (m : Memory) {xs : List α} {a : Nat}
    (h : ∀ x ∈ xs, a < p x ∨ p x + 4 ≤ a) : (xs.foldl (amend p f) m).byte a = m.byte a := by
  induction xs generalizing m with
  | nil => rfl
  | cons x xs ih =>
      rw [List.foldl_cons, ih _ fun y hy => h y (List.mem_cons_of_mem _ hy)]
      exact byte_store32_ne _ _ _ _ (h x List.mem_cons_self)

/-- **Words that do not overlap** are changed independently. -/
theorem load32_foldl_amend (m : Memory) (hf : ∀ x v, v < wordSize → f x v < wordSize) {xs : List α}
    (hapart : xs.Pairwise fun x y => p x + 4 ≤ p y ∨ p y + 4 ≤ p x) {x : α} (hx : x ∈ xs) :
    (xs.foldl (amend p f) m).load32 (p x) = f x (m.load32 (p x)) := by
  induction xs generalizing m with
  | nil => cases hx
  | cons y ys ih =>
      obtain ⟨hy, hys⟩ := List.pairwise_cons.mp hapart
      rw [List.foldl_cons]
      rcases List.mem_cons.mp hx with rfl | hx
      · -- the others do not change this word
        have hsame : ∀ a, p x ≤ a → a < p x + 4 →
            (ys.foldl (amend p f) (amend p f m x)).byte a = (amend p f m x).byte a := by
          intro a h1 h2
          refine byte_foldl_amend p f _ fun z hz => ?_
          have := hy z hz
          omega
        rw [load32_congr hsame]
        exact load32_store32_same _ _ _ (hf _ _ (load32_lt _ _))
      · rw [ih _ hys hx]
        congr 1
        exact load32_store32_ne _ _ _ _ (hy x hx)

end Amend

/-! ## §4. The store log. -/

/-- `m'` was reached from `m` by stores at addresses in `P` only. -/
def Stored (P : Nat → Prop) (m m' : Memory) : Prop :=
  ∃ new : List Nat, m'.stores = new ++ m.stores ∧ (∀ a ∈ new, P a) ∧
    ∀ x, (∀ a ∈ new, x < a ∨ a + 4 ≤ x) → m'.byte x = m.byte x

theorem Stored.refl (P : Nat → Prop) (m : Memory) : Stored P m m :=
  ⟨[], rfl, by simp, fun _ _ => rfl⟩

theorem Stored.trans {P : Nat → Prop} {m m' m'' : Memory}
    (h : Stored P m m') (h' : Stored P m' m'') : Stored P m m'' := by
  obtain ⟨new, hs, hp, hb⟩ := h
  obtain ⟨new', hs', hp', hb'⟩ := h'
  refine ⟨new' ++ new, by rw [hs', hs, List.append_assoc], ?_, ?_⟩
  · intro a ha
    rcases List.mem_append.mp ha with ha | ha
    · exact hp' a ha
    · exact hp a ha
  · intro x hx
    rw [hb' x (fun a ha => hx a (List.mem_append_left _ ha)),
      hb x (fun a ha => hx a (List.mem_append_right _ ha))]

theorem Stored.mono {P Q : Nat → Prop} {m m' : Memory} (h : Stored P m m')
    (hPQ : ∀ a, P a → Q a) : Stored Q m m' := by
  obtain ⟨new, hs, hp, hb⟩ := h
  exact ⟨new, hs, fun a ha => hPQ a (hp a ha), hb⟩

/-- One store adds its address to the log. -/
theorem Stored.store {P : Nat → Prop} {m m' : Memory} (h : Stored P m m')
    {a : Nat} (v : Nat) (ha : P a) : Stored P m (m'.store32 a v) := by
  refine h.trans ⟨[a], rfl, by simpa using ha, ?_⟩
  intro x hx
  exact byte_store32_ne m' a v x (by simpa using hx a (by simp))

/-- **A byte outside every allowed store keeps its value.** -/
theorem Stored.byte_eq {P : Nat → Prop} {m m' : Memory} (h : Stored P m m') {x : Nat}
    (hx : ∀ a, P a → x < a ∨ a + 4 ≤ x) : m'.byte x = m.byte x := by
  obtain ⟨new, -, hp, hb⟩ := h
  exact hb x (fun a ha => hx a (hp a ha))

/-- Among the stores between `m` and `m'` there is one at `a`. -/
def StoredAt (a : Nat) (m m' : Memory) : Prop :=
  ∃ after before, m'.stores = after ++ a :: (before ++ m.stores)

theorem storedAt_store (m : Memory) (a v : Nat) : StoredAt a m (m.store32 a v) := ⟨[], [], rfl⟩

theorem StoredAt.after {P : Nat → Prop} {a : Nat} {m m' m'' : Memory} (h : StoredAt a m m')
    (h' : Stored P m' m'') : StoredAt a m m'' := by
  obtain ⟨after, before, hs⟩ := h
  obtain ⟨new, hs', -⟩ := h'
  exact ⟨new ++ after, before, by rw [hs', hs, List.append_assoc]⟩

theorem StoredAt.before {P : Nat → Prop} {a : Nat} {m m' m'' : Memory} (h : StoredAt a m' m'')
    (h' : Stored P m m') : StoredAt a m m'' := by
  obtain ⟨after, before, hs⟩ := h
  obtain ⟨new, hs', -⟩ := h'
  exact ⟨after, before ++ new, by rw [hs, hs', List.append_assoc]⟩

/-- A store that was made is among those that are allowed. -/
theorem Stored.of_storedAt {P : Nat → Prop} {a : Nat} {m m' : Memory} (h : Stored P m m')
    (h' : StoredAt a m m') : P a := by
  obtain ⟨new, hs, hp, -⟩ := h
  obtain ⟨after, before, hs'⟩ := h'
  have heq : new = after ++ a :: before := by
    refine (List.append_left_inj m.stores).mp ?_
    rw [← hs, hs', List.append_assoc]
    rfl
  exact hp a (by rw [heq]; simp)

end Memory

end Metta.Machine
