/-
  Metta.Machine.Decoder — decoders of strings of bytes.

  A decoder reads a string from an offset on and goes on behind what it has
  read.  It may not read outside of the string, and it may fail by itself.

    • `Decoder`, `byte`, `position`, `fail` — decoders,
    • `Reads` — from this offset on a decoder reads exactly these bytes,
      whatever is behind them, and has this result; `Reads.bind`,
    • `Fails` — it fails there, whatever is behind them,
    • `word16`, `word32`, `word64` — words of several bytes, the lowest first,
    • `turns` — as many turns as a loop can have that reads in every turn,
    • `times` — a decoder many times, `Reads.times`.
-/
import Metta.Machine.Bytes

namespace Metta.Machine

/-- Why a decoder has no result. -/
inductive Fault (ε : Type) where
  /-- A byte outside of the string is needed. -/
  | outside
  | failed (e : ε)
  deriving DecidableEq, Repr

/-- A string and an offset in it: the result and the offset behind what was read. -/
def Decoder (ε α : Type) : Type := List UInt8 → Nat → Except (Fault ε) (α × Nat)

namespace Decoder

variable {ε α β : Type}

instance : Monad (Decoder ε) where
  pure a := fun _ o => .ok (a, o)
  bind p f := fun s o =>
    match p s o with
    | .error e => .error e
    | .ok (a, o') => f a s o'

/-- Fails. -/
def fail (e : ε) : Decoder ε α := fun _ _ => .error (.failed e)

/-- The next byte. -/
def byte : Decoder ε UInt8 := fun s o =>
  match s[o]? with
  | some b => .ok (b, o + 1)
  | none => .error .outside

/-- Where the decoder is. -/
def position : Decoder ε Nat := fun _ o => .ok (o, o)

/-- Goes on further behind, without reading. -/
def skip (n : Nat) : Decoder ε Unit := fun _ o => .ok ((), o + n)

/-- Turns for a loop.  A loop that reads in every turn has no more of them than the string
has bytes. -/
def turns (p : Nat → Decoder ε α) : Decoder ε α := fun s o => p (s.length + 1) s o

/-- The decoder, that many times. -/
def times (p : Decoder ε α) : Nat → Decoder ε (List α)
  | 0 => pure []
  | n + 1 => do
      let a ← p
      let as ← times p n
      pure (a :: as)

/-! ## §1. How a sequence goes. -/

variable {p : Decoder ε α} {f : α → Decoder ε β} {s : List UInt8} {o o' : Nat} {a : α} {b : β}

theorem pure_apply (a : α) (s : List UInt8) (o : Nat) :
    (pure a : Decoder ε α) s o = .ok (a, o) := rfl

theorem bind_apply (p : Decoder ε α) (f : α → Decoder ε β) (s : List UInt8) (o : Nat) :
    (p >>= f) s o = match p s o with
      | .error e => .error e
      | .ok (a, o') => f a s o' := rfl

theorem bind_of_ok (h : p s o = .ok (a, o')) : (p >>= f) s o = f a s o' := by
  rw [bind_apply, h]

theorem bind_of_error {e : Fault ε} (h : p s o = .error e) : (p >>= f) s o = .error e := by
  rw [bind_apply, h]

theorem turns_apply (p : Nat → Decoder ε α) (s : List UInt8) (o : Nat) :
    turns p s o = p (s.length + 1) s o := rfl

theorem position_apply (s : List UInt8) (o : Nat) :
    (position : Decoder ε Nat) s o = .ok (o, o) := rfl

/-! ## §2. Reading a given string. -/

section Lies

variable {γ : Type} {s bs bs' : List γ}

/-- The bytes `bs` lie at the offset `o`. -/
def Lies (s : List γ) (o : Nat) (bs : List γ) : Prop := bs <+: s.drop o

theorem lies_nil (s : List γ) (o : Nat) : Lies s o [] := List.nil_prefix

theorem lies_append : Lies s o (bs ++ bs') ↔ Lies s o bs ∧ Lies s (o + bs.length) bs' := by
  unfold Lies
  constructor
  · rintro ⟨rest, h⟩
    rw [List.append_assoc] at h
    refine ⟨⟨bs' ++ rest, h⟩, ⟨rest, ?_⟩⟩
    rw [← List.drop_drop, ← h, List.drop_left]
  · rintro ⟨⟨rest, h⟩, ⟨rest', h'⟩⟩
    refine ⟨rest', ?_⟩
    rw [← List.drop_drop, ← h, List.drop_left] at h'
    rw [List.append_assoc, h', h]

theorem Lies.left (h : Lies s o (bs ++ bs')) : Lies s o bs := (lies_append.mp h).1

theorem Lies.right (h : Lies s o (bs ++ bs')) : Lies s (o + bs.length) bs' := (lies_append.mp h).2

theorem Lies.of_append (pre bs post : List γ) : Lies (pre ++ bs ++ post) pre.length bs := by
  unfold Lies
  rw [List.append_assoc, List.drop_left]
  exact List.prefix_append bs post

/-- The first one that lies there. -/
theorem Lies.head {x : γ} (h : Lies s o (x :: bs)) : s[o]? = some x := by
  obtain ⟨rest, h⟩ := h
  rw [← Nat.add_zero o, ← List.getElem?_drop, ← h]
  rfl

theorem Lies.tail {x : γ} (h : Lies s o (x :: bs)) : Lies s (o + 1) bs := by
  have hfront : Lies s o ([x] ++ bs) := h
  exact hfront.right

/-- What lies in the string ends in it. -/
theorem Lies.length_le (h : Lies s o bs) (hne : bs ≠ []) : o + bs.length ≤ s.length := by
  have hle := List.IsPrefix.length_le h
  have hpos := List.length_pos_iff.mpr hne
  rw [List.length_drop] at hle
  omega

end Lies

variable {bs bs' : List UInt8}

/-- From the offset `o` on the decoder reads `bs`, and nothing else, with the result `a`. -/
def Reads (p : Decoder ε α) (o : Nat) (bs : List UInt8) (a : α) : Prop :=
  ∀ s, Lies s o bs → p s o = .ok (a, o + bs.length)

/-- From the offset `o` on the decoder finds `bs` and fails. -/
def Fails (p : Decoder ε α) (o : Nat) (bs : List UInt8) : Prop :=
  ∀ s, Lies s o bs → ∃ e, p s o = .error e

namespace Reads

theorem pure (a : α) (o : Nat) : Reads (Pure.pure a : Decoder ε α) o [] a := fun _ _ => rfl

theorem position (o : Nat) : Reads (position : Decoder ε Nat) o [] o := fun _ _ => rfl

theorem byte (b : UInt8) (o : Nat) : Reads (byte : Decoder ε UInt8) o [b] b := by
  intro s h
  unfold Decoder.byte
  rw [h.head]
  rfl

/-- **One string behind the other.** -/
theorem bind (hp : Reads p o bs a) (hf : Reads (f a) (o + bs.length) bs' b) :
    Reads (p >>= f) o (bs ++ bs') b := by
  intro s h
  rw [bind_of_ok (hp s h.left), hf s h.right, List.length_append, Nat.add_assoc]

/-- A step that reads nothing. -/
theorem bind_nil (hp : Reads p o [] a) (hf : Reads (f a) o bs' b) : Reads (p >>= f) o bs' b :=
  hp.bind hf

/-- The last step reads nothing. -/
theorem bind_last (hp : Reads p o bs a) (hf : Reads (f a) (o + bs.length) [] b) :
    Reads (p >>= f) o bs b := by
  have h := hp.bind hf
  rwa [List.append_nil] at h

/-- The result is made of what is read. -/
theorem map (hp : Reads p o bs a) (g : α → β) : Reads (p >>= fun a => Pure.pure (g a)) o bs (g a) :=
  hp.bind_last (pure _ _)

theorem skip (bs : List UInt8) (o : Nat) : Reads (skip bs.length : Decoder ε Unit) o bs () :=
  fun _ _ => rfl

/-- A loop that needs no more turns than it reads bytes, and one. -/
theorem turns {p : Nat → Decoder ε α} (h : ∀ n, bs.length < n → Reads (p n) o bs a) :
    Reads (turns p) o bs a := by
  intro s hlies
  have hlt : bs.length < s.length + 1 := by
    by_cases hne : bs = []
    · rw [hne]
      exact Nat.succ_pos _
    · have := hlies.length_le hne
      omega
  rw [turns_apply]
  exact h _ hlt s hlies

/-- **Many strings one behind the other**, each of which is read wherever it lies. -/
theorem times {bss : List (List UInt8)} {as : List α}
    (h : List.Forall₂ (fun bs a => ∀ o, Reads p o bs a) bss as) (o : Nat) :
    Reads (times p as.length) o bss.flatten as := by
  induction h generalizing o with
  | nil => exact pure _ _
  | cons hfirst _ ih =>
      rw [List.flatten_cons, List.length_cons]
      unfold Decoder.times
      apply (hfirst o).bind
      exact (ih _).map _

end Reads

namespace Fails

theorem fail (e : ε) (o : Nat) (bs : List UInt8) : Fails (fail e : Decoder ε α) o bs :=
  fun _ _ => ⟨_, rfl⟩

/-- The first step fails. -/
theorem bind (hp : Fails p o bs) : Fails (p >>= f) o bs := by
  intro s h
  obtain ⟨e, he⟩ := hp s h
  exact ⟨e, bind_of_error he⟩

/-- The first step fails, whatever would follow. -/
theorem left (hp : Fails p o bs) : Fails (p >>= f) o (bs ++ bs') := fun s h => hp.bind s h.left

/-- A later step fails. -/
theorem after (hp : Reads p o bs a) (hf : Fails (f a) (o + bs.length) bs') :
    Fails (p >>= f) o (bs ++ bs') := by
  intro s h
  rw [bind_of_ok (hp s h.left)]
  exact hf s h.right

/-- A later step fails, behind one that reads nothing. -/
theorem after_nil (hp : Reads p o [] a) (hf : Fails (f a) o bs) : Fails (p >>= f) o bs :=
  after hp hf

end Fails

/-! ## §3. Words. -/

/-- Two bytes, the lowest first. -/
def word16 : Decoder ε UInt16 := do
  let b0 ← byte
  let b1 ← byte
  pure (UInt16.ofNat (b0.toNat + 256 * b1.toNat))

/-- Four bytes, the lowest first. -/
def word32 : Decoder ε UInt32 := do
  let b0 ← byte
  let b1 ← byte
  let b2 ← byte
  let b3 ← byte
  pure (UInt32.ofNat (b0.toNat + 256 * b1.toNat + 65536 * b2.toNat + 16777216 * b3.toNat))

/-- Eight bytes, the lowest first. -/
def word64 : Decoder ε UInt64 := do
  let low ← word32
  let high ← word32
  pure (UInt64.ofNat (low.toNat + wordSize * high.toNat))

/-- A half word as bytes, the lowest first. -/
def le16 (v : Nat) : List UInt8 := [UInt8.ofNat v, UInt8.ofNat (v / 256)]

/-- A double word as bytes, the lowest first. -/
def le64 (v : Nat) : List UInt8 := le32 v ++ le32 (v / wordSize)

@[simp] theorem length_le16 (v : Nat) : (le16 v).length = 2 := rfl

@[simp] theorem length_le64 (v : Nat) : (le64 v).length = 8 := rfl

theorem Reads.word16 (v : UInt16) (o : Nat) :
    Reads (word16 : Decoder ε UInt16) o (le16 v.toNat) v := by
  have hv := v.toNat_lt
  have hvalue : UInt16.ofNat ((UInt8.ofNat v.toNat).toNat + 256 * (UInt8.ofNat (v.toNat / 256)).toNat)
      = v := by
    apply UInt16.toNat_inj.mp
    simp only [UInt16.toNat_ofNat', UInt8.toNat_ofNat']
    omega
  unfold Decoder.word16
  refine (byte _ o).bind ((byte _ _).bind_last ?_)
  rw [hvalue]
  exact pure v _

theorem Reads.word32 (v : UInt32) (o : Nat) :
    Reads (word32 : Decoder ε UInt32) o (le32 v.toNat) v := by
  have hv := v.toNat_lt
  have hvalue : UInt32.ofNat ((UInt8.ofNat v.toNat).toNat
      + 256 * (UInt8.ofNat (v.toNat / 256)).toNat + 65536 * (UInt8.ofNat (v.toNat / 65536)).toNat
      + 16777216 * (UInt8.ofNat (v.toNat / 16777216)).toNat) = v := by
    apply UInt32.toNat_inj.mp
    simp only [UInt32.toNat_ofNat', UInt8.toNat_ofNat']
    omega
  unfold Decoder.word32
  refine (byte _ o).bind ((byte _ _).bind ((byte _ _).bind ((byte _ _).bind_last ?_)))
  rw [hvalue]
  exact pure v _

theorem Reads.word64 (v : UInt64) (o : Nat) :
    Reads (word64 : Decoder ε UInt64) o (le64 v.toNat) v := by
  have hv := v.toNat_lt
  have hlow : (UInt32.ofNat v.toNat).toNat = v.toNat % 2 ^ 32 := UInt32.toNat_ofNat'
  have hhigh : (UInt32.ofNat (v.toNat / wordSize)).toNat = v.toNat / 2 ^ 32 := by
    rw [UInt32.toNat_ofNat', wordSize]
    omega
  have hbytes : le64 v.toNat = le32 (UInt32.ofNat v.toNat).toNat
      ++ le32 (UInt32.ofNat (v.toNat / wordSize)).toNat := by
    have hmod : ∀ n, le32 (n % 2 ^ 32) = le32 n := by
      intro n
      simp only [le32, List.cons.injEq, and_true]
      refine ⟨?_, ?_, ?_, ?_⟩ <;> apply UInt8.toNat_inj.mp <;>
        simp only [UInt8.toNat_ofNat'] <;> omega
    rw [le64, hlow, hhigh, hmod]
  have hvalue : UInt64.ofNat ((UInt32.ofNat v.toNat).toNat
      + wordSize * (UInt32.ofNat (v.toNat / wordSize)).toNat) = v := by
    apply UInt64.toNat_inj.mp
    rw [hlow, hhigh, UInt64.toNat_ofNat', wordSize]
    omega
  unfold Decoder.word64
  rw [hbytes]
  refine (Reads.word32 _ o).bind ((Reads.word32 _ _).bind_last ?_)
  rw [hvalue]
  exact pure v _

end Decoder

end Metta.Machine
