/-
  Metta.ParseDwarf.Forms — attribute values in the forms of
  tools/parsedwarf/form_reader.cpp.

  A reader keeps a number, or a pointer to the bytes of a block or a string.
  Pointers are offsets in the section here, and in the pool of strings.

    • `FormReader`, `FormReader.decode` — the readers and what they read,
    • `Value`, `Value.bytes` — the values of the 21 forms and how they are written,
    • `Content` — what a value, or a reader, stands for,
    • `reads_value` — each form takes its own bytes, `content_reader`.
-/
import Metta.ParseDwarf.Lines

namespace Metta.ParseDwarf

open Metta.Machine Decoder

/-! ## §1. The readers. -/

/-- The classes behind `form_reader_t`, with what they have read. -/
inductive FormReader where
  | addr (data : UInt32)
  | block (data : Nat) (length : UInt32)
  | block1 (data : Nat) (length : UInt8)
  | block2 (data : Nat) (length : UInt16)
  | block4 (data : Nat) (length : UInt32)
  | sdata (data : UInt32)
  | udata (data : UInt32)
  | data1 (data : UInt8)
  | data2 (data : UInt16)
  | data4 (data : UInt32)
  | data8 (data : UInt64)
  | flag (data : UInt8)
  | string (data : Nat)
  | strp (data : UInt32)
  | ref1 (data : UInt8)
  | ref2 (data : UInt16)
  | ref4 (data : UInt32)
  | ref8 (data : UInt64)
  | refUdata (data : UInt32)
  | refAddr (data : UInt32)
  /-- The reader is null for a form that is not known. -/
  | indirect (form : UInt32) (data : Option FormReader)
  deriving Repr

/-- `form_reader_t::create` and `decode` of what it makes; none for a form that is not
known. -/
def FormReader.decode : Nat → UInt32 → Decoder Trouble (Option FormReader)
  | 0, _ => fail .going
  | n + 1, form =>
      match form.toNat with
      | 0x01 => do
          let data ← word32
          pure (some (.addr data))
      | 0x03 => do
          let length ← word16
          let data ← position
          skip length.toNat
          pure (some (.block2 data length))
      | 0x04 => do
          let length ← word32
          let data ← position
          skip length.toNat
          pure (some (.block4 data length))
      | 0x05 => do
          let data ← word16
          pure (some (.data2 data))
      | 0x06 => do
          let data ← word32
          pure (some (.data4 data))
      | 0x07 => do
          let data ← word64
          pure (some (.data8 data))
      | 0x08 => do
          let data ← position
          let _ ← turns cstring
          pure (some (.string data))
      | 0x09 => do
          let length ← uleb128
          let data ← position
          skip length.toNat
          pure (some (.block data length))
      | 0x0a => do
          let length ← byte
          let data ← position
          skip length.toNat
          pure (some (.block1 data length))
      | 0x0b => do
          let data ← byte
          pure (some (.data1 data))
      | 0x0c => do
          let data ← byte
          pure (some (.flag data))
      | 0x0d => do
          let data ← sleb128
          pure (some (.sdata data))
      | 0x0e => do
          let stroff ← word32
          pure (some (.strp stroff))
      | 0x0f => do
          let data ← uleb128
          pure (some (.udata data))
      | 0x10 => do
          let data ← word32
          pure (some (.refAddr data))
      | 0x11 => do
          let data ← byte
          pure (some (.ref1 data))
      | 0x12 => do
          let data ← word16
          pure (some (.ref2 data))
      | 0x13 => do
          let data ← word32
          pure (some (.ref4 data))
      | 0x14 => do
          let data ← word64
          pure (some (.ref8 data))
      | 0x15 => do
          let data ← uleb128
          pure (some (.refUdata data))
      | 0x16 => do
          let form ← uleb128
          let data ← FormReader.decode n form
          pure (some (.indirect form data))
      | _ => pure none

/-! ## §2. Values. -/

/-- A value in one of the forms.  The length of a `block`, the numbers and the form of an
`indirect` value may be written in any way that LEB128 has for them. -/
inductive Value where
  | addr (v : UInt32)
  | block (length : Leb) (bs : List UInt8)
  | block1 (bs : List UInt8)
  | block2 (bs : List UInt8)
  | block4 (bs : List UInt8)
  | sdata (v : Leb)
  | udata (v : Leb)
  | data1 (v : UInt8)
  | data2 (v : UInt16)
  | data4 (v : UInt32)
  | data8 (v : UInt64)
  | flag (v : UInt8)
  | string (v : Text)
  | strp (v : UInt32)
  | ref1 (v : UInt8)
  | ref2 (v : UInt16)
  | ref4 (v : UInt32)
  | ref8 (v : UInt64)
  | refUdata (v : Leb)
  | refAddr (v : UInt32)
  | indirect (form : Leb) (v : Value)

namespace Value

/-- `DW_FORM_*`. -/
def form : Value → UInt32
  | addr _ => 0x01
  | block2 _ => 0x03
  | block4 _ => 0x04
  | data2 _ => 0x05
  | data4 _ => 0x06
  | data8 _ => 0x07
  | string _ => 0x08
  | block _ _ => 0x09
  | block1 _ => 0x0a
  | data1 _ => 0x0b
  | flag _ => 0x0c
  | sdata _ => 0x0d
  | strp _ => 0x0e
  | udata _ => 0x0f
  | refAddr _ => 0x10
  | ref1 _ => 0x11
  | ref2 _ => 0x12
  | ref4 _ => 0x13
  | ref8 _ => 0x14
  | refUdata _ => 0x15
  | indirect _ _ => 0x16

/-- The value as it is written. -/
def bytes : Value → List UInt8
  | addr v => le32 v.toNat
  | block length bs => length.bytes ++ bs
  | block1 bs => [UInt8.ofNat bs.length] ++ bs
  | block2 bs => le16 (UInt16.ofNat bs.length).toNat ++ bs
  | block4 bs => le32 (UInt32.ofNat bs.length).toNat ++ bs
  | sdata v => v.bytes
  | udata v => v.bytes
  | data1 v => [v]
  | data2 v => le16 v.toNat
  | data4 v => le32 v.toNat
  | data8 v => le64 v.toNat
  | flag v => [v]
  | string v => v.terminated
  | strp v => le32 v.toNat
  | ref1 v => [v]
  | ref2 v => le16 v.toNat
  | ref4 v => le32 v.toNat
  | ref8 v => le64 v.toNat
  | refUdata v => v.bytes
  | refAddr v => le32 v.toNat
  | indirect form v => form.bytes ++ v.bytes

/-- A number without a sign in 32 bits. -/
def Fits (l : Leb) : Prop := Short l ∧ l.unsigned < 2 ^ 32

/-- Lengths are right, and LEB128 numbers have five bytes and 32 bits at most. -/
def WellFormed : Value → Prop
  | block length bs => Fits length ∧ length.unsigned = bs.length
  | block1 bs => bs.length < 2 ^ 8
  | block2 bs => bs.length < 2 ^ 16
  | block4 bs => bs.length < 2 ^ 32
  | sdata v => Short v ∧ -2 ^ 31 ≤ v.signed ∧ v.signed < 2 ^ 31
  | udata v => Fits v
  | refUdata v => Fits v
  | indirect form v => Fits form ∧ form.unsigned = v.form.toNat ∧ v.WellFormed
  | _ => True

/-- What is read of a value that lies at the offset. -/
def reader : Value → Nat → FormReader
  | addr v, _ => .addr v
  | block length bs, o => .block (o + length.bytes.length) (UInt32.ofNat bs.length)
  | block1 bs, o => .block1 (o + 1) (UInt8.ofNat bs.length)
  | block2 bs, o => .block2 (o + 2) (UInt16.ofNat bs.length)
  | block4 bs, o => .block4 (o + 4) (UInt32.ofNat bs.length)
  | sdata v, _ => .sdata (UInt32.ofInt v.signed)
  | udata v, _ => .udata (UInt32.ofInt v.unsigned)
  | data1 v, _ => .data1 v
  | data2 v, _ => .data2 v
  | data4 v, _ => .data4 v
  | data8 v, _ => .data8 v
  | flag v, _ => .flag v
  | string _, o => .string o
  | strp v, _ => .strp v
  | ref1 v, _ => .ref1 v
  | ref2 v, _ => .ref2 v
  | ref4 v, _ => .ref4 v
  | ref8 v, _ => .ref8 v
  | refUdata v, _ => .refUdata (UInt32.ofInt v.unsigned)
  | refAddr v, _ => .refAddr v
  | indirect form v, o => .indirect v.form (some (v.reader (o + form.bytes.length)))

end Value

/-! ## §3. What values and readers stand for. -/

/-- A number, bytes, or a string in the pool. -/
inductive Content where
  | number (n : Int)
  | bytes (bs : List UInt8)
  | pooled (offset : Nat)
  deriving DecidableEq

/-- What is behind a reader; the blocks and strings are in the section. -/
def FormReader.content (s : List UInt8) : FormReader → Option Content
  | addr data => some (.number data.toNat)
  | block data length => some (.bytes ((s.drop data).take length.toNat))
  | block1 data length => some (.bytes ((s.drop data).take length.toNat))
  | block2 data length => some (.bytes ((s.drop data).take length.toNat))
  | block4 data length => some (.bytes ((s.drop data).take length.toNat))
  | sdata data => some (.number (asInt data))
  | udata data => some (.number data.toNat)
  | data1 data => some (.number data.toNat)
  | data2 data => some (.number data.toNat)
  | data4 data => some (.number data.toNat)
  | data8 data => some (.number data.toNat)
  | flag data => some (.number data.toNat)
  | string data => some (.bytes ((s.drop data).takeWhile fun b => b != 0))
  | strp data => some (.pooled data.toNat)
  | ref1 data => some (.number data.toNat)
  | ref2 data => some (.number data.toNat)
  | ref4 data => some (.number data.toNat)
  | ref8 data => some (.number data.toNat)
  | refUdata data => some (.number data.toNat)
  | refAddr data => some (.number data.toNat)
  | indirect _ (some data) => data.content s
  | indirect _ none => none

def Value.content : Value → Content
  | addr v => .number v.toNat
  | block _ bs => .bytes bs
  | block1 bs => .bytes bs
  | block2 bs => .bytes bs
  | block4 bs => .bytes bs
  | sdata v => .number v.signed
  | udata v => .number v.unsigned
  | data1 v => .number v.toNat
  | data2 v => .number v.toNat
  | data4 v => .number v.toNat
  | data8 v => .number v.toNat
  | flag v => .number v.toNat
  | string v => .bytes v.bytes
  | strp v => .pooled v.toNat
  | ref1 v => .number v.toNat
  | ref2 v => .number v.toNat
  | ref4 v => .number v.toNat
  | ref8 v => .number v.toNat
  | refUdata v => .number v.unsigned
  | refAddr v => .number v.toNat
  | indirect _ v => v.content

/-! ## §4. Reading a value. -/

/-- A block behind its length. -/
theorem reads_block {α : Type} (bs : List UInt8) {n : Nat} (hn : n = bs.length)
    (f : Nat → α) (o : Nat) :
    Reads (do
      let data ← position
      skip n
      pure (f data) : Decoder Trouble α) o bs (f o) := by
  rw [hn]
  exact Reads.bind_nil (Reads.position o) ((Reads.skip bs o).bind_last (Reads.pure _ _))

theorem ofInt_of_eq {i : Int} {n : Nat} (h : i = n) : UInt32.ofInt i = UInt32.ofNat n := by
  rw [h, ofInt_natCast]

/-- **Each form** takes its own bytes, whatever is behind them. -/
theorem reads_value {v : Value} (hwell : v.WellFormed) {n : Nat} (hn : v.bytes.length < n)
    (o : Nat) : Reads (FormReader.decode n v.form) o v.bytes (some (v.reader o)) := by
  induction v generalizing n o with
  -- an indirection takes one unit of the fuel, and at least one byte
  | indirect form v ih =>
      obtain ⟨n, rfl⟩ : ∃ m, n = m + 1 := ⟨n - 1, by omega⟩
      obtain ⟨hform, heq, hv⟩ := hwell
      have hpos := form.length_bytes
      have hbytes : (Value.indirect form v).bytes.length = form.bytes.length + v.bytes.length :=
        List.length_append
      have hread := reads_uleb128 hform.1 o
      rw [ofInt_of_eq heq, UInt32.ofNat_toNat] at hread
      exact hread.bind ((ih hv (by omega) _).map _)
  | block length bs =>
      obtain ⟨n, rfl⟩ : ∃ m, n = m + 1 := ⟨n - 1, by omega⟩
      obtain ⟨hfits, hlen⟩ := hwell
      have hread := reads_uleb128 hfits.1 o
      rw [ofInt_of_eq hlen] at hread
      refine hread.bind (reads_block bs ?_ _ _)
      have := hfits.2
      rw [UInt32.toNat_ofNat']
      omega
  | block1 bs =>
      obtain ⟨n, rfl⟩ : ∃ m, n = m + 1 := ⟨n - 1, by omega⟩
      refine (Reads.byte _ o).bind (reads_block bs ?_ _ _)
      rw [UInt8.toNat_ofNat', Nat.mod_eq_of_lt hwell]
  | block2 bs =>
      obtain ⟨n, rfl⟩ : ∃ m, n = m + 1 := ⟨n - 1, by omega⟩
      refine (Reads.word16 _ o).bind (reads_block bs ?_ _ _)
      rw [UInt16.toNat_ofNat', Nat.mod_eq_of_lt hwell]
  | block4 bs =>
      obtain ⟨n, rfl⟩ : ∃ m, n = m + 1 := ⟨n - 1, by omega⟩
      refine (Reads.word32 _ o).bind (reads_block bs ?_ _ _)
      rw [UInt32.toNat_ofNat', Nat.mod_eq_of_lt hwell]
  | string v =>
      obtain ⟨n, rfl⟩ : ∃ m, n = m + 1 := ⟨n - 1, by omega⟩
      exact Reads.bind_nil (Reads.position o) ((reads_text v o).bind_last (Reads.pure _ _))
  | sdata v =>
      obtain ⟨n, rfl⟩ : ∃ m, n = m + 1 := ⟨n - 1, by omega⟩
      exact (reads_sleb128 hwell.1 o).map _
  | udata v =>
      obtain ⟨n, rfl⟩ : ∃ m, n = m + 1 := ⟨n - 1, by omega⟩
      exact (reads_uleb128 hwell.1 o).map _
  | refUdata v =>
      obtain ⟨n, rfl⟩ : ∃ m, n = m + 1 := ⟨n - 1, by omega⟩
      exact (reads_uleb128 hwell.1 o).map _
  | data1 v | flag v | ref1 v =>
      obtain ⟨n, rfl⟩ : ∃ m, n = m + 1 := ⟨n - 1, by omega⟩
      exact (Reads.byte v o).map _
  | data2 v | ref2 v =>
      obtain ⟨n, rfl⟩ : ∃ m, n = m + 1 := ⟨n - 1, by omega⟩
      exact (Reads.word16 v o).map _
  | addr v | data4 v | strp v | ref4 v | refAddr v =>
      obtain ⟨n, rfl⟩ : ∃ m, n = m + 1 := ⟨n - 1, by omega⟩
      exact (Reads.word32 v o).map _
  | data8 v | ref8 v =>
      obtain ⟨n, rfl⟩ : ∃ m, n = m + 1 := ⟨n - 1, by omega⟩
      exact (Reads.word64 v o).map _

/-! ## §5. What has been read. -/

theorem take_of_lies {s bs : List UInt8} {o n : Nat} (h : Lies s o bs) (hn : n = bs.length) :
    (s.drop o).take n = bs := by
  obtain ⟨rest, hrest⟩ := h
  rw [← hrest, hn, List.take_left]

theorem takeWhile_of_lies {s : List UInt8} {t : Text} {o : Nat} (h : Lies s o t.terminated) :
    ((s.drop o).takeWhile fun b => b != 0) = t.bytes := by
  obtain ⟨rest, hrest⟩ := h
  have hall : ∀ b ∈ t.bytes, (b != 0) = true := fun b hb => by simpa using t.noNul b hb
  rw [← hrest, Text.terminated, List.append_assoc, List.takeWhile_append_of_pos hall]
  simp

/-- **What is behind a reader** is the value that was written. -/
theorem content_reader {v : Value} (hwell : v.WellFormed) {s : List UInt8} {o : Nat}
    (h : Lies s o v.bytes) : (v.reader o).content s = some v.content := by
  induction v generalizing o with
  | indirect form v ih => exact ih hwell.2.2 h.right
  | block length bs =>
      have hlt := hwell.1.2
      rw [hwell.2] at hlt
      show some (Content.bytes _) = some (Content.bytes bs)
      rw [take_of_lies h.right (by rw [UInt32.toNat_ofNat']; omega)]
  | block1 bs =>
      have hlen : (UInt8.ofNat bs.length).toNat = bs.length := by
        rw [UInt8.toNat_ofNat', Nat.mod_eq_of_lt hwell]
      exact congrArg (fun bs => some (Content.bytes bs)) (take_of_lies h.right hlen)
  | block2 bs =>
      have hlen : (UInt16.ofNat bs.length).toNat = bs.length := by
        rw [UInt16.toNat_ofNat', Nat.mod_eq_of_lt hwell]
      exact congrArg (fun bs => some (Content.bytes bs)) (take_of_lies h.right hlen)
  | block4 bs =>
      have hlen : (UInt32.ofNat bs.length).toNat = bs.length := by
        rw [UInt32.toNat_ofNat', Nat.mod_eq_of_lt hwell]
      exact congrArg (fun bs => some (Content.bytes bs)) (take_of_lies h.right hlen)
  | string v =>
      show some (Content.bytes _) = some (Content.bytes v.bytes)
      rw [takeWhile_of_lies h]
  | sdata v =>
      show some (Content.number _) = some (Content.number v.signed)
      rw [asInt_ofInt hwell.2.1 hwell.2.2]
  | udata v =>
      show some (Content.number _) = some (Content.number v.unsigned)
      rw [toNat_ofInt v.unsigned_nonneg hwell.2]
  | refUdata v =>
      show some (Content.number _) = some (Content.number v.unsigned)
      rw [toNat_ofInt v.unsigned_nonneg hwell.2]
  | _ => rfl

end Metta.ParseDwarf
