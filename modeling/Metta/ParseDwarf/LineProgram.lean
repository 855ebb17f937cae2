/-
  Metta.ParseDwarf.LineProgram — the line number machine of DWARF 3.

  A program is a list of instructions, each written as an opcode with its
  operands.  The machine has ten registers and makes a row of them at a special
  opcode, at `DW_LNS_copy` and at `DW_LNE_end_sequence`.  Its registers have
  32 bits, like the words of the reader.

    • `Instruction`, `Instruction.bytes` — programs and how they are written,
    • `Row`, `step`, `rows` — the machine and the rows that it makes,
    • `excess`, `Agrees` — how far `DW_LNS_const_add_pc` of the reader goes too
      far, and programs in which this is not seen in a row.
-/
import Metta.ParseDwarf.Lines

namespace Metta.ParseDwarf

open Metta.Machine Decoder

/-! ## §1. Programs. -/

/-- An instruction with its operands.  An extended one begins with its length. -/
inductive Instruction where
  /-- A special opcode, less the `opcode_base`. -/
  | special (adjusted : UInt8)
  | copy
  | advancePc (operand : Leb)
  | advanceLine (operand : Leb)
  | setFile (operand : Leb)
  | setColumn (operand : Leb)
  | negateStmt
  | setBasicBlock
  | constAddPc
  | fixedAdvancePc (operand : UInt16)
  | setPrologueEnd
  | setEpilogueBegin
  | setIsa (operand : Leb)
  | endSequence (length : Leb)
  | setAddress (length : Leb) (address : UInt32)
  | defineFile (length : Leb) (name : Text) (directory time size : Leb)

namespace Instruction

/-- The opcode of a standard instruction; zero is the one of all that are extended. -/
def opcode : Instruction → UInt8
  | special adjusted => adjusted
  | copy => 0x01
  | advancePc _ => 0x02
  | advanceLine _ => 0x03
  | setFile _ => 0x04
  | setColumn _ => 0x05
  | negateStmt => 0x06
  | setBasicBlock => 0x07
  | constAddPc => 0x08
  | fixedAdvancePc _ => 0x09
  | setPrologueEnd => 0x0a
  | setEpilogueBegin => 0x0b
  | setIsa _ => 0x0c
  | endSequence _ => 0x00
  | setAddress _ _ => 0x00
  | defineFile _ _ _ _ _ => 0x00

/-- What the length of an extended instruction counts. -/
def area : Instruction → List UInt8
  | endSequence _ => [0x01]
  | setAddress _ address => [0x02] ++ le32 address.toNat
  | defineFile _ name directory time size =>
      [0x03] ++ (name.terminated ++ (directory.bytes ++ (time.bytes ++ size.bytes)))
  | _ => []

/-- What follows the opcode. -/
def operands : Instruction → List UInt8
  | advancePc operand => operand.bytes
  | advanceLine operand => operand.bytes
  | setFile operand => operand.bytes
  | setColumn operand => operand.bytes
  | setIsa operand => operand.bytes
  | fixedAdvancePc operand => le16 operand.toNat
  | endSequence length => length.bytes ++ area (endSequence length)
  | setAddress length address => length.bytes ++ area (setAddress length address)
  | defineFile length name directory time size =>
      length.bytes ++ area (defineFile length name directory time size)
  | _ => []

/-- The instruction as it is written. -/
def bytes (header : LineHeader) : Instruction → List UInt8
  | special adjusted => [adjusted + header.opcodeBase]
  | ins => ins.opcode :: ins.operands

/-- The header has the opcode, and the length of an extended instruction is right. -/
def WellFormed (header : LineHeader) : Instruction → Prop
  | special adjusted => adjusted.toNat + header.opcodeBase.toNat < 256
  | endSequence length =>
      0 < header.opcodeBase ∧ length.unsigned = (area (endSequence length)).length
  | setAddress length address =>
      0 < header.opcodeBase ∧ length.unsigned = (area (setAddress length address)).length
  | defineFile length name directory time size =>
      0 < header.opcodeBase ∧ name.bytes ≠ [] ∧
        length.unsigned = (area (defineFile length name directory time size)).length
  | ins => ins.opcode < header.opcodeBase

/-- No number of the instruction has more than five bytes. -/
def AllShort : Instruction → Prop
  | advancePc operand => Short operand
  | advanceLine operand => Short operand
  | setFile operand => Short operand
  | setColumn operand => Short operand
  | setIsa operand => Short operand
  | endSequence length => Short length
  | setAddress length _ => Short length
  | defineFile length _ directory time size =>
      Short length ∧ Short directory ∧ Short time ∧ Short size
  | _ => True

end Instruction

/-- A program as it is written. -/
def encodeProgram (header : LineHeader) (program : List Instruction) : List UInt8 :=
  program.flatMap (Instruction.bytes header)

/-! ## §2. The machine. -/

/-- The registers, and a row of the matrix. -/
structure Row where
  address : UInt32
  file : UInt32
  line : UInt32
  column : UInt32
  isStmt : Bool
  basicBlock : Bool
  endSequence : Bool
  prologueEnd : Bool
  epilogueBegin : Bool
  isa : UInt32
  deriving DecidableEq, Repr

namespace Row

/-- The registers at the beginning of every sequence. -/
def initial (header : LineHeader) : Row :=
  ⟨0, 1, 1, 0, header.defaultIsStmt != 0, false, false, false, false, 0⟩

/-- The registers behind a row. -/
def cleared (row : Row) : Row :=
  { row with basicBlock := false, prologueEnd := false, epilogueBegin := false }

end Row

/-- The address advance of a special opcode, less the `opcode_base`. -/
def addressAdvance (header : LineHeader) (adjusted : Nat) : UInt32 :=
  UInt32.ofNat (adjusted / header.lineRange.toNat * header.minimumInstructionLength.toNat)

/-- The line advance of a special opcode, less the `opcode_base`. -/
def lineAdvance (header : LineHeader) (adjusted : Nat) : UInt32 :=
  UInt32.ofInt (header.lineBase.toInt + (adjusted % header.lineRange.toNat : Nat))

/-- What an instruction does: the row that it makes, and the registers. -/
def step (header : LineHeader) (row : Row) : Instruction → Option Row × Row
  | .special adjusted =>
      let row := { row with
        address := row.address + addressAdvance header adjusted.toNat
        line := row.line + lineAdvance header adjusted.toNat }
      (some row, row.cleared)
  | .copy => (some row, row.cleared)
  | .advancePc operand =>
      (none, { row with
        address := row.address
          + UInt32.ofInt operand.unsigned * header.minimumInstructionLength.toUInt32 })
  | .advanceLine operand => (none, { row with line := row.line + UInt32.ofInt operand.signed })
  | .setFile operand => (none, { row with file := UInt32.ofInt operand.unsigned })
  | .setColumn operand => (none, { row with column := UInt32.ofInt operand.unsigned })
  | .negateStmt => (none, { row with isStmt := !row.isStmt })
  | .setBasicBlock => (none, { row with basicBlock := true })
  | .constAddPc =>
      -- the advance of the special opcode 255
      (none, { row with
        address := row.address + addressAdvance header (255 - header.opcodeBase.toNat) })
  | .fixedAdvancePc operand => (none, { row with address := row.address + operand.toUInt32 })
  | .setPrologueEnd => (none, { row with prologueEnd := true })
  | .setEpilogueBegin => (none, { row with epilogueBegin := true })
  | .setIsa operand => (none, { row with isa := UInt32.ofInt operand.unsigned })
  | .endSequence _ => (some { row with endSequence := true }, Row.initial header)
  | .setAddress _ address => (none, { row with address := address })
  | .defineFile _ _ _ _ _ => (none, row)

/-- The rows of a program, from the registers `row` on. -/
def rows (header : LineHeader) : Row → List Instruction → List Row
  | _, [] => []
  | row, ins :: program =>
      (step header row ins).1.toList ++ rows header (step header row ins).2 program

/-! ## §3. The advance of the reader. -/

/-- What `DW_LNS_const_add_pc` of the reader adds to the address: the opcode is not adjusted, and
the length of an instruction counts twice. -/
def readerAdvance (header : LineHeader) : UInt32 :=
  addressAdvance header 255 * header.minimumInstructionLength.toUInt32

/-- What it adds too much. -/
def excess (header : LineHeader) : UInt32 :=
  readerAdvance header - addressAdvance header (255 - header.opcodeBase.toNat)

/-- The number of `DW_LNS_const_add_pc` since the address was set. -/
def Instruction.count (k : Nat) : Instruction → Nat
  | constAddPc => k + 1
  | setAddress _ _ => 0
  | endSequence _ => 0
  | _ => k

/-- The instruction makes a row. -/
def Instruction.makesRow : Instruction → Bool
  | special _ => true
  | copy => true
  | endSequence _ => true
  | _ => false

/-- At every row, the number of `DW_LNS_const_add_pc` since the address was set, which is `k` at
the beginning, times the excess is zero. -/
def Agrees (header : LineHeader) : Nat → List Instruction → Prop
  | _, [] => True
  | k, ins :: program =>
      (ins.makesRow = true → UInt32.ofNat k * excess header = 0) ∧
        Agrees header (ins.count k) program

/-- The row with an address that is `k` times the excess further on. -/
def Row.ahead (header : LineHeader) (k : Nat) (row : Row) : Row :=
  { row with address := row.address + UInt32.ofNat k * excess header }

/-- The rows of a program in which the excess of every `DW_LNS_const_add_pc` is left. -/
def rowsAhead (header : LineHeader) : Nat → Row → List Instruction → List Row
  | _, _, [] => []
  | k, row, ins :: program =>
      ((step header row ins).1.map (Row.ahead header k)).toList
        ++ rowsAhead header (ins.count k) (step header row ins).2 program

variable {header : LineHeader} {k : Nat}

theorem step_makesRow (header : LineHeader) (row : Row) (ins : Instruction) :
    (step header row ins).1.isSome = ins.makesRow := by
  cases ins <;> rfl

theorem Row.ahead_eq_iff (row : Row) :
    row.ahead header k = row ↔ UInt32.ofNat k * excess header = 0 := by
  unfold Row.ahead
  constructor
  · intro h
    have haddress := congrArg Row.address h
    exact UInt32.add_eq_left.mp haddress
  · intro h
    rw [h, UInt32.add_zero]

/-- **The rows are the same** exactly when the excess is not seen in any of them. -/
theorem rowsAhead_eq_iff (row : Row) (program : List Instruction) :
    rowsAhead header k row program = rows header row program ↔ Agrees header k program := by
  induction program generalizing k row with
  | nil => exact ⟨fun _ => trivial, fun _ => rfl⟩
  | cons ins program ih =>
      have hmakes := step_makesRow header row ins
      unfold rowsAhead rows Agrees
      cases hrow : (step header row ins).1 with
      | none =>
          rw [hrow] at hmakes
          have hno : ins.makesRow = false := hmakes.symm
          rw [hno]
          simpa using ih (step header row ins).2
      | some made =>
          rw [hrow] at hmakes
          have hyes : ins.makesRow = true := hmakes.symm
          rw [hyes]
          simp only [Option.map_some, Option.toList_some, List.singleton_append, List.cons.injEq,
            ih, Row.ahead_eq_iff, true_implies]

end Metta.ParseDwarf
