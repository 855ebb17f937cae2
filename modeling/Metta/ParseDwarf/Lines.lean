/-
  Metta.ParseDwarf.Lines — the line number programs of
  tools/parsedwarf/dwarf_lines.cpp and dwarf_lines.h.

  Offsets and addresses in a section are relative to its start.  The registers
  that are an `int` have their 32 bits here.  What goes to the debug output is
  left out.
-/
import Metta.ParseDwarf.Leb128

namespace Metta.ParseDwarf

open Metta.Machine Decoder

/-! ## §1. The header. -/

/-- `lnp_filename_t`.  The name has its NUL. -/
structure FileName where
  filename : List UInt8
  directoryIndex : UInt32
  fileTimestamp : UInt32
  fileBytes : UInt32
  deriving DecidableEq, Repr

/-- `lnp_header_t`. -/
structure LineHeader where
  unitLength : UInt32
  version : UInt16
  headerLength : UInt32
  minimumInstructionLength : UInt8
  defaultIsStmt : UInt8
  lineBase : Int8
  lineRange : UInt8
  opcodeBase : UInt8
  standardOpcodeLengths : List UInt32
  includeDirectories : List (List UInt8)
  fileNames : List FileName
  lineProgramStart : Nat
  deriving DecidableEq

/-- The bytes up to the next NUL, which is passed. -/
def cstring : Nat → Decoder Trouble (List UInt8)
  | 0 => fail .going
  | n + 1 => do
      let b ← byte
      if b = 0 then pure []
      else
        let rest ← cstring n
        pure (b :: rest)

theorem reads_cstring {bs : List UInt8} (h : ∀ b ∈ bs, b ≠ 0) {n : Nat} (hn : bs.length < n)
    (o : Nat) : Reads (cstring n) o (bs ++ [0]) bs := by
  induction bs generalizing n o with
  | nil =>
      obtain ⟨n, rfl⟩ : ∃ m, n = m + 1 := ⟨n - 1, by omega⟩
      unfold cstring
      apply (Reads.byte 0 o).bind_last
      rw [if_pos rfl]
      exact Reads.pure _ _
  | cons b bs ih =>
      obtain ⟨n, rfl⟩ : ∃ m, n = m + 1 := ⟨n - 1, by omega⟩
      unfold cstring
      apply (Reads.byte b o).bind
      rw [if_neg (h b List.mem_cons_self)]
      exact (ih (fun x hx => h x (List.mem_cons_of_mem b hx)) (by simpa using hn) (o + 1)).map _

theorem reads_text (t : Text) (o : Nat) : Reads (turns cstring) o t.terminated t.bytes := by
  apply Reads.turns
  intro n hn
  rw [t.length_terminated] at hn
  exact reads_cstring t.noNul (by omega) o

/-- The length of a unit, which is not in the 64-bit format. -/
def decodeUnitLength : Decoder Trouble UInt32 := do
  let length ← word32
  if length = 0xffffffff then fail .dwarf64 else pure length

/-- `lnp_filename_t::decode`; none at an empty name. -/
def FileName.decode : Decoder Trouble (Option FileName) := do
  let name ← turns cstring
  if name = [] then pure none
  else
    let directoryIndex ← uleb128
    let fileTimestamp ← uleb128
    let fileBytes ← uleb128
    pure (some ⟨name ++ [0], directoryIndex, fileTimestamp, fileBytes⟩)

namespace LineHeader

/-- The loop over the lengths of the standard opcodes. -/
def decodeLengths : Nat → Decoder Trouble (List UInt32)
  | 0 => pure []
  | n + 1 => do
      let size ← uleb128
      let rest ← decodeLengths n
      pure (size :: rest)

/-- The loop over the include directories, up to an empty one. -/
def decodeDirectories : Nat → Decoder Trouble (List (List UInt8))
  | 0 => fail .going
  | n + 1 => do
      let directory ← turns cstring
      if directory = [] then pure []
      else
        let rest ← decodeDirectories n
        pure (directory :: rest)

/-- The loop over the file names. -/
def decodeFileNames : Nat → Decoder Trouble (List FileName)
  | 0 => fail .going
  | n + 1 => do
      let fname ← FileName.decode
      match fname with
      | none => pure []
      | some fname =>
          let rest ← decodeFileNames n
          pure (fname :: rest)

/-- `lnp_header_t::decode`. -/
def decode : Decoder Trouble LineHeader := do
  let unitLength ← decodeUnitLength
  let version ← word16
  let headerLength ← word32
  let offset ← position
  let minimumInstructionLength ← byte
  let defaultIsStmt ← byte
  let lineBase ← byte
  let lineRange ← byte
  let opcodeBase ← byte
  let standardOpcodeLengths ← decodeLengths (opcodeBase.toNat - 1)
  let includeDirectories ← turns decodeDirectories
  let fileNames ← turns decodeFileNames
  pure
    { unitLength, version, headerLength, minimumInstructionLength, defaultIsStmt
      lineBase := lineBase.toInt8, lineRange, opcodeBase, standardOpcodeLengths
      includeDirectories, fileNames, lineProgramStart := offset + headerLength.toNat }

end LineHeader

/-! ## §2. The registers. -/

/-- `lineprogram_regs_t`, without the header that it refers to. -/
structure LineRegs where
  address : UInt32
  file : UInt32
  line : UInt32
  column : UInt32
  isStmt : Bool
  basicBlock : Bool
  endSequence : Bool
  prologueEnd : Bool
  epilogueBegin : Bool
  isa : UInt32
  resetFields : Bool
  resetToInitial : Bool
  deriving DecidableEq, Repr

namespace LineRegs

variable (header : LineHeader) (regs : LineRegs)

/-- `reset`, which leaves `reset_fields` as it is. -/
def reset : LineRegs where
  address := 0
  file := 1
  line := 1
  column := 0
  isStmt := header.defaultIsStmt != 0
  basicBlock := false
  endSequence := false
  prologueEnd := false
  epilogueBegin := false
  isa := 0
  resetFields := regs.resetFields
  resetToInitial := false

/-- `address_increment`. -/
def addressIncrement (opcode : UInt8) : Decoder Trouble UInt32 :=
  if header.lineRange = 0 then fail .division
  else pure (UInt32.ofNat
    (opcode.toNat / header.lineRange.toNat * header.minimumInstructionLength.toNat))

/-- `line_increment`. -/
def lineIncrement (opcode : UInt8) : Decoder Trouble UInt32 :=
  if header.lineRange = 0 then fail .division
  else pure (UInt32.ofInt (header.lineBase.toInt + (opcode.toNat % header.lineRange.toNat : Nat)))

/-- What was left to be reset after the last line. -/
def settle : LineRegs :=
  let regs := if regs.resetToInitial then regs.reset header else regs
  if regs.resetFields then
    { regs with
        basicBlock := false, prologueEnd := false, epilogueBegin := false, resetFields := false }
  else regs

/-- What an extended opcode does: whether a line is complete, the header and the registers; none
if it is not known. -/
def executeSub (subOpcode : UInt8) : Decoder Trouble (Option (Bool × LineHeader × LineRegs)) :=
  match subOpcode.toNat with
  | 0x01 => pure (some (true, header, { regs with endSequence := true, resetToInitial := true }))
  | 0x02 => do
      let address ← word32
      pure (some (false, header, { regs with address := address }))
  | 0x03 => do
      let fname ← FileName.decode
      -- an empty name leaves the `fname` that was there, which is an empty one
      let fname := fname.getD ⟨[], 0, 0, 0⟩
      pure (some (false, { header with fileNames := header.fileNames ++ [fname] }, regs))
  | _ => pure none

/-- The part of `execute` for an extended opcode. -/
def executeExtended : Decoder Trouble (Bool × LineHeader × LineRegs) := do
  let extAreaLength ← uleb128
  let prevOffset ← position
  let subOpcode ← byte
  let done ← executeSub header regs subOpcode
  match done with
  | none => pure (false, header, regs)
  | some (appendLine, header, regs) =>
      let offset ← position
      -- a stream out of sync is gone on with, but there is no line
      if UInt32.ofNat offset ≠ UInt32.ofNat prevOffset + extAreaLength then
        pure (false, header, regs)
      else pure (appendLine, header, regs)

/-- The part of `execute` for a standard opcode. -/
def executeStandard (opcode : UInt8) : Decoder Trouble (Bool × LineHeader × LineRegs) :=
  match opcode.toNat with
  | 0x01 => pure (true, header, { regs with resetFields := true })
  | 0x02 => do
      let operand ← uleb128
      pure (false, header, { regs with
        address := regs.address + operand * header.minimumInstructionLength.toUInt32 })
  | 0x03 => do
      let operand ← sleb128
      pure (false, header, { regs with line := regs.line + operand })
  | 0x04 => do
      let file ← uleb128
      pure (false, header, { regs with file := file })
  | 0x05 => do
      let column ← uleb128
      pure (false, header, { regs with column := column })
  | 0x06 => pure (false, header, { regs with isStmt := !regs.isStmt })
  | 0x07 => pure (false, header, { regs with basicBlock := true })
  | 0x08 => do
      let increment ← addressIncrement header 255
      let operand := increment * header.minimumInstructionLength.toUInt32
      pure (false, header, { regs with address := regs.address + operand })
  | 0x09 => do
      let operand ← word16
      pure (false, header, { regs with address := regs.address + operand.toUInt32 })
  | 0x0a => pure (false, header, { regs with prologueEnd := true })
  | 0x0b => pure (false, header, { regs with epilogueBegin := true })
  | 0x0c => do
      let isa ← uleb128
      pure (false, header, { regs with isa := isa })
  | 0x00 => executeExtended header regs
  | _ => pure (false, header, regs)

/-- The part of `execute` for a special opcode. -/
def executeSpecial (opcode : UInt8) : Decoder Trouble (Bool × LineHeader × LineRegs) := do
  let address ← addressIncrement header opcode
  let line ← lineIncrement header opcode
  pure (true, header, { regs with
    address := regs.address + address, line := regs.line + line, resetFields := true })

/-- `lineprogram_regs_t::execute`. -/
def execute : Decoder Trouble (Bool × LineHeader × LineRegs) := do
  let regs := regs.settle header
  let opcode ← byte
  if opcode < header.opcodeBase then executeStandard header regs opcode
  else executeSpecial header regs (opcode - header.opcodeBase)

end LineRegs

/-! ## §3. The state matrix. -/

/-- `dwarf_debug_lines_t`, without the section. -/
structure DebugLines where
  header : LineHeader
  currentRegs : LineRegs
  stateMatrix : List LineRegs
  deriving DecidableEq

namespace DebugLines

/-- The loop of `execute`. -/
def run (startOffset : Nat) : Nat → DebugLines → Decoder Trouble DebugLines
  | 0, _ => fail .going
  | n + 1, lines => do
      let offset ← position
      if offset - startOffset < (lines.header.unitLength + 4).toNat then
        let (complete, header, regs) ← lines.currentRegs.execute lines.header
        let matrix := if complete then lines.stateMatrix ++ [regs] else lines.stateMatrix
        run startOffset n ⟨header, regs, matrix⟩
      else pure lines

/-- `execute`. -/
def execute (lines : DebugLines) : Decoder Trouble (Bool × DebugLines) := do
  let startOffset ← position
  let header ← LineHeader.decode
  let lines := ⟨header, lines.currentRegs.reset header, []⟩
  let offset ← position
  if offset ≠ header.lineProgramStart then pure (false, lines)
  else
    let lines ← turns fun n => run startOffset n lines
    pure (true, lines)

/-- The loop of `file_name` and `line_number`: the first row for the address, with its
index. -/
def findRow (matrix : List LineRegs) (address lowPc highPc : UInt32) :
    Nat → Nat → Except Trouble (Option (Nat × LineRegs))
  | 0, _ => .ok none
  | n + 1, i =>
      match matrix[i]?, matrix[i + 1]? with
      | some l, some h =>
          if l.address ≥ lowPc ∧ l.address ≤ address ∧ h.address ≥ address ∧ h.address ≤ highPc
          then .ok (some (i, l))
          else findRow matrix address lowPc highPc n (i + 1)
      | _, _ => .error .index

/-- `state_matrix.size() - 1`, of a `size_t`. -/
def turnsOver (matrix : List LineRegs) : Nat :=
  if matrix.length = 0 then wordSize - 1 else matrix.length - 1

variable (lines : DebugLines) (address lowPc highPc : UInt32)

/-- The row that both look-ups report. -/
def row : Except Trouble (Option (Nat × LineRegs)) :=
  findRow lines.stateMatrix address lowPc highPc (turnsOver lines.stateMatrix) 0

/-- The name of the file of a row. -/
def nameOf (regs : LineRegs) : Except Trouble (List UInt8) :=
  match lines.header.fileNames[(regs.file - 1).toNat]? with
  | some fname => .ok fname.filename
  | none => .error .index

/-- `file_name`. -/
def fileName : Except Trouble (List UInt8) :=
  (lines.row address lowPc highPc).bind fun found =>
    match found with
    | some (_, regs) => lines.nameOf regs
    | none => .ok []

/-- `line_number`. -/
def lineNumber : Except Trouble UInt32 :=
  (lines.row address lowPc highPc).map fun found =>
    match found with
    | some (_, regs) => regs.line
    | none => 0

end DebugLines

end Metta.ParseDwarf
