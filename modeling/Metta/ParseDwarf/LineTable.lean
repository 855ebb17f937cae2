/-
  Metta.ParseDwarf.LineTable — what is left of a unit of line numbers once it
  has been executed.

  Beside the rows there are the names of files: those of the header, and behind
  them the ones that the program defines.  The rows are those of the machine, up
  to what `DW_LNS_const_add_pc` adds too much.  The look-ups take a row by the
  addresses of it and of the row behind it.

    • `fileNames`, `run_names` — the names of files,
    • `readerRows`, `execute_unit` — the matrix and the names together,
    • `rowFor`, `row_unit` — the row of an address.
-/
import Metta.ParseDwarf.LineLookup
import Metta.ParseDwarf.LineMatrix

namespace Metta.ParseDwarf

open Metta.Machine Decoder

variable {header : LineHeader} {ins : Instruction} {s : List UInt8} {o : Nat}

/-! ## §1. Names of files. -/

/-- The name that an instruction defines. -/
def Instruction.defines : Instruction → List FileName
  | defineFile _ name directory time size =>
      [⟨name.bytes ++ [0], UInt32.ofInt directory.unsigned, UInt32.ofInt time.unsigned,
        UInt32.ofInt size.unsigned⟩]
  | _ => []

/-- The names that a row of a program can have. -/
def fileNames (header : LineHeader) (program : List Instruction) : List FileName :=
  header.fileNames ++ program.flatMap Instruction.defines

/-- An instruction adds what it defines to the names, whatever else it does. -/
def AddsNames (header : LineHeader) (regs : LineRegs) (o : Nat) (ins : Instruction) : Prop :=
  ∃ complete regs', Reads (regs.execute header) o (ins.bytes header)
    (complete, header.withNames (header.fileNames ++ ins.defines), regs')

theorem withNames_nil (header : LineHeader) :
    header.withNames (header.fileNames ++ []) = header := by
  rw [List.append_nil]
  rfl

/-- An instruction with a standard opcode. -/
theorem addsNames_standard {regs : LineRegs} (hop : ins.opcode < header.opcodeBase)
    (hbytes : ins.bytes header = ins.opcode :: ins.operands)
    (h : ∃ complete regs', Reads
      (LineRegs.executeStandard header (regs.settle header) ins.opcode) (o + 1) ins.operands
      (complete, header.withNames (header.fileNames ++ ins.defines), regs')) :
    AddsNames header regs o ins := by
  obtain ⟨complete, regs', h⟩ := h
  refine ⟨complete, regs', ?_⟩
  rw [hbytes]
  unfold LineRegs.execute
  apply (Reads.byte _ o).bind
  rw [if_pos hop]
  exact h

/-- The same, when no name is defined. -/
theorem addsNames_plain {regs : LineRegs} (hop : ins.opcode < header.opcodeBase)
    (hbytes : ins.bytes header = ins.opcode :: ins.operands) (hnone : ins.defines = [])
    (h : ∃ complete regs', Reads
      (LineRegs.executeStandard header (regs.settle header) ins.opcode) (o + 1) ins.operands
      (complete, header, regs')) : AddsNames header regs o ins := by
  apply addsNames_standard hop hbytes
  rw [hnone, withNames_nil]
  exact h

/-- **One instruction** adds what it defines. -/
theorem addsNames (hrange : header.lineRange ≠ 0) (hwell : ins.WellFormed header)
    (hshort : ins.AllShort) (regs : LineRegs) (o : Nat) : AddsNames header regs o ins := by
  cases ins with
  | special adjusted =>
      have hge : ¬ adjusted + header.opcodeBase < header.opcodeBase := by
        have hlt : adjusted.toNat + header.opcodeBase.toNat < 256 := hwell
        rw [UInt8.lt_iff_toNat_lt, UInt8.toNat_add]
        omega
      unfold AddsNames LineRegs.execute
      rw [show Instruction.defines (.special adjusted) = [] from rfl, withNames_nil]
      -- the opcode as it is adjusted by the reader
      let op := adjusted + header.opcodeBase - header.opcodeBase
      let settled := regs.settle header
      refine ⟨true, { settled with
        address := settled.address + addressAdvance header op.toNat
        line := settled.line + lineAdvance header op.toNat
        resetFields := true }, (Reads.byte _ o).bind_last ?_⟩
      rw [if_neg hge]
      unfold LineRegs.executeSpecial LineRegs.addressIncrement LineRegs.lineIncrement
      rw [if_neg hrange, if_neg hrange]
      exact Reads.bind_nil (Reads.pure _ _) (Reads.bind_nil (Reads.pure _ _) (Reads.pure _ _))
  | copy => exact addsNames_plain hwell rfl rfl ⟨true, _, Reads.pure _ _⟩
  | negateStmt => exact addsNames_plain hwell rfl rfl ⟨false, _, Reads.pure _ _⟩
  | setBasicBlock => exact addsNames_plain hwell rfl rfl ⟨false, _, Reads.pure _ _⟩
  | setPrologueEnd => exact addsNames_plain hwell rfl rfl ⟨false, _, Reads.pure _ _⟩
  | setEpilogueBegin => exact addsNames_plain hwell rfl rfl ⟨false, _, Reads.pure _ _⟩
  | advancePc operand =>
      exact addsNames_plain hwell rfl rfl ⟨false, _, (reads_uleb128 hshort _).map _⟩
  | advanceLine operand =>
      exact addsNames_plain hwell rfl rfl ⟨false, _, (reads_sleb128 hshort _).map _⟩
  | setFile operand =>
      exact addsNames_plain hwell rfl rfl ⟨false, _, (reads_uleb128 hshort _).map _⟩
  | setColumn operand =>
      exact addsNames_plain hwell rfl rfl ⟨false, _, (reads_uleb128 hshort _).map _⟩
  | setIsa operand =>
      exact addsNames_plain hwell rfl rfl ⟨false, _, (reads_uleb128 hshort _).map _⟩
  | fixedAdvancePc operand =>
      exact addsNames_plain hwell rfl rfl ⟨false, _, (Reads.word16 operand _).map _⟩
  | constAddPc =>
      apply addsNames_plain hwell rfl rfl
      let settled := regs.settle header
      refine ⟨false, { settled with address := settled.address + readerAdvance header }, ?_⟩
      show Reads (LineRegs.addressIncrement header 255 >>= _) _ _ _
      unfold LineRegs.addressIncrement
      rw [if_neg hrange]
      exact Reads.bind_nil (Reads.pure _ _) (Reads.pure _ _)
  | endSequence length =>
      exact addsNames_plain hwell.1 rfl rfl
        ⟨true, _, reads_extended hshort hwell.2 (fun o => Reads.pure _ o) _⟩
  | setAddress length address =>
      exact addsNames_plain hwell.1 rfl rfl
        ⟨false, _, reads_extended hshort hwell.2 (fun o => (Reads.word32 address o).map _) _⟩
  | defineFile length name directory time size =>
      obtain ⟨hlen, hdirectory, htime, hsize⟩ := hshort
      exact addsNames_standard hwell.1 rfl ⟨false, _, reads_extended hlen hwell.2.2
        (fun o => (reads_fileName hwell.2.1 hdirectory htime hsize o).map _) _⟩

/-- The names of a header make no difference to what an instruction adds. -/
theorem addsNames_names (names : List FileName) (hrange : header.lineRange ≠ 0)
    (hwell : ins.WellFormed header) (hshort : ins.AllShort) (regs : LineRegs) (o : Nat) :
    ∃ complete regs', Reads (regs.execute (header.withNames names)) o (ins.bytes header)
      (complete, header.withNames (names ++ ins.defines), regs') := by
  have hrange : (header.withNames names).lineRange ≠ 0 := hrange
  have h := addsNames hrange (wellFormed_names names hwell) hshort regs o
  unfold AddsNames at h
  rwa [bytes_names] at h

/-- **A program** that has been run has added what its instructions define. -/
theorem run_names {startOffset : Nat} (hrange : header.lineRange ≠ 0)
    {program : List Instruction} (hwell : ∀ ins ∈ program, ins.WellFormed header)
    (hshort : ∀ ins ∈ program, ins.AllShort) (hlies : Lies s o (encodeProgram header program))
    (hstart : startOffset ≤ o)
    (hend : o + (encodeProgram header program).length
      = startOffset + (header.unitLength + 4).toNat) {names : List FileName} {regs : LineRegs}
    {matrix : List LineRegs} {n o' : Nat} {lines : DebugLines}
    (hrun : DebugLines.run startOffset n ⟨header.withNames names, regs, matrix⟩ s o
      = .ok (lines, o')) :
    lines.header.fileNames = names ++ program.flatMap Instruction.defines := by
  induction program generalizing regs o names n matrix with
  | nil =>
      cases n with
      | zero => cases hrun
      | succ n =>
          rw [DebugLines.run, bind_of_ok (position_apply s o), if_neg ?_] at hrun
          · cases hrun
            exact (List.append_nil _).symm
          · show ¬ o - startOffset < (header.unitLength + 4).toNat
            simp only [encodeProgram, List.flatMap_nil, List.length_nil] at hend
            omega
  | cons ins program ih =>
      rw [encodeProgram, List.flatMap_cons] at hlies hend
      have hpos := List.length_pos_iff.mpr (bytes_ne_nil header ins)
      rw [List.length_append] at hend
      have hin : o - startOffset < (header.unitLength + 4).toNat := by omega
      cases n with
      | zero => cases hrun
      | succ n =>
          obtain ⟨complete, regs', hreads⟩ := addsNames_names names hrange
            (hwell ins List.mem_cons_self) (hshort ins List.mem_cons_self) regs o
          rw [run_turn (hreads s hlies.left) hin] at hrun
          have hrest := ih (fun x hx => hwell x (List.mem_cons_of_mem ins hx))
            (fun x hx => hshort x (List.mem_cons_of_mem ins hx)) hlies.right
            (Nat.le_add_right_of_le hstart) (by rw [encodeProgram]; omega) hrun
          rw [hrest, List.flatMap_cons, List.append_assoc]

/-! ## §2. A unit. -/

/-- A unit of line numbers at the offset, which the reader comes to the end of. -/
structure Executable (s : List UInt8) (o : Nat) (header : LineHeader)
    (program : List Instruction) : Prop where
  unit : LineUnit s o header program
  range : header.lineRange ≠ 0
  short : ∀ ins ∈ program, ins.AllShort

/-- The rows of the reader: those of the machine, each ahead by the excess of the
`DW_LNS_const_add_pc` before it. -/
def readerRows (header : LineHeader) (program : List Instruction) : List Row :=
  rowsAhead header 0 (Row.initial header) program

variable {program : List Instruction}

/-- **A unit that has been executed**: the rows are those of the reader, and the names those of
the header and of the program. -/
theorem execute_unit (h : Executable s o header program) (lines : DebugLines) :
    ∃ lines' o', lines.execute s o = .ok ((true, lines'), o') ∧
      lines'.stateMatrix.map LineRegs.row = readerRows header program ∧
      lines'.header.fileNames = fileNames header program := by
  obtain ⟨off, hdecode, rfl⟩ := h.unit.decodes
  have hlength : (header.unitLength + 4).toNat = header.unitLength.toNat + 4 := by
    have := h.unit.format
    rw [UInt32.toNat_add]
    show (header.unitLength.toNat + 4) % 2 ^ 32 = _
    omega
  have hends := h.unit.ends
  rw [← hlength] at hends
  have hfollows := follows_initial header lines.currentRegs
  have hcount := Nat.lt_succ_of_le (length_le_of_lies h.unit.lies)
  obtain ⟨lines', o', hrun, hrows⟩ := run_program h.range h.unit.wellFormed h.short
    header.fileNames hfollows h.unit.lies h.unit.behind hends hcount []
  refine ⟨lines', o', ?_, ?_, ?_⟩
  · unfold DebugLines.execute
    rw [bind_of_ok (position_apply s o), bind_of_ok hdecode, bind_of_ok (position_apply s _),
      if_neg (fun h => h rfl)]
    exact bind_of_ok hrun
  · exact hrows
  · exact run_names h.range h.unit.wellFormed h.short h.unit.lies h.unit.behind hends hrun

/-! ## §3. The row of an address. -/

/-- The first row with the address between it and the row behind it, both between the bounds. -/
def rowFor (made : List Row) (addr lowPc highPc : UInt32) : Option Row :=
  ((made.zip made.tail).find? fun x =>
    decide (lowPc ≤ x.1.address ∧ x.1.address ≤ addr ∧ addr ≤ x.2.address ∧
      x.2.address ≤ highPc)).map Prod.fst

/-- The loop of the look-ups goes through the pairs of rows. -/
theorem findRow_pairs (matrix : List LineRegs) (addr lowPc highPc : UInt32) {n i : Nat}
    (hlen : i + n + 1 = matrix.length) :
    ∃ found, DebugLines.findRow matrix addr lowPc highPc n i = .ok found ∧
      found.map (fun x => x.2.row)
        = rowFor ((matrix.drop i).map LineRegs.row) addr lowPc highPc := by
  induction n generalizing i with
  | zero =>
      have hlast : i < matrix.length := by omega
      have hdrop : matrix.drop i = [matrix[i]] := by
        rw [List.drop_eq_getElem_cons hlast, List.drop_of_length_le (by omega)]
      refine ⟨none, rfl, ?_⟩
      rw [hdrop]
      rfl
  | succ n ih =>
      obtain ⟨l, h, hl, hh⟩ := exists_adjacent (by omega : i + 1 < matrix.length)
      obtain ⟨hi, hgetl⟩ := List.getElem?_eq_some_iff.mp hl
      obtain ⟨hi', hgeth⟩ := List.getElem?_eq_some_iff.mp hh
      obtain ⟨found, hfind, hrow⟩ := ih (i := i + 1) (by omega)
      have hdrop : matrix.drop (i + 1) = h :: matrix.drop (i + 2) := by
        rw [List.drop_eq_getElem_cons hi', hgeth]
      have hfirst : (matrix.drop i).map LineRegs.row
          = l.row :: h.row :: (matrix.drop (i + 2)).map LineRegs.row := by
        rw [List.drop_eq_getElem_cons hi, hgetl, hdrop]
        rfl
      rw [hdrop] at hrow
      rw [DebugLines.findRow, hl, hh, hfirst]
      unfold rowFor
      rw [List.tail_cons, List.zip_cons_cons, List.find?_cons]
      by_cases hhit : l.address ≥ lowPc ∧ l.address ≤ addr ∧ h.address ≥ addr ∧ h.address ≤ highPc
      · refine ⟨some (i, l), if_pos hhit, ?_⟩
        have hyes : decide (lowPc ≤ l.row.address ∧ l.row.address ≤ addr ∧
            addr ≤ h.row.address ∧ h.row.address ≤ highPc) = true := decide_eq_true hhit
        rw [hyes]
        rfl
      · refine ⟨found, (if_neg hhit).trans hfind, ?_⟩
        have hno : decide (lowPc ≤ l.row.address ∧ l.row.address ≤ addr ∧
            addr ≤ h.row.address ∧ h.row.address ≤ highPc) = false := decide_eq_false hhit
        rw [hno, hrow]
        rfl

/-- **The row that the look-ups take**, when there is a row at all. -/
theorem row_unit {lines : DebugLines} {made : List Row}
    (hmatrix : lines.stateMatrix.map LineRegs.row = made) (hne : made ≠ [])
    (addr lowPc highPc : UInt32) :
    ∃ found, lines.row addr lowPc highPc = .ok found ∧
      found.map (fun x => x.2.row) = rowFor made addr lowPc highPc := by
  have hpos : 0 < lines.stateMatrix.length := by
    rw [← List.length_map (f := LineRegs.row), hmatrix]
    exact List.length_pos_iff.mpr hne
  have hturns : DebugLines.turnsOver lines.stateMatrix = lines.stateMatrix.length - 1 :=
    if_neg (by omega)
  obtain ⟨found, hfind, hrow⟩ := findRow_pairs lines.stateMatrix addr lowPc highPc
    (n := lines.stateMatrix.length - 1) (i := 0) (by omega)
  refine ⟨found, ?_, ?_⟩
  · unfold DebugLines.row
    rw [hturns]
    exact hfind
  · rw [hrow, List.drop_zero, hmatrix]

end Metta.ParseDwarf
