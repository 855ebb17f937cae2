/-
  Metta.ParseDwarf.LineMatrix — the state matrix and the line number machine.

  The reader puts off what is to be reset until the next opcode, and so its
  registers are compared with the machine's once they have been settled.

    • `Follows` — settled registers and those of the machine,
    • `reads_execute` — one instruction, `run_program` — a program,
    • `execute_rows_iff` — when the matrix has the rows of the machine.
-/
import Metta.ParseDwarf.LineProgram

namespace Metta.ParseDwarf

open Metta.Machine Decoder

/-! ## §1. The registers of both. -/

/-- The registers of a row of the matrix. -/
def LineRegs.row (regs : LineRegs) : Row :=
  ⟨regs.address, regs.file, regs.line, regs.column, regs.isStmt, regs.basicBlock,
    regs.endSequence, regs.prologueEnd, regs.epilogueBegin, regs.isa⟩

/-- Registers with nothing to be reset. -/
def Row.regs (row : Row) : LineRegs :=
  ⟨row.address, row.file, row.line, row.column, row.isStmt, row.basicBlock, row.endSequence,
    row.prologueEnd, row.epilogueBegin, row.isa, false, false⟩

/-- Once settled, the registers are those of the machine, `k` times the excess further on. -/
def Follows (header : LineHeader) (k : Nat) (regs : LineRegs) (row : Row) : Prop :=
  regs.settle header = (row.ahead header k).regs

variable {header : LineHeader} {k : Nat} {regs : LineRegs} {row : Row} {o : Nat}

theorem settle_regs (row : Row) : row.regs.settle header = row.regs := rfl

/-- A new sequence, whatever the registers were. -/
theorem follows_initial (header : LineHeader) (regs : LineRegs) :
    Follows header 0 (regs.reset header) (Row.initial header) := by
  unfold Follows Row.ahead
  have hzero : (Row.initial header).address + UInt32.ofNat 0 * excess header = 0 := by
    show 0 + 0 * excess header = 0
    rw [UInt32.zero_mul, UInt32.zero_add]
  rw [hzero]
  cases hreset : regs.resetFields with
  | true =>
      unfold LineRegs.settle LineRegs.reset
      rw [hreset]
      rfl
  | false =>
      unfold LineRegs.settle LineRegs.reset
      rw [hreset]
      rfl

/-! ## §2. What an instruction does. -/

/-- An advance of the address, before or behind the excess. -/
theorem Row.ahead_advance (header : LineHeader) (k : Nat) (row : Row) (a : UInt32) :
    Row.ahead header k { row with address := row.address + a }
      = { row.ahead header k with address := (row.ahead header k).address + a } := by
  unfold Row.ahead
  simp only [Row.mk.injEq, and_true]
  rw [UInt32.add_assoc, UInt32.add_comm a, UInt32.add_assoc]

/-- The excess of one more `DW_LNS_const_add_pc`. -/
theorem Row.ahead_succ (row : Row) :
    Row.ahead header (k + 1)
        { row with address := row.address + addressAdvance header (255 - header.opcodeBase.toNat) }
      = { row.ahead header k with
          address := (row.ahead header k).address + readerAdvance header } := by
  have hsucc : UInt32.ofNat (k + 1) = UInt32.ofNat k + 1 := UInt32.ofNat_add k 1
  unfold Row.ahead excess
  simp only [Row.mk.injEq, and_true]
  rw [hsucc]
  grind

/-- The header with other names of files. -/
def LineHeader.withNames (header : LineHeader) (names : List FileName) : LineHeader :=
  { header with fileNames := names }

/-- One instruction: the row that it adds to the matrix, with the excess that there is, and the
registers. -/
def Does (header : LineHeader) (k : Nat) (regs : LineRegs) (row : Row) (o : Nat)
    (ins : Instruction) : Prop :=
  ∃ complete names regs', Reads (regs.execute header) o (ins.bytes header)
      (complete, header.withNames names, regs') ∧
    (if complete then [regs'.row] else [])
      = ((step header row ins).1.map (Row.ahead header k)).toList ∧
    Follows header (ins.count k) regs' (step header row ins).2

variable {ins : Instruction}

/-- A standard opcode and its operands. -/
theorem reads_standard (hregs : Follows header k regs row) (hop : ins.opcode < header.opcodeBase)
    {result : Bool × LineHeader × LineRegs}
    (h : Reads (LineRegs.executeStandard header (row.ahead header k).regs ins.opcode) (o + 1)
      ins.operands result) : Reads (regs.execute header) o (ins.opcode :: ins.operands) result := by
  unfold LineRegs.execute
  rw [show regs.settle header = (row.ahead header k).regs from hregs]
  apply (Reads.byte _ o).bind
  rw [if_pos hop]
  exact h

/-- An instruction that makes no row and leaves nothing to be reset. -/
theorem does_standard (hregs : Follows header k regs row) (hop : ins.opcode < header.opcodeBase)
    (hbytes : ins.bytes header = ins.opcode :: ins.operands)
    (hrow : (step header row ins).1 = none)
    (h : ∃ names, Reads (LineRegs.executeStandard header (row.ahead header k).regs ins.opcode)
      (o + 1) ins.operands (false, header.withNames names,
        ((step header row ins).2.ahead header (ins.count k)).regs)) :
    Does header k regs row o ins := by
  obtain ⟨names, h⟩ := h
  refine ⟨false, names, _, ?_, ?_, settle_regs _⟩
  · rw [hbytes]
    exact reads_standard hregs hop h
  · rw [hrow]
    rfl

/-- An instruction with a standard opcode that cannot be read. -/
theorem fails_standard (regs : LineRegs) (hop : ins.opcode < header.opcodeBase)
    (hbytes : ins.bytes header = ins.opcode :: ins.operands)
    (h : Fails (LineRegs.executeStandard header (regs.settle header) ins.opcode) (o + 1)
      ins.operands) : Fails (regs.execute header) o (ins.bytes header) := by
  rw [hbytes]
  unfold LineRegs.execute
  apply Fails.after (Reads.byte _ o)
  rw [if_pos hop]
  exact h

/-- A special opcode. -/
theorem does_special {adjusted : UInt8} (hrange : header.lineRange ≠ 0)
    (hwell : adjusted.toNat + header.opcodeBase.toNat < 256) (hregs : Follows header k regs row) :
    Does header k regs row o (.special adjusted) := by
  have hsum : (adjusted + header.opcodeBase).toNat
      = adjusted.toNat + header.opcodeBase.toNat := by
    rw [UInt8.toNat_add]
    omega
  have hge : ¬ adjusted + header.opcodeBase < header.opcodeBase := by
    rw [UInt8.lt_iff_toNat_lt, hsum]
    omega
  have hadjusted : adjusted + header.opcodeBase - header.opcodeBase = adjusted :=
    UInt8.add_sub_cancel _ _
  refine ⟨true, header.fileNames, { (row.ahead header k).regs with
    address := (row.ahead header k).address + addressAdvance header adjusted.toNat
    line := row.line + lineAdvance header adjusted.toNat
    resetFields := true }, ?_, ?_, ?_⟩
  · unfold LineRegs.execute
    rw [show regs.settle header = (row.ahead header k).regs from hregs]
    apply (Reads.byte _ o).bind_last
    rw [if_neg hge, hadjusted]
    unfold LineRegs.executeSpecial LineRegs.addressIncrement LineRegs.lineIncrement
    rw [if_neg hrange, if_neg hrange]
    exact Reads.bind_nil (Reads.pure _ _) (Reads.bind_nil (Reads.pure _ _) (Reads.pure _ _))
  · have hrow := Row.ahead_advance header k
      { row with line := row.line + lineAdvance header adjusted.toNat }
      (addressAdvance header adjusted.toNat)
    exact congrArg (fun row => [row]) hrow.symm
  · have hrow := Row.ahead_advance header k
      (Row.cleared { row with line := row.line + lineAdvance header adjusted.toNat })
      (addressAdvance header adjusted.toNat)
    exact (congrArg Row.regs hrow).symm

theorem does_copy (hop : 1 < header.opcodeBase) (hregs : Follows header k regs row) :
    Does header k regs row o .copy := by
  refine ⟨true, header.fileNames, { (row.ahead header k).regs with resetFields := true },
    ?_, rfl, rfl⟩
  exact @reads_standard _ _ _ _ _ .copy hregs hop _ (Reads.pure _ _)

/-- The check behind an extended opcode, when its length is right. -/
theorem sync_of_length {length : Leb} {area : List UInt8}
    (h : length.unsigned = area.length) (o : Nat) :
    UInt32.ofNat (o + area.length) = UInt32.ofNat o + UInt32.ofInt length.unsigned := by
  rw [h, ofInt_natCast, UInt32.ofNat_add]

/-- An extended opcode: what is read behind the length, and the check. -/
theorem reads_extended {length : Leb} (hshort : Short length) {sub : UInt8} {bs : List UInt8}
    (hlength : length.unsigned = ([sub] ++ bs).length) {regs : LineRegs}
    {result : Bool × LineHeader × LineRegs}
    (hsub : ∀ o, Reads (LineRegs.executeSub header regs sub) o bs (some result)) (o : Nat) :
    Reads (LineRegs.executeStandard header regs 0x00) o (length.bytes ++ ([sub] ++ bs)) result := by
  show Reads (LineRegs.executeExtended header regs) o _ _
  unfold LineRegs.executeExtended
  apply (reads_uleb128 hshort o).bind
  apply Reads.bind_nil (Reads.position _)
  apply (Reads.byte sub _).bind
  apply (hsub _).bind_last
  have hsync := sync_of_length hlength (o + length.bytes.length)
  rw [List.length_append, ← Nat.add_assoc] at hsync
  apply Reads.bind_nil (Reads.position _)
  rw [if_neg (by rw [hsync]; exact fun h => h rfl)]
  exact Reads.pure _ _

/-! ## §3. Names of files. -/

/-- A name, and three numbers. -/
theorem reads_fileName {name : Text} (hname : name.bytes ≠ []) {directory time size : Leb}
    (hdirectory : Short directory) (htime : Short time) (hsize : Short size) (o : Nat) :
    Reads FileName.decode o
      (name.terminated ++ (directory.bytes ++ (time.bytes ++ size.bytes)))
      (some ⟨name.bytes ++ [0], UInt32.ofInt directory.unsigned, UInt32.ofInt time.unsigned,
        UInt32.ofInt size.unsigned⟩) := by
  unfold FileName.decode
  apply (reads_text name o).bind
  rw [if_neg hname]
  exact (reads_uleb128 hdirectory _).bind ((reads_uleb128 htime _).bind
    ((reads_uleb128 hsize _).map _))

theorem fails_fileName {name : Text} (hname : name.bytes ≠ []) {directory time size : Leb}
    (h : ¬ (Short directory ∧ Short time ∧ Short size)) (o : Nat) :
    Fails FileName.decode o
      (name.terminated ++ (directory.bytes ++ (time.bytes ++ size.bytes))) := by
  unfold FileName.decode
  apply Fails.after (reads_text name o)
  rw [if_neg hname]
  by_cases hdirectory : Short directory
  · apply Fails.after (reads_uleb128 hdirectory _)
    by_cases htime : Short time
    · apply Fails.after (reads_uleb128 htime _)
      exact (fails_uleb128 (fun hsize => h ⟨hdirectory, htime, hsize⟩) _).bind
    · exact (fails_uleb128 htime _).left
  · exact (fails_uleb128 hdirectory _).left

/-! ## §4. One instruction. -/

theorem does_endSequence {length : Leb} (hshort : Short length) (hop : 0 < header.opcodeBase)
    (hlength : length.unsigned = (Instruction.area (.endSequence length)).length)
    (hregs : Follows header k regs row) : Does header k regs row o (.endSequence length) := by
  refine ⟨true, header.fileNames, { (row.ahead header k).regs with
    endSequence := true, resetToInitial := true }, ?_, rfl, ?_⟩
  · exact @reads_standard _ _ _ _ _ (.endSequence length) hregs hop _
      (reads_extended hshort hlength (fun o => Reads.pure _ o) _)
  · exact follows_initial header _

theorem does_setAddress {length : Leb} (hshort : Short length) (address : UInt32)
    (hop : 0 < header.opcodeBase)
    (hlength : length.unsigned = (Instruction.area (.setAddress length address)).length)
    (hregs : Follows header k regs row) :
    Does header k regs row o (.setAddress length address) := by
  have hset : Row.ahead header 0 { row with address := address }
      = { row.ahead header k with address := address } := by
    show { row with address := address + 0 * excess header } = { row with address := address }
    rw [UInt32.zero_mul, UInt32.add_zero]
  refine does_standard hregs hop rfl rfl ⟨header.fileNames, ?_⟩
  show Reads _ _ _ (false, header, (Row.ahead header 0 { row with address := address }).regs)
  rw [hset]
  exact reads_extended hshort hlength (fun o => (Reads.word32 address o).map _) _

theorem does_defineFile {length : Leb} {name : Text} {directory time size : Leb}
    (hshort : (Instruction.defineFile length name directory time size).AllShort)
    (hop : 0 < header.opcodeBase) (hname : name.bytes ≠ [])
    (hlength : length.unsigned
      = (Instruction.area (.defineFile length name directory time size)).length)
    (hregs : Follows header k regs row) :
    Does header k regs row o (.defineFile length name directory time size) := by
  obtain ⟨hlen, hdirectory, htime, hsize⟩ := hshort
  exact does_standard hregs hop rfl rfl ⟨_, reads_extended hlen hlength
    (fun o => (reads_fileName hname hdirectory htime hsize o).map _) _⟩

/-- **One instruction** whose numbers can be read. -/
theorem does_of_short (hrange : header.lineRange ≠ 0) (hwell : ins.WellFormed header)
    (hshort : ins.AllShort) (hregs : Follows header k regs row) :
    Does header k regs row o ins := by
  cases ins with
  | special adjusted => exact does_special hrange hwell hregs
  | copy => exact does_copy hwell hregs
  | advancePc operand =>
      refine does_standard hregs hwell rfl rfl ⟨header.fileNames, ?_⟩
      unfold step
      rw [Row.ahead_advance]
      exact (reads_uleb128 hshort _).map _
  | advanceLine operand =>
      exact does_standard hregs hwell rfl rfl ⟨_, (reads_sleb128 hshort _).map _⟩
  | setFile operand =>
      exact does_standard hregs hwell rfl rfl ⟨_, (reads_uleb128 hshort _).map _⟩
  | setColumn operand =>
      exact does_standard hregs hwell rfl rfl ⟨_, (reads_uleb128 hshort _).map _⟩
  | negateStmt => exact does_standard hregs hwell rfl rfl ⟨_, Reads.pure _ _⟩
  | setBasicBlock => exact does_standard hregs hwell rfl rfl ⟨_, Reads.pure _ _⟩
  | constAddPc =>
      refine does_standard hregs hwell rfl rfl ⟨header.fileNames, ?_⟩
      unfold step Instruction.count
      rw [Row.ahead_succ]
      show Reads (LineRegs.addressIncrement header 255 >>= _) _ _ _
      unfold LineRegs.addressIncrement
      rw [if_neg hrange]
      exact Reads.bind_nil (Reads.pure _ _) (Reads.pure _ _)
  | fixedAdvancePc operand =>
      refine does_standard hregs hwell rfl rfl ⟨header.fileNames, ?_⟩
      unfold step
      rw [Row.ahead_advance]
      exact (Reads.word16 operand _).map _
  | setPrologueEnd => exact does_standard hregs hwell rfl rfl ⟨_, Reads.pure _ _⟩
  | setEpilogueBegin => exact does_standard hregs hwell rfl rfl ⟨_, Reads.pure _ _⟩
  | setIsa operand =>
      exact does_standard hregs hwell rfl rfl ⟨_, (reads_uleb128 hshort _).map _⟩
  | endSequence length => exact does_endSequence hshort hwell.1 hwell.2 hregs
  | setAddress length address => exact does_setAddress hshort address hwell.1 hwell.2 hregs
  | defineFile length name directory time size =>
      exact does_defineFile hshort hwell.1 hwell.2.1 hwell.2.2 hregs

/-- **One instruction** with a number that is too long. -/
theorem fails_of_long (regs : LineRegs) (hwell : ins.WellFormed header) (hlong : ¬ ins.AllShort)
    (o : Nat) : Fails (regs.execute header) o (ins.bytes header) := by
  cases ins with
  | advancePc operand => exact fails_standard regs hwell rfl (fails_uleb128 hlong _).bind
  | advanceLine operand => exact fails_standard regs hwell rfl (fails_sleb128 hlong _).bind
  | setFile operand => exact fails_standard regs hwell rfl (fails_uleb128 hlong _).bind
  | setColumn operand => exact fails_standard regs hwell rfl (fails_uleb128 hlong _).bind
  | setIsa operand => exact fails_standard regs hwell rfl (fails_uleb128 hlong _).bind
  | endSequence length => exact fails_standard regs hwell.1 rfl (fails_uleb128 hlong _).left
  | setAddress length address =>
      exact fails_standard regs hwell.1 rfl (fails_uleb128 hlong _).left
  | defineFile length name directory time size =>
      obtain ⟨hop, hname, -⟩ := hwell
      refine fails_standard regs hop rfl ?_
      by_cases hlength : Short length
      · apply Fails.after (reads_uleb128 hlength _)
        apply Fails.after_nil (Reads.position _)
        apply Fails.after (Reads.byte 3 _)
        apply Fails.bind
        exact (fails_fileName hname (fun h => hlong ⟨hlength, h⟩) _).bind
      · exact (fails_uleb128 hlength _).left
  | _ => exact absurd trivial hlong

/-! ## §5. Programs. -/

/-- Names of files make no difference to an instruction. -/
theorem bytes_names (header : LineHeader) (names : List FileName) (ins : Instruction) :
    ins.bytes (header.withNames names) = ins.bytes header := by
  cases ins <;> rfl

theorem wellFormed_names (names : List FileName) (h : ins.WellFormed header) :
    ins.WellFormed (header.withNames names) := by
  cases ins <;> exact h

/-- A turn of the loop in the middle of a unit. -/
theorem run_turn {s : List UInt8} {startOffset o' n : Nat} {matrix : List LineRegs}
    {complete : Bool} {header' : LineHeader} {regs' : LineRegs}
    (h : regs.execute header s o = .ok ((complete, header', regs'), o'))
    (hin : o - startOffset < (header.unitLength + 4).toNat) :
    DebugLines.run startOffset (n + 1) ⟨header, regs, matrix⟩ s o
      = DebugLines.run startOffset n
          ⟨header', regs', matrix ++ if complete then [regs'] else []⟩ s o' := by
  rw [DebugLines.run, bind_of_ok (position_apply s o), if_pos hin, bind_of_ok h]
  cases complete with
  | true => rfl
  | false =>
      rw [show (if (false : Bool) = true then [regs'] else []) = [] from rfl, List.append_nil]
      rfl

/-- A turn that fails. -/
theorem run_turn_error {s : List UInt8} {startOffset n : Nat} {matrix : List LineRegs}
    {e : Fault Trouble} (h : regs.execute header s o = .error e)
    (hin : o - startOffset < (header.unitLength + 4).toNat) :
    DebugLines.run startOffset (n + 1) ⟨header, regs, matrix⟩ s o = .error e := by
  rw [DebugLines.run, bind_of_ok (position_apply s o), if_pos hin, bind_of_error h]

theorem step_names (header : LineHeader) (names : List FileName) (row : Row) (ins : Instruction) :
    step (header.withNames names) row ins = step header row ins := by
  cases ins <;> rfl

theorem does_names (names : List FileName) (hrange : header.lineRange ≠ 0)
    (hwell : ins.WellFormed header) (hshort : ins.AllShort) (hregs : Follows header k regs row) :
    ∃ complete names' regs', Reads (regs.execute (header.withNames names)) o
        (ins.bytes header) (complete, header.withNames names', regs') ∧
      (if complete then [regs'.row] else [])
        = ((step header row ins).1.map (Row.ahead header k)).toList ∧
      Follows header (ins.count k) regs' (step header row ins).2 := by
  obtain ⟨complete, names', regs', hreads, hmade, hnext⟩ :
      Does (header.withNames names) k regs row o ins :=
    does_of_short hrange (wellFormed_names names hwell) hshort hregs
  rw [bytes_names] at hreads
  rw [step_names] at hmade hnext
  exact ⟨complete, names', regs', hreads, hmade, hnext⟩

theorem fails_names (names : List FileName) (regs : LineRegs) (hwell : ins.WellFormed header)
    (hlong : ¬ ins.AllShort) (o : Nat) :
    Fails (regs.execute (header.withNames names)) o (ins.bytes header) := by
  have h := fails_of_long regs (wellFormed_names names hwell) hlong o
  rwa [bytes_names] at h

theorem bytes_ne_nil (header : LineHeader) (ins : Instruction) : ins.bytes header ≠ [] := by
  cases ins <;> exact List.cons_ne_nil _ _

/-- **A program** that can be read: the rows are those of the machine, with the excess that there
is. -/
theorem run_program {s : List UInt8} {startOffset : Nat} (hrange : header.lineRange ≠ 0)
    {program : List Instruction} (hwell : ∀ ins ∈ program, ins.WellFormed header)
    (hshort : ∀ ins ∈ program, ins.AllShort) (names : List FileName)
    (hregs : Follows header k regs row) (hlies : Lies s o (encodeProgram header program))
    (hstart : startOffset ≤ o)
    (hend : o + (encodeProgram header program).length
      = startOffset + (header.unitLength + 4).toNat) {n : Nat} (hn : program.length < n)
    (matrix : List LineRegs) :
    ∃ lines o', DebugLines.run startOffset n ⟨header.withNames names, regs, matrix⟩ s o
        = .ok (lines, o') ∧
      lines.stateMatrix.map LineRegs.row
        = matrix.map LineRegs.row ++ rowsAhead header k row program := by
  induction program generalizing k regs row o names n matrix with
  | nil =>
      obtain ⟨n, rfl⟩ : ∃ m, n = m + 1 := ⟨n - 1, by omega⟩
      refine ⟨⟨header.withNames names, regs, matrix⟩, o, ?_, ?_⟩
      · -- the program has been read to its end, where the unit ends too
        rw [DebugLines.run, bind_of_ok (position_apply s o), if_neg ?_]
        · rfl
        · show ¬ o - startOffset < (header.unitLength + 4).toNat
          simp only [encodeProgram, List.flatMap_nil, List.length_nil] at hend
          omega
      · exact (List.append_nil _).symm
  | cons ins program ih =>
      obtain ⟨n, rfl⟩ : ∃ m, n = m + 1 := ⟨n - 1, by omega⟩
      rw [encodeProgram, List.flatMap_cons] at hlies hend
      have hpos := List.length_pos_iff.mpr (bytes_ne_nil header ins)
      rw [List.length_append] at hend
      -- one instruction, behind which the program goes on
      obtain ⟨complete, names', regs', hreads, hmade, hnext⟩ :=
        does_names (o := o) names hrange (hwell ins List.mem_cons_self)
          (hshort ins List.mem_cons_self) hregs
      have hin : o - startOffset < (header.unitLength + 4).toNat := by omega
      obtain ⟨lines, o', hrun, hrows⟩ := ih
        (fun x hx => hwell x (List.mem_cons_of_mem ins hx))
        (fun x hx => hshort x (List.mem_cons_of_mem ins hx)) names' hnext hlies.right
        (Nat.le_add_right_of_le hstart) (by rw [encodeProgram]; omega) (by simpa using hn)
        (matrix ++ if complete then [regs'] else [])
      refine ⟨lines, o', ?_, ?_⟩
      · rw [run_turn (hreads s hlies.left) hin]
        exact hrun
      · rw [hrows, rowsAhead, ← hmade, List.map_append, List.append_assoc]
        cases complete <;> rfl

/-- A program with a number that is too long. -/
theorem run_long {s : List UInt8} {startOffset : Nat} (hrange : header.lineRange ≠ 0)
    {program : List Instruction} (hwell : ∀ ins ∈ program, ins.WellFormed header)
    (hlong : ¬ ∀ ins ∈ program, ins.AllShort) (names : List FileName)
    (hregs : Follows header k regs row) (hlies : Lies s o (encodeProgram header program))
    (hstart : startOffset ≤ o)
    (hend : o + (encodeProgram header program).length
      = startOffset + (header.unitLength + 4).toNat) (n : Nat) (matrix : List LineRegs) :
    ∃ e, DebugLines.run startOffset n ⟨header.withNames names, regs, matrix⟩ s o
      = .error e := by
  induction program generalizing k regs row o names n matrix with
  | nil => exact absurd (fun ins h => nomatch h) hlong
  | cons ins program ih =>
      cases n with
      | zero => exact ⟨_, rfl⟩
      | succ n =>
          rw [encodeProgram, List.flatMap_cons] at hlies hend
          have hpos := List.length_pos_iff.mpr (bytes_ne_nil header ins)
          rw [List.length_append] at hend
          have hin : o - startOffset < (header.unitLength + 4).toNat := by omega
          have hins := hwell ins List.mem_cons_self
          by_cases hshort : ins.AllShort
          · obtain ⟨complete, names', regs', hreads, -, hnext⟩ :=
              does_names (o := o) names hrange hins hshort hregs
            obtain ⟨e, he⟩ := ih (fun x hx => hwell x (List.mem_cons_of_mem ins hx))
              (fun h => hlong (List.forall_mem_cons.mpr ⟨hshort, h⟩)) names' hnext hlies.right
              (Nat.le_add_right_of_le hstart) (by rw [encodeProgram]; omega) n
              (matrix ++ if complete then [regs'] else [])
            refine ⟨e, ?_⟩
            rw [run_turn (hreads s hlies.left) hin]
            exact he
          · obtain ⟨e, he⟩ := fails_names names regs hins hshort o s hlies.left
            exact ⟨e, run_turn_error he hin⟩

/-- Every instruction has a byte in the section. -/
theorem length_le_of_lies {s : List UInt8} {program : List Instruction}
    (h : Lies s o (encodeProgram header program)) : program.length ≤ s.length := by
  have hle : program.length ≤ (encodeProgram header program).length := by
    clear h
    induction program with
    | nil => exact Nat.zero_le _
    | cons ins program ih =>
        have hpos := List.length_pos_iff.mpr (bytes_ne_nil header ins)
        unfold encodeProgram at ih ⊢
        rw [List.flatMap_cons, List.length_append, List.length_cons]
        omega
  by_cases hne : encodeProgram header program = []
  · rw [hne] at hle
    exact Nat.le_trans hle (Nat.zero_le _)
  · have := h.length_le hne
    omega

/-! ## §6. The state matrix. -/

/-- At the offset `o` of the section there is a unit with the header that is read there and the
program behind it. -/
structure LineUnit (s : List UInt8) (o : Nat) (header : LineHeader) (program : List Instruction) :
    Prop where
  decodes : ∃ off, LineHeader.decode s o = .ok (header, off) ∧ off = header.lineProgramStart
  behind : o ≤ header.lineProgramStart
  lies : Lies s header.lineProgramStart (encodeProgram header program)
  ends : header.lineProgramStart + (encodeProgram header program).length
    = o + (header.unitLength.toNat + 4)
  /-- The lengths above are those of other formats. -/
  format : header.unitLength.toNat < 0xfffffff0
  wellFormed : ∀ ins ∈ program, ins.WellFormed header

/-- **The state matrix** has the rows of the machine exactly when the numbers can be read and the
excess of `DW_LNS_const_add_pc` is not seen. -/
theorem execute_rows_iff {s : List UInt8} {program : List Instruction}
    (hunit : LineUnit s o header program) (hrange : 1 ≤ header.lineRange.toNat)
    (lines : DebugLines) :
    (∃ lines' o', lines.execute s o = .ok ((true, lines'), o') ∧
        lines'.stateMatrix.map LineRegs.row = rows header (Row.initial header) program) ↔
      (∀ ins ∈ program, ins.AllShort) ∧ Agrees header 0 program := by
  obtain ⟨off, hdecode, rfl⟩ := hunit.decodes
  -- a line range of zero would divide by zero
  have hne : header.lineRange ≠ 0 := by
    intro h
    rw [h] at hrange
    exact absurd hrange (by decide)
  have hlength : (header.unitLength + 4).toNat = header.unitLength.toNat + 4 := by
    have := hunit.format
    rw [UInt32.toNat_add]
    show (header.unitLength.toNat + 4) % 2 ^ 32 = _
    omega
  have hends := hunit.ends
  rw [← hlength] at hends
  have hexecute : lines.execute s o
      = ((turns fun n => DebugLines.run o n ⟨header, lines.currentRegs.reset header, []⟩) >>=
          fun lines' => pure (true, lines')) s header.lineProgramStart := by
    unfold DebugLines.execute
    rw [bind_of_ok (position_apply s o), bind_of_ok hdecode, bind_of_ok (position_apply s _),
      if_neg (fun h => h rfl)]
  have hfollows := follows_initial header lines.currentRegs
  by_cases hshort : ∀ ins ∈ program, ins.AllShort
  · -- numbers that can be read: there are rows, with the excess
    have hcount := Nat.lt_succ_of_le (length_le_of_lies hunit.lies)
    obtain ⟨lines', o', hrun, hrows⟩ := run_program hne
      hunit.wellFormed hshort header.fileNames hfollows hunit.lies hunit.behind hends hcount []
    have hrows' : lines'.stateMatrix.map LineRegs.row
        = rowsAhead header 0 (Row.initial header) program := hrows
    have hok : lines.execute s o = .ok ((true, lines'), o') := hexecute.trans (bind_of_ok hrun)
    rw [← rowsAhead_eq_iff (Row.initial header), ← hrows']
    constructor
    · rintro ⟨lines'', o'', heq, hmatrix⟩
      cases hok.symm.trans heq
      exact ⟨hshort, hmatrix⟩
    · rintro ⟨-, hmatrix⟩
      exact ⟨lines', o', hok, hmatrix⟩
  · -- a number that is too long: the execution fails
    obtain ⟨e, hrun⟩ := run_long hne hunit.wellFormed hshort header.fileNames hfollows
      hunit.lies hunit.behind hends (s.length + 1) []
    have herror : lines.execute s o = .error e := hexecute.trans (bind_of_error hrun)
    constructor
    · rintro ⟨lines', o', heq, -⟩
      cases herror.symm.trans heq
    · rintro ⟨h, -⟩
      exact absurd h hshort

/-- A unit with one file and the opcodes of the second version of the format. -/
def sampleSection (code : List UInt8) : List UInt8 :=
  le32 (27 + code.length) ++ [3, 0] ++ le32 21 ++ [1, 1, 0xfb, 14, 10]
    ++ [0, 1, 1, 1, 1, 0, 0, 0, 1] ++ [0] ++ [97, 0, 0, 0, 0] ++ [0] ++ code

def sampleHeader (length : UInt32) : LineHeader where
  unitLength := 27 + length
  version := 3
  headerLength := 21
  minimumInstructionLength := 1
  defaultIsStmt := 1
  lineBase := -5
  lineRange := 14
  opcodeBase := 10
  standardOpcodeLengths := [0, 1, 1, 1, 1, 0, 0, 0, 1]
  includeDirectories := []
  fileNames := [⟨[97, 0], 0, 0, 0⟩]
  lineProgramStart := 31

/-- The object before its first program. -/
def noLines : DebugLines where
  header := sampleHeader 0
  currentRegs := ⟨0, 1, 1, 0, false, false, false, false, false, 0, false, false⟩
  stateMatrix := []

theorem one_low : (1 : UInt8).toNat < 128 := by decide

/-- One line, and the end of the sequence. -/
def oneLine : List Instruction := [.special 20, .endSequence (.small 1 one_low)]

theorem lineUnit_oneLine : LineUnit (sampleSection [30, 0, 1, 1]) 0 (sampleHeader 4) oneLine where
  decodes := ⟨31, by decide +kernel, rfl⟩
  behind := Nat.zero_le _
  lies := ⟨[], by decide +kernel⟩
  ends := by decide +kernel
  format := by decide
  wellFormed := by
    intro ins hins
    simp only [oneLine, List.mem_cons, List.not_mem_nil, or_false] at hins
    rcases hins with rfl | rfl
    · exact (by decide : (20 : UInt8).toNat + 10 < 256)
    · exact ⟨by decide, by decide⟩

/-- A program without `DW_LNS_const_add_pc` has the rows of the machine. -/
theorem execute_oneLine :
    ∃ lines' o', noLines.execute (sampleSection [30, 0, 1, 1]) 0 = .ok ((true, lines'), o') ∧
      lines'.stateMatrix.map LineRegs.row
        = rows (sampleHeader 4) (Row.initial (sampleHeader 4)) oneLine := by
  refine (execute_rows_iff lineUnit_oneLine (by decide) noLines).mpr ⟨?_, ?_⟩
  · intro ins hins
    simp only [oneLine, List.mem_cons, List.not_mem_nil, or_false] at hins
    rcases hins with rfl | rfl
    · exact trivial
    · show Short _
      decide
  · exact ⟨fun _ => rfl, fun _ => rfl, trivial⟩

theorem lineUnit_constAddPc :
    LineUnit (sampleSection [8, 1]) 0 (sampleHeader 2) [.constAddPc, .copy] where
  decodes := ⟨31, by decide +kernel, rfl⟩
  behind := Nat.zero_le _
  lies := ⟨[], by decide +kernel⟩
  ends := by decide +kernel
  format := by decide
  wellFormed := by
    intro ins hins
    simp only [List.mem_cons, List.not_mem_nil, or_false] at hins
    rcases hins with rfl | rfl
    · exact (by decide : (0x08 : UInt8) < 10)
    · exact (by decide : (0x01 : UInt8) < 10)

/-- Behind `DW_LNS_const_add_pc` the address is 18, and that of the machine is 17. -/
theorem execute_constAddPc :
    LineUnit (sampleSection [8, 1]) 0 (sampleHeader 2) [.constAddPc, .copy] ∧
      (noLines.execute (sampleSection [8, 1]) 0).toOption.map
          (fun r => r.1.2.stateMatrix.map LineRegs.address) = some [18] ∧
      (rows (sampleHeader 2) (Row.initial (sampleHeader 2)) [.constAddPc, .copy]).map Row.address
        = [17] :=
  ⟨lineUnit_constAddPc, by decide +kernel, by decide +kernel⟩

end Metta.ParseDwarf
