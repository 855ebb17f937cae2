/-
  Metta.ParseDwarf.AddressLookup — from an address to a function and a line:
  `dwarf_parser_t::lookup` of tools/parsedwarf/dwarf_parser.cpp.

  A look-up goes through all the sections: the ranges have the unit of the
  address, its abbreviations and its tree are read, the tree is searched for a
  subprogram, and the line number program of the unit is executed.  Nothing of
  this depends on the look-ups before.

    • `DwarfParser.lookup`, `DwarfParser.lookups` — the look-ups and their output,
    • `Image`, `Image.In` — a program's debugging information, and how it is in the sections,
    • `Image.text` — what is to be said of an address,
    • `lookups_print` — it is what the look-ups print, for any addresses one after the other.
-/
import Metta.DefaultConsole.Port
import Metta.ParseDwarf.Aranges
import Metta.ParseDwarf.FindAddress
import Metta.ParseDwarf.LineTable

namespace Metta.ParseDwarf

open Metta.Machine Decoder
open Metta.DefaultConsole (ascii decimal hexadecimal)

/-! ## §1. The look-up. -/

/-- `cuh_t`. -/
structure CompUnitHeader where
  unitLength : UInt32
  version : UInt16
  debugAbbrevOffset : UInt32
  addressSize : UInt8

/-- `cuh_t::decode`. -/
def CompUnitHeader.decode : Decoder Trouble CompUnitHeader := do
  let unitLength ← decodeUnitLength
  let version ← word16
  let debugAbbrevOffset ← word32
  let addressSize ← byte
  pure ⟨unitLength, version, debugAbbrevOffset, addressSize⟩

/-- The sections that the parser has found in the file. -/
structure Sections where
  debugAranges : List UInt8
  debugAbbrev : List UInt8
  debugInfo : List UInt8
  debugLine : List UInt8
  debugStr : List UInt8

/-- `dwarf_parser_t`: what the look-ups leave in it, and in the objects of the sections. -/
structure DwarfParser where
  abbrevs : List AbbrevDeclaration
  root : List Die
  lines : DebugLines

/-- A search that has come to its end. -/
def done {α : Type} : Option α → Except (Fault Trouble) α
  | some a => .ok a
  | none => .error (.failed .going)

/-- The node that a pointer is to. -/
def node (nodes : List Die) (i : Nat) : Except (Fault Trouble) Die :=
  match nodes[i]? with
  | some d => .ok d
  | none => .error (.failed .null)

/-- `%s` of a pointer into a section. -/
def stringAt (p : List UInt8 × Nat) : Except (Fault Trouble) (List UInt8) :=
  (turns cstring p.1 p.2).map Prod.fst

/-- `mang ? mang : "<no mangled name>"`. -/
def mangledText (sec : Sections) (d : Die) : Except (Fault Trouble) (List UInt8) :=
  match d.stringAttr sec.debugInfo sec.debugStr DW_AT_GNU_cpp_mangled_name with
  | some mang => stringAt mang
  | none => .ok (ascii "<no mangled name>")

/-- `if (named_node)`: the name of it, and the mangled one. -/
def nameText (sec : Sections) (root : List Die) : Option Nat → Except (Fault Trouble) (List UInt8)
  | none => .ok []
  | some named => do
      let d ← node root named
      match d.stringAttr sec.debugInfo sec.debugStr DW_AT_name with
      | none => .ok []
      | some name => do
          let name ← stringAt name
          let mang ← mangledText sec d
          .ok (ascii " " ++ name ++ ascii " (" ++ mang ++ ascii ")")

/-- `if (debug_lines->execute(ofs))`: the file and the line. -/
def linesText (lines : DebugLines) (addr lowPc highPc : UInt32) :
    Except (Fault Trouble) (List UInt8) := do
  let file ← (lines.fileName addr lowPc highPc).mapError Fault.failed
  let line ← (lines.lineNumber addr lowPc highPc).mapError Fault.failed
  -- the name goes up to its NUL
  .ok (ascii " (" ++ file.takeWhile (· != 0) ++ ascii ":" ++ decimal (asInt line) ++ ascii ")")

/-- `if (cu_node)`: the place, from the line number program of the unit. -/
def placeText (sec : Sections) (root : List Die) (lines : DebugLines) (addr lowPc highPc : UInt32) :
    Option Nat → Except (Fault Trouble) (List UInt8 × DebugLines)
  | none => .ok ([], lines)
  | some cuNode => do
      let cu ← node root cuNode
      match cu.cast DW_AT_stmt_list FormReader.asData4 with
      | none => .ok ([], lines)
      | some ofs => do
          let ((executed, lines), _) ← lines.execute sec.debugLine ofs.toNat
          if executed then do
            let text ← linesText lines addr lowPc highPc
            .ok (text, lines)
          else .ok ([], lines)

/-- `if (node)`: the line that is printed for a subprogram. -/
def report (sec : Sections) (root : List Die) (lines : DebugLines) (addr cuhOffset : UInt32) :
    Option Nat → Except (Fault Trouble) (List UInt8 × DebugLines)
  | none => .ok ([], lines)
  | some found => do
      let d ← node root found
      let named ← done (findNamedNode root found cuhOffset)
      let name ← nameText sec root named
      let cuNode ← done (findCompileUnit root found)
      let (place, lines) ← placeText sec root lines addr d.lowPc d.highPc cuNode
      .ok (hexadecimal addr.toNat ++ name ++ place ++ ascii "\n", lines)

/-- `if (root) node = root->find_address(...)`. -/
def findInRoot (root : List Die) (addr : UInt32) : Except (Fault Trouble) (Option Nat) :=
  if root.isEmpty then .ok none else done (findAddress root 0 addr)

namespace DwarfParser

/-- `lookup`: the answer, what is printed, and the parser behind it. -/
def lookup (sec : Sections) (p : DwarfParser) (addr : UInt32) :
    Except (Fault Trouble) (Bool × List UInt8 × DwarfParser) := do
  let unit ← Metta.ParseDwarf.lookup sec.debugAranges addr
  match unit with
  | none => .ok (false, hexadecimal addr.toNat ++ ascii " <unresolved>\n", p)
  | some cuhOffset => do
      let (cuh, offset) ← CompUnitHeader.decode sec.debugInfo cuhOffset.toNat
      let (abbrevs, _) ← loadAbbrevSet sec.debugAbbrev cuh.debugAbbrevOffset.toNat
      let (root, _) ← buildTree abbrevs sec.debugInfo offset
      let found ← findInRoot root addr
      let (text, lines) ← report sec root p.lines addr cuhOffset found
      .ok (true, text, ⟨abbrevs, root, lines⟩)

/-- Look-ups one after the other, and all that they print. -/
def lookups (sec : Sections) : DwarfParser → List UInt32 →
    Except (Fault Trouble) (List UInt8 × DwarfParser)
  | p, [] => .ok ([], p)
  | p, addr :: addrs => do
      let (_, text, p) ← p.lookup sec addr
      let (rest, p) ← lookups sec p addrs
      .ok (text ++ rest, p)

end DwarfParser

/-! ## §2. The debugging information of a program. -/

/-- A compilation unit, whose abbreviations are at an offset of their section. -/
structure CompUnit where
  version : UInt16
  abbrevOffset : UInt32
  abbreviations : List Abbreviation
  tree : Tree

namespace CompUnit

variable (u : CompUnit)

/-- The length of the unit behind the field with the length. -/
def unitLength : Nat := 7 + u.tree.bytes.length

def header : CompUnitHeader := ⟨UInt32.ofNat u.unitLength, u.version, u.abbrevOffset, 4⟩

def encodeHeader : List UInt8 :=
  le32 u.header.unitLength.toNat ++ (le16 u.version.toNat ++ (le32 u.abbrevOffset.toNat ++ [4]))

/-- The paths of the unit that is written at the offset. -/
def paths (offset : UInt32) : List Path := u.tree.paths (offset.toNat + u.encodeHeader.length)

@[simp] theorem length_encodeHeader : u.encodeHeader.length = 11 := rfl

end CompUnit

/-- The debugging information: the units with the ranges of addresses that they are for, the texts
of the pool and the programs of line numbers, both by their offsets. -/
structure Image where
  units : List (ArangesSet × CompUnit)
  pool : UInt32 → Text
  lineUnits : UInt32 → LineHeader × List Instruction

variable {sec : Sections} {img : Image}

/-- A program of line numbers that is in the section: it makes a row, and each row has a file. -/
structure LinesIn (sec : Sections) (offset : UInt32) (header : LineHeader)
    (program : List Instruction) : Prop where
  executable : Executable sec.debugLine offset.toNat header program
  makesRow : readerRows header program ≠ []
  files : ∀ row ∈ readerRows header program,
    (row.file - 1).toNat < (fileNames header program).length

/-- A unit that is in the sections, with what its entries refer to. -/
structure CompUnit.In (u : CompUnit) (sec : Sections) (img : Image) (offset : UInt32) : Prop where
  tree : Lies sec.debugInfo offset.toNat (u.encodeHeader ++ u.tree.bytes)
  abbrevs : Lies sec.debugAbbrev u.abbrevOffset.toNat (encodeAbbrevs u.abbreviations)
  /-- The lengths above are those of other formats. -/
  format : u.unitLength < 0xfffffff0
  wellFormedSet : WellFormedSet u.abbreviations
  wellFormed : u.tree.WellFormed u.abbreviations
  strings : ∀ path ∈ u.paths offset, ∀ e, path.entry = some e → ∀ v, Value.strp v ∈ e.values →
    Lies sec.debugStr v.toNat (img.pool v).terminated
  lines : ∀ path ∈ u.paths offset, ∀ e, path.compileUnit.entry = some e → ∀ v,
    e.cast DW_AT_stmt_list Value.asData4 = some v →
      LinesIn sec v (img.lineUnits v).1 (img.lineUnits v).2

/-- The information is in the sections. -/
structure Image.In (img : Image) (sec : Sections) : Prop where
  nonempty : img.units ≠ []
  aranges : sec.debugAranges = encodeSets (img.units.map Prod.fst)
  units : ∀ x ∈ img.units, x.2.In sec img x.1.debugInfoOffset

/-! ## §3. What is to be said of an address. -/

/-- The names of an entry; none when it has no name. -/
def Image.nameOf (img : Image) (path : Path) : List UInt8 :=
  match path.entry with
  | none => []
  | some e =>
      match e.text img.pool DW_AT_name with
      | none => []
      | some name =>
          ascii " " ++ name.bytes ++ ascii " (" ++
            (match e.text img.pool DW_AT_GNU_cpp_mangled_name with
              | some mang => mang.bytes
              | none => ascii "<no mangled name>") ++ ascii ")"

/-- The name of the file of a row, and its line. -/
def placeOf (header : LineHeader) (program : List Instruction) : Option Row → List UInt8 × UInt32
  | none => ([], 0)
  | some row =>
      ((((fileNames header program)[(row.file - 1).toNat]?).map
        fun name => name.filename.takeWhile (· != 0)).getD [], row.line)

/-- The place of an address in a subprogram with these bounds, by the line numbers of the unit that
the path ends in. -/
def Image.lineOf (img : Image) (path : Path) (addr lowPc highPc : UInt32) : List UInt8 :=
  match path.entry.bind fun e => e.cast DW_AT_stmt_list Value.asData4 with
  | none => []
  | some v =>
      let (header, program) := img.lineUnits v
      let row := rowFor (readerRows header program) addr lowPc highPc
      let (file, line) := placeOf header program row
      ascii " (" ++ file ++ ascii ":" ++ decimal (asInt line) ++ ascii ")"

/-- What is said of an address of a unit: the line for the first subprogram that has it. -/
def Image.unitText (img : Image) (u : CompUnit) (offset addr : UInt32) : List UInt8 :=
  match (u.paths offset).find? fun path => path.holds addr with
  | none => []
  | some path =>
      match path.entry with
      | none => []
      | some e =>
          hexadecimal addr.toNat ++ img.nameOf (Path.named (u.paths offset) path offset) ++
            img.lineOf path.compileUnit addr e.lowPc e.highPc ++ ascii "\n"

/-- The unit of an address, with the ranges: the first with a range that the comparison takes. -/
def Image.unitOf (img : Image) (addr : UInt32) : Option (ArangesSet × CompUnit) :=
  img.units.find? fun x => x.1.hits addr

/-- What is said of an address. -/
def Image.text (img : Image) (addr : UInt32) : List UInt8 :=
  match img.unitOf addr with
  | none => hexadecimal addr.toNat ++ ascii " <unresolved>\n"
  | some x => img.unitText x.2 x.1.debugInfoOffset addr

/-! ## §4. What is printed. -/

/-- A step that has a result. -/
theorem ok_bind {α β : Type} (a : α) (f : α → Except (Fault Trouble) β) :
    (Except.ok a >>= f) = f a := rfl

theorem stringAt_text {p : List UInt8 × Nat} {t : Text} (h : Lies p.1 p.2 t.terminated) :
    stringAt p = .ok t.bytes := by
  unfold stringAt
  rw [reads_text t p.2 p.1 h]
  rfl

variable {u : CompUnit} {offset addr : UInt32} {nodes : List Die}

theorem CompUnit.reads_header (u : CompUnit) (h : u.unitLength < 0xfffffff0) (o : Nat) :
    Reads CompUnitHeader.decode o u.encodeHeader u.header := by
  have hne : UInt32.ofNat u.unitLength ≠ 0xffffffff := by
    intro heq
    have hnat := congrArg UInt32.toNat heq
    rw [UInt32.toNat_ofNat'] at hnat
    have hmax : (0xffffffff : UInt32).toNat = 4294967295 := rfl
    omega
  unfold CompUnitHeader.decode CompUnit.encodeHeader
  exact (reads_decodeUnitLength hne o).bind ((Reads.word16 _ _).bind
    ((Reads.word32 _ _).bind ((Reads.byte 4 _).map _)))

/-- A text of the pool that an attribute has is a value of the entry. -/
theorem Entry.strp_mem (e : Entry) {name v : UInt32} (h : e.cast name Value.asStrp = some v) :
    Value.strp v ∈ e.values := by
  obtain ⟨value, hattr, hvalue⟩ := Option.bind_eq_some_iff.mp h
  have hstrp : value = .strp v := by
    cases value with
    | strp v' =>
        cases hvalue
        rfl
    | _ => cases hvalue
  obtain ⟨x, hfind, rfl⟩ := Option.map_eq_some_iff.mp hattr
  rw [← hstrp]
  exact (List.of_mem_zip (List.mem_of_find?_eq_some hfind)).2

/-- What the parser has of a unit once its tree is built. -/
abbrev CompUnit.Built (u : CompUnit) (sec : Sections) (offset : UInt32) (nodes : List Die) : Prop :=
  Planted sec.debugInfo u.abbreviations u.tree (offset.toNat + u.encodeHeader.length) nodes

theorem node_of_get {i : Nat} {d : Die} (h : nodes[i]? = some d) : node nodes i = .ok d := by
  unfold node
  rw [h]

/-- The entry that a path ends in, and its node. -/
theorem Shown.entry {s : List UInt8} {path : Path} {place : Option Nat}
    (h : Shown s nodes path place) :
    (path.entry = none ∧ place = none) ∨
      ∃ e o i d, path.entry = some e ∧ place = some i ∧ nodes[i]? = some d ∧ e.ReadAs s o d := by
  cases path with
  | nil => exact .inl ⟨rfl, h⟩
  | cons x above =>
      obtain ⟨i, d, hplace, hget, hread, -⟩ := h
      exact .inr ⟨x.2, x.1, i, d, rfl, hplace, hget, hread⟩

/-- **The names** that are printed. -/
theorem nameText_shown {path : Path} {place : Option Nat}
    (hshown : Shown sec.debugInfo nodes path place)
    (hstrings : ∀ e, path.entry = some e → ∀ name v, e.cast name Value.asStrp = some v →
      Lies sec.debugStr v.toNat (img.pool v).terminated) :
    nameText sec nodes place = .ok (img.nameOf path) := by
  unfold Image.nameOf
  rcases hshown.entry with ⟨hnone, rfl⟩ | ⟨e, o, i, d, he, rfl, hget, hread⟩
  · rw [hnone]
    rfl
  · have hname := hread.stringAttr (hstrings e he DW_AT_name)
    have hmang := hread.stringAttr (hstrings e he DW_AT_GNU_cpp_mangled_name)
    rw [he]
    unfold nameText
    dsimp only
    rw [node_of_get hget, ok_bind]
    cases htext : e.text img.pool DW_AT_name with
    | none =>
        rw [htext] at hname
        rw [hname]
    | some name =>
        rw [htext] at hname
        obtain ⟨p, hp, hlies⟩ := hname
        rw [hp]
        dsimp only
        rw [stringAt_text hlies, ok_bind]
        unfold mangledText
        cases hmtext : e.text img.pool DW_AT_GNU_cpp_mangled_name with
        | none =>
            rw [hmtext] at hmang
            rw [hmang]
            rfl
        | some mang =>
            rw [hmtext] at hmang
            obtain ⟨q, hq, hmlies⟩ := hmang
            rw [hq]
            dsimp only
            rw [stringAt_text hmlies]
            rfl

/-- **The file and the line**, from a unit that has been executed. -/
theorem linesText_unit {lines : DebugLines} {header : LineHeader} {program : List Instruction}
    (hin : LinesIn sec offset header program)
    (hmatrix : lines.stateMatrix.map LineRegs.row = readerRows header program)
    (hnames : lines.header.fileNames = fileNames header program) (addr lowPc highPc : UInt32) :
    linesText lines addr lowPc highPc
      = .ok (ascii " (" ++ (placeOf header program (rowFor
            (readerRows header program) addr lowPc highPc)).1 ++ ascii ":"
          ++ decimal (asInt (placeOf header program (rowFor
            (readerRows header program) addr lowPc highPc)).2) ++ ascii ")") := by
  obtain ⟨found, hrow, hfound⟩ := row_unit hmatrix hin.makesRow addr lowPc highPc
  rw [← hfound]
  unfold linesText DebugLines.fileName DebugLines.lineNumber
  rw [hrow]
  cases found with
  | none => rfl
  | some x =>
      -- the row is one of the matrix, and has a file
      have hmem : x.2.row ∈ readerRows header program := by
        have hfind : rowFor (readerRows header program) addr lowPc highPc
            = some x.2.row := hfound.symm
        unfold rowFor at hfind
        obtain ⟨y, hy, hfst⟩ := Option.map_eq_some_iff.mp hfind
        rw [← hfst]
        exact (List.of_mem_zip (List.mem_of_find?_eq_some hy)).1
      have hlt := hin.files _ hmem
      obtain ⟨name, hname⟩ : ∃ name,
          (fileNames header program)[(x.2.row.file - 1).toNat]? = some name :=
        ⟨_, List.getElem?_eq_getElem hlt⟩
      have hnameOf : lines.nameOf x.2 = .ok name.filename := by
        unfold DebugLines.nameOf
        rw [hnames, show x.2.file = x.2.row.file from rfl, hname]
      show ((lines.nameOf x.2).mapError Fault.failed >>= _) = _
      rw [hnameOf]
      dsimp only [Option.map_some, placeOf]
      rw [hname]
      rfl

/-- **The place** that is printed. -/
theorem placeText_shown {path : Path} {place : Option Nat}
    (hshown : Shown sec.debugInfo nodes path place)
    (hlines : ∀ e, path.entry = some e → ∀ v, e.cast DW_AT_stmt_list Value.asData4 = some v →
      LinesIn sec v (img.lineUnits v).1 (img.lineUnits v).2)
    (lines : DebugLines) (addr lowPc highPc : UInt32) :
    ∃ lines', placeText sec nodes lines addr lowPc highPc place
      = .ok (img.lineOf path addr lowPc highPc, lines') := by
  unfold Image.lineOf
  rcases hshown.entry with ⟨hnone, rfl⟩ | ⟨e, o, i, d, he, rfl, hget, hread⟩
  · rw [hnone]
    exact ⟨lines, rfl⟩
  · rw [he, Option.bind_some]
    unfold placeText
    dsimp only
    rw [node_of_get hget, ok_bind, hread.cast _ Value.asData4_reader]
    cases hstmt : e.cast DW_AT_stmt_list Value.asData4 with
    | none => exact ⟨lines, rfl⟩
    | some v =>
        have hin := hlines e he v hstmt
        obtain ⟨lines', o', hexec, hmatrix, hnames⟩ := execute_unit hin.executable lines
        refine ⟨lines', ?_⟩
        dsimp only
        rw [hexec, ok_bind]
        show (linesText lines' addr lowPc highPc >>= _) = _
        rw [linesText_unit hin hmatrix hnames]
        rfl

/-- **What is printed for a unit.** -/
theorem report_built (hbuilt : u.Built sec offset nodes) (hin : u.In sec img offset)
    (lines : DebugLines) (addr : UInt32) :
    ∃ found lines', findInRoot nodes addr = .ok found ∧
      report sec nodes lines addr offset found = .ok (img.unitText u offset addr, lines') := by
  have hne : nodes.isEmpty = false := by
    rw [hbuilt.nodes]
    rfl
  have hfind := findAddress_tree hbuilt addr
  have hplace := hbuilt.find fun path => path.holds addr
  have hroot : findInRoot nodes addr
      = .ok (((u.paths offset).findIdx? fun path => path.holds addr)) := by
    unfold findInRoot
    rw [hne, hfind]
    rfl
  unfold Image.unitText
  cases hpath : (u.paths offset).find? fun path => path.holds addr with
  | none =>
      have hpath' : (u.tree.paths (offset.toNat + u.encodeHeader.length)).find?
          (fun path => path.holds addr) = none := hpath
      rw [hpath'] at hplace
      refine ⟨none, lines, ?_, rfl⟩
      rw [hroot]
      exact congrArg Except.ok hplace
  | some path =>
      have hpath' : (u.tree.paths (offset.toNat + u.encodeHeader.length)).find?
          (fun path => path.holds addr) = some path := hpath
      rw [hpath', Option.getD_some] at hplace
      have hmem := List.mem_of_find?_eq_some hpath
      rcases hplace.entry with ⟨hnone, -⟩ | ⟨e, o, i, d, he, hi, hget, hread⟩
      · -- the path of an entry is not empty
        have hholds := List.find?_some hpath
        unfold Path.holds at hholds
        rw [hnone] at hholds
        cases hholds
      · rw [hi] at hplace
        have hroot' : findInRoot nodes addr = .ok (some i) := by
          rw [hroot]
          exact congrArg Except.ok hi
        obtain ⟨named, hnamed, hshown⟩ := findNamedNode_tree hbuilt hplace offset
        have hstrings : ∀ e, (Path.named (u.paths offset) path offset).entry = some e →
            ∀ name v, e.cast name Value.asStrp = some v →
              Lies sec.debugStr v.toNat (img.pool v).terminated := by
          intro e' he'
          rcases Path.named_mem hmem offset with hnil | hmem'
          · rw [hnil] at he'
            cases he'
          · intro name v hv
            exact hin.strings _ hmem' e' he' v (e'.strp_mem hv)
        have hname := nameText_shown hshown hstrings
        have hlength : path.length ≤ nodes.length := by
          have hle := Forest.length_le_of_mem hmem
          rw [hbuilt.nodes, Forest.length_dies]
          simpa using hle
        obtain ⟨cuNode, hunit, hcu⟩ := findCompileUnit_shown hplace hlength
        obtain ⟨lines', hline⟩ := placeText_shown hcu (hin.lines path hmem) lines addr e.lowPc
          e.highPc
        refine ⟨some i, lines', hroot', ?_⟩
        unfold report findCompileUnit
        dsimp only
        rw [node_of_get hget, ok_bind, hnamed]
        unfold done
        rw [ok_bind, hname, ok_bind, hunit, ok_bind, hread.lowPc, hread.highPc, hline, ok_bind]
        rw [he]
        rfl

/-- **One look-up** prints what is to be said of the address, whatever the look-ups before have
left. -/
theorem lookup_prints (h : img.In sec) (p : DwarfParser) (addr : UInt32) :
    ∃ p', p.lookup sec addr = .ok ((img.unitOf addr).isSome, img.text addr, p') := by
  have hsets : img.units.map Prod.fst ≠ [] := by
    intro hnil
    exact h.nonempty (List.map_eq_nil_iff.mp hnil)
  have hlookup := lookup_encode hsets addr
  rw [List.find?_map, Option.map_map] at hlookup
  unfold DwarfParser.lookup Image.text
  rw [h.aranges, hlookup, ok_bind]
  have hunits : img.units.find? ((fun set => set.hits addr) ∘ Prod.fst) = img.unitOf addr := rfl
  rw [hunits]
  cases hunit : img.unitOf addr with
  | none => exact ⟨p, rfl⟩
  | some x =>
      have hin := h.units x (List.mem_of_find?_eq_some hunit)
      have hheader := x.2.reads_header hin.format x.1.debugInfoOffset.toNat sec.debugInfo
        hin.tree.left
      have habbrevs := reads_abbrevs hin.wellFormedSet.abbreviations x.2.abbrevOffset.toNat
        sec.debugAbbrev hin.abbrevs
      have htree := reads_tree hin.wellFormedSet hin.wellFormed
        (x.1.debugInfoOffset.toNat + x.2.encodeHeader.length) sec.debugInfo hin.tree.right
      let root := x.2.tree.forest.dies none 0
        (x.1.debugInfoOffset.toNat + x.2.encodeHeader.length)
      have hbuilt : x.2.Built sec x.1.debugInfoOffset root :=
        ⟨hin.wellFormedSet, hin.wellFormed, hin.tree.right, rfl⟩
      obtain ⟨found, lines', hfound, hreport⟩ := report_built hbuilt hin p.lines addr
      refine ⟨⟨loaded x.2.abbreviations, root, lines'⟩, ?_⟩
      dsimp only [Option.map_some, Function.comp]
      rw [hheader, ok_bind]
      dsimp only
      rw [show x.2.header.debugAbbrevOffset = x.2.abbrevOffset from rfl, habbrevs, ok_bind]
      dsimp only
      rw [htree, ok_bind]
      dsimp only
      rw [hfound, ok_bind, hreport]
      rfl

/-- **Any look-ups** print what is to be said of their addresses, in their order. -/
theorem lookups_print (h : img.In sec) (p : DwarfParser) (addrs : List UInt32) :
    ∃ p', p.lookups sec addrs = .ok (addrs.flatMap img.text, p') := by
  induction addrs generalizing p with
  | nil => exact ⟨p, rfl⟩
  | cons addr addrs ih =>
      obtain ⟨p', hlookup⟩ := lookup_prints h p addr
      obtain ⟨p'', hrest⟩ := ih p'
      refine ⟨p'', ?_⟩
      unfold DwarfParser.lookups
      rw [hlookup]
      show (p'.lookups sec addrs >>= _) = _
      rw [hrest]
      rfl

/-! ## §5. A program with one function. -/

theorem two_low : (2 : UInt8).toNat < 128 := by decide

theorem compileUnit_low : (0x11 : UInt8).toNat < 128 := by decide

theorem subprogram_low : (0x2e : UInt8).toNat < 128 := by decide

theorem stmtList_lt : 0x10 < 128 := by decide

theorem name_lt : 0x03 < 128 := by decide

theorem lowPc_lt : 0x11 < 128 := by decide

theorem highPc_lt : 0x12 < 128 := by decide

theorem data4_lt : 0x06 < 128 := by decide

theorem strp_lt : 0x0e < 128 := by decide

theorem addr_lt : 0x01 < 128 := by decide

/-- A unit with its line numbers. -/
def linedAbbreviation : Abbreviation where
  code := .small 1 one_low
  tag := .small 0x11 compileUnit_low
  hasChildren := true
  attributes := [smallAttribute ⟨0x10, stmtList_lt⟩ ⟨0x06, data4_lt⟩]

/-- A subprogram with a name in the pool and its bounds. -/
def subprogramAbbreviation : Abbreviation where
  code := .small 2 two_low
  tag := .small 0x2e subprogram_low
  hasChildren := false
  attributes := [smallAttribute ⟨0x03, name_lt⟩ ⟨0x0e, strp_lt⟩,
    smallAttribute ⟨0x11, lowPc_lt⟩ ⟨0x01, addr_lt⟩,
    smallAttribute ⟨0x12, highPc_lt⟩ ⟨0x01, addr_lt⟩]

/-- One function of eight bytes at the address `0x100`. -/
def oneFunction : CompUnit where
  version := 3
  abbrevOffset := 0
  abbreviations := [linedAbbreviation, subprogramAbbreviation]
  tree :=
    { root := ⟨.small 1 one_low, linedAbbreviation, [.data4 0]⟩
      children := .cons ⟨.small 2 two_low, subprogramAbbreviation,
        [.strp 0, .addr 0x100, .addr 0x108]⟩ .nil .nil }

/-- The first line, from the beginning of the function to its end. -/
def oneFunctionLines : List Instruction :=
  [.setAddress (.small 5 (by decide)) 0x100, .copy, .advancePc (.small 8 (by decide)),
    .endSequence (.small 1 one_low)]

def oneFunctionCode : List UInt8 := [0, 5, 2, 0, 1, 0, 0, 1, 2, 8, 0, 1, 1]

theorem sampleRange_nonzero : ∀ ad ∈ ([⟨0x100, 8⟩] : List ArangeDesc), ad.isLast = false := by
  decide

theorem noNul_f : ∀ b ∈ ([102] : List UInt8), b ≠ 0 := noNul_of_all rfl

def sampleImage : Image where
  units := [(⟨2, 0, 0, [⟨0x100, 8⟩], sampleRange_nonzero⟩, oneFunction)]
  pool := fun _ => ⟨[102], noNul_f⟩
  lineUnits := fun _ => (sampleHeader 13, oneFunctionLines)

def sampleSections : Sections where
  debugAranges := encodeSets (sampleImage.units.map Prod.fst)
  debugAbbrev := encodeAbbrevs oneFunction.abbreviations
  debugInfo := oneFunction.encodeHeader ++ oneFunction.tree.bytes
  debugLine := sampleSection oneFunctionCode
  debugStr := [102, 0]

theorem linesIn_sample : LinesIn sampleSections 0 (sampleHeader 13) oneFunctionLines where
  executable :=
    { unit :=
        { decodes := ⟨31, by decide +kernel, rfl⟩
          behind := Nat.zero_le _
          lies := ⟨[], by decide +kernel⟩
          ends := by decide +kernel
          format := by decide
          wellFormed := by
            intro ins hins
            simp only [oneFunctionLines, List.mem_cons, List.not_mem_nil, or_false] at hins
            rcases hins with rfl | rfl | rfl | rfl
            · exact ⟨by decide, by decide⟩
            · exact (by decide : (0x01 : UInt8) < 10)
            · exact (by decide : (0x02 : UInt8) < 10)
            · exact ⟨by decide, by decide⟩ }
      range := by decide
      short := by
        intro ins hins
        simp only [oneFunctionLines, List.mem_cons, List.not_mem_nil, or_false] at hins
        rcases hins with rfl | rfl | rfl | rfl
        · show Short _
          decide
        · exact trivial
        · show Short _
          decide
        · show Short _
          decide }
  makesRow := by decide +kernel
  files := by decide +kernel

theorem wellFormedSet_sample : WellFormedSet oneFunction.abbreviations where
  abbreviations := by
    intro a ha
    rcases List.mem_pair.mp ha with rfl | rfl
    · refine ⟨fits_small _ _, by decide, fits_small _ _, ?_⟩
      intro attr hattr
      rw [List.mem_singleton.mp hattr]
      exact smallAttribute_wellFormed (by decide)
    · refine ⟨fits_small _ _, by decide, fits_small _ _, ?_⟩
      intro attr hattr
      simp only [subprogramAbbreviation, List.mem_cons, List.not_mem_nil, or_false] at hattr
      rcases hattr with rfl | rfl | rfl <;> exact smallAttribute_wellFormed (by decide)
  codes := by unfold DistinctCodes; decide
  names := by unfold DistinctNames; decide

theorem in_sample : sampleImage.In sampleSections where
  nonempty := by simp [sampleImage]
  aranges := rfl
  units := by
    intro x hx
    rw [List.mem_singleton.mp hx]
    have hpaths : ∀ path ∈ oneFunction.paths 0, path ∈ [[(11, oneFunction.tree.root)],
        [(16, ⟨.small 2 two_low, subprogramAbbreviation, [.strp 0, .addr 0x100, .addr 0x108]⟩),
          (11, oneFunction.tree.root)]] := fun path h => h
    constructor
    · exact List.prefix_rfl
    · exact List.prefix_rfl
    · decide
    · exact wellFormedSet_sample
    · exact ⟨⟨by simp [oneFunction], fits_small _ _, rfl, .cons ⟨rfl, trivial⟩ .nil⟩,
        fun h => absurd h (by decide),
        ⟨⟨by simp [oneFunction], fits_small _ _, rfl,
          .cons ⟨rfl, trivial⟩ (.cons ⟨rfl, trivial⟩ (.cons ⟨rfl, trivial⟩ .nil))⟩,
          fun _ => rfl, trivial, trivial⟩, trivial⟩
    · intro path hpath e he v hv
      have hzero : v = 0 := by
        rcases List.mem_pair.mp (hpaths path hpath) with rfl | rfl
        · cases he
          simp [oneFunction] at hv
        · cases he
          simpa using hv
      rw [hzero]
      exact List.prefix_rfl
    · intro path hpath e he v hv
      have hroot : e = oneFunction.tree.root := by
        rcases List.mem_pair.mp (hpaths path hpath) with rfl | rfl
        · cases he
          rfl
        · cases he
          rfl
      rw [hroot] at hv
      cases hv
      exact linesIn_sample

/-- In the function there is the first line of the file, and behind it there is nothing. -/
theorem lookups_print_sample : ∃ p',
    DwarfParser.lookups sampleSections ⟨[], [], noLines⟩ [0x104, 0x200]
      = .ok (ascii "0x00000104 f (<no mangled name>) (a:1)\n" ++
          ascii "0x00000200 <unresolved>\n", p') := by
  obtain ⟨p', h⟩ := lookups_print in_sample ⟨[], [], noLines⟩ [0x104, 0x200]
  refine ⟨p', h.trans ?_⟩
  rw [show [0x104, 0x200].flatMap sampleImage.text
    = ascii "0x00000104 f (<no mangled name>) (a:1)\n" ++ ascii "0x00000200 <unresolved>\n" by
      decide +kernel]

end Metta.ParseDwarf
