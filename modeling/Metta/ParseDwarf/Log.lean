/-
  Metta.ParseDwarf.Log — the addresses of a log:
  `main` of tools/parsedwarf/parsedwarf.cpp.

  The tool reads a log line by line.  Behind a line that a backtrace starts with, each line with a
  bar has an address, up to the first line without one, and the tool prints what it finds for the
  address.  The kernel writes its log through the debug port.

    • `getlines`, `strtoul`, `readLog` — the tool,
    • `Quiet` — a text of lines that mean nothing to it,
    • `readLines_unmarked`, `readLines_frames` — what it does with lines and with a backtrace,
    • `Event`, `prints` — a run of the kernel, and its calls of the console,
    • `port_dumpRegs` — what a fault writes, `readLog_prints` — the tool says where each was.
-/
import Metta.Debugger.Backtrace
import Metta.ParseDwarf.AddressLookup

namespace Metta.ParseDwarf

open Metta.Machine Metta.Debugger Metta.DefaultConsole

/-! ## §1. The tool. -/

def newline : UInt8 := '\n'.toUInt8

/-- The lines that `getline` reads.  The last one may be without its end. -/
def getlines (input : List UInt8) : List (List UInt8) :=
  if _hend : input = [] then []
  else
    (input.takeWhile fun b => b ≠ newline) ::
      getlines ((input.dropWhile fun b => b ≠ newline).drop 1)
termination_by input.length
decreasing_by
  have hle := (List.dropWhile_suffix fun b => decide (b ≠ newline) : _ <:+ input).length_le
  have hpos := List.length_pos_iff.mpr _hend
  rw [List.length_drop]
  omega

/-- `strmid`. -/
def strmid (str : List UInt8) (pos len : Nat) : List UInt8 := (str.drop pos).take len

/-- `isspace`. -/
def isSpace (b : UInt8) : Bool := b = ' '.toUInt8 || (9 ≤ b && b ≤ 13)

/-- The value of a digit, or of a letter that stands for one. -/
def digitValue (b : UInt8) : Option Nat :=
  if '0'.toUInt8 ≤ b ∧ b ≤ '9'.toUInt8 then some (b.toNat - 48)
  else if 'a'.toUInt8 ≤ b ∧ b ≤ 'z'.toUInt8 then some (b.toNat - 87)
  else if 'A'.toUInt8 ≤ b ∧ b ≤ 'Z'.toUInt8 then some (b.toNat - 55)
  else none

/-- The digits of the base that a text begins with. -/
def digitsOf (base : Nat) : List UInt8 → List Nat
  | [] => []
  | b :: bs =>
      match digitValue b with
      | none => []
      | some d => if d < base then d :: digitsOf base bs else []

/-- The sign of a number, and the text behind it. -/
def splitSign : List UInt8 → Bool × List UInt8
  | [] => (false, [])
  | b :: bs =>
      if b = '-'.toUInt8 then (true, bs)
      else if b = '+'.toUInt8 then (false, bs)
      else (false, b :: bs)

/-- The base that a number is in by its prefix, and the text behind the prefix. -/
def splitBase (s : List UInt8) : Nat × List UInt8 :=
  if s.take 1 = ascii "0" then
    if (s.drop 1).take 1 = ascii "x" ∨ (s.drop 1).take 1 = ascii "X" then
      if digitsOf 16 (s.drop 2) = [] then (8, s) else (16, s.drop 2)
    else (8, s)
  else (10, s)

/-- `strtoul(s, NULL, 0)`, for words of 32 bits. -/
def strtoul (s : List UInt8) : UInt32 :=
  let (negative, s) := splitSign (s.dropWhile isSpace)
  let (base, s) := splitBase s
  let value := (digitsOf base s).foldl (fun value d => value * base + d) 0
  if wordSize ≤ value then 0xffffffff
  else if negative then -UInt32.ofNat value
  else UInt32.ofNat value

/-- The loop of `main` over the lines of the log: what is printed, and the parser behind it. -/
def readLines (sec : Sections) : List (List UInt8) → Bool → DwarfParser →
    Except (Fault Trouble) (List UInt8 × DwarfParser)
  | [], _, p => .ok ([], p)
  | str :: input, inStackDump, p => do
      let isFrame := (ascii "| ").isPrefixOf str
      let (text, p) ←
        if inStackDump && isFrame then do
          let (_, text, p) ← p.lookup sec (strtoul (strmid str 2 10))
          .ok (text, p)
        else .ok ([], p)
      let inStackDump := (inStackDump && isFrame) || (ascii "*** Backtrace ***").isPrefixOf str
      let (rest, p) ← readLines sec input inStackDump p
      .ok (text ++ rest, p)

/-- `main`, for the format of this system and a log. -/
def readLog (sec : Sections) (input : List UInt8) (p : DwarfParser) :
    Except (Fault Trouble) (List UInt8 × DwarfParser) :=
  readLines sec (getlines input) false p

/-! ## §2. Lines and numbers. -/

/-- A text of lines. -/
def unlines (lines : List (List UInt8)) : List UInt8 := lines.flatMap fun line => line ++ [newline]

@[simp] theorem unlines_nil : unlines [] = [] := rfl

@[simp] theorem unlines_cons (line : List UInt8) (lines : List (List UInt8)) :
    unlines (line :: lines) = line ++ [newline] ++ unlines lines := rfl

theorem getlines_line {line : List UInt8} (hline : newline ∉ line) (input : List UInt8) :
    getlines (line ++ [newline] ++ input) = line :: getlines input := by
  have hne : ∀ b ∈ line, b ≠ newline := fun b hb h => hline (h ▸ hb)
  rw [getlines, dif_neg (by simp)]
  rw [List.append_assoc, List.takeWhile_append_of_pos (by simpa using hne),
    List.dropWhile_append_of_pos (by simpa using hne)]
  simp

/-- Lines are read one after the other. -/
theorem getlines_unlines {lines : List (List UInt8)} (hlines : ∀ line ∈ lines, newline ∉ line)
    (input : List UInt8) : getlines (unlines lines ++ input) = lines ++ getlines input := by
  induction lines with
  | nil => rfl
  | cons line lines ih =>
      rw [unlines_cons, List.append_assoc, getlines_line (hlines line List.mem_cons_self),
        ih fun l hl => hlines l (List.mem_cons_of_mem _ hl)]
      rfl

theorem digitValue_hexdigit {d : Nat} (hd : d < 16) : digitValue (hexdigit d) = some d := by
  interval_cases d <;> rfl

/-- Digits of the base are all taken. -/
theorem digitsOf_hexdigits {ds : List Nat} (hds : ∀ d ∈ ds, d < 16) :
    digitsOf 16 (ds.map hexdigit) = ds := by
  induction ds with
  | nil => rfl
  | cons d ds ih =>
      have hd := hds d List.mem_cons_self
      rw [List.map_cons, digitsOf, digitValue_hexdigit hd]
      dsimp only
      rw [if_pos hd, ih fun x hx => hds x (List.mem_cons_of_mem _ hx)]

/-- **A word is read as it was written.** -/
theorem strtoul_hexadecimal (n : UInt32) : strtoul (hexadecimal n.toNat) = n := by
  have hlt := n.toNat_lt
  let ds := [7, 6, 5, 4, 3, 2, 1, 0].map fun i => n.toNat / 16 ^ i % 16
  have hds : ∀ d ∈ ds, d < 16 := by
    intro d hd
    obtain ⟨i, -, rfl⟩ := List.mem_map.mp hd
    exact Nat.mod_lt _ (by decide)
  have htext : hexadecimal n.toNat = ascii "0x" ++ ds.map hexdigit := by
    unfold hexadecimal
    rw [List.map_map]
    rfl
  have hdigits := digitsOf_hexdigits hds
  have hvalue : ds.foldl (fun value d => value * 16 + d) 0 = n.toNat := by
    show ((((((((0 * 16 + n.toNat / 16 ^ 7 % 16) * 16 + n.toNat / 16 ^ 6 % 16) * 16
      + n.toNat / 16 ^ 5 % 16) * 16 + n.toNat / 16 ^ 4 % 16) * 16
      + n.toNat / 16 ^ 3 % 16) * 16 + n.toNat / 16 ^ 2 % 16) * 16
      + n.toNat / 16 ^ 1 % 16) * 16 + n.toNat / 16 ^ 0 % 16) = n.toNat
    norm_num only
    omega
  have hbase : splitBase (ascii "0x" ++ ds.map hexdigit) = (16, ds.map hexdigit) := by
    unfold splitBase
    rw [if_pos (by rfl), if_pos (.inl rfl), if_neg]
    · rfl
    · show ¬ digitsOf 16 (ds.map hexdigit) = []
      rw [hdigits]
      exact List.cons_ne_nil _ _
  unfold strtoul
  rw [htext]
  have hspace : (ascii "0x" ++ ds.map hexdigit).dropWhile isSpace = ascii "0x" ++ ds.map hexdigit :=
    rfl
  have hsign : splitSign (ascii "0x" ++ ds.map hexdigit) = (false, ascii "0x" ++ ds.map hexdigit) :=
    rfl
  rw [hspace, hsign]
  dsimp only
  rw [hbase]
  dsimp only
  rw [hdigits, hvalue, if_neg (by simp only [wordSize]; omega)]
  exact UInt32.ofNat_toNat

/-! ## §3. What the tool does with a log. -/

/-- A line that means nothing to the tool. -/
def Unmarked (line : List UInt8) : Prop :=
  newline ∉ line ∧ (ascii "| ").isPrefixOf line = false ∧
    (ascii "*** Backtrace ***").isPrefixOf line = false

/-- A text of whole lines that mean nothing to the tool. -/
def Quiet (text : List UInt8) : Prop :=
  ∃ lines, text = unlines lines ∧ ∀ line ∈ lines, Unmarked line

/-- The line of a frame. -/
def frameLine (addr : UInt32) : List UInt8 := ascii "| " ++ hexadecimal addr.toNat

variable {sec : Sections} {img : Image}

/-- Unmarked lines are passed over; what comes behind does not depend on a dump before. -/
theorem readLines_unmarked {line : List UInt8} (hline : Unmarked line)
    (rest : List (List UInt8)) (inStackDump : Bool) (p : DwarfParser) :
    readLines sec (line :: rest) inStackDump p = readLines sec rest false p := by
  rw [readLines]
  dsimp only
  rw [hline.2.1, hline.2.2, Bool.and_false, Bool.false_or]
  show (readLines sec rest false p >>= _) = _
  cases readLines sec rest false p with
  | error e => rfl
  | ok x => rfl

theorem strmid_frameLine (addr : UInt32) : strmid (frameLine addr) 2 10 = hexadecimal addr.toNat := by
  unfold strmid frameLine
  rw [List.drop_left' (by decide +kernel)]
  exact List.take_of_length_le (by simp [hexadecimal])

/-- A frame in a dump is looked up. -/
theorem readLines_frame (h : img.In sec) (addr : UInt32) (p : DwarfParser) :
    ∃ p', ∀ rest, readLines sec (frameLine addr :: rest) true p
      = (readLines sec rest true p').map fun x => (img.text addr ++ x.1, x.2) := by
  obtain ⟨p', hlookup⟩ := lookup_prints h p addr
  refine ⟨p', fun rest => ?_⟩
  have hframe : (ascii "| ").isPrefixOf (frameLine addr) = true := by
    rw [List.isPrefixOf_iff_prefix]
    exact List.prefix_append _ _
  rw [readLines]
  dsimp only
  rw [hframe, strmid_frameLine, strtoul_hexadecimal, hlookup, Bool.and_self, if_pos rfl,
    Bool.true_or]
  show (readLines sec rest true p' >>= fun x => .ok (img.text addr ++ x.1, x.2)) = _
  cases readLines sec rest true p' with
  | error e => rfl
  | ok x => rfl

/-- **The frames of a dump** are looked up one after the other. -/
theorem readLines_frames (h : img.In sec) (addrs : List UInt32) (p : DwarfParser) :
    ∃ p', ∀ rest, readLines sec (addrs.map frameLine ++ rest) true p
      = (readLines sec rest true p').map fun x => (addrs.flatMap img.text ++ x.1, x.2) := by
  induction addrs generalizing p with
  | nil =>
      refine ⟨p, fun rest => ?_⟩
      show readLines sec rest true p = _
      cases readLines sec rest true p with
      | error e => rfl
      | ok x => rfl
  | cons addr addrs ih =>
      obtain ⟨p', hframe⟩ := readLines_frame h addr p
      obtain ⟨p'', hrest⟩ := ih p'
      refine ⟨p'', fun rest => ?_⟩
      rw [List.map_cons, List.cons_append, hframe, hrest, List.flatMap_cons]
      cases readLines sec rest true p'' with
      | error e => rfl
      | ok x => simp only [Except.map, List.append_assoc]

theorem frameMark_eq : ascii "| " = '|'.toUInt8 :: ascii " " := by decide +kernel

theorem dumpMark_eq : ascii "*** Backtrace ***" = '*'.toUInt8 :: ascii "** Backtrace ***" := by
  decide +kernel

/-- The line that a backtrace starts with. -/
def Header (line : List UInt8) : Prop :=
  newline ∉ line ∧ (ascii "*** Backtrace ***") <+: line

theorem Header.not_frame {line : List UInt8} (h : Header line) :
    (ascii "| ").isPrefixOf line = false := by
  obtain ⟨rest, rfl⟩ := h.2
  rw [frameMark_eq, dumpMark_eq, List.cons_append, List.isPrefixOf_cons_cons,
    beq_false_of_ne (by decide), Bool.false_and]

/-- Behind the first line of a backtrace there is a dump. -/
theorem readLines_header {line : List UInt8} (hline : Header line) (rest : List (List UInt8))
    (inStackDump : Bool) (p : DwarfParser) :
    readLines sec (line :: rest) inStackDump p = readLines sec rest true p := by
  have hmark : (ascii "*** Backtrace ***").isPrefixOf line = true :=
    List.isPrefixOf_iff_prefix.mpr hline.2
  rw [readLines]
  dsimp only
  rw [hline.not_frame, hmark, Bool.and_false, Bool.or_true]
  show (readLines sec rest true p >>= _) = _
  cases readLines sec rest true p with
  | error e => rfl
  | ok x => rfl

/-! ## §4. What the kernel writes. -/

/-- What goes on in the kernel, as far as the log is concerned: calls of the console, and faults
with the memory and the base pointer that the debugger finds. -/
inductive Event where
  | calls (ops : List Op)
  | fault (m : Memory) (ebp : Nat) (regs : Registers)

/-- The calls of the console in a run. -/
def prints (fuel : Nat) : List Event → Option (List Op)
  | [] => some []
  | .calls ops :: events => (prints fuel events).map fun rest => ops ++ rest
  | .fault m ebp regs :: events =>
      (dumpRegs m ebp regs fuel).bind fun dump => (prints fuel events).map fun rest => dump ++ rest

/-- Where a fault was: the address of it, and the ones of the callers, up to twenty frames. -/
def Event.addresses : Event → List UInt32
  | .calls _ => []
  | .fault m ebp regs => (traced m ebp regs.ebp.toNat regs.eip.toNat 20).map UInt32.ofNat

theorem sent_ne_newline {ch : UInt8} (h : ch ≠ newline) : sent ch ≠ newline := by
  unfold sent
  by_cases hr : ch = '\r'.toUInt8
  · rw [if_pos hr]
    exact h
  have hn : ¬ ch = '\n'.toUInt8 := h
  rw [if_neg hr, if_neg hn]
  by_cases ht : ch = '\t'.toUInt8
  · rw [if_pos ht]
    exact h
  rw [if_neg ht]
  unfold shown
  by_cases hlow : ch.toInt8 < 32
  · rw [if_pos hlow]
    decide
  · rw [if_neg hlow]
    exact h

theorem newline_notMem_hexadecimal (n : Nat) : newline ∉ hexadecimal n := by
  have hdigit : ∀ d < 16, hexdigit d ≠ newline := by decide
  unfold hexadecimal
  intro hmem
  rcases List.mem_cons.mp hmem with h | hmem
  · exact absurd h (by decide)
  rcases List.mem_cons.mp hmem with h | hmem
  · exact absurd h (by decide)
  · obtain ⟨i, -, hi⟩ := List.mem_map.mp hmem
    exact hdigit _ (Nat.mod_lt _ (by decide)) hi

theorem newline_notMem_frameLine (addr : UInt32) : newline ∉ frameLine addr := by
  intro hmem
  rcases List.mem_append.mp hmem with h | h
  · exact absurd h (by decide +kernel)
  · exact newline_notMem_hexadecimal _ h

/-- Calls that stay on the line. -/
def Inline (ops : List Op) : Prop := ∀ op ∈ ops, newline ∉ op.chars

theorem Inline.port {ops : List Op} (h : Inline ops) : newline ∉ port ops := by
  intro hmem
  obtain ⟨op, hop, hch⟩ := List.mem_flatMap.mp hmem
  obtain ⟨ch, hch, heq⟩ := List.mem_map.mp hch
  exact sent_ne_newline (fun hnl => h op hop (hnl ▸ hch)) heq

theorem inline_printStr {s : String} (h : newline ∉ ascii s) : newline ∉ (Op.printStr (ascii s)).chars :=
  fun hmem => h (List.takeWhile_subset _ hmem)

theorem inline_printWords {words : List (String × BitVec 32)}
    (h : ∀ name ∈ words.map Prod.fst, newline ∉ ascii name) : Inline (printWords words) := by
  intro op hop
  obtain ⟨word, hword, hop⟩ := List.mem_flatMap.mp hop
  rcases List.mem_pair.mp hop with rfl | rfl
  · exact inline_printStr (h word.1 (List.mem_map_of_mem hword))
  · rw [chars_printHex]
    exact newline_notMem_hexadecimal _

theorem inline_printFlags (eflags : BitVec 32) : Inline (printFlags eflags) := by
  have hnames : ∀ name ∈ eflagsBits, newline ∉ ascii name := by decide +kernel
  have hspace : newline ∉ ascii " " := by decide +kernel
  unfold printFlags
  intro op hop
  obtain ⟨bit, hbit, hop⟩ := List.mem_flatMap.mp hop
  have hop : op ∈ if eflags.getLsbD (31 - bit.2) = true then
      [Op.printStr (ascii " "), Op.printStr (ascii bit.1)] else [] := hop
  split at hop
  · rcases List.mem_pair.mp hop with h | h
    · rw [h]
      exact inline_printStr hspace
    · rw [h]
      exact inline_printStr (hnames bit.1 (List.fst_mem_of_mem_zipIdx hbit))
  · exact absurd hop List.not_mem_nil

theorem Inline.append {ops ops' : List Op} (h : Inline ops) (h' : Inline ops') :
    Inline (ops ++ ops') := by
  intro op hop
  rcases List.mem_append.mp hop with hop | hop
  · exact h op hop
  · exact h' op hop

/-- A line that begins with some other character means nothing. -/
theorem unmarked_of_head {c : UInt8} {line : List UInt8} (hnl : newline ∉ line)
    (hhead : line.head? = some c) (hbar : c ≠ '|'.toUInt8) (hstar : c ≠ '*'.toUInt8) :
    Unmarked line := by
  obtain ⟨rest, rfl⟩ := List.head?_eq_some_iff.mp hhead
  refine ⟨hnl, ?_, ?_⟩
  · rw [frameMark_eq, List.isPrefixOf_cons_cons, beq_false_of_ne (Ne.symm hbar), Bool.false_and]
  · rw [dumpMark_eq, List.isPrefixOf_cons_cons, beq_false_of_ne (Ne.symm hstar), Bool.false_and]

/-- The first character that some words print. -/
theorem head_printWords (name : String) (w : BitVec 32) (words : List (String × BitVec 32))
    (rest : List Op) {c : UInt8} (hhead : (ascii name).head? = some c) (hc : c ≠ 0)
    (hplain : sent c = c) :
    (port (printWords ((name, w) :: words) ++ rest)).head? = some c := by
  obtain ⟨cs, hcs⟩ := List.head?_eq_some_iff.mp hhead
  show (((ascii name).takeWhile (· ≠ 0)).map sent ++ _).head? = some c
  rw [hcs, List.takeWhile_cons_of_pos (by simpa using hc), List.map_cons, hplain]
  rfl

/-- The lines in front of a backtrace. -/
def linesBefore (regs : Registers) : List (List UInt8) :=
  [[], port [rule],
    port (printWords [("Interrupt ", regs.intNo), (", error code ", regs.errCode)]),
    port (printWords [("     EAX:", regs.eax), (" EBX:", regs.ebx), (" ECX:", regs.ecx),
      (" EDX:", regs.edx)]),
    port (printWords [("     ESI:", regs.esi), (" EDI:", regs.edi), (" EBP:", regs.ebp),
      (" ESP:", regs.esp)]),
    port (printWords [("user ESP:", regs.useresp), (" CS:", regs.cs), (" DS:", regs.ds),
      (" SS:", regs.ss)]),
    port (printWords [("     EIP:", regs.eip), (" EFLAGS:", regs.eflags)] ++
      printFlags regs.eflags)]

theorem unmarked_rule : Unmarked (port [rule]) := by
  exact unmarked_of_head (c := '='.toUInt8) (by decide +kernel) (by decide +kernel) (by decide)
    (by decide)

/-- Words behind their names, the first of which begins with some other character. -/
theorem unmarked_printWords {name : String} {w : BitVec 32} {words : List (String × BitVec 32)}
    {rest : List Op} (c : UInt8) (names : List String) (hhead : (ascii name).head? = some c)
    (hc : c ≠ 0 ∧ sent c = c ∧ c ≠ '|'.toUInt8 ∧ c ≠ '*'.toUInt8)
    (hwords : words.map Prod.fst = names) (hnames : ∀ x ∈ name :: names, newline ∉ ascii x)
    (hrest : Inline rest) : Unmarked (port (printWords ((name, w) :: words) ++ rest)) := by
  have hinline : Inline (printWords ((name, w) :: words)) := by
    apply inline_printWords
    rw [List.map_cons, hwords]
    exact hnames
  exact unmarked_of_head (hinline.append hrest).port
    (head_printWords name w words rest hhead hc.1 hc.2.1) hc.2.2.1 hc.2.2.2

theorem unmarked_linesBefore (regs : Registers) : ∀ line ∈ linesBefore regs, Unmarked line := by
  have hnone : Inline [] := fun op hop => absurd hop List.not_mem_nil
  intro line hline
  simp only [linesBefore, List.mem_cons, List.not_mem_nil, or_false] at hline
  rcases hline with rfl | rfl | rfl | rfl | rfl | rfl | rfl
  · exact ⟨List.not_mem_nil, rfl, rfl⟩
  · exact unmarked_rule
  · rw [← List.append_nil (printWords _)]
    exact unmarked_printWords 'I'.toUInt8 [", error code "] (by decide +kernel)
      (by decide) rfl (by decide +kernel) hnone
  · rw [← List.append_nil (printWords _)]
    exact unmarked_printWords ' '.toUInt8 [" EBX:", " ECX:", " EDX:"] (by decide +kernel)
      (by decide) rfl (by decide +kernel) hnone
  · rw [← List.append_nil (printWords _)]
    exact unmarked_printWords ' '.toUInt8 [" EDI:", " EBP:", " ESP:"] (by decide +kernel)
      (by decide) rfl (by decide +kernel) hnone
  · rw [← List.append_nil (printWords _)]
    exact unmarked_printWords 'u'.toUInt8 [" CS:", " DS:", " SS:"] (by decide +kernel)
      (by decide) rfl (by decide +kernel) hnone
  · exact unmarked_printWords ' '.toUInt8 [" EFLAGS:"] (by decide +kernel)
      (by decide) rfl (by decide +kernel) (inline_printFlags _)

/-- The line that the backtrace of a fault starts with. -/
def backtraceLine : List UInt8 := ascii "*** Backtrace *** Tracing 20 stack frames:"

theorem header_backtraceLine : Header backtraceLine :=
  ⟨by decide +kernel, ascii " Tracing 20 stack frames:", by decide +kernel⟩

theorem port_line (ops : List Op) : port (ops ++ [.printChar eol]) = port ops ++ [newline] :=
  port_append _ _

theorem port_backtraceLine :
    port [.setColor .green, .printStr (ascii "*** Backtrace *** Tracing "), .printInt 20,
      .printStr (ascii " stack frames:"), .printChar eol] = backtraceLine ++ [newline] := by
  rw [port_cons, port_cons, port_cons, chars_printInt]
  decide +kernel

/-- A frame is written as it is read. -/
theorem port_printFrame {eip : Nat} (h : 1 < eip) :
    port (printFrame eip) = frameLine (UInt32.ofNat eip) ++ [newline] := by
  have hword : (BitVec.ofNat 32 eip).toNat = (UInt32.ofNat eip).toNat := by
    rw [BitVec.toNat_ofNat, UInt32.toNat_ofNat']
  unfold printFrame frameLine
  rw [if_pos h, port_cons, port_cons, chars_printHex, hword]
  have hdigits : (hexadecimal (UInt32.ofNat eip).toNat).map sent
      = hexadecimal (UInt32.ofNat eip).toNat := by
    have hdigit : ∀ d < 16, sent (hexdigit d) = hexdigit d := by decide
    unfold hexadecimal
    rw [List.map_cons, List.map_cons, List.map_map]
    congr 2
    exact List.map_congr_left fun i _ => hdigit _ (Nat.mod_lt _ (by decide))
  rw [hdigits, List.append_assoc]
  rfl

theorem port_printFrames {eips : List Nat} (h : ∀ eip ∈ eips, 1 < eip) :
    port (eips.flatMap printFrame) = unlines ((eips.map UInt32.ofNat).map frameLine) := by
  induction eips with
  | nil => rfl
  | cons eip eips ih =>
      rw [List.flatMap_cons, port_append, port_printFrame (h eip List.mem_cons_self),
        ih fun x hx => h x (List.mem_cons_of_mem _ hx)]
      rfl

theorem unlines_append (lines lines' : List (List UInt8)) :
    unlines (lines ++ lines') = unlines lines ++ unlines lines' := List.flatMap_append

/-- **The lines of a fault.** -/
theorem port_dumpRegs {fuel : Nat} (hfuel : 20 < fuel) (m : Memory) (ebp : Nat) (regs : Registers) :
    ∃ dump, dumpRegs m ebp regs fuel = some dump ∧
      port dump = unlines (linesBefore regs ++ [backtraceLine] ++
        (Event.fault m ebp regs).addresses.map frameLine ++ [port [rule]]) := by
  have hlt : ∀ eip ∈ traced m ebp regs.ebp.toNat regs.eip.toNat 20, 1 < eip := by
    intro eip heip
    simpa using (List.mem_filter.mp heip).2
  have hframes := port_printFrames hlt
  have hback := printBacktrace_eq (m := m) (n := 20) (by decide)
    (show (20 : BitVec 32).toInt.toNat < fuel from hfuel) ebp regs.ebp.toNat regs.eip.toNat
  rw [show (20 : BitVec 32).toInt.toNat = 20 from rfl] at hback
  have hfirst : port [.printChar eol, .setColor .red] = [newline] := rfl
  have hrule : port [rule, .printChar eol] = port [rule] ++ [newline] := port_line [rule]
  have haddrs : (Event.fault m ebp regs).addresses.map frameLine
      = ((traced m ebp regs.ebp.toNat regs.eip.toNat 20).map UInt32.ofNat).map frameLine := rfl
  unfold dumpRegs
  rw [hback, Option.map_some]
  refine ⟨_, rfl, ?_⟩
  rw [haddrs, unlines_append, unlines_append, unlines_append, ← hframes]
  unfold linesBefore
  simp only [unlines_cons, unlines_nil]
  rw [port_append, port_append, port_append, port_append, port_append, port_append, port_append,
    port_append, port_append (_ :: _), port_backtraceLine, port_line, port_line, port_line,
    port_line, port_line, hfirst, hrule]
  simp only [List.append_assoc, List.nil_append, List.append_nil]

/-! ## §5. What the tool says of a run. -/

theorem readLines_quiet (sec : Sections) {lines : List (List UInt8)} (h : ∀ line ∈ lines, Unmarked line)
    (inStackDump : Bool) (p : DwarfParser) :
    ∃ inStackDump', ∀ rest,
      readLines sec (lines ++ rest) inStackDump p = readLines sec rest inStackDump' p := by
  induction lines generalizing inStackDump with
  | nil => exact ⟨inStackDump, fun rest => rfl⟩
  | cons line lines ih =>
      obtain ⟨inStackDump', hrest⟩ := ih (fun l hl => h l (List.mem_cons_of_mem _ hl)) false
      refine ⟨inStackDump', fun rest => ?_⟩
      rw [List.cons_append, readLines_unmarked (h line List.mem_cons_self), hrest]

/-- **One fault** in a log. -/
theorem readLines_fault (h : img.In sec) {fuel : Nat} (hfuel : 20 < fuel) (m : Memory) (ebp : Nat)
    (regs : Registers) (inStackDump : Bool) (p : DwarfParser) :
    ∃ dump p', dumpRegs m ebp regs fuel = some dump ∧ ∀ text,
      readLines sec (getlines (port dump ++ text)) inStackDump p
        = (readLines sec (getlines text) false p').map fun x =>
            ((Event.fault m ebp regs).addresses.flatMap img.text ++ x.1, x.2) := by
  obtain ⟨dump, hdump, hport⟩ := port_dumpRegs hfuel m ebp regs
  obtain ⟨flag, hbefore⟩ := readLines_quiet sec (unmarked_linesBefore regs) inStackDump p
  obtain ⟨p', hframes⟩ := readLines_frames h (Event.fault m ebp regs).addresses p
  refine ⟨dump, p', hdump, fun text => ?_⟩
  have hlines : ∀ line ∈ linesBefore regs ++ [backtraceLine] ++
      (Event.fault m ebp regs).addresses.map frameLine ++ [port [rule]], newline ∉ line := by
    intro line hline
    simp only [List.mem_append, List.mem_singleton, List.mem_map] at hline
    rcases hline with ((hline | rfl) | ⟨addr, -, rfl⟩) | rfl
    · exact (unmarked_linesBefore regs line hline).1
    · exact header_backtraceLine.1
    · exact newline_notMem_frameLine addr
    · exact unmarked_rule.1
  rw [hport, getlines_unlines hlines, List.append_assoc, List.append_assoc, List.append_assoc,
    hbefore, List.singleton_append, readLines_header header_backtraceLine, hframes,
    List.singleton_append, readLines_unmarked unmarked_rule]

/-- **The log of a run read back**: for each fault the tool says where it was and where it was
called from, and nothing else. -/
theorem readLog_prints (h : img.In sec) {events : List Event}
    (hquiet : ∀ ops, Event.calls ops ∈ events → Quiet (port ops)) {fuel : Nat} (hfuel : 20 < fuel)
    (p : DwarfParser) :
    ∃ ops p', prints fuel events = some ops ∧
      readLog sec (port ops) p = .ok ((events.flatMap Event.addresses).flatMap img.text, p') := by
  unfold readLog
  -- the induction is over the events, with any dump in front of them
  generalize false = inStackDump
  induction events generalizing inStackDump p with
  | nil =>
      refine ⟨[], p, rfl, ?_⟩
      rw [port_nil, getlines, dif_pos rfl]
      rfl
  | cons event events ih =>
      have hrest : ∀ ops, Event.calls ops ∈ events → Quiet (port ops) :=
        fun ops hops => hquiet ops (List.mem_cons_of_mem _ hops)
      cases event with
      | calls ops =>
          obtain ⟨lines, hport, hlines⟩ := hquiet ops List.mem_cons_self
          obtain ⟨flag, hread⟩ := readLines_quiet sec hlines inStackDump p
          obtain ⟨rest, p', hprints, hlog⟩ := ih hrest p flag
          refine ⟨ops ++ rest, p', ?_, ?_⟩
          · unfold prints
            rw [hprints]
            rfl
          · rw [port_append, hport, getlines_unlines fun line hline => (hlines line hline).1, hread,
              hlog]
            rfl
      | fault m ebp regs =>
          obtain ⟨dump, p', hdump, hread⟩ := readLines_fault h hfuel m ebp regs inStackDump p
          obtain ⟨rest, p'', hprints, hlog⟩ := ih hrest p' false
          refine ⟨dump ++ rest, p'', ?_, ?_⟩
          · unfold prints
            rw [hdump, hprints]
            rfl
          · rw [port_append, hread, hlog, List.flatMap_cons, List.flatMap_append]
            rfl

/-- A fault in the function of the sample, with one caller of which nothing is known. -/
def sampleEvents : List Event :=
  [.calls [.printStr (ascii "boot"), .printChar eol],
    .fault twoFrames 0 ⟨0, 0, 0, 0x100, 0, 0, 0, 0, 0, 13, 0, 0x104, 0, 0, 0, 0⟩]

theorem quiet_sample : ∀ ops, Event.calls ops ∈ sampleEvents → Quiet (port ops) := by
  intro ops hops
  have hfirst : ops = [.printStr (ascii "boot"), .printChar eol] := by
    rcases List.mem_pair.mp hops with h | h
    · exact Event.calls.inj h
    · cases h
  rw [hfirst]
  refine ⟨[ascii "boot"], by decide +kernel, ?_⟩
  intro line hline
  rw [List.mem_singleton.mp hline]
  unfold Unmarked
  decide +kernel

theorem readLog_prints_sample : ∃ ops p', prints 21 sampleEvents = some ops ∧
    readLog sampleSections (port ops) ⟨[], [], noLines⟩
      = .ok (ascii "0x00000104 f (<no mangled name>) (a:1)\n" ++
          ascii "0x00001234 <unresolved>\n", p') := by
  obtain ⟨ops, p', hops, hlog⟩ :=
    readLog_prints in_sample quiet_sample (by decide : 20 < 21) ⟨[], [], noLines⟩
  refine ⟨ops, p', hops, hlog.trans ?_⟩
  rw [show (sampleEvents.flatMap Event.addresses).flatMap sampleImage.text
    = ascii "0x00000104 f (<no mangled name>) (a:1)\n" ++ ascii "0x00001234 <unresolved>\n" by
      decide +kernel]

end Metta.ParseDwarf
