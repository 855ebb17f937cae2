/-
  Metta.DefaultConsole.Def — the text console.

  The console keeps the screen in `rambuf`, lines of 80 cells of two bytes, and copies it to
  the memory of the VGA board with `blit`.  A character goes to the cursor; when the cursor is
  behind the last line the next character first moves all lines up by one.

    • `Place` — where the console lies in memory,
    • `Console` — its fields, with the addresses that it has written through `rambuf`,
    • `printChar`, `printStr`, `printInt`, `printHex`, `newline` — the output functions,
    • `setColor`, `setBackground`, `setAttr` — the colours,
    • `Op`, `run` — calls one after the other.
-/
import Metta.Runtime.MemUtils

namespace Metta.DefaultConsole

open Metta.Machine Metta.Runtime

/-! ## §1. The object. -/

/-- Bytes of a line. -/
def LINE_PITCH : Nat := 160

def LINE_COUNT : Nat := 25

def TAB_PITCH : Nat := 16

/-- `sizeof(rambuf)`. -/
def rambufSize : Nat := 160 * 25

/-- The memory of the VGA board. -/
def videoram : Nat := 0xb8000

/-- A place for the console in memory: its buffer is in the address space, and is not the memory
of the VGA board. -/
structure Place where
  rambuf : Nat
  fits : rambuf + rambufSize < wordSize
  apart : rambuf + rambufSize ≤ videoram ∨ videoram + rambufSize ≤ rambuf

structure Console where
  mem : Memory
  cursor : Nat
  attr : UInt8
  /-- The addresses of the bytes that were written through `rambuf`. -/
  written : List Nat

variable (p : Place)

/-- `rambuf[cursor++] = v`. -/
def Console.put (c : Console) (v : UInt8) : Console where
  mem := c.mem.poke (p.rambuf + c.cursor) v
  cursor := add32 c.cursor 1
  attr := c.attr
  written := (p.rambuf + c.cursor) :: c.written

def Console.blit (c : Console) : Console :=
  { c with mem := copyMemory c.mem videoram p.rambuf rambufSize }

def Console.scrollUp (c : Console) : Console where
  mem :=
    let moved := moveMemory c.mem p.rambuf (p.rambuf + LINE_PITCH) (rambufSize - LINE_PITCH)
    fillMemory moved (p.rambuf + LINE_PITCH * (LINE_COUNT - 1)) 0 LINE_PITCH
  cursor := c.cursor
  attr := c.attr
  written := List.range' p.rambuf (rambufSize - LINE_PITCH)
    ++ List.range' (p.rambuf + LINE_PITCH * (LINE_COUNT - 1)) LINE_PITCH ++ c.written

/-- The cursor only: the two bytes of it that the VGA board is told are not kept. -/
def Console.locate (c : Console) (row col : Nat) : Console :=
  { c with cursor := row * LINE_PITCH + col * 2 }

/-- The constructor, of an object whose `attr` is what the memory had there before. -/
def construct (m : Memory) (attr : UInt8) : Console :=
  Console.locate
    { mem := copyMemory m p.rambuf videoram rambufSize
      cursor := 0
      attr := attr
      written := List.range' p.rambuf rambufSize } LINE_COUNT 0

/-! ## §2. Characters. -/

/-- `char` is signed, so the upper half is below the space too. -/
def shown (ch : UInt8) : UInt8 := if ch.toInt8 < 32 then '.'.toUInt8 else ch

/-- `do` blank cells `while (cursor % pitch != 0)`.  Nothing is returned when the loop still goes
on after `fuel` turns. -/
def Console.blanks (pitch : Nat) : Nat → Console → Option Console
  | 0, _ => none
  | fuel + 1, c =>
      let c := (c.put p ' '.toUInt8).put p c.attr
      if c.cursor % pitch ≠ 0 then Console.blanks pitch fuel c else some c

/-- The check for the end of the screen that `print_char` starts with. -/
def Console.wrap (c : Console) : Console :=
  if LINE_PITCH * LINE_COUNT ≤ c.cursor then
    { c.scrollUp p with cursor := LINE_PITCH * (LINE_COUNT - 1) }
  else c

/-- The `switch` of `print_char`. -/
def Console.place (c : Console) (ch : UInt8) : Option Console :=
  if ch = '\r'.toUInt8 then some c
  else if ch = '\n'.toUInt8 then c.blanks p LINE_PITCH LINE_PITCH
  else if ch = '\t'.toUInt8 then c.blanks p TAB_PITCH TAB_PITCH
  else some ((c.put p (shown ch)).put p c.attr)

def Console.printChar (c : Console) (ch : UInt8) : Option Console := (c.wrap p).place p ch

/-- `console_t::eol`. -/
def eol : UInt8 := '\n'.toUInt8

def Console.newline (c : Console) : Option Console := do
  let c ← c.printChar p eol
  return c.blit p

/-! ## §3. Strings and numbers. -/

/-- The characters in front of the NUL. -/
def Console.printChars (c : Console) : List UInt8 → Option Console
  | [] => some c
  | b :: bs => if b = 0 then some c else (c.printChar p b).bind fun c => c.printChars bs

def Console.printStr (c : Console) (str : List UInt8) : Option Console := do
  let c ← c.printChars p str
  return c.blit p

/-- `while (n / div == 0) div /= 10`.  For `n = 0` it would end in a division by zero. -/
def firstDiv (n div : Nat) : Nat :=
  if hdiv : div = 0 then 0
  else if n / div = 0 then firstDiv n (div / 10) else div
termination_by div

/-- `while (div > 0)`, with `n` as the unsigned number that the divisions make of it. -/
def Console.printDigits (c : Console) (n div : Nat) : Option Console :=
  if hdiv : 0 < div then
    (c.printChar p ('0'.toUInt8 + UInt8.ofNat (n / div))).bind fun c => c.printDigits (n % div) (div / 10)
  else some c
termination_by div

def Console.printSign (c : Console) (n : BitVec 32) : Option Console :=
  if n.toInt < 0 then c.printChar p '-'.toUInt8 else some c

def Console.printInt (c : Console) (n : BitVec 32) : Option Console := do
  if n = 0 then c.printChar p '0'.toUInt8
  else
    let c ← c.printSign p n
    -- the most negative number is its own negative, and positive as an unsigned one
    let n := if n.toInt < 0 then -n else n
    let c ← c.printDigits p n.toNat (firstDiv n.toNat 1000000000)
    return c.blit p

def hexdigits : List UInt8 := "0123456789abcdef".toList.map Char.toUInt8

/-- `hexdigits[d]`. -/
def hexdigit (d : Nat) : UInt8 := hexdigits.getD d 0

def Console.printByteInternal (c : Console) (n : UInt8) : Option Console := do
  let c ← c.printChar p (hexdigit ((n.toNat >>> 4) &&& 0xF))
  c.printChar p (hexdigit (n.toNat &&& 0xF))

/-- The number as four bytes, the highest first. -/
def hexBytes (n : BitVec 32) : List UInt8 :=
  [24, 16, 8, 0].map fun s => UInt8.ofNat ((n.toNat >>> s) &&& 0xff)

def Console.printHex (c : Console) (n : BitVec 32) : Option Console := do
  let c ← c.printStr p ['0'.toUInt8, 'x'.toUInt8]
  let c ← (hexBytes n).foldlM (fun c b => c.printByteInternal p b) c
  return c.blit p

/-! ## §4. Colours. -/

inductive Color where
  | black | blue | green | cyan | red | magenta | brown | lightgray
  | darkgray | lightblue | lightgreen | lightcyan | lightred | lightmagenta | yellow | white
  deriving DecidableEq, Repr

/-- The value of the enumerator. -/
def Color.value : Color → Nat
  | .black => 0 | .blue => 1 | .green => 2 | .cyan => 3 | .red => 4 | .magenta => 5
  | .brown => 6 | .lightgray => 7 | .darkgray => 8 | .lightblue => 9 | .lightgreen => 10
  | .lightcyan => 11 | .lightred => 12 | .lightmagenta => 13 | .yellow => 14 | .white => 15

def withColor (attr : UInt8) (col : Color) : UInt8 :=
  UInt8.ofNat ((attr.toNat &&& 0xF0) ||| (col.value &&& 0x0F))

/-- The shift by eight takes the colour out of the byte. -/
def withBackground (attr : UInt8) (col : Color) : UInt8 :=
  UInt8.ofNat ((attr.toNat &&& 0x0F) ||| ((col.value &&& 0x0F) <<< 8))

def Console.setColor (c : Console) (col : Color) : Console :=
  { c with attr := withColor c.attr col }

def Console.setBackground (c : Console) (col : Color) : Console :=
  { c with attr := withBackground c.attr col }

def Console.setAttr (c : Console) (fore back : Color) : Console :=
  (c.setColor fore).setBackground back

/-! ## §5. Runs. -/

/-- A call of one of the functions of the console. -/
inductive Op where
  | printChar (ch : UInt8)
  | printStr (str : List UInt8)
  | printInt (n : BitVec 32)
  | printHex (n : BitVec 32)
  | newline
  | setColor (col : Color)
  | setBackground (col : Color)
  | setAttr (fore back : Color)
  deriving DecidableEq, Repr

def Console.call (c : Console) : Op → Option Console
  | .printChar ch => c.printChar p ch
  | .printStr str => c.printStr p str
  | .printInt n => c.printInt p n
  | .printHex n => c.printHex p n
  | .newline => c.newline p
  | .setColor col => some (c.setColor col)
  | .setBackground col => some (c.setBackground col)
  | .setAttr fore back => some (c.setAttr fore back)

def run (c : Console) (ops : List Op) : Option Console := ops.foldlM (fun c op => c.call p op) c

end Metta.DefaultConsole
