/-
  Metta.DefaultConsole.Window — the screen shows the end of the output.

  What has been printed is a list of cells that only grows, after the ones of the screen that
  the console found.  The buffer is a window on the end of that list: as many of its last bytes
  as the cursor says, and zeros.

    • `Output`, `Output.call` — the cells of an output,
    • `decimal`, `hexadecimal` — the numerals,
    • `Holds` — the window, byte by byte,
    • `Holds.put`, `Holds.wrap` — what a byte and a scroll keep of it,
    • `Shows` — the window, cell by cell, `printChar_shows`, `printInt_shows`,
    • `run_shows` — it is kept by any calls, `run_shows_scrolled`.
-/
import Metta.DefaultConsole.Def
import Metta.Machine.Bytes

namespace Metta.DefaultConsole

open Metta.Machine Metta.Machine.Memory Metta.Runtime

/-! ## §1. What is printed. -/

/-- A character and its colours. -/
abbrev Cell := UInt8 × UInt8

/-- The cells of an output and the colours of the next one. -/
structure Output where
  cells : List Cell
  attr : UInt8

def bytes (cells : List Cell) : List UInt8 := cells.flatMap fun x => [x.1, x.2]

namespace Output

/-- Blank cells up to the next multiple of `width`, one at least. -/
def blanks (o : Output) (width : Nat) : Output :=
  { o with cells := o.cells
      ++ List.replicate (width - o.cells.length % width) (' '.toUInt8, o.attr) }

def char (o : Output) (ch : UInt8) : Output :=
  if ch = '\r'.toUInt8 then o
  else if ch = '\n'.toUInt8 then o.blanks 80
  else if ch = '\t'.toUInt8 then o.blanks 8
  else { o with cells := o.cells ++ [(shown ch, o.attr)] }

def chars (o : Output) (chs : List UInt8) : Output := chs.foldl char o

end Output

/-- The decimal numeral of a number. -/
def decimal (n : Int) : List UInt8 :=
  (if n < 0 then ['-'.toUInt8] else []) ++ (Nat.toDigits 10 n.natAbs).map Char.toUInt8

/-- The eight hexadecimal digits of a word, with `0x` in front. -/
def hexadecimal (n : Nat) : List UInt8 :=
  '0'.toUInt8 :: 'x'.toUInt8 :: [7, 6, 5, 4, 3, 2, 1, 0].map fun i => hexdigit (n / 16 ^ i % 16)

/-- What a call adds to an output. -/
def Output.call (o : Output) : Op → Output
  | .printChar ch => o.char ch
  | .printStr str => o.chars (str.takeWhile (· ≠ 0))
  | .printInt n => o.chars (decimal n.toInt)
  | .printHex n => o.chars (hexadecimal n.toNat)
  | .newline => o.char '\n'.toUInt8
  | .setColor col => { o with attr := withColor o.attr col }
  | .setBackground col => { o with attr := withBackground o.attr col }
  | .setAttr fore back => { o with attr := withBackground (withColor o.attr fore) back }

/-- The cells of the screen before the console is there. -/
def screen (m : Memory) : List Cell :=
  (List.range 2000).map fun i => (m.byte (videoram + 2 * i), m.byte (videoram + 2 * i + 1))

@[simp] theorem length_bytes (cells : List Cell) : (bytes cells).length = 2 * cells.length := by
  unfold bytes
  induction cells with
  | nil => rfl
  | cons x xs ih =>
      rw [List.flatMap_cons, List.length_append, ih, List.length_cons]
      show 2 + 2 * xs.length = 2 * (xs.length + 1)
      omega

theorem bytes_append (xs ys : List Cell) : bytes (xs ++ ys) = bytes xs ++ bytes ys :=
  List.flatMap_append

/-! ## §2. The window, byte by byte. -/

variable {p : Place} {c : Console} {L : List UInt8}

/-- The bytes in front of the cursor are the last ones of `L`, and the others are zero. -/
structure Holds (p : Place) (c : Console) (L : List UInt8) : Prop where
  inside : ∀ a ∈ c.written, p.rambuf ≤ a ∧ a < p.rambuf + rambufSize
  atMost : c.cursor ≤ rambufSize
  window : ∃ w, w <:+ L ∧ w.length = c.cursor ∧ HasBytes c.mem p.rambuf w
  rest : ∀ i, c.cursor ≤ i → i < rambufSize → c.mem.byte (p.rambuf + i) = 0
  column : c.cursor % LINE_PITCH = L.length % LINE_PITCH

/-- A byte of the window, by its distance from the end of the output. -/
theorem Holds.byte (h : Holds p c L) {i : Nat} {b : UInt8}
    (hb : L[L.length - c.cursor + i]? = some b) : c.mem.byte (p.rambuf + i) = b := by
  obtain ⟨w, hw, hlen, hm⟩ := h.window
  apply hm.byte
  rw [List.suffix_iff_eq_drop.mp hw, List.getElem?_drop, hlen, hb]

theorem put_cursor (h : Holds p c L) (v : UInt8) : (c.put p v).cursor = c.cursor + 1 := by
  have hle := h.atMost
  unfold Console.put
  apply add32_eq
  simp only [rambufSize, wordSize] at hle ⊢
  omega

/-- A byte at the cursor is one more byte of the output. -/
theorem Holds.put (h : Holds p c L) (hlt : c.cursor < rambufSize) (v : UInt8) :
    Holds p (c.put p v) (L ++ [v]) := by
  have hcursor := put_cursor h v
  -- the byte at the cursor, and no other
  have hbyte : ∀ x, (c.put p v).mem.byte x = if x = p.rambuf + c.cursor then v else c.mem.byte x :=
    fun x => rfl
  constructor
  · intro a ha
    rcases List.mem_cons.mp ha with rfl | ha
    · omega
    · exact h.inside a ha
  · omega
  · obtain ⟨w, hw, hlen, hm⟩ := h.window
    refine ⟨w ++ [v], (List.suffix_append_inj_of_length_eq rfl).mpr ⟨hw, rfl⟩, ?_, ?_⟩
    · rw [List.length_append, hlen, hcursor]
      rfl
    rw [hasBytes_append]
    constructor
    · refine hm.congr fun x hx hx' => ?_
      rw [hbyte, if_neg (by omega)]
    · rw [hasBytes_cons, hlen, hbyte, if_pos rfl]
      exact ⟨rfl, hasBytes_nil _ _⟩
  · intro i hi hi'
    rw [hbyte, if_neg (by omega)]
    exact h.rest i (by omega) hi'
  · have hcol := h.column
    rw [hcursor, List.length_append, Nat.add_mod, hcol, ← Nat.add_mod]
    rfl

/-- The buffer is not the memory of the VGA board. -/
theorem Holds.blit (h : Holds p c L) : Holds p (c.blit p) L := by
  have hsize : rambufSize = 4000 := rfl
  have hvideo : videoram = 0xb8000 := rfl
  have hfits := p.fits
  have hapart := p.apart
  have hbyte : ∀ x, p.rambuf ≤ x → x < p.rambuf + rambufSize →
      (c.blit p).mem.byte x = c.mem.byte x := by
    intro x hx hx'
    have hdest : videoram + rambufSize < wordSize := by decide
    show (copyMemory c.mem videoram p.rambuf rambufSize).byte x = _
    rw [byte_copyMemory_apart c.mem hdest hfits hapart, if_neg (by omega)]
  have hle := h.atMost
  refine ⟨h.inside, h.atMost, ?_, ?_, h.column⟩
  · obtain ⟨w, hw, hlen, hm⟩ := h.window
    exact ⟨w, hw, hlen, hm.congr fun x hx hx' => hbyte x hx (by omega)⟩
  · intro i hi hi'
    rw [hbyte _ (by omega) (by omega)]
    exact h.rest i hi hi'

/-- What a scroll leaves in the buffer. -/
theorem byte_scrollUp (c : Console) {i : Nat} (hi : i < rambufSize) :
    (c.scrollUp p).mem.byte (p.rambuf + i)
      = if i < rambufSize - LINE_PITCH then c.mem.byte (p.rambuf + (i + LINE_PITCH)) else 0 := by
  have hfits := p.fits
  have hsize : rambufSize = 4000 := rfl
  have hpitch : LINE_PITCH = 160 := rfl
  have hline : LINE_PITCH * (LINE_COUNT - 1) = 3840 := rfl
  show (fillMemory _ _ _ _).byte _ = _
  rw [byte_fillMemory _ _ (by omega)]
  by_cases hlast : i < rambufSize - LINE_PITCH
  · rw [if_neg (by omega), if_pos hlast]
    -- the source of the move is above its destination
    have hmoved := moved_of_le c.mem (show p.rambuf ≤ p.rambuf + LINE_PITCH by omega)
      (show p.rambuf + LINE_PITCH + (rambufSize - LINE_PITCH) ≤ wordSize by omega)
    rw [hmoved.copied i hlast]
    congr 1
    omega
  · rw [if_pos (by omega), if_neg hlast]

/-- **A scroll** takes the first line out of the window. -/
theorem Holds.wrap (h : Holds p c L) : Holds p (c.wrap p) L ∧ (c.wrap p).cursor < rambufSize := by
  have hsize : rambufSize = 4000 := rfl
  have hpitch : LINE_PITCH = 160 := rfl
  have hscreen : LINE_PITCH * LINE_COUNT = 4000 := rfl
  have hline : LINE_PITCH * (LINE_COUNT - 1) = 3840 := rfl
  unfold Console.wrap
  by_cases hend : LINE_PITCH * LINE_COUNT ≤ c.cursor
  · rw [if_pos hend]
    -- the cursor stands just behind the buffer, and goes to the last line
    have hfull : c.cursor = 4000 := by
      have := h.atMost
      omega
    show Holds p { c.scrollUp p with cursor := 3840 } L ∧ (3840 : Nat) < rambufSize
    refine ⟨⟨?_, ?_, ?_, ?_, ?_⟩, by omega⟩
    · intro a ha
      have ha : a ∈ List.range' p.rambuf (rambufSize - LINE_PITCH)
        ++ List.range' (p.rambuf + LINE_PITCH * (LINE_COUNT - 1)) LINE_PITCH ++ c.written := ha
      rw [List.mem_append, List.mem_append, List.mem_range'_1, List.mem_range'_1] at ha
      rcases ha with (ha | ha) | ha
      · omega
      · omega
      · exact h.inside a ha
    · show (3840 : Nat) ≤ rambufSize
      omega
    · -- the window loses its first line
      obtain ⟨w, hw, hlen, hm⟩ := h.window
      refine ⟨w.drop LINE_PITCH, (List.drop_suffix _ _).trans hw, ?_, ?_⟩
      · rw [List.length_drop, hlen, hfull]
        rfl
      · intro i hi
        rw [List.length_drop, hlen, hfull] at hi
        show (c.scrollUp p).mem.byte (p.rambuf + i) = _
        rw [byte_scrollUp c (by omega), if_pos (by omega), hm (i + LINE_PITCH) (by omega),
          List.getElem_drop]
        congr 1
        omega
    · -- behind the cursor the last line has been cleared
      intro i hi hi'
      have hi : 3840 ≤ i := hi
      show (c.scrollUp p).mem.byte (p.rambuf + i) = 0
      rw [byte_scrollUp c hi', if_neg (by omega)]
    · have hcol := h.column
      rw [hfull] at hcol
      show 3840 % LINE_PITCH = _
      rw [← hcol]
      rfl
  · rw [if_neg hend]
    exact ⟨h, by omega⟩

/-! ## §3. The window, cell by cell. -/

/-- The buffer shows the end of the output, in the colours of the output. -/
structure Shows (p : Place) (c : Console) (o : Output) : Prop where
  holds : Holds p c (bytes o.cells)
  attr : c.attr = o.attr

variable {o : Output}

theorem Shows.even (h : Shows p c o) : c.cursor % 2 = 0 := by
  have hcol := h.holds.column
  have hpitch : LINE_PITCH = 160 := rfl
  rw [length_bytes, hpitch] at hcol
  omega

/-- One more cell. -/
theorem Shows.cell (h : Shows p c o) (hlt : c.cursor < rambufSize) (ch : UInt8) :
    Shows p ((c.put p ch).put p c.attr) { o with cells := o.cells ++ [(ch, o.attr)] } ∧
      ((c.put p ch).put p c.attr).cursor = c.cursor + 2 := by
  have heven := h.even
  have hsize : rambufSize = 4000 := rfl
  have hfirst := h.holds.put hlt ch
  have hcursor := put_cursor h.holds ch
  have hsecond := hfirst.put (by omega) c.attr
  refine ⟨⟨?_, h.attr⟩, ?_⟩
  · rw [bytes_append]
    show Holds p _ (bytes o.cells ++ [ch, o.attr])
    rw [← h.attr]
    rwa [List.append_assoc] at hsecond
  · rw [put_cursor hfirst, hcursor]

/-- **Blank cells**, from a cursor that is `k` cells in front of the next multiple. -/
theorem Shows.blanks {width : Nat} (hwidth : 2 * width ∣ rambufSize) :
    ∀ {k fuel : Nat} {c : Console} {o : Output}, Shows p c o → c.cursor < rambufSize →
      0 < k → k ≤ width → k ≤ fuel → 2 * width ∣ c.cursor + 2 * k →
      ∃ c', c.blanks p (2 * width) fuel = some c' ∧
        Shows p c' { o with cells := o.cells ++ List.replicate k (' '.toUInt8, o.attr) } := by
  -- by induction on the cells that are left up to the multiple
  intro k fuel
  induction fuel generalizing k with
  | zero => intro c o _ _ hk _ hfuel; omega
  | succ fuel ih =>
      intro c o h hlt hk hkw hfuel hdvd
      obtain ⟨hcell, hcursor⟩ := h.cell hlt ' '.toUInt8
      have hturn : c.blanks p (2 * width) (fuel + 1)
          = if (c.cursor + 2) % (2 * width) ≠ 0 then
              ((c.put p ' '.toUInt8).put p c.attr).blanks p (2 * width) fuel
            else some ((c.put p ' '.toUInt8).put p c.attr) := by
        rw [← hcursor]
        rfl
      rw [hturn]
      by_cases hlast : k = 1
      · subst hlast
        rw [if_neg (by rw [Nat.mod_eq_zero_of_dvd hdvd]; decide)]
        exact ⟨_, rfl, hcell⟩
      · -- the next multiple is behind this cell, and not behind the buffer
        have hmore : (c.cursor + 2) % (2 * width) ≠ 0 := by
          intro h0
          have hsub := Nat.dvd_sub hdvd (Nat.dvd_of_mod_eq_zero h0)
          have := Nat.le_of_dvd (by omega) hsub
          omega
        have hroom : c.cursor + 2 < rambufSize := by
          have heven := h.even
          have hsize : rambufSize = 4000 := rfl
          rcases Nat.lt_or_ge (c.cursor + 2) rambufSize with h' | h'
          · exact h'
          · have heq : c.cursor + 2 = rambufSize := by omega
            rw [heq] at hmore
            exact absurd (Nat.mod_eq_zero_of_dvd hwidth) hmore
        rw [if_pos hmore]
        obtain ⟨c', hc', hs'⟩ := @ih (k - 1) _ _ hcell (by omega) (by omega) (by omega) (by omega)
          (by rw [hcursor, show c.cursor + 2 + 2 * (k - 1) = c.cursor + 2 * k by omega]; exact hdvd)
        refine ⟨c', hc', ?_⟩
        obtain ⟨j, rfl⟩ : ∃ j, k = j + 1 := ⟨k - 1, by omega⟩
        rw [List.replicate_succ, List.append_cons]
        exact hs'

theorem wrap_shows (h : Shows p c o) : Shows p (c.wrap p) o := by
  refine ⟨h.holds.wrap.1, ?_⟩
  unfold Console.wrap
  by_cases hend : LINE_PITCH * LINE_COUNT ≤ c.cursor
  · rw [if_pos hend]
    exact h.attr
  · rw [if_neg hend]
    exact h.attr

/-- Blank cells up to a multiple that divides the line. -/
theorem blanks_shows {width : Nat} (hpos : 0 < width) (h : Shows p c o)
    (hlt : c.cursor < rambufSize) (hwidth : 2 * width ∣ LINE_PITCH) {fuel : Nat}
    (hfuel : width ≤ fuel) :
    ∃ c', c.blanks p (2 * width) fuel = some c' ∧ Shows p c' (o.blanks width) := by
  have hcol := h.holds.column
  rw [length_bytes] at hcol
  have hmod : c.cursor % (2 * width) = 2 * (o.cells.length % width) := by
    calc c.cursor % (2 * width) = c.cursor % LINE_PITCH % (2 * width) :=
          (Nat.mod_mod_of_dvd _ hwidth).symm
      _ = 2 * o.cells.length % LINE_PITCH % (2 * width) := by rw [hcol]
      _ = 2 * o.cells.length % (2 * width) := Nat.mod_mod_of_dvd _ hwidth
      _ = 2 * (o.cells.length % width) := Nat.mul_mod_mul_left _ _ _
  have hrem : o.cells.length % width < width := Nat.mod_lt _ hpos
  apply h.blanks (hwidth.trans (by decide)) hlt (by omega) (by omega) (by omega)
  have hsplit := Nat.mod_add_div c.cursor (2 * width)
  refine ⟨c.cursor / (2 * width) + 1, ?_⟩
  rw [Nat.mul_add, Nat.mul_one]
  omega

theorem printChar_shows (h : Shows p c o) (ch : UInt8) :
    ∃ c', c.printChar p ch = some c' ∧ Shows p c' (o.char ch) := by
  have hwrap := wrap_shows h
  have hlt := h.holds.wrap.2
  unfold Console.printChar Console.place Output.char
  by_cases hr : ch = '\r'.toUInt8
  · rw [if_pos hr, if_pos hr]
    exact ⟨_, rfl, hwrap⟩
  rw [if_neg hr, if_neg hr]
  by_cases hn : ch = '\n'.toUInt8
  · rw [if_pos hn, if_pos hn]
    exact blanks_shows (show 0 < 80 by decide) hwrap hlt (by decide) (by decide)
  rw [if_neg hn, if_neg hn]
  by_cases ht : ch = '\t'.toUInt8
  · rw [if_pos ht, if_pos ht]
    exact blanks_shows (show 0 < 8 by decide) hwrap hlt (by decide) (by decide)
  rw [if_neg ht, if_neg ht]
  exact ⟨_, rfl, (hwrap.cell hlt (shown ch)).1⟩

/-! ## §4. Strings and numbers. -/

theorem printChars_shows (h : Shows p c o) (str : List UInt8) :
    ∃ c', c.printChars p str = some c' ∧ Shows p c' (o.chars (str.takeWhile (· ≠ 0))) := by
  induction str generalizing c o with
  | nil => exact ⟨c, rfl, h⟩
  | cons b bs ih =>
      unfold Console.printChars
      by_cases hb : b = 0
      · rw [if_pos hb, List.takeWhile_cons_of_neg (by simpa using hb)]
        exact ⟨c, rfl, h⟩
      · obtain ⟨c', hc', hs'⟩ := printChar_shows h b
        rw [if_neg hb, List.takeWhile_cons_of_pos (by simpa using hb), hc']
        exact ih hs'

theorem blit_shows (h : Shows p c o) : Shows p (c.blit p) o := ⟨h.holds.blit, h.attr⟩

theorem printStr_shows (h : Shows p c o) (str : List UInt8) :
    ∃ c', c.printStr p str = some c' ∧ Shows p c' (o.chars (str.takeWhile (· ≠ 0))) := by
  obtain ⟨c', hc', hs'⟩ := printChars_shows h str
  refine ⟨c'.blit p, ?_, blit_shows hs'⟩
  unfold Console.printStr
  rw [hc']
  rfl

theorem newline_shows (h : Shows p c o) :
    ∃ c', c.newline p = some c' ∧ Shows p c' (o.char '\n'.toUInt8) := by
  obtain ⟨c', hc', hs'⟩ := printChar_shows h eol
  refine ⟨c'.blit p, ?_, blit_shows hs'⟩
  unfold Console.newline
  rw [hc']
  rfl

/-- The lowest `k` decimal digits of a number, with leading zeros, the highest first. -/
def padded : Nat → Nat → List UInt8
  | 0, _ => []
  | k + 1, n => ('0'.toUInt8 + UInt8.ofNat (n / 10 ^ k)) :: padded k (n % 10 ^ k)

/-- The lowest digit comes off the end. -/
theorem padded_succ {k n : Nat} (hn : n < 10 ^ (k + 1)) :
    padded (k + 1) n = padded k (n / 10) ++ ['0'.toUInt8 + UInt8.ofNat (n % 10)] := by
  induction k generalizing n with
  | zero =>
      have hmod : n % 10 = n := Nat.mod_eq_of_lt (by omega)
      rw [hmod]
      unfold padded
      rw [pow_zero, Nat.div_one]
      rfl
  | succ k ih =>
      have hlow : n % 10 ^ (k + 1) < 10 ^ (k + 1) := Nat.mod_lt _ (by positivity)
      have hdiv : n % 10 ^ (k + 1) / 10 = n / 10 % 10 ^ k := by
        rw [pow_succ']
        exact Nat.mod_mul_right_div_self n 10 (10 ^ k)
      have hmod : n % 10 ^ (k + 1) % 10 = n % 10 :=
        Nat.mod_mod_of_dvd n (Dvd.intro_left _ (pow_succ 10 k).symm)
      have hhigh : n / 10 ^ (k + 1) = n / 10 / 10 ^ k := by
        rw [pow_succ', Nat.div_div_eq_div_mul]
      have hsplit : padded (k + 1 + 1) n
          = ('0'.toUInt8 + UInt8.ofNat (n / 10 ^ (k + 1))) :: padded (k + 1) (n % 10 ^ (k + 1)) :=
        rfl
      rw [hsplit, ih hlow, hdiv, hmod, hhigh]
      rfl

theorem digitChar_eq {d : Nat} (hd : d < 10) :
    (Nat.digitChar d).toUInt8 = '0'.toUInt8 + UInt8.ofNat d := by
  interval_cases d <;> rfl

/-- A number with `k + 1` digits. -/
theorem padded_eq_toDigits {k n : Nat} (hn : n < 10 ^ (k + 1)) (hk : k = 0 ∨ 10 ^ k ≤ n) :
    padded (k + 1) n = (Nat.toDigits 10 n).map Char.toUInt8 := by
  induction k generalizing n with
  | zero =>
      have hlt : n < 10 := by omega
      rw [padded_succ hn, Nat.toDigits_of_lt_base hlt, Nat.mod_eq_of_lt hlt]
      show _ = [(Nat.digitChar n).toUInt8]
      rw [digitChar_eq hlt]
      rfl
  | succ k ih =>
      have hk : 10 ^ (k + 1) ≤ n := hk.resolve_left (Nat.succ_ne_zero k)
      have hpos : 0 < 10 ^ k := by positivity
      have hbig : 10 ≤ n := by
        rw [pow_succ] at hk
        omega
      have hdiv : n / 10 < 10 ^ (k + 1) := by
        rw [pow_succ] at hn
        omega
      have hge : 10 ^ k ≤ n / 10 := by
        rw [pow_succ] at hk
        omega
      have hdigits : Nat.toDigits 10 n = Nat.toDigits 10 (n / 10) ++ [Nat.digitChar (n % 10)] := by
        rw [Nat.toDigits_eq_if (by decide), if_neg (by omega)]
      rw [padded_succ hn, ih hdiv (.inr hge), hdigits, List.map_append]
      congr 1
      show _ = [(Nat.digitChar (n % 10)).toUInt8]
      rw [digitChar_eq (Nat.mod_lt _ (by decide))]

theorem printDigits_shows (h : Shows p c o) (n k : Nat) :
    ∃ c', c.printDigits p n (10 ^ k) = some c' ∧ Shows p c' (o.chars (padded (k + 1) n)) := by
  induction k generalizing n c o with
  | zero =>
      obtain ⟨c', hc', hs'⟩ := printChar_shows h ('0'.toUInt8 + UInt8.ofNat (n / 1))
      refine ⟨c', ?_, hs'⟩
      unfold Console.printDigits
      rw [dif_pos (by decide), pow_zero, hc', Option.bind_some]
      unfold Console.printDigits
      exact dif_neg (by decide)
  | succ k ih =>
      obtain ⟨c', hc', hs'⟩ :=
        printChar_shows h ('0'.toUInt8 + UInt8.ofNat (n / 10 ^ (k + 1)))
      have hdiv : 10 ^ (k + 1) / 10 = 10 ^ k := by
        rw [pow_succ]
        exact Nat.mul_div_cancel _ (by decide)
      unfold Console.printDigits
      rw [dif_pos (by positivity), hc', Option.bind_some, hdiv]
      exact ih hs' _

/-- The first divisor leaves one digit. -/
theorem firstDiv_eq {n k : Nat} (hn : 0 < n) (hlt : n < 10 ^ (k + 1)) :
    ∃ j, firstDiv n (10 ^ k) = 10 ^ j ∧ n < 10 ^ (j + 1) ∧ 10 ^ j ≤ n := by
  induction k with
  | zero =>
      refine ⟨0, ?_, hlt, hn⟩
      unfold firstDiv
      rw [dif_neg (by decide), if_neg]
      rw [pow_zero, Nat.div_one]
      omega
  | succ k ih =>
      have hpos : 0 < 10 ^ (k + 1) := by positivity
      unfold firstDiv
      rw [dif_neg (by omega)]
      by_cases hzero : n / 10 ^ (k + 1) = 0
      · have hdiv : 10 ^ (k + 1) / 10 = 10 ^ k := by
          rw [pow_succ]
          exact Nat.mul_div_cancel _ (by decide)
        rw [if_pos hzero, hdiv]
        exact ih ((Nat.div_eq_zero_iff_lt hpos).mp hzero)
      · rw [if_neg hzero]
        refine ⟨k + 1, rfl, hlt, ?_⟩
        by_contra hlt'
        exact hzero (Nat.div_eq_of_lt (by omega))

/-- **A number is printed as its decimal numeral**, the most negative one too. -/
theorem printInt_shows (h : Shows p c o) (n : BitVec 32) :
    ∃ c', c.printInt p n = some c' ∧ Shows p c' (o.chars (decimal n.toInt)) := by
  by_cases hzero : n = 0
  · subst hzero
    unfold Console.printInt
    rw [if_pos rfl]
    exact printChar_shows h '0'.toUInt8
  -- the sign, and the number without it
  obtain ⟨c₁, hc₁, hs₁⟩ : ∃ c₁, c.printSign p n = some c₁ ∧
      Shows p c₁ (o.chars (if n.toInt < 0 then ['-'.toUInt8] else [])) := by
    unfold Console.printSign
    by_cases hneg : n.toInt < 0
    · rw [if_pos hneg, if_pos hneg]
      exact printChar_shows h '-'.toUInt8
    · rw [if_neg hneg, if_neg hneg]
      exact ⟨c, rfl, h⟩
  have habs : (if n.toInt < 0 then -n else n).toNat = n.toInt.natAbs := by
    have hlt := n.isLt
    have hne : n.toNat ≠ 0 := fun h0 => hzero (BitVec.eq_of_toNat_eq h0)
    by_cases hneg : n.toInt < 0
    · rw [if_pos hneg, BitVec.toNat_neg]
      rw [BitVec.toInt_eq_toNat_cond] at hneg ⊢
      split at hneg <;> omega
    · rw [if_neg hneg]
      rw [BitVec.toInt_eq_toNat_cond] at hneg ⊢
      split at hneg <;> omega
  have hpos : 0 < n.toInt.natAbs := by
    rw [Int.natAbs_pos]
    intro h0
    exact hzero (BitVec.eq_of_toInt_eq h0)
  have hlt : n.toInt.natAbs < 10 ^ (9 + 1) := by
    rw [← habs]
    exact lt_trans (BitVec.isLt _) (by decide)
  obtain ⟨j, hj, hjlt, hjge⟩ := firstDiv_eq hpos hlt
  obtain ⟨c₂, hc₂, hs₂⟩ := printDigits_shows hs₁ n.toInt.natAbs j
  refine ⟨c₂.blit p, ?_, blit_shows ?_⟩
  · unfold Console.printInt
    rw [if_neg hzero, hc₁]
    show (do
      let c ← c₁.printDigits p (if n.toInt < 0 then -n else n).toNat
        (firstDiv (if n.toInt < 0 then -n else n).toNat (10 ^ 9))
      return c.blit p) = _
    rw [habs, hj, hc₂]
    rfl
  · unfold decimal Output.chars
    rw [List.foldl_append, ← padded_eq_toDigits hjlt (.inr hjge)]
    exact hs₂

theorem printBytes_shows (h : Shows p c o) (bs : List UInt8) :
    ∃ c', bs.foldlM (Console.printByteInternal p) c = some c' ∧
      Shows p c' (o.chars (bs.flatMap fun b =>
        [hexdigit ((b.toNat >>> 4) &&& 0xF), hexdigit (b.toNat &&& 0xF)])) := by
  induction bs generalizing c o with
  | nil => exact ⟨c, rfl, h⟩
  | cons b bs ih =>
      obtain ⟨c₁, hc₁, hs₁⟩ := printChar_shows h (hexdigit ((b.toNat >>> 4) &&& 0xF))
      obtain ⟨c₂, hc₂, hs₂⟩ := printChar_shows hs₁ (hexdigit (b.toNat &&& 0xF))
      obtain ⟨c₃, hc₃, hs₃⟩ := ih hs₂
      refine ⟨c₃, ?_, hs₃⟩
      have hbyte : c.printByteInternal p b = some c₂ := by
        unfold Console.printByteInternal
        rw [hc₁]
        exact hc₂
      rw [List.foldlM_cons, hbyte]
      exact hc₃

/-- The two digits of a byte of the number. -/
theorem hexBytes_digits (n : BitVec 32) :
    ((hexBytes n).flatMap fun b =>
        [hexdigit ((b.toNat >>> 4) &&& 0xF), hexdigit (b.toNat &&& 0xF)])
      = [7, 6, 5, 4, 3, 2, 1, 0].map fun i => hexdigit (n.toNat / 16 ^ i % 16) := by
  have hbyte : ∀ s, (UInt8.ofNat ((n.toNat >>> s) &&& 0xff)).toNat = n.toNat / 2 ^ s % 256 := by
    intro s
    rw [UInt8.toNat_ofNat', Nat.shiftRight_eq_div_pow, Nat.and_two_pow_sub_one_eq_mod _ 8]
    exact Nat.mod_mod _ _
  have hmask : ∀ x : Nat, x &&& 0xF = x % 16 := fun x => Nat.and_two_pow_sub_one_eq_mod x 4
  have hshift : ∀ x : Nat, x >>> 4 = x / 16 := fun x => Nat.shiftRight_eq_div_pow x 4
  have hhigh : ∀ s, n.toNat / 2 ^ s % 256 / 16 % 16 = n.toNat / (2 ^ s * 16) % 16 := by
    intro s
    rw [← Nat.div_div_eq_div_mul]
    omega
  have hlow : ∀ s, n.toNat / 2 ^ s % 256 % 16 = n.toNat / 2 ^ s % 16 := fun s => by omega
  simp only [hexBytes, List.map_cons, List.map_nil, List.flatMap_cons, List.flatMap_nil,
    List.append_nil, List.cons_append, List.nil_append, hbyte, hmask, hshift, hhigh, hlow]
  norm_num only

theorem printHex_shows (h : Shows p c o) (n : BitVec 32) :
    ∃ c', c.printHex p n = some c' ∧ Shows p c' (o.chars (hexadecimal n.toNat)) := by
  obtain ⟨c₁, hc₁, hs₁⟩ := printStr_shows h ['0'.toUInt8, 'x'.toUInt8]
  obtain ⟨c₂, hc₂, hs₂⟩ := printBytes_shows hs₁ (hexBytes n)
  refine ⟨c₂.blit p, ?_, blit_shows ?_⟩
  · unfold Console.printHex
    rw [hc₁]
    show (do
      let c ← (hexBytes n).foldlM (Console.printByteInternal p) c₁
      return c.blit p) = _
    rw [hc₂]
    rfl
  · rw [hexBytes_digits] at hs₂
    exact hs₂

/-! ## §5. Runs. -/

theorem call_shows (h : Shows p c o) (op : Op) :
    ∃ c', c.call p op = some c' ∧ Shows p c' (o.call op) := by
  cases op with
  | printChar ch => exact printChar_shows h ch
  | printStr str => exact printStr_shows h str
  | printInt n => exact printInt_shows h n
  | printHex n => exact printHex_shows h n
  | newline => exact newline_shows h
  -- a colour changes nothing that is on the screen
  | setColor col =>
      refine ⟨_, rfl, ⟨h.holds.inside, h.holds.atMost, h.holds.window, h.holds.rest,
        h.holds.column⟩, ?_⟩
      show withColor c.attr col = withColor o.attr col
      rw [h.attr]
  | setBackground col =>
      refine ⟨_, rfl, ⟨h.holds.inside, h.holds.atMost, h.holds.window, h.holds.rest,
        h.holds.column⟩, ?_⟩
      show withBackground c.attr col = withBackground o.attr col
      rw [h.attr]
  | setAttr fore back =>
      refine ⟨_, rfl, ⟨h.holds.inside, h.holds.atMost, h.holds.window, h.holds.rest,
        h.holds.column⟩, ?_⟩
      show withBackground (withColor c.attr fore) back = withBackground (withColor o.attr fore) back
      rw [h.attr]

/-- The bytes of the screen. -/
theorem hasBytes_screen (m : Memory) (k : Nat) :
    HasBytes m videoram (bytes ((List.range k).map fun i =>
      (m.byte (videoram + 2 * i), m.byte (videoram + 2 * i + 1)))) := by
  induction k with
  | zero => exact hasBytes_nil _ _
  | succ k ih =>
      rw [List.range_succ, List.map_append, bytes_append, hasBytes_append, length_bytes,
        List.length_map, List.length_range]
      refine ⟨ih, ?_⟩
      show HasBytes m _ [_, _]
      rw [hasBytes_cons, hasBytes_cons]
      exact ⟨rfl, rfl, hasBytes_nil _ _⟩

/-- A screen and what is printed behind it, byte by byte. -/
theorem getElem?_bytes_screen (m : Memory) (cells : List Cell) (i : Nat) :
    (bytes (screen m ++ cells))[i]? =
      if i < rambufSize then some (m.byte (videoram + i)) else (bytes cells)[i - rambufSize]? := by
  have hlen : (bytes (screen m)).length = rambufSize := by
    rw [length_bytes, screen, List.length_map, List.length_range]
    rfl
  rw [bytes_append]
  split
  · rename_i hi
    rw [← hlen] at hi
    rw [List.getElem?_append_left hi, List.getElem?_eq_getElem hi]
    exact congrArg some (hasBytes_screen m 2000 i hi).symm
  · rename_i hi
    rw [List.getElem?_append_right (by omega), hlen]
/-- The console takes over what is on the screen. -/
theorem construct_shows (p : Place) (m : Memory) (attr : UInt8) :
    Shows p (construct p m attr) ⟨screen m, attr⟩ := by
  have hlen : (bytes (screen m)).length = rambufSize := by
    rw [length_bytes]
    unfold screen
    rw [List.length_map, List.length_range]
    rfl
  have hcursor : (construct p m attr).cursor = 4000 := rfl
  have hsize : rambufSize = 4000 := rfl
  suffices hholds : Holds p (construct p m attr) (bytes (screen m)) by
    constructor
    · dsimp only
      exact hholds
    · rfl
  refine ⟨?_, by omega, ?_, ?_, ?_⟩
  · intro a ha
    simp only [construct, Console.locate, List.mem_range'_1] at ha
    exact ha
  · refine ⟨bytes (screen m), List.suffix_rfl, ?_, ?_⟩
    · rw [hlen, hcursor, hsize]
    intro i hi
    show (copyMemory m p.rambuf videoram rambufSize).byte (p.rambuf + i) = _
    rw [byte_copyMemory_apart m p.fits (by decide) p.apart.symm, if_pos (by omega),
      Nat.add_sub_cancel_left]
    exact hasBytes_screen m 2000 i hi
  · intro i hi hi'
    omega
  · rw [hlen, hcursor, hsize]

/-- **The screen shows the end of the output**, after any calls: every call returns, the console
writes inside of its buffer, the cursor is at a cell of it or behind the last one, the bytes in
front of the cursor are the last bytes of the output, and the others are zero. -/
theorem run_shows (p : Place) (m : Memory) (attr : UInt8) (ops : List Op) :
    ∃ c, run p (construct p m attr) ops = some c ∧
      Shows p c (ops.foldl Output.call ⟨screen m, attr⟩) ∧ c.cursor % 2 = 0 := by
  unfold run
  suffices hrun : ∀ (ops : List Op) (c : Console) (o : Output), Shows p c o →
      ∃ c', ops.foldlM (fun c op => c.call p op) c = some c' ∧ Shows p c' (ops.foldl Output.call o) by
    obtain ⟨c, hc, hs⟩ := hrun ops _ _ (construct_shows p m attr)
    exact ⟨c, hc, hs, hs.even⟩
  intro ops
  induction ops with
  | nil => exact fun c o h => ⟨c, rfl, h⟩
  | cons op ops ih =>
      intro c o h
      obtain ⟨c₁, hc₁, hs₁⟩ := call_shows h op
      obtain ⟨c₂, hc₂, hs₂⟩ := ih c₁ _ hs₁
      refine ⟨c₂, ?_, hs₂⟩
      rw [List.foldlM_cons, hc₁]
      exact hc₂

/-- The buffer at the first megabyte. -/
def Place.megabyte : Place := ⟨0x100000, by decide, by decide⟩

/-- A memory with another byte at every address of a page. -/
def striped : Memory := ⟨fun a => UInt8.ofNat a, []⟩

/-- A letter, the rest of its line, and a letter. -/
def twoLines : List Op := [.printStr ['a'.toUInt8, '\n'.toUInt8, 'b'.toUInt8, 0]]

/-- Two lines move the screen up twice: the first line is the third one that was there. -/
theorem run_shows_scrolled : ∃ c, run .megabyte (construct .megabyte striped 7) twoLines = some c ∧
    c.cursor = 24 * 160 + 2 ∧
      c.mem.byte Place.megabyte.rambuf = striped.byte (videoram + 2 * 160) ∧
      c.mem.byte (Place.megabyte.rambuf + 23 * 160) = 'a'.toUInt8 ∧
      c.mem.byte (Place.megabyte.rambuf + 24 * 160) = 'b'.toUInt8 := by
  obtain ⟨c, hc, hs, -⟩ := run_shows .megabyte striped 7 twoLines
  have hcursor : c.cursor = 24 * 160 + 2 := by
    have h : (run .megabyte (construct .megabyte striped 7) twoLines).map Console.cursor
        = some (24 * 160 + 2) := by decide +kernel
    rw [hc] at h
    exact Option.some.inj h
  -- 81 cells behind the ones of the screen
  have hcells : (twoLines.foldl Output.call ⟨screen striped, 7⟩).cells = screen striped ++
      (('a'.toUInt8, 7) :: List.replicate 79 (' '.toUInt8, 7) ++ [('b'.toUInt8, 7)]) := by
    decide +kernel
  have hholds := hs.holds
  rw [hcells] at hholds
  have hlen : (bytes (screen striped ++ (('a'.toUInt8, 7) ::
      List.replicate 79 (' '.toUInt8, 7) ++ [('b'.toUInt8, 7)]))).length - c.cursor = 2 * 160 := by
    rw [length_bytes, List.length_append, screen, List.length_map, List.length_range, hcursor]
    rfl
  refine ⟨c, hc, hcursor, ?_, ?_, ?_⟩
  · apply hholds.byte (i := 0)
    rw [hlen, getElem?_bytes_screen]
    rfl
  · apply hholds.byte
    rw [hlen, getElem?_bytes_screen]
    rfl
  · apply hholds.byte
    rw [hlen, getElem?_bytes_screen]
    rfl

end Metta.DefaultConsole
