/-
  Metta.Meddler.Scanner — lexer.cpp of meddler, over the bytes of a file.

  Characters are read at a pointer that stays at the NUL behind the last one.
  Blanks and comments are passed by, and what comes then is a token.

    • `MemoryBuffer` — the bytes, `getNextChar`, `skipLineComment`, `skipWhile`,
    • `Scanner` — `lexer_t`: `getToken`, `lex`, `lexback`,
    • `Skips`, `Token` — what is passed by, and what a token is,
    • `scan_spec` — what `get_token` does.
-/
import Metta.Meddler.Lexer

namespace Metta.Meddler

/-! ## §1. Characters. -/

/-- `isdigit`. -/
def isDigit (c : UInt8) : Bool := 48 ≤ c && c ≤ 57

/-- `isalnum`. -/
def isAlnum (c : UInt8) : Bool := isDigit c || 65 ≤ c && c ≤ 90 || 97 ≤ c && c ≤ 122

/-- `is_label_char`: with `.` and `_`. -/
def isLabelChar (c : UInt8) : Bool := isAlnum c || c == 46 || c == 95

/-- `is_number_char`: with `x` and `X`. -/
def isNumberChar (c : UInt8) : Bool := isDigit c || c == 120 || c == 88

/-- NUL, space, tab, line feed and carriage return. -/
def isBlank (c : UInt8) : Bool := c == 0 || c == 32 || c == 9 || c == 10 || c == 13

/-- Line feed and carriage return. -/
def isLineEnd (c : UInt8) : Bool := c == 10 || c == 13

/-- The characters `, & [ ] { } < > ( ) ;` and the backslash. -/
def signs : List (UInt8 × Sign) :=
  [(44, .comma), (38, .reference), (91, .lsquare), (93, .rsquare), (123, .lbrace), (125, .rbrace),
    (60, .less), (62, .greater), (40, .lparen), (41, .rparen), (59, .semicolon), (92, .backslash)]

/-- The bytes as characters. -/
def spelling (bs : List UInt8) : String := String.ofList (bs.map fun c => Char.ofNat c.toNat)

/-- The kind of the word that is written so. -/
def SymbolTable.kindOfText (t : SymbolTable) (text : String) : Kind :=
  match t.lookup text with
  | none => .identifier
  | some .builtinType | some .interfaceType | some .exceptionType => .type
  | some k => k

/-- What a letter or digit stands for in a number. -/
def digitValue (c : UInt8) : Nat :=
  if isDigit c then c.toNat - 48 else if 97 ≤ c then c.toNat - 87 else c.toNat - 55

/-- `strtol` with base 0 for letters and digits, the first one a digit: the value, which is cut off
at the largest `long`, and what is left. -/
def strtol (bs : List UInt8) : Nat × List UInt8 :=
  let (base, digits) : Nat × List UInt8 :=
    match bs with
    | 48 :: x :: d :: ds =>
        if (x == 120 || x == 88) && decide (digitValue d < 16) then (16, d :: ds) else (8, bs)
    | 48 :: _ => (8, bs)
    | _ => (10, bs)
  let read := digits.takeWhile fun c => decide (digitValue c < base)
  (min (Nat.ofDigits base (read.map digitValue).reverse) (2 ^ 63 - 1),
    digits.dropWhile fun c => decide (digitValue c < base))

/-! ## §2. Buffers. -/

/-- `llvm::MemoryBuffer`: bytes, with a NUL behind the last one. -/
structure MemoryBuffer where
  bytes : List UInt8

namespace MemoryBuffer

/-- `getBufferEnd() - getBufferStart()`. -/
def size (b : MemoryBuffer) : Nat := b.bytes.length

/-- The character at a pointer; `none` behind the NUL. -/
def read (b : MemoryBuffer) (p : Nat) : Option UInt8 := (b.bytes ++ [0])[p]?

/-- The characters from `start` on; `len` is an `unsigned int`. -/
def slice (b : MemoryBuffer) (start stop : Nat) : List UInt8 :=
  (b.bytes.drop start).take ((stop - start) % 2 ^ 32)

/-- `get_next_char`: the character, `none` for `EOF`, and the pointer behind it. -/
def getNextChar (b : MemoryBuffer) (p : Nat) : Option (Option UInt8 × Nat) :=
  (b.read p).map fun c => if c = 0 ∧ p = b.size then (none, p) else (some c, p + 1)

/-- `skip_line_comment`. -/
def skipLineComment (b : MemoryBuffer) : Nat → Nat → Option Nat
  | 0, _ => none
  | fuel + 1, p =>
      (b.read p).bind fun c =>
        if isLineEnd c then some p
        else (b.getNextChar p).bind fun
          | (none, q) => some q
          | (some _, q) => b.skipLineComment fuel q

/-- `for (; test(*cur_ptr); ++cur_ptr) {}`. -/
def skipWhile (b : MemoryBuffer) (test : UInt8 → Bool) : Nat → Nat → Option Nat
  | 0, _ => none
  | fuel + 1, p =>
      (b.read p).bind fun c => if test c then b.skipWhile test fuel (p + 1) else some p

end MemoryBuffer

/-! ## §3. The lexer. -/

/-- `lexer_t`, with `none` for `token::none`. -/
structure Scanner where
  curPtr : Nat
  tokenStart : Nat
  curKind : Option Kind
  nextKind : Option Kind
  tokenVal : BitVec 32

namespace Scanner

/-- `init`. -/
def init : Scanner := ⟨0, 0, none, none, 0⟩

/-- `get_identifier`, behind the first character. -/
def getIdentifier (b : MemoryBuffer) (symbols : SymbolTable) (s : Scanner) :
    Option (Kind × Scanner) :=
  (b.skipWhile isLabelChar (b.size + 1) s.curPtr).map fun q =>
    (symbols.kindOfText (spelling (b.slice (s.curPtr - 1) q)), { s with curPtr := q })

/-- `get_cardinal`, behind the first digit. -/
def getCardinal (b : MemoryBuffer) (s : Scanner) : Option (Kind × Scanner) :=
  (b.skipWhile (fun c => isNumberChar c || isAlnum c) (b.size + 1) s.curPtr).bind fun q =>
    (b.read q).map fun c =>
      if isLabelChar c then (.error, { s with curPtr := q })
      else
        let (value, rest) := strtol (b.slice (s.curPtr - 1) q)
        (if rest = [] then .cardinal else .error,
          { s with curPtr := q, tokenVal := BitVec.ofNat 32 value })

/-- `get_token`, when no token was put back. -/
def scan (b : MemoryBuffer) (symbols : SymbolTable) : Nat → Scanner → Option (Kind × Scanner)
  | 0, _ => none
  | fuel + 1, s =>
      (b.getNextChar s.curPtr).bind fun
        | (none, p) => some (.eof, { s with tokenStart := s.curPtr, curPtr := p })
        | (some c, p) =>
            if isBlank c then scan b symbols fuel { s with tokenStart := s.curPtr, curPtr := p }
            else if c = 35 then
              (b.getNextChar p).bind fun (d, q) =>
                if d = some 35 then
                  (b.skipLineComment (b.size + 1) q).map fun r =>
                    (.autodoc, { s with tokenStart := q, curPtr := r })
                else
                  (b.skipLineComment (b.size + 1) (q - 1)).bind fun r =>
                    scan b symbols fuel { s with tokenStart := s.curPtr, curPtr := r }
            else if isDigit c then
              getCardinal b { s with tokenStart := s.curPtr, curPtr := p }
            else if c = 61 then
              (b.getNextChar p).map fun (d, q) =>
                if d = some 62 then
                  (.sign .dblarrow, { s with tokenStart := s.curPtr, curPtr := q })
                else (.sign .equal, { s with tokenStart := s.curPtr, curPtr := q - 1 })
            else
              match signs.lookup c with
              | some g => some (.sign g, { s with tokenStart := s.curPtr, curPtr := p })
              | none => getIdentifier b symbols { s with tokenStart := s.curPtr, curPtr := p }

/-- `get_token`. -/
def getToken (b : MemoryBuffer) (symbols : SymbolTable) (s : Scanner) : Option (Kind × Scanner) :=
  match s.nextKind with
  | some k => some (k, { s with nextKind := none })
  | none => scan b symbols (b.size + 1) s

/-- `lex`. -/
def lex (b : MemoryBuffer) (symbols : SymbolTable) (s : Scanner) : Option (Kind × Scanner) :=
  (getToken b symbols s).map fun (k, s') => (k, { s' with curKind := some k })

/-- `lexback`. -/
def lexback (s : Scanner) : Scanner := { s with nextKind := s.curKind }

/-- `current_token`; the length is an `int`. -/
def currentToken (b : MemoryBuffer) (s : Scanner) : String :=
  spelling (b.slice s.tokenStart s.curPtr)

end Scanner

/-! ## §4. The loops over characters. -/

namespace MemoryBuffer

variable {b : MemoryBuffer} {p q r fuel : Nat}

theorem read_lt (h : p < b.size) : b.read p = some b.bytes[p] := by
  unfold read
  rw [List.getElem?_append_left h]
  exact List.getElem?_eq_getElem h

theorem read_size (b : MemoryBuffer) : b.read b.size = some 0 := by
  unfold read size
  rw [List.getElem?_append_right (le_refl _), Nat.sub_self]
  rfl

theorem getNextChar_lt (h : p < b.size) : b.getNextChar p = some (b.read p, p + 1) := by
  have hne : p ≠ b.size := Nat.ne_of_lt h
  unfold getNextChar
  rw [read_lt h, Option.map_some, if_neg fun hboth => hne hboth.2]

theorem getNextChar_size (b : MemoryBuffer) : b.getNextChar b.size = some (none, b.size) := by
  unfold getNextChar
  rw [read_size, Option.map_some, if_pos ⟨rfl, rfl⟩]

/-- The line that `p` is in ends at `r`. -/
structure LineEnds (b : MemoryBuffer) (p r : Nat) : Prop where
  le : p ≤ r
  bound : r ≤ b.size
  line : ∀ i c, p ≤ i → i < r → b.read i = some c → isLineEnd c = false
  stop : r = b.size ∨ ∃ c, b.read r = some c ∧ isLineEnd c = true

/-- `skip_line_comment` comes to the end of the line. -/
theorem skipLineComment_spec (hp : p ≤ b.size) (hfuel : b.size - p < fuel) :
    ∃ r, b.skipLineComment fuel p = some r ∧ b.LineEnds p r := by
  induction fuel generalizing p with
  | zero => omega
  | succ fuel ih =>
      rw [skipLineComment]
      rcases Nat.lt_or_eq_of_le hp with hlt | rfl
      · rw [getNextChar_lt hlt, read_lt hlt, Option.bind_some]
        cases hend : isLineEnd b.bytes[p] with
        | true =>
            rw [if_pos rfl]
            refine ⟨p, rfl, le_refl p, hp, fun i c h1 h2 _ => ?_, .inr ⟨_, read_lt hlt, hend⟩⟩
            exact absurd h2 (Nat.not_lt_of_le h1)
        | false =>
            obtain ⟨r, hr, hline⟩ := ih (p := p + 1) hlt (by omega)
            rw [if_neg Bool.false_ne_true]
            refine ⟨r, hr, Nat.le_of_succ_le hline.le, hline.bound, fun i c h1 h2 hc => ?_,
              hline.stop⟩
            rcases Nat.lt_or_eq_of_le h1 with h | rfl
            · exact hline.line i c h h2 hc
            · rw [read_lt hlt] at hc
              rw [← Option.some.inj hc, hend]
      · rw [getNextChar_size, read_size, Option.bind_some, if_neg (by decide)]
        refine ⟨b.size, rfl, le_refl _, le_refl _, fun i c h1 h2 _ => ?_, .inl rfl⟩
        exact absurd h2 (Nat.not_lt_of_le h1)

/-- A loop over characters stops at the first one that fails the test. -/
theorem skipWhile_spec {test : UInt8 → Bool} (hnul : test 0 = false) (hp : p ≤ b.size)
    (hfuel : b.size - p < fuel) :
    ∃ r, b.skipWhile test fuel p = some r ∧ p ≤ r ∧ r ≤ b.size ∧
      (∀ i, p ≤ i → i < r → ∃ c, b.read i = some c ∧ test c = true) ∧
      ∃ c, b.read r = some c ∧ test c = false := by
  induction fuel generalizing p with
  | zero => omega
  | succ fuel ih =>
      rw [skipWhile]
      rcases Nat.lt_or_eq_of_le hp with hlt | rfl
      · rw [read_lt hlt, Option.bind_some]
        cases htest : test b.bytes[p] with
        | false =>
            rw [if_neg Bool.false_ne_true]
            refine ⟨p, rfl, le_refl p, hp, fun i h1 h2 => ?_, _, read_lt hlt, htest⟩
            exact absurd h2 (Nat.not_lt_of_le h1)
        | true =>
            obtain ⟨r, hr, hle, hbound, hall, hstop⟩ := ih (p := p + 1) hlt (by omega)
            rw [if_pos rfl]
            refine ⟨r, hr, Nat.le_of_succ_le hle, hbound, fun i h1 h2 => ?_, hstop⟩
            rcases Nat.lt_or_eq_of_le h1 with h | rfl
            · exact hall i h h2
            · exact ⟨_, read_lt hlt, htest⟩
      · rw [read_size, Option.bind_some, hnul, if_neg Bool.false_ne_true]
        refine ⟨b.size, rfl, le_refl _, le_refl _, fun i h1 h2 => ?_, 0, b.read_size, hnul⟩
        exact absurd h2 (Nat.not_lt_of_le h1)

/-! ## §5. Tokens. -/

/-- A character that can be in a word. -/
def isWordChar (c : UInt8) : Bool :=
  !isBlank c && c != 35 && c != 61 && (signs.lookup c).isNone

/-- What is true of 256 numbers is true of every byte. -/
theorem forall_byte {p : UInt8 → Prop} (h : ∀ n < 256, p (UInt8.ofNat n)) (c : UInt8) : p c := by
  have hc := h c.toNat c.toNat_lt
  rwa [UInt8.ofNat_toNat] at hc

theorem isWordChar_of_isLabelChar {c : UInt8} : isLabelChar c = true → isWordChar c = true :=
  forall_byte (p := fun c => isLabelChar c = true → isWordChar c = true) (by decide +kernel) c

theorem isLabelChar_of_number {c : UInt8} :
    (isNumberChar c || isAlnum c) = true → isLabelChar c = true :=
  forall_byte (p := fun c => (isNumberChar c || isAlnum c) = true → isLabelChar c = true)
    (by decide +kernel) c

theorem isWordChar_of_isDigit {c : UInt8} : isDigit c = true → isWordChar c = true :=
  forall_byte (p := fun c => isDigit c = true → isWordChar c = true) (by decide +kernel) c

/-- No character of a word is a token, a blank or the sign of a comment. -/
theorem not_mem_separators {c : UInt8} : isWordChar c = true → Char.ofNat c.toNat ∉ separators :=
  forall_byte (p := fun c => isWordChar c = true → Char.ofNat c.toNat ∉ separators)
    (by decide +kernel) c

/-- What is written with characters of words can be a word. -/
theorem plain_spelling {bs : List UInt8} (h : ∀ c ∈ bs, isWordChar c = true) :
    ∀ c ∈ (spelling bs).toList, c ∉ separators := by
  intro c hc
  unfold spelling at hc
  rw [String.toList_ofList] at hc
  obtain ⟨x, hx, rfl⟩ := List.mem_map.mp hc
  exact not_mem_separators (h x hx)

/-- What is cut out from `start` on is read there. -/
theorem mem_slice {start stop : Nat} {c : UInt8} (h : c ∈ b.slice start stop) :
    ∃ i, start ≤ i ∧ i < stop ∧ b.read i = some c := by
  unfold slice at h
  obtain ⟨k, hk, rfl⟩ := List.mem_iff_getElem.mp h
  rw [List.length_take, List.length_drop] at hk
  have hlt : start + k < b.bytes.length := by omega
  have hmod : (stop - start) % 2 ^ 32 ≤ stop - start := Nat.mod_le _ _
  refine ⟨start + k, Nat.le_add_right _ _, by omega, ?_⟩
  rw [List.getElem_take, List.getElem_drop]
  exact read_lt hlt

/-- The characters behind `q` up to `r` are the ones of labels. -/
structure Labels (b : MemoryBuffer) (q r : Nat) : Prop where
  lt : q < r
  bound : r ≤ b.size
  start : ∃ c, b.read q = some c ∧ isWordChar c = true
  labels : ∀ i, q < i → i < r → ∃ c, b.read i = some c ∧ isLabelChar c = true

theorem Labels.plain (h : b.Labels q r) :
    ∀ c ∈ (spelling (b.slice q r)).toList, c ∉ separators := by
  refine plain_spelling fun c hc => ?_
  obtain ⟨i, hle, hlt, hread⟩ := mem_slice hc
  rcases Nat.lt_or_eq_of_le hle with h' | rfl
  · obtain ⟨c', hc', hlabel⟩ := h.labels i h' hlt
    rw [hread, Option.some.injEq] at hc'
    exact isWordChar_of_isLabelChar (hc' ▸ hlabel)
  · obtain ⟨c', hc', hword⟩ := h.start
    rw [hread, Option.some.injEq] at hc'
    exact hc' ▸ hword

/-- Blanks and comments lead from `p` to `q`. -/
inductive Skips (b : MemoryBuffer) : Nat → Nat → Prop where
  | refl (p : Nat) : Skips b p p
  | blank {p q : Nat} {c : UInt8} (hp : p < b.size) (hc : b.read p = some c)
      (hblank : isBlank c = true) (h : Skips b (p + 1) q) : Skips b p q
  | comment {p q r : Nat} (hp : p < b.size) (hc : b.read p = some 35)
      (hc' : b.read (p + 1) ≠ some 35) (hline : b.LineEnds (p + 1) r) (h : Skips b r q) :
      Skips b p q

/-- The token at `q`, where it begins and where the pointer is then.  Behind a `=` that is the last
character there is nothing to step back from. -/
inductive Token (b : MemoryBuffer) (q : Nat) : Lexeme → Nat → Nat → Prop where
  | sign {c : UInt8} {g : Sign} (hc : b.read q = some c) (hg : signs.lookup c = some g) :
      Token b q (.sign g) q (q + 1)
  | equal (hq : q + 1 < b.size) (hc : b.read q = some 61) (hc' : b.read (q + 1) ≠ some 62) :
      Token b q (.sign .equal) q (q + 1)
  | lastEqual (hq : q + 1 = b.size) (hc : b.read q = some 61) : Token b q (.sign .equal) q q
  | dblarrow (hq : q + 1 < b.size) (hc : b.read q = some 61) (hc' : b.read (q + 1) = some 62) :
      Token b q (.sign .dblarrow) q (q + 2)
  | autodoc {r : Nat} (hq : q + 1 < b.size) (hc : b.read q = some 35)
      (hc' : b.read (q + 1) = some 35) (hline : b.LineEnds (q + 2) r) :
      Token b q (.autodoc (spelling (b.slice (q + 2) r))) (q + 2) r
  | cardinal {r : Nat} (h : b.Labels q r) (hrest : (strtol (b.slice q r)).2 = []) :
      Token b q (.cardinal (BitVec.ofNat 32 (strtol (b.slice q r)).1)) q r
  | error {r : Nat} (h : b.Labels q r) : Token b q .error q r
  | word {r : Nat} (h : b.Labels q r) : Token b q (.word ⟨_, h.plain⟩) q r

end MemoryBuffer

/-! ## §6. `get_token`. -/

namespace Scanner

open MemoryBuffer

variable {b : MemoryBuffer} {p fuel : Nat}

/-- What `get_token` does at `p`, with every symbol table: nothing but blanks and comments are left,
or there is a token.  The table decides no more than its kind. -/
def Scans (b : MemoryBuffer) (p : Nat) (o : SymbolTable → Scanner → Option (Kind × Scanner)) :
    Prop :=
  (b.Skips p b.size ∧
    ∀ symbols s, o symbols s = some (.eof, { s with tokenStart := b.size, curPtr := b.size })) ∨
  ∃ (q : Nat) (x : Lexeme) (start stop : Nat) (val : BitVec 32 → BitVec 32),
    b.Skips p q ∧ q < b.size ∧ b.Token q x start stop ∧ (∀ v t, x = .cardinal v → val t = v) ∧
    ∀ symbols s, o symbols s = some (x.kind symbols,
      { s with tokenStart := start, curPtr := stop, tokenVal := val s.tokenVal })

/-- What is passed by first changes nothing. -/
theorem Scans.of_skips {p' start : Nat} {o : SymbolTable → Scanner → Option (Kind × Scanner)}
    (hskip : ∀ q, b.Skips p' q → b.Skips p q) (h : Scans b p' o) :
    Scans b p fun symbols s => o symbols { s with tokenStart := start } := by
  rcases h with ⟨hskips, ho⟩ | ⟨q, x, start', stop, val, hskips, hq, htoken, hval, ho⟩
  · exact .inl ⟨hskip _ hskips, fun symbols s => ho symbols _⟩
  · exact .inr ⟨q, x, start', stop, val, hskip _ hskips, hq, htoken, hval, fun symbols s =>
      ho symbols _⟩

/-- A token at the pointer. -/
theorem Scans.of_token {x : Lexeme} {start stop : Nat} (val : BitVec 32 → BitVec 32)
    (hp : p < b.size) (htoken : b.Token p x start stop)
    (hval : ∀ v t, x = .cardinal v → val t = v) :
    Scans b p fun symbols s => some (x.kind symbols,
      { s with tokenStart := start, curPtr := stop, tokenVal := val s.tokenVal }) :=
  .inr ⟨p, x, start, stop, val, .refl _, hp, htoken, hval, fun _ _ => rfl⟩

/-- A token that is not a number. -/
theorem Scans.of_sign {x : Lexeme} {start stop : Nat} (hp : p < b.size)
    (htoken : b.Token p x start stop) (hx : ∀ v, x ≠ .cardinal v) :
    Scans b p fun symbols s =>
      some (x.kind symbols, { s with tokenStart := start, curPtr := stop }) :=
  Scans.of_token (fun t => t) hp htoken fun v _ h => absurd h (hx v)

/-- A loop over characters behind the first one of a word. -/
theorem labels_of_skipWhile {test : UInt8 → Bool} {c : UInt8} (hp : p < b.size)
    (hc : b.read p = some c) (hword : isWordChar c = true) (hnul : test 0 = false)
    (htest : ∀ c, test c = true → isLabelChar c = true) :
    ∃ r, b.skipWhile test (b.size + 1) (p + 1) = some r ∧ b.Labels p r ∧
      ∃ d, b.read r = some d := by
  obtain ⟨r, hr, hle, hbound, hall, d, hd, -⟩ :=
    @skipWhile_spec b (p + 1) (b.size + 1) test hnul hp (by omega)
  refine ⟨r, hr, ⟨hle, hbound, ⟨c, hc, hword⟩, fun i h1 h2 => ?_⟩, d, hd⟩
  obtain ⟨c', hc', htrue⟩ := hall i h1 h2
  exact ⟨c', hc', htest c' htrue⟩

theorem getIdentifier_scans {c : UInt8} (hp : p < b.size) (hc : b.read p = some c)
    (hword : isWordChar c = true) :
    Scans b p fun symbols s => getIdentifier b symbols
      { s with tokenStart := p, curPtr := p + 1 } := by
  have hnul : isLabelChar 0 = false := rfl
  obtain ⟨r, hr, hlabels, -⟩ := labels_of_skipWhile hp hc hword hnul fun _ h => h
  simp only [getIdentifier, hr, Option.map_some]
  exact Scans.of_sign hp (.word hlabels) fun v h => nomatch h

theorem getCardinal_scans {c : UInt8} (hp : p < b.size) (hc : b.read p = some c)
    (hdigit : isDigit c = true) :
    Scans b p fun _ s => getCardinal b { s with tokenStart := p, curPtr := p + 1 } := by
  have hnul : (fun c => isNumberChar c || isAlnum c) 0 = false := rfl
  obtain ⟨r, hr, hlabels, d, hd⟩ :=
    labels_of_skipWhile hp hc (isWordChar_of_isDigit hdigit) hnul fun _ h => isLabelChar_of_number h
  simp only [getCardinal, hr, hd, Option.bind_some, Option.map_some, Nat.add_sub_cancel]
  by_cases hlabel : isLabelChar d = true
  · simp only [if_pos hlabel]
    exact Scans.of_sign hp (.error hlabels) fun v h => nomatch h
  · simp only [if_neg hlabel]
    by_cases hrest : (strtol (b.slice p r)).2 = []
    · simp only [if_pos hrest]
      exact Scans.of_token (fun _ => _) hp (.cardinal hlabels hrest) fun v _ h =>
        Lexeme.cardinal.inj h
    · simp only [if_neg hrest]
      exact Scans.of_token (fun _ => _) hp (.error hlabels) fun v _ h => nomatch h

/-- Behind a `#`: documentation, or a comment and what comes then. -/
theorem hash_scans (hp : p < b.size) (hc : b.read p = some 35)
    (ih : ∀ r, p < r → r ≤ b.size →
      Scans b r fun symbols s => scan b symbols fuel { s with curPtr := r }) :
    Scans b p fun symbols s => (b.getNextChar (p + 1)).bind fun (d, q) =>
      if d = some 35 then
        (b.skipLineComment (b.size + 1) q).map fun r =>
          (.autodoc, { s with tokenStart := q, curPtr := r })
      else
        (b.skipLineComment (b.size + 1) (q - 1)).bind fun r =>
          scan b symbols fuel { s with tokenStart := p, curPtr := r } := by
  have hnext : p + 1 ≤ b.size := hp
  rcases Nat.lt_or_eq_of_le hnext with hlt | hend
  · simp only [getNextChar_lt hlt, Option.bind_some]
    -- a second `#` makes it a line of documentation
    by_cases hdoc : b.read (p + 1) = some 35
    · obtain ⟨r, hr, hline⟩ := skipLineComment_spec hlt (show b.size - (p + 2) < b.size + 1 by omega)
      simp only [if_pos hdoc, hr, Option.map_some]
      exact Scans.of_sign hp (.autodoc hlt hc hdoc hline) fun v h => nomatch h
    · obtain ⟨r, hr, hline⟩ :=
        skipLineComment_spec hnext (show b.size - (p + 1) < b.size + 1 by omega)
      simp only [if_neg hdoc, Nat.add_sub_cancel, hr, Option.bind_some]
      exact (ih r hline.le hline.bound).of_skips fun q h => .comment hp hc hdoc hline h
  · -- the `#` is the last character, and the pointer is put back in front of it
    have hdoc : b.read (p + 1) ≠ some 35 := by
      rw [hend, read_size]
      decide
    obtain ⟨r, hr, hline⟩ := skipLineComment_spec hp.le (show b.size - p < b.size + 1 by omega)
    have hrlt : p < r := by
      refine Nat.lt_of_le_of_ne hline.le fun heq => ?_
      rcases hline.stop with h | ⟨c, hc', hend'⟩
      · omega
      · rw [← heq, hc, Option.some.injEq] at hc'
        rw [← hc'] at hend'
        exact absurd hend' (by decide)
    have hline' : b.LineEnds (p + 1) r :=
      ⟨hrlt, hline.bound, fun i c h1 h2 => hline.line i c (Nat.le_of_succ_le h1) h2, hline.stop⟩
    have hback : b.size - 1 = p := by omega
    simp only [hend, getNextChar_size, hback, hr, Option.bind_some, reduceCtorEq, if_false]
    exact (ih r hrlt hline.bound).of_skips fun q h => .comment hp hc hdoc hline' h

/-- Behind a `=`. -/
theorem equal_scans (hp : p < b.size) (hc : b.read p = some 61) :
    Scans b p fun _ s => (b.getNextChar (p + 1)).map fun (d, q) =>
      if d = some 62 then (.sign .dblarrow, { s with tokenStart := p, curPtr := q })
      else (.sign .equal, { s with tokenStart := p, curPtr := q - 1 }) := by
  have hnext : p + 1 ≤ b.size := hp
  rcases Nat.lt_or_eq_of_le hnext with hlt | hend
  · simp only [getNextChar_lt hlt, Option.map_some]
    by_cases harrow : b.read (p + 1) = some 62
    · simp only [if_pos harrow]
      exact Scans.of_sign hp (.dblarrow hlt hc harrow) fun v h => nomatch h
    · simp only [if_neg harrow, Nat.add_sub_cancel]
      exact Scans.of_sign hp (.equal hlt hc harrow) fun v h => nomatch h
  · -- nothing was read, and the pointer is put back all the same
    have hback : b.size - 1 = p := by omega
    simp only [hend, getNextChar_size, Option.map_some, hback, reduceCtorEq, if_false]
    exact Scans.of_sign hp (.lastEqual hend hc) fun v h => nomatch h

/-- **What `get_token` does** at every position of every buffer. -/
theorem scan_spec (hp : p ≤ b.size) (hfuel : b.size - p < fuel) :
    Scans b p fun symbols s => scan b symbols fuel { s with curPtr := p } := by
  induction fuel generalizing p with
  | zero => omega
  | succ fuel ih =>
      rcases Nat.lt_or_eq_of_le hp with hlt | rfl
      · obtain ⟨c, hc⟩ : ∃ c, b.read p = some c := ⟨_, read_lt hlt⟩
        simp only [scan, getNextChar_lt hlt, hc, Option.bind_some]
        -- the branches in the order of `get_token`: blanks, comments, numbers, `=`, signs, words
        by_cases hblank : isBlank c = true
        · simp only [if_pos hblank]
          exact (ih (p := p + 1) hlt (by omega)).of_skips fun q h => .blank hlt hc hblank h
        simp only [if_neg hblank]
        by_cases hhash : c = 35
        · subst hhash
          simp only [if_true]
          exact hash_scans hlt hc fun r h1 h2 => ih h2 (by omega)
        simp only [if_neg hhash]
        by_cases hdigit : isDigit c = true
        · simp only [if_pos hdigit]
          exact getCardinal_scans hlt hc hdigit
        simp only [if_neg hdigit]
        by_cases hequal : c = 61
        · subst hequal
          simp only [if_true]
          exact equal_scans hlt hc
        simp only [if_neg hequal]
        cases hsign : signs.lookup c with
        | some g => exact Scans.of_sign hlt (.sign hc hsign) fun v h => nomatch h
        | none =>
            refine getIdentifier_scans hlt hc ?_
            simp [isWordChar, hblank, hhash, hequal, hsign]
      · -- the end of the buffer
        simp only [scan, getNextChar_size, Option.bind_some]
        exact .inl ⟨.refl _, fun _ _ => rfl⟩

end Scanner

end Metta.Meddler
