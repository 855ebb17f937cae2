/-
  Metta.Meddler.Scanning — cutting a whole file into tokens.

  Every call moves the pointer on, but for one: behind a `=` that is the last
  character of the file the pointer is put back though nothing was read, and
  the next call is at the `=` again.  Nothing but a comment in the last line
  keeps the lexer from coming there.

    • `Progress` — what a call is to do, `progress_iff` — when it does it,
    • `tokenise` — calls up to the end of the file, `tokenise_ends_iff`,
    • `Lexes` — the lexemes of a file,
    • `lex_refines` — the lexer over bytes does what the one over lexemes does.
-/
import Metta.Meddler.Reading
import Metta.Meddler.Scanner

namespace Metta.Meddler

open MemoryBuffer

namespace MemoryBuffer

variable {b : MemoryBuffer} {p q r i : Nat}

/-! ## §1. Positions. -/

/-- The character at `p` is the last one, and a `=`. -/
def FinalEqual (b : MemoryBuffer) (p : Nat) : Prop := p + 1 = b.size ∧ b.read p = some 61

theorem Skips.le (h : b.Skips p q) : p ≤ q := by
  induction h with
  | refl => exact le_refl _
  | blank _ _ _ _ ih => exact Nat.le_of_succ_le ih
  | comment _ _ _ hline _ ih => exact Nat.le_trans (Nat.le_of_succ_le hline.le) ih

/-- A `=` is not passed by. -/
theorem Skips.eq_of_equal (h : b.Skips p q) (hp : b.read p = some 61) : q = p := by
  cases h with
  | refl => rfl
  | blank _ hc hblank _ =>
      rw [hp, Option.some.injEq] at hc
      rw [← hc] at hblank
      exact absurd hblank (by decide)
  | comment _ hc _ _ _ =>
      rw [hp] at hc
      exact absurd hc (by decide)

/-- A token ends behind its first character and in the file, but for a `=` at the end. -/
theorem Token.stop {x : Lexeme} {start stop : Nat} (h : b.Token q x start stop) (hq : q < b.size) :
    (q < stop ∧ stop ≤ b.size) ∨ (b.FinalEqual q ∧ stop = q ∧ x = .sign .equal) := by
  cases h with
  | sign _ _ => exact .inl ⟨Nat.lt_succ_self q, hq⟩
  | equal _ _ _ => exact .inl ⟨Nat.lt_succ_self q, hq⟩
  | lastEqual hlast hc => exact .inr ⟨⟨hlast, hc⟩, rfl, rfl⟩
  | dblarrow hlt _ _ => exact .inl ⟨by omega, hlt⟩
  | autodoc _ _ _ hline =>
      have hle := hline.le
      exact .inl ⟨by omega, hline.bound⟩
  | cardinal h _ => exact .inl ⟨h.lt, h.bound⟩
  | error h => exact .inl ⟨h.lt, h.bound⟩
  | word h => exact .inl ⟨h.lt, h.bound⟩

/-- A token at a final `=` is the `=`, and the pointer stays. -/
theorem Token.of_finalEqual {x : Lexeme} {start stop : Nat} (h : b.Token q x start stop)
    (hq : b.FinalEqual q) : stop = q ∧ x = .sign .equal := by
  obtain ⟨hlast, heq⟩ := hq
  have hlabels : ∀ r, ¬ b.Labels q r := by
    intro r h
    obtain ⟨c, hc, hword⟩ := h.start
    rw [heq, Option.some.injEq] at hc
    rw [← hc] at hword
    exact absurd hword (by decide)
  cases h with
  | sign hc hg =>
      rw [heq, Option.some.injEq] at hc
      have hnone : signs.lookup 61 = none := by decide
      rw [← hc, hnone] at hg
      cases hg
  | equal hlt _ _ => omega
  | lastEqual _ _ => exact ⟨rfl, rfl⟩
  | dblarrow hlt _ _ => omega
  | autodoc hlt _ _ _ => omega
  | cardinal h _ => exact absurd h (hlabels _)
  | error h => exact absurd h (hlabels _)
  | word h => exact absurd h (hlabels _)

end MemoryBuffer

namespace Scanner

variable {b : MemoryBuffer} {s : Scanner} {p : Nat}

/-! ## §2. One call. -/

/-- At `p` there is nothing but the end of the file. -/
def Ends (b : MemoryBuffer) (p : Nat) : Prop :=
  b.Skips p b.size ∧ ∀ symbols s, s.curPtr = p → s.nextKind = none →
    lex b symbols s = some (.eof,
      { s with tokenStart := b.size, curPtr := b.size, curKind := some .eof })

/-- At `p` a call delivers the token `x`, which is from `start` to `stop`. -/
def Delivers (b : MemoryBuffer) (p : Nat) (x : Lexeme) (start stop : Nat) : Prop :=
  ∃ (q : Nat) (val : BitVec 32 → BitVec 32),
    b.Skips p q ∧ q < b.size ∧ b.Token q x start stop ∧ (∀ v t, x = .cardinal v → val t = v) ∧
    ∀ symbols s, s.curPtr = p → s.nextKind = none →
      lex b symbols s = some (x.kind symbols, { s with
        tokenStart := start, curPtr := stop, tokenVal := val s.tokenVal,
        curKind := some (x.kind symbols) })

/-- With no token put back, `lex` is `get_token` at the pointer. -/
theorem lex_of_scan {symbols : SymbolTable} {k : Kind} {s' : Scanner} (hp : s.curPtr = p)
    (hs : s.nextKind = none)
    (h : scan b symbols (b.size + 1) { s with curPtr := p } = some (k, s')) :
    lex b symbols s = some (k, { s' with curKind := some k }) := by
  have heq : ({ s with curPtr := p } : Scanner) = s := by
    rw [← hp]
  rw [heq] at h
  unfold lex getToken
  rw [hs]
  simp only [h, Option.map_some]

/-- **A call** at any position of any file. -/
theorem lex_spec (hp : p ≤ b.size) : Ends b p ∨ ∃ x start stop, Delivers b p x start stop := by
  rcases scan_spec hp (Nat.lt_succ_of_le (Nat.sub_le b.size p)) with
    ⟨hskips, ho⟩ | ⟨q, x, start, stop, val, hskips, hq, htoken, hval, ho⟩
  · exact .inl ⟨hskips, fun symbols s hcur hs => lex_of_scan hcur hs (ho symbols s)⟩
  · exact .inr ⟨x, start, stop, q, val, hskips, hq, htoken, hval, fun symbols s hcur hs =>
      lex_of_scan hcur hs (ho symbols s)⟩

/-- A token ends behind where the call began, unless it is a `=` at the end of the file. -/
theorem Delivers.progress {x : Lexeme} {start stop : Nat} (h : Delivers b p x start stop) :
    (p < stop ∧ stop ≤ b.size) ∨ b.FinalEqual p ∧ stop = p := by
  obtain ⟨q, val, hskips, hq, htoken, -⟩ := h
  have hle := hskips.le
  rcases htoken.stop hq with ⟨hlt, hbound⟩ | ⟨hfinal, hstop, -⟩
  · exact .inl ⟨by omega, hbound⟩
  · rcases Nat.lt_or_eq_of_le hle with hlt | rfl
    · exact .inl ⟨by omega, by omega⟩
    · exact .inr ⟨hfinal, hstop⟩

/-- The calls that follow. -/
inductive Call where
  | lex (symbols : SymbolTable)
  | lexback

/-- The kinds that the calls of `lex` return. -/
def calls (b : MemoryBuffer) : List Call → Scanner → Option (List Kind)
  | [], _ => some []
  | .lex symbols :: cs, s => (lex b symbols s).bind fun (k, s') => (calls b cs s').map (k :: ·)
  | .lexback :: cs, s => calls b cs s.lexback

/-- Every further call returns `eof`. -/
def Exhausted (b : MemoryBuffer) (s : Scanner) : Prop :=
  ∀ cs, ∃ ks, calls b cs s = some ks ∧ ∀ k ∈ ks, k = .eof

/-- What a call is to do: it returns `eof`, and so do all that follow; or it moves the pointer on,
and no further than to the end of the file. -/
def Progress (b : MemoryBuffer) (symbols : SymbolTable) (s : Scanner) : Prop :=
  ∃ k s', lex b symbols s = some (k, s') ∧
    ((k = .eof ∧ Exhausted b s') ∨ (s.curPtr < s'.curPtr ∧ s'.curPtr ≤ b.size))

/-- At the end of the file, with nothing but `eof` put back, all calls return `eof`. -/
theorem exhausted_of_end (hp : s.curPtr = b.size) (hcur : s.curKind = some .eof)
    (hnext : s.nextKind = none ∨ s.nextKind = some .eof) : Exhausted b s := by
  intro cs
  induction cs generalizing s with
  | nil => exact ⟨[], rfl, fun k hk => absurd hk (by simp)⟩
  | cons c cs ih =>
      cases c with
      | lex symbols =>
          have hlex : ∃ s', lex b symbols s = some (.eof, s') ∧ s'.curPtr = b.size ∧
              s'.curKind = some .eof ∧ s'.nextKind = none := by
            rcases hnext with hnext | hnext
            · rcases lex_spec (le_refl b.size) with ⟨-, h⟩ | ⟨x, start, stop, q, val, hskips, hq, -⟩
              · exact ⟨_, h symbols s hp hnext, rfl, rfl, hnext⟩
              · exact absurd hskips.le (Nat.not_le_of_lt hq)
            · refine ⟨{ s with nextKind := none, curKind := some .eof }, ?_, hp, rfl, rfl⟩
              unfold lex getToken
              rw [hnext]
              rfl
          obtain ⟨s', hlex, hp', hcur', hnext'⟩ := hlex
          obtain ⟨ks, hks, hall⟩ := ih hp' hcur' (.inl hnext')
          refine ⟨.eof :: ks, ?_, List.forall_mem_cons.mpr ⟨rfl, hall⟩⟩
          rw [calls, hlex, Option.bind_some]
          simp only [hks, Option.map_some]
      | lexback =>
          obtain ⟨ks, hks, hall⟩ := ih (s := s.lexback) hp hcur (.inr hcur)
          exact ⟨ks, hks, hall⟩

/-- **A call makes progress exactly when** it is not at a `=` that is the last character. -/
theorem progress_iff (symbols : SymbolTable) (hs : s.nextKind = none) (hp : s.curPtr ≤ b.size) :
    Progress b symbols s ↔ ¬ b.FinalEqual s.curPtr := by
  unfold Progress
  rcases lex_spec hp with ⟨hskips, h⟩ | ⟨x, start, stop, hdelivers⟩
  · -- nothing is left, so there is no `=` at the pointer
    have hne : ¬ b.FinalEqual s.curPtr := by
      intro hfinal
      have heq := hskips.eq_of_equal hfinal.2
      have hlast := hfinal.1
      omega
    refine iff_of_true ⟨_, _, h symbols s rfl hs, .inl ⟨rfl, ?_⟩⟩ hne
    exact exhausted_of_end rfl rfl (.inl hs)
  · have hprogress := hdelivers.progress
    obtain ⟨q, val, hskips, hq, htoken, -, h⟩ := hdelivers
    rw [h symbols s rfl hs]
    constructor
    · -- a last `=` is delivered, and the pointer stays
      rintro ⟨k, s', heq, hk⟩ hfinal
      obtain rfl := hskips.eq_of_equal hfinal.2
      obtain ⟨rfl, rfl⟩ := htoken.of_finalEqual hfinal
      cases heq
      rcases hk with ⟨heof, -⟩ | ⟨hlt, -⟩
      · cases heof
      · exact Nat.lt_irrefl _ hlt
    · intro hne
      rcases hprogress with hlt | ⟨hfinal, -⟩
      · exact ⟨_, _, rfl, .inr hlt⟩
      · exact absurd hfinal hne

/-! ## §3. Whole files. -/

/-- The kinds of the tokens up to the end of the file; the table may be another one at every
call. -/
def tokenise (b : MemoryBuffer) (tables : Nat → SymbolTable) :
    Nat → Nat → Scanner → Option (List Kind)
  | 0, _, _ => none
  | fuel + 1, n, s =>
      (lex b (tables n) s).bind fun (k, s') =>
        if k = .eof then some [] else (tokenise b tables fuel (n + 1) s').map (k :: ·)

theorem tokenise_succ {tables : Nat → SymbolTable} {n : Nat} {k : Kind} {s' : Scanner}
    (h : lex b (tables n) s = some (k, s')) (fuel : Nat) :
    tokenise b tables (fuel + 1) n s =
      if k = .eof then some [] else (tokenise b tables fuel (n + 1) s').map (k :: ·) := by
  rw [tokenise, h, Option.bind_some]

/-- Tokenising the file comes to its end. -/
def Tokenises (b : MemoryBuffer) (tables : Nat → SymbolTable) : Prop :=
  ∃ fuel ks, tokenise b tables fuel 0 init = some ks

/-- The places of `good` are left for others of `good` by every call, which moves the pointer
on. -/
def Advances (b : MemoryBuffer) (good : Nat → Prop) : Prop :=
  ∀ p, good p → p ≤ b.size ∧ ∀ x start stop, Delivers b p x start stop → p < stop ∧ good stop

/-- From places where all calls move the pointer on, the end of the file is reached. -/
theorem tokenise_of_advances {good : Nat → Prop} (hgood : Advances b good)
    (tables : Nat → SymbolTable) (hp : good s.curPtr) (hs : s.nextKind = none) (n : Nat) :
    ∃ fuel ks, tokenise b tables fuel n s = some ks := by
  induction hm : b.size - s.curPtr using Nat.strong_induction_on generalizing s n with
  | h m ih =>
      obtain ⟨hle, hnext⟩ := hgood _ hp
      rcases lex_spec hle with ⟨-, h⟩ | ⟨x, start, stop, hdelivers⟩
      · refine ⟨1, [], ?_⟩
        rw [tokenise_succ (h (tables n) s rfl hs), if_pos rfl]
      · obtain ⟨hlt, hstop⟩ := hnext x start stop hdelivers
        have hbound := (hgood stop hstop).1
        obtain ⟨q, val, -, -, -, -, h⟩ := hdelivers
        obtain ⟨fuel, ks, hks⟩ := ih (b.size - stop) (by omega)
          (s := { s with tokenStart := start, curPtr := stop, tokenVal := val s.tokenVal,
                         curKind := some (x.kind (tables n)) }) hstop hs (n + 1) rfl
        by_cases heof : x.kind (tables n) = .eof
        · refine ⟨1, [], ?_⟩
          rw [tokenise_succ (h (tables n) s rfl hs), if_pos heof]
        · refine ⟨fuel + 1, x.kind (tables n) :: ks, ?_⟩
          rw [tokenise_succ (h (tables n) s rfl hs), if_neg heof, hks, Option.map_some]

/-- A lexeme is not the end of the file. -/
theorem kind_ne_eof {symbols : SymbolTable} (hgrown : symbols.Grown) (x : Lexeme) :
    x.kind symbols ≠ .eof := by
  cases x with
  | word w =>
      intro h
      have hlookup := hgrown.lookup_of_kindOf h (by decide) (by decide)
      obtain ⟨l₁, l₂, heq, -⟩ := List.lookup_eq_some_iff.mp hlookup
      have hall : SymbolTable.populated.all (fun e => decide (e.2 ≠ .eof)) = true := by decide
      have hne := List.all_eq_true.mp hall (w.text, .eof) (by rw [heq]; simp)
      exact absurd hne (by simp)
  | sign g => exact fun h => nomatch h
  | cardinal v => exact fun h => nomatch h
  | autodoc line => exact fun h => nomatch h
  | error => exact fun h => nomatch h

/-- From places where no call comes to the end of the file, it is not reached. -/
theorem not_tokenise_of_stays {good : Nat → Prop}
    (hgood : ∀ p, good p → p ≤ b.size ∧ ¬ Ends b p ∧
      ∀ x start stop, Delivers b p x start stop → good stop)
    {tables : Nat → SymbolTable} (htables : ∀ n, (tables n).Grown) (hp : good s.curPtr)
    (hs : s.nextKind = none) (fuel n : Nat) : tokenise b tables fuel n s = none := by
  induction fuel generalizing s n with
  | zero => rfl
  | succ fuel ih =>
      obtain ⟨hle, hends, hnext⟩ := hgood _ hp
      rcases lex_spec hle with h | ⟨x, start, stop, hdelivers⟩
      · exact absurd h hends
      · have hstop := hnext x start stop hdelivers
        obtain ⟨q, val, -, -, -, -, h⟩ := hdelivers
        have hrest := ih (s := { s with tokenStart := start, curPtr := stop,
                                        tokenVal := val s.tokenVal,
                                        curKind := some (x.kind (tables n)) }) hstop hs (n + 1)
        rw [tokenise_succ (h (tables n) s rfl hs), if_neg (kind_ne_eof (htables n) x), hrest,
          Option.map_none]

end Scanner

/-! ## §4. The last line. -/

namespace MemoryBuffer

variable {b : MemoryBuffer} {p q r f j : Nat}

/-- The character at `f` is in a comment: there is a `#` in front of it in its line. -/
def Commented (b : MemoryBuffer) (f : Nat) : Prop :=
  ∃ j < f, b.read j = some 35 ∧ ∀ i c, j < i → i < f → b.read i = some c → isLineEnd c = false

/-- The last character is a `=` that is in no comment. -/
def EndsInEqual (b : MemoryBuffer) : Prop := ∃ f, b.FinalEqual f ∧ ¬ b.Commented f

/-- The characters of a label do not go past one that is not of a label. -/
theorem Labels.stop_le {c : UInt8} (h : b.Labels q r) (hc : b.read f = some c)
    (hlabel : isLabelChar c = false) (hq : q < f) : r ≤ f := by
  by_contra hlt
  obtain ⟨c', hc', hlabel'⟩ := h.labels f hq (Nat.lt_of_not_le hlt)
  rw [hc, Option.some.injEq] at hc'
  rw [← hc', hlabel] at hlabel'
  cases hlabel'

/-- The end of a line that a comment in the last line is on, is the end of the file. -/
theorem LineEnds.of_last (h : b.LineEnds p r)
    (hlast : ∀ i c, j < i → i < b.size → b.read i = some c → isLineEnd c = false) :
    r ≤ j ∨ r = b.size := by
  rcases h.stop with hend | ⟨c, hc, hend⟩
  · exact .inr hend
  · refine .inl (Nat.le_of_not_lt fun hlt => ?_)
    rcases Nat.lt_or_eq_of_le h.bound with hbound | heq
    · rw [hlast r c hlt hbound hc] at hend
      cases hend
    · rw [heq, read_size, Option.some.injEq] at hc
      rw [← hc] at hend
      exact absurd hend (by decide)

/-- What is passed by from in front of a comment in the last line ends there or with the file. -/
theorem Skips.of_last (h : b.Skips p q)
    (hlast : ∀ i c, j < i → i < b.size → b.read i = some c → isLineEnd c = false)
    (hj : b.read j = some 35) (hp : p ≤ j ∨ p = b.size) : q ≤ j ∨ q = b.size := by
  induction h with
  | refl => exact hp
  | @blank p q c hlt hc hblank _ ih =>
      rcases hp with hle | rfl
      · rcases Nat.lt_or_eq_of_le hle with h | rfl
        · exact ih (.inl h)
        · rw [hj, Option.some.injEq] at hc
          rw [← hc] at hblank
          exact absurd hblank (by decide)
      · exact absurd hlt (Nat.lt_irrefl _)
  | comment _ _ _ hline _ ih => exact ih (hline.of_last hlast)

/-- What begins with another character begins in front of `j`. -/
theorem lt_of_read_ne {c d : UInt8} (hj : b.read j = some d) (hc : b.read q = some c) (hne : c ≠ d)
    (hq : q ≤ j) : q < j := by
  refine Nat.lt_of_le_of_ne hq fun heq => hne ?_
  rw [heq, hj, Option.some.injEq] at hc
  exact hc.symm

/-- A word ends in front of a character that is in no word. -/
theorem Labels.stop_le_of_ne {d : UInt8} (h : b.Labels q r) (hj : b.read j = some d)
    (hlabel : isLabelChar d = false) (hstart : isWordChar d = false) (hq : q ≤ j) : r ≤ j := by
  obtain ⟨c, hc, hword⟩ := h.start
  refine h.stop_le hj hlabel (lt_of_read_ne hj hc (fun heq => ?_) hq)
  rw [heq, hstart] at hword
  cases hword

/-- A token in front of a comment in the last line ends there or with the file. -/
theorem Token.of_last {x : Lexeme} {start stop : Nat} (h : b.Token q x start stop)
    (hlast : ∀ i c, j < i → i < b.size → b.read i = some c → isLineEnd c = false)
    (hj : b.read j = some 35) (hq : q ≤ j) : stop ≤ j ∨ stop = b.size := by
  cases h with
  | sign hc hg =>
      refine .inl (lt_of_read_ne hj hc (fun heq => ?_) hq)
      have hnone : signs.lookup 35 = none := by decide
      rw [heq, hnone] at hg
      cases hg
  | equal _ hc _ => exact .inl (lt_of_read_ne hj hc (by decide) hq)
  | lastEqual _ _ => exact .inl hq
  | dblarrow _ hc hc' =>
      have hlt := lt_of_read_ne hj hc (by decide) hq
      have hne' : q + 1 ≠ j := by
        intro heq
        rw [heq, hj, Option.some.injEq] at hc'
        exact absurd hc' (by decide)
      exact .inl (by omega)
  | autodoc _ _ _ hline => exact hline.of_last hlast
  | cardinal h _ => exact .inl (h.stop_le_of_ne hj rfl rfl hq)
  | error h => exact .inl (h.stop_le_of_ne hj rfl rfl hq)
  | word h => exact .inl (h.stop_le_of_ne hj rfl rfl hq)

/-- A line with a `#` in front of `f` ends in front of `f`, if `f` is in no comment. -/
theorem LineEnds.of_not_commented (h : b.LineEnds p r) (hf : ¬ b.Commented f) (hq : q < f)
    (hc : b.read q = some 35)
    (hbetween : ∀ i c, q < i → i < p → b.read i = some c → isLineEnd c = false) : r ≤ f := by
  refine Nat.le_of_not_lt fun hlt => hf ⟨q, hq, hc, fun i c h1 h2 hread => ?_⟩
  rcases Nat.lt_or_ge i p with hip | hip
  · exact hbetween i c h1 hip hread
  · exact h.line i c hip (Nat.lt_trans h2 hlt) hread

/-- A final `=` in no comment is not passed by. -/
theorem Skips.of_finalEqual (h : b.Skips p q) (hf : b.FinalEqual f) (hcomment : ¬ b.Commented f)
    (hp : p ≤ f) : q ≤ f := by
  induction h with
  | refl => exact hp
  | @blank p q c _ hc hblank _ ih =>
      refine ih (Nat.lt_of_le_of_ne hp fun heq => ?_)
      rw [heq, hf.2, Option.some.injEq] at hc
      rw [← hc] at hblank
      exact absurd hblank (by decide)
  | @comment p q r _ hc _ hline _ ih =>
      have hlt : p < f := by
        refine Nat.lt_of_le_of_ne hp fun heq => ?_
        rw [heq, hf.2] at hc
        exact absurd hc (by decide)
      refine ih (hline.of_not_commented hcomment hlt hc fun i c h1 h2 => ?_)
      omega

/-- No token goes past a final `=` in no comment. -/
theorem Token.of_not_commented {x : Lexeme} {start stop : Nat} (h : b.Token q x start stop)
    (hf : b.FinalEqual f) (hcomment : ¬ b.Commented f) (hq : q ≤ f) : stop ≤ f := by
  have hsize := hf.1
  cases h with
  -- a token of one character ends in front of the last `=`, if it begins there
  | sign hc hg =>
      refine lt_of_read_ne hf.2 hc (fun heq => ?_) hq
      have hnone : signs.lookup 61 = none := by decide
      rw [heq, hnone] at hg
      cases hg
  | equal hlt _ _ => omega
  | lastEqual _ _ => exact hq
  | dblarrow hlt hc hc' =>
      have hne' : q + 1 ≠ f := by
        intro heq
        rw [heq, hf.2, Option.some.injEq] at hc'
        exact absurd hc' (by decide)
      omega
  -- documentation would reach the end of its line, and the `=` is not in it
  | autodoc hlt hc hc' hline =>
      have hlt' := lt_of_read_ne hf.2 hc (by decide) hq
      refine hline.of_not_commented hcomment hlt' hc fun i c h1 h2 hread => ?_
      obtain rfl : i = q + 1 := by omega
      rw [hc', Option.some.injEq] at hread
      rw [← hread]
      decide
  -- none of the characters of these is a `=`
  | cardinal h _ => exact h.stop_le_of_ne hf.2 rfl rfl hq
  | error h => exact h.stop_le_of_ne hf.2 rfl rfl hq
  | word h => exact h.stop_le_of_ne hf.2 rfl rfl hq

end MemoryBuffer

namespace Scanner

variable {b : MemoryBuffer}

/-- The places that a file can be read from to its end: all of them if it does not end in a `=`, and
else the ones up to a comment in its last line. -/
def Good (b : MemoryBuffer) (p : Nat) : Prop :=
  p ≤ b.size ∧ ∀ f, b.FinalEqual f → ∃ j < f, b.read j = some 35 ∧
    (∀ i c, j < i → i < b.size → b.read i = some c → isLineEnd c = false) ∧ (p ≤ j ∨ p = b.size)

theorem advances_good (b : MemoryBuffer) : Advances b (Good b) := by
  rintro p ⟨hle, hfinal⟩
  refine ⟨hle, fun x start stop hdelivers => ?_⟩
  have hprogress := hdelivers.progress
  obtain ⟨q, val, hskips, hq, htoken, -⟩ := hdelivers
  rcases hprogress with ⟨hlt, hbound⟩ | ⟨hf, -⟩
  · refine ⟨hlt, hbound, fun f hf => ?_⟩
    obtain ⟨j, hjf, hj, hlast, hp⟩ := hfinal f hf
    refine ⟨j, hjf, hj, hlast, ?_⟩
    rcases hskips.of_last hlast hj hp with hqj | rfl
    · exact htoken.of_last hlast hj hqj
    · exact absurd hq (Nat.lt_irrefl _)
  · -- a call at the final `=` is not made: the comment is in front of it
    obtain ⟨j, hjf, -, -, hp⟩ := hfinal p hf
    have hsize := hf.1
    omega

/-- The whole file is read unless it ends in a `=` that is in no comment. -/
theorem good_zero (h : ¬ b.EndsInEqual) : Good b 0 := by
  refine ⟨Nat.zero_le _, fun f hf => ?_⟩
  have hcomment : b.Commented f := by
    by_contra hno
    exact h ⟨f, hf, hno⟩
  obtain ⟨j, hjf, hj, hline⟩ := hcomment
  refine ⟨j, hjf, hj, fun i c h1 h2 hc => ?_, .inl (Nat.zero_le j)⟩
  have hsize := hf.1
  have hif : i ≤ f := by omega
  rcases Nat.lt_or_eq_of_le hif with hlt | rfl
  · exact hline i c h1 hlt hc
  · rw [hf.2, Option.some.injEq] at hc
    rw [← hc]
    decide

/-- **Tokenising comes to the end of the file exactly when** the last character is not a `=`, or is
in a comment. -/
theorem tokenises_iff {tables : Nat → SymbolTable} (htables : ∀ n, (tables n).Grown) :
    Tokenises b tables ↔ ¬ b.EndsInEqual := by
  constructor
  · rintro ⟨fuel, ks, hks⟩ ⟨f, hf, hcomment⟩
    have hsize := hf.1
    have hstays : ∀ p, p ≤ f → p ≤ b.size ∧ ¬ Ends b p ∧
        ∀ x start stop, Delivers b p x start stop → stop ≤ f := by
      intro p hp
      refine ⟨by omega, fun hends => ?_, fun x start stop hdelivers => ?_⟩
      · have hle := hends.1.of_finalEqual hf hcomment hp
        omega
      · obtain ⟨q, val, hskips, hq, htoken, -⟩ := hdelivers
        exact htoken.of_not_commented hf hcomment (hskips.of_finalEqual hf hcomment hp)
    rw [not_tokenise_of_stays hstays htables (Nat.zero_le f) rfl] at hks
    cases hks
  · intro h
    exact tokenise_of_advances (advances_good b) tables (good_zero h) rfl 0

/-- **When lexing makes progress**: a call does unless it is made at a `=` that is the last character
of the file, and cutting the file into tokens ends unless its last character is a `=` in no
comment. -/
theorem lexing_progress_iff (b : MemoryBuffer) :
    (∀ (symbols : SymbolTable) (s : Scanner), s.nextKind = none → s.curPtr ≤ b.size →
      (Progress b symbols s ↔ ¬ b.FinalEqual s.curPtr)) ∧
    ∀ tables : Nat → SymbolTable, (∀ n, (tables n).Grown) →
      (Tokenises b tables ↔ ¬ b.EndsInEqual) :=
  ⟨fun symbols _ hs hp => progress_iff symbols hs hp, fun _ htables => tokenises_iff htables⟩

/-- The file `a=>b` with `#=` in a second line. -/
def commented : MemoryBuffer := ⟨[97, 61, 62, 98, 10, 35, 61]⟩

/-- The call at the first `=` makes progress; the last one is in a comment. -/
theorem lexing_progress_commented :
    Progress commented .populated { init with curPtr := 1 } ∧
      Tokenises commented fun _ => .populated := by
  have hlast : ∀ f, commented.FinalEqual f → f = 6 := by
    intro f hf
    exact Nat.succ.inj hf.1
  have hcomment : commented.Commented 6 := by
    refine ⟨5, by decide, by decide, fun i c h1 h2 _ => ?_⟩
    omega
  obtain ⟨hprogress, htokenises⟩ := lexing_progress_iff commented
  constructor
  · apply (hprogress .populated { init with curPtr := 1 } rfl (by decide)).mpr
    intro hf
    exact absurd (hlast 1 hf) (by decide)
  · apply (htokenises (fun _ => .populated) fun _ => SymbolTable.grown_populated).mpr
    intro ⟨f, hf, hno⟩
    rw [hlast f hf] at hno
    exact hno hcomment

/-- The file `=`: the call returns `equal`, and the pointer is where it was. -/
theorem equal_stays :
    ¬ (Progress ⟨[61]⟩ .populated init ∧ Tokenises ⟨[61]⟩ fun _ => .populated) := by
  rintro ⟨hprogress, -⟩
  exact (progress_iff .populated rfl (Nat.zero_le _)).mp hprogress ⟨rfl, rfl⟩

/-! ## §5. The lexer of the parser. -/

/-- The lexemes from `p` on to the end of the file. -/
inductive Lexes (b : MemoryBuffer) : Nat → List Lexeme → Prop where
  | nil {p : Nat} (h : Ends b p) : Lexes b p []
  | cons {p start stop : Nat} {x : Lexeme} {xs : List Lexeme} (h : Delivers b p x start stop)
      (hrest : Lexes b stop xs) : Lexes b p (x :: xs)

theorem exists_lexes_of_advances {good : Nat → Prop} (hgood : Advances b good) {p : Nat}
    (hp : good p) : ∃ w, Lexes b p w := by
  induction hm : b.size - p using Nat.strong_induction_on generalizing p with
  | h m ih =>
      obtain ⟨hle, hnext⟩ := hgood p hp
      rcases lex_spec hle with hends | ⟨x, start, stop, hdelivers⟩
      · exact ⟨[], .nil hends⟩
      · obtain ⟨hlt, hstop⟩ := hnext x start stop hdelivers
        have hbound := (hgood stop hstop).1
        obtain ⟨w, hw⟩ := ih (b.size - stop) (by omega) hstop rfl
        exact ⟨x :: w, .cons hdelivers hw⟩

/-- The lexer is where the one over lexemes is: what is left, the token that was put back, and what
can be asked about the last one. -/
structure Refines (b : MemoryBuffer) (s : Scanner) (st : State) : Prop where
  rest : Lexes b s.curPtr st.rest
  nextKind : s.nextKind = st.nextKind
  word : ∀ w, st.cur = some (.word w) → s.currentToken b = w.text
  autodoc : ∀ line, st.cur = some (.autodoc line) → s.currentToken b = line
  cardinal : ∀ v, st.cur = some (.cardinal v) → s.tokenVal = v

theorem init_refines {w : List Lexeme} (h : Lexes b 0 w) : Refines b init (.init w) :=
  ⟨h, rfl, fun _ h => (nomatch h), fun _ h => (nomatch h), fun _ h => (nomatch h)⟩

/-- The text of a word and of documentation is what is between the pointers. -/
theorem currentToken_of_delivers {p start stop : Nat} {x : Lexeme}
    (h : Delivers b p x start stop) :
    (∀ w, x = .word w → spelling (b.slice start stop) = w.text) ∧
      ∀ line, x = .autodoc line → spelling (b.slice start stop) = line := by
  obtain ⟨q, val, -, -, htoken, -⟩ := h
  cases htoken with
  | word h => exact ⟨fun w heq => by cases heq; rfl, fun _ heq => (nomatch heq)⟩
  | autodoc _ _ _ _ => exact ⟨fun _ heq => (nomatch heq), fun _ heq => Lexeme.autodoc.inj heq⟩
  | sign _ _ => exact ⟨fun _ heq => (nomatch heq), fun _ heq => (nomatch heq)⟩
  | equal _ _ _ => exact ⟨fun _ heq => (nomatch heq), fun _ heq => (nomatch heq)⟩
  | lastEqual _ _ => exact ⟨fun _ heq => (nomatch heq), fun _ heq => (nomatch heq)⟩
  | dblarrow _ _ _ => exact ⟨fun _ heq => (nomatch heq), fun _ heq => (nomatch heq)⟩
  | cardinal _ _ => exact ⟨fun _ heq => (nomatch heq), fun _ heq => (nomatch heq)⟩
  | error _ => exact ⟨fun _ heq => (nomatch heq), fun _ heq => (nomatch heq)⟩

/-- **`lex` over the bytes** returns the kind that the parser's `lex` over the lexemes has. -/
theorem lex_refines {s : Scanner} {st : State} (h : Refines b s st) :
    ∃ s', lex b st.symbols s = some (st.lex.curKind, s') ∧ Refines b s' st.lex ∧
      s'.curKind = some st.lex.curKind := by
  obtain ⟨hrest, hnext, hword, hautodoc, hcardinal⟩ := h
  unfold State.lex
  cases hk : st.nextKind with
  -- a token that was put back
  | some k =>
      refine ⟨{ s with nextKind := none, curKind := some k }, ?_,
        ⟨hrest, rfl, hword, hautodoc, hcardinal⟩, rfl⟩
      unfold lex getToken
      rw [hnext, hk]
      rfl
  | none =>
      rw [hk] at hnext
      generalize hp : s.curPtr = p at hrest
      cases hxs : st.rest with
      | nil =>
          rw [hxs] at hrest
          cases hrest with
          -- at the end every further call gives `eof`
          | nil hends =>
              refine ⟨_, hends.2 st.symbols s hp hnext, ?_, rfl⟩
              refine ⟨?_, hnext, fun _ h => (nomatch h), fun _ h => (nomatch h),
                fun _ h => (nomatch h)⟩
              rcases lex_spec (le_refl b.size) with hend | ⟨x, start, stop, q, val, hskips, hq, -⟩
              · exact .nil hend
              · exact absurd hskips.le (Nat.not_le_of_lt hq)
      | cons x xs =>
          rw [hxs] at hrest
          cases hrest with
          | @cons _ start stop _ _ hdelivers hrest =>
              obtain ⟨hw, hline⟩ := currentToken_of_delivers hdelivers
              obtain ⟨q, val, -, -, -, hval, hlex⟩ := hdelivers
              refine ⟨_, hlex st.symbols s hp hnext, ?_, rfl⟩
              exact ⟨hrest, hnext, fun w h => hw w (Option.some.inj h),
                fun line h => hline line (Option.some.inj h),
                fun v h => hval v _ (Option.some.inj h)⟩

/-- What the calls of `lex` leave as the kind, over lexemes. -/
def kinds : List Call → State → List Kind
  | [], _ => []
  | .lex symbols :: cs, st =>
      let st' := { st with symbols := symbols }.lex
      st'.curKind :: kinds cs st'
  | .lexback :: cs, st => kinds cs st.lexback

theorem calls_refines (cs : List Call) {s : Scanner} {st : State} (h : Refines b s st)
    (hcur : s.curKind = some st.curKind) : calls b cs s = some (kinds cs st) := by
  induction cs generalizing s st with
  | nil => rfl
  | cons c cs ih =>
      cases c with
      | lex symbols =>
          have hsym : Refines b s { st with symbols := symbols } :=
            ⟨h.rest, h.nextKind, h.word, h.autodoc, h.cardinal⟩
          obtain ⟨s', hlex, h', hcur'⟩ := lex_refines hsym
          rw [calls, hlex, Option.bind_some]
          simp only [ih h' hcur', Option.map_some, kinds]
      | lexback =>
          have hback : Refines b s.lexback st.lexback :=
            ⟨h.rest, hcur, h.word, h.autodoc, h.cardinal⟩
          exact ih hback hcur

/-- **A file is a list of lexemes** for the parser, unless it ends in a `=` that is in no comment:
the calls of a parser, whatever its table is at each of them and whatever it puts back, return the
kinds of these lexemes. -/
theorem file_refines (h : ¬ b.EndsInEqual) :
    ∃ w, ∀ symbols cs, calls b (.lex symbols :: cs) init =
      some (kinds (.lex symbols :: cs) (State.init w)) := by
  obtain ⟨w, hw⟩ := exists_lexes_of_advances (advances_good b) (good_zero h)
  refine ⟨w, fun symbols cs => ?_⟩
  have hinit := init_refines hw
  have hsym : Refines b init { State.init w with symbols := symbols } :=
    ⟨hinit.rest, hinit.nextKind, hinit.word, hinit.autodoc, hinit.cardinal⟩
  obtain ⟨s', hlex, h', hcur'⟩ := lex_refines hsym
  rw [calls, hlex, Option.bind_some]
  simp only [calls_refines cs h' hcur', Option.map_some, kinds]

end Scanner

end Metta.Meddler
