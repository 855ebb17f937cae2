/-
  Metta.ParseDwarf.LineLookup — from an address to a line.

  The look-ups take the first row whose address is not above the program
  counter while the next row's is not below it.  A row ends before the address
  of the next one, so this is the row before the right one when the program
  counter is where a row begins.

    • `Covers` — the row that the program counter belongs to,
    • `findRow_spec` — what the loop finds,
    • `reports_iff` — when it is that row, for every matrix and address.
-/
import Metta.ParseDwarf.Lines

namespace Metta.ParseDwarf

open Metta.Machine

/-! ## §1. The rows of a matrix. -/

/-- The row `next` comes directly behind `row`, which has the index `i`. -/
def Adjacent (matrix : List LineRegs) (i : Nat) (row next : LineRegs) : Prop :=
  matrix[i]? = some row ∧ matrix[i + 1]? = some next

/-- The row `i` has the greatest index of those whose address is not above `pc`.  It covers `pc`
when there is a row behind it and it does not end a sequence. -/
structure Covers (matrix : List LineRegs) (pc : UInt32) (i : Nat) (row : LineRegs) : Prop where
  here : matrix[i]? = some row
  below : row.address ≤ pc
  greatest : ∀ j r, matrix[j]? = some r → r.address ≤ pc → j ≤ i
  extent : i + 1 < matrix.length
  inside : row.endSequence = false

/-- The addresses do not go down. -/
def Increasing (matrix : List LineRegs) : Prop :=
  matrix.Pairwise fun a b => a.address ≤ b.address

/-- The look-ups report the row that covers the address, with its line and the name of its file,
and they report no line and no name when there is none. -/
structure Reports (lines : DebugLines) (pc lowPc highPc : UInt32) : Prop where
  covered : ∀ i row, Covers lines.stateMatrix pc i row →
    lines.row pc lowPc highPc = .ok (some (i, row)) ∧
      lines.lineNumber pc lowPc highPc = .ok row.line ∧
      lines.fileName pc lowPc highPc = lines.nameOf row
  uncovered : (∀ i row, ¬ Covers lines.stateMatrix pc i row) →
    lines.row pc lowPc highPc = .ok none ∧ lines.lineNumber pc lowPc highPc = .ok 0 ∧
      lines.fileName pc lowPc highPc = .ok []

/-- Behind no row of the subprogram another one begins at `pc`, and the row that `pc` lies in is
one of the subprogram exactly when it does not end a sequence. -/
def Clear (matrix : List LineRegs) (pc lowPc highPc : UInt32) : Prop :=
  ∀ i row next, Adjacent matrix i row next →
    (next.address = pc → row.address < lowPc) ∧
    (row.address ≤ pc → pc < next.address →
      (row.endSequence = false ↔ lowPc ≤ row.address ∧ next.address ≤ highPc))

variable {matrix : List LineRegs} {pc lowPc highPc : UInt32} {i j : Nat} {row next : LineRegs}

theorem Increasing.le (h : Increasing matrix) {a b : LineRegs} (ha : matrix[i]? = some a)
    (hb : matrix[j]? = some b) (hij : i < j) : a.address ≤ b.address := by
  obtain ⟨hi, rfl⟩ := List.getElem?_eq_some_iff.mp ha
  obtain ⟨hj, rfl⟩ := List.getElem?_eq_some_iff.mp hb
  exact List.pairwise_iff_getElem.mp h i j hi hj hij

theorem Adjacent.le (h : Increasing matrix) (hadj : Adjacent matrix i row next) :
    row.address ≤ next.address := h.le hadj.1 hadj.2 (Nat.lt_succ_self i)

theorem Adjacent.unique {row' next' : LineRegs} (h : Adjacent matrix i row next)
    (h' : Adjacent matrix i row' next') : row = row' ∧ next = next' := by
  refine ⟨Option.some.inj ?_, Option.some.inj ?_⟩
  · rw [← h.1, ← h'.1]
  · rw [← h.2, ← h'.2]

theorem exists_adjacent (h : i + 1 < matrix.length) : ∃ row next, Adjacent matrix i row next :=
  ⟨_, _, List.getElem?_eq_getElem (Nat.lt_of_succ_lt h), List.getElem?_eq_getElem h⟩

/-- A row whose successor is above `pc` is the last one that is not. -/
theorem Adjacent.greatest (h : Increasing matrix) (hadj : Adjacent matrix i row next)
    (hnext : pc < next.address) {r : LineRegs} (hr : matrix[j]? = some r)
    (hle : r.address ≤ pc) : j ≤ i := by
  by_contra hgt
  have hlast : next.address ≤ r.address := by
    rcases Nat.eq_or_lt_of_le (Nat.lt_of_not_le hgt) with heq | hlt
    · have hsame := hadj.2
      rw [show i + 1 = j from heq, hr] at hsame
      rw [Option.some.inj hsame]
      exact UInt32.le_refl _
    · exact h.le hadj.2 hr hlt
  exact UInt32.not_lt.mpr (UInt32.le_trans hlast hle) hnext

/-! ## §2. The loop. -/

/-- What the loop looks for. -/
def Hit (pc lowPc highPc : UInt32) (row next : LineRegs) : Prop :=
  row.address ≥ lowPc ∧ row.address ≤ pc ∧ next.address ≥ pc ∧ next.address ≤ highPc

/-- **The loop** finds the first pair of rows that it looks for, or there is none. -/
theorem findRow_spec (pc lowPc highPc : UInt32) {n : Nat} (hlen : i + n + 1 = matrix.length) :
    (DebugLines.findRow matrix pc lowPc highPc n i = .ok none ∧
      ∀ j row next, i ≤ j → Adjacent matrix j row next → ¬ Hit pc lowPc highPc row next) ∨
    ∃ k row next, DebugLines.findRow matrix pc lowPc highPc n i = .ok (some (k, row)) ∧
      Adjacent matrix k row next ∧ Hit pc lowPc highPc row next ∧
      ∀ j row next, i ≤ j → Adjacent matrix j row next → Hit pc lowPc highPc row next → k ≤ j := by
  induction n generalizing i with
  | zero =>
      refine .inl ⟨rfl, fun j row next hj hadj => ?_⟩
      obtain ⟨hlt, -⟩ := List.getElem?_eq_some_iff.mp hadj.2
      omega
  | succ n ih =>
      obtain ⟨l, h, hadj⟩ := exists_adjacent (by omega : i + 1 < matrix.length)
      have hstep : DebugLines.findRow matrix pc lowPc highPc (n + 1) i
          = if l.address ≥ lowPc ∧ l.address ≤ pc ∧ h.address ≥ pc ∧ h.address ≤ highPc
            then .ok (some (i, l)) else DebugLines.findRow matrix pc lowPc highPc n (i + 1) := by
        rw [DebugLines.findRow, hadj.1, hadj.2]
      rw [hstep]
      by_cases hhit : Hit pc lowPc highPc l h
      · exact .inr ⟨i, l, h, if_pos hhit, hadj, hhit, fun j _ _ hj _ _ => hj⟩
      · -- the pair at `i` is not the one, so it is further on
        have hnot : ∀ j row next, i ≤ j → Adjacent matrix j row next →
            Hit pc lowPc highPc row next → i + 1 ≤ j := by
          intro j row next hj hadj' hhit'
          rcases Nat.eq_or_lt_of_le hj with rfl | hlt
          · obtain ⟨rfl, rfl⟩ := hadj.unique hadj'
            exact absurd hhit' hhit
          · exact hlt
        rw [if_neg (show ¬ (l.address ≥ lowPc ∧ l.address ≤ pc ∧ h.address ≥ pc ∧
          h.address ≤ highPc) from hhit)]
        rcases ih (show i + 1 + n + 1 = matrix.length by omega) with
          ⟨hnone, hno⟩ | ⟨k, r, nx, hsome, hk, hkhit, hfirst⟩
        · refine .inl ⟨hnone, fun j row next hj hadj' hhit' => ?_⟩
          exact hno j row next (hnot j row next hj hadj' hhit') hadj' hhit'
        · refine .inr ⟨k, r, nx, hsome, hk, hkhit, fun j row next hj hadj' hhit' => ?_⟩
          exact hfirst j row next (hnot j row next hj hadj' hhit') hadj' hhit'

/-- What the look-ups find in a matrix with a row. -/
theorem row_spec (lines : DebugLines) (pc lowPc highPc : UInt32) (hne : lines.stateMatrix ≠ []) :
    (lines.row pc lowPc highPc = .ok none ∧ ∀ j row next,
      Adjacent lines.stateMatrix j row next → ¬ Hit pc lowPc highPc row next) ∨
    ∃ k row next, lines.row pc lowPc highPc = .ok (some (k, row)) ∧
      Adjacent lines.stateMatrix k row next ∧ Hit pc lowPc highPc row next ∧
      ∀ j row next, Adjacent lines.stateMatrix j row next → Hit pc lowPc highPc row next →
        k ≤ j := by
  have hpos := List.length_pos_iff.mpr hne
  have hturns : DebugLines.turnsOver lines.stateMatrix = lines.stateMatrix.length - 1 := by
    unfold DebugLines.turnsOver
    rw [if_neg (by omega)]
  unfold DebugLines.row
  rw [hturns]
  rcases findRow_spec pc lowPc highPc
    (by omega : 0 + (lines.stateMatrix.length - 1) + 1 = lines.stateMatrix.length) with
    ⟨hnone, hno⟩ | ⟨k, row, next, hsome, hk, hhit, hfirst⟩
  · exact .inl ⟨hnone, fun j row next => hno j row next (Nat.zero_le j)⟩
  · exact .inr ⟨k, row, next, hsome, hk, hhit, fun j r nx => hfirst j r nx (Nat.zero_le j)⟩

/-- In a matrix with no row the first index is outside. -/
theorem row_of_nil (lines : DebugLines) (h : lines.stateMatrix = []) :
    lines.row pc lowPc highPc = .error .index := by
  unfold DebugLines.row
  rw [h]
  rfl

/-- The row decides what is reported. -/
theorem reports_of_row {lines : DebugLines}
    (hcov : ∀ i row, Covers lines.stateMatrix pc i row →
      lines.row pc lowPc highPc = .ok (some (i, row)))
    (hunc : (∀ i row, ¬ Covers lines.stateMatrix pc i row) →
      lines.row pc lowPc highPc = .ok none) : Reports lines pc lowPc highPc := by
  constructor
  · intro i row h
    have hrow := hcov i row h
    unfold DebugLines.lineNumber DebugLines.fileName
    rw [hrow]
    exact ⟨rfl, rfl, rfl⟩
  · intro h
    have hrow := hunc h
    unfold DebugLines.lineNumber DebugLines.fileName
    rw [hrow]
    exact ⟨rfl, rfl, rfl⟩

/-! ## §3. When the right row is found. -/

/-- The row that the loop finds first covers the address when it is the right one. -/
theorem Clear.covers (hinc : Increasing matrix) (hclear : Clear matrix pc lowPc highPc)
    (hadj : Adjacent matrix i row next) (hhit : Hit pc lowPc highPc row next) :
    Covers matrix pc i row := by
  obtain ⟨hlow, hle, hge, hhigh⟩ := hhit
  obtain ⟨hbegin, hown⟩ := hclear i row next hadj
  have hlt : pc < next.address := by
    refine UInt32.lt_of_le_of_ne hge fun heq => ?_
    exact UInt32.not_lt.mpr hlow (hbegin heq.symm)
  obtain ⟨hextent, -⟩ := List.getElem?_eq_some_iff.mp hadj.2
  exact ⟨hadj.1, hle, fun j r hr hrle => hadj.greatest hinc hlt hr hrle, hextent,
    (hown hle hlt).mpr ⟨hlow, hhigh⟩⟩

/-- The row that covers the address is one that the loop looks for. -/
theorem Covers.hit (hclear : Clear matrix pc lowPc highPc)
    (h : Covers matrix pc i row) : ∃ next, Adjacent matrix i row next ∧
      pc < next.address ∧ Hit pc lowPc highPc row next := by
  obtain ⟨row', next, hadj⟩ := exists_adjacent h.extent
  obtain rfl : row' = row := Option.some.inj (hadj.1.symm.trans h.here)
  have hlt : pc < next.address := by
    by_contra hge
    have := h.greatest (i + 1) next hadj.2 (UInt32.not_lt.mp hge)
    omega
  obtain ⟨hlow, hhigh⟩ := ((hclear i row' next hadj).2 h.below hlt).mp h.inside
  exact ⟨next, hadj, hlt, hlow, h.below, UInt32.le_of_lt hlt, hhigh⟩

/-- **The look-ups report the right row** exactly when the matrix has a row and is clear at the
address. -/
theorem reports_iff (lines : DebugLines) (hinc : Increasing lines.stateMatrix) (pc lowPc : UInt32)
    {highPc : UInt32} (hhigh : pc < highPc) :
    Reports lines pc lowPc highPc ↔
      lines.stateMatrix ≠ [] ∧ Clear lines.stateMatrix pc lowPc highPc := by
  constructor
  · intro h
    have hne : lines.stateMatrix ≠ [] := by
      intro hnil
      have hno : ∀ i row, ¬ Covers lines.stateMatrix pc i row := fun i row hcov => by
        have := hcov.extent
        rw [hnil] at this
        cases this
      have hrow := (h.uncovered hno).1
      rw [row_of_nil lines hnil] at hrow
      cases hrow
    -- a pair that the loop looks for is not before the row that covers the address
    have hfound : ∀ i row next, Adjacent lines.stateMatrix i row next →
        Hit pc lowPc highPc row next → ∃ k r, Covers lines.stateMatrix pc k r ∧ k ≤ i := by
      intro i row next hadj hhit
      rcases row_spec lines pc lowPc highPc hne with ⟨-, hno⟩ | ⟨k, r, nx, hsome, -, -, hfirst⟩
      · exact absurd hhit (hno i row next hadj)
      · by_cases hcov : ∃ g r', Covers lines.stateMatrix pc g r'
        · obtain ⟨g, r', hg⟩ := hcov
          have hrow := hsome.symm.trans (h.covered g r' hg).1
          simp only [Except.ok.injEq, Option.some.injEq, Prod.mk.injEq] at hrow
          rw [← hrow.1] at hg
          exact ⟨k, r', hg, hfirst i row next hadj hhit⟩
        · have hrow := hsome.symm.trans (h.uncovered fun g r' hg => hcov ⟨g, r', hg⟩).1
          simp at hrow
    refine ⟨hne, fun i row next hadj => ⟨fun hpc => ?_, fun hle hlt => ⟨fun hin => ?_, ?_⟩⟩⟩
    · -- the row before one that begins at the address would be found
      by_contra hge
      have hle : row.address ≤ pc := hpc ▸ hadj.le hinc
      have hhit : Hit pc lowPc highPc row next :=
        ⟨UInt32.not_lt.mp hge, hle, UInt32.le_of_eq hpc.symm,
          UInt32.le_trans (UInt32.le_of_eq hpc) (UInt32.le_of_lt hhigh)⟩
      obtain ⟨k, r, hk, hki⟩ := hfound i row next hadj hhit
      have := hk.greatest (i + 1) next hadj.2 (UInt32.le_of_eq hpc)
      omega
    · -- the row covers the address, so it has been found
      obtain ⟨hextent, -⟩ := List.getElem?_eq_some_iff.mp hadj.2
      have hcov : Covers lines.stateMatrix pc i row :=
        ⟨hadj.1, hle, fun j r hr hrle => hadj.greatest hinc hlt hr hrle, hextent, hin⟩
      have hrow := (h.covered i row hcov).1
      rcases row_spec lines pc lowPc highPc hne with ⟨hnone, -⟩ | ⟨k, r, nx, hsome, hk, hkhit, -⟩
      · rw [hnone] at hrow
        simp at hrow
      · rw [hsome] at hrow
        simp only [Except.ok.injEq, Option.some.injEq, Prod.mk.injEq] at hrow
        obtain ⟨rfl, rfl⟩ := hrow
        obtain ⟨-, rfl⟩ := hadj.unique hk
        exact ⟨hkhit.1, hkhit.2.2.2⟩
    · -- a row that ends a sequence covers nothing, and so it is not in the way
      intro hbounds
      have hhit : Hit pc lowPc highPc row next :=
        ⟨hbounds.1, hle, UInt32.le_of_lt hlt, hbounds.2⟩
      obtain ⟨k, r, hk, hki⟩ := hfound i row next hadj hhit
      obtain rfl : k = i := Nat.le_antisymm hki (hk.greatest i row hadj.1 hle)
      rw [← Option.some.inj (hk.here.symm.trans hadj.1)]
      exact hk.inside
  · rintro ⟨hne, hclear⟩
    rcases row_spec lines pc lowPc highPc hne with ⟨hnone, hno⟩ | ⟨k, r, nx, hsome, hk, hkhit, hfirst⟩
    · refine reports_of_row (fun i row hcov => ?_) fun _ => hnone
      obtain ⟨next, hadj, -, hhit⟩ := hcov.hit hclear
      exact absurd hhit (hno i row next hadj)
    · have hcov := hclear.covers hinc hk hkhit
      refine reports_of_row (fun i row hcov' => ?_) fun hno => absurd hcov (hno k r)
      obtain rfl : i = k := Nat.le_antisymm
        (hcov.greatest i row hcov'.here hcov'.below) (hcov'.greatest k r hcov.here hcov.below)
      rw [Option.some.inj (hcov'.here.symm.trans hcov.here)]
      exact hsome

/-- Two lines of code, four bytes each. -/
def twoLines : DebugLines where
  header := ⟨0, 3, 0, 1, 1, 0, 1, 10, [], [], [⟨[97, 0], 0, 0, 0⟩], 0⟩
  currentRegs := ⟨0, 1, 1, 0, true, false, false, false, false, 0, false, false⟩
  stateMatrix :=
    [⟨0x100, 1, 1, 0, true, false, false, false, false, 0, true, false⟩,
      ⟨0x104, 1, 2, 0, true, false, false, false, false, 0, true, false⟩,
      ⟨0x108, 1, 2, 0, true, false, true, false, false, 0, false, true⟩]

/-- Inside of the second line the second row is reported. -/
theorem reports_inside_second :
    Reports twoLines 0x106 0x100 0x108 ∧ twoLines.lineNumber 0x106 0x100 0x108 = .ok 2 := by
  refine ⟨(reports_iff twoLines (by unfold Increasing; decide) 0x106 0x100 (by decide)).mpr
    ⟨by decide, fun i row next hadj => ?_⟩, by decide⟩
  obtain ⟨hrow, hnext⟩ := hadj
  obtain ⟨hlt, -⟩ := List.getElem?_eq_some_iff.mp hnext
  have hi : i < 2 := Nat.lt_of_succ_lt_succ hlt
  interval_cases i
  · cases hrow
    cases hnext
    decide
  · cases hrow
    cases hnext
    decide

/-- Where the second line begins, the first one is reported. -/
theorem not_reports_at_second :
    Increasing twoLines.stateMatrix ∧ 0x100 ≤ (0x104 : UInt32) ∧ (0x104 : UInt32) < 0x108 ∧
      (∃ row, Covers twoLines.stateMatrix 0x104 1 row ∧ row.line = 2) ∧
      twoLines.lineNumber 0x104 0x100 0x108 = .ok 1 ∧
      ¬ Reports twoLines 0x104 0x100 0x108 := by
  have hinc : Increasing twoLines.stateMatrix := by
    unfold Increasing
    decide
  have hcov : Covers twoLines.stateMatrix 0x104 1
      ⟨0x104, 1, 2, 0, true, false, false, false, false, 0, true, false⟩ := by
    refine ⟨by decide, by decide, fun j r hr hle => ?_, by decide, rfl⟩
    have hadj : Adjacent twoLines.stateMatrix 1
        ⟨0x104, 1, 2, 0, true, false, false, false, false, 0, true, false⟩
        ⟨0x108, 1, 2, 0, true, false, true, false, false, 0, false, true⟩ := ⟨by decide, by decide⟩
    exact hadj.greatest hinc (by decide) hr hle
  have hline : twoLines.lineNumber 0x104 0x100 0x108 = .ok 1 := by decide
  refine ⟨hinc, by decide, by decide, ⟨_, hcov, rfl⟩, hline, fun h => ?_⟩
  have hright := (h.covered 1 _ hcov).2.1
  rw [hline] at hright
  exact absurd (Except.ok.inj hright) (by decide)

end Metta.ParseDwarf
