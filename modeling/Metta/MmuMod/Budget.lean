/-
  Metta.MmuMod.Budget — the level 2 tables that calls use up.

  `add4k_page` takes a chunk for the first page of a level 1 entry and for no
  other, so the chunks taken are counted by the present level 1 entries.

    • `Rep.add4kPage_tables` — one call: its page, and the tables after it,
    • `freeTables_card` — what is left of the pool.
-/
import Metta.MmuMod.Refine

namespace Metta.MmuMod

open Metta.Machine

variable {s s' : State} {t : Table}

/-! ## §1. The level 1 entries with a table. -/

/-- The present level 1 entries. -/
def tables (s : State) : Finset (Fin nL1Tables) :=
  Finset.univ.filter fun i => (s.l1Mapping i).isPresent = true

theorem mem_tables {i : Fin nL1Tables} : i ∈ tables s ↔ (s.l1Mapping i).isPresent = true := by
  rw [tables, Finset.mem_filter]
  exact and_iff_right (Finset.mem_univ i)

theorem Rep.mem_tables_iff (R : Rep s t) (i : Fin nL1Tables) :
    i ∈ tables s ↔ ∃ c, t.dir i = some c := by
  rw [mem_tables, R.isPresent_iff, Option.isSome_iff_exists]

/-- The chunks that `alloc_l2table` can still give. -/
def freeTables (s : State) : Finset Nat :=
  (Finset.range s.l2Max).filter fun c => s.info c = .free

/-- **The pool after a while**: when every chunk taken serves a level 1 entry, the
chunks before the hint are in use and the others free. -/
theorem freeTables_card (R : Rep s t) (hnext : s.l2Next = (tables s).card) :
    (freeTables s).card = s.l2Max - s.l2Next := by
  -- the chunks under the entries are all those before the hint
  have himage : (tables s).image (fun i => (t.dir i).getD 0) = Finset.range s.l2Next := by
    apply Finset.eq_of_subset_of_card_le
    · intro c hc
      obtain ⟨i, hi, rfl⟩ := Finset.mem_image.mp hc
      obtain ⟨c, hdir⟩ := (R.mem_tables_iff i).mp hi
      rw [hdir, Finset.mem_range]
      exact R.lt_next hdir
    · rw [Finset.card_range, hnext, Finset.card_image_of_injOn]
      intro i hi j hj hij
      obtain ⟨c, hc⟩ := (R.mem_tables_iff i).mp hi
      obtain ⟨d, hd⟩ := (R.mem_tables_iff j).mp hj
      simp only [hc, hd, Option.getD_some] at hij
      exact t.inj hc (hij ▸ hd)
  have hused : ∀ c < s.l2Next, s.info c = .used := by
    intro c hc
    obtain ⟨i, hi, hic⟩ := Finset.mem_image.mp (himage ▸ Finset.mem_range.mpr hc)
    obtain ⟨d, hdir⟩ := (R.mem_tables_iff i).mp hi
    rw [hdir, Option.getD_some] at hic
    rw [← hic]
    exact (R.backed hdir).used
  have heq : freeTables s = Finset.Ico s.l2Next s.l2Max := by
    ext c
    rw [freeTables, Finset.mem_filter, Finset.mem_range, Finset.mem_Ico]
    constructor
    · rintro ⟨hlt, hfree⟩
      refine ⟨?_, hlt⟩
      by_contra hc
      rw [hused c (by omega)] at hfree
      cases hfree
    · rintro ⟨hle, hlt⟩
      exact ⟨hlt, R.free hle⟩
  rw [heq, Nat.card_Ico]

/-! ## §2. One call. -/

theorem tables_update {i : Fin nL1Tables} {p : Page} (hp : p.isPresent = true)
    (h : s'.l1Mapping = Function.update s.l1Mapping i p) : tables s' = insert i (tables s) := by
  ext j
  rw [Finset.mem_insert, mem_tables, mem_tables, h]
  by_cases hj : j = i
  · subst hj
    simp only [Function.update_self, hp, true_or]
  · simp only [Function.update_of_ne hj, hj, false_or]

/-- What giving level 1 entry `i` a table does to the tables and the hint. -/
theorem Rep.ensureL2table_tables (R : Rep s t) {i : Fin nL1Tables}
    (h : MmuMod.ensureL2table s i = some s') :
    tables s' = insert i (tables s) ∧ s'.l2Max = s.l2Max ∧
      s'.l2Next + (tables s).card = s.l2Next + (tables s').card := by
  rw [MmuMod.ensureL2table] at h
  by_cases hpresent : (s.l1Mapping i).isPresent = true
  · rw [if_pos hpresent] at h
    cases h
    rw [Finset.insert_eq_of_mem (mem_tables.mpr hpresent)]
    exact ⟨rfl, rfl, rfl⟩
  · rw [if_neg hpresent] at h
    by_cases hfull : s.l2Next = s.l2Max
    · rw [R.allocL2table_none hfull] at h
      cases h
    · have hnone : t.dir i = none := by
        rw [R.isPresent_iff, Bool.not_eq_true, Option.isSome_eq_false_iff, Option.isNone_iff_eq_none]
          at hpresent
        exact hpresent
      rw [R.allocL2table_eq hfull] at h
      simp only [Option.some_inj] at h
      have hp : (((s.l1Mapping i).setFrame (chunkAt s.l2Phys s.l2Next)).setFlags
          (Page.writable ||| Page.writeThrough)).isPresent = true := by
        rw [(R.absent hnone).1]
        exact l1Entry_isPresent _
      have hnew : tables s' = insert i (tables s) := tables_update hp (by rw [← h])
      have hnext : s'.l2Next = s.l2Next + 1 := by rw [← h]
      refine ⟨hnew, by rw [← h], ?_⟩
      rw [hnew, Finset.card_insert_of_notMem fun hmem => hpresent (mem_tables.mp hmem), hnext]
      omega

/-- **One call of `add4k_page`**: it writes its page and gives the level 1 entry a
table, unless that takes a chunk and none is left. -/
theorem Rep.add4kPage_tables (R : Rep s t) (va : Address) (pte : Page) (sid : Sid) :
    (MmuMod.add4kPage s va pte sid = (false, s) ∧ pdeEntry va ∉ tables s ∧ s.l2Next = s.l2Max) ∨
      ∃ (s' : State) (t' : Table), MmuMod.add4kPage s va pte sid = (true, s') ∧ Rep s' t' ∧
        (∀ j k, t'.lookup j k =
          if j = pdeEntry va ∧ k = pteEntry va then some ⟨pte, ⟨sid, pte.flags.setWidth 16⟩⟩
          else t.lookup j k) ∧
        tables s' = insert (pdeEntry va) (tables s) ∧ s'.l2Max = s.l2Max ∧
        s'.l2Next + (tables s).card = s.l2Next + (tables s').card := by
  rcases R.add4kPage va pte sid with ⟨hfail, hdir, hfull⟩ | ⟨s', t', hok, R', hlook⟩
  · refine .inl ⟨hfail, fun hmem => ?_, hfull⟩
    obtain ⟨c, hc⟩ := (R.mem_tables_iff _).mp hmem
    rw [hdir] at hc
    cases hc
  · refine .inr ⟨s', t', hok, R', hlook, ?_⟩
    rw [MmuMod.add4kPage] at hok
    cases hens : MmuMod.ensureL2table s (pdeEntry va) with
    | none =>
        rw [hens] at hok
        cases hok
    | some s₁ =>
        rw [hens] at hok
        simp only at hok
        split at hok
        · cases hok
        · -- the entry itself goes to memory
          have htables := R.ensureL2table_tables hens
          rw [← (Prod.mk.inj hok).2]
          exact htables

end Metta.MmuMod
