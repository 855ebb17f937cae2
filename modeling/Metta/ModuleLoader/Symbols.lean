/-
  Metta.ModuleLoader.Symbols — the filters of a module's symbols.

  Two loops over characters.  `starts_with` goes on to the first characters that
  differ, and then asks for characters that are the same; `ends_with` counts
  from the end and asks how far it came.

    • `CString`, `CString.charAt` — a string, and a read inside of it,
    • `startsWith`, `endsWith` — the tests,
    • `startsWith_eq`, `endsWith_eq` — what they say,
    • `ModuleSymbols.startingWith`, `ModuleSymbols.endingWith` — the filters,
    • `filters_exact_iff` — when both are exact.
-/
import Metta.Machine.Bytes
import Metta.Machine.UnorderedMap
import Metta.Machine.Word

namespace Metta.ModuleLoader

open Metta.Machine

/-! ## §1. Strings. -/

/-- A string that a pointer leads to; it and its NUL are in the address space, which has no string
at zero. -/
structure CString where
  text : Text
  fits : text.bytes.length + 1 < wordSize

namespace CString

/-- `string_t::length`. -/
def length (s : CString) : Nat := s.text.bytes.length

/-- A read at an index; `none` when it is behind the NUL. -/
def charAt (s : CString) (i : Nat) : Option UInt8 := s.text.terminated[i]?

theorem charAt_length (s : CString) : s.charAt s.length = some 0 := by
  unfold charAt Text.terminated length
  rw [List.getElem?_append_right (le_refl _), Nat.sub_self]
  rfl

theorem charAt_lt {s : CString} {i : Nat} (h : i < s.text.bytes.length) :
    s.charAt i = some s.text.bytes[i] := by
  unfold charAt Text.terminated
  rw [List.getElem?_append_left h, List.getElem?_eq_getElem h]

theorem charAt_ne_zero {s : CString} {i : Nat} (h : i < s.length) : s.charAt i ≠ some 0 := by
  rw [charAt_lt h]
  intro heq
  exact s.text.noNul _ (List.getElem_mem h) (Option.some.inj heq)

/-- From the end: the last character has the number one. -/
theorem charAt_sub {s : CString} {k : Nat} (h : k < s.text.bytes.length) :
    s.charAt (sub32 s.length (k + 1)) = s.text.bytes.reverse[k]? := by
  have hfits := s.fits
  have hsub : sub32 s.length (k + 1) = s.text.bytes.length - 1 - k := by
    unfold sub32 length
    unfold wordSize at hfits ⊢
    omega
  have hlt : s.text.bytes.length - 1 - k < s.text.bytes.length := by omega
  have hrev : k < s.text.bytes.reverse.length := by rwa [List.length_reverse]
  rw [hsub, charAt_lt hlt, List.getElem?_eq_getElem hrev, List.getElem_reverse]

end CString

/-! ## §2. The loops. -/

/-- The loop of `starts_with`: where it stops. -/
def startsLoop (str pre : CString) (i : Nat) : Option Nat :=
  (pre.charAt i).bind fun p =>
    if p = 0 then some i
    else if _h : i < str.length then
      (str.charAt i).bind fun s => if s = p then startsLoop str pre (add32 i 1) else some i
    else some i
termination_by str.length - i
decreasing_by
  have hfits := str.fits
  unfold CString.length at _h ⊢
  rw [add32_eq (by omega)]
  omega

/-- `starts_with`; `none` when it reads outside of a string. -/
def startsWith (str pre : CString) : Option Bool :=
  (startsLoop str pre 0).bind fun i =>
    if i < str.length then
      (str.charAt i).bind fun s => (pre.charAt i).bind fun p => some (s == p)
    else some false

/-- The loop of `ends_with`: where it stops. -/
def endsLoop (str suffix : CString) (i : Nat) : Option Nat :=
  if _h : i ≤ suffix.length then
    (str.charAt (sub32 str.length i)).bind fun s =>
      (suffix.charAt (sub32 suffix.length i)).bind fun p =>
        if s = p then endsLoop str suffix (add32 i 1) else some i
  else some i
termination_by suffix.length + 1 - i
decreasing_by
  have hfits := suffix.fits
  unfold CString.length at _h ⊢
  rw [add32_eq (by omega)]
  omega

/-- `ends_with`; `none` when it reads outside of a string. -/
def endsWith (str suffix : CString) : Option Bool :=
  if str.length < suffix.length then some false
  else (endsLoop str suffix 1).bind fun i => some (i == add32 suffix.length 1)

/-- The loop of `starts_with` stays in both strings, and inside of the name it stops at characters
that differ. -/
theorem startsLoop_stops {str pre : CString} {i : Nat} (hs : i ≤ str.length)
    (hp : i ≤ pre.length) :
    ∃ j, startsLoop str pre i = some j ∧ j ≤ pre.length ∧
      (j < str.length → str.charAt j ≠ pre.charAt j) := by
  induction hn : str.length - i generalizing i with
  | zero =>
      -- the name is at its end, and the loop stops there at the latest
      have hi : ¬ i < str.length := by omega
      refine ⟨i, ?_, hp, fun h => absurd h hi⟩
      rw [startsLoop]
      obtain ⟨p, hread⟩ : ∃ p, pre.charAt i = some p := by
        rcases Nat.lt_or_eq_of_le hp with hlt | rfl
        · exact ⟨_, CString.charAt_lt hlt⟩
        · exact ⟨0, pre.charAt_length⟩
      rw [hread, Option.bind_some, dif_neg hi, ite_self]
  | succ n ih =>
      have hi : i < str.length := by omega
      rw [startsLoop]
      rcases Nat.lt_or_eq_of_le hp with hlt | rfl
      · have hne : pre.text.bytes[i] ≠ 0 := pre.text.noNul _ (List.getElem_mem hlt)
        rw [CString.charAt_lt hlt, Option.bind_some, if_neg hne, dif_pos hi,
          CString.charAt_lt hi, Option.bind_some]
        by_cases hsame : str.text.bytes[i] = pre.text.bytes[i]
        · have hfits := str.fits
          have hnext : add32 i 1 = i + 1 := add32_eq (by unfold CString.length at hi; omega)
          rw [if_pos hsame, hnext]
          exact ih hi hlt (by omega)
        · refine ⟨i, if_neg hsame, hp, fun _ heq => hsame ?_⟩
          rw [CString.charAt_lt hlt, CString.charAt_lt hi] at heq
          exact Option.some.inj heq
      · rw [pre.charAt_length, Option.bind_some, if_pos rfl]
        refine ⟨pre.length, rfl, hp, fun h heq => ?_⟩
        rw [pre.charAt_length] at heq
        exact CString.charAt_ne_zero h heq

/-- **`starts_with` is never true.** -/
theorem startsWith_eq (str pre : CString) : startsWith str pre = some false := by
  have hs : 0 ≤ str.length := Nat.zero_le _
  have hp : 0 ≤ pre.length := Nat.zero_le _
  obtain ⟨j, hj, hpre, hdiffer⟩ := startsLoop_stops hs hp
  rw [startsWith, hj, Option.bind_some]
  by_cases hlt : j < str.length
  · have hne := hdiffer hlt
    obtain ⟨p, hread⟩ : ∃ p, pre.charAt j = some p := by
      rcases Nat.lt_or_eq_of_le hpre with h | rfl
      · exact ⟨_, CString.charAt_lt h⟩
      · exact ⟨0, pre.charAt_length⟩
    rw [CString.charAt_lt hlt, hread] at hne
    rw [if_pos hlt, CString.charAt_lt hlt, hread, Option.bind_some, Option.bind_some]
    congr 1
    exact beq_false_of_ne fun heq => hne (congrArg some heq)
  · rw [if_neg hlt]

/-- The loop of `ends_with` comes to the end exactly when what is left of the suffix, read from its
end, begins what is left of the name. -/
theorem endsLoop_stops {str suffix : CString} (hle : suffix.length ≤ str.length) {k : Nat}
    (hk : k ≤ suffix.length) :
    ∃ j, endsLoop str suffix (k + 1) = some j ∧
      (j = suffix.length + 1 ↔
        suffix.text.bytes.reverse.drop k <+: str.text.bytes.reverse.drop k) := by
  -- on the characters of the suffix that are left, from its end on
  induction hn : suffix.length - k generalizing k with
  -- all of the suffix was compared
  | zero =>
      have heq : k = suffix.length := by omega
      have hnil : suffix.text.bytes.reverse.drop k = [] := by
        rw [List.drop_eq_nil_iff, List.length_reverse, heq]
        exact le_refl _
      refine ⟨k + 1, ?_, ?_⟩
      · rw [endsLoop, dif_neg (by omega)]
      · rw [hnil, heq]
        exact iff_of_true rfl List.nil_prefix
  | succ n ih =>
      have hlt : k < suffix.text.bytes.length := by
        unfold CString.length at hn
        omega
      have hlt' : k < str.text.bytes.length := lt_of_lt_of_le hlt hle
      have hrev : k < suffix.text.bytes.reverse.length := by rwa [List.length_reverse]
      have hrev' : k < str.text.bytes.reverse.length := by rwa [List.length_reverse]
      have hsuffix := List.drop_eq_getElem_cons hrev
      have hstr := List.drop_eq_getElem_cons hrev'
      have hcount : k + 1 ≤ suffix.length := hlt
      rw [endsLoop, dif_pos hcount, CString.charAt_sub hlt', CString.charAt_sub hlt,
        List.getElem?_eq_getElem hrev, List.getElem?_eq_getElem hrev', Option.bind_some,
        Option.bind_some, hsuffix, hstr, List.cons_prefix_cons]
      -- both characters are the same: the loop goes on in front of them
      by_cases hsame : str.text.bytes.reverse[k] = suffix.text.bytes.reverse[k]
      · have hfits := suffix.fits
        have hnext : add32 (k + 1) 1 = k + 1 + 1 := add32_eq (by omega)
        obtain ⟨j, hj, hiff⟩ := ih hlt (by omega)
        rw [if_pos hsame, hnext]
        refine ⟨j, hj, hiff.trans ?_⟩
        exact (and_iff_right hsame.symm).symm
      · -- they differ, and the loop stops before the suffix is used up
        refine ⟨k + 1, if_neg hsame, ?_⟩
        have hstop : ¬ k + 1 = suffix.length + 1 := by
          unfold CString.length
          omega
        exact iff_of_false hstop fun h => hsame h.1.symm

/-- **`ends_with` is exact.** -/
theorem endsWith_eq (str suffix : CString) :
    endsWith str suffix = some (decide (suffix.text.bytes <:+ str.text.bytes)) := by
  unfold endsWith
  by_cases hlt : str.length < suffix.length
  · rw [if_pos hlt]
    congr 1
    refine (decide_eq_false fun h => ?_).symm
    exact absurd h.length_le (Nat.not_le_of_lt hlt)
  · have hfits := suffix.fits
    have hlast : add32 suffix.length 1 = suffix.length + 1 := add32_eq hfits
    obtain ⟨j, hj, hiff⟩ := endsLoop_stops (Nat.le_of_not_lt hlt) (Nat.zero_le suffix.length)
    rw [List.drop_zero, List.drop_zero, List.reverse_prefix] at hiff
    rw [if_neg hlt, hj, Option.bind_some, hlast]
    congr 1
    rw [Bool.eq_iff_iff, beq_iff_eq, decide_eq_true_iff]
    exact hiff

/-! ## §3. The filters. -/

/-- `module_symbols_t`: from the pointer to a name to the symbol, and the string that each pointer
leads to. -/
structure ModuleSymbols where
  symtab : UnorderedMap Nat Nat
  name : Nat → CString

namespace ModuleSymbols

/-- The loop of a filter over the entries. -/
def collect (test : Nat → Option Bool) :
    List (Nat × Nat) → UnorderedMap Nat Nat → Option (UnorderedMap Nat Nat)
  | [], out => some out
  | e :: es, out =>
      (test e.1).bind fun found => collect test es (if found then (out.insert e.1 e.2).1 else out)

/-- `starting_with`. -/
def startingWith (s : ModuleSymbols) (pre : CString) : Option (UnorderedMap Nat Nat) :=
  collect (fun k => startsWith (s.name k) pre) s.symtab.entries .empty

/-- `ending_with`. -/
def endingWith (s : ModuleSymbols) (suffix : CString) : Option (UnorderedMap Nat Nat) :=
  collect (fun k => endsWith (s.name k) suffix) s.symtab.entries .empty

/-- The map has the symbols whose key passes the test, and no others. -/
def Selects (s : ModuleSymbols) (p : Nat → Prop) (out : UnorderedMap Nat Nat) : Prop :=
  ∀ k v, out.find k = some v ↔ s.symtab.find k = some v ∧ p k

/-- The loop puts the entries that pass the test in. -/
theorem collect_spec {test : Nat → Option Bool} {p : Nat → Bool} (htest : ∀ k, test k = some (p k))
    (es : List (Nat × Nat)) (out : UnorderedMap Nat Nat) :
    ∃ out', collect test es out = some out' ∧
      ∀ k, out'.find k =
        (out.find k).or ((es.find? fun e => decide (e.1 = k) && p e.1).map Prod.snd) := by
  induction es generalizing out with
  | nil => exact ⟨out, rfl, fun k => by simp⟩
  | cons e es ih =>
      obtain ⟨out', hout', hfind⟩ := ih (if p e.1 then (out.insert e.1 e.2).1 else out)
      refine ⟨out', ?_, fun k => ?_⟩
      · rw [collect, htest, Option.bind_some, hout']
      · rw [hfind, List.find?_cons]
        cases hp : p e.1 with
        | false => simp
        | true =>
            rw [if_pos rfl, UnorderedMap.find_insert]
            by_cases hk : e.1 = k
            · rw [if_pos hk, ← hk]
              cases out.find e.1 <;> simp
            · simp [hk]

/-- Every filter whose test is defined selects by it. -/
theorem collect_selects (s : ModuleSymbols) {test : Nat → Option Bool} {p : Nat → Bool}
    (htest : ∀ k, test k = some (p k)) :
    ∃ out, collect test s.symtab.entries .empty = some out ∧ s.Selects (fun k => p k = true) out := by
  obtain ⟨out, hout, hfind⟩ := collect_spec htest s.symtab.entries .empty
  refine ⟨out, hout, fun k v => ?_⟩
  rw [hfind, UnorderedMap.find_empty, Option.none_or]
  -- the key that is looked for passes the test or no entry of its does
  have hsame : (fun e : Nat × Nat => decide (e.1 = k) && p e.1)
      = fun e => decide (e.1 = k) && p k := by
    funext e
    by_cases hk : e.1 = k
    · rw [hk]
    · simp [hk]
  show _ ↔ s.symtab.find k = some v ∧ p k = true
  rw [hsame, UnorderedMap.find]
  cases p k with
  | false =>
      have hnone : s.symtab.entries.find? (fun _ => false) = none :=
        List.find?_eq_none.mpr fun _ _ => Bool.false_ne_true
      simp [hnone]
  | true => simp

/-- The filters of a module's symbols by a prefix and by a suffix do what they are for. -/
structure Exact (s : ModuleSymbols) (pre suffix : CString) : Prop where
  starting : ∃ out, s.startingWith pre = some out ∧
    s.Selects (fun k => pre.text.bytes <+: (s.name k).text.bytes) out
  ending : ∃ out, s.endingWith suffix = some out ∧
    s.Selects (fun k => suffix.text.bytes <:+ (s.name k).text.bytes) out
  startingEmpty : pre.text.bytes = [] → ∃ out, s.startingWith pre = some out ∧
    ∀ k, out.find k = s.symtab.find k
  endingEmpty : suffix.text.bytes = [] → ∃ out, s.endingWith suffix = some out ∧
    ∀ k, out.find k = s.symtab.find k

/-- `starting_with` has no symbols. -/
theorem startingWith_selects (s : ModuleSymbols) (pre : CString) :
    ∃ out, s.startingWith pre = some out ∧ ∀ k, out.find k = none := by
  obtain ⟨out, hout, hselects⟩ := s.collect_selects
    (p := fun _ => false) fun k => startsWith_eq (s.name k) pre
  refine ⟨out, hout, fun k => ?_⟩
  cases hfind : out.find k with
  | none => rfl
  | some v => exact absurd ((hselects k v).mp hfind).2 Bool.false_ne_true

/-- **`ending_with` is exact.** -/
theorem endingWith_selects (s : ModuleSymbols) (suffix : CString) :
    ∃ out, s.endingWith suffix = some out ∧
      s.Selects (fun k => suffix.text.bytes <:+ (s.name k).text.bytes) out := by
  obtain ⟨out, hout, hselects⟩ := s.collect_selects fun k => endsWith_eq (s.name k) suffix
  refine ⟨out, hout, fun k v => ?_⟩
  show _ ↔ s.symtab.find k = some v ∧ suffix.text.bytes <:+ (s.name k).text.bytes
  exact (hselects k v).trans (and_congr_right fun _ => decide_eq_true_iff)

/-- What selects by a test that every key passes is the whole map. -/
theorem Selects.whole {s : ModuleSymbols} {p : Nat → Prop} {out : UnorderedMap Nat Nat}
    (h : s.Selects p out) (hp : ∀ k, p k) (k : Nat) : out.find k = s.symtab.find k := by
  refine Option.ext fun v => ?_
  rw [h k v, and_iff_left (hp k)]

/-- **The filters are exact exactly when no symbol's name begins with the prefix**, which the empty
prefix says of the empty map only. -/
theorem filters_exact_iff (s : ModuleSymbols) (pre suffix : CString) :
    Exact s pre suffix ↔
      ∀ k v, s.symtab.find k = some v → ¬ pre.text.bytes <+: (s.name k).text.bytes := by
  obtain ⟨out, hout, hnone⟩ := s.startingWith_selects pre
  constructor
  · intro h k v hfind hprefix
    obtain ⟨out', hout', hselects⟩ := h.starting
    rw [hout] at hout'
    cases hout'
    have hsome := (hselects k v).mpr ⟨hfind, hprefix⟩
    rw [hnone k] at hsome
    cases hsome
  · intro h
    have hno : ∀ k v, ¬ (s.symtab.find k = some v ∧ pre.text.bytes <+: (s.name k).text.bytes) :=
      fun k v hboth => h k v hboth.1 hboth.2
    have hstarting : s.Selects (fun k => pre.text.bytes <+: (s.name k).text.bytes) out := by
      intro k v
      rw [hnone k]
      exact iff_of_false (by simp) (hno k v)
    refine ⟨⟨out, hout, hstarting⟩, s.endingWith_selects suffix, fun hempty => ?_, fun hempty => ?_⟩
    · exact ⟨out, hout, hstarting.whole fun k => hempty ▸ List.nil_prefix⟩
    · obtain ⟨out', hout', hselects⟩ := s.endingWith_selects suffix
      exact ⟨out', hout', hselects.whole fun k => hempty ▸ List.nil_suffix⟩

/-- A symbol with the name `ab`. -/
def sampleSymbols : ModuleSymbols where
  symtab := ((UnorderedMap.empty : UnorderedMap Nat Nat).insert 0x1000 0x2000).1
  name := fun _ => ⟨⟨[97, 98], noNul_of_all rfl⟩, by decide⟩

/-- The symbol begins with `a` and is not among the ones that do. -/
theorem symbol_is_missed : ¬ Exact sampleSymbols ⟨⟨[97], noNul_of_all rfl⟩, by decide⟩
    ⟨⟨[98], noNul_of_all rfl⟩, by decide⟩ := by
  intro h
  obtain ⟨out, hout, hselects⟩ := h.starting
  obtain ⟨out', hout', hnone⟩ := sampleSymbols.startingWith_selects ⟨⟨[97], noNul_of_all rfl⟩, by decide⟩
  rw [hout] at hout'
  cases hout'
  have hsome := (hselects 0x1000 0x2000).mpr ⟨rfl, by decide⟩
  rw [hnone] at hsome
  cases hsome

end ModuleSymbols

end Metta.ModuleLoader
