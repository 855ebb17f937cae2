/-
  Metta.BuildBoot.RootNamespace — the namespace of the root domain.

  The offsets of keys and values are first offsets into the string table,
  then positions in the image, then addresses.  Whether there is a namespace
  is told by its size with padding; the record of a root domain without lines
  needs no padding, so the offset in it is 0 and the kernel takes the header
  of the image for a namespace.

    • `find_namespaceEntries` — the last value of a key is the one kept,
    • `make_spec` — the entries and the string table,
    • `faithful_of_lines` — a namespace that was written is read back,
    • `not_faithful_of_header` — the header of the image is not a namespace,
    • `root_namespace_iff` — when the round trip works.
-/
import Metta.BuildBoot.Modules

namespace Metta.BuildBoot

open Metta.Machine

/-! ## §1. The entries of a module. -/

/-- The last value that is given for a key. -/
def lastValue (lines : List (Text × Text)) (key : Text) : Option Text :=
  (lines.reverse.find? fun line => decide (line.1 = key)).map Prod.snd

/-- The entry of a key. -/
def NsMap.lookup (ns : NsMap) (key : Text) : Option (Text × Param) :=
  ns.find? fun entry => decide (entry.1 = key)

theorem NsMap.lookup_cons (e : Text × Param) (ns : NsMap) (key : Text) :
    NsMap.lookup (e :: ns) key = if e.1 = key then some e else ns.lookup key := by
  by_cases h : e.1 = key <;> simp [NsMap.lookup, h]

theorem NsMap.lookup_assign (ns : NsMap) (key : Text) (val : Param) (k : Text) :
    (ns.assign key val).lookup k = if key = k then some (key, val) else ns.lookup k := by
  induction ns with
  | nil => rw [NsMap.assign, NsMap.lookup_cons]
  | cons e ns ih =>
      obtain ⟨k', v'⟩ := e
      rw [NsMap.assign]
      split
      · next hk =>
          subst hk
          rw [NsMap.lookup_cons, NsMap.lookup_cons]
          split <;> rfl
      · next hk =>
          split
          · rw [NsMap.lookup_cons]
          · rw [NsMap.lookup_cons, NsMap.lookup_cons, ih]
            by_cases h1 : k' = k
            · simp [h1, show key ≠ k from fun h => hk (h1.trans h.symm)]
            · simp [h1]

theorem NsMap.mem_assign {ns : NsMap} {key : Text} {val : Param} {e : Text × Param}
    (h : e ∈ ns.assign key val) : e = (key, val) ∨ e ∈ ns := by
  induction ns with
  | nil =>
      rw [NsMap.assign, List.mem_singleton] at h
      exact .inl h
  | cons e' ns ih =>
      rw [NsMap.assign] at h
      grind

theorem NsMap.length_assign_pos (ns : NsMap) (key : Text) (val : Param) :
    0 < (ns.assign key val).length := by
  cases ns with
  | nil => simp [NsMap.assign]
  | cons e ns =>
      rw [NsMap.assign]
      split
      · simp
      · split <;> simp

theorem namespaceEntries_snoc (name : Text) (contents : List UInt8) (lines : List (Text × Text))
    (line : Text × Text) :
    (ModuleInfo.mk name contents (lines ++ [line])).namespaceEntries
      = (ModuleInfo.mk name contents lines).namespaceEntries.assign line.1 (.string line.2) := by
  simp [ModuleInfo.namespaceEntries]

/-- **The last value of a key is the one kept.** -/
theorem lookup_namespaceEntries (mod : ModuleInfo) (key : Text) :
    mod.namespaceEntries.lookup key
      = (lastValue mod.lines key).map fun v => (key, .string v) := by
  obtain ⟨name, contents, lines⟩ := mod
  induction lines using List.reverseRecOn with
  | nil => rfl
  | append_singleton lines line ih =>
      rw [namespaceEntries_snoc, NsMap.lookup_assign, ih]
      by_cases h : line.1 = key <;> simp [lastValue, h]

theorem string_of_mem {mod : ModuleInfo} {e : Text × Param} (h : e ∈ mod.namespaceEntries) :
    ∃ v, e.2 = .string v := by
  obtain ⟨name, contents, lines⟩ := mod
  induction lines using List.reverseRecOn with
  | nil => cases h
  | append_singleton lines line ih =>
      rw [namespaceEntries_snoc] at h
      rcases NsMap.mem_assign h with rfl | h
      · exact ⟨line.2, rfl⟩
      · exact ih h

theorem namespaceEntries_pos {mod : ModuleInfo} (h : mod.lines ≠ []) :
    mod.namespaceEntries.length > 0 := by
  obtain ⟨name, contents, lines⟩ := mod
  obtain ⟨lines, line, rfl⟩ := List.eq_nil_or_concat lines |>.resolve_left h
  rw [List.concat_eq_append, namespaceEntries_snoc]
  exact NsMap.length_assign_pos _ _ _

/-! ## §2. The string table. -/

/-- The text `t` is in the table at the offset `off`. -/
def InTable (table : List UInt8) (off : Nat) (t : Text) : Prop :=
  ∃ pre post, table = pre ++ (t.terminated ++ post) ∧ off = pre.length % wordSize

theorem InTable.append {table : List UInt8} {off : Nat} {t : Text} (h : InTable table off t)
    (more : List UInt8) : InTable (table ++ more) off t := by
  obtain ⟨pre, post, rfl, rfl⟩ := h
  exact ⟨pre, post ++ more, by simp only [List.append_assoc], rfl⟩

theorem inTable_end (table : List UInt8) (t : Text) :
    InTable (table ++ t.terminated) (table.length % wordSize) t :=
  ⟨table, [], by rw [List.append_nil], rfl⟩

/-- An entry tells a key and its value. -/
structure Describes (table : List UInt8) (e : NamespaceEntry) (kv : Text × Param) : Prop where
  tag : e.tag = kv.2.tag
  name : InTable table e.nameOff kv.1
  value : ∀ v, kv.2 = .string v → InTable table e.value v

theorem Describes.append {table : List UInt8} {e : NamespaceEntry} {kv : Text × Param}
    (h : Describes table e kv) (more : List UInt8) : Describes (table ++ more) e kv :=
  ⟨h.tag, h.name.append more, fun v hv => (h.value v hv).append more⟩

/-- One entry more. -/
theorem add_spec {ns : ModuleNamespace} {done : NsMap} (kv : Text × Param)
    (h : List.Forall₂ (Describes ns.stringTable) ns.entries done) :
    List.Forall₂ (Describes (ns.add kv).stringTable) (ns.add kv).entries (done ++ [kv]) := by
  obtain ⟨key, val⟩ := kv
  cases val with
  | integer v =>
      refine List.rel_append (h.imp fun e kv he => he.append _) (.cons ⟨rfl, ?_, ?_⟩ .nil)
      · exact inTable_end _ _
      · exact fun v hv => by cases hv
  | string v =>
      refine List.rel_append (h.imp fun e kv he => (he.append _).append _) (.cons ⟨rfl, ?_, ?_⟩ .nil)
      · exact (inTable_end _ _).append _
      · intro v' hv
        cases hv
        exact inTable_end _ _
  | symbol v =>
      refine List.rel_append (h.imp fun e kv he => he.append _) (.cons ⟨rfl, ?_, ?_⟩ .nil)
      · exact inTable_end _ _
      · exact fun v hv => by cases hv

/-- **The entries tell the map**, in its order. -/
theorem make_spec (ns : NsMap) :
    List.Forall₂ (Describes (ModuleNamespace.make ns).stringTable) (ModuleNamespace.make ns).entries
      ns := by
  have hrun : ∀ (ns : NsMap) (acc : ModuleNamespace) (done : NsMap),
      List.Forall₂ (Describes acc.stringTable) acc.entries done →
      List.Forall₂ (Describes (ns.foldl ModuleNamespace.add acc).stringTable)
        (ns.foldl ModuleNamespace.add acc).entries (done ++ ns) := by
    intro ns
    induction ns with
    | nil =>
        intro acc done h
        rwa [List.append_nil]
    | cons kv ns ih =>
        intro acc done h
        have hstep := ih _ _ (add_spec kv h)
        rwa [List.append_assoc] at hstep
  exact hrun ns ⟨[], []⟩ [] .nil

/-! ## §3. Reading a namespace. -/

namespace Bootimage.Namespace

variable {ns : Bootimage.Namespace} {m : Memory}

/-- The entry with the number `i` tells a key and its value. -/
structure EntryIn (ns : Bootimage.Namespace) (m : Memory) (i : Nat) (kv : Text × Param) : Prop where
  tag : m.load32 (add32 ns.entries (12 * i)) = kv.2.tag
  name : HasBytes m (add32 (m.load32 (add32 (add32 ns.entries (12 * i)) 4)) ns.base)
    kv.1.terminated
  value : ∀ v, kv.2 = .string v →
    HasBytes m (add32 (m.load32 (add32 (add32 ns.entries (12 * i)) 8)) ns.base) v.terminated

theorem EntryIn.hit {i : Nat} {kv : Text × Param} (h : EntryIn ns m i kv) (tag : Nat) (key : Text) :
    (cstringEquals m key (add32 (m.load32 (add32 (add32 ns.entries (12 * i)) 4)) ns.base)
      && m.load32 (add32 ns.entries (12 * i)) == tag)
      = (decide (kv.1 = key) && kv.2.tag == tag) := by
  have hkey : cstringEquals m key (add32 (m.load32 (add32 (add32 ns.entries (12 * i)) 4)) ns.base)
      = decide (kv.1 = key) := by
    rw [Bool.eq_iff_iff, cstringEquals_iff, decide_eq_true_iff]
    constructor
    · exact fun h' => h.name.text_unique h'
    · rintro rfl
      exact h.name
  rw [hkey, h.tag]

/-- **The three searches** find the first entry with the key and the tag. -/
theorem getFrom_spec (tag : Nat) (key : Text) {kvs : NsMap} {i : Nat}
    (h : ∀ j kv, kvs[j]? = some kv → EntryIn ns m (i + j) kv) :
    (ns.getFrom m tag key kvs.length i = none ∧
      kvs.find? (fun kv => decide (kv.1 = key) && kv.2.tag == tag) = none) ∨
    ∃ j kv, ns.getFrom m tag key kvs.length i
        = some (m.load32 (add32 (add32 ns.entries (12 * j)) 8)) ∧
      kvs.find? (fun kv => decide (kv.1 = key) && kv.2.tag == tag) = some kv ∧
      EntryIn ns m j kv := by
  induction kvs generalizing i with
  | nil => exact .inl ⟨rfl, rfl⟩
  | cons kv kvs ih =>
      have hfirst : EntryIn ns m i kv := h 0 kv rfl
      have hrest : ∀ j kv', kvs[j]? = some kv' → EntryIn ns m (i + 1 + j) kv' := fun j kv' hj => by
        rw [Nat.add_assoc, Nat.add_comm 1]
        exact h (j + 1) kv' hj
      simp only [List.length_cons, getFrom, hfirst.hit tag key]
      cases hp : (decide (kv.1 = key) && kv.2.tag == tag) with
      | true =>
          refine .inr ⟨i, kv, ?_, ?_, hfirst⟩
          · rw [if_pos rfl]
          · simp only [List.find?_cons, hp]
      | false =>
          rw [if_neg (by decide), List.find?_cons_of_neg (by rw [hp]; decide)]
          exact ih hrest

/-- What is said of the namespace of `lines`: a key has its last value, other keys have
none, and nothing is an integer or a symbol. -/
structure Faithful (ns : Bootimage.Namespace) (m : Memory) (lines : List (Text × Text)) : Prop where
  string : ∀ key v, lastValue lines key = some v →
    ∃ a, ns.getString m key = some a ∧ HasBytes m a v.terminated
  noString : ∀ key, (∀ line ∈ lines, line.1 ≠ key) → ns.getString m key = none
  noInt : ∀ key, ns.getInt m key = none
  noSymbol : ∀ key, ns.getSymbol m key = none

theorem lastValue_eq_none {lines : List (Text × Text)} {key : Text}
    (h : ∀ line ∈ lines, line.1 ≠ key) : lastValue lines key = none := by
  rw [lastValue, Option.map_eq_none_iff, List.find?_eq_none]
  intro line hline
  simpa using h line (List.mem_reverse.mp hline)

/-- A namespace with the entries of a module is faithful to its lines. -/
theorem faithful_of_entries {mod : ModuleInfo} (hn : ns.nEntries = mod.namespaceEntries.length)
    (h : ∀ j kv, mod.namespaceEntries[j]? = some kv → EntryIn ns m j kv) :
    ns.Faithful m mod.lines := by
  have h0 : ∀ j kv, mod.namespaceEntries[j]? = some kv → EntryIn ns m (0 + j) kv := by
    simpa using h
  -- all entries are strings
  have htag : ∀ kv ∈ mod.namespaceEntries, kv.2.tag = 2 := fun kv hkv => by
    obtain ⟨v, hv⟩ := string_of_mem hkv
    rw [hv]
    rfl
  have hother : ∀ tag key, tag ≠ 2 → ns.getFrom m tag key ns.nEntries 0 = none := by
    intro tag key hne
    rw [hn]
    rcases getFrom_spec tag key h0 with ⟨hnone, -⟩ | ⟨j, kv, -, hfind, -⟩
    · exact hnone
    · have hp := List.find?_some hfind
      rw [htag kv (List.mem_of_find?_eq_some hfind)] at hp
      simp [Ne.symm hne] at hp
  have hlookup : ∀ key, mod.namespaceEntries.find?
      (fun kv => decide (kv.1 = key) && kv.2.tag == 2)
      = (lastValue mod.lines key).map fun v => (key, .string v) := by
    intro key
    rw [← lookup_namespaceEntries, NsMap.lookup]
    refine List.find?_congr fun kv hkv => ?_
    simp [htag kv hkv]
  refine ⟨fun key v hv => ?_, fun key hno => ?_, fun key => hother 1 key (by decide),
    fun key => hother 3 key (by decide)⟩
  · rcases getFrom_spec 2 key h0 with ⟨-, hnone⟩ | ⟨j, kv, hget, hfind, hat⟩
    · rw [hlookup, hv] at hnone
      cases hnone
    · rw [hlookup, hv] at hfind
      cases hfind
      refine ⟨_, ?_, hat.value v rfl⟩
      rw [getString, hn, hget]
      rfl
  · rcases getFrom_spec 2 key h0 with ⟨hnone, -⟩ | ⟨j, kv, -, hfind, -⟩
    · rw [getString, hn, hnone]
      rfl
    · rw [hlookup, lastValue_eq_none hno] at hfind
      cases hfind

end Bootimage.Namespace

/-! ## §4. The namespace in the image. -/

section

variable {m : Memory} {location d : Nat}

theorem InTable.le {table : List UInt8} {off : Nat} {t : Text} (h : InTable table off t) :
    off ≤ table.length := by
  obtain ⟨pre, post, rfl, rfl⟩ := h
  rw [List.length_append]
  exact le_trans (Nat.mod_le _ _) (Nat.le_add_right _ _)

/-- A text of the string table, where its position in the image says. -/
theorem InTable.hasBytes {table : List UInt8} {off : Nat} {t : Text} (hin : InTable table off t)
    (h : HasBytes m (location + d) table) (hfits : location + d + table.length < wordSize) :
    HasBytes m (add32 ((off + d) % wordSize) location) t.terminated := by
  have hle := hin.le
  rw [Nat.mod_eq_of_lt (by omega), add32_eq (by omega)]
  obtain ⟨pre, post, rfl, rfl⟩ := hin
  rw [hasBytes_append, hasBytes_append] at h
  rw [List.length_append] at hfits
  rw [Nat.mod_eq_of_lt (by omega), Nat.add_comm _ location, ← Nat.add_assoc,
    Nat.add_right_comm]
  exact h.2.1

theorem Param.tag_lt (p : Param) : p.tag < wordSize := by
  cases p <;> simp [Param.tag, wordSize]

/-- **A namespace in the image is read as it was written.** -/
theorem entryIn_of_image {ns : ModuleNamespace} {map : NsMap}
    (hmap : List.Forall₂ (Describes ns.stringTable) ns.entries map)
    (h : HasBytes m (location + d) (ns.image d)) (hfits : location + d + ns.size < wordSize) :
    (Bootimage.Namespace.set m location (location + d)).nEntries = map.length ∧
      ∀ j kv, map[j]? = some kv →
        (Bootimage.Namespace.set m location (location + d)).EntryIn m j kv := by
  rw [ModuleNamespace.image, hasBytes_append, hasBytes_append, List.length_append,
    length_flatMap_entryBytes, length_le32] at h
  obtain ⟨⟨hcount, hentries⟩, htable⟩ := h
  rw [ModuleNamespace.size] at hfits
  have hlen := hmap.length_eq
  refine ⟨?_, fun j kv hj => ?_⟩
  · rw [Bootimage.Namespace.set, hcount.load32, Nat.mod_eq_of_lt (by omega), hlen]
  · have hjlt : j < map.length := (List.getElem?_eq_some_iff.mp hj).1
    obtain ⟨e, he⟩ : ∃ e, ns.entries[j]? = some e :=
      ⟨_, List.getElem?_eq_getElem (by rw [hlen]; exact hjlt)⟩
    have hd : Describes ns.stringTable e kv := by
      obtain ⟨h1, rfl⟩ := List.getElem?_eq_some_iff.mp he
      obtain ⟨h2, rfl⟩ := List.getElem?_eq_some_iff.mp hj
      exact hmap.get h1 h2
    have hb := hentries.flatMap (length_entryBytes _) he
    rw [ModuleNamespace.entryBytes, hasBytes_append, hasBytes_append] at hb
    rw [List.length_append, length_le32, length_le32] at hb
    obtain ⟨⟨htag, hname⟩, hvalue⟩ := hb
    have hat : add32 (add32 (location + d) 4) (12 * j) = location + d + 4 + 12 * j := by
      rw [add32_eq (show location + d + 4 < wordSize by omega), add32_eq (by omega)]
    have hat4 : add32 (location + d + 4 + 12 * j) 4 = location + d + 4 + 12 * j + 4 :=
      add32_eq (by omega)
    have hat8 : add32 (location + d + 4 + 12 * j) 8 = location + d + 4 + 12 * j + 8 :=
      add32_eq (by omega)
    have htable' : HasBytes m (location + (d + (4 + ns.entries.length * 12))) ns.stringTable := by
      rwa [← Nat.add_assoc]
    have hfits' : location + (d + (4 + ns.entries.length * 12)) + ns.stringTable.length
        < wordSize := by omega
    refine ⟨?_, ?_, fun v hv => ?_⟩
    · rw [Bootimage.Namespace.set, hat, htag.load32, hd.tag, Nat.mod_eq_of_lt (Param.tag_lt _)]
    · rw [Bootimage.Namespace.set, hat, hat4, hname.load32]
      exact hd.name.hasBytes htable' hfits'
    · rw [if_pos (by rw [hd.tag, hv]; rfl)] at hvalue
      rw [Bootimage.Namespace.set, hat, hat8, hvalue.load32]
      exact (hd.value v hv).hasBytes htable' hfits'

end

/-! ## §5. The header of the image as a namespace. -/

section

variable {m : Memory} {img : Bootimage} {mods : List ModuleInfo}

theorem Loaded.header (h : Loaded mods m img) :
    HasBytes m img.location [66, 73, 77, 71, 1, 0, 0, 0] := by
  have hbytes := h.bytes
  rw [buildboot_eq, hasBytes_append] at hbytes
  exact hbytes.1

/-- The key that the header seems to have, by the tag of the first record. -/
def strayKey (kind : Nat) : Text :=
  if kind = 0 then ⟨[66, 73, 77, 71, 1], noNul_of_all rfl⟩ else ⟨[77, 71, 1], noNul_of_all rfl⟩

theorem Loaded.strayKey (h : Loaded mods m img) {kind : Nat} (hkind : kind = 0 ∨ kind = 2) :
    HasBytes m (img.location + kind) (strayKey kind).terminated := by
  rcases hkind with rfl | rfl
  · have hhead : HasBytes m img.location ([66, 73, 77, 71, 1, 0] ++ [0, 0]) := h.header
    exact (hasBytes_append.mp hhead).1
  · have hhead : HasBytes m img.location ([66, 73] ++ ([77, 71, 1, 0] ++ [0, 0])) := h.header
    exact (hasBytes_append.mp (hasBytes_append.mp hhead).2).1

/-- **The header of an image is not an empty namespace**: the magic is the number of
entries, and the version is the tag of an integer. -/
theorem Loaded.getInt_header (h : Loaded mods m img) {mod : ModuleInfo}
    (hfirst : mods.head? = some mod) :
    ∃ key, (Bootimage.Namespace.set m img.location img.location).getInt m key ≠ none := by
  obtain ⟨rest, rfl⟩ : ∃ rest, mods = mod :: rest := by
    cases mods with
    | nil => cases hfirst
    | cons mod' rest =>
        cases hfirst
        exact ⟨rest, rfl⟩
  have hrec : RecordAt m img (img.location + 8) mod := h.laid.1
  have hfits := hrec.lt
  have hkind : mod.kind = 0 ∨ mod.kind = 2 := by
    unfold ModuleInfo.kind
    split
    · exact .inl rfl
    · exact .inr rfl
  have hhead : HasBytes m img.location (le32 magic ++ le32 1) := h.header
  have hcount : m.load32 img.location = magic := (hasBytes_append.mp hhead).1.load32
  have htag : m.load32 (img.location + 4) = 1 := (hasBytes_append.mp hhead).2.load32
  refine ⟨BuildBoot.strayKey mod.kind, ?_⟩
  have hentry : add32 (add32 img.location 4) (12 * 0) = img.location + 4 := by
    rw [add32_eq (show img.location + 4 < wordSize by omega), add32_eq (by omega)]
  have hname : add32 (m.load32 (add32 (img.location + 4) 4)) img.location
      = img.location + mod.kind := by
    rw [add32_eq (show img.location + 4 + 4 < wordSize by omega), Nat.add_assoc, hrec.kind,
      add32_eq (by omega), Nat.add_comm]
  obtain ⟨k, hk⟩ : ∃ k, magic = k + 1 := ⟨magic - 1, rfl⟩
  rw [Bootimage.Namespace.getInt, Bootimage.Namespace.set]
  simp only [hcount, hk, Bootimage.Namespace.getFrom, hentry, hname, htag]
  rw [cstringEquals_iff.mpr (h.strayKey hkind)]
  simp

end

/-! ## §6. The round trip. -/

section

variable {m : Memory} {img : Bootimage} {mods : List ModuleInfo}

/-- Where the kernel looks for the namespace of a record. -/
def nsAddress (img : Bootimage) (m : Memory) (a : Nat) : Nat :=
  add32 img.location (m.load32 (add32 a 20))

/-- A root domain with lines has its namespace behind its name. -/
theorem RecordAt.faithful {a : Nat} {mod : ModuleInfo} (h : RecordAt m img a mod)
    (hlines : mod.lines ≠ []) :
    (Bootimage.Namespace.set m img.location (nsAddress img m a)).Faithful m mod.lines := by
  have hpos := namespaceEntries_pos hlines
  have hsize : mod.nsSize = mod.ns.size := if_pos hpos
  have hne : mod.nsSize ≠ 0 := by
    rw [hsize, ModuleNamespace.size]
    omega
  have hneA : mod.nsSizeA ≠ 0 := by
    rw [ModuleInfo.nsSizeA]
    omega
  have hle : mod.nsSize ≤ mod.nsSizeA := Nat.le_add_right _ _
  have hbehind := h.behind
  have hfits := h.fits
  rw [ModuleInfo.recordSize, ModuleInfo.dataStart] at hfits
  obtain ⟨d, hd⟩ : ∃ d, d = a - img.location + mod.headerSize + mod.nameSize := ⟨_, rfl⟩
  have hda : a + mod.headerSize + mod.nameSize = img.location + d := by omega
  have haddr : nsAddress img m a = img.location + d := by
    rw [nsAddress, h.nsField, if_pos hneA, ← hd, add32_eq (by omega)]
  have hbytes := h.namespace_
  rw [← hd, hda, ModuleInfo.nsImage, if_pos hne] at hbytes
  obtain ⟨hcount, hentries⟩ :=
    entryIn_of_image (make_spec mod.namespaceEntries) hbytes (by
      rw [← hda]
      have : (ModuleNamespace.make mod.namespaceEntries).size = mod.nsSize := hsize.symm
      omega)
  rw [haddr]
  exact Bootimage.Namespace.faithful_of_entries hcount hentries

/-- A root domain without lines has the offset 0. -/
theorem RecordAt.nsAddress_of_nil {a : Nat} {mod : ModuleInfo} (h : RecordAt m img a mod)
    (hroot : mod.name = rootDomain) (hlines : mod.lines = []) :
    nsAddress img m a = img.location := by
  have hsize : mod.nsSize = 0 := by
    rw [ModuleInfo.nsSize, ModuleInfo.namespaceEntries, hlines]
    rfl
  -- 28 bytes of header and 12 of name need no padding
  have hsizeA : mod.nsSizeA = 0 := by
    rw [ModuleInfo.nsSizeA, hsize, ModuleInfo.headerSize, if_pos hroot, ModuleInfo.nameSize, hroot]
    rfl
  have hlt := h.lt
  have hbehind := h.behind
  rw [nsAddress, h.nsField, if_neg (by simp [hsizeA]), add32_eq (by omega), Nat.add_zero]

/-- **The round trip for the namespace of the root domain** works exactly when the root
domain has a line. -/
theorem root_namespace_iff (h : Loaded mods m img) (fuel : Nat) (hfuel : mods.length < fuel)
    {root : ModuleInfo} (hroot : mods.find? (fun mod => decide (mod.name = rootDomain)) = some root) :
    ∃ info ns, img.findRootDomain m fuel = some (info, some ns) ∧ img.HoldsData m info root ∧
      (ns.Faithful m root.lines ↔ root.lines ≠ []) := by
  have hsame : ∀ name : Text, ∀ mod : ModuleInfo,
      (mod.kind == 0 && (mod.kind == 0 || decide (mod.name = name)))
        = decide (mod.name = rootDomain) := by
    intro name mod
    by_cases hname : mod.name = rootDomain
    · simp [ModuleInfo.kind, hname]
    · simp [ModuleInfo.kind, hname]
  rcases h.findEntry hfuel 0 ⟨[], noNul_of_all rfl⟩ with ⟨-, hnone⟩ | ⟨a, mod, hentry, hsome, hat, hend⟩
  · simp only [hsame, hroot] at hnone
    cases hnone
  · simp only [hsame, hroot] at hsome
    cases hsome
    have hname : root.name = rootDomain := by simpa using List.find?_some hroot
    refine ⟨img.modinfo m a, Bootimage.Namespace.set m img.location (nsAddress img m a), ?_,
      hat.holdsData hend, ?_, hat.faithful⟩
    · rw [Bootimage.findRootDomain, hentry]
      rfl
    · -- without lines the kernel reads the header
      intro hfaithful hlines
      rw [hat.nsAddress_of_nil hname hlines] at hfaithful
      obtain ⟨mod, hfirst⟩ : ∃ mod, mods.head? = some mod := by
        cases mods with
        | nil => cases hroot
        | cons mod mods => exact ⟨mod, rfl⟩
      obtain ⟨key, hkey⟩ := h.getInt_header hfirst
      exact hkey (hfaithful.noInt key)

end

theorem root_namespace_sample :
    4096 + (buildboot sampleModules).length < wordSize ∧
    ∃ info ns, (Bootimage.mk 4096 (4096 + (buildboot sampleModules).length)).findRootDomain
        (imageAt 4096 sampleModules) 4 = some (info, some ns) ∧
      ns.Faithful (imageAt 4096 sampleModules)
        [(⟨[107], noNul_of_all rfl⟩, ⟨[118, 118], noNul_of_all rfl⟩)] := by
  have hfits : 4096 + (buildboot sampleModules).length < wordSize := by decide +kernel
  obtain ⟨info, ns, hfound, -, hiff⟩ :=
    root_namespace_iff (loaded_imageAt hfits) 4 (by decide) rfl
  exact ⟨hfits, info, ns, hfound, hiff.mpr (by simp)⟩

/-- **A root domain without lines**: the kernel takes the header of the image for a
namespace, in which `"BIMG\x01"` is an integer. -/
theorem empty_root_namespace_has_int :
    Loaded [⟨rootDomain, [], []⟩] (imageAt 4096 [⟨rootDomain, [], []⟩]) ⟨4096, 4144⟩ ∧
    (Bootimage.mk 4096 4144).findRootDomain (imageAt 4096 [⟨rootDomain, [], []⟩]) 2
      = some ((4144, 0), some ⟨4096, magic, 4100⟩) ∧
    (Bootimage.Namespace.mk 4096 magic 4100).getInt (imageAt 4096 [⟨rootDomain, [], []⟩])
      ⟨[66, 73, 77, 71, 1], noNul_of_all rfl⟩ = some 40 ∧
    ¬ (Bootimage.Namespace.mk 4096 magic 4100).Faithful (imageAt 4096 [⟨rootDomain, [], []⟩]) [] := by
  have hloaded : Loaded [⟨rootDomain, [], []⟩] (imageAt 4096 [⟨rootDomain, [], []⟩]) ⟨4096, 4144⟩ :=
    loaded_imageAt (by decide +kernel)
  have hint : (Bootimage.Namespace.mk 4096 magic 4100).getInt
      (imageAt 4096 [⟨rootDomain, [], []⟩]) ⟨[66, 73, 77, 71, 1], noNul_of_all rfl⟩ = some 40 := by
    decide +kernel
  refine ⟨hloaded, by decide +kernel, hint, fun hfaithful => ?_⟩
  have hno := hfaithful.noInt ⟨[66, 73, 77, 71, 1], noNul_of_all rfl⟩
  rw [hint] at hno
  cases hno

end Metta.BuildBoot
