/-
  Metta.ParseDwarf.FindAddress — the subprogram of an address: the searches of
  `die_t` in tools/parsedwarf/dwarf_info.cpp, and `find_named_node` of
  dwarf_parser.cpp.

  The entries of a tree have an order, the one in which they are written, and
  each entry has a path, which is the entry and those above it.  A search
  through the nodes is one through the paths in this order.

    • `Die.findAddress`, `Die.findCompileUnit`, `findNamedNode` — the searches,
    • `Forest.paths` — the paths of a forest,
    • `Shown`, `shown_dies` — a node and those above it are read from a path,
    • `findAddress_tree`, `findByOffset_tree`, `findCompileUnit_shown`,
      `findNamedNode_tree` — what the searches find, by the paths.
-/
import Metta.ParseDwarf.DieSearch

namespace Metta.ParseDwarf

open Metta.Machine Decoder

/-! ## §1. The searches. -/

def DW_TAG_compile_unit : UInt32 := 0x11
def DW_TAG_subprogram : UInt32 := 0x2e

def DW_AT_name : UInt32 := 0x03
def DW_AT_stmt_list : UInt32 := 0x10
def DW_AT_low_pc : UInt32 := 0x11
def DW_AT_high_pc : UInt32 := 0x12
def DW_AT_abstract_origin : UInt32 := 0x31
def DW_AT_specification : UInt32 := 0x47
def DW_AT_GNU_cpp_mangled_name : UInt32 := 0x2007

/-! A `dynamic_cast` of a reader, and the `data` behind it. -/

namespace FormReader

def asAddr : FormReader → Option UInt32
  | addr data => some data
  | _ => none

def asData4 : FormReader → Option UInt32
  | data4 data => some data
  | _ => none

def asRef4 : FormReader → Option UInt32
  | ref4 data => some data
  | _ => none

def asStrp : FormReader → Option UInt32
  | strp data => some data
  | _ => none

def asString : FormReader → Option Nat
  | string data => some data
  | _ => none

end FormReader

namespace Die

variable {β : Type} (d : Die)

/-- The reader of an attribute, as one of a class. -/
def cast (name : UInt32) (as : FormReader → Option β) : Option β :=
  (d.nodeAttributes.find name).bind as

/-- `low_pc` of `find_address`, which is `-1` without the attribute. -/
def lowPc : UInt32 := (d.cast DW_AT_low_pc FormReader.asAddr).getD 0xffffffff

/-- `high_pc` of `find_address`. -/
def highPc : UInt32 := (d.cast DW_AT_high_pc FormReader.asAddr).getD 0

/-- `is_subprogram`. -/
def isSubprogram : Bool := d.tag == DW_TAG_subprogram

/-- The test of `find_address`. -/
def holds (addr : UInt32) : Bool :=
  d.isSubprogram && decide (d.lowPc ≤ addr) && decide (d.highPc ≥ addr)

/-- `string_attr`: the section that the pointer is into, and the offset in it. -/
def stringAttr (info str : List UInt8) (attr : UInt32) : Option (List UInt8 × Nat) :=
  match d.cast attr FormReader.asStrp with
  | some data => some (str, data.toNat)
  | none => (d.cast attr FormReader.asString).map fun data => (info, data)

/-- The reader that `find_named_node` has a reference from. -/
def reference : Option UInt32 :=
  match d.cast DW_AT_specification FormReader.asRef4 with
  | some data => some data
  | none => d.cast DW_AT_abstract_origin FormReader.asRef4

end Die

/-- `find_address` from a node on.  Every call sets `low_pc` and `high_pc` first, and so they are
those of the node that is found. -/
def findAddressFrom (nodes : List Die) (addr : UInt32) : Nat → Nat → Option (Option Nat)
  | 0, _ => none
  | n + 1, node =>
      match nodes[node]? with
      | none => none
      | some d =>
          if d.holds addr then some (some node)
          else firstFound (findAddressFrom nodes addr n) d.children

/-- `find_address`; none when it goes down further than there are nodes, or to no node. -/
def findAddress (nodes : List Die) (node : Nat) (addr : UInt32) : Option (Option Nat) :=
  findAddressFrom nodes addr nodes.length node

/-- The loop of `find_compile_unit`. -/
def findCompileUnitFrom (nodes : List Die) : Nat → Option Nat → Option (Option Nat)
  | _, none => some none
  | 0, some _ => none
  | n + 1, some node =>
      match nodes[node]? with
      | none => none
      | some d =>
          if d.tag = DW_TAG_compile_unit then some (some node)
          else findCompileUnitFrom nodes n d.parent

/-- `find_compile_unit`; none when it goes up further than there are nodes. -/
def findCompileUnit (nodes : List Die) (node : Nat) : Option (Option Nat) :=
  findCompileUnitFrom nodes nodes.length (some node)

/-- `find_named_node`, with the root at the place zero. -/
def findNamedNode (nodes : List Die) (node : Nat) (cuhOffset : UInt32) : Option (Option Nat) :=
  match nodes[node]? with
  | none => none
  | some d =>
      if (d.cast DW_AT_name FormReader.asStrp).isSome then some (some node)
      else
        match d.reference with
        | some data => findByOffset nodes 0 (data + cuhOffset).toNat
        | none => some none

/-! ## §2. Entries and their paths. -/

namespace Value

def asAddr : Value → Option UInt32
  | addr v => some v
  | _ => none

def asData4 : Value → Option UInt32
  | data4 v => some v
  | _ => none

def asRef4 : Value → Option UInt32
  | ref4 v => some v
  | _ => none

def asStrp : Value → Option UInt32
  | strp v => some v
  | _ => none

def asString : Value → Option Text
  | string v => some v
  | _ => none

theorem asAddr_reader (v : Value) (o : Nat) : (v.reader o).asAddr = v.asAddr := by
  cases v <;> rfl

theorem asData4_reader (v : Value) (o : Nat) : (v.reader o).asData4 = v.asData4 := by
  cases v <;> rfl

theorem asRef4_reader (v : Value) (o : Nat) : (v.reader o).asRef4 = v.asRef4 := by
  cases v <;> rfl

theorem asStrp_reader (v : Value) (o : Nat) : (v.reader o).asStrp = v.asStrp := by
  cases v <;> rfl

theorem asString_reader (v : Value) (o : Nat) :
    (v.reader o).asString = v.asString.map fun _ => o := by
  cases v <;> rfl

end Value

namespace Entry

variable {β : Type} (e : Entry)

/-- The value of an attribute, in one of the forms. -/
def cast (name : UInt32) (as : Value → Option β) : Option β := (e.attr name.toNat).bind as

def isCompileUnit : Bool := e.abbreviation.tag.unsigned == DW_TAG_compile_unit.toNat

def lowPc : UInt32 := (e.cast DW_AT_low_pc Value.asAddr).getD 0xffffffff

def highPc : UInt32 := (e.cast DW_AT_high_pc Value.asAddr).getD 0

/-- A subprogram with the address between its bounds, and these are in it. -/
def holds (addr : UInt32) : Bool :=
  e.abbreviation.tag.unsigned == DW_TAG_subprogram.toNat && decide (e.lowPc ≤ addr) &&
    decide (e.highPc ≥ addr)

/-- The entry that this one refers to for its name, by the distance from the unit. -/
def reference : Option UInt32 :=
  match e.cast DW_AT_specification Value.asRef4 with
  | some data => some data
  | none => e.cast DW_AT_abstract_origin Value.asRef4

/-- The text of an attribute, with the texts of the pool. -/
def text (pool : UInt32 → Text) (name : UInt32) : Option Text :=
  match e.cast name Value.asStrp with
  | some v => some (pool v)
  | none => e.cast name Value.asString

end Entry

/-- An entry and those above it, each with the offset that it is written at. -/
abbrev Path := List (Nat × Entry)

namespace Path

/-- The entry at the end of the path. -/
def entry (path : Path) : Option Entry := path.head?.map Prod.snd

def holds (path : Path) (addr : UInt32) : Bool :=
  match path.entry with
  | some e => e.holds addr
  | none => false

def beginsAt (path : Path) (offset : Nat) : Bool := path.head?.map Prod.fst == some offset

/-- The path from the next unit on; it is empty when there is none. -/
def compileUnit (path : Path) : Path := path.dropWhile fun x => !x.2.isCompileUnit

/-- The path of the entry that has the name of this one; it is empty when there is none. -/
def named (paths : List Path) (path : Path) (cuhOffset : UInt32) : Path :=
  match path.entry with
  | none => []
  | some e =>
      if (e.cast DW_AT_name Value.asStrp).isSome then path
      else
        match e.reference with
        | some data => (paths.find? fun path' => path'.beginsAt (data + cuhOffset).toNat).getD []
        | none => []

end Path

/-- The paths of a forest at the offset `o` that is below a path, in the order of the entries. -/
def Forest.paths : Path → Forest → Nat → List Path
  | _, .nil, _ => []
  | above, .cons e children next, o =>
      ((o, e) :: above)
        :: (children.paths ((o, e) :: above) (o + e.bytes.length)
          ++ next.paths above (o + e.bytes.length + (e.below children.bytes).length))

def Tree.paths (t : Tree) (o : Nat) : List Path := t.forest.paths [] o

@[simp] theorem Forest.length_paths (f : Forest) (above : Path) (o : Nat) :
    (f.paths above o).length = f.size := by
  induction f generalizing above o with
  | nil => rfl
  | cons e children next ihc ihn =>
      unfold paths size
      rw [List.length_cons, List.length_append, ihc, ihn]
      omega

/-! ## §3. Nodes that are read from entries. -/

variable {set : List Abbreviation} {s : List UInt8} {o : Nat} {nodes : List Die}

/-- The node has what the entry at the offset has. -/
structure Entry.ReadAs (e : Entry) (s : List UInt8) (o : Nat) (d : Die) : Prop where
  offs : d.offs = o
  tag : (d.tag.toNat : Int) = e.abbreviation.tag.unsigned
  attributes : ∀ name : UInt32, ∃ place,
    d.nodeAttributes.find name = (e.attr name.toNat).map (fun v => v.reader place) ∧
      ∀ v, e.attr name.toNat = some v → Lies s place v.bytes

/-- **The node of an entry** is read from it. -/
theorem readAs_die {e : Entry} (hset : WellFormedSet set) (he : e.WellFormed set)
    (h : Lies s o e.bytes) (parent : Option Nat) (children : List Nat) :
    e.ReadAs s o (e.die o parent children) where
  offs := rfl
  tag := toNat_ofInt (Leb.unsigned_nonneg _) (hset.abbreviations _ he.mem).tag.2
  attributes := by
    intro name
    unfold Entry.bytes at h
    obtain ⟨place, hfind, hlies⟩ := find_assignAll he.values
      (hset.abbreviations _ he.mem).attributes (hset.names _ he.mem) h.right .empty name
    refine ⟨place, ?_, fun v hv => (hlies v hv).2⟩
    rw [UnorderedMap.find_empty, Option.or_none] at hfind
    exact hfind

section ReadAs

variable {e : Entry} {d : Die}

/-- A class of readers that is the one of a form of values. -/
theorem Entry.ReadAs.cast {β : Type} (h : e.ReadAs s o d) (name : UInt32)
    {as : FormReader → Option β} {as' : Value → Option β}
    (hsame : ∀ v place, as (v.reader place) = as' v) : d.cast name as = e.cast name as' := by
  obtain ⟨place, hfind, -⟩ := h.attributes name
  unfold Die.cast Entry.cast
  rw [hfind]
  cases e.attr name.toNat with
  | none => rfl
  | some v => exact hsame v place

theorem Entry.ReadAs.tag_eq (h : e.ReadAs s o d) (tag : UInt32) :
    d.tag = tag ↔ e.abbreviation.tag.unsigned = tag.toNat := by
  rw [← h.tag, Int.natCast_inj, UInt32.toNat_inj]

theorem Entry.ReadAs.lowPc (h : e.ReadAs s o d) : d.lowPc = e.lowPc := by
  unfold Die.lowPc Entry.lowPc
  rw [h.cast _ Value.asAddr_reader]

theorem Entry.ReadAs.highPc (h : e.ReadAs s o d) : d.highPc = e.highPc := by
  unfold Die.highPc Entry.highPc
  rw [h.cast _ Value.asAddr_reader]

theorem Entry.ReadAs.holds (h : e.ReadAs s o d) (addr : UInt32) : d.holds addr = e.holds addr := by
  have htag : d.isSubprogram
      = (e.abbreviation.tag.unsigned == (DW_TAG_subprogram.toNat : Int)) := by
    unfold Die.isSubprogram
    rw [Bool.eq_iff_iff, beq_iff_eq, beq_iff_eq]
    exact h.tag_eq _
  unfold Die.holds Entry.holds
  rw [htag, h.lowPc, h.highPc]

theorem Entry.ReadAs.reference (h : e.ReadAs s o d) : d.reference = e.reference := by
  unfold Die.reference Entry.reference
  rw [h.cast _ Value.asRef4_reader, h.cast _ Value.asRef4_reader]

/-- **The text of an attribute** is at the pointer. -/
theorem Entry.ReadAs.stringAttr (h : e.ReadAs s o d) {str : List UInt8} {pool : UInt32 → Text}
    {name : UInt32}
    (hpool : ∀ v, e.cast name Value.asStrp = some v → Lies str v.toNat (pool v).terminated) :
    match e.text pool name with
    | some t => ∃ p, d.stringAttr s str name = some p ∧ Lies p.1 p.2 t.terminated
    | none => d.stringAttr s str name = none := by
  obtain ⟨place, hfind, hlies⟩ := h.attributes name
  unfold Entry.text Die.stringAttr
  rw [h.cast _ Value.asStrp_reader]
  cases hstrp : e.cast name Value.asStrp with
  | some v => exact ⟨_, rfl, hpool v hstrp⟩
  | none =>
      unfold Die.cast Entry.cast
      rw [hfind]
      cases hattr : e.attr name.toNat with
      | none => rfl
      | some v =>
          show match v.asString with
            | some t => ∃ p, Option.map _ (v.reader place).asString = some p ∧ _
            | none => Option.map _ (v.reader place).asString = none
          rw [v.asString_reader]
          cases v with
          | string t => exact ⟨_, rfl, hlies _ hattr⟩
          | _ => rfl

end ReadAs

/-- The node at the place and those above it are read from the entries of the path. -/
def Shown (s : List UInt8) (nodes : List Die) : Path → Option Nat → Prop
  | [], place => place = none
  | (o, e) :: above, place =>
      ∃ i d, place = some i ∧ nodes[i]? = some d ∧ e.ReadAs s o d ∧ Shown s nodes above d.parent

/-- **The nodes of a forest** are read from its paths. -/
theorem shown_dies {f : Forest} (hset : WellFormedSet set) (hf : f.WellFormed set)
    (h : Lies s o f.bytes) {parent : Option Nat} {above : Path} (habove : Shown s nodes above parent)
    {i : Nat} (hnodes : Lies nodes i (f.dies parent i o)) {k : Nat} {path : Path}
    (hget : (f.paths above o)[k]? = some path) : Shown s nodes path (some (i + k)) := by
  induction f generalizing parent above i o k with
  | nil => cases hget
  | cons e children next ihc ihn =>
      obtain ⟨he, hleaf, hc, hnext⟩ := hf
      unfold Forest.bytes at h
      unfold Forest.dies at hnodes
      have hread := readAs_die hset he h.left parent (children.roots (i + 1))
      have hroot : Shown s nodes ((o, e) :: above) (some i) :=
        ⟨i, _, rfl, hnodes.head, hread, habove⟩
      unfold Forest.paths at hget
      cases k with
      | zero =>
          cases hget
          exact hroot
      | succ k =>
          rw [List.getElem?_cons_succ, List.getElem?_append, Forest.length_paths] at hget
          have hplace : i + (k + 1) = i + 1 + k := by omega
          rw [hplace]
          by_cases hlt : k < children.size
          · -- below the entry
            rw [if_pos hlt] at hget
            have hbelow := lies_children hleaf (Lies.left h.right)
            exact ihc hc hbelow hroot (Lies.left hnodes.tail) hget
          · -- behind it
            rw [if_neg hlt] at hget
            have hbehind := Lies.right hnodes.tail
            rw [Forest.length_dies] at hbehind
            have hshown := ihn hnext (Lies.right h.right) habove hbehind hget
            rwa [show i + 1 + children.size + (k - children.size) = i + 1 + k by omega] at hshown

/-! ## §4. What is found. -/

/-- A tree that is written in the section, and its nodes. -/
structure Planted (s : List UInt8) (set : List Abbreviation) (t : Tree) (o : Nat)
    (nodes : List Die) : Prop where
  abbreviations : WellFormedSet set
  tree : t.WellFormed set
  lies : Lies s o t.bytes
  nodes : nodes = t.forest.dies none 0 o

variable {t : Tree}

theorem Planted.shown (h : Planted s set t o nodes) {k : Nat} {path : Path}
    (hget : (t.paths o)[k]? = some path) : Shown s nodes path (some k) := by
  have hself : Lies nodes 0 (t.forest.dies none 0 o) := by
    rw [h.nodes]
    exact List.prefix_rfl
  have hroot : Shown s nodes [] none := rfl
  have hshown := shown_dies h.abbreviations h.tree h.lies hroot hself hget
  rwa [Nat.zero_add] at hshown

theorem Planted.length (h : Planted s set t o nodes) : nodes.length = (t.paths o).length := by
  unfold Tree.paths
  rw [h.nodes, Forest.length_dies, Forest.length_paths]

/-- **A search through the nodes** is one through the paths, when they agree at every one. -/
theorem Planted.search (h : Planted s set t o nodes) {search : Nat → Nat → Option (Option Nat)}
    {p : Die → Bool} (q : Path → Bool)
    (hsearch : ∀ n i d, nodes[i]? = some d → search (n + 1) i
      = if p d = true then some (some i) else firstFound (search n) d.children)
    (hagree : ∀ o' e above d, e.ReadAs s o' d → p d = q ((o', e) :: above)) :
    search nodes.length 0 = some ((t.paths o).findIdx? q) := by
  have hself : Lies nodes 0 (t.forest.dies none 0 o) := by
    rw [h.nodes]
    exact List.prefix_rfl
  have hsize : t.forest.size ≤ nodes.length := by rw [h.nodes, Forest.length_dies]
  have hfound := firstFound_dies hsearch hself hsize
  have hzero : (fun k : Nat => 0 + k) = id := funext Nat.zero_add
  rw [hzero, Option.map_id, id] at hfound
  have hmap : (t.forest.dies none 0 o).map p = (t.paths o).map q := by
    rw [← h.nodes]
    apply List.ext_getElem?
    intro k
    rw [List.getElem?_map, List.getElem?_map]
    cases hget : (t.paths o)[k]? with
    | none =>
        have hnone : nodes[k]? = none := by
          rw [List.getElem?_eq_none_iff] at hget ⊢
          rwa [h.length]
        rw [hnone]
        rfl
    | some path =>
        -- a path is not empty, and its node is read from its entry
        have hshown := h.shown hget
        cases path with
        | nil => cases hshown
        | cons x above =>
            obtain ⟨i, d, hplace, hnode, hread, -⟩ := hshown
            cases hplace
            rw [hnode, Option.map_some, Option.map_some, hagree _ _ above _ hread]
  have hidx : (t.forest.dies none 0 o).findIdx? p = (t.paths o).findIdx? q := by
    have hp := List.findIdx?_map (f := p) (l := t.forest.dies none 0 o) (p := id)
    have hq := List.findIdx?_map (f := q) (l := t.paths o) (p := id)
    rw [hmap, hq] at hp
    exact hp.symm
  rw [hidx] at hfound
  exact (firstFound_single _ 0).symm.trans hfound

/-- **`find_address`** finds the first subprogram that has the address. -/
theorem findAddress_tree (h : Planted s set t o nodes) (addr : UInt32) :
    findAddress nodes 0 addr = some ((t.paths o).findIdx? fun path => path.holds addr) := by
  apply h.search (p := fun d => d.holds addr)
  · intro n i d hget
    rw [findAddressFrom, hget]
  · intro o' e above d hread
    exact hread.holds addr

/-- **`find_by_offset`** finds the entry at the offset, if there is one. -/
theorem findByOffset_tree (h : Planted s set t o nodes) (offset : Nat) :
    findByOffset nodes 0 offset = some ((t.paths o).findIdx? fun path => path.beginsAt offset) := by
  apply h.search (p := fun d => d.offs == offset)
  · intro n i d hget
    rw [findFrom_of_get offset n hget]
    simp only [beq_iff_eq]
  · intro o' e above d hread
    show (d.offs == offset) = (some o' == some offset)
    rw [hread.offs]
    rfl

/-- **`find_compile_unit`** goes up the path. -/
theorem findCompileUnit_shown {path : Path} {place : Option Nat} (h : Shown s nodes path place)
    {n : Nat} (hn : path.length ≤ n) :
    ∃ place', findCompileUnitFrom nodes n place = some place' ∧
      Shown s nodes path.compileUnit place' := by
  induction path generalizing place n with
  | nil =>
      cases h
      refine ⟨none, ?_, rfl⟩
      cases n <;> rfl
  | cons x above ih =>
      obtain ⟨i, d, rfl, hget, hread, habove⟩ := h
      obtain ⟨n, rfl⟩ : ∃ m, n = m + 1 := ⟨n - 1, by simp at hn; omega⟩
      have htag := hread.tag_eq DW_TAG_compile_unit
      unfold findCompileUnitFrom Path.compileUnit
      rw [hget, List.dropWhile_cons]
      by_cases hunit : d.tag = DW_TAG_compile_unit
      · have hentry : x.2.isCompileUnit = true := beq_iff_eq.mpr (htag.mp hunit)
        rw [hentry]
        exact ⟨some i, if_pos hunit, i, d, rfl, hget, hread, habove⟩
      · have hentry : x.2.isCompileUnit = false :=
          beq_eq_false_iff_ne.mpr fun heq => hunit (htag.mpr heq)
        rw [hentry]
        obtain ⟨place', hfind, hshown⟩ := ih habove (by simpa using hn)
        exact ⟨place', (if_neg hunit).trans hfind, hshown⟩

/-- The path of an entry is no longer than there are entries. -/
theorem Forest.length_le_of_mem {f : Forest} {above path : Path} {o : Nat}
    (h : path ∈ f.paths above o) : path.length ≤ above.length + f.size := by
  induction f generalizing above o with
  | nil => cases h
  | cons e children next ihc ihn =>
      unfold paths at h
      unfold size
      rw [List.mem_cons, List.mem_append] at h
      rcases h with rfl | h | h
      · rw [List.length_cons]
        omega
      · have := ihc h
        rw [List.length_cons] at this
        omega
      · have := ihn h
        omega

/-- **What a search through the paths finds** is at the place that it finds. -/
theorem Planted.find (h : Planted s set t o nodes) (q : Path → Bool) :
    Shown s nodes (((t.paths o).find? q).getD []) ((t.paths o).findIdx? q) := by
  cases hidx : (t.paths o).findIdx? q with
  | none =>
      rw [List.findIdx?_eq_none_iff] at hidx
      have hnone : (t.paths o).find? q = none := by
        rw [List.find?_eq_none]
        intro path hmem
        rw [hidx path hmem]
        decide
      rw [hnone]
      rfl
  | some k =>
      obtain ⟨hk, hhit, hfirst⟩ := List.findIdx?_eq_some_iff_getElem.mp hidx
      have hfind : (t.paths o).find? q = some (t.paths o)[k] := by
        rw [List.find?_eq_some_iff_getElem]
        refine ⟨hhit, k, hk, rfl, ?_⟩
        intro j hj
        rw [Bool.not_eq_true', ← Bool.not_eq_true]
        exact hfirst j hj
      rw [hfind]
      exact h.shown (List.getElem?_eq_getElem hk)

/-- The path of the entry that has the name is one of the tree, if there is one. -/
theorem Path.named_mem {paths : List Path} {path : Path} (hmem : path ∈ paths)
    (cuhOffset : UInt32) :
    Path.named paths path cuhOffset = [] ∨ Path.named paths path cuhOffset ∈ paths := by
  unfold Path.named
  cases path.entry with
  | none => exact .inl rfl
  | some e =>
      dsimp only
      by_cases hname : (e.cast DW_AT_name Value.asStrp).isSome = true
      · rw [if_pos hname]
        exact .inr hmem
      · rw [if_neg hname]
        cases e.reference with
        | none => exact .inl rfl
        | some data =>
            dsimp only
            cases hfind : paths.find? fun path' : Path =>
                path'.beginsAt (data + cuhOffset).toNat with
            | none => exact .inl rfl
            | some path' => exact .inr (List.mem_of_find?_eq_some hfind)

/-- **`find_named_node`** finds the entry that has the name. -/
theorem findNamedNode_tree (h : Planted s set t o nodes) {path : Path} {i : Nat}
    (hshown : Shown s nodes path (some i)) (cuhOffset : UInt32) :
    ∃ place, findNamedNode nodes i cuhOffset = some place ∧
      Shown s nodes (Path.named (t.paths o) path cuhOffset) place := by
  cases path with
  | nil => cases hshown
  | cons x above =>
      obtain ⟨i', d, hplace, hget, hread, habove⟩ := hshown
      cases hplace
      have hnode : findNamedNode nodes i cuhOffset
          = if (x.2.cast DW_AT_name Value.asStrp).isSome then some (some i)
            else
              match x.2.reference with
              | some data => findByOffset nodes 0 (data + cuhOffset).toNat
              | none => some none := by
        rw [← hread.cast _ Value.asStrp_reader, ← hread.reference]
        unfold findNamedNode
        rw [hget]
      have hpath : Path.named (t.paths o) (x :: above) cuhOffset
          = if (x.2.cast DW_AT_name Value.asStrp).isSome then x :: above
            else
              match x.2.reference with
              | some data => ((t.paths o).find? fun path : Path =>
                  path.beginsAt (data + cuhOffset).toNat).getD []
              | none => [] := rfl
      rw [hnode, hpath]
      by_cases hname : (x.2.cast DW_AT_name Value.asStrp).isSome = true
      · rw [if_pos hname, if_pos hname]
        exact ⟨some i, rfl, i, d, rfl, hget, hread, habove⟩
      · rw [if_neg hname, if_neg hname]
        cases x.2.reference with
        | none => exact ⟨none, rfl, rfl⟩
        | some data => exact ⟨_, findByOffset_tree h _, h.find _⟩

end Metta.ParseDwarf
