/-
  Metta.ParseDwarf.DieSearch — the nodes of a tree and the entries they are of.

  The search goes through the nodes in their order, which is also the order of
  their offsets.

    • `firstFound_dies` — a search is one through the list of nodes,
    • `findByOffset_dies` — each node is found by its offset,
    • `Entry.ShownBy`, `Tree.ShownBy` — nodes that show a tree,
    • `tree_rebuilt` — a tree that has been written is built again,
    • `twice_not_rebuilt` — but not with an attribute that is named twice, or a number of
      more than 32 bits.
-/
import Metta.ParseDwarf.DieTree

namespace Metta.ParseDwarf

open Metta.Machine Decoder

/-! ## §1. The search. -/

section Search

variable {parent : Option Nat} {nodes : List Die}

theorem firstFound_single (search : Nat → Option (Option Nat)) (c : Nat) :
    firstFound search [c] = search c := by
  unfold firstFound
  rcases search c with _ | _ | _ <;> rfl

/-- The search from a node that is there. -/
theorem findFrom_of_get (offset n : Nat) {i : Nat} {d : Die} (h : nodes[i]? = some d) :
    findFrom nodes offset (n + 1) i
      = if d.offs = offset then some (some i)
        else firstFound (findFrom nodes offset n) d.children := by
  unfold findFrom
  rw [h]

/-- What is found first is found. -/
theorem firstFound_of_some {search : Nat → Option (Option Nat)} {c k : Nat} {rest : List Nat}
    (h : search c = some (some k)) : firstFound search (c :: rest) = some (some k) := by
  unfold firstFound
  rw [h]

theorem firstFound_of_none {search : Nat → Option (Option Nat)} {c : Nat} {rest : List Nat}
    (h : search c = some none) : firstFound search (c :: rest) = firstFound search rest := by
  rw [firstFound, h]

/-- **A search from the roots of a forest on** that takes a node or goes on with its children is one through
the nodes of the forest. -/
theorem firstFound_dies {search : Nat → Nat → Option (Option Nat)} {p : Die → Bool}
    (hsearch : ∀ n i d, nodes[i]? = some d → search (n + 1) i
      = if p d = true then some (some i) else firstFound (search n) d.children)
    {f : Forest} {i o n : Nat} (h : Lies nodes i (f.dies parent i o))
    (hn : f.size ≤ n) :
    firstFound (search n) (f.roots i)
      = some (((f.dies parent i o).findIdx? p).map fun k => i + k) := by
  induction f generalizing parent i o n with
  | nil => rfl
  | cons e children next ihc ihn =>
      unfold Forest.size at hn
      obtain ⟨n, rfl⟩ : ∃ m, n = m + 1 := ⟨n - 1, by omega⟩
      unfold Forest.dies at h
      have hnext := Lies.right h.tail
      rw [Forest.length_dies] at hnext
      have hself := hsearch n i _ h.head
      have hbelow := ihc (n := n) (Lies.left h.tail) (by omega)
      have hbehind := ihn (n := n + 1) hnext (by omega)
      unfold Forest.roots Forest.dies
      rw [List.findIdx?_cons]
      by_cases hp : p (e.die o parent (children.roots (i + 1))) = true
      · rw [if_pos hp] at hself
        rw [if_pos hp, firstFound_of_some hself]
        rfl
      · rw [if_neg hp] at hself
        have hself : search (n + 1) i = firstFound (search n) (children.roots (i + 1)) := hself
        rw [hbelow] at hself
        rw [if_neg hp, List.findIdx?_append, Forest.length_dies]
        cases hfound : (children.dies (some i) (i + 1) (o + e.bytes.length)).findIdx? p with
        | some k =>
            rw [hfound] at hself
            rw [firstFound_of_some hself]
            show some (some (i + 1 + k)) = some (some (i + (k + 1)))
            rw [Nat.add_right_comm, Nat.add_assoc]
        | none =>
            -- not below the node: behind it
            rw [hfound] at hself
            rw [firstFound_of_none hself, hbehind, Option.none_or, Option.map_map, Option.map_map]
            congr 2
            funext k
            show i + 1 + children.size + k = i + (k + children.size + 1)
            omega

variable {set : List Abbreviation}

/-- The bytes below an entry are there only when its abbreviation has children. -/
theorem length_below {e : Entry} {children : Forest}
    (hleaf : e.abbreviation.hasChildren = false → children = .nil) :
    children.bytes.length ≤ (e.below children.bytes).length := by
  unfold Entry.below
  cases hflag : e.abbreviation.hasChildren with
  | false =>
      rw [hleaf hflag]
      exact Nat.le_refl _
  | true =>
      rw [if_pos rfl, List.length_append]
      exact Nat.le_add_right _ _

/-- The offsets of the nodes of a forest are in its bytes. -/
theorem offs_of_mem {f : Forest} (hf : f.WellFormed set) {i o : Nat} {d : Die}
    (h : d ∈ f.dies parent i o) : o ≤ d.offs ∧ d.offs < o + f.bytes.length := by
  induction f generalizing parent i o with
  | nil => cases h
  | cons e children next ihc ihn =>
      obtain ⟨-, hleaf, hc, hnext⟩ := hf
      have hpos := e.length_bytes_pos
      have hbelow := length_below hleaf
      unfold Forest.bytes
      rw [List.length_append, List.length_append]
      unfold Forest.dies at h
      rw [List.mem_cons, List.mem_append] at h
      rcases h with rfl | h | h
      · show o ≤ o ∧ o < _
        omega
      · have := ihc hc h
        omega
      · have := ihn hnext h
        omega

/-- **The offsets** go up from node to node. -/
theorem offs_pairwise {f : Forest} (hf : f.WellFormed set) (parent : Option Nat) (i o : Nat) :
    (f.dies parent i o).Pairwise fun d d' => d.offs < d'.offs := by
  induction f generalizing parent i o with
  | nil => exact List.Pairwise.nil
  | cons e children next ihc ihn =>
      obtain ⟨-, hleaf, hc, hnext⟩ := hf
      have hpos := e.length_bytes_pos
      have hbelow := length_below hleaf
      unfold Forest.dies
      rw [List.pairwise_cons, List.pairwise_append]
      refine ⟨?_, ihc hc _ _ _, ihn hnext _ _ _, ?_⟩
      · intro d hd
        show o < d.offs
        rcases List.mem_append.mp hd with hd | hd
        · have := offs_of_mem hc hd
          omega
        · have := offs_of_mem hnext hd
          omega
      · intro d hd d' hd'
        have := offs_of_mem hc hd
        have := offs_of_mem hnext hd'
        omega

/-- **Each node of a tree** is found by its offset, from the root on. -/
theorem findByOffset_dies {t : Tree} (ht : t.WellFormed set) {o i : Nat} {d : Die}
    (hget : (t.forest.dies none 0 o)[i]? = some d) :
    findByOffset (t.forest.dies none 0 o) 0 d.offs = some (some i) := by
  have hself : Lies (t.forest.dies none 0 o) 0 (t.forest.dies none 0 o) := List.prefix_rfl
  -- a node is taken when it begins at the offset
  have htest : ∀ n i x, (t.forest.dies none 0 o)[i]? = some x →
      findFrom (t.forest.dies none 0 o) d.offs (n + 1) i
        = if (x.offs == d.offs) = true then some (some i)
          else firstFound (findFrom (t.forest.dies none 0 o) d.offs n) x.children := by
    intro n i x hx
    rw [findFrom_of_get d.offs n hx]
    exact if_congr beq_iff_eq.symm rfl rfl
  have hsearch := firstFound_dies (p := fun x => x.offs == d.offs) htest hself (Nat.le_refl _)
  obtain ⟨hi, hd⟩ := List.getElem?_eq_some_iff.mp hget
  have hfirst : (t.forest.dies none 0 o).findIdx? (fun x => x.offs == d.offs) = some i := by
    rw [List.findIdx?_eq_some_iff_getElem]
    refine ⟨hi, by rw [hd]; exact beq_self_eq_true _, ?_⟩
    -- the nodes before it begin before it
    intro j hj heq
    have hlt := List.pairwise_iff_getElem.mp (offs_pairwise ht none 0 o) j i (by omega) hi hj
    rw [beq_iff_eq] at heq
    rw [hd] at hlt
    omega
  rw [hfirst, Option.map_some, Nat.zero_add] at hsearch
  unfold findByOffset
  rw [Forest.length_dies]
  exact (firstFound_single _ 0).symm.trans hsearch

end Search

/-! ## §2. What the nodes show. -/

/-- The form that a reader is for. -/
def FormReader.form : FormReader → UInt32
  | addr _ => 0x01
  | block2 _ _ => 0x03
  | block4 _ _ => 0x04
  | data2 _ => 0x05
  | data4 _ => 0x06
  | data8 _ => 0x07
  | string _ => 0x08
  | block _ _ => 0x09
  | block1 _ _ => 0x0a
  | data1 _ => 0x0b
  | flag _ => 0x0c
  | sdata _ => 0x0d
  | strp _ => 0x0e
  | udata _ => 0x0f
  | refAddr _ => 0x10
  | ref1 _ => 0x11
  | ref2 _ => 0x12
  | ref4 _ => 0x13
  | ref8 _ => 0x14
  | refUdata _ => 0x15
  | indirect _ _ => 0x16

theorem form_reader (v : Value) (o : Nat) : (v.reader o).form = v.form := by
  cases v <;> rfl

/-- A node shows an entry that begins at the offset: the tag, and the attributes with their forms
and values. -/
structure Entry.ShownBy (e : Entry) (s : List UInt8) (o : Nat) (d : Die) : Prop where
  offs : d.offs = o
  tag : (d.tag.toNat : Int) = e.abbreviation.tag.unsigned
  attributes : ∀ name : UInt32,
    (d.nodeAttributes.find name).map (fun r => (r.form, r.content s))
      = (e.attr name.toNat).map fun v => (v.form, some v.content)

/-- The nodes at these places show the roots of a forest that begins at the offset, they are
found there and are linked with their parent, and their children show what is below. -/
def Forest.ShownBy (s : List UInt8) (nodes : List Die) (parent : Option Nat) :
    Forest → List Nat → Nat → Prop
  | .nil, places, _ => places = []
  | .cons e children next, places, o =>
      ∃ i rest d, places = i :: rest ∧ nodes[i]? = some d ∧
        e.ShownBy s o d ∧ d.parent = parent ∧ findByOffset nodes 0 o = some (some i) ∧
        children.ShownBy s nodes (some i) d.children (o + e.bytes.length) ∧
        next.ShownBy s nodes parent rest (o + e.bytes.length + (e.below children.bytes).length)

/-- The first node is the root of the tree. -/
def Tree.ShownBy (t : Tree) (s : List UInt8) (nodes : List Die) (o : Nat) : Prop :=
  t.forest.ShownBy s nodes none [0] o

/-- The set is loaded and the tree is built again, wherever they are written, up to where they
end. -/
def Rebuilt (set : List Abbreviation) (t : Tree) : Prop :=
  ∀ before after before' after' : List UInt8, ∃ abbrevs nodes,
    loadAbbrevSet (before ++ encodeAbbrevs set ++ after) before.length
      = .ok (abbrevs, before.length + (encodeAbbrevs set).length) ∧
    buildTree abbrevs (before' ++ t.bytes ++ after') before'.length
      = .ok (nodes, before'.length + t.bytes.length) ∧
    t.ShownBy (before' ++ t.bytes ++ after') nodes before'.length

variable {set : List Abbreviation} {s : List UInt8} {o : Nat}

/-- What a list of attributes with their values has for a name. -/
def named (attrs : List (Attribute × Value)) (name : Int) : Option Value :=
  (attrs.find? fun p => p.1.name.unsigned == name).map Prod.snd

theorem named_of_not_mem {attrs : List Attribute} (values : List Value) {name : Int}
    (h : name ∉ attrs.map fun a => a.name.unsigned) : named (attrs.zip values) name = none := by
  unfold named
  rw [Option.map_eq_none_iff, List.find?_eq_none]
  intro p hp heq
  rw [beq_iff_eq] at heq
  exact h (List.mem_map.mpr ⟨p.1, (List.of_mem_zip hp).1, heq⟩)

/-- **The attributes that have been assigned**, and where their values lie, when no name comes
twice; the others are as they were. -/
theorem find_assignAll {attrs : List Attribute} {values : List Value}
    (hwell : List.Forall₂ (fun attr v => attr.form.unsigned = v.form.toNat ∧ v.WellFormed)
      attrs values)
    (hfits : ∀ a ∈ attrs, a.WellFormed) (hnames : (attrs.map fun a => a.name.unsigned).Nodup)
    (h : Lies s o (values.flatMap Value.bytes)) (nodeAttributes : AttrMap) (name : UInt32) :
    ∃ place, (assignAll (attrs.zip values) o nodeAttributes).find name
        = ((named (attrs.zip values) name.toNat).map fun v => v.reader place).or
            (nodeAttributes.find name) ∧
      ∀ v, named (attrs.zip values) name.toNat = some v → v.WellFormed ∧ Lies s place v.bytes := by
  induction hwell generalizing o nodeAttributes with
  | nil =>
      refine ⟨o, rfl, ?_⟩
      intro v hv
      cases hv
  | @cons a v attrs values hv _ ih =>
      obtain ⟨hnot, hrest⟩ := List.nodup_cons.mp hnames
      rw [List.flatMap_cons] at h
      have hname := toNat_ofInt a.name.unsigned_nonneg (hfits a List.mem_cons_self).name.2
      obtain ⟨place, hfind, hlies⟩ := ih (fun x hx => hfits x (List.mem_cons_of_mem a hx)) hrest
        h.right (nodeAttributes.assign (UInt32.ofInt a.name.unsigned) (v.reader o))
      rw [List.zip_cons_cons]
      unfold assignAll named
      rw [hfind, UnorderedMap.find_assign, List.find?_cons]
      by_cases heq : UInt32.ofInt a.name.unsigned = name
      · -- none of those that follow has the name
        have hunsigned : (name.toNat : Int) = a.name.unsigned := by rw [← heq, hname]
        rw [if_pos heq, hunsigned, named_of_not_mem values hnot, beq_self_eq_true]
        refine ⟨o, rfl, ?_⟩
        intro v' hv'
        cases hv'
        exact ⟨hv.2, h.left⟩
      · have hne : (a.name.unsigned == (name.toNat : Int)) = false := by
          rw [beq_eq_false_iff_ne, ← hname]
          intro hsame
          exact heq (UInt32.toNat_inj.mp (Int.natCast_inj.mp hsame))
        rw [if_neg heq, hne]
        exact ⟨place, rfl, hlies⟩

/-- **The node of an entry** shows the entry. -/
theorem shownBy_die {e : Entry} (hset : WellFormedSet set) (he : e.WellFormed set)
    (h : Lies s o e.bytes) (parent : Option Nat) (children : List Nat) :
    e.ShownBy s o (e.die o parent children) where
  offs := rfl
  tag := toNat_ofInt (Leb.unsigned_nonneg _) (hset.abbreviations _ he.mem).tag.2
  attributes := by
    intro name
    unfold Entry.bytes at h
    obtain ⟨place, hfind, hlies⟩ := find_assignAll he.values
      (hset.abbreviations _ he.mem).attributes (hset.names _ he.mem) h.right .empty name
    rw [UnorderedMap.find_empty, Option.or_none] at hfind
    have hfind : (e.die o parent children).nodeAttributes.find name
        = (e.attr name.toNat).map fun v => v.reader place := hfind
    rw [hfind, Option.map_map]
    apply Option.map_congr
    intro v hv
    obtain ⟨hwell, hlies⟩ := hlies v hv
    show ((v.reader place).form, (v.reader place).content s) = _
    rw [form_reader, content_reader hwell hlies]

/-- What is below an entry lies behind it; without the flag there is nothing. -/
theorem lies_children {e : Entry} {children : Forest}
    (hleaf : e.abbreviation.hasChildren = false → children = .nil)
    (h : Lies s o (e.below children.bytes)) : Lies s o children.bytes := by
  unfold Entry.below at h
  cases hflag : e.abbreviation.hasChildren with
  | false =>
      rw [hleaf hflag]
      exact lies_nil _ _
  | true =>
      rw [if_pos hflag] at h
      exact h.left

/-- **The nodes of a forest** show the forest when each of them is found by its offset. -/
theorem shownBy_dies {f : Forest} {nodes : List Die} (hset : WellFormedSet set)
    (hf : f.WellFormed set) (h : Lies s o f.bytes)
    (hfind : ∀ i d, nodes[i]? = some d → findByOffset nodes 0 d.offs = some (some i))
    {parent : Option Nat} {i : Nat} (hnodes : Lies nodes i (f.dies parent i o)) :
    f.ShownBy s nodes parent (f.roots i) o := by
  induction f generalizing parent i o with
  | nil => rfl
  | cons e children next ihc ihn =>
      obtain ⟨he, hleaf, hc, hnext⟩ := hf
      unfold Forest.bytes at h
      unfold Forest.dies at hnodes
      have hd := hnodes.head
      have hbelow := lies_children hleaf (Lies.left h.right)
      have hbehind := Lies.right hnodes.tail
      rw [Forest.length_dies] at hbehind
      exact ⟨i, _, _, rfl, hd, shownBy_die hset he h.left _ _, rfl, hfind i _ hd,
        ihc hc hbelow (Lies.left hnodes.tail), ihn hnext (Lies.right h.right) hbehind⟩

/-! ## §3. Building a tree again. -/

/-- **A tree that has been written** over a set of abbreviations is built again. -/
theorem tree_rebuilt {t : Tree} (hset : WellFormedSet set) (ht : t.WellFormed set) :
    Rebuilt set t := by
  intro before after before' after'
  have hlies := Lies.of_append before' t.bytes after'
  refine ⟨loaded set, t.forest.dies none 0 before'.length,
    reads_abbrevs hset.abbreviations _ _ (Lies.of_append _ _ _), reads_tree hset ht _ _ hlies, ?_⟩
  have hfind : ∀ i d, (t.forest.dies none 0 before'.length)[i]? = some d →
      findByOffset (t.forest.dies none 0 before'.length) 0 d.offs = some (some i) := by
    intro i d hget
    exact findByOffset_dies ht hget
  exact shownBy_dies hset ht hlies hfind (List.prefix_rfl : Lies _ 0 _)

/-! ## §4. Two attributes of one name, and a wide number. -/

/-- A number of one byte is short and narrow. -/
theorem fits_small (b : UInt8) (h : b.toNat < 128) : Value.Fits (.small b h) := by
  constructor
  · show 1 ≤ 5
    decide
  · show (b.toNat : Int) < 2 ^ 32
    omega

/-- An attribute of the name and the form. -/
def smallAttribute (name form : Fin 128) : Attribute where
  name := .small (UInt8.ofNat name) (by rw [UInt8.toNat_ofNat']; omega)
  form := .small (UInt8.ofNat form) (by rw [UInt8.toNat_ofNat']; omega)

/-- A compilation unit with a name. -/
def unitAbbreviation : Abbreviation where
  code := .small 1 (by decide)
  tag := .small 0x11 (by decide)
  hasChildren := true
  attributes := [smallAttribute 0x03 0x08]

/-- A variable with a name in the pool, a location and a type. -/
def variableAbbreviation : Abbreviation where
  code := .small 2 (by decide)
  tag := .small 0x34 (by decide)
  hasChildren := false
  attributes := [smallAttribute 0x03 0x0e, smallAttribute 0x02 0x0a, smallAttribute 0x49 0x16]

theorem noNul_61 : ∀ b ∈ ([0x61] : List UInt8), b ≠ 0 := noNul_of_all (by decide)

/-- A unit with two variables. -/
def unitTree : Tree where
  root := ⟨.small 1 (by decide), unitAbbreviation, [.string ⟨[0x61], noNul_61⟩]⟩
  children :=
    .cons ⟨.small 2 (by decide), variableAbbreviation,
      [.strp 0, .block1 [0x91, 0x08], .indirect (.small 0x13 (by decide)) (.ref4 11)]⟩ .nil
    (.cons ⟨.small 2 (by decide), variableAbbreviation,
      [.strp 4, .block1 [], .indirect (.small 0x13 (by decide)) (.ref4 11)]⟩ .nil .nil)

theorem smallAttribute_wellFormed {name form : Fin 128}
    (h : KnownForm (smallAttribute name form).form.unsigned) :
    (smallAttribute name form).WellFormed :=
  ⟨fits_small _ _, fits_small _ _, h⟩

instance (form : Int) : Decidable (KnownForm form) := inferInstanceAs (Decidable (_ ∧ _))

theorem unit_wellFormed : WellFormedSet [unitAbbreviation, variableAbbreviation] where
  abbreviations := by
    intro a ha
    rcases List.mem_pair.mp ha with rfl | rfl
    · refine ⟨fits_small _ _, by decide, fits_small _ _, ?_⟩
      intro attr hattr
      rw [List.mem_singleton.mp hattr]
      exact smallAttribute_wellFormed (by decide)
    · refine ⟨fits_small _ _, by decide, fits_small _ _, ?_⟩
      intro attr hattr
      simp only [variableAbbreviation, List.mem_cons, List.not_mem_nil, or_false] at hattr
      rcases hattr with rfl | rfl | rfl <;> exact smallAttribute_wellFormed (by decide)
  codes := by unfold DistinctCodes; decide
  names := by unfold DistinctNames; decide

theorem tree_rebuilt_unit : Rebuilt [unitAbbreviation, variableAbbreviation] unitTree := by
  have hvariable : ∀ v l, Value.WellFormed (.block1 l) →
      Entry.WellFormed [unitAbbreviation, variableAbbreviation]
      ⟨.small 2 (by decide), variableAbbreviation,
        [.strp v, .block1 l, .indirect (.small 0x13 (by decide)) (.ref4 11)]⟩ := by
    intro v l hl
    refine ⟨by simp, fits_small _ _, rfl, ?_⟩
    exact .cons ⟨rfl, trivial⟩ (.cons ⟨rfl, hl⟩
      (.cons ⟨rfl, fits_small _ _, rfl, trivial⟩ .nil))
  exact tree_rebuilt unit_wellFormed
    ⟨⟨by simp [unitTree], fits_small _ _, rfl, .cons ⟨rfl, trivial⟩ .nil⟩, nofun,
      ⟨hvariable _ _ (by show _ < _; decide), fun _ => rfl, trivial,
        hvariable _ _ (by show _ < _; decide), fun _ => rfl, trivial, trivial⟩, trivial⟩

/-- An abbreviation that names an attribute twice. -/
def twiceAbbreviation : Abbreviation where
  code := .small 1 (by decide)
  tag := .small 0x34 (by decide)
  hasChildren := false
  attributes := [smallAttribute 0x03 0x0b, smallAttribute 0x03 0x0b]

/-- An abbreviation with one number. -/
def wideAbbreviation : Abbreviation where
  code := .small 1 (by decide)
  tag := .small 0x34 (by decide)
  hasChildren := false
  attributes := [smallAttribute 0x03 0x0f]

/-- The number `2 ^ 32`, in five bytes. -/
def wideNumber : Leb := ⟨[0x80, 0x80, 0x80, 0x80], 0x10, high_of_all (by decide), by decide⟩

def twiceTree : Tree := ⟨⟨.small 1 (by decide), twiceAbbreviation, [.data1 1, .data1 2]⟩, .nil⟩

def wideTree : Tree := ⟨⟨.small 1 (by decide), wideAbbreviation, [.udata wideNumber]⟩, .nil⟩

/-- What is loaded and built, if the tree is built again, shows the root. -/
theorem Rebuilt.root {t : Tree} {abbrevs : List AbbrevDeclaration} {d : Die} {n m : Nat}
    (h : Rebuilt set t) (hload : loadAbbrevSet (encodeAbbrevs set) 0 = .ok (abbrevs, n))
    (hbuild : buildTree abbrevs t.bytes 0 = .ok ([d], m)) : t.root.ShownBy t.bytes 0 d := by
  obtain ⟨abbrevs', nodes, hload', hbuild', hshown⟩ := h [] [] [] []
  rw [List.nil_append, List.append_nil] at hload' hbuild' hshown
  -- both have been computed, and so they are those that are shown
  obtain ⟨rfl, -⟩ := Prod.mk.inj (Except.ok.inj (hload.symm.trans hload'))
  obtain ⟨rfl, -⟩ := Prod.mk.inj (Except.ok.inj (hbuild.symm.trans hbuild'))
  obtain ⟨i, rest, d', hplaces, hget, hroot, -⟩ := hshown
  obtain ⟨rfl, -⟩ := List.cons.inj hplaces
  cases hget
  exact hroot

/-- **A second attribute of one name** takes the place of the first, and of a number only 32 bits
are kept. -/
theorem twice_not_rebuilt :
    (DistinctCodes [twiceAbbreviation] ∧
      (∀ attr ∈ twiceAbbreviation.attributes, KnownForm attr.form.unsigned) ∧
      ¬ Rebuilt [twiceAbbreviation] twiceTree) ∧
    DistinctCodes [wideAbbreviation] ∧
      (∀ attr ∈ wideAbbreviation.attributes, KnownForm attr.form.unsigned) ∧
      wideNumber.unsigned = 2 ^ 32 ∧
      ¬ Rebuilt [wideAbbreviation] wideTree := by
  refine ⟨⟨?_, ?_, ?_⟩, ?_, ?_, ?_, ?_⟩
  · unfold DistinctCodes; decide
  · decide
  · intro h
    have hload : loadAbbrevSet (encodeAbbrevs [twiceAbbreviation]) 0
        = .ok (loaded [twiceAbbreviation], _) := rfl
    have hbuild : buildTree (loaded [twiceAbbreviation]) twiceTree.bytes 0
        = .ok ([{ Die.create 0 with
            abbrevCode := 1
            tag := 0x34
            hasChildren := some 0
            nodeAttributes := (UnorderedMap.empty.assign 3 (.data1 1)).assign 3 (.data1 2) }], _) := rfl
    have hname := (h.root hload hbuild).attributes 3
    revert hname
    decide
  · unfold DistinctCodes; decide
  · decide
  · rfl
  · intro h
    have hload : loadAbbrevSet (encodeAbbrevs [wideAbbreviation]) 0
        = .ok (loaded [wideAbbreviation], _) := rfl
    have hbuild : buildTree (loaded [wideAbbreviation]) wideTree.bytes 0
        = .ok ([{ Die.create 0 with
            abbrevCode := 1
            tag := 0x34
            hasChildren := some 0
            nodeAttributes := UnorderedMap.empty.assign 3 (.udata 0) }], _) := rfl
    have hname := (h.root hload hbuild).attributes 3
    revert hname
    decide

end Metta.ParseDwarf
