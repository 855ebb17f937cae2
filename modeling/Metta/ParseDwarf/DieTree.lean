/-
  Metta.ParseDwarf.DieTree — trees of debugging information entries, how they
  are written, and what `buildTree` makes of them.

  Where a list of siblings ends, and whether an entry has any below it, is only
  told by zero codes and by the abbreviations.

    • `Entry`, `Forest`, `Tree` — trees and their bytes,
    • `Forest.dies`, `Forest.roots` — the nodes of a forest, in the order of
      their bytes, and the places of its roots,
    • `reads_entry` — an entry is read as it is,
    • `reads_forest`, `reads_tree` — so is what is below a node, and a tree.
-/
import Metta.ParseDwarf.Info

namespace Metta.ParseDwarf

open Metta.Machine Decoder

/-! ## §1. Trees. -/

/-- An entry: its abbreviation, the code of that as it is written here, and a value for each
attribute. -/
structure Entry where
  code : Leb
  abbreviation : Abbreviation
  values : List Value

/-- Entries one behind the other, with those below the first one. -/
inductive Forest where
  | nil
  | cons (entry : Entry) (children next : Forest)

/-- An entry, and those below it. -/
structure Tree where
  root : Entry
  children : Forest

/-- The names are different. -/
def DistinctNames (a : Abbreviation) : Prop :=
  (a.attributes.map fun attr => attr.name.unsigned).Nodup

/-- A set of abbreviations that can be told apart, as can their attributes. -/
structure WellFormedSet (set : List Abbreviation) : Prop where
  abbreviations : ∀ a ∈ set, a.WellFormed
  codes : DistinctCodes set
  names : ∀ a ∈ set, DistinctNames a

namespace Entry

/-- The code and the values. -/
def bytes (e : Entry) : List UInt8 := e.code.bytes ++ e.values.flatMap Value.bytes

/-- What follows an entry when these are the bytes of the entries below it. -/
def below (e : Entry) (children : List UInt8) : List UInt8 :=
  if e.abbreviation.hasChildren then children ++ [0] else []

/-- The entry has the code of an abbreviation of the set, and the values are in its forms. -/
structure WellFormed (set : List Abbreviation) (e : Entry) : Prop where
  mem : e.abbreviation ∈ set
  code : Value.Fits e.code
  code_eq : e.code.unsigned = e.abbreviation.code.unsigned
  values : List.Forall₂ (fun attr v => attr.form.unsigned = v.form.toNat ∧ v.WellFormed)
    e.abbreviation.attributes e.values

/-- The value of an attribute. -/
def attr (e : Entry) (name : Int) : Option Value :=
  ((e.abbreviation.attributes.zip e.values).find? fun p => p.1.name.unsigned == name).map Prod.snd

end Entry

namespace Forest

/-- Every entry, then the entries below it and a zero code if its abbreviation has children. -/
def bytes : Forest → List UInt8
  | nil => []
  | cons e children next => e.bytes ++ (e.below children.bytes ++ next.bytes)

def WellFormed (set : List Abbreviation) : Forest → Prop
  | nil => True
  | cons e children next =>
      e.WellFormed set ∧ (e.abbreviation.hasChildren = false → children = nil) ∧
        children.WellFormed set ∧ next.WellFormed set

/-- The number of entries. -/
def size : Forest → Nat
  | nil => 0
  | cons _ children next => 1 + children.size + next.size

/-- The places of the roots, when the first entry is at the place `i`. -/
def roots : Forest → Nat → List Nat
  | nil, _ => []
  | cons _ children next, i => i :: next.roots (i + 1 + children.size)

end Forest

namespace Tree

/-- A tree by itself. -/
def forest (t : Tree) : Forest := .cons t.root t.children .nil

def bytes (t : Tree) : List UInt8 := t.forest.bytes

def WellFormed (set : List Abbreviation) (t : Tree) : Prop := t.forest.WellFormed set

end Tree

/-! ## §2. Their nodes. -/

/-- The readers of values that lie one behind the other, put in a map. -/
def assignAll : List (Attribute × Value) → Nat → AttrMap → AttrMap
  | [], _, nodeAttributes => nodeAttributes
  | (a, v) :: rest, o, nodeAttributes =>
      assignAll rest (o + v.bytes.length)
        (nodeAttributes.assign (UInt32.ofInt a.name.unsigned) (v.reader o))

/-- The node of an entry that lies at the offset. -/
def Entry.die (e : Entry) (o : Nat) (parent : Option Nat) (children : List Nat) : Die where
  abbrevCode := UInt32.ofInt e.code.unsigned
  nodeAttributes :=
    assignAll (e.abbreviation.attributes.zip e.values) (o + e.code.bytes.length) .empty
  offs := o
  tag := UInt32.ofInt e.abbreviation.tag.unsigned
  hasChildren := some (if e.abbreviation.hasChildren then 1 else 0)
  parent
  children

/-- The nodes of a forest that lies at the offset `o`, from the place `i` on. -/
def Forest.dies (parent : Option Nat) : Forest → Nat → Nat → List Die
  | .nil, _, _ => []
  | .cons e children next, i, o =>
      e.die o parent (children.roots (i + 1))
        :: (children.dies (some i) (i + 1) (o + e.bytes.length)
          ++ next.dies parent (i + 1 + children.size)
            (o + e.bytes.length + (e.below children.bytes).length))

@[simp] theorem Forest.length_dies (parent : Option Nat) (f : Forest) (i o : Nat) :
    (f.dies parent i o).length = f.size := by
  induction f generalizing parent i o with
  | nil => rfl
  | cons e children next ihc ihn =>
      unfold dies size
      rw [List.length_cons, List.length_append, ihc, ihn]
      omega

theorem Entry.length_bytes_pos (e : Entry) : 0 < e.bytes.length := by
  have := e.code.length_bytes
  unfold bytes
  rw [List.length_append]
  omega

/-! ## §3. Reading an entry. -/

variable {set : List Abbreviation} {o : Nat}

/-- The values of an entry, each in the form that the abbreviation has for it. -/
theorem reads_values {attrs : List Attribute} {values : List Value}
    (h : List.Forall₂ (fun attr v => attr.form.unsigned = v.form.toNat ∧ v.WellFormed) attrs values)
    (nodeAttributes : AttrMap) (o : Nat) :
    Reads (Die.decodeAttributes (attrs.map Attribute.decl) nodeAttributes) o
      (values.flatMap Value.bytes) (assignAll (attrs.zip values) o nodeAttributes) := by
  induction h generalizing nodeAttributes o with
  | nil => exact Reads.pure _ _
  | @cons a v attrs values hv _ ih =>
      obtain ⟨hform, hwell⟩ := hv
      have hreader : Reads (turns fun n => FormReader.decode n a.decl.form) o v.bytes
          (some (v.reader o)) := by
        apply Reads.turns
        intro n hn
        show Reads (FormReader.decode n (UInt32.ofInt a.form.unsigned)) o v.bytes _
        rw [ofInt_of_eq hform, UInt32.ofNat_toNat]
        exact reads_value hwell hn o
      rw [List.map_cons, List.flatMap_cons]
      unfold Die.decodeAttributes
      exact hreader.bind (ih _ _)

/-- **An entry** is read as it is. -/
theorem reads_entry {e : Entry} (hset : WellFormedSet set) (he : e.WellFormed set) (o : Nat) :
    Reads (Die.decode (loaded set)) o e.bytes (e.die o none []) := by
  have hwell := hset.abbreviations _ he.mem
  have hcode : UInt32.ofInt e.code.unsigned ≠ 0 := by
    rw [he.code_eq]
    exact ofInt_ne_zero hwell.code hwell.code_ne
  have hfind : findAbbrev (loaded set) (UInt32.ofInt e.code.unsigned)
      = some e.abbreviation.decl := by
    rw [he.code_eq]
    exact find_loaded hset.abbreviations hset.codes he.mem
  have hattrs : e.abbreviation.decl.attributes.dropLast
      = e.abbreviation.attributes.map Attribute.decl := List.dropLast_concat
  unfold Die.decode Entry.bytes
  apply Reads.bind_nil (Reads.position o)
  apply (reads_uleb128 he.code.1 o).bind
  rw [if_neg hcode, hfind]
  dsimp only
  rw [hattrs]
  exact (reads_values he.values _ _).map _

/-- A zero code is the last of its siblings. -/
theorem reads_last (abbrevs : List AbbrevDeclaration) (o : Nat) :
    Reads (Die.decode abbrevs) o [0] (.create o) := by
  unfold Die.decode
  apply Reads.bind_nil (Reads.position o)
  apply (reads_zero o).bind_last
  rw [if_pos rfl]
  exact Reads.pure _ _

theorem Entry.not_isLast {e : Entry} (hset : WellFormedSet set) (he : e.WellFormed set)
    (o : Nat) (parent : Option Nat) (children : List Nat) :
    (e.die o parent children).isLast = false := by
  have hwell := hset.abbreviations _ he.mem
  have hcode : UInt32.ofInt e.code.unsigned ≠ 0 := by
    rw [he.code_eq]
    exact ofInt_ne_zero hwell.code hwell.code_ne
  unfold Die.isLast Entry.die
  simpa using hcode

/-! ## §4. Reading what is below a node. -/

/-- A node with more children. -/
def Die.adopt (d : Die) (nodes : List Nat) : Die := { d with children := d.children ++ nodes }

theorem Die.adopt_nil (d : Die) : d.adopt [] = d := by
  unfold adopt
  rw [List.append_nil]

theorem Die.adopt_pushBack (d : Die) (node : Nat) (nodes : List Nat) :
    (d.pushBack node).adopt nodes = d.adopt (node :: nodes) := by
  unfold adopt pushBack
  rw [List.append_assoc]
  rfl

/-- A change before what is appended. -/
theorem modify_append_left {α : Type} {l : List α} {p : Nat} (hp : p < l.length) (f : α → α)
    (r : List α) : (l ++ r).modify p f = l.modify p f ++ r := by
  obtain ⟨l₁, a, l₂, rfl, rfl, hmodify⟩ := List.exists_of_modify f hp
  rw [hmodify, List.append_assoc, List.modify_eq_take_cons_drop (by simp)]
  simp

/-- A change of the first that is appended. -/
theorem modify_append_cons {α : Type} {l : List α} {i : Nat} (hi : i = l.length) (f : α → α)
    (a : α) (r : List α) : (l ++ a :: r).modify i f = l ++ f a :: r := by
  rw [hi, List.modify_eq_take_cons_drop (by simp)]
  simp

/-- What is read when the flag of the entry is looked at. -/
theorem reads_descend {e : Entry} {children : Forest}
    (hleaf : e.abbreviation.hasChildren = false → children = .nil) {nodes nodes' : List Die}
    {more : Decoder Trouble (List Die)} {o : Nat}
    (hmore : e.abbreviation.hasChildren = true → Reads more o (children.bytes ++ [0]) nodes')
    (hnone : children = .nil → nodes' = nodes) :
    Reads (descend (if e.abbreviation.hasChildren then 1 else 0) nodes more) o
      (e.below children.bytes) nodes' := by
  unfold descend Entry.below
  cases hflag : e.abbreviation.hasChildren with
  | false =>
      rw [hnone (hleaf hflag)]
      exact Reads.pure _ _
  | true => exact hmore hflag

theorem length_addChild (nodes : List Die) (p : Nat) (child : Die) :
    (addChild nodes p child).length = nodes.length + 1 := by
  unfold addChild
  simp

/-- The children of the new node itself, and nodes behind it. -/
theorem adopt_addChild (e : Entry) (nodes : List Die) (p o : Nat) (children : List Nat) :
    (addChild nodes p (e.die o none [])).modify nodes.length (fun d => d.adopt children)
      = nodes.modify p (fun d => d.pushBack nodes.length) ++ [e.die o (some p) children] :=
  modify_append_cons (by simp) _ _ _

/-- **What is below a node**: its nodes are put behind those that are there, and the roots of it
become children of the node. -/
theorem reads_forest {f : Forest} (hset : WellFormedSet set) (hf : f.WellFormed set) {n p : Nat}
    (hn : (f.bytes ++ [0]).length < n) {nodes : List Die} (hp : p < nodes.length) (o : Nat) :
    Reads (buildTreeRecurse (loaded set) n p nodes) o (f.bytes ++ [0])
      (nodes.modify p (fun d => d.adopt (f.roots nodes.length))
        ++ f.dies (some p) nodes.length o) := by
  induction f generalizing n p nodes o with
  | nil =>
      obtain ⟨n, rfl⟩ : ∃ m, n = m + 1 := ⟨n - 1, by omega⟩
      have hsame : (fun d : Die => d.adopt (Forest.nil.roots nodes.length)) = id :=
        funext fun d => d.adopt_nil
      unfold buildTreeRecurse
      apply (reads_last _ o).bind_last
      rw [if_pos (show (Die.create o).isLast = true from rfl), hsame, List.modify_id]
      show Reads _ _ _ (nodes ++ [])
      rw [List.append_nil]
      exact Reads.pure _ _
  | cons e children next ihc ihn =>
      obtain ⟨n, rfl⟩ : ∃ m, n = m + 1 := ⟨n - 1, by omega⟩
      obtain ⟨he, hleaf, hc, hnext⟩ := hf
      have hpos := e.length_bytes_pos
      have hbytes : (Forest.cons e children next).bytes ++ [0]
          = e.bytes ++ (e.below children.bytes ++ (next.bytes ++ [0])) := by
        rw [Forest.bytes, List.append_assoc, List.append_assoc]
      rw [hbytes] at hn ⊢
      rw [List.length_append, List.length_append] at hn
      -- the nodes once those below the first entry are there
      let below := nodes.modify p (fun d => d.pushBack nodes.length)
        ++ [e.die o (some p) (children.roots (nodes.length + 1))]
        ++ children.dies (some nodes.length) (nodes.length + 1) (o + e.bytes.length)
      have hcount : below.length = nodes.length + 1 + children.size := by
        simp only [below, List.length_append, List.length_modify, List.length_singleton,
          Forest.length_dies]
      have hbelow : Reads (descend (if e.abbreviation.hasChildren then 1 else 0)
          (addChild nodes p (e.die o none []))
          (buildTreeRecurse (loaded set) n nodes.length (addChild nodes p (e.die o none []))))
          (o + e.bytes.length) (e.below children.bytes) below := by
        apply reads_descend hleaf
        · intro hflag
          rw [Entry.below, if_pos hflag] at hn
          have hlen := length_addChild nodes p (e.die o none [])
          have hlt : nodes.length < (addChild nodes p (e.die o none [])).length := by
            rw [hlen]
            exact Nat.lt_succ_self _
          have hread := ihc hc (n := n) (by omega) hlt (o + e.bytes.length)
          rwa [hlen, adopt_addChild] at hread
        · intro hnil
          show nodes.modify p _ ++ [_] ++ _ = nodes.modify p _ ++ [_]
          rw [hnil]
          exact List.append_nil _
      have hrest := ihn hnext (n := n) (p := p) (by omega) (by rw [hcount]; omega)
        (o + e.bytes.length + (e.below children.bytes).length)
      rw [hcount] at hrest
      have hnodes : below.modify p (fun d => d.adopt (next.roots (nodes.length + 1 + children.size)))
            ++ next.dies (some p) (nodes.length + 1 + children.size)
              (o + e.bytes.length + (e.below children.bytes).length)
          = nodes.modify p (fun d => d.adopt ((Forest.cons e children next).roots nodes.length))
            ++ (Forest.cons e children next).dies (some p) nodes.length o := by
        have hadopt : (fun d : Die => d.adopt (next.roots (nodes.length + 1 + children.size)))
              ∘ (fun d : Die => d.pushBack nodes.length)
            = fun d : Die => d.adopt ((Forest.cons e children next).roots nodes.length) :=
          funext fun d => Die.adopt_pushBack d _ _
        show List.modify (_ ++ _ ++ _) p _ ++ _ = _
        rw [List.append_assoc (nodes.modify p _), modify_append_left (by simpa using hp),
          List.modify_modify_eq, List.append_assoc, hadopt]
        rfl
      rw [hnodes] at hrest
      unfold buildTreeRecurse
      apply (reads_entry hset he o).bind
      rw [if_neg (by rw [Entry.not_isLast hset he]; decide)]
      apply Reads.bind_nil (Reads.pure _ _)
      exact hbelow.bind hrest

/-- **A tree** is read as it is, and nothing behind it. -/
theorem reads_tree {t : Tree} (hset : WellFormedSet set) (ht : t.WellFormed set) (o : Nat) :
    Reads (buildTree (loaded set)) o t.bytes (t.forest.dies none 0 o) := by
  obtain ⟨he, hleaf, hc, -⟩ := ht
  have hbytes : t.bytes = t.root.bytes ++ t.root.below t.children.bytes := by
    show t.root.bytes ++ (t.root.below t.children.bytes ++ []) = _
    rw [List.append_nil]
  have hdies : t.forest.dies none 0 o = t.root.die o none (t.children.roots 1)
      :: t.children.dies (some 0) 1 (o + t.root.bytes.length) := by
    show _ :: (_ ++ []) = _
    rw [List.append_nil]
  rw [hbytes, hdies]
  unfold buildTree
  apply (reads_entry hset he o).bind
  rw [if_neg (by rw [Entry.not_isLast hset he]; decide)]
  apply Reads.bind_nil (Reads.pure _ _)
  apply reads_descend hleaf
  · intro _
    apply Reads.turns
    intro n hn
    have hroot : 0 < [t.root.die o none []].length := Nat.one_pos
    exact reads_forest hset hc hn hroot _
  · intro hnil
    rw [hnil]
    rfl

end Metta.ParseDwarf
