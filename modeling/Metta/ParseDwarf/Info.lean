/-
  Metta.ParseDwarf.Info — debugging information entries: `die_t` of
  tools/parsedwarf/dwarf_info.cpp and how dwarf_parser.cpp puts them in a tree.

  The nodes are in a list here, in the order in which they are made, and a
  pointer to a node is its place in the list.  A node that ends a list of
  siblings is deleted before another one is made, and so it never gets a place.

    • `Die`, `Die.decode` — a node and what is read of it,
    • `buildTreeRecurse`, `buildTree` — the tree,
    • `findByOffset` — the search in it.
-/
import Metta.Machine.UnorderedMap
import Metta.ParseDwarf.Abbrev

namespace Metta.ParseDwarf

open Metta.Machine Decoder

/-- `attr_map`, by the names of the attributes. -/
abbrev AttrMap := UnorderedMap UInt32 FormReader

/-- `die_t`.  The constructor leaves `has_children` as it is. -/
structure Die where
  abbrevCode : UInt32
  nodeAttributes : AttrMap
  offs : Nat
  tag : UInt32
  hasChildren : Option UInt8
  parent : Option Nat
  children : List Nat

namespace Die

/-- A node that has only been made, and begins here. -/
def create (offs : Nat) : Die := ⟨0, .empty, offs, 0, none, none, []⟩

/-- `is_last`. -/
def isLast (d : Die) : Bool := d.abbrevCode == 0

/-- The loop over the attributes of the abbreviation, less the empty one. -/
def decodeAttributes : List AbbrevAttr → AttrMap → Decoder Trouble AttrMap
  | [], nodeAttributes => pure nodeAttributes
  | a :: rest, nodeAttributes => do
      let reader ← turns fun n => FormReader.decode n a.form
      match reader with
      | none => fail .null
      | some reader => decodeAttributes rest (nodeAttributes.assign a.name reader)

/-- `die_t::decode`.  Whether it has found the abbreviation is not looked at. -/
def decode (abbrevs : List AbbrevDeclaration) : Decoder Trouble Die := do
  let offs ← position
  let abbrevCode ← uleb128
  if abbrevCode = 0 then pure (create offs)
  else
    match findAbbrev abbrevs abbrevCode with
    | none => pure { create offs with abbrevCode }
    | some declaration =>
        let nodeAttributes ← decodeAttributes declaration.attributes.dropLast .empty
        pure { create offs with
          abbrevCode, nodeAttributes
          tag := declaration.tag
          hasChildren := some declaration.hasChildren }

/-- Reads `has_children`. -/
def readChildren (d : Die) : Decoder Trouble UInt8 :=
  match d.hasChildren with
  | some flag => pure flag
  | none => fail .unset

/-- `children.push_back`. -/
def pushBack (d : Die) (node : Nat) : Die := { d with children := d.children ++ [node] }

end Die

/-- A new node becomes the last child of `thisnode`. -/
def addChild (nodes : List Die) (thisnode : Nat) (child : Die) : List Die :=
  nodes.modify thisnode (fun d => d.pushBack nodes.length)
    ++ [{ child with parent := some thisnode }]

/-- `if (has_children)`: the nodes stay as they are, or more are read. -/
def descend (flag : UInt8) (nodes : List Die) (more : Decoder Trouble (List Die)) :
    Decoder Trouble (List Die) :=
  if flag = 0 then pure nodes else more

/-- `build_tree_recurse`. -/
def buildTreeRecurse (abbrevs : List AbbrevDeclaration) :
    Nat → Nat → List Die → Decoder Trouble (List Die)
  | 0, _, _ => fail .going
  | n + 1, thisnode, nodes => do
      let child ← Die.decode abbrevs
      if child.isLast then pure nodes
      else
        let flag ← child.readChildren
        let linked := addChild nodes thisnode child
        let below ← descend flag linked (buildTreeRecurse abbrevs n nodes.length linked)
        buildTreeRecurse abbrevs n thisnode below

/-- `build_tree`: the nodes, the root first; there are none for a null root. -/
def buildTree (abbrevs : List AbbrevDeclaration) : Decoder Trouble (List Die) := do
  let rootnode ← Die.decode abbrevs
  if rootnode.isLast then pure []
  else
    let flag ← rootnode.readChildren
    descend flag [rootnode] (turns fun n => buildTreeRecurse abbrevs n 0 [rootnode])

/-- The loop over the children: the first result that is not null. -/
def firstFound (search : Nat → Option (Option Nat)) : List Nat → Option (Option Nat)
  | [] => some none
  | c :: rest =>
      match search c with
      | some none => firstFound search rest
      | found => found

/-- The search from a node on. -/
def findFrom (nodes : List Die) (offset : Nat) : Nat → Nat → Option (Option Nat)
  | 0, _ => none
  | n + 1, node =>
      match nodes[node]? with
      | none => none
      | some d =>
          if d.offs = offset then some (some node)
          else firstFound (findFrom nodes offset n) d.children

/-- `find_by_offset`; none when it goes down further than there are nodes, or to no node. -/
def findByOffset (nodes : List Die) (node offset : Nat) : Option (Option Nat) :=
  findFrom nodes offset nodes.length node

end Metta.ParseDwarf
