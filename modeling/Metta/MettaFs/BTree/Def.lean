/-
  Metta.MettaFs.BTree.Def — the B-tree of btree.cpp.

  Nodes are numbered as they are allocated, and a pointer to a node is its
  number.  An index out of a vector's range, an `int` beyond its range and a null
  node that is read are faults.

    • `BTreeNode`, `BTree` — the nodes, and the members of the tree,
    • `search` — the way down, with a binary search in each node,
    • `insertion`, `splitInsert` — a new element at the bottom, and the splits,
    • `travel` — the elements as they are visited.
-/
import Metta.Machine.Outcome

namespace Metta.MettaFs

/-! ## §1. Nodes and trees. -/

/-- `BTreeNode`. -/
structure BTreeNode (α : Type) where
  data : List α
  child : List (Option Nat)
  parent : Option Nat
  deriving DecidableEq

/-- `BTree`: `node` are the nodes by their numbers, `next` is the number of the next one. -/
structure BTree (α : Type) where
  order : Nat
  root : Option Nat
  searchResult : Option Nat
  node : Nat → BTreeNode α
  next : Nat

namespace BTree

/-- How a call can end without returning. -/
inductive Fault where
  | outOfRange
  | overflow
  | nullNode
  | outOfFuel
  deriving DecidableEq

variable {α β : Type}

/-- `BTree(f, n)`. -/
def new (order : Nat) : BTree α := ⟨order, none, none, fun _ => ⟨[], [], none⟩, 0⟩

/-- A node is written. -/
def setNode (s : BTree α) (id : Nat) (n : BTreeNode α) : BTree α :=
  { s with node := Function.update s.node id n }

/-- `new BTreeNode(mp)`. -/
def allocate (s : BTree α) (mp : Option Nat) : Nat × BTree α :=
  (s.next, { s.setNode s.next ⟨[], [], mp⟩ with next := s.next + 1 })

/-- `v[i]`. -/
def elemAt (v : List β) (i : Int) : Except Fault β :=
  if i < 0 then .error .outOfRange
  else
    match v[i.toNat]? with
    | some x => .ok x
    | none => .error .outOfRange

/-- `v.insert(v.begin() + i, x)`. -/
def insertAt (v : List β) (i : Nat) (x : β) : Except Fault (List β) :=
  if i ≤ v.length then .ok (v.take i ++ x :: v.drop i) else .error .outOfRange

/-- `v.erase(v.begin() + i)`. -/
def eraseAt (v : List β) (i : Nat) : Except Fault (List β) :=
  if i < v.length then .ok (v.take i ++ v.drop (i + 1)) else .error .outOfRange

/-! ## §2. `Search`. -/

section Search

variable [LinearOrder α]

/-- How the binary search in a node ends: at the element, or with the last `mid`. -/
inductive Probe where
  | found
  | missed (mid : Int)
  deriving DecidableEq

/-- `(first + last) / 2`, of two `int`s. -/
def half (first last : Int) : Except Fault Int :=
  if first + last < 2 ^ 31 then .ok ((first + last).tdiv 2) else .error .overflow

/-- The inner loop of `Search`. -/
def binarySearch (t : α) (data : List α) : Nat → Int → Int → Int → Except Fault Probe
  | 0, first, last, mid => if first ≤ last then .error .outOfFuel else .ok (.missed mid)
  | fuel + 1, first, last, mid =>
      if first ≤ last then
        (half first last).bind fun mid =>
        (elemAt data mid).bind fun d =>
        if d = t then .ok .found
        else binarySearch t data fuel (if d < t then mid + 1 else first)
          (if d > t then mid - 1 else last) mid
      else .ok (.missed mid)

/-- The search in one node: the element is there, or it is for a child. -/
def searchNode (t : α) (n : BTreeNode α) : Except Fault (Option (Option Nat)) :=
  (half 0 (n.data.length - 1)).bind fun mid =>
  (binarySearch t n.data (n.data.length + 1) 0 (n.data.length - 1) mid).bind fun
    | .found => .ok none
    | .missed mid =>
        (elemAt n.data mid).bind fun d =>
        (elemAt n.child (if d > t then mid else mid + 1)).map some

/-- The loop of `Search`. -/
def searchFrom (t : α) : Nat → BTree α → Option Nat → Except Fault (Option Nat × BTree α)
  | _, s, none => .ok (none, s)
  | 0, _, some _ => .error .outOfFuel
  | fuel + 1, s, some p =>
      let s := { s with searchResult := some p }
      (searchNode t (s.node p)).bind fun
        | none => .ok (some p, s)
        | some c => searchFrom t fuel s c

/-- `Search`: no more turns than there are nodes. -/
def search (s : BTree α) (t : α) : Except Fault (Option Nat × BTree α) :=
  searchFrom t s.next s s.root

end Search

/-! ## §3. `Split_insert`. -/

section Insertion

/-- `if (c) c->m_parent = parent`. -/
def adopt (s : BTree α) (parent : Nat) : Option Nat → BTree α
  | none => s
  | some c => s.setNode c { s.node c with parent := some parent }

/-- One element and the child behind the split point go to the new node. -/
def moveOne (sr new sp : Nat) (s : BTree α) : Except Fault (BTree α) :=
  (elemAt (s.node sr).data (sp + 1)).bind fun d =>
  (elemAt (s.node sr).child (sp + 1)).bind fun c =>
  let s := s.setNode new
    { s.node new with data := (s.node new).data ++ [d], child := (s.node new).child ++ [c] }
  let s := s.adopt new c
  (eraseAt (s.node sr).data (sp + 1)).bind fun data =>
  (eraseAt (s.node sr).child (sp + 1)).bind fun child =>
  .ok (s.setNode sr { s.node sr with data := data, child := child })

/-- The loop over the right half. -/
def moveRight (sr new sp : Nat) : Nat → BTree α → Except Fault (BTree α)
  | 0, s => .ok s
  | n + 1, s => (moveOne sr new sp s).bind (moveRight sr new sp n)

/-- The one more child goes to the new node. -/
def moveLast (sr new sp : Nat) (s : BTree α) : Except Fault (BTree α) :=
  (elemAt (s.node sr).child (sp + 1)).bind fun c =>
  let s := s.setNode new { s.node new with child := (s.node new).child ++ [c] }
  let s := s.adopt new c
  (eraseAt (s.node sr).child (sp + 1)).map fun child =>
  s.setNode sr { s.node sr with child := child }

/-- A node is split: the element that goes upward, the new node, and the tree. -/
def splitNode (sr : Nat) (s : BTree α) : Except Fault (α × Nat × BTree α) :=
  let total := (s.node sr).data.length
  let sp := total / 2
  let (new, s) := s.allocate (s.node sr).parent
  (moveRight sr new sp (total - (sp + 1)) s).bind fun s =>
  (moveLast sr new sp s).bind fun s =>
  (elemAt (s.node sr).data sp).bind fun upward =>
  (eraseAt (s.node sr).data sp).map fun data =>
  let s := s.setNode sr { s.node sr with data := data }
  (upward, new, s.setNode new { s.node new with parent := (s.node sr).parent })

/-- A new node above the root and the node that was split off it. -/
def newRoot (s : BTree α) (upward : α) (sr new : Nat) : BTree α :=
  let (new2, s) := s.allocate none
  let s := { s with root := some new2 }
  let s := s.setNode new2
    { s.node new2 with
      data := (s.node new2).data ++ [upward],
      child := (s.node new2).child ++ [some sr, some new] }
  let s := s.setNode sr { s.node sr with parent := some new2 }
  s.setNode new { s.node new with parent := some new2 }

variable [LinearOrder α]

/-- `for (i = 0; i < p->size() && (*p)[i] < t; i++);`. -/
def position (t : α) : List α → Nat
  | [] => 0
  | d :: ds => if d < t then position t ds + 1 else 0

/-- The element that goes upward, and the new node behind it, in a parent. -/
def addUpward (s : BTree α) (upward : α) (new parent : Nat) : Except Fault (BTree α) :=
  let n := s.node parent
  let i := position upward n.data
  (insertAt n.data i upward).bind fun data =>
  (insertAt n.child (i + 1) (some new)).map fun child =>
  s.setNode parent { n with data := data, child := child }

/-- The loop of `Split_insert`. -/
def splitFrom : Nat → Nat → BTree α → Except Fault (BTree α)
  | 0, sr, s => if (s.node sr).data.length < s.order then .ok s else .error .outOfFuel
  | fuel + 1, sr, s =>
      if (s.node sr).data.length < s.order then .ok s
      else
        (splitNode sr s).bind fun (upward, new, s) =>
        if s.root = some sr then .ok (s.newRoot upward sr new)
        else
          match (s.node sr).parent with
          | none => .error .nullNode
          | some parent => (s.addUpward upward new parent).bind (splitFrom fuel parent)

/-- `Split_insert`. -/
def splitInsert (s : BTree α) : Except Fault (Bool × BTree α) :=
  match s.searchResult with
  | none => .ok (false, s)
  | some sr => (splitFrom s.next sr s).map fun s => (true, s)

/-! ## §4. `Insertion`. -/

/-- The first node. -/
def firstNode (s : BTree α) (t : α) : BTree α :=
  let (root, s) := s.allocate none
  { s.setNode root ⟨[t], [none, none], none⟩ with root := some root }

/-- The new element, with a null child, in the node where the search ended. -/
def addAt (s : BTree α) (t : α) (sr : Nat) : Except Fault (BTree α) :=
  let n := s.node sr
  let i := position t n.data
  (insertAt n.data i t).bind fun data =>
  (insertAt n.child i none).map fun child =>
  s.setNode sr { n with data := data, child := child }

/-- `Insertion` when the search has not found the element. -/
def insertNew (s : BTree α) (t : α) : Except Fault (Bool × BTree α) :=
  match s.root with
  | none => .ok (true, s.firstNode t)
  | some _ =>
      match s.searchResult with
      | none => .ok (false, s)
      | some sr =>
          (s.addAt t sr).bind fun s =>
          if (s.node sr).data.length < s.order then .ok (true, s) else s.splitInsert

/-- `Insertion`. -/
def insertion (s : BTree α) (t : α) : Except Fault (Bool × BTree α) :=
  (s.search t).bind fun (found, s) => if found.isSome then .ok (false, s) else s.insertNew t

end Insertion

/-! ## §5. `travel`. -/

/-- The loop of `travel`: the children, with a visit to an element after each but the last. -/
def visits (go : Option Nat → Except Fault (List α)) :
    List (Option Nat) → List α → Except Fault (List α)
  | [], _ => .error .outOfRange
  | [c], _ => go c
  | c :: _ :: _, [] => (go c).bind fun _ => .error .outOfRange
  | c :: c' :: cs, d :: ds =>
      (go c).bind fun l => (visits go (c' :: cs) ds).map fun r => l ++ d :: r

/-- `travel`: the elements that are visited, in their order. -/
def travelFrom (s : BTree α) : Nat → Option Nat → Except Fault (List α)
  | _, none => .ok []
  | 0, some _ => .error .outOfFuel
  | fuel + 1, some p => visits (travelFrom s fuel) (s.node p).child (s.node p).data

/-- `print`. -/
def print (s : BTree α) : Except Fault (List α) := travelFrom s s.next s.root

end BTree

end Metta.MettaFs
