/-
  Metta.Meddler.Ast — ast.h of meddler, the compiler of interface files.

  Names and types are what the lexer gives out as words, so none of the
  characters that are tokens of their own, blanks or comment signs is in them.

    • `Ident` — such a word,
    • `Alias`, `TypeAlias`, `Parameter`, `Exception`, `Method` — the nodes,
    • `InterfaceNode` — an interface as it is parsed,
    • `Interface` — with the interfaces that it extends.
-/
import Mathlib.Tactic

namespace Metta.Meddler

/-- The characters that end a word: tokens, the comment sign and blanks. -/
def separators : List Char :=
  ['#', '=', ',', '&', '[', ']', '\x7b', '\x7d', '<', '>', '(', ')', ';', '\\', ' ', '\t', '\n',
    '\r']

/-- A word of the lexer. -/
structure Ident where
  text : String
  plain : ∀ c ∈ text.toList, c ∉ separators
  deriving DecidableEq

/-- Letters that are looked at one by one. -/
theorem plain_of_all {s : String} (h : (s.toList.all fun c => !separators.contains c) = true) :
    ∀ c ∈ s.toList, c ∉ separators := fun c hc => by
  simpa using List.all_eq_true.mp h c hc

@[ext] theorem Ident.ext {a b : Ident} (h : a.text = b.text) : a = b := by
  cases a
  cases b
  cases h
  rfl

/-- No word. -/
def Ident.empty : Ident := ⟨"", fun _ h => absurd h (by simp)⟩

/-- `alias_t`. -/
structure Alias where
  name : Ident
  type : Ident
  autodoc : String
  reference : Bool
  interface : Bool
  local_ : Bool
  builtin : Bool
  deriving DecidableEq

/-- `alias_t(node_t* parent)`. -/
def Alias.new : Alias := ⟨.empty, .empty, "", false, false, false, false⟩

/-- `alias_t` and the classes that are derived from it. -/
inductive TypeAlias where
  | type (a : Alias)
  | sequence (a : Alias)
  | array (a : Alias) (count : Int)
  | set (a : Alias)
  | record (a : Alias) (fields : List Alias)
  | choice (a : Alias) (selector : Ident) (choices : List Alias)
  | enum (a : Alias) (fields : List Ident)
  | range (a : Alias) (start stop : Ident)
  deriving DecidableEq

/-- What all of them have. -/
def TypeAlias.alias : TypeAlias → Alias
  | type a | sequence a | array a _ | set a | record a _ | choice a _ _ | enum a _ | range a _ _ => a

/-- `parameter_t::direction_e`. -/
inductive Direction where
  | in_
  | out
  | inout
  deriving DecidableEq

/-- `parameter_t`, for arguments and for results. -/
structure Parameter extends Alias where
  direction : Direction
  deriving DecidableEq

/-- `exception_t`. -/
structure Exception where
  name : Ident
  autodoc : String
  fields : List Alias
  deriving DecidableEq

/-- `method_t`. -/
structure Method where
  name : Ident
  autodoc : String
  params : List Parameter
  returns : List Parameter
  raisesIds : List Ident
  idempotent : Bool
  neverReturns : Bool
  parentInterface : Ident
  methodNumber : Nat
  deriving DecidableEq

/-- `interface_t`, but for the link to its parent. -/
structure InterfaceNode where
  name : Ident
  autodoc : String
  isLocal : Bool
  isFinal : Bool
  base : Ident
  importedTypes : List Alias
  types : List TypeAlias
  exceptions : List Exception
  methods : List Method
  deriving DecidableEq

/-- `interface_t` with `parent`. -/
inductive Interface where
  | alone (node : InterfaceNode)
  | extending (node : InterfaceNode) (parent : Interface)
  deriving DecidableEq

/-- The node of an interface. -/
def Interface.node : Interface → InterfaceNode
  | alone node => node
  | extending node _ => node

/-- An interface and those it extends, up to the root. -/
def Interface.levels : Interface → List InterfaceNode
  | alone node => [node]
  | extending node parent => node :: parent.levels

end Metta.Meddler
