/-
  Metta.Meddler.Syntax — interface files as syntax trees.

  A tree is written as tokens in one way.  Which words can be identifiers, types
  and known types says the symbol table, which grows with every type that is
  declared.  The trees also have what the parser lets pass beyond the grammar:
  `local`, `final` and `idempotent` more than once, a comma behind the last item
  of a list, and a choice of nothing.

    • `Module` — the trees; `Module.tokens` — how they are written,
    • `Module.Ok` — the words are of the kinds that they have to be,
    • `Module.tree` — what the tree declares, as a node of the parser,
    • `InterfaceNode.bare` — a node without documentation and classification.
-/
import Metta.Meddler.Lexer

namespace Metta.Meddler

/-! ## §1. Words. -/

/-- The word that is a keyword. -/
def Keyword.ident (k : Keyword) : Ident := ⟨k.spelling, plain_of_all (by cases k <;> decide)⟩

/-- The lexeme of a keyword. -/
def Lexeme.kw (k : Keyword) : Lexeme := .word k.ident

/-- The word `..`. -/
def Ident.dotdot : Ident := ⟨"..", plain_of_all (by decide)⟩

namespace SymbolTable

/-- The word can be an identifier. -/
def IsId (t : SymbolTable) (w : Ident) : Prop := Kind.wanted .identifier (t.kindOf w) = true

/-- The word can be a type. -/
def IsTypeId (t : SymbolTable) (w : Ident) : Prop := t.kindOf w = .type ∨ t.kindOf w = .identifier

instance (t : SymbolTable) (w : Ident) : Decidable (t.IsId w) :=
  inferInstanceAs (Decidable (_ = true))

instance (t : SymbolTable) (w : Ident) : Decidable (t.IsTypeId w) :=
  inferInstanceAs (Decidable (_ ∨ _))

end SymbolTable

/-! ## §2. Types and variables. -/

/-- `type_decl ::= typeid [reference]`. -/
structure TypeDecl where
  type : Ident
  reference : Bool

namespace TypeDecl

def tokens (t : TypeDecl) : List Lexeme :=
  .word t.type :: if t.reference then [.sign .reference] else []

def Ok (t : TypeDecl) (symbols : SymbolTable) : Prop := symbols.IsTypeId t.type

/-- The node for something of this type. -/
def node (t : TypeDecl) (name : Ident) : Alias :=
  { Alias.new with name := name, type := t.type, reference := t.reference }

end TypeDecl

/-- `var_decl ::= type_decl id`, behind its documentation. -/
structure VarDecl where
  autodoc : Option String
  decl : TypeDecl
  name : Ident

namespace VarDecl

def tokens (v : VarDecl) : List Lexeme :=
  (v.autodoc.map Lexeme.autodoc).toList ++ v.decl.tokens ++ [.word v.name]

def Ok (v : VarDecl) (symbols : SymbolTable) : Prop := v.decl.Ok symbols ∧ symbols.IsId v.name

def node (v : VarDecl) : Alias := v.decl.node v.name

/-- `var_decl ';'`. -/
def fieldTokens (v : VarDecl) : List Lexeme := v.tokens ++ [.sign .semicolon]

end VarDecl

/-- The keyword for a direction. -/
def Direction.keyword : Direction → Keyword
  | in_ => .in_
  | out => .out
  | inout => .inout

/-- `argument ::= ['in'|'out'|'inout'] var_decl`. -/
structure Argument where
  direction : Option Direction
  var : VarDecl

namespace Argument

def tokens (a : Argument) : List Lexeme :=
  (a.direction.map fun d => Lexeme.kw d.keyword).toList ++ a.var.tokens

def Ok (a : Argument) (symbols : SymbolTable) : Prop := a.var.Ok symbols

def parameter (a : Argument) (defaultDir : Direction) : Parameter :=
  { a.var.node with direction := a.direction.getD defaultDir }

end Argument

/-- `choice_decl ::= id '=>' type_decl`. -/
structure Choice where
  name : Ident
  decl : TypeDecl

namespace Choice

def tokens (c : Choice) : List Lexeme := .word c.name :: .sign .dblarrow :: c.decl.tokens

def Ok (c : Choice) (symbols : SymbolTable) : Prop := symbols.IsId c.name ∧ c.decl.Ok symbols

def node (c : Choice) : Alias := c.decl.node c.name

end Choice

/-! ## §3. Lists. -/

/-- Items with commas between them, and one behind the last item if it is `trailing`. -/
def commaTokens {α : Type} (tokens : α → List Lexeme) (trailing : Bool) : List α → List Lexeme
  | [] => []
  | [a] => tokens a ++ if trailing then [.sign .comma] else []
  | a :: b :: as => tokens a ++ .sign .comma :: commaTokens tokens trailing (b :: as)

/-- The arguments, or the results, of a method. -/
structure Arguments where
  items : List Argument
  trailing : Bool

namespace Arguments

/-- `argument_list ::= '(' [ argument (',' argument)* ] ')'`. -/
def tokens (a : Arguments) : List Lexeme :=
  .sign .lparen :: commaTokens Argument.tokens a.trailing a.items ++ [.sign .rparen]

def Ok (a : Arguments) (symbols : SymbolTable) : Prop := ∀ x ∈ a.items, x.Ok symbols

def parameters (a : Arguments) (defaultDir : Direction) : List Parameter :=
  a.items.map (·.parameter defaultDir)

end Arguments

/-- The exceptions that a method raises. -/
structure Raises where
  ids : List Ident
  trailing : Bool

namespace Raises

/-- `'raises' id_list`. -/
def tokens (x : Raises) : List Lexeme :=
  .kw .raises :: .sign .lparen :: commaTokens (fun w => [.word w]) x.trailing x.ids
    ++ [.sign .rparen]

def Ok (x : Raises) (symbols : SymbolTable) : Prop := ∀ w ∈ x.ids, symbols.IsId w

end Raises

/-- `['returns' argument_list|'never' 'returns']`. -/
inductive Returns where
  | nothing
  | never
  | values (args : Arguments)

namespace Returns

def tokens : Returns → List Lexeme
  | nothing => []
  | never => [.kw .never, .kw .returns]
  | values args => .kw .returns :: args.tokens

def Ok (symbols : SymbolTable) : Returns → Prop
  | nothing => True
  | never => True
  | values args => args.Ok symbols

def parameters : Returns → List Parameter
  | nothing => []
  | never => []
  | values args => args.parameters .out

def isNever : Returns → Bool
  | never => true
  | _ => false

end Returns

/-! ## §4. Declarations. -/

/-- A method; `idempotent` is how often the keyword is there. -/
structure MethodDecl where
  idempotent : Nat
  name : Ident
  args : Arguments
  returns : Returns
  raises : Option Raises

namespace MethodDecl

/-- `id argument_list ['returns' …] ['raises' id_list] ';'`, behind `'idempotent'`. -/
def tokens (m : MethodDecl) : List Lexeme :=
  List.replicate m.idempotent (.kw .idempotent) ++ .word m.name :: m.args.tokens
    ++ m.returns.tokens ++ (m.raises.elim [] Raises.tokens) ++ [.sign .semicolon]

/-- The name of a method is not the one of a type. -/
def Ok (m : MethodDecl) (symbols : SymbolTable) : Prop :=
  symbols.kindOf m.name = .identifier ∧ m.args.Ok symbols ∧ m.returns.Ok symbols ∧
  ∀ x, m.raises = some x → x.Ok symbols

def method (m : MethodDecl) (interface : Ident) : Method where
  name := m.name
  autodoc := ""
  params := m.args.parameters .in_
  returns := m.returns.parameters
  raisesIds := m.raises.elim [] Raises.ids
  idempotent := m.idempotent ≠ 0
  neverReturns := m.returns.isNever
  parentInterface := interface
  methodNumber := 0

end MethodDecl

/-- `exception | typealias | full_method_decl`. -/
inductive Decl where
  | exception (name : Ident) (fields : List VarDecl)
  | enum (name : Ident) (ids : List Ident)
  | set (base name : Ident)
  | range (start stop name : Ident)
  | type (decl : TypeDecl) (name : Ident)
  | sequence (decl : TypeDecl) (name : Ident)
  | array (base : Ident) (count : BitVec 32) (name : Ident)
  | record (name : Ident) (fields : List VarDecl)
  | choice (name selector : Ident) (choices : List Choice) (trailing : Bool)
  | method (m : MethodDecl)

namespace Decl

def tokens : Decl → List Lexeme
  | exception name fields =>
      .kw .exception_ :: .word name :: .sign .lbrace :: fields.flatMap VarDecl.fieldTokens
        ++ [.sign .rbrace]
  | enum name ids =>
      .kw .enum :: .word name :: .sign .lbrace :: commaTokens (fun w => [.word w]) false ids
        ++ [.sign .rbrace]
  | set base name =>
      [.kw .set_, .sign .less, .word base, .sign .greater, .word name, .sign .semicolon]
  | range start stop name =>
      [.kw .range, .word start, .word .dotdot, .word stop, .word name, .sign .semicolon]
  | type decl name => .kw .type_ :: decl.tokens ++ [.word name, .sign .semicolon]
  | sequence decl name =>
      .kw .sequence :: .sign .less :: decl.tokens
        ++ [.sign .greater, .word name, .sign .semicolon]
  | array base count name =>
      [.kw .array, .word base, .sign .lsquare, .cardinal count, .sign .rsquare, .word name,
        .sign .semicolon]
  | record name fields =>
      .kw .record :: .word name :: .sign .lbrace :: fields.flatMap VarDecl.fieldTokens
        ++ [.sign .rbrace]
  | choice name selector choices trailing =>
      .kw .choice :: .word name :: .kw .on_ :: .word selector :: .sign .lbrace ::
        commaTokens Choice.tokens trailing choices ++ [.sign .rbrace]
  | method m => m.tokens

/-- Sets and arrays are of known types. -/
def Ok (symbols : SymbolTable) : Decl → Prop
  | exception name fields => symbols.IsId name ∧ ∀ v ∈ fields, v.Ok symbols
  | enum name ids => symbols.IsId name ∧ ids ≠ [] ∧ ∀ w ∈ ids, symbols.IsId w
  | set base name => symbols.kindOf base = .type ∧ symbols.IsId name
  | range start stop name => symbols.IsId start ∧ symbols.IsId stop ∧ symbols.IsId name
  | type decl name => decl.Ok symbols ∧ symbols.IsId name
  | sequence decl name => decl.Ok symbols ∧ symbols.IsId name
  | array base _ name => symbols.kindOf base = .type ∧ symbols.IsId name
  | record name fields => symbols.IsId name ∧ ∀ v ∈ fields, v.Ok symbols
  | choice name selector choices _ =>
      symbols.IsId name ∧ symbols.IsId selector ∧ ∀ c ∈ choices, c.Ok symbols
  | method m => m.Ok symbols

/-- The symbols behind the declaration. -/
def symbols (symbols : SymbolTable) : Decl → SymbolTable
  | exception name _ => symbols.insert name .exceptionType
  | enum name _ | set _ name | range _ _ name | type _ name | sequence _ name | array _ _ name
  | record name _ | choice name _ _ _ => symbols.insert name .type
  | method _ => symbols

/-- The node of a type. -/
def typeAlias : Decl → Option TypeAlias
  | exception _ _ => none
  | enum name ids => some (.enum { Alias.new with name := name } ids)
  | set base name => some (.set { Alias.new with name := name, type := base })
  | range start stop name => some (.range { Alias.new with name := name } start stop)
  | type decl name => some (.type (decl.node name))
  | sequence decl name => some (.sequence (decl.node name))
  | array base count name =>
      some (.array { Alias.new with name := name, type := base } count.toInt)
  | record name fields =>
      some (.record { Alias.new with name := name } (fields.map VarDecl.node))
  | choice name selector choices _ =>
      some (.choice { Alias.new with name := name } selector (choices.map Choice.node))
  | method _ => none

/-- The node of an exception. -/
def exceptionNode : Decl → Option Exception
  | exception name fields => some ⟨name, "", fields.map VarDecl.node⟩
  | _ => none

/-- The node of a method. -/
def methodNode (interface : Ident) : Decl → Option Method
  | method m => some (m.method interface)
  | _ => none

end Decl

/-! ## §5. Interfaces. -/

/-- What is in the body of an interface. -/
inductive Item where
  | autodoc (line : String)
  | decl (d : Decl)

namespace Item

def tokens : Item → List Lexeme
  | autodoc line => [.autodoc line]
  | decl d => d.tokens

/-- The declaration, if it is one. -/
def decl? : Item → Option Decl
  | autodoc _ => none
  | decl d => some d

/-- The symbols behind the item. -/
def symbols (symbols : SymbolTable) : Item → SymbolTable
  | autodoc _ => symbols
  | decl d => d.symbols symbols

def Ok (symbols : SymbolTable) : Item → Prop
  | autodoc _ => True
  | decl d => d.Ok symbols

end Item

/-- Every declaration uses the types that are declared before it. -/
def ItemsOk : SymbolTable → List Item → Prop
  | _, [] => True
  | symbols, item :: items => item.Ok symbols ∧ ItemsOk (item.symbols symbols) items

/-- `'local'` and `'final'`. -/
inductive Modifier where
  | local_
  | final_
  deriving DecidableEq

def Modifier.keyword : Modifier → Keyword
  | local_ => .local_
  | final_ => .final_

/-- `module ::= full_interface_decl`, behind its documentation. -/
structure Module where
  autodoc : List String
  modifiers : List Modifier
  name : Ident
  base : Option Ident
  items : List Item

namespace Module

def tokens (m : Module) : List Lexeme :=
  m.autodoc.map Lexeme.autodoc ++ m.modifiers.map (fun x => Lexeme.kw x.keyword)
    ++ .kw .interface_ :: .word m.name :: (m.base.elim [] fun b => [.kw .extends_, .word b])
    ++ .sign .lbrace :: m.items.flatMap Item.tokens ++ [.sign .rbrace]

/-- The symbols in the interface. -/
def symbols (m : Module) : SymbolTable := SymbolTable.populated.insert m.name .interfaceType

/-- The name of the parent is neither a keyword nor a type. -/
def Ok (m : Module) : Prop :=
  SymbolTable.populated.IsId m.name ∧ (∀ b, m.base = some b → m.symbols.kindOf b = .identifier) ∧
  ItemsOk m.symbols m.items

/-- What the module declares, each kind in the order of the source. -/
def tree (m : Module) : InterfaceNode where
  name := m.name
  autodoc := ""
  isLocal := .local_ ∈ m.modifiers
  isFinal := .final_ ∈ m.modifiers
  base := m.base.getD .empty
  importedTypes := []
  types := m.items.filterMap fun item => item.decl?.bind Decl.typeAlias
  exceptions := m.items.filterMap fun item => item.decl?.bind Decl.exceptionNode
  methods := m.items.filterMap fun item => item.decl?.bind (Decl.methodNode m.name)

end Module

/-! ## §6. Nodes without documentation and classification. -/

/-- A node with what the source says: its name, its type, and whether it is a reference. -/
def Alias.bare (a : Alias) : Alias :=
  { a with autodoc := "", interface := false, local_ := false, builtin := false }

def TypeAlias.bare : TypeAlias → TypeAlias
  | type a => type a.bare
  | sequence a => sequence a.bare
  | array a count => array a.bare count
  | set a => set a.bare
  | record a fields => record a.bare (fields.map Alias.bare)
  | choice a selector choices => choice a.bare selector (choices.map Alias.bare)
  | enum a fields => enum a.bare fields
  | range a start stop => range a.bare start stop

def Parameter.bare (p : Parameter) : Parameter := { p.toAlias.bare with direction := p.direction }

def Exception.bare (e : Exception) : Exception :=
  { e with autodoc := "", fields := e.fields.map Alias.bare }

def Method.bare (m : Method) : Method :=
  { m with autodoc := "", params := m.params.map Parameter.bare,
           returns := m.returns.map Parameter.bare }

/-- The node with what the source declares. -/
def InterfaceNode.bare (n : InterfaceNode) : InterfaceNode :=
  { n with autodoc := "", importedTypes := [], types := n.types.map TypeAlias.bare,
           exceptions := n.exceptions.map Exception.bare, methods := n.methods.map Method.bare }

end Metta.Meddler
