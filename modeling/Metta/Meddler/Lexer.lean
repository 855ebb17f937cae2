/-
  Metta.Meddler.Lexer — token.h, symbol_table.cpp and lexer.h of meddler.

  What the lexer cuts the text of a file into are lexemes.  Which kind of token
  a word is says the symbol table at the time when the word is read, and the
  parser enters the types into the table as it goes on.  One token can be put
  back; it keeps its kind.

    • `Kind`, `Lexeme`, `SymbolTable` — tokens and what decides their kinds,
    • `State` — the parser and its lexer,
    • `lex`, `lexback`, `wantLex`, `expect`, `maybe`.
-/
import Metta.Machine.Attempt
import Metta.Meddler.Ast

namespace Metta.Meddler

open Metta.Machine

/-! ## §1. Tokens. -/

/-- The keywords. -/
inductive Keyword where
  | local_
  | final_
  | interface_
  | exception_
  | in_
  | inout
  | out
  | idempotent
  | raises
  | extends_
  | never
  | returns
  | type_
  | sequence
  | set_
  | range
  | record
  | choice
  | on_
  | enum
  | array
  deriving DecidableEq

/-- The tokens that are always the same. -/
inductive Sign where
  | equal
  | comma
  | reference
  | dblarrow
  | lsquare
  | rsquare
  | lbrace
  | rbrace
  | less
  | greater
  | lparen
  | rparen
  | semicolon
  | backslash
  deriving DecidableEq

/-- `token::kind`. -/
inductive Kind where
  | eof
  | error
  | dotdot
  | sign (s : Sign)
  | cardinal
  | type
  | builtinType
  | interfaceType
  | exceptionType
  | identifier
  | kw (k : Keyword)
  | autodoc
  deriving DecidableEq

/-- What the lexer cuts out of the text: a sign, a word, a number with its `token_val`, a
line of documentation, or a number that is wrong. -/
inductive Lexeme where
  | sign (s : Sign)
  | word (w : Ident)
  | cardinal (value : BitVec 32)
  | autodoc (line : String)
  | error
  deriving DecidableEq

/-- How a keyword is written. -/
def Keyword.spelling : Keyword → String
  | local_ => "local"
  | final_ => "final"
  | interface_ => "interface"
  | exception_ => "exception"
  | in_ => "in"
  | inout => "inout"
  | out => "out"
  | idempotent => "idempotent"
  | raises => "raises"
  | extends_ => "extends"
  | never => "never"
  | returns => "returns"
  | type_ => "type"
  | sequence => "sequence"
  | set_ => "set"
  | range => "range"
  | record => "record"
  | choice => "choice"
  | on_ => "on"
  | enum => "enum"
  | array => "array"

/-! ## §2. The symbol table. -/

/-- `symbol_table_t`, but for its scopes, which nothing reads. -/
abbrev SymbolTable := List (String × Kind)

namespace SymbolTable

/-- `insert`: a key that is there keeps its kind. -/
def insert (t : SymbolTable) (key : Ident) (kind : Kind) : SymbolTable :=
  if (t.lookup key.text).isSome then t else (key.text, kind) :: t

/-- `insert_checked`: the key was found or entered. -/
def insertChecked (t : SymbolTable) (key : Ident) (kind : Kind) : Bool :=
  ((t.insert key kind).lookup key.text).isSome

/-- The kind that `get_identifier` gives a word. -/
def kindOf (t : SymbolTable) (w : Ident) : Kind :=
  match t.lookup w.text with
  | none => .identifier
  | some .builtinType | some .interfaceType | some .exceptionType => .type
  | some k => k

/-- `is_builtin_type` of what `lookup` finds. -/
def isBuiltinType (t : SymbolTable) (w : Ident) : Bool := t.lookup w.text = some .builtinType

/-- `populate_symbol_table`. -/
def populated : SymbolTable :=
  [("..", .dotdot), ("local", .kw .local_), ("final", .kw .final_),
    ("interface", .kw .interface_), ("exception", .kw .exception_), ("in", .kw .in_),
    ("inout", .kw .inout), ("out", .kw .out), ("idempotent", .kw .idempotent),
    ("raises", .kw .raises), ("extends", .kw .extends_), ("never", .kw .never),
    ("returns", .kw .returns), ("type", .kw .type_), ("sequence", .kw .sequence),
    ("set", .kw .set_), ("range", .kw .range), ("record", .kw .record), ("choice", .kw .choice),
    ("on", .kw .on_), ("enum", .kw .enum), ("array", .kw .array), ("int8", .builtinType),
    ("int16", .builtinType), ("int32", .builtinType), ("int64", .builtinType),
    ("octet", .builtinType), ("card16", .builtinType), ("card32", .builtinType),
    ("card64", .builtinType), ("float", .builtinType), ("double", .builtinType),
    ("boolean", .builtinType), ("string", .builtinType), ("opaque", .builtinType)]

end SymbolTable

/-- `is_qualified_type_name`. -/
def Ident.isQualified (w : Ident) : Bool := w.text.toList.contains '.'

/-- The kind of a lexeme when it is read. -/
def Lexeme.kind (symbols : SymbolTable) : Lexeme → Kind
  | sign s => .sign s
  | word w => symbols.kindOf w
  | cardinal _ => .cardinal
  | autodoc _ => .autodoc
  | error => .error

/-- `want_lex`, when the token that was read is of the kind `got`: a keyword or a type can be
an identifier, too. -/
def Kind.wanted (wanted got : Kind) : Bool :=
  match wanted, got with
  | .identifier, .kw _ => true
  | .identifier, .type => true
  | _, _ => wanted = got

/-! ## §3. The lexer. -/

/-- `parser_t` with its `lexer_t`: the lexemes that are not read yet, the token that was read
and its kind, the kind that was put back, the symbols, the tree, the flags, the
documentation that no node has got yet, and the errors that were reported. -/
structure State where
  rest : List Lexeme
  cur : Option Lexeme
  curKind : Kind
  nextKind : Option Kind
  symbols : SymbolTable
  parseTree : Option InterfaceNode
  isLocal : Bool
  isFinal : Bool
  isIdempotent : Bool
  autodocBuffer : String
  errors : List String

namespace State

/-- `lex`. -/
def lex (s : State) : State :=
  match s.nextKind with
  | some k => { s with curKind := k, nextKind := none }
  | none =>
      match s.rest with
      | [] => { s with cur := none, curKind := .eof }
      | x :: rest => { s with rest := rest, cur := some x, curKind := x.kind s.symbols }

/-- `lexback`. -/
def lexback (s : State) : State := { s with nextKind := some s.curKind }

/-- `current_token` for a word. -/
def currentToken (s : State) : Ident :=
  match s.cur with
  | some (.word w) => w
  | _ => .empty

/-- `current_token` for a line of documentation. -/
def currentAutodoc (s : State) : String :=
  match s.cur with
  | some (.autodoc line) => line
  | _ => ""

/-- `current_value`. -/
def currentValue (s : State) : BitVec 32 :=
  match s.cur with
  | some (.cardinal value) => value
  | _ => 0

end State

/-- A function of the parser. -/
abbrev Parse := Attempt State

/-- `lex.lex()`. -/
def lex : Parse Unit := .modify State.lex

/-- `lex.lexback()`. -/
def lexback : Parse Unit := .modify State.lexback

/-- `lex.match`. -/
def matches_ (k : Kind) : Parse Bool := .read fun s => s.curKind = k

/-- `lex.want_lex`, which is `lex.expect`. -/
def wantLex (k : Kind) : Parse Bool := do
  lex
  .read fun s => k.wanted s.curKind

/-- `lex.maybe`. -/
def maybe (k : Kind) : Parse Bool := do
  if ← wantLex k then
    return true
  else
    lexback
    return false

/-- `PARSE_ERROR`, and the function returns false. -/
def parseError {α : Type} (msg : String) : Parse α := fun s =>
  (none, { s with errors := s.errors ++ [msg] })

/-- A token that has to be there, and the error when it is not. -/
def expect (k : Kind) (msg : String) : Parse Unit := do
  if ← wantLex k then
    return ()
  else
    parseError msg

/-- A token that has to be there, with no error when it is not. -/
def expectSilently (k : Kind) : Parse Unit := do
  if ← wantLex k then
    return ()
  else
    .fail

end Metta.Meddler
