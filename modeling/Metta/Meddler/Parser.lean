/-
  Metta.Meddler.Parser — parser.cpp of meddler.

  A parsing function that returns false is an attempt that fails; the state
  it leaves counts all the same, since `parse_field_list` and
  `parse_choice_list` may return false and their callers go on.  A `while` loop
  runs on fuel, of which there is more than there are tokens left.

  What goes to the console is left out.

    • `configureType`, `parseTypeDecl`, `parseVarDecl` — types and variables,
    • `listUntil`, `parseIdList` — the loops over lists,
    • `parseException`, `parseEnumTypeAlias`, …, `parseMethod` — declarations,
    • `parseInterfaceBody`, `parseInterface`, `parseTopLevelEntities`, `run`.
-/
import Metta.Meddler.Lexer

namespace Metta.Meddler

open Metta.Machine

/-! ## §1. Documentation. -/

/-- `isspace`. -/
def isSpace (c : Char) : Bool := [' ', '\t', '\n', '\x0b', '\x0c', '\r'].contains c

/-- `trim`. -/
def trim (s : String) : String :=
  String.ofList ((s.toList.dropWhile isSpace).reverse.dropWhile isSpace).reverse

/-- `append_autodoc`, for the text in `autodoc_buffer`. -/
def appendTo (buffer docline : String) : String :=
  let docline := trim docline
  if docline.isEmpty then buffer ++ "\n"
  else if buffer.isEmpty then docline
  else if buffer.toList.getLast? = some '\n' then buffer ++ docline
  else buffer ++ " " ++ docline

/-- `append_autodoc(lex.current_token())`. -/
def appendAutodoc : Parse Unit :=
  .modify fun s => { s with autodocBuffer := appendTo s.autodocBuffer s.currentAutodoc }

/-- `assign_autodoc`: the documentation for the node. -/
def assignAutodoc : Parse String := fun s =>
  (some s.autodocBuffer, { s with autodocBuffer := "" })

/-! ## §2. Types and variables. -/

/-- An identifier that has to be there. -/
def parseId (msg : String) : Parse Ident := do
  expect .identifier msg
  .read State.currentToken

/-- `add_imported_type`, if `imported_types_lookup` does not find the type. -/
def InterfaceNode.importType (tree : InterfaceNode) (a : Alias) : InterfaceNode :=
  if tree.importedTypes.any (·.name = a.type) then tree
  else { tree with importedTypes := tree.importedTypes ++ [{ a with name := a.type }] }

/-- `configure_type`, for the tree. -/
def InterfaceNode.configureType (tree : InterfaceNode) (symbols : SymbolTable) (a : Alias) :
    InterfaceNode × Alias :=
  if symbols.isBuiltinType a.type then (tree, { a with builtin := true })
  else if a.type.isQualified then (tree.importType a, a)
  else if tree.types.any (·.alias.name = a.type) then (tree, { a with local_ := true })
  else
    let a := { a with interface := true }
    (tree.importType a, a)

/-- `configure_type`.  There is a tree when it is called. -/
def configureType (a : Alias) : Parse Alias := fun s =>
  match s.parseTree with
  | none => (none, s)
  | some tree =>
      let (tree, a) := tree.configureType s.symbols a
      (some a, { s with parseTree := some tree })

/-- The name of a type: a known one, or an identifier. -/
def parseTypeId : Parse Ident := do
  if ← wantLex .type then
    .read State.currentToken
  else if ← matches_ .identifier then
    .read State.currentToken
  else
    parseError "field type ID expected"

/-- `parse_type_decl`. -/
def parseTypeDecl (toGet : Alias) : Parse Alias := do
  let type ← parseTypeId
  let reference ← maybe (.sign .reference)
  configureType { toGet with type := type, reference := toGet.reference || reference }

/-- `parse_var_decl`. -/
def parseVarDecl (toGet : Alias) : Parse Alias := do
  let doc ← maybe .autodoc
  let autodoc ← .read fun s => if doc then s.currentAutodoc else ""
  let toGet ← parseTypeDecl toGet
  let name ← parseId "field name expected"
  return { toGet with name := name, autodoc := autodoc }

/-! ## §3. Lists. -/

/-- The loop of `parse_argument_list`, `parse_field_list` and `parse_choice_list`: what has been
parsed, and whether the loop has come to its end.  An item that fails may have been added
before. -/
def listLoop {α : Type} (stop : Kind) (item : Parse (α × Bool)) : Nat → Parse (List α × Bool)
  | 0 => .fail
  | fuel + 1 => do
      lex
      if ← matches_ stop then
        lexback
        return ([], true)
      else
        lexback
        match ← item.attempt with
        | none => return ([], false)
        | some (a, false) => return ([a], false)
        | some (a, true) =>
            let (as, ok) ← listLoop stop item fuel
            return (a :: as, ok)

/-- The loop with enough fuel. -/
def listUntil {α : Type} (stop : Kind) (item : Parse (α × Bool)) : Parse (List α × Bool) := do
  let fuel ← .read fun s => s.rest.length + 2
  listLoop stop item fuel

/-- What comes behind an item: a comma, or the end of the list, which is put back. -/
def separator (stop : Kind) (msg : String) : Parse Unit := do
  if ← wantLex (.sign .comma) then
    return ()
  else if ← matches_ stop then
    lexback
  else
    parseError msg

/-- `parse_field`. -/
def parseField : Parse (Alias × Bool) := do
  let field ← parseVarDecl .new
  expect (.sign .semicolon) "; expected"
  return (field, true)

/-- `parse_field_list`. -/
def parseFieldList : Parse (List Alias × Bool) := listUntil (.sign .rbrace) parseField

/-- The direction of an argument. -/
def parseDirection (defaultDir : Direction) : Parse Direction := do
  if ← maybe (.kw .in_) then
    return .in_
  else if ← maybe (.kw .out) then
    return .out
  else if ← maybe (.kw .inout) then
    return .inout
  else
    return defaultDir

/-- `parse_argument`. -/
def parseArgument (defaultDir : Direction) : Parse (Parameter × Bool) := do
  let direction ← parseDirection defaultDir
  let p ← parseVarDecl .new
  separator (.sign .rparen) ", or ) expected"
  return ({ p with direction := direction }, true)

/-- `parse_argument_list`. -/
def parseArgumentList (defaultDir : Direction) : Parse (List Parameter) := do
  let (args, ok) ← listUntil (.sign .rparen) (parseArgument defaultDir)
  if ok then
    return args
  else
    .fail

/-- `parse_choice_decl`: the choice is added before the comma is looked for. -/
def parseChoiceDecl : Parse (Alias × Bool) := do
  let name ← parseId "Choice from selector enum expected."
  expect (.sign .dblarrow) "=> expected"
  let choice ← parseTypeDecl .new
  match ← (separator (.sign .rbrace) ", or \x7d expected").attempt with
  | none => return ({ choice with name := name }, false)
  | some () => return ({ choice with name := name }, true)

/-- `parse_choice_list`. -/
def parseChoiceList : Parse (List Alias × Bool) := listUntil (.sign .rbrace) parseChoiceDecl

/-- The loop of `parse_id_list`. -/
def idLoop (delim : Kind) : Nat → Parse (List Ident)
  | 0 => .fail
  | fuel + 1 => do
      lex
      if ← matches_ (.sign .rparen) then
        lexback
        return []
      else
        lexback
        let id ← parseId "type ID expected"
        if ← wantLex (.sign .comma) then
          let ids ← idLoop delim fuel
          return id :: ids
        else if ← matches_ delim then
          lexback
          return [id]
        else
          parseError ", or delimiter expected"

/-- `parse_id_list`. -/
def parseIdList (delim : Kind) : Parse (List Ident) := do
  let fuel ← .read fun s => s.rest.length + 2
  idLoop delim fuel

/-! ## §4. Declarations. -/

/-- The function returns false, if the token is not of the kind. -/
def mustMatch (k : Kind) : Parse Unit := do
  if ← matches_ k then
    return ()
  else
    .fail

/-- The same with an error. -/
def mustMatchOr (k : Kind) (msg : String) : Parse Unit := do
  if ← matches_ k then
    return ()
  else
    parseError msg

/-- `symbols.insert_checked`, and the error when it returns false. -/
def insertChecked (key : Ident) (kind : Kind) : Parse Unit := do
  let ok ← .read fun s => s.symbols.insertChecked key kind
  .modify fun s => { s with symbols := s.symbols.insert key kind }
  if ok then
    return ()
  else
    parseError "duplicate symbol"

/-- Adds to the tree. -/
def addToTree (f : InterfaceNode → InterfaceNode) : Parse Unit :=
  .modify fun s => { s with parseTree := s.parseTree.map f }

/-- `parse_tree->add_type`, and the name gets known. -/
def addType (t : TypeAlias) : Parse Unit := do
  addToTree fun tree => { tree with types := tree.types ++ [t] }
  insertChecked t.alias.name .type

/-- The caller's own error when a function has returned false. -/
def Parse.orError {α : Type} (p : Parse α) (msg : String) : Parse α := do
  match ← p.attempt with
  | none => parseError msg
  | some a => return a

/-- `parse_exception`; what `parse_field_list` returns is not used. -/
def parseException : Parse Unit := do
  mustMatch (.kw .exception_)
  let name ← parseId "exception ID expected"
  let autodoc ← assignAutodoc
  expect (.sign .lbrace) "\x7b expected"
  let (fields, _) ← parseFieldList
  expect (.sign .rbrace) "\x7d expected"
  addToTree fun tree => { tree with exceptions := tree.exceptions ++ [⟨name, autodoc, fields⟩] }
  insertChecked name .exceptionType

/-- `parse_type_alias`. -/
def parseTypeAlias : Parse Unit := do
  mustMatch (.kw .type_)
  let t ← (parseTypeDecl .new).orError "type ID expected"
  let name ← parseId "type name expected"
  expect (.sign .semicolon) "; expected"
  addType (.type { t with name := name })

/-- `parse_range_type_alias`. -/
def parseRangeTypeAlias : Parse Unit := do
  mustMatch (.kw .range)
  let start ← parseId "range start ID expected"
  expect .dotdot ".. expected"
  let stop ← parseId "range end ID expected"
  let id ← parseId "range type ID expected"
  expect (.sign .semicolon) "; expected"
  let node ← configureType { Alias.new with name := id }
  addType (.range node start stop)

/-- `parse_sequence_type_alias`. -/
def parseSequenceTypeAlias : Parse Unit := do
  mustMatch (.kw .sequence)
  expect (.sign .less) "< expected"
  let node ← (parseTypeDecl .new).orError "invalid sequence base type ID"
  expect (.sign .greater) "> expected"
  let name ← parseId "sequence type ID expected"
  expect (.sign .semicolon) "; expected"
  addType (.sequence { node with name := name })

/-- `parse_set_type_alias`. -/
def parseSetTypeAlias : Parse Unit := do
  mustMatch (.kw .set_)
  expect (.sign .less) "< expected"
  expect .type "set base type ID expected"
  let baseType ← .read State.currentToken
  expect (.sign .greater) "> expected"
  let type ← parseId "set type ID expected"
  expect (.sign .semicolon) "; expected"
  let node ← configureType { Alias.new with name := type, type := baseType }
  addType (.set node)

/-- `parse_record_type_alias`; what `parse_field_list` returns is not used. -/
def parseRecordTypeAlias : Parse Unit := do
  mustMatch (.kw .record)
  let name ← parseId "record ID expected"
  expect (.sign .lbrace) "\x7b expected"
  let (fields, _) ← parseFieldList
  expect (.sign .rbrace) "\x7d expected"
  addType (.record { Alias.new with name := name } fields)

/-- `parse_choice_type_alias`; what `parse_choice_list` returns is not used. -/
def parseChoiceTypeAlias : Parse Unit := do
  mustMatch (.kw .choice)
  let name ← parseId "choice ID expected"
  expect (.kw .on_) "'on' keyword expected in choice declaration"
  let selector ← parseId "choice selector ID expected"
  expect (.sign .lbrace) "\x7b expected"
  let (choices, _) ← parseChoiceList
  expect (.sign .rbrace) "\x7d expected"
  addType (.choice { Alias.new with name := name } selector choices)

/-- `parse_enum_type_alias`. -/
def parseEnumTypeAlias : Parse Unit := do
  mustMatch (.kw .enum)
  let name ← parseId "enum ID expected"
  expect (.sign .lbrace) "\x7b expected"
  let ids ← parseIdList (.sign .rbrace)
  expect (.sign .rbrace) "\x7d expected"
  addType (.enum { Alias.new with name := name } ids)

/-- `parse_array_type_alias`. -/
def parseArrayTypeAlias : Parse Unit := do
  mustMatch (.kw .array)
  expect .type "array base type ID expected"
  let baseType ← .read State.currentToken
  expect (.sign .lsquare) "[ expected"
  expect .cardinal "number of repetitions expected"
  let count ← .read fun s => s.currentValue.toInt
  expect (.sign .rsquare) "] expected"
  let type ← parseId "array ID expected"
  expect (.sign .semicolon) "; expected"
  let node ← configureType { Alias.new with name := type, type := baseType }
  addType (.array node count)

/-! ## §5. Methods. -/

/-- `parse_method_returns`: the results, and `never_returns`. -/
def parseMethodReturns : Parse (List Parameter × Bool) := do
  if ← matches_ (.kw .never) then
    expect (.kw .returns) "'returns' expected after 'never'"
    return ([], true)
  else
    mustMatch (.kw .returns)
    expect (.sign .lparen) "( expected"
    let returns ← parseArgumentList .out
    expect (.sign .rparen) ") expected"
    return (returns, false)

/-- `parse_method_raises`. -/
def parseMethodRaises : Parse (List Ident) := do
  mustMatch (.kw .raises)
  expect (.sign .lparen) "( expected"
  let ids ← parseIdList (.sign .rparen)
  expect (.sign .rparen) ") expected"
  return ids

/-- `lex.maybe(kw_returns) || lex.maybe(kw_never)`, and what follows. -/
def parseReturnsClause : Parse (List Parameter × Bool) := do
  if ← maybe (.kw .returns) then
    parseMethodReturns
  else if ← maybe (.kw .never) then
    parseMethodReturns
  else
    return ([], false)

/-- `lex.maybe(kw_raises)`, and what follows. -/
def parseRaisesClause : Parse (List Ident) := do
  if ← maybe (.kw .raises) then
    parseMethodRaises
  else
    return []

/-- `parse_method` from the name on. -/
def parseNamedMethod : Parse Unit := do
  mustMatch .identifier
  let name ← .read State.currentToken
  expect (.sign .lparen) "( expected"
  let idempotent ← .read State.isIdempotent
  let autodoc ← assignAutodoc
  .modify fun s => { s with isIdempotent := false }
  let params ← parseArgumentList .in_
  expect (.sign .rparen) ") expected"
  let (returns, neverReturns) ← parseReturnsClause
  let raisesIds ← parseRaisesClause
  expectSilently (.sign .semicolon)
  addToTree fun tree => { tree with methods := tree.methods ++
    [⟨name, autodoc, params, returns, raisesIds, idempotent, neverReturns, tree.name, 0⟩] }

/-- The calls of `parse_method` for `idempotent`. -/
def parseMethodLoop : Nat → Parse Unit
  | 0 => .fail
  | fuel + 1 => do
      if ← matches_ (.kw .idempotent) then
        .modify fun s => { s with isIdempotent := true }
        lex
        parseMethodLoop fuel
      else
        parseNamedMethod

/-- `parse_method`. -/
def parseMethod : Parse Unit := do
  let fuel ← .read fun s => s.rest.length + 2
  parseMethodLoop fuel

/-! ## §6. Interfaces. -/

/-- The declaration that begins with the token that was read. -/
def parseDeclaration (k : Kind) : Parse Unit :=
  match k with
  | .kw .exception_ => parseException
  | .kw .enum => parseEnumTypeAlias
  | .kw .array => parseArrayTypeAlias
  | .kw .range => parseRangeTypeAlias
  | .kw .sequence => parseSequenceTypeAlias
  | .kw .set_ => parseSetTypeAlias
  | .kw .record => parseRecordTypeAlias
  | .kw .choice => parseChoiceTypeAlias
  | .kw .type_ => parseTypeAlias
  | .kw .idempotent => parseMethod
  | .identifier => parseMethod
  | .autodoc => appendAutodoc
  | _ => parseError "Invalid token encountered."

/-- The loop of `parse_interface_body`. -/
def bodyLoop : Nat → Parse Unit
  | 0 => .fail
  | fuel + 1 => do
      lex
      let k ← .read State.curKind
      if k = .eof then
        .fail
      else if k = .sign .rbrace then
        lexback
      else
        parseDeclaration k
        bodyLoop fuel

/-- `parse_interface_body`. -/
def parseInterfaceBody : Parse Unit := do
  let fuel ← .read fun s => s.rest.length + 2
  bodyLoop fuel

/-- `'extends' id`, if it is there. -/
def parseExtends : Parse Unit := do
  if ← maybe (.kw .extends_) then
    lex
    mustMatchOr .identifier "'extends' needs interface id"
    let base ← .read State.currentToken
    addToTree fun tree => { tree with base := base }
  else
    return ()

/-- `parse_interface` from the keyword `interface` on. -/
def parseNamedInterface : Parse Unit := do
  mustMatchOr (.kw .interface_) "unexpected"
  expectSilently .identifier
  let name ← .read State.currentToken
  let autodoc ← assignAutodoc
  .modify fun s => { s with
    parseTree := some ⟨name, autodoc, s.isLocal, s.isFinal, .empty, [], [], [], []⟩ }
  insertChecked name .interfaceType
  parseExtends
  expect (.sign .lbrace) "\x7b expected"
  parseInterfaceBody
  expect (.sign .rbrace) "\x7d expected"

/-- `parse_interface`, with the calls of itself for `local` and `final`. -/
def interfaceLoop : Nat → Parse Unit
  | 0 => .fail
  | fuel + 1 => do
      if ← matches_ (.kw .local_) then
        .modify fun s => { s with isLocal := true }
        lex
        interfaceLoop fuel
      else if ← matches_ (.kw .final_) then
        .modify fun s => { s with isFinal := true }
        lex
        interfaceLoop fuel
      else
        parseNamedInterface

/-- `parse_interface`. -/
def parseInterface : Parse Unit := do
  let fuel ← .read fun s => s.rest.length + 2
  interfaceLoop fuel

/-- The loop of `parse_top_level_entities`. -/
def topLevelLoop : Nat → Parse Unit
  | 0 => .fail
  | fuel + 1 => do
      let k ← .read State.curKind
      if k = .kw .local_ ∨ k = .kw .final_ ∨ k = .kw .interface_ then
        parseInterface
      else if k = .autodoc then
        appendAutodoc
        lex
        topLevelLoop fuel
      else
        .fail

/-- `parse_top_level_entities`. -/
def parseTopLevelEntities : Parse Unit := do
  let fuel ← .read fun s => s.rest.length + 2
  .modify fun s => { s with isLocal := false, isFinal := false }
  topLevelLoop fuel

/-- `init`, for a parser that is new. -/
def State.init (tokens : List Lexeme) : State :=
  ⟨tokens, none, .eof, none, .populated, none, false, false, false, "", []⟩

/-- What a run leaves: whether it has returned true, the tree, and the errors. -/
structure Outcome where
  accepted : Bool
  parseTree : Option InterfaceNode
  errors : List String
  deriving DecidableEq

/-- `run`. -/
def run (tokens : List Lexeme) : Outcome :=
  let (r, s) := (do lex; parseTopLevelEntities : Parse Unit) (.init tokens)
  ⟨r.isSome, s.parseTree, s.errors⟩

end Metta.Meddler
