/-
  Metta.Meddler.ReadBack — the texts of the type codes, as a C++ compiler reads
  them.

  Every constant is declared on a line of its own, and so is every entry of the
  table of types and every field of a record.  The readers below go over the
  lines, whatever put them out.

    • `readConstants`, `readTable`, `readCount`, `readRep` — the readers,
    • `readConstants_emitTypeCodes`, … — what they find in what meddler puts out,
    • `Denotes` — the value of a name that is written with its namespace.
-/
import Metta.Meddler.TypeCodes
import Metta.Machine.Split

namespace Metta.Meddler

open Metta.Machine

/-! ## §1. Readers. -/

/-- The lines of a text. -/
def lines (text : String) : List (List Char) := pieces '\n' text.toList

/-- A line without the blanks that it begins with. -/
def skipBlanks (line : List Char) : List Char := line.dropWhile (· = ' ')

/-- What is behind the words that a line begins with. -/
def after (words : String) (line : List Char) : Option (List Char) :=
  line.dropPrefix? words.toList

/-- A line that declares a constant: its name, and the value of the literal. -/
def readConstant (line : List Char) : Option (List Char × Nat) :=
  (after "const uint64_t " (skipBlanks line)).bind fun rest =>
    (after "= 0x" (split ' ' rest).2).bind fun literal =>
      if literal.dropWhile isHexDigit = "ull;".toList then
        some ((split ' ' rest).1, readHex (literal.takeWhile isHexDigit))
      else none

/-- The constants that a text declares. -/
def readConstants (text : String) : List (List Char × Nat) := (lines text).filterMap readConstant

/-- The name of the array that a text begins with. -/
def readArrayName (text : String) : Option (List Char) :=
  (lines text).head?.bind fun line =>
    (after "type_representation_t* " (skipBlanks line)).map (·.takeWhile (· ≠ '['))

/-- A line with an address: the name of what is there. -/
def readEntry (line : List Char) : Option (List Char) :=
  (after "&" (skipBlanks line)).map (·.takeWhile (· ≠ ','))

/-- A field of a record, up to its comma. -/
def readField (line : List Char) : List Char := (skipBlanks line).takeWhile (· ≠ ',')

/-- The entries of the array that the field `types` of a record has: `table` declares it, and
`fields` are the lines of `types` and `num_types`. -/
def readTable (table fields : String) : Option (List (List Char)) :=
  ((lines fields)[0]?.map readField).bind fun name =>
    if name = "nullptr".toList then some []
    else if readArrayName table = some name then some ((lines table).filterMap readEntry)
    else none

/-- The number that the field `num_types` has. -/
def readCount (fields : String) : Option Nat :=
  (lines fields)[1]?.map fun line => Nat.ofDigitChars 10 (readField line) 0

/-- The value that the field `code`, the second one of a representation, is given by name. -/
def readCode (text : String) : Option (List Char) :=
  (lines text)[2]?.bind fun line =>
    (after "\x7b types::code_type_code, \x7b " (skipBlanks line)).map (·.takeWhile (· ≠ ' '))

/-- The representation that a text defines: its name, and the name of its code. -/
def readRep (text : String) : Option (List Char × List Char) :=
  ((lines text)[0]?.bind fun line => after "type_representation_t " (skipBlanks line)).bind fun rest =>
    (readCode text).map fun code => (rest.takeWhile (· ≠ ' '), code)

/-- A name as C++ has them. -/
def IsIdentifier (name : List Char) : Prop := ∀ c ∈ name, c.isAlphanum = true ∨ c = '_'

theorem isIdentifier_of_all {name : List Char}
    (h : (name.all fun c => c.isAlphanum || c == '_') = true) : IsIdentifier name := fun c hc => by
  simpa using List.all_eq_true.mp h c hc

/-- A name with the namespace of the interface has a value: it is that of a constant that is
declared in the namespace. -/
def Denotes (node : InterfaceNode) (constants : List (List Char × Nat)) (name : List Char)
    (value : Nat) : Prop :=
  ∃ constant, name = node.name.text.toList ++ "::".toList ++ constant ∧
    (constant, value) ∈ constants

/-! ## §2. Lines. -/

/-- A text of blanks. -/
def Blank (indentPrefix : String) : Prop := ∀ c ∈ indentPrefix.toList, c = ' '

theorem lines_cons {line rest : String} (h : Lacks '\n' line) :
    lines (line ++ "\n" ++ rest) = line.toList :: lines rest := by
  unfold lines
  rw [String.toList_append, String.toList_append, List.append_assoc]
  exact pieces_append h rest.toList

theorem Blank.lacks {indentPrefix : String} (h : Blank indentPrefix) {c : Char} (hc : c ≠ ' ') :
    Lacks c indentPrefix := fun hmem => hc (h c hmem)

theorem skipBlanks_append {indentPrefix : String} (h : Blank indentPrefix) (rest : String) :
    skipBlanks (indentPrefix ++ rest).toList = skipBlanks rest.toList := by
  unfold skipBlanks
  rw [String.toList_append]
  exact List.dropWhile_append_of_pos fun c hc => by simpa using h c hc

theorem after_append (words rest : String) :
    after words (words ++ rest).toList = some rest.toList := by
  unfold after
  rw [String.toList_append]
  exact List.dropPrefix?_append_of_beq _ (BEq.refl _)

/-- Blanks go away up to the first word. -/
theorem skipBlanks_words {indentPrefix words : String} (h : Blank indentPrefix) {c : Char}
    (hwords : words.toList.head? = some c) (hc : c ≠ ' ') (rest : String) :
    skipBlanks (indentPrefix ++ (words ++ rest)).toList = (words ++ rest).toList := by
  obtain ⟨ds, hlist⟩ := List.head?_eq_some_iff.mp hwords
  rw [skipBlanks_append h]
  unfold skipBlanks
  rw [String.toList_append, hlist, List.cons_append,
    List.dropWhile_cons_of_neg (by simpa using hc)]

/-- A line that begins with the words, behind its blanks. -/
theorem after_skipBlanks {indentPrefix words : String} (h : Blank indentPrefix) {c : Char}
    (hwords : words.toList.head? = some c) (hc : c ≠ ' ') (rest : String) :
    after words (skipBlanks (indentPrefix ++ (words ++ rest)).toList) = some rest.toList := by
  rw [skipBlanks_words h hwords hc, after_append]

/-- A line that does not begin with an address. -/
theorem readEntry_none {indentPrefix words : String} (h : Blank indentPrefix) {c : Char}
    (hwords : words.toList.head? = some c) (hc : c ≠ ' ') (hamp : c ≠ '&') (rest : String) :
    readEntry (indentPrefix ++ (words ++ rest)).toList = none := by
  obtain ⟨ds, hlist⟩ := List.head?_eq_some_iff.mp hwords
  have hno : after "&" (c :: ds ++ rest.toList) = none := by
    show (if c == '&' then _ else none) = none
    rw [if_neg (by simpa using hamp)]
  unfold readEntry
  rw [skipBlanks_words h hwords hc, String.toList_append, hlist, hno, Option.map_none]

/-- A word up to a character that is not in it. -/
theorem takeWhile_word {word : String} {c : Char} (h : Lacks c word) (rest : List Char) :
    (word.toList ++ c :: rest).takeWhile (· ≠ c) = word.toList :=
  congrArg Prod.fst (split_append h rest)

theorem takeWhile_all {word : String} {c : Char} (h : Lacks c word) :
    word.toList.takeWhile (· ≠ c) = word.toList :=
  congrArg Prod.fst (split_of_not_mem h)

/-! ## §3. The constants. -/

theorem blank_indent {indentPrefix : String} (h : Blank indentPrefix) :
    Blank (indentPrefix ++ "    ") := by
  have hall : ("    ".toList.all fun c => c == ' ') = true := by decide
  intro c hc
  rw [String.toList_append] at hc
  exact (List.mem_append.mp hc).elim (h c) fun hc => beq_iff_eq.mp (List.all_eq_true.mp hall c hc)

/-- What is before the end of the line of a declaration. -/
def Constant.line (c : Constant) (indentPrefix : String) : String :=
  indentPrefix ++ "    " ++ ("const uint64_t " ++ (c.name ++ (" " ++ ("= 0x" ++
    (emitHex c.value.toNat ++ "ull;")))))

theorem Constant.emit_eq (c : Constant) (indentPrefix : String) :
    c.emit indentPrefix = c.line indentPrefix ++ "\n" := by
  have hconst : "    const uint64_t " = "    " ++ "const uint64_t " := by decide
  have hvalue : " = 0x" = " " ++ "= 0x" := by decide
  have hend : "ull;\n" = "ull;" ++ "\n" := by decide
  unfold Constant.emit Constant.line
  simp only [hconst, hvalue, hend, String.append_assoc]

/-- The digits of a literal are read up to its suffix. -/
theorem readConstant_line {c : Constant} {indentPrefix : String} (h : Blank indentPrefix)
    (hname : Lacks ' ' c.name) :
    readConstant (c.line indentPrefix).toList = some (c.name.toList, c.value.toNat) := by
  have hdigits := isHexDigit_toDigits c.value.toNat
  have hstop : ("ull;".toList.takeWhile isHexDigit = []) ∧
      "ull;".toList.dropWhile isHexDigit = "ull;".toList := by decide
  have hsplit : split ' ' (c.name ++ (" " ++ ("= 0x" ++ (emitHex c.value.toNat ++ "ull;")))).toList
      = (c.name.toList, ("= 0x" ++ (emitHex c.value.toNat ++ "ull;")).toList) := by
    rw [String.toList_append, String.toList_append]
    exact split_append hname _
  have hhex : (emitHex c.value.toNat ++ "ull;").toList
      = Nat.toDigits 16 c.value.toNat ++ "ull;".toList := by
    rw [String.toList_append, emitHex, String.toList_ofList]
  unfold readConstant Constant.line
  rw [after_skipBlanks (blank_indent h) rfl (by decide), Option.bind_some, hsplit, after_append,
    Option.bind_some, hhex, List.takeWhile_append_of_pos hdigits,
    List.dropWhile_append_of_pos hdigits, hstop.1, hstop.2, if_pos rfl, List.append_nil,
    readHex_toDigits]

/-- A declaration that is put out is read. -/
theorem readConstants_emit {c : Constant} {indentPrefix : String} (h : Blank indentPrefix)
    (hblank : Lacks ' ' c.name) (hname : Lacks '\n' c.name) (rest : String) :
    readConstants (c.emit indentPrefix ++ rest)
      = (c.name.toList, c.value.toNat) :: readConstants rest := by
  have hhex : Lacks '\n' (emitHex c.value.toNat) := by
    intro hmem
    rw [emitHex, String.toList_ofList] at hmem
    exact absurd (isHexDigit_toDigits _ _ hmem) (by decide)
  have hline : Lacks '\n' (c.line indentPrefix) :=
    ((h.lacks (by decide)).append (lacks_of_all rfl)).append
      ((lacks_of_all rfl).append (hname.append ((lacks_of_all rfl).append
        ((lacks_of_all rfl).append (hhex.append (lacks_of_all rfl))))))
  unfold readConstants
  rw [c.emit_eq, lines_cons hline, List.filterMap_cons_some (readConstant_line h hblank)]

theorem readConstants_join {indentPrefix : String} (h : Blank indentPrefix) (cs : List Constant)
    (hcs : ∀ c ∈ cs, Lacks ' ' c.name ∧ Lacks '\n' c.name) :
    readConstants (String.join (cs.map (Constant.emit indentPrefix)))
      = cs.map fun c => (c.name.toList, c.value.toNat) := by
  induction cs with
  | nil => rw [List.map_nil, String.join_nil]; rfl
  | cons c cs ih =>
      obtain ⟨hblank, hname⟩ := hcs c List.mem_cons_self
      rw [List.map_cons, String.join_cons, readConstants_emit h hblank hname,
        ih fun d hd => hcs d (List.mem_cons_of_mem _ hd)]
      rfl

/-- **What a compiler finds declared** are the type codes. -/
theorem readConstants_emitTypeCodes {indentPrefix : String} (h : Blank indentPrefix)
    (node : InterfaceNode) (md5 : Digest) (hn : node.types.length ≤ 0xffff) :
    readConstants (emitTypeCodes node md5 indentPrefix)
      = (typeCodes node md5).map fun c => (c.name.toList, c.value.toNat) := by
  rw [emitTypeCodes_eq node md5 indentPrefix hn]
  refine readConstants_join h _ fun c hc => ?_
  rcases List.mem_cons.mp hc with rfl | hc
  · have hcode : Lacks ' ' "type_code" ∧ Lacks '\n' "type_code" :=
      ⟨lacks_of_all rfl, lacks_of_all rfl⟩
    exact hcode
  · obtain ⟨i, hi, rfl⟩ := List.mem_mapIdx.mp hc
    exact ⟨(Ident.lacks _ (by decide)).append (lacks_of_all rfl),
      (Ident.lacks _ (by decide)).append (lacks_of_all rfl)⟩

/-! ## §4. The table of types. -/

/-- The name of the representation of a type. -/
def TypeAlias.repName (t : TypeAlias) : String := t.alias.name.text ++ "_type_rep"

theorem TypeAlias.lacks_repName (t : TypeAlias) {c : Char} (hc : c ∈ separators) :
    Lacks c t.repName := (t.alias.name.lacks hc).append (lacks_of_plain rfl hc)

/-- An entry, with a comma behind it or without. -/
theorem readEntry_append {indentPrefix : String} (h : Blank indentPrefix) (t : TypeAlias)
    {tail : String} (htail : tail = "" ∨ tail = ",") :
    readEntry (indentPrefix ++ "    " ++ ("&" ++ (t.repName ++ tail))).toList
      = some t.repName.toList := by
  have hcomma : Lacks ',' t.repName := t.lacks_repName (by decide)
  unfold readEntry
  rw [after_skipBlanks (blank_indent h) rfl (by decide), Option.map_some]
  rcases htail with rfl | rfl
  · rw [String.append_empty, takeWhile_all hcomma]
  · rw [String.toList_append]
    exact congrArg some (takeWhile_word hcomma [])

/-- The entries up to the end of the array. -/
theorem readEntries {indentPrefix : String} (h : Blank indentPrefix) (rest : String)
    (ts : List TypeAlias) (hts : ts ≠ []) :
    (lines (String.intercalate ",\n"
        (ts.map fun t => indentPrefix ++ "    " ++ ("&" ++ t.repName)) ++ "\n" ++ rest)).filterMap
        readEntry
      = ts.map (fun t => t.repName.toList) ++ (lines rest).filterMap readEntry := by
  have hcomma : ",\n" = "," ++ "\n" := by decide
  have hlacks : ∀ (t : TypeAlias) (tail : String), Lacks '\n' tail →
      Lacks '\n' (indentPrefix ++ "    " ++ ("&" ++ (t.repName ++ tail))) := by
    intro t tail htail
    exact ((blank_indent h).lacks (by decide)).append
      ((lacks_of_all rfl).append ((t.lacks_repName (by decide)).append htail))
  induction ts with
  | nil => exact absurd rfl hts
  | cons t ts ih =>
      cases ts with
      | nil =>
          have hline := hlacks t "" (lacks_of_all rfl)
          have hentry := readEntry_append h t (.inl rfl)
          rw [String.append_empty] at hline hentry
          rw [List.map_singleton, String.intercalate_singleton, lines_cons hline,
            List.filterMap_cons_some hentry]
          rfl
      | cons u ts =>
          have hline := hlacks t "," (lacks_of_all rfl)
          have hentry := readEntry_append h t (.inr rfl)
          have hassoc : ∀ a b c : String, a ++ ("&" ++ b) ++ ",\n" ++ c ++ "\n" ++ rest
              = a ++ ("&" ++ (b ++ ",")) ++ "\n" ++ (c ++ "\n" ++ rest) := by
            intro a b c
            simp only [hcomma, String.append_assoc]
          rw [List.map_cons, String.intercalate_cons_of_ne_nil (by simp), hassoc,
            lines_cons hline, List.filterMap_cons_some hentry, ih (by simp)]
          rfl

/-- The line that declares the array. -/
def arrayLine (node : InterfaceNode) (indentPrefix : String) : String :=
  indentPrefix ++ ("type_representation_t* " ++ (node.name.text ++ ("_types" ++ "[] = \x7b")))

/-- **The array** has the name of the interface and an entry for each type, in the order of
the declarations. -/
theorem read_emitTypesTable {indentPrefix : String} (h : Blank indentPrefix)
    (node : InterfaceNode) (hne : node.types ≠ []) :
    readArrayName (emitTypesTable node indentPrefix) = some (node.name.text ++ "_types").toList ∧
    (lines (emitTypesTable node indentPrefix)).filterMap readEntry
      = node.types.map fun t => t.repName.toList := by
  have hline : Lacks '\n' (arrayLine node indentPrefix) :=
    (h.lacks (by decide)).append ((lacks_of_all rfl).append
      ((node.name.lacks (by decide)).append (lacks_of_all rfl)))
  have hclose : Lacks '\n' (indentPrefix ++ "\x7d;") :=
    (h.lacks (by decide)).append (lacks_of_all rfl)
  have htext : emitTypesTable node indentPrefix
      = arrayLine node indentPrefix ++ "\n" ++ (String.intercalate ",\n"
          (node.types.map fun t => indentPrefix ++ "    " ++ ("&" ++ t.repName)) ++ "\n"
        ++ (indentPrefix ++ "\x7d;" ++ "\n" ++ ("" ++ "\n" ++ ""))) := by
    have hopen : "_types[] = \x7b\n" = "_types" ++ "[] = \x7b" ++ "\n" := by decide
    have hend : "\x7d;\n\n" = "\x7d;" ++ "\n" ++ "\n" := by decide
    unfold emitTypesTable InterfaceNode.typesTable arrayLine TypeAlias.repName
    rw [if_neg hne, List.map_map]
    simp only [hopen, hend, String.append_assoc, String.empty_append, String.append_empty,
      Function.comp_def]
  rw [htext]
  constructor
  · unfold readArrayName
    rw [lines_cons hline, List.head?_cons, Option.bind_some, arrayLine,
      after_skipBlanks h rfl (by decide), Option.map_some, ← String.append_assoc, String.toList_append]
    exact congrArg some (takeWhile_word
      ((node.name.lacks (c := '[') (by decide)).append (lacks_of_all rfl)) _)
  · have harray : readEntry (arrayLine node indentPrefix).toList = none :=
      readEntry_none h rfl (by decide) (by decide) _
    have hbrace : readEntry (indentPrefix ++ "\x7d;").toList = none := by
      rw [show "\x7d;" = "\x7d" ++ ";" by decide]
      exact readEntry_none h rfl (by decide) (by decide) ";"
    have hend : (lines ("" ++ "\n" ++ "")).filterMap readEntry = [] := by
      rw [lines_cons (lacks_of_all rfl)]
      rfl
    rw [lines_cons hline, List.filterMap_cons_none harray, readEntries h _ _ hne,
      lines_cons hclose, List.filterMap_cons_none hbrace, hend, List.append_nil]

/-- A field that is one word. -/
theorem readField_word {indentPrefix word : String} (h : Blank indentPrefix) (hne : word ≠ "")
    (hblank : Lacks ' ' word) (hcomma : Lacks ',' word) (rest : String) :
    readField (indentPrefix ++ "    " ++ (word ++ ("," ++ rest))).toList = word.toList := by
  have hhead : ∃ c, word.toList.head? = some c ∧ c ≠ ' ' := by
    cases hlist : word.toList with
    | nil => exact absurd (String.toList_eq_nil_iff.mp hlist) hne
    | cons c cs =>
        refine ⟨c, rfl, fun hc => hblank ?_⟩
        rw [hlist, hc]
        exact List.mem_cons_self
  obtain ⟨c, hc, hne'⟩ := hhead
  unfold readField
  rw [skipBlanks_words (blank_indent h) hc hne', String.toList_append, String.toList_append]
  exact takeWhile_word hcomma _

/-- What the field `types` has. -/
def typesField (node : InterfaceNode) : String :=
  if node.types = [] then "nullptr" else node.name.text ++ "_types"

theorem read_emitTypesFields {indentPrefix : String} (h : Blank indentPrefix)
    (node : InterfaceNode) :
    (lines (emitTypesFields node indentPrefix))[0]?.map readField
      = some (typesField node).toList ∧
    readCount (emitTypesFields node indentPrefix) = some node.types.length := by
  have hname : ∀ c ∈ separators, Lacks c (typesField node) := by
    intro c hc
    unfold typesField
    split
    · exact lacks_of_plain rfl hc
    · exact (node.name.lacks hc).append (lacks_of_plain rfl hc)
  have hcount : ∀ c, c.isDigit = false → Lacks c (toString node.types.length) := by
    intro c hc hmem
    rw [Nat.toString_eq_ofList_toDigits, String.toList_ofList] at hmem
    rw [Nat.isDigit_of_mem_toDigits (by decide) (by decide) hmem] at hc
    cases hc
  have htext : emitTypesFields node indentPrefix
      = indentPrefix ++ "    " ++ (typesField node ++ ("," ++ " // Types")) ++ "\n"
        ++ (indentPrefix ++ "    " ++ (toString node.types.length ++ ("," ++ " // Number of types"))
          ++ "\n" ++ "") := by
    have htypes : ", // Types\n" = "," ++ " // Types" ++ "\n" := by decide
    have hnum : ", // Number of types\n" = "," ++ " // Number of types" ++ "\n" := by decide
    unfold emitTypesFields typesField
    simp only [htypes, hnum, String.append_assoc, String.append_empty]
  have hline : Lacks '\n' (indentPrefix ++ "    " ++ (typesField node ++ ("," ++ " // Types"))) :=
    ((blank_indent h).lacks (by decide)).append
      ((hname _ (by decide)).append (lacks_of_all rfl))
  have hline' : Lacks '\n' (indentPrefix ++ "    "
      ++ (toString node.types.length ++ ("," ++ " // Number of types"))) :=
    ((blank_indent h).lacks (by decide)).append ((hcount _ rfl).append (lacks_of_all rfl))
  have hne : typesField node ≠ "" := by
    unfold typesField
    split
    · decide
    · intro hempty
      exact absurd ((String.append_eq_empty_iff).mp hempty).2 (by decide)
  have hne' : toString node.types.length ≠ "" := Nat.repr_ne_empty
  unfold readCount
  rw [htext, lines_cons hline, lines_cons hline']
  constructor
  · show some (readField _) = _
    rw [readField_word h hne (hname _ (by decide)) (hname _ (by decide))]
  · show some (Nat.ofDigitChars 10 (readField _) 0) = _
    rw [readField_word h hne' (hcount _ rfl) (hcount _ rfl), Nat.toString_eq_ofList_toDigits,
      String.toList_ofList, Nat.ofDigitChars_toDigits (by decide) (by decide)]

/-- **The table that is read** has an entry for each type, in the order of the declarations. -/
theorem readTable_emit {indentPrefix : String} (h : Blank indentPrefix) (node : InterfaceNode) :
    readTable (emitTypesTable node indentPrefix) (emitTypesFields node indentPrefix)
      = some (node.types.map fun t => t.repName.toList) := by
  unfold readTable
  rw [(read_emitTypesFields h node).1, Option.bind_some, typesField]
  split
  next hnil => rw [if_pos rfl, hnil, List.map_nil]
  next hne =>
    -- the last letters differ
    have hnull : (node.name.text ++ "_types").toList ≠ "nullptr".toList := by
      intro heq
      have hlast := congrArg List.getLast? heq
      rw [String.toList_append, List.getLast?_append_of_ne_nil _ (by decide)] at hlast
      exact absurd hlast (by decide)
    obtain ⟨harray, hentries⟩ := read_emitTypesTable h node hne
    rw [if_neg hnull, if_pos harray, hentries]

/-! ## §5. The representations. -/

/-- The line of the field `code`. -/
theorem readCode_line {indentPrefix name : String} (h : Blank indentPrefix)
    (hblank : Lacks ' ' name) (rest : String) :
    (after "\x7b types::code_type_code, \x7b "
        (skipBlanks (indentPrefix ++ ("\x7b types::code_type_code, \x7b " ++
          (name ++ (" " ++ rest)))).toList)).map (·.takeWhile (· ≠ ' '))
      = some name.toList := by
  rw [after_skipBlanks h rfl (by decide), Option.map_some, String.toList_append, String.toList_append]
  exact congrArg some (takeWhile_word hblank _)

theorem TypeAlias.lacks_any {t : TypeAlias} {root : Ident} {any : String}
    (h : t.any root = some any) : Lacks '\n' any := by
  have hname : Lacks '\n' t.alias.name.text := t.alias.name.lacks (by decide)
  have hstate : Lacks '\n' (".ptr32value = &" ++ t.alias.name.text ++ "_state_closure") :=
    ((lacks_of_all rfl).append hname).append (lacks_of_all rfl)
  have hcode : ∀ a, Lacks '\n' (emitTypeCodePrefix root a ++ "type_code") := fun a =>
    (lacks_emitTypeCodePrefix (by decide) root a).append (lacks_of_all rfl)
  cases t with
  | type a | sequence a | set a =>
      cases h
      rw [String.append_assoc]
      exact (lacks_of_all rfl).append (hcode a)
  | record a fields | choice a selector choices | enum a fields =>
      cases h
      exact (lacks_of_all rfl).append hstate
  | array a count | range a start stop => cases h

theorem TypeAlias.lacks_fqn (t : TypeAlias) (root : Ident) {c : Char} (hc : c ∈ separators) :
    Lacks c (t.fqn root) := by
  have hdot : Lacks c "." := lacks_of_plain rfl hc
  exact lacks_replaceDots hc (((root.lacks hc).append hdot).append (t.alias.name.lacks hc))

/-- The lines of a representation, up to its code. -/
theorem TypeAlias.emitTypeRep_some {t : TypeAlias} {root : Ident} {any : String}
    (hany : t.any root = some any) (indentPrefix : String) :
    ∃ rest, t.emitTypeRep root indentPrefix
      = indentPrefix ++ ("type_representation_t " ++ (t.repName ++ (" " ++ "= \x7b"))) ++ "\n"
        ++ (indentPrefix ++ "    \x7b type_system_v1::" ++ any ++ " \x7d \x7d," ++ "\n"
        ++ (indentPrefix ++ "    " ++ ("\x7b types::code_type_code, \x7b "
          ++ (t.fqn root ++ "_type_code" ++ (" " ++ "\x7d \x7d,"))) ++ "\n" ++ rest)) := by
  have hopen : "_type_rep = \x7b\n" = "_type_rep" ++ " " ++ "= \x7b" ++ "\n" := by decide
  have hsystem : " \x7d \x7d,\n" = " \x7d \x7d," ++ "\n" := by decide
  have hcode : "    \x7b types::code_type_code, \x7b "
      = "    " ++ "\x7b types::code_type_code, \x7b " := by decide
  have hclose : "_type_code \x7d \x7d,\n" = "_type_code" ++ " " ++ "\x7d \x7d," ++ "\n" := by
    decide
  refine ⟨indentPrefix ++ "    \"" ++ t.alias.name.text ++ "\",\n"
    ++ indentPrefix ++ "    \"" ++ stringEscape t.alias.autodoc ++ "\", // autodoc\n"
    ++ indentPrefix ++ "    &" ++ root.text ++ "__intf_typeinfo,\n"
    ++ indentPrefix ++ "    sizeof(" ++ t.fqn root ++ ")\n"
    ++ indentPrefix ++ "\x7d;\n\n", ?_⟩
  unfold TypeAlias.emitTypeRep TypeAlias.repName
  simp only [hany, hopen, hsystem, hcode, hclose, String.append_assoc]

/-- An array or a range has one line only, and no field in it. -/
theorem TypeAlias.readCode_none {indentPrefix : String} (h : Blank indentPrefix) {t : TypeAlias}
    {root : Ident} (hany : t.any root = none) :
    readCode (t.emitTypeRep root indentPrefix) = none := by
  have hcode : ∀ kind, Lacks '\n' kind → readCode (indentPrefix
      ++ "#error Should emit " ++ kind ++ " alias here...." ++ t.alias.name.text ++ "\n")
      = none := by
    intro kind hkind
    have hline : Lacks '\n' (indentPrefix
        ++ "#error Should emit " ++ kind ++ " alias here...." ++ t.alias.name.text) :=
      ((((h.lacks (by decide)).append (lacks_of_all rfl)).append hkind).append
        (lacks_of_all rfl)).append (t.alias.name.lacks (by decide))
    have hlines : lines (_ ++ "\n" ++ "") = _ := lines_cons hline
    rw [String.append_empty] at hlines
    unfold readCode
    rw [hlines]
    rfl
  unfold TypeAlias.emitTypeRep
  rw [hany]
  cases t with
  | array a count => exact hcode "array" (lacks_of_all rfl)
  | range a start stop => exact hcode "range" (lacks_of_all rfl)
  | type a | sequence a | set a => cases hany
  | record a fields | choice a selector choices | enum a fields => cases hany

/-- What is read of a representation. -/
theorem readRep_eq {indentPrefix : String} (h : Blank indentPrefix) {t : TypeAlias} {root : Ident}
    {any : String} (hany : t.any root = some any) :
    readRep (t.emitTypeRep root indentPrefix)
      = some (t.repName.toList, (t.fqn root ++ "_type_code").toList) := by
  obtain ⟨rest, htext⟩ := TypeAlias.emitTypeRep_some hany indentPrefix
  have hrep : Lacks '\n' (indentPrefix ++ ("type_representation_t "
      ++ (t.repName ++ (" " ++ "= \x7b")))) :=
    (h.lacks (by decide)).append ((lacks_of_all rfl).append
      ((t.lacks_repName (by decide)).append (lacks_of_all rfl)))
  have hfield : Lacks '\n' (indentPrefix ++ "    \x7b type_system_v1::" ++ any
      ++ " \x7d \x7d,") :=
    (((h.lacks (by decide)).append (lacks_of_all rfl)).append (TypeAlias.lacks_any hany)).append
      (lacks_of_all rfl)
  have hcode : Lacks '\n' (indentPrefix ++ "    " ++ ("\x7b types::code_type_code, \x7b "
      ++ (t.fqn root ++ "_type_code" ++ (" " ++ "\x7d \x7d,")))) :=
    ((blank_indent h).lacks (by decide)).append ((lacks_of_all rfl).append
      (((t.lacks_fqn root (by decide)).append (lacks_of_all rfl)).append (lacks_of_all rfl)))
  have hblank : Lacks ' ' (t.fqn root ++ "_type_code") :=
    (t.lacks_fqn root (by decide)).append (lacks_of_all rfl)
  have hafter : ∀ rest : String, after "type_representation_t "
      (skipBlanks (indentPrefix ++ ("type_representation_t " ++ rest)).toList)
        = some rest.toList := after_skipBlanks h rfl (by decide)
  have hword := takeWhile_word (t.lacks_repName (c := ' ') (by decide))
  unfold readRep readCode
  rw [htext, lines_cons hrep, lines_cons hfield, lines_cons hcode]
  simp only [List.getElem?_cons_zero, List.getElem?_cons_succ, Option.bind_some, hafter,
    readCode_line (blank_indent h) hblank, Option.map_some, String.toList_append (s := t.repName)]
  exact congrArg (fun name => some (name, _)) (hword _)

/-- **The representation that is read** has the name of its type, and its code is the constant
of the type in the namespace of the interface. -/
theorem readRep_emitTypeRep {indentPrefix : String} (h : Blank indentPrefix) {t : TypeAlias}
    {root : Ident} {name code : List Char}
    (hread : readRep (t.emitTypeRep root indentPrefix) = some (name, code)) :
    name = t.repName.toList ∧ code = (t.fqn root ++ "_type_code").toList := by
  cases hany : t.any root with
  | none =>
      unfold readRep at hread
      rw [TypeAlias.readCode_none h hany] at hread
      obtain ⟨rest, -, hread⟩ := Option.bind_eq_some_iff.mp hread
      cases hread
  | some any =>
      rw [readRep_eq h hany] at hread
      cases hread
      exact ⟨rfl, rfl⟩

/-- The code of the interface is the constant of its own. -/
theorem readCode_emitRepresentation {indentPrefix : String} (h : Blank indentPrefix)
    (node : InterfaceNode) :
    readCode (emitRepresentation node indentPrefix)
      = some (node.name.text ++ "::type_code").toList := by
  have hopen : "    \x7b // representation\n" = "    \x7b // representation" ++ "\n" := by decide
  have hany : "_typeinfo_closure \x7d \x7d, // any\n"
      = "_typeinfo_closure \x7d \x7d, // any" ++ "\n" := by decide
  have hcode : "        \x7b types::code_type_code, \x7b "
      = "    " ++ "    " ++ "\x7b types::code_type_code, \x7b " := by decide
  have hclose : "::type_code \x7d \x7d, // code\n"
      = "::type_code" ++ " " ++ "\x7d \x7d, // code" ++ "\n" := by decide
  have hname : ∀ {c}, c ∈ separators → Lacks c node.name.text := fun hc => node.name.lacks hc
  have hblank := blank_indent (blank_indent h)
  have htext : ∃ rest, emitRepresentation node indentPrefix
      = indentPrefix ++ "    \x7b // representation" ++ "\n"
        ++ (indentPrefix ++ ("        \x7b type_system_v1::iref_type_code, \x7b .ptr32value = &"
          ++ (node.name.text ++ "_typeinfo_closure \x7d \x7d, // any")) ++ "\n"
        ++ (indentPrefix ++ "    " ++ "    " ++ ("\x7b types::code_type_code, \x7b "
          ++ (node.name.text ++ "::type_code" ++ (" " ++ "\x7d \x7d, // code"))) ++ "\n"
        ++ rest)) := by
    refine ⟨indentPrefix ++ "        \"" ++ node.name.text ++ "\", // name\n"
      ++ indentPrefix ++ "        \"" ++ stringEscape node.autodoc ++ "\", // autodoc\n"
      ++ indentPrefix ++ "        nullptr, // Will be patched to meta_interface\n"
      ++ indentPrefix ++ "        sizeof(" ++ node.name.text ++ "::closure_t*)\n"
      ++ indentPrefix ++ "    \x7d, // end representation\n", ?_⟩
    unfold emitRepresentation
    simp only [hopen, hany, hcode, hclose, String.append_assoc]
  obtain ⟨rest, htext⟩ := htext
  unfold readCode
  rw [htext, lines_cons ((h.lacks (by decide)).append (lacks_of_all rfl)),
    lines_cons ((h.lacks (by decide)).append ((lacks_of_all rfl).append
      ((hname (by decide)).append (lacks_of_all rfl)))),
    lines_cons ((hblank.lacks (by decide)).append ((lacks_of_all rfl).append
      (((hname (by decide)).append (lacks_of_all rfl)).append (lacks_of_all rfl))))]
  show (some _).bind _ = _
  rw [Option.bind_some]
  exact readCode_line hblank ((hname (by decide)).append (lacks_of_all rfl)) _

end Metta.Meddler
