/-
  Metta.Meddler.Fingerprint — what the type code of an interface is made from.

  The representation lists, for each method, the types of its parameters, the
  types of its results and its flags, all in one row of words.  It can be read
  back word by word, but where a row is cut into parameters, results and flags
  is not in it, and neither are the directions of parameters.

    • `words` — the row of a method,
    • `typecodeRepresentation_inj` — the representation is read back,
    • `agree_iff` — the same rows, cut in the same way,
    • `fingerprint_distinguishes_iff`.
-/
import Metta.Meddler.Emit
import Metta.Machine.Split

namespace Metta.Meddler

open Metta.Machine

/-! ## §1. Rows of words. -/

/-- The word "idempotent". -/
def idempotentWord : Ident := ⟨"idempotent", plain_of_all (by decide)⟩

/-- The word "never_returns". -/
def neverReturnsWord : Ident := ⟨"never_returns", plain_of_all (by decide)⟩

/-- The flags of a method as words. -/
def Method.flagWords (m : Method) : List Ident :=
  (if m.idempotent then [idempotentWord] else [])
    ++ (if m.neverReturns then [neverReturnsWord] else [])

/-- Types of parameters, types of results and flags of a method. -/
def Method.words (m : Method) : List Ident :=
  m.params.map (fun p => p.type) ++ m.returns.map (fun r => r.type) ++ m.flagWords

/-- The name of an interface, and its methods with their rows. -/
def InterfaceNode.rows (node : InterfaceNode) : Ident × List (Ident × List Ident) :=
  (node.name, node.methods.map fun m => (m.name, m.words))

/-- How the rows of an interface are cut: directions of the parameters, the number of results
and the flags. -/
def InterfaceNode.cuts (node : InterfaceNode) : List (List Direction × Nat × Bool × Bool) :=
  node.methods.map fun m =>
    (m.params.map Parameter.direction, m.returns.length, m.idempotent, m.neverReturns)

/-- The name of an interface, and its methods with types and directions of their parameters,
types of their results and flags. -/
def InterfaceNode.signatures (node : InterfaceNode) :
    Ident × List (Ident × List (Ident × Direction) × List Ident × Bool × Bool) :=
  (node.name, node.methods.map fun m =>
    (m.name, m.params.map (fun p => (p.type, p.direction)), m.returns.map (fun r => r.type),
      m.idempotent, m.neverReturns))

namespace Interface

/-- The chains have the same names and the same rows. -/
def SameRows (i j : Interface) : Prop :=
  i.levels.map InterfaceNode.rows = j.levels.map InterfaceNode.rows

/-- The rows of the chains are cut in the same way. -/
def SameCuts (i j : Interface) : Prop :=
  i.levels.map InterfaceNode.cuts = j.levels.map InterfaceNode.cuts

/-- The chains agree on names and on methods at every level. -/
def Agree (i j : Interface) : Prop :=
  i.levels.map InterfaceNode.signatures = j.levels.map InterfaceNode.signatures

end Interface

/-! ## §2. Cutting rows. -/

/-- Two lists agree on both of two views when they agree on a view that has both. -/
theorem map_eq_map_iff {α β γ δ : Type} {f : α → β} {g : α → γ} {h : α → δ}
    (hiff : ∀ x y, f x = f y ↔ g x = g y ∧ h x = h y) (l l' : List α) :
    l.map f = l'.map f ↔ l.map g = l'.map g ∧ l.map h = l'.map h := by
  induction l generalizing l' with
  | nil => cases l' <;> simp
  | cons x l ih =>
      cases l' with
      | nil => simp
      | cons y l' =>
          simp only [List.map_cons, List.cons.injEq, hiff, ih]
          tauto

/-- Rows of words that are cut at the same places are the same in all parts. -/
theorem signature_iff (m n : Method) :
    ((m.name, m.params.map (fun p => (p.type, p.direction)), m.returns.map (fun r => r.type),
        m.idempotent, m.neverReturns)
      = (n.name, n.params.map (fun p => (p.type, p.direction)), n.returns.map (fun r => r.type),
        n.idempotent, n.neverReturns)) ↔
    (m.name, m.words) = (n.name, n.words) ∧
    (m.params.map Parameter.direction, m.returns.length, m.idempotent, m.neverReturns)
      = (n.params.map Parameter.direction, n.returns.length, n.idempotent, n.neverReturns) := by
  simp only [Prod.mk.injEq]
  rw [map_eq_map_iff (g := fun p => p.type) (h := Parameter.direction)
    (fun p q => by simp only [Prod.mk.injEq])]
  constructor
  · rintro ⟨hname, ⟨htypes, hdirs⟩, hreturns, hidem, hnever⟩
    refine ⟨⟨hname, ?_⟩, hdirs, ?_, hidem, hnever⟩
    · rw [Method.words, Method.words, htypes, hreturns, Method.flagWords, Method.flagWords, hidem,
        hnever]
    · have := congrArg List.length hreturns
      simpa only [List.length_map] using this
  · rintro ⟨⟨hname, hwords⟩, hdirs, hlen, hidem, hnever⟩
    have hflags : m.flagWords = n.flagWords := by
      rw [Method.flagWords, Method.flagWords, hidem, hnever]
    have hparams := congrArg List.length hdirs
    rw [Method.words, Method.words, hflags, List.append_cancel_right_eq] at hwords
    obtain ⟨htypes, hreturns⟩ := List.append_inj hwords (by simpa using hparams)
    exact ⟨hname, ⟨htypes, hdirs⟩, hreturns, hidem, hnever⟩

theorem signatures_iff (a b : InterfaceNode) :
    a.signatures = b.signatures ↔ a.rows = b.rows ∧ a.cuts = b.cuts := by
  simp only [InterfaceNode.signatures, InterfaceNode.rows, InterfaceNode.cuts, Prod.mk.injEq]
  rw [map_eq_map_iff signature_iff]
  tauto

/-- **Chains agree when they have the same rows and cut them in the same way.** -/
theorem Interface.agree_iff (i j : Interface) : i.Agree j ↔ i.SameRows j ∧ i.SameCuts j :=
  map_eq_map_iff signatures_iff i.levels j.levels

/-! ## §3. Reading the representation back. -/

theorem plain_nil : ∀ c ∈ ([] : List Char), c ∉ separators :=
  fun _ hc => absurd hc List.not_mem_nil

/-- A row as text: a semicolon after each word. -/
def rowChars (ws : List Ident) : List Char := ws.flatMap fun w => w.text.toList ++ [';']

/-- A row that is closed by a parenthesis is read back. -/
theorem rowChars_inj {ws ws' : List Ident} {r r' : List Char}
    (h : rowChars ws ++ ')' :: r = rowChars ws' ++ ')' :: r') : ws = ws' ∧ r = r' := by
  induction ws generalizing ws' with
  | nil =>
      cases ws' with
      | nil => exact ⟨rfl, by simpa [rowChars] using h⟩
      | cons w ws' =>
          simp only [rowChars, List.flatMap_nil, List.nil_append, List.flatMap_cons,
            List.append_assoc, List.singleton_append] at h
          exact absurd (append_cons_inj plain_nil w.plain (by decide) (by decide) h).2.1 (by decide)
  | cons v ws ih =>
      cases ws' with
      | nil =>
          simp only [rowChars, List.flatMap_nil, List.nil_append, List.flatMap_cons,
            List.append_assoc, List.singleton_append] at h
          exact absurd (append_cons_inj v.plain plain_nil (by decide) (by decide) h).2.1 (by decide)
      | cons w ws' =>
          simp only [rowChars, List.flatMap_cons, List.append_assoc, List.singleton_append] at h
          obtain ⟨hw, -, hrest⟩ := append_cons_inj v.plain w.plain (by decide) (by decide) h
          obtain ⟨rfl, hr⟩ := ih hrest
          exact ⟨by rw [Ident.ext (String.toList_inj.mp hw)], hr⟩

theorem Method.toList_typecodeRepresentation (m : Method) :
    m.typecodeRepresentation.toList
      = m.name.text.toList ++ '(' :: (rowChars m.words ++ [')', ';']) := by
  have hjoin : ∀ ps : List Parameter,
      (String.join (ps.map fun p => p.type.text ++ ";")).toList
        = rowChars (ps.map fun p => p.type) := by
    intro ps
    induction ps with
    | nil => rfl
    | cons p ps ih =>
        rw [List.map_cons, String.join_cons, String.toList_append, ih]
        simp [rowChars]
  have hflags : ((if m.idempotent then "idempotent;" else "")
      ++ (if m.neverReturns then "never_returns;" else "")).toList = rowChars m.flagWords := by
    cases hi : m.idempotent <;> cases hn : m.neverReturns <;>
      simp [Method.flagWords, hi, hn, rowChars, idempotentWord, neverReturnsWord]
  rw [String.toList_append] at hflags
  simp only [typecodeRepresentation, String.toList_append, hjoin]
  rw [List.append_assoc _ _ (String.toList (if m.neverReturns = true then _ else _)), hflags]
  simp [words, rowChars]

/-- The methods of an interface as text. -/
def methodsChars (ms : List Method) : List Char :=
  ms.flatMap fun m => m.name.text.toList ++ '(' :: (rowChars m.words ++ [')', ';'])

theorem toList_join_methods (ms : List Method) :
    (String.join (ms.map Method.typecodeRepresentation)).toList = methodsChars ms := by
  rw [String.toList_join, List.flatMap_map, methodsChars]
  simp only [Method.toList_typecodeRepresentation]

/-- Methods before a closing brace are read back. -/
theorem methodsChars_inj {ms ns : List Method} {r r' : List Char}
    (h : methodsChars ms ++ '\x7d' :: r = methodsChars ns ++ '\x7d' :: r') :
    ms.map (fun m => (m.name, m.words)) = ns.map (fun m => (m.name, m.words)) ∧ r = r' := by
  induction ms generalizing ns with
  | nil =>
      cases ns with
      | nil => exact ⟨rfl, by simpa [methodsChars] using h⟩
      | cons n ns =>
          simp only [methodsChars, List.flatMap_nil, List.nil_append, List.flatMap_cons,
            List.append_assoc, List.cons_append] at h
          exact absurd (append_cons_inj plain_nil n.name.plain (by decide) (by decide) h).2.1
            (by decide)
  -- both rows begin with a name that a bracket ends, so the names are the same
  | cons m ms ih =>
      cases ns with
      | nil =>
          simp only [methodsChars, List.flatMap_nil, List.nil_append, List.flatMap_cons,
            List.append_assoc, List.cons_append] at h
          exact absurd (append_cons_inj m.name.plain plain_nil (by decide) (by decide) h).2.1
            (by decide)
      | cons n ns =>
          simp only [methodsChars, List.flatMap_cons, List.append_assoc, List.cons_append,
            List.nil_append] at h
          obtain ⟨hname, -, hrest⟩ :=
            append_cons_inj m.name.plain n.name.plain (by decide) (by decide) h
          obtain ⟨hwords, hrest⟩ := rowChars_inj hrest
          rw [List.cons.injEq] at hrest
          obtain ⟨hms, hr⟩ := ih hrest.2
          refine ⟨?_, hr⟩
          rw [List.map_cons, List.map_cons, hms, hwords, Ident.ext (String.toList_inj.mp hname)]

namespace Interface

/-- The representation as characters. -/
def chars : Interface → List Char
  | alone node => node.name.text.toList ++ '\x7b' :: (methodsChars node.methods ++ ['\x7d'])
  | extending node parent =>
      node.name.text.toList ++ '\x7b' :: (parent.chars ++ (methodsChars node.methods ++ ['\x7d']))

theorem toList_typecodeRepresentation (i : Interface) :
    i.typecodeRepresentation.toList = i.chars := by
  induction i with
  | alone node =>
      simp only [typecodeRepresentation, String.toList_append, toList_join_methods, chars]
      simp
  | extending node parent ih =>
      simp only [typecodeRepresentation, String.toList_append, toList_join_methods, chars, ih]
      simp

/-- What follows an opening brace is a parent or the methods: the first separator tells. -/
theorem chars_ne_methods (i : Interface) {ms : List Method} {r r' : List Char} :
    i.chars ++ r ≠ methodsChars ms ++ '\x7d' :: r' := by
  intro h
  obtain ⟨rest, hchars⟩ : ∃ rest, i.chars = i.node.name.text.toList ++ '\x7b' :: rest := by
    cases i with
    | alone node => exact ⟨_, rfl⟩
    | extending node parent => exact ⟨_, rfl⟩
  rw [hchars, List.append_assoc, List.cons_append] at h
  cases ms with
  | nil =>
      rw [methodsChars, List.flatMap_nil] at h
      exact absurd (append_cons_inj i.node.name.plain plain_nil (by decide) (by decide) h).2.1
        (by decide)
  | cons m ms =>
      simp only [methodsChars, List.flatMap_cons, List.append_assoc, List.cons_append] at h
      exact absurd (append_cons_inj i.node.name.plain m.name.plain (by decide) (by decide) h).2.1
        (by decide)

/-- A representation with anything after it is read back. -/
theorem chars_inj {i j : Interface} {r r' : List Char} (h : i.chars ++ r = j.chars ++ r') :
    i.SameRows j ∧ r = r' := by
  induction i generalizing j r r' with
  | alone a =>
      cases j with
      | alone b =>
          simp only [chars, List.append_assoc, List.cons_append, List.nil_append] at h
          obtain ⟨hname, -, hrest⟩ := append_cons_inj a.name.plain b.name.plain (by decide)
            (by decide) h
          obtain ⟨hms, hr⟩ := methodsChars_inj hrest
          refine ⟨?_, hr⟩
          simp only [SameRows, levels, List.map_cons, List.map_nil, InterfaceNode.rows, hms,
            Ident.ext (String.toList_inj.mp hname)]
      -- an interface with a parent has its sign where the other has its methods
      | extending b q =>
          simp only [chars, List.append_assoc, List.cons_append, List.nil_append] at h
          obtain ⟨-, -, hrest⟩ := append_cons_inj a.name.plain b.name.plain (by decide)
            (by decide) h
          exact absurd hrest.symm (chars_ne_methods q)
  | extending a p ih =>
      cases j with
      | alone b =>
          simp only [chars, List.append_assoc, List.cons_append, List.nil_append] at h
          obtain ⟨-, -, hrest⟩ := append_cons_inj a.name.plain b.name.plain (by decide)
            (by decide) h
          exact absurd hrest (chars_ne_methods p)
      | extending b q =>
          simp only [chars, List.append_assoc, List.cons_append, List.nil_append] at h
          obtain ⟨hname, -, hrest⟩ := append_cons_inj a.name.plain b.name.plain (by decide)
            (by decide) h
          obtain ⟨hparent, hrest⟩ := ih hrest
          obtain ⟨hms, hr⟩ := methodsChars_inj hrest
          refine ⟨?_, hr⟩
          simp only [SameRows] at hparent
          simp only [SameRows, levels, List.map_cons, InterfaceNode.rows, hms, hparent,
            Ident.ext (String.toList_inj.mp hname)]

/-- Rows are all that is in a representation. -/
theorem chars_eq_of_sameRows {i j : Interface} (h : i.SameRows j) : i.chars = j.chars := by
  have hmethods : ∀ {ms ns : List Method},
      ms.map (fun m => (m.name, m.words)) = ns.map (fun m => (m.name, m.words)) →
      methodsChars ms = methodsChars ns := by
    intro ms ns hrows
    have : ∀ ls : List Method, methodsChars ls = (ls.map fun m => (m.name, m.words)).flatMap
        fun e => e.1.text.toList ++ '(' :: (rowChars e.2 ++ [')', ';']) := fun ls => by
      rw [methodsChars, List.flatMap_map]
    rw [this, this, hrows]
  induction i generalizing j with
  | alone a =>
      cases j with
      | alone b =>
          simp only [SameRows, levels, List.map_cons, List.map_nil, InterfaceNode.rows,
            List.cons.injEq, and_true, Prod.mk.injEq] at h
          rw [chars, chars, h.1, hmethods h.2]
      | extending b q => cases q <;> simp [SameRows, levels] at h
  | extending a p ih =>
      cases j with
      | alone b => cases p <;> simp [SameRows, levels] at h
      | extending b q =>
          simp only [SameRows, levels, List.map_cons, InterfaceNode.rows, List.cons.injEq,
            Prod.mk.injEq] at h
          rw [chars, chars, h.1.1, hmethods h.1.2, ih h.2]

/-- **The representation has the rows, and nothing else.** -/
theorem typecodeRepresentation_inj (i j : Interface) :
    i.typecodeRepresentation = j.typecodeRepresentation ↔ i.SameRows j := by
  rw [← String.toList_inj, toList_typecodeRepresentation, toList_typecodeRepresentation]
  constructor
  · intro h
    have happend : i.chars ++ [] = j.chars ++ [] := by rw [h]
    exact (chars_inj happend).1
  · exact chars_eq_of_sameRows

/-- **Equal representations are of chains that agree exactly when** chains with the same rows
cut them in the same way. -/
theorem fingerprint_distinguishes_iff (i j : Interface) :
    (i.typecodeRepresentation = j.typecodeRepresentation → i.Agree j) ↔
    (i.SameRows j → i.SameCuts j) := by
  rw [typecodeRepresentation_inj, agree_iff]
  exact ⟨fun h hrows => (h hrows).2, fun h hrows => ⟨hrows, h hrows⟩⟩

/-- An interface "a" with a method "f" that has the given parameters and results. -/
def oneMethod (params returns : List Parameter) : Interface :=
  let a : Ident := ⟨"a", plain_of_all (by decide)⟩
  alone ⟨a, "", false, false, .empty, [], [], [],
    [⟨⟨"f", plain_of_all (by decide)⟩, "", params, returns, [], false, false, a, 0⟩]⟩

/-- A parameter of the type `card32`. -/
def card32 (direction : Direction) : Parameter :=
  ⟨⟨⟨"x", plain_of_all (by decide)⟩, ⟨"card32", plain_of_all (by decide)⟩, "", false, false, false, true⟩, direction⟩

/-- **`f(card32 x)` and `f() returns (card32 x)`** have one representation, and so have
`f(in card32 x)` and `f(out card32 x)`. -/
theorem parameter_or_result :
    (oneMethod [card32 .in_] []).typecodeRepresentation = "a\x7bf(card32;);\x7d" ∧
    (oneMethod [] [card32 .in_]).typecodeRepresentation = "a\x7bf(card32;);\x7d" ∧
    ¬ (oneMethod [card32 .in_] []).Agree (oneMethod [] [card32 .in_]) ∧
    (oneMethod [card32 .out] []).typecodeRepresentation = "a\x7bf(card32;);\x7d" ∧
    ¬ (oneMethod [card32 .in_] []).Agree (oneMethod [card32 .out] []) := by
  refine ⟨by decide +kernel, by decide +kernel, fun h => ?_, by decide +kernel, fun h => ?_⟩
  · exact absurd ((agree_iff _ _).mp h).2 (by unfold SameCuts; decide +kernel)
  · exact absurd ((agree_iff _ _).mp h).2 (by unfold SameCuts; decide +kernel)

end Interface

end Metta.Meddler
