/-
  Metta.Meddler.Closure — meddler.cpp: an interface and the ones it extends.

  The parser on top of the stack is run; if its interface extends another one,
  the file of that one gets a parser on top of it.  When there is no such file,
  the parser on top is run again, behind its interface.  Files that are there
  already are not looked for, so interfaces that extend each other are read for
  ever.

    • `ParserStack` — the stack; `addSource`, `round`, `parse`,
    • `chosen`, `Follows` — from a file to the next one,
    • `Chain` — an interface, and the ones it extends up to the root,
    • `Closes` — what `parse` is to do, `closure_iff` — when it does it.
-/
import Metta.Machine.Chase
import Metta.Meddler.Forward
import Metta.Meddler.Grammar

namespace Metta.Meddler

open Metta.Machine

/-! ## §1. The stack of parsers. -/

/-- `parent_interface`. -/
def parentInterface (s : State) : String :=
  match s.parseTree with
  | none => "<not known yet>"
  | some tree => tree.base.text

/-- The files that can be opened. -/
abbrev Sources := List (String × List Lexeme)

/-- `parser_t`, the interface that its `parse_tree` points to, and the `parent` of that.
Interfaces are named by the run that they are from. -/
structure Parser where
  state : State
  tree : Option Nat
  parent : Option Nat

/-- A parser behind `init`. -/
def Parser.new (w : List Lexeme) : Parser := ⟨.init w, none, none⟩

/-- `Meddler`: `parser_stack`, its last parser first, and how many runs there have been. -/
structure ParserStack where
  parsers : List Parser
  runs : Nat

namespace ParserStack

/-- `add_source`. -/
def addSource (fs : Sources) (m : ParserStack) (file : String) : ParserStack × Bool :=
  match fs.lookup file with
  | none => (m, false)
  | some w => ({ m with parsers := .new w :: m.parsers }, true)

/-- `link_to_parent` of the parser below the top, if there is one. -/
def linkToParent (tree : Option Nat) : List Parser → List Parser
  | [] => []
  | p :: ps => { p with parent := tree } :: ps

/-- The stack when the parser on top has been run and linked; a new interface has no parent. -/
def afterRun (m : ParserStack) (s : State) (below : List Parser) : ParserStack :=
  ⟨⟨s, some m.runs, none⟩ :: linkToParent (some m.runs) below, m.runs + 1⟩

/-- The body of the loop of `parse`; what `add_source` returns is not used. -/
def round (fs : Sources) (m : ParserStack) : Bool × ParserStack :=
  match m.parsers with
  | [] => (false, m)
  | top :: below =>
      let (res, s) := parserRun top.state
      let m := m.afterRun s below
      if res && parentInterface s != "" then
        (res, (m.addSource fs (parentInterface s ++ ".if")).1)
      else (res, m)

/-- `parent_interface` of the parser on top. -/
def topParent (m : ParserStack) : String :=
  match m.parsers with
  | [] => ""
  | top :: _ => parentInterface top.state

/-- `parse`. -/
def parse (fs : Sources) : Nat → ParserStack → Option (Bool × ParserStack)
  | 0, _ => none
  | fuel + 1, m =>
      let (res, m') := m.round fs
      if res && m'.topParent != "" then parse fs fuel m' else some (res, m')

/-- The stack that `main` begins with. -/
def start (w : List Lexeme) : ParserStack := ⟨[.new w], 0⟩

/-! ## §2. The loop. -/

/-- One turn of the loop: its result, or the stack for the next one. -/
def turn (fs : Sources) (m : ParserStack) : (Bool × ParserStack) ⊕ ParserStack :=
  let (res, m') := m.round fs
  if res && m'.topParent != "" then .inr m' else .inl (res, m')

theorem parse_eq_run (fs : Sources) (fuel : Nat) (m : ParserStack) :
    parse fs fuel m = Chase.run (turn fs) fuel m := by
  induction fuel generalizing m with
  | zero => rfl
  | succ fuel ih =>
      unfold parse Chase.run turn
      obtain ⟨res, m'⟩ := m.round fs
      simp only
      cases res && m'.topParent != "" with
      | true => exact ih m'
      | false => rfl

section Turns

variable {fs : Sources} {m : ParserStack} {top : Parser} {below : List Parser} {s : State}

theorem turn_failed (hm : m.parsers = top :: below) (hrun : parserRun top.state = (false, s)) :
    turn fs m = .inl (false, m.afterRun s below) := by
  unfold turn round
  rw [hm]
  simp only [hrun]
  rfl

theorem turn_root (hm : m.parsers = top :: below) (hrun : parserRun top.state = (true, s))
    (hroot : parentInterface s = "") : turn fs m = .inl (true, m.afterRun s below) := by
  unfold turn round
  rw [hm]
  simp only [hrun, hroot]
  have htop : (m.afterRun s below).topParent = "" := hroot
  simp [htop]

theorem turn_missing (hm : m.parsers = top :: below) (hrun : parserRun top.state = (true, s))
    (hbase : parentInterface s ≠ "") (hfile : fs.lookup (parentInterface s ++ ".if") = none) :
    Chase.Link (turn fs) m (m.afterRun s below) := by
  unfold Chase.Link turn round
  rw [hm]
  have htop : (m.afterRun s below).topParent = parentInterface s := rfl
  simp [hrun, hbase, addSource, hfile, htop]

theorem turn_found {w : List Lexeme} (hm : m.parsers = top :: below)
    (hrun : parserRun top.state = (true, s)) (hbase : parentInterface s ≠ "")
    (hfile : fs.lookup (parentInterface s ++ ".if") = some w) :
    Chase.Link (turn fs) m
      { m.afterRun s below with parsers := .new w :: (m.afterRun s below).parsers } := by
  unfold Chase.Link turn round
  rw [hm]
  have hnew : parentInterface (State.init w) ≠ "" := by
    show "<not known yet>" ≠ ""
    decide
  simp [hrun, hbase, addSource, hfile, topParent, Parser.new, hnew]

end Turns

end ParserStack

/-! ## §3. From file to file. -/

/-- What the interfaces extend that runs of the parser come to, one behind the other. -/
def bases : Nat → State → List String
  | 0, _ => []
  | n + 1, s =>
      match parserRun s with
      | (false, _) => []
      | (true, s') => parentInterface s' :: bases n s'

/-- What the interfaces in a file extend. -/
def basesIn (fs : Sources) (path : String) : List String :=
  match fs.lookup path with
  | none => []
  | some w => bases (w.length + 1) (.init w)

/-- The interface is a root, or the file of its parent is there. -/
def Resolved (fs : Sources) (base : String) : Prop :=
  base = "" ∨ (fs.lookup (base ++ ".if")).isSome = true

instance (fs : Sources) (base : String) : Decidable (Resolved fs base) :=
  inferInstanceAs (Decidable (_ ∨ _))

/-- What the first interface in the file extends that is a root or has the file of its parent. -/
def chosen (fs : Sources) (path : String) : Option String :=
  (basesIn fs path).find? fun base => decide (Resolved fs base)

/-- From a file to the one of the parent of the interface that is chosen in it. -/
def Follows (fs : Sources) (path path' : String) : Prop :=
  ∃ base, chosen fs path = some base ∧ base ≠ "" ∧ path' = base ++ ".if"

/-- The way through the files: its result, or the next file. -/
def fileTurn (fs : Sources) (path : String) : Bool ⊕ String :=
  match chosen fs path with
  | none => .inl false
  | some base => if base = "" then .inl true else .inr (base ++ ".if")

theorem link_eq_follows (fs : Sources) : Chase.Link (fileTurn fs) = Follows fs := by
  funext path path'
  unfold Chase.Link Follows fileTurn
  cases chosen fs path with
  | none => simp
  | some base =>
      by_cases hbase : base = ""
      · simp [hbase]
      · simp [hbase, eq_comm]

theorem fileTurn_eq_inl {fs : Sources} {path : String} {ok : Bool} :
    fileTurn fs path = .inl ok ↔
      (chosen fs path = none ∧ ok = false) ∨ (chosen fs path = some "" ∧ ok = true) := by
  unfold fileTurn
  cases chosen fs path with
  | none => simp [eq_comm]
  | some base =>
      by_cases hbase : base = ""
      · simp [hbase, eq_comm]
      · simp [hbase]

/-- The way goes on from files that are there. -/
theorem mem_of_follows {fs : Sources} {path path' : String} (h : Follows fs path path') :
    path ∈ fs.map Prod.fst := by
  obtain ⟨base, hchosen, -⟩ := h
  unfold chosen basesIn at hchosen
  cases hfile : fs.lookup path with
  | none =>
      rw [hfile] at hchosen
      cases hchosen
  | some w =>
      obtain ⟨l₁, l₂, heq, -⟩ := List.lookup_eq_some_iff.mp hfile
      rw [heq]
      simp

/-- A new parser for the file is on top of the stack. -/
def OnFile (fs : Sources) (path : String) (m : ParserStack) : Prop :=
  ∃ w below, fs.lookup path = some w ∧ m.parsers = .new w :: below

/-- The runs of one parser come to the interface that is chosen, or to their end. -/
theorem runs_in_file {fs : Sources} (n : Nat) {m : ParserStack} {top : Parser} {below : List Parser}
    (hm : m.parsers = top :: below) (hnext : top.state.nextKind = none)
    (hn : top.state.rest.length < n) :
    (∀ base, (bases n top.state).find? (fun b => decide (Resolved fs b)) = some base → base ≠ "" →
      ∃ m', Relation.TransGen (Chase.Link (ParserStack.turn fs)) m m' ∧
        OnFile fs (base ++ ".if") m') ∧
    ∀ ok, ((bases n top.state).find? (fun b => decide (Resolved fs b)) = none ∧ ok = false ∨
        (bases n top.state).find? (fun b => decide (Resolved fs b)) = some "" ∧ ok = true) →
      ∃ z m', Chase.Reaches (ParserStack.turn fs) m z ∧ ParserStack.turn fs z = .inl (ok, m') := by
  induction n generalizing m top below with
  | zero => omega
  | succ n ih =>
      rcases hrun : parserRun top.state with ⟨res, s⟩
      cases res with
      | false =>
          have hnil : bases (n + 1) top.state = [] := by
            rw [bases, hrun]
          rw [hnil]
          refine ⟨fun base h => (nomatch h), fun ok hok => ?_⟩
          rcases hok with ⟨-, rfl⟩ | ⟨h, -⟩
          · exact ⟨m, _, .refl, ParserStack.turn_failed hm hrun⟩
          · cases h
      | true =>
          have hcons : bases (n + 1) top.state = parentInterface s :: bases n s := by
            rw [bases, hrun]
          rw [hcons, List.find?_cons]
          by_cases hroot : parentInterface s = ""
          · have hresolved : decide (Resolved fs (parentInterface s)) = true :=
              decide_eq_true (.inl hroot)
            rw [hresolved, hroot]
            refine ⟨fun base h hbase => absurd (Option.some.inj h).symm hbase, fun ok hok => ?_⟩
            rcases hok with ⟨h, -⟩ | ⟨-, rfl⟩
            · cases h
            · exact ⟨m, _, .refl, ParserStack.turn_root hm hrun hroot⟩
          · cases hfile : fs.lookup (parentInterface s ++ ".if") with
            | some w =>
                have hresolved : decide (Resolved fs (parentInterface s)) = true :=
                  decide_eq_true (.inr (by rw [hfile]; rfl))
                rw [hresolved]
                refine ⟨fun base h hbase => ?_, fun ok hok => ?_⟩
                · cases h
                  exact ⟨_, .single (ParserStack.turn_found hm hrun hroot hfile), w, _, hfile, rfl⟩
                · rcases hok with ⟨h, -⟩ | ⟨h, -⟩
                  · cases h
                  · exact absurd (Option.some.inj h) hroot
            | none =>
                -- the parser is run again, behind the interface
                have hresolved : decide (Resolved fs (parentInterface s)) = false := by
                  refine decide_eq_false fun h => ?_
                  rcases h with h | h
                  · exact hroot h
                  · rw [hfile] at h
                    cases h
                obtain ⟨hlt, hnext'⟩ := run_forward hnext hrun
                have hlink := ParserStack.turn_missing hm hrun hroot hfile
                have hrest : s.rest.length < n := by omega
                obtain ⟨hfollow, hend⟩ :=
                  @ih (m.afterRun s below) ⟨s, some m.runs, none⟩ _ rfl hnext' hrest
                rw [hresolved]
                refine ⟨fun base h hbase => ?_, fun ok hok => ?_⟩
                · obtain ⟨m', hlinks, hon⟩ := hfollow base h hbase
                  exact ⟨m', .head hlink hlinks, hon⟩
                · obtain ⟨z, m', hz, hr⟩ := hend ok hok
                  exact ⟨z, m', .head hlink hz, hr⟩

/-- **The stack follows the files.** -/
theorem simulates_files (fs : Sources) :
    Chase.Simulates (ParserStack.turn fs) (fileTurn fs) (OnFile fs) fun ok r => r.1 = ok where
  link := by
    rintro path m path' ⟨w, below, hfile, hm⟩ hlink
    rw [link_eq_follows] at hlink
    obtain ⟨base, hchosen, hbase, rfl⟩ := hlink
    unfold chosen basesIn at hchosen
    rw [hfile] at hchosen
    exact (runs_in_file (w.length + 1) hm rfl (Nat.lt_succ_self _)).1 base hchosen hbase
  end_ := by
    rintro path m ok ⟨w, below, hfile, hm⟩ hturn
    rw [fileTurn_eq_inl] at hturn
    unfold chosen basesIn at hturn
    rw [hfile] at hturn
    obtain ⟨z, m', hz, hr⟩ :=
      (runs_in_file (w.length + 1) hm rfl (Nat.lt_succ_self _)).2 ok hturn
    exact ⟨z, _, hz, hr, rfl⟩

/-! ## §4. The chain of an interface. -/

/-- The parsers for the interface in a file and the ones it extends: each has run once, its parent
is the interface of the next one, and the last one is a root. -/
inductive Chain (fs : Sources) : String → List Parser → Prop where
  | root {path : String} {w : List Lexeme} {p : Parser} (hfile : fs.lookup path = some w)
      (hrun : parserRun (.init w) = (true, p.state)) (hroot : parentInterface p.state = "")
      (hparent : p.parent = none) : Chain fs path [p]
  | extending {path : String} {w : List Lexeme} {p q : Parser} {ps : List Parser} {n : Nat}
      (hfile : fs.lookup path = some w) (hrun : parserRun (.init w) = (true, p.state))
      (hbase : parentInterface p.state ≠ "") (htree : q.tree = some n) (hparent : p.parent = some n)
      (h : Chain fs (parentInterface p.state ++ ".if") (q :: ps)) : Chain fs path (p :: q :: ps)

theorem Chain.lookup {fs : Sources} {path : String} {ps : List Parser} (h : Chain fs path ps) :
    (fs.lookup path).isSome = true := by
  cases h with
  | root hfile _ _ _ => rw [hfile]; rfl
  | extending hfile _ _ _ _ _ => rw [hfile]; rfl

/-- The first interface of a file, when its run returns true. -/
theorem basesIn_head {fs : Sources} {path : String} {w : List Lexeme} {s : State}
    (hfile : fs.lookup path = some w) (hrun : parserRun (.init w) = (true, s)) :
    (basesIn fs path).head? = some (parentInterface s) := by
  unfold basesIn
  rw [hfile]
  simp only
  rw [bases, hrun]
  rfl

/-- The first interface of a file that is written as a module is. -/
theorem basesIn_module {fs : Sources} {path : String} {m : Module} {r : List Lexeme} (hok : m.Ok)
    (hfile : fs.lookup path = some (m.tokens ++ r)) :
    (basesIn fs path).head? = some (m.base.getD .empty).text := by
  obtain ⟨haccepted, -, htree⟩ := run_complete hok r
  rw [run_init] at haccepted htree
  rcases hrun : parserRun (.init (m.tokens ++ r)) with ⟨res, s⟩
  rw [hrun] at haccepted htree
  simp only at haccepted htree
  subst haccepted
  rw [basesIn_head hfile hrun]
  unfold parentInterface
  cases hs : s.parseTree with
  | none =>
      rw [hs] at htree
      cases htree
  | some tree =>
      rw [hs, Option.map_some, Option.some.injEq] at htree
      have hbase : tree.base = m.tree.base := by rw [← htree]; rfl
      exact congrArg (fun base => some base.text) hbase

/-- The interface that is chosen is the first one if that one is a root or its parent's file is
there. -/
theorem chosen_of_head {fs : Sources} {path base : String}
    (hhead : (basesIn fs path).head? = some base) (h : Resolved fs base) :
    chosen fs path = some base := by
  unfold chosen
  cases hbases : basesIn fs path with
  | nil =>
      rw [hbases] at hhead
      cases hhead
  | cons b bs =>
      rw [hbases] at hhead
      cases hhead
      rw [List.find?_cons, decide_eq_true h]

theorem resolved_of_chosen {fs : Sources} {path base : String} (h : chosen fs path = some base) :
    Resolved fs base := of_decide_eq_true (List.find?_some (p := fun b => decide (Resolved fs b)) h)

/-- On a chain the first interface of every file is the one that is chosen. -/
theorem Chain.first {fs : Sources} {path : String} {ps : List Parser} (h : Chain fs path ps)
    {path' : String} (hreach : Relation.ReflTransGen (Follows fs) path path') :
    chosen fs path' = (basesIn fs path').head? := by
  induction h with
  | root hfile hrun hroot _ =>
      have hhead := basesIn_head hfile hrun
      have hchosen := chosen_of_head hhead (.inl hroot)
      rcases Relation.ReflTransGen.cases_head hreach with rfl | ⟨next, hnext, -⟩
      · rw [hchosen, hhead]
      · obtain ⟨base, hbase, hne, -⟩ := hnext
        rw [hchosen, hroot, Option.some.injEq] at hbase
        exact absurd hbase.symm hne
  | extending hfile hrun hbase _ _ hchain ih =>
      have hhead := basesIn_head hfile hrun
      have hchosen := chosen_of_head hhead (.inr hchain.lookup)
      rcases Relation.ReflTransGen.cases_head hreach with rfl | ⟨next, hnext, hrest⟩
      · rw [hchosen, hhead]
      · obtain ⟨base, hbase', -, rfl⟩ := hnext
        rw [hchosen, Option.some.injEq] at hbase'
        rw [← hbase'] at hrest
        exact ih hrest

/-- The parsers below the top, when every file so far had one run: from the file `path₀` the way has
come to `path`. -/
inductive Leads (fs : Sources) (path₀ : String) : String → List Parser → Prop where
  | start : Leads fs path₀ path₀ []
  | step {path : String} {w : List Lexeme} {p : Parser} {below : List Parser}
      (h : Leads fs path₀ path below) (hfile : fs.lookup path = some w)
      (hrun : parserRun (.init w) = (true, p.state)) (hbase : parentInterface p.state ≠ "")
      (htree : p.tree = some below.length) (hlink : ∀ q ∈ below.head?, q.parent = p.tree) :
      Leads fs path₀ (parentInterface p.state ++ ".if") (p :: below)

/-- Linking the parser below the top changes nothing else. -/
theorem Leads.link {fs : Sources} {path₀ path : String} {below : List Parser}
    (h : Leads fs path₀ path below) (tree : Option Nat) :
    Leads fs path₀ path (ParserStack.linkToParent tree below) := by
  cases h with
  | start => exact .start
  | @step path w p below h hfile hrun hbase htree hlink =>
      exact Leads.step (p := { p with parent := tree }) h hfile hrun hbase htree hlink

/-- With a chain on top the whole stack is a chain. -/
theorem Leads.chain {fs : Sources} {path₀ path : String} {below ps : List Parser} {top : Parser}
    (h : Leads fs path₀ path below) (hchain : Chain fs path (top :: ps))
    (htree : top.tree = some below.length) (hlink : ∀ q ∈ below.head?, q.parent = top.tree) :
    Chain fs path₀ (below.reverse ++ top :: ps) := by
  induction h generalizing top ps with
  | start => exact hchain
  | @step path w p below h hfile hrun hbase htree' hlink' ih =>
      have hparent : p.parent = some (p :: below).length := by
        rw [hlink p rfl, htree]
      rw [List.reverse_cons, List.append_assoc]
      exact ih (.extending hfile hrun hbase htree hparent hchain) htree' hlink'

/-- Every parser below the top has a tree of its own. -/
theorem Leads.trees {fs : Sources} {path₀ path : String} {below : List Parser}
    (h : Leads fs path₀ path below) :
    below.map Parser.tree = (List.range below.length).reverse.map some := by
  induction h with
  | start => rfl
  | step _ _ _ _ htree _ ih =>
      rw [List.map_cons, htree, ih, List.length_cons, List.range_succ, List.reverse_append]
      rfl

theorem trees_linkToParent (tree : Option Nat) (below : List Parser) :
    (ParserStack.linkToParent tree below).map Parser.tree = below.map Parser.tree := by
  cases below with
  | nil => rfl
  | cons p ps => rfl

theorem length_linkToParent (tree : Option Nat) (below : List Parser) :
    (ParserStack.linkToParent tree below).length = below.length := by
  cases below with
  | nil => rfl
  | cons p ps => rfl

theorem linked_linkToParent (tree : Option Nat) (below : List Parser) :
    ∀ q ∈ (ParserStack.linkToParent tree below).head?, q.parent = tree := by
  intro q hq
  cases below with
  | nil => cases hq
  | cons p ps =>
      cases hq
      rfl

/-- What a stack is to be when `parse` has returned true: a chain from the file on, and no two of
its parsers have the same tree. -/
def Closed (fs : Sources) (path : String) (m : ParserStack) : Prop :=
  Chain fs path m.parsers.reverse ∧ (m.parsers.map Parser.tree).Nodup

/-- The first interface of a file comes from the first run. -/
theorem run_of_head {fs : Sources} {path base : String} {w : List Lexeme}
    (hfile : fs.lookup path = some w) (h : (basesIn fs path).head? = some base) :
    ∃ s, parserRun (.init w) = (true, s) ∧ parentInterface s = base := by
  rcases hrun : parserRun (.init w) with ⟨res, s⟩
  cases res with
  | true =>
      rw [basesIn_head hfile hrun, Option.some.injEq] at h
      exact ⟨s, rfl, h⟩
  | false =>
      unfold basesIn at h
      rw [hfile] at h
      simp only at h
      rw [bases, hrun] at h
      cases h

/-- A root on top closes the stack. -/
theorem closed_afterRun {fs : Sources} {path₀ path : String} {below : List Parser} {w : List Lexeme}
    {s : State} (hleads : Leads fs path₀ path below) (hfile : fs.lookup path = some w)
    (hrun : parserRun (.init w) = (true, s)) (hroot : parentInterface s = "") :
    Closed fs path₀ (ParserStack.afterRun ⟨.new w :: below, below.length⟩ s below) := by
  have hlen := length_linkToParent (some below.length) below
  unfold Closed ParserStack.afterRun
  constructor
  · rw [List.reverse_cons]
    exact (hleads.link (some below.length)).chain
      (.root (p := ⟨s, some below.length, none⟩) hfile hrun hroot rfl) (by rw [hlen])
      (linked_linkToParent _ _)
  · have htrees : (List.range (below.length + 1)).reverse.map some =
        some below.length :: (List.range below.length).reverse.map some := by
      rw [List.range_succ, List.reverse_append]
      rfl
    rw [List.map_cons, trees_linkToParent, hleads.trees, ← htrees]
    exact (List.nodup_reverse.mpr List.nodup_range).map (Option.some_injective _)

/-- **Where the first interface is chosen in every file**, the stack gets closed. -/
theorem closed_of_first {fs : Sources} {path₀ path z : String} {below : List Parser}
    {w : List Lexeme} (hz : Chase.Reaches (fileTurn fs) path z) (hr : fileTurn fs z = .inl true)
    (hfirst : ∀ path', Relation.ReflTransGen (Follows fs) path path' →
      chosen fs path' = (basesIn fs path').head?)
    (hleads : Leads fs path₀ path below) (hfile : fs.lookup path = some w) :
    ∃ y m', Chase.Reaches (ParserStack.turn fs) ⟨.new w :: below, below.length⟩ y ∧
      ParserStack.turn fs y = .inl (true, m') ∧ Closed fs path₀ m' := by
  induction hz using Relation.ReflTransGen.head_induction_on generalizing below w with
  -- the root: the run of its parser ends the loop
  | refl =>
      have hchosen : chosen fs z = some "" := by
        rcases fileTurn_eq_inl.mp hr with ⟨-, h⟩ | ⟨h, -⟩
        · cases h
        · exact h
      obtain ⟨s, hrun, hroot⟩ := run_of_head hfile ((hfirst z .refl).symm.trans hchosen)
      refine ⟨_, _, .refl, ParserStack.turn_root rfl hrun hroot, ?_⟩
      exact closed_afterRun hleads hfile hrun hroot
  -- a file with a parent: its parser is linked to the parser that is added for the parent's file
  | @head path c hlink hrest ih =>
      have hfollows : Follows fs path c := link_eq_follows fs ▸ hlink
      obtain ⟨base, hchosen, hbase, rfl⟩ := hfollows
      obtain ⟨s, hrun, rfl⟩ := run_of_head hfile ((hfirst path .refl).symm.trans hchosen)
      obtain ⟨w', hfile'⟩ : ∃ w', fs.lookup (parentInterface s ++ ".if") = some w' := by
        rcases resolved_of_chosen hchosen with h | h
        · exact absurd h hbase
        · exact Option.isSome_iff_exists.mp h
      have hturn := ParserStack.turn_found (m := ⟨.new w :: below, below.length⟩) rfl hrun hbase hfile'
      have hlen := length_linkToParent (some below.length) below
      obtain ⟨y, m', hy, hr', hclosed⟩ := ih
        (fun path' hpath' => hfirst path' (.head ⟨_, hchosen, hbase, rfl⟩ hpath'))
        (Leads.step (p := ⟨s, some below.length, none⟩) (hleads.link (some below.length)) hfile hrun
          hbase (by rw [hlen]) (linked_linkToParent _ _)) hfile'
      refine ⟨y, m', .head hturn ?_, hr', hclosed⟩
      rw [List.length_cons, hlen] at hy
      exact hy

/-- The results of a loop are the same for whatever fuel there is. -/
theorem parse_unique {fs : Sources} {m y : ParserStack} {r r' : Bool × ParserStack} {fuel : Nat}
    (hy : Chase.Reaches (ParserStack.turn fs) m y) (hr : ParserStack.turn fs y = .inl r)
    (h : ParserStack.parse fs fuel m = some r') : r' = r := by
  rw [ParserStack.parse_eq_run] at h
  obtain ⟨y', hy', hr'⟩ := Chase.reaches_of_run h
  have hsame := (Chase.settles_run hy' hr').unique (Chase.settles_run hy hr)
  exact Option.some.inj hsame

/-! ## §5. When the closure is right. -/

/-- What `parse` is to do from the input file on: it ends, and a stack with which it returns true is
the chain of the interface. -/
structure Closes (fs : Sources) (path : String) (w : List Lexeme) : Prop where
  finishes : ∃ fuel r, ParserStack.parse fs fuel (.start w) = some r
  closed : ∀ fuel m, ParserStack.parse fs fuel (.start w) = some (true, m) → Closed fs path m

/-- The way through the files comes to no file again. -/
def Acyclic (fs : Sources) (path : String) : Prop :=
  ∀ path', Relation.ReflTransGen (Follows fs) path path' →
    ¬ Relation.TransGen (Follows fs) path' path'

/-- The way through the files ends exactly when it comes to no file again. -/
theorem fileTurn_ends_iff (fs : Sources) (path : String) :
    (∃ z r, Chase.Reaches (fileTurn fs) path z ∧ fileTurn fs z = .inl r) ↔ Acyclic fs path := by
  have hplaces : ∀ a b, Chase.Reaches (fileTurn fs) path a → Chase.Link (fileTurn fs) a b →
      a ∈ fs.map Prod.fst := by
    intro a b _ hlink
    rw [link_eq_follows] at hlink
    exact mem_of_follows hlink
  rw [Chase.ends_iff_acyclic _ hplaces]
  unfold Acyclic Chase.Reaches
  rw [link_eq_follows]

/-- **`parse` ends exactly when the way through the files comes to no file again.** -/
theorem parse_ends_iff {fs : Sources} {path : String} {w : List Lexeme}
    (hfile : fs.lookup path = some w) :
    (∃ fuel r, ParserStack.parse fs fuel (.start w) = some r) ↔ Acyclic fs path := by
  have hon : OnFile fs path (.start w) := ⟨w, [], hfile, rfl⟩
  have hrun : (∃ fuel r, ParserStack.parse fs fuel (.start w) = some r) ↔
      ∃ z r, Chase.Reaches (ParserStack.turn fs) (.start w) z ∧
        ParserStack.turn fs z = .inl r := by
    simp only [ParserStack.parse_eq_run]
    exact Chase.exists_run_iff
  rw [hrun, (simulates_files fs).ends_iff hon, fileTurn_ends_iff]

/-- **When the closure of an interface is computed right**: exactly when the way from the input file,
in each file from the first interface that is a root or whose parent's file is there to that file,
comes to no file again, and either ends in a file that has no such interface or goes from the first
interface of every file. -/
theorem closure_iff (fs : Sources) (path : String) (w : List Lexeme)
    (hfile : fs.lookup path = some w) :
    Closes fs path w ↔ Acyclic fs path ∧
      ((∃ path', Relation.ReflTransGen (Follows fs) path path' ∧ chosen fs path' = none) ∨
        ∀ path', Relation.ReflTransGen (Follows fs) path path' →
          chosen fs path' = (basesIn fs path').head?) := by
  have hon : OnFile fs path (.start w) := ⟨w, [], hfile, rfl⟩
  -- without a cycle the way has an end, and the stack gets the same result
  have hend : Acyclic fs path → ∃ z ok y m, Chase.Reaches (fileTurn fs) path z ∧
      fileTurn fs z = .inl ok ∧ Chase.Reaches (ParserStack.turn fs) (.start w) y ∧
      ParserStack.turn fs y = .inl (ok, m) := by
    intro hacyclic
    obtain ⟨z, ok, hz, hr⟩ := (fileTurn_ends_iff fs path).mpr hacyclic
    obtain ⟨y, ⟨ok', m⟩, hy, hr', hok⟩ := (simulates_files fs).result hon hz hr
    cases hok
    exact ⟨z, ok', y, m, hz, hr, hy, hr'⟩
  constructor
  · intro h
    have hacyclic := (parse_ends_iff hfile).mp h.finishes
    refine ⟨hacyclic, ?_⟩
    obtain ⟨z, ok, y, m, hz, hr, hy, hr'⟩ := hend hacyclic
    unfold Chase.Reaches at hz
    rw [link_eq_follows] at hz
    rcases fileTurn_eq_inl.mp hr with ⟨hnone, -⟩ | ⟨-, rfl⟩
    · exact .inl ⟨z, hz, hnone⟩
    · obtain ⟨fuel, hfuel⟩ := (Chase.settles_run hy hr').exists_eq
      have hclosed := h.closed fuel m (by rw [ParserStack.parse_eq_run, hfuel])
      exact .inr fun path' hpath' => hclosed.1.first hpath'
  · rintro ⟨hacyclic, hway⟩
    refine ⟨(parse_ends_iff hfile).mpr hacyclic, fun fuel m hm => ?_⟩
    obtain ⟨z, ok, y, m₁, hz, hr, hy, hr'⟩ := hend hacyclic
    obtain ⟨rfl, rfl⟩ := Prod.mk.inj (parse_unique hy hr' hm)
    rcases hway with ⟨z', hz', hnone⟩ | hfirst
    · -- a way that ends in such a file does not return true
      have hr₁ : fileTurn fs z' = .inl false := fileTurn_eq_inl.mpr (.inl ⟨hnone, rfl⟩)
      have hz₁ : Chase.Reaches (fileTurn fs) path z' := by
        unfold Chase.Reaches
        rw [link_eq_follows]
        exact hz'
      have hsame := (Chase.settles_run hz hr).unique (Chase.settles_run hz₁ hr₁)
      cases hsame
    · obtain ⟨y', m', hy', hr'', hclosed⟩ := closed_of_first hz hr hfirst .start hfile
      obtain ⟨-, rfl⟩ := Prod.mk.inj (parse_unique hy' hr'' hm)
      exact hclosed

theorem letter_c : 'c' ∉ separators := by decide

theorem letter_a : 'a' ∉ separators := by decide

theorem letter_b : 'b' ∉ separators := by decide

/-- `interface a { }`, for a letter. -/
def rootFile (a : Ident) : List Lexeme := [.kw .interface_, .word a, .sign .lbrace, .sign .rbrace]

/-- `interface a extends b { }`, for two letters. -/
def extendingFile (a b : Ident) : List Lexeme :=
  [.kw .interface_, .word a, .kw .extends_, .word b, .sign .lbrace, .sign .rbrace]

/-- Two interfaces that extend each other. -/
def mutualFiles : Sources :=
  [("a.if", extendingFile (.letter 'a' letter_a) (.letter 'b' letter_b)),
    ("b.if", extendingFile (.letter 'b' letter_b) (.letter 'a' letter_a))]

/-- An interface that extends another, with a root behind it in its file. -/
def chainFile : List Lexeme :=
  extendingFile (.letter 'a' letter_a) (.letter 'b' letter_b) ++ rootFile (.letter 'c' letter_c)

def chainFiles : Sources := [("a.if", chainFile), ("b.if", rootFile (.letter 'b' letter_b))]

theorem closes_chain : chainFiles.lookup "a.if" = some chainFile ∧
    Closes chainFiles "a.if" chainFile := by
  have hfile : chainFiles.lookup "a.if" = some chainFile := by decide
  have hbases : basesIn chainFiles "a.if" = ["b", ""] := by decide +kernel
  have hbases' : basesIn chainFiles "b.if" = [""] := by decide +kernel
  have hchosen : chosen chainFiles "a.if" = some "b" := by
    rw [chosen, hbases]
    decide
  have hchosen' : chosen chainFiles "b.if" = some "" := by
    rw [chosen, hbases']
    decide
  -- the way goes to the root, and no further
  have hnext : ∀ path', Follows chainFiles "a.if" path' → path' = "b.if" := by
    intro path' h
    obtain ⟨base, hbase, -, rfl⟩ := h
    rw [hchosen, Option.some.injEq] at hbase
    rw [← hbase]
    decide
  have hend : ∀ path', ¬ Follows chainFiles "b.if" path' := by
    intro path' h
    obtain ⟨base, hbase, hne, -⟩ := h
    rw [hchosen', Option.some.injEq] at hbase
    exact hne hbase.symm
  have hway : ∀ path', Relation.ReflTransGen (Follows chainFiles) "a.if" path' →
      path' = "a.if" ∨ path' = "b.if" := by
    intro path' hpath'
    induction hpath' with
    | refl => exact .inl rfl
    | tail _ hstep ih =>
        rcases ih with rfl | rfl
        · exact .inr (hnext _ hstep)
        · exact absurd hstep (hend _)
  refine ⟨hfile, (closure_iff _ _ _ hfile).mpr ⟨fun path' hpath' hcycle => ?_,
    .inr fun path' hpath' => ?_⟩⟩
  · obtain ⟨next, hstep, hback⟩ := Relation.TransGen.head'_iff.mp hcycle
    rcases hway path' hpath' with rfl | rfl
    · rw [hnext next hstep] at hback
      rcases Relation.ReflTransGen.cases_head hback with h | ⟨_, hstep', -⟩
      · exact absurd h (by decide)
      · exact hend _ hstep'
    · exact hend _ hstep
  · rcases hway path' hpath' with rfl | rfl
    · rw [hchosen, hbases]
      rfl
    · rw [hchosen', hbases']
      rfl

/-- The files of two interfaces that extend each other are read for ever. -/
theorem mutual_extension_never_closes : ¬ Closes mutualFiles "a.if"
    (extendingFile (.letter 'a' (by decide)) (.letter 'b' (by decide))) := by
  intro h
  have hab : Follows mutualFiles "a.if" "b.if" :=
    ⟨"b", by decide +kernel, by decide, by decide⟩
  have hba : Follows mutualFiles "b.if" "a.if" :=
    ⟨"a", by decide +kernel, by decide, by decide⟩
  have hfile : mutualFiles.lookup "a.if" = some _ := rfl
  have hacyclic := (parse_ends_iff hfile).mp h.finishes
  exact hacyclic "a.if" .refl (.head hab (.single hba))

end Metta.Meddler
