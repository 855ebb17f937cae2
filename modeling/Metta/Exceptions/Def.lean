/-
  Metta.Exceptions.Def — setjmp exceptions: kernel/arch/x86/exceptions.h and
  modules/exceptions_mod/exception_system.cpp.

  An `OS_TRY` puts a context block on its stack frame, pushes it on the chain
  that `handlers` points to, and takes a `setjmp`; `raise` pops the block and
  jumps back to it.  What runs after the jump depends on the block's state.

  The machine below runs programs made of TRY blocks, raises and calls.  What
  is left to do is a list of frames, and a jump buffer holds the list that
  `setjmp` saw.  Context blocks lie in the stack frames of the procedures, at
  depths that grow with the stack: a block that was left stays in memory until
  a call or another TRY is put over it.  Where in its frame a block lies is for
  the compiler to say and is part of the program here.  The file, function and
  line that a block keeps for the console are left out.  `act` is an action
  that can be seen from outside and takes no stack.

    • `Stmt`, `Stmt.Fits`, `Proc` — programs and how their blocks are laid out,
    • `Context`, `overwritten` — context blocks,
    • `pushContext`, `popContext`, `internalRaise` — `exception_system.cpp`,
    • `leave`, `endTry` — the macros,
    • `Machine`, `step` — the machine.
-/
import Metta.Machine.Stepper

namespace Metta.Exceptions

open Metta.Machine

/-! ## §1. Programs. -/

/-- An exception: its name and the address of its arguments. -/
structure Exn where
  name : String
  args : Nat
  deriving DecidableEq, Repr

/-- Statements.  A TRY has the slot of its block in the stack frame, its body, its CATCH
clauses (one without a name is CATCH_ALL) and perhaps a FINALLY. -/
inductive Stmt where
  | skip
  | act (a : Nat)
  | seq (s t : Stmt)
  | raise (e : Exn)
  | reraise
  | call (p : Nat)
  | try_ (slot : Nat) (body : Stmt) (catches : List (Option String × Stmt))
      (finally_ : Option Stmt)

/-- The CATCH clauses of a TRY. -/
abbrev Catches := List (Option String × Stmt)

/-- The first clause whose name `xcp_matches`. -/
def matching (name : String) : Catches → Option Stmt
  | [] => none
  | (none, h) :: _ => some h
  | (some e, h) :: rest => if name = e then some h else matching name rest

/-- The blocks of the statement lie in the slots from `lo` on of a stack frame with `frame`
slots, and those of TRYs inside another behind its block. -/
inductive Stmt.Fits (frame : Nat) : Nat → Stmt → Prop
  | skip {lo : Nat} : Fits frame lo .skip
  | act {lo a : Nat} : Fits frame lo (.act a)
  | seq {lo : Nat} {s t : Stmt} : Fits frame lo s → Fits frame lo t → Fits frame lo (.seq s t)
  | raise {lo : Nat} {e : Exn} : Fits frame lo (.raise e)
  | reraise {lo : Nat} : Fits frame lo .reraise
  | call {lo p : Nat} : Fits frame lo (.call p)
  | try_ {lo slot : Nat} {body : Stmt} {catches : Catches} {finally_ : Option Stmt} :
      lo ≤ slot → slot < frame → Fits frame (slot + 1) body →
      (∀ name h, (name, h) ∈ catches → Fits frame (slot + 1) h) →
      (∀ f, finally_ = some f → Fits frame (slot + 1) f) →
      Fits frame lo (.try_ slot body catches finally_)

/-- A procedure: its stack frame and its body. -/
structure Proc where
  frame : Nat
  body : Stmt
  fits : body.Fits frame 0

/-- Where a statement runs: the stack frame of its procedure from `base` on, and the context
block that is in scope. -/
structure Scope where
  base : Nat
  frame : Nat
  lex : Option Nat

/-- The stack pointer, behind the frame. -/
def Scope.sp (sc : Scope) : Nat := sc.base + sc.frame

/-! ## §2. Context blocks. -/

/-- `xcp_state_t`. -/
inductive XcpState where
  | none
  | active
  | handled
  | popped
  deriving DecidableEq, Repr

/-- A `down` pointer; `mark` is the 0x1 that stands for writable, and `wild` is what something
else has left there. -/
inductive Down where
  | null
  | mark
  | wild
  | ctx (c : Nat)
  deriving DecidableEq, Repr

/-- What is to be done after the running statement, and where. -/
inductive Frame where
  | seq (t : Stmt) (sc : Scope)
  /-- The body of the TRY with block `c`. -/
  | body (c : Nat) (catches : Catches) (finally_ : Option Stmt) (sc : Scope)
  /-- A CATCH clause of it. -/
  | clause (c : Nat) (finally_ : Option Stmt) (sc : Scope)
  /-- Its FINALLY clause. -/
  | finally_ (c : Nat) (sc : Scope)

/-- A jump buffer: the rest of the TRY, its stack frame, and what is to be done after it. -/
structure JmpBuf where
  catches : Catches
  finally_ : Option Stmt
  k : List Frame
  sc : Scope

/-- `xcp_context_t`; `name` is not set before a raise. -/
structure Context where
  jmp : JmpBuf
  up : Option Nat
  down : Down
  state : XcpState
  name : Option String
  args : Nat

/-- The exception a block holds. -/
def Context.exn (c : Context) : Option Exn := c.name.map fun name => ⟨name, c.args⟩

/-- What is no context block, or no longer one. -/
def overwritten : Context := ⟨⟨[], none, [], ⟨0, 0, none⟩⟩, none, .wild, .popped, none, 0⟩

/-- Memory after a call from `sp` on: the frames of what is called lie over what was there. -/
def clobber (heap : Nat → Context) (sp : Nat) : Nat → Context :=
  fun c => if c < sp then heap c else overwritten

/-! ## §3. The machine. -/

/-- How a program ends. -/
inductive Result where
  | done
  /-- The panic of `internal_raise`. -/
  | unhandled (e : Exn)
  /-- OS_RERAISE where the block in scope holds no exception. -/
  | undefined
  /-- OS_ENDTRY follows a `down` pointer that leads to no context block. -/
  | fault
  deriving DecidableEq, Repr

inductive Control where
  | run (s : Stmt) (sc : Scope)
  /-- The statement is done. -/
  | ret
  /-- `internal_raise` is called. -/
  | raising (initial : Bool) (e : Exn)
  /-- `setjmp` returned for the second time, in the TRY with block `c`. -/
  | jumped (c : Nat)
  | halted (r : Result)

/-- `handlers` is the innermost context block, `heap` is the memory by depths, and no context
block was ever at the depth `deep` or a greater one. -/
structure Machine where
  control : Control
  k : List Frame
  handlers : Option Nat
  heap : Nat → Context
  deep : Nat
  trace : List Nat

namespace Machine

/-- Change a context block. -/
def modify (m : Machine) (c : Nat) (f : Context → Context) : Machine :=
  { m with heap := Function.update m.heap c (f (m.heap c)) }

/-- A call from `sp` on. -/
def clobber (m : Machine) (sp : Nat) : Machine := { m with heap := Exceptions.clobber m.heap sp }

/-- `push_context` of the block `c`, and the `setjmp` after it. -/
def pushContext (m : Machine) (c : Nat) (jmp : JmpBuf) : Machine :=
  let m : Machine := { m with
    heap := Function.update m.heap c
      { jmp := jmp, up := m.handlers, down := .mark, state := .none, name := none, args := 0 }
    deep := max m.deep (c + 1) }
  let m : Machine := match m.handlers with
    | none => m
    | some p =>
        if (m.heap p).down = .null then m else m.modify p fun ctx => { ctx with down := .ctx c }
  { m with handlers := some c }

/-- `pop_context`, called with the stack pointer `sp`: an active exception is propagated up. -/
def popContext (m : Machine) (c sp : Nat) : Machine :=
  let ctx := m.heap c
  let m : Machine :=
    { (m.clobber sp).modify c fun ctx => { ctx with state := .popped } with handlers := ctx.up }
  if ctx.state = .active then
    match ctx.exn with
    | some e => { m with control := .raising false e }
    | none => { m with control := .halted .undefined }
  else { m with control := .ret }

/-- The first context block of the chain in state none. -/
def findContext (heap : Nat → Context) : Nat → Option Nat → Option Nat
  | _, none => none
  | 0, some _ => none
  | n + 1, some c => if (heap c).state = .none then some c else findContext heap n (heap c).up

/-- `internal_raise`. -/
def internalRaise (m : Machine) (initial : Bool) (e : Exn) : Machine :=
  match findContext m.heap (m.deep + 1) m.handlers with
  | none => { m with control := .halted (.unhandled e) }
  | some c =>
      let m : Machine := m.modify c fun ctx =>
        { ctx with
          state := .active
          name := some e.name
          args := e.args
          down := if initial then .null else ctx.down }
      { m with handlers := (m.heap c).up, control := .jumped c }

/-- The walk of OS_ENDTRY along `down`, and the deepest block that it comes to. -/
def walkDown (heap : Nat → Context) : Nat → Nat → Down → Option Nat
  | _, base, .null => some base
  | _, _, .mark => none
  | _, _, .wild => none
  | 0, _, .ctx _ => none
  | n + 1, base, .ctx c => walkDown heap n (max base c) (heap c).down

/-- OS_ENDTRY, with the stack pointer `sp`.  With an exception the stack pointer is put behind
the deepest block of the walk, which saves the blocks of the trace from `pop_context`. -/
def endTry (m : Machine) (c sp : Nat) : Machine :=
  match (m.heap c).state with
  | .active =>
      match walkDown m.heap (m.deep + 1) c (m.heap c).down with
      | none => { m with control := .halted .fault }
      | some base => m.popContext c (base + 1)
  | .none => m.popContext c sp
  | .handled => { m with control := .ret }
  | .popped => { m with control := .ret }

/-- The end of the body or of a clause: OS_FINALLY, or OS_ENDTRY at once. -/
def leave (m : Machine) (c : Nat) (finally_ : Option Stmt) (sc : Scope) : Machine :=
  match finally_ with
  | none => m.endTry c sc.sp
  | some f =>
      let m : Machine := if (m.heap c).state = .none then m.popContext c sc.sp else m
      let m : Machine := match (m.heap c).state, (m.heap c).up with
        | .active, some p => m.modify p fun ctx => { ctx with down := .null }
        | _, _ => m
      { m with control := .run f { sc with lex := some c }, k := .finally_ c sc :: m.k }

/-- One step; `procs` are the procedures. -/
def step (procs : Nat → Proc) (m : Machine) : Option Machine :=
  match m.control with
  | .halted _ => none
  | .run s sc =>
      some <| match s with
      | .skip => { m with control := .ret }
      | .act a => { m with control := .ret, trace := m.trace ++ [a] }
      | .seq s t => { m with control := .run s sc, k := .seq t sc :: m.k }
      | .raise e => { m.clobber sc.sp with control := .raising true e }
      | .reraise =>
          match sc.lex.bind fun c => (m.heap c).exn with
          | some e => { m.clobber sc.sp with control := .raising true e }
          | none => { m with control := .halted .undefined }
      | .call p =>
          { m.clobber sc.sp with control := .run (procs p).body ⟨sc.sp, (procs p).frame, none⟩ }
      | .try_ slot body catches finally_ =>
          let c := sc.base + slot
          { (m.clobber sc.sp).pushContext c ⟨catches, finally_, m.k, sc⟩ with
            control := .run body { sc with lex := some c }
            k := .body c catches finally_ sc :: m.k }
  | .ret =>
      some <| match m.k with
      | [] => { m with control := .halted .done }
      | .seq t sc :: k => { m with control := .run t sc, k := k }
      | .body c _ finally_ sc :: k => { m with k := k }.leave c finally_ sc
      | .clause c finally_ sc :: k => { m with k := k }.leave c finally_ sc
      | .finally_ c sc :: k => { m with k := k }.endTry c sc.sp
  | .raising initial e => some (m.internalRaise initial e)
  | .jumped c =>
      let jmp := (m.heap c).jmp
      some <| match (m.heap c).name.bind fun name => matching name jmp.catches with
      | some h =>
          { m.modify c fun ctx => { ctx with state := .handled } with
            control := .run h { jmp.sc with lex := some c }
            k := .clause c jmp.finally_ jmp.sc :: jmp.k }
      | none => { m with k := jmp.k }.leave c jmp.finally_ jmp.sc

/-- The machine at the start of a program. -/
def init (main : Proc) : Machine where
  control := .run main.body ⟨0, main.frame, none⟩
  k := []
  handlers := none
  heap _ := overwritten
  deep := 0
  trace := []

end Machine

end Metta.Exceptions
