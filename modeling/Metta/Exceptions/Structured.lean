/-
  Metta.Exceptions.Structured — what the exception macros are meant to do.

  The meaning of a statement is the actions it makes and how it ends, with the
  exception in hand (`cur`) that OS_RERAISE raises again.  Evaluation has fuel,
  since procedures may call each other; without enough there is no answer.

  `always` says when a FINALLY clause runs.  With it, always; without it, not
  after a CATCH clause of the same TRY that raises, which the header warns
  of.
-/
import Metta.Exceptions.Def

namespace Metta.Exceptions

/-- How a statement ends. -/
inductive Outcome where
  | normal
  | raised (e : Exn)
  /-- OS_RERAISE with no exception in hand. -/
  | undefined
  deriving DecidableEq, Repr

/-- The FINALLY clause after actions `t` and outcome `o`: its own outcome counts
unless it is normal. -/
def evalFinally (ev : Stmt → Option Exn → Option (List Nat × Outcome)) (finally_ : Option Stmt)
    (cur : Option Exn) (t : List Nat) (o : Outcome) : Option (List Nat × Outcome) :=
  match finally_ with
  | none => some (t, o)
  | some f => (ev f cur).map fun r => (t ++ r.1, if r.2 = .normal then o else r.2)

/-- The rest of a TRY whose body made the actions `t` and ended in `o`. -/
def evalClauses (always : Bool) (ev : Stmt → Option Exn → Option (List Nat × Outcome))
    (catches : Catches) (finally_ : Option Stmt) (t : List Nat) :
    Outcome → Option (List Nat × Outcome)
  | .undefined => some (t, .undefined)
  | .normal => evalFinally ev finally_ none t .normal
  | .raised e =>
      match matching e.name catches with
      | none => evalFinally ev finally_ (some e) t (.raised e)
      | some h =>
          (ev h (some e)).bind fun r =>
            match r.2 with
            | .normal => evalFinally ev finally_ (some e) (t ++ r.1) .normal
            | .undefined => some (t ++ r.1, .undefined)
            | .raised e' =>
                if always then evalFinally ev finally_ (some e) (t ++ r.1) (.raised e')
                else some (t ++ r.1, .raised e')

/-- The meaning of a statement: its actions and its outcome. -/
def eval (always : Bool) (procs : Nat → Proc) :
    Nat → Stmt → Option Exn → Option (List Nat × Outcome)
  | 0, _, _ => none
  | n + 1, s, cur =>
      match s with
      | .skip => some ([], .normal)
      | .act a => some ([a], .normal)
      | .seq s t =>
          (eval always procs n s cur).bind fun r =>
            if r.2 = .normal then (eval always procs n t cur).map fun r' => (r.1 ++ r'.1, r'.2)
            else some r
      | .raise e => some ([], .raised e)
      | .reraise =>
          match cur with
          | some e => some ([], .raised e)
          | none => some ([], .undefined)
      | .call p => eval always procs n (procs p).body none
      | .try_ _ body catches finally_ =>
          (eval always procs n body none).bind fun r =>
            evalClauses always (eval always procs n) catches finally_ r.1 r.2

/-- How a whole program ends: an exception that nobody caught is a panic. -/
def Outcome.result : Outcome → Result
  | .normal => .done
  | .raised e => .unhandled e
  | .undefined => .undefined

/-- The program `main` makes the actions `t` and ends in `r`. -/
def Means (always : Bool) (procs : Nat → Proc) (main : Proc) (t : List Nat) (r : Result) : Prop :=
  ∃ n o, eval always procs n main.body none = some (t, o) ∧ o.result = r

end Metta.Exceptions
