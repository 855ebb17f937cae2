/-
  Metta.ContextMod.Def — naming_context.cpp of context_mod.

  A context is an unordered map from names to values.  Its keys are the pointers
  that callers pass, with `hash` and `equal_to` over the text they point to; the
  texts do not change while they are bound, so a key is its text here.

  `isType` is what the type system answers to `is_type(type,
  naming_context_v1::type_code)`, or the type code of no registered interface for
  which it raises `bad_code`.  `exceptions` tells whether `PVS(exceptions)` is set
  up.

    • `World` — the contexts that there are,
    • `get`, `add`, `remove`, `createContext`,
    • `Op`, `run` — sequences of calls.
-/
import Metta.Machine.UnorderedMap
import Metta.Machine.Split
import Metta.TypesystemMod.Def

namespace Metta.ContextMod

open Metta.Machine Metta.TypesystemMod

/-- A name or a pathname. -/
abbrev Name := List UInt8

/-- The exceptions of `naming_context_v1`, and `type_system_v1.bad_code`. -/
inductive Raise where
  | exists_
  | notContext
  | notFound (name : Name)
  | badCode (tc : Code)
  deriving DecidableEq

/-- How a call can end without a result. -/
inductive Halt where
  | raised (e : Raise)
  /-- OS_RAISE before `PVS(exceptions)` is set up. -/
  | noExceptions
  | outOfFuel
  deriving DecidableEq

/-- A type system that knows all type codes. -/
def answers (isContext : Code → Bool) : Code → Except Code Bool := fun tc => .ok (isContext tc)

/-- The contexts, by the addresses of their closures. -/
structure World where
  contexts : Nat → Option (UnorderedMap Name Any)

namespace World

/-- `map.find` in the context at `self`. -/
def find (w : World) (self : Nat) (key : Name) : Option Any :=
  (w.contexts self).bind fun map => map.find key

/-- `map.insert` in the context at `self`. -/
def insert (w : World) (self : Nat) (key : Name) (value : Any) : World where
  contexts := Function.update w.contexts self
    ((w.contexts self).map fun map => (map.insert key value).1)

/-- `map.erase` in the context at `self`. -/
def erase (w : World) (self : Nat) (key : Name) : World where
  contexts := Function.update w.contexts self ((w.contexts self).map fun map => map.erase key)

/-- The closure that `narrow` gives: a pointer has 32 bits. -/
def closureOf (value : Any) : Nat := value.value.toNat % 2 ^ 32

variable (isType : Code → Except Code Bool) (exceptions : Bool)

/-- `get`, with fuel for its recursion; `none` is for false. -/
def getFrom (w : World) : Nat → Nat → Name → Except Halt (Option Any)
  | 0, _, _ => .error .outOfFuel
  | fuel + 1, self, key =>
      let refs := split dot key
      let key := if refs.2 ≠ [] then refs.1 else key
      let it := w.find self key
      if refs.2 = [] then .ok it
      else
        match it with
        | some result =>
            match isType result.type_ with
            | .ok true => w.getFrom fuel (closureOf result) refs.2
            | .ok false => if exceptions then .error (.raised .notContext) else .ok none
            | .error tc => .error (if exceptions then .raised (.badCode tc) else .noExceptions)
        | none => .ok none

/-- `get`: the rest of a pathname is shorter. -/
def get (w : World) (self : Nat) (key : Name) : Except Halt (Option Any) :=
  w.getFrom isType exceptions (key.length + 1) self key

/-- `add`, with fuel for its recursion and with how it ends, if it does not return. -/
def addFrom (w : World) : Nat → Nat → Name → Any → World × Option Halt
  | 0, _, _, _ => (w, some .outOfFuel)
  | fuel + 1, self, key, value =>
      let refs := split dot key
      let key := if refs.2 ≠ [] then refs.1 else key
      let it := w.find self key
      if refs.2 = [] then
        match it with
        | some _ => (w, some (.raised .exists_))
        | none => (w.insert self key value, none)
      else
        match it with
        | some result =>
            match isType result.type_ with
            | .ok true => w.addFrom fuel (closureOf result) refs.2 value
            | .ok false => (w, some (.raised .notContext))
            | .error tc => (w, some (.raised (.badCode tc)))
        | none => (w, some (.raised (.notFound key)))

/-- `add`. -/
def add (w : World) (self : Nat) (key : Name) (value : Any) : World × Option Halt :=
  w.addFrom isType (key.length + 1) self key value

/-- `remove`, with fuel for its recursion and with how it ends, if it does not return. -/
def removeFrom (w : World) : Nat → Nat → Name → World × Option Halt
  | 0, _, _ => (w, some .outOfFuel)
  | fuel + 1, self, key =>
      let refs := split dot key
      let key := if refs.2 ≠ [] then refs.1 else key
      let it := w.find self key
      if refs.2 = [] then
        match it with
        | some _ => (w.erase self key, none)
        | none => (w, some (.raised (.notFound key)))
      else
        match it with
        | some result =>
            match isType result.type_ with
            | .ok true =>
                match w.removeFrom fuel (closureOf result) refs.2 with
                -- when the call has returned, the next statement raises
                | (w, none) => (w, some (.raised (.notFound key)))
                | (w, some e) => (w, some e)
            | .ok false => (w, some (.raised .notContext))
            | .error tc => (w, some (.raised (.badCode tc)))
        | none => (w, some (.raised (.notFound key)))

/-- `remove`. -/
def remove (w : World) (self : Nat) (key : Name) : World × Option Halt :=
  w.removeFrom isType (key.length + 1) self key

/-- `create_context`, with the closure at `a`. -/
def createContext (w : World) (a : Nat) : World where
  contexts := Function.update w.contexts a (some .empty)

/-- No contexts. -/
def empty : World := ⟨fun _ => none⟩

end World

/-- A call. -/
inductive Op where
  | createContext (a : Nat)
  | add (self : Nat) (key : Name) (value : Any)

/-- A call in a world. -/
def World.step (isType : Code → Except Code Bool) (w : World) : Op → World
  | .createContext a => w.createContext a
  | .add self key value => (w.add isType self key value).1

/-- Calls, one after the other. -/
def World.run (isType : Code → Except Code Bool) (w : World) (ops : List Op) : World :=
  ops.foldl (World.step isType) w

end Metta.ContextMod
