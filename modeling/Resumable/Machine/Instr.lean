import Resumable.Tree.Node

/-!
# Instructions

A body as the machine executes it: instructions in a row, and the regions that its tries cover.
The range of a try includes the jump that completes it, so that jump leaves the region like any
other.
-/

set_option autoImplicit false

namespace Resumable.Machine

open Resumable.Symbol Resumable.Tree

/-- An instruction; `τ` says what jumps go to. -/
inductive Instr (τ : Type) where
  /-- Evaluate an expression for its effect. -/
  | exec (e : Expr)
  | jump (target : τ)
  /-- Jump if the condition is `whenTrue`. -/
  | branch (condition : Expr) (whenTrue : Bool) (target : τ)
  /-- Jump to the target of the first case of the scrutinee's value. -/
  | dispatch (scrutinee : Expr) (cases : List (Int × τ)) (otherwise : τ)
  /-- Return the value of an expression; `absent` returns nothing. -/
  | return (e : Expr)
  | throw (e : Expr)
  /-- Throw again what the innermost handler has caught. -/
  | rethrow
  | enterCatch
  | endCatch
  | endFinally
  /-- Do nothing. -/
  | mark
  deriving Repr, Inhabited

/-- Instructions from `start` up to, but not including, `stop`. -/
structure Range where
  start : Nat
  stop : Nat
  deriving DecidableEq, Repr, Inhabited

namespace Range

/-- The instruction is in the range. -/
def covers (r : Range) (pc : Nat) : Bool := r.start ≤ pc && pc < r.stop

/-- The whole range is inside another one. -/
def isWithin (r outer : Range) : Bool := outer.start ≤ r.start && r.stop ≤ outer.stop

end Range

/-- A handler: its instructions, the first of which enters it, up to the one that ends it, and
the variable that receives what was thrown. -/
structure Handler where
  range : Range
  target : Option Local
  deriving DecidableEq, Repr, Inhabited

namespace Handler

/-- Where the handler's own statements are. -/
def body (h : Handler) : Range := ⟨h.range.start + 1, h.range.stop⟩

end Handler

/-- What a try became: its guarded instructions, its handlers, and its finally. -/
structure Region where
  guarded : Range
  handlers : List Handler
  cleanup : Option Range
  deriving DecidableEq, Repr, Inhabited

/-- A body that can be executed.  Regions are listed outer ones first. -/
structure Routine where
  method : Method
  instrs : Array (Instr Nat)
  regions : List Region
  deriving Inhabited

namespace Routine

/-- All instructions. -/
def range (r : Routine) : Range := ⟨0, r.instrs.size⟩

/-- The regions inside a scope that guard an instruction, innermost first. -/
def regionsAt (r : Routine) (pc : Nat) (scope : Range) : List Region :=
  (r.regions.filter fun region =>
    region.guarded.covers pc && region.guarded.isWithin scope).reverse

end Routine

end Resumable.Machine
