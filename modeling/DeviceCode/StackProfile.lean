import DeviceCode.Instruction
import DeviceCode.Queue

/-!
# Stack profiles

The depth of the operand stack at the entry of every instruction that control can reach, found by a
breadth-first walk from the first instruction. The order of the walk is kept: every instruction but
the first is listed after the one that it was reached from.
-/

namespace DeviceCode

/-- One step of the walk: the instruction that was reached, and from which one. -/
structure Visit where
  index : Nat
  origin : Option Nat
  deriving DecidableEq, Inhabited

structure StackProfile where
  /-- The depth at the entry of each instruction; none for one that cannot be reached. -/
  depths : Array (Option Nat) := #[]
  /-- Every instruction that can be reached, once each, in the order of the walk. -/
  order : Array Visit := #[]
  /-- The greatest depth before or after any instruction. -/
  maxDepth : Nat := 0
  deriving DecidableEq, Inhabited

inductive ProfileError where
  /-- Two paths reach the instruction with different depths. -/
  | inconsistent (index expected found : Nat)
  /-- The instruction takes more than the stack holds. -/
  | underflow (index pops depth : Nat)
  /-- The instruction names a target outside the body. -/
  | targetOutOfRange (index target : Nat)
  deriving DecidableEq, Inhabited

namespace StackProfile

def depth? (s : StackProfile) (index : Nat) : Option Nat := s.depths[index]?.join

def isReachable (s : StackProfile) (index : Nat) : Bool := (s.depth? index).isSome

/-- An instruction still to be visited, and the depth with which it is reached. -/
structure Pending where
  visit : Visit
  depth : Nat

/-- Visits an instruction: a known one must agree on the depth, a new one adds its successors. -/
def enter (code : Array Instruction) (effect : Nat → Op → Nat × Nat) (s : StackProfile)
    (v : Pending) : Except ProfileError (StackProfile × List Pending) :=
  let index := v.visit.index
  match s.depth? index, code[index]? with
  | some known, _ =>
    if known = v.depth then .ok (s, []) else .error (.inconsistent index known v.depth)
  | none, none => .ok (s, [])
  | none, some instruction =>
    let (pops, pushes) := effect index instruction.op
    if v.depth < pops then .error (.underflow index pops v.depth)
    else
      let after := v.depth - pops + pushes
      match instruction.op.targets.find? (code.size ≤ ·) with
      | some target => .error (.targetOutOfRange index target)
      | none =>
        .ok ({ depths := s.depths.setIfInBounds index (some v.depth)
               order := s.order.push v.visit
               maxDepth := max s.maxDepth (max v.depth after) },
          (instruction.op.successors index code.size).map fun next => ⟨⟨next, some index⟩, after⟩)

/-- Visits what is pending, first come first served, for at most `bound` visits. -/
def explore (code : Array Instruction) (effect : Nat → Op → Nat × Nat) :
    (bound : Nat) → Queue Pending → StackProfile → Except ProfileError StackProfile
  | 0, _, s => .ok s
  | n + 1, pending, s =>
    match pending.pop? with
    | none => .ok s
    | some (v, rest) => do
      let (s', next) ← enter code effect s v
      explore code effect n (rest.pushAll next) s'

/-- A bound on the visits: the first, and one for every way out of an instruction. -/
def visitBound (code : Array Instruction) : Nat :=
  code.foldl (fun n i => n + (i.op.targets.length + 1)) 1

/-- The profile of a body. `effect` says what the instruction at a position takes and leaves. -/
def analyze (code : Array Instruction) (effect : Nat → Op → Nat × Nat) :
    Except ProfileError StackProfile :=
  let start : StackProfile := { depths := Array.replicate code.size none }
  if code.isEmpty then .ok start
  else explore code effect (visitBound code) (.ofList [⟨⟨0, none⟩, 0⟩]) start

end StackProfile

end DeviceCode
