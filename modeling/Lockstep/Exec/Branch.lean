import Lockstep.Exec.Operand

set_option autoImplicit false

/-! # Branches, phi nodes and choices

A branch names the block to go on with. A phi node takes the value that belongs to the block that
control came from, as it was when control left that block, so the phi nodes of a block do not see
each other. -/

namespace Lockstep

namespace Lane

/-- The block that a branch leads to. -/
def branch (l : Lane) (i : Instr) : Except Fault Outcome :=
  match i.args with
  | [.block target] => .ok (.jump target)
  | [.block ifTrue, .block ifFalse, _] =>
    (l.argWord i 2).map fun cond => .jump (if cond &&& 1 ≠ 0 then ifTrue else ifFalse)
  | _ => .error (.program .malformedBranch)

/-- The block of the first case that has a value, or a default. -/
def switchTarget (l : Lane) (value : UInt64) (default : Nat) : List Operand → Except Fault Nat
  | [] => .ok default
  | case :: .block target :: rest => do
    let v ← l.operand case false
    if v.get 0 = value then return target
    l.switchTarget value default rest
  | _ => .error (.program .malformedSwitchCase)

/-- The block that a switch leads to. -/
def switch (l : Lane) (i : Instr) : Except Fault Outcome := do
  let value ← l.argWord i 0
  match i.args[1]?.bind Operand.block? with
  | none => throw (.program .switchWithoutDefault)
  | some default => return .jump (← l.switchTarget value default (i.args.drop 2))

/-- Instructions that end a block. -/
def terminate (l : Lane) (i : Instr) : Except Fault Outcome :=
  match i.op with
  | .ret => .ok .leave
  | .unreachable => .ok (.effect .kill)
  | .br => l.branch i
  | .switch => l.switch i
  | _ => .error (.unsupportedOpcode i.op)

/-- The operand of a phi node for the block that control came from; `none` when there is none. -/
def phiOperand (pred : Nat) : List Operand → Except Fault (Option Operand)
  | [] => .ok none
  | value :: .block b :: rest => if b = pred then .ok (some value) else phiOperand pred rest
  | _ => .error (.program .malformedPhi)

/-- The value that a phi node takes. -/
def phi (l : Lane) (i : Instr) : Except Fault Effect := do
  let id ← i.resultId
  match ← phiOperand l.previousBlock i.args with
  | none => throw (.program (.phiWithoutValue id l.previousBlock l.function))
  | some (.ref src) =>
    match l.phiValues.get? src with
    | none => throw (.unassignedRead src)
    | some v => return .value id (v.withName (i.resultName id))
  | some o =>
    let v ← l.operand o false
    return .value id (v.withName (i.resultName id))

/-- Take each component from one of two values, as the components of a condition say. -/
def mergeBy (cond ifTrue ifFalse : Variable) : Variable :=
  let pick (c : Nat) : UInt64 :=
    if cond.get c &&& 1 ≠ 0 then ifTrue.get c else ifFalse.get c
  { ifFalse with value := ifFalse.value.fill cond.compCount pick }

/-- A choice between two values: component by component when the condition has several. Of a choice
    as a whole, the value that is not taken is not read unless it is the first. -/
def select (l : Lane) (i : Instr) : Except Fault Effect := do
  let id ← i.resultId
  let cond ← l.arg i 2
  let ifTrue ← l.arg i 0
  let chosen ←
    if cond.compCount > 1 then (l.arg i 1).map (mergeBy cond ifTrue)
    else if cond.get 0 &&& 1 ≠ 0 then pure ifTrue
    else l.arg i 1
  return .value id (chosen.withName (i.resultName id))

end Lane

end Lockstep
