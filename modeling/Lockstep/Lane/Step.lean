import Lockstep.Exec.Dispatch

set_option autoImplicit false

/-! # One step of a lane

The lane executes one instruction and does what the outcome asks: it drops the identifiers whose
last read is behind it, assigns the result, or goes on at another block. The reporting lane gets a
state that says what changed. -/

namespace Lockstep

namespace Lane

/-- The instruction that a lane executes next, with the analysis of its function. -/
def nextInstr (l : Lane) (p : Program) (as : Analyses) : Except Fault (FunctionAnalysis × Instr) :=
  match as.of? l.function, p.functions[l.function]? with
  | none, _ => .error (.program (.notAnalysed l.function))
  | some _, none => .error (.program (.noFunction l.function))
  | some a, some f =>
    match f.instrs[l.instr]? with
    | none => .error (.program (.ranOff l.index f.name))
    | some i => .ok (a, i)

/-- Move to the next instruction of the function. -/
def advanced (l : Lane) : Lane :=
  { l with instr := l.instr + 1, globalInstr := l.globalInstr + 1 }

/-- The values that phi nodes read when control leaves a block. -/
def phiSnapshot (l : Lane) (a : FunctionAnalysis) (block : Nat) : Table Id Variable :=
  .ofList ((a.phiReadsOf block).filterMap fun id => (l.value? id).map fun v => (id, v))

/-- Go on at the start of a block, and keep what its phi nodes read. -/
def jumpTo (l : Lane) (a : FunctionAnalysis) (block : Nat) : Except Fault Lane :=
  match a.start? block with
  | none => .error (.program (.unknownBlock block))
  | some start =>
    .ok { l with
      previousBlock := l.block
      phiValues := l.phiSnapshot a l.block
      block
      instr := start
      globalInstr := a.offset + start }

/-- The change that an assignment is reported as. -/
def assignment (l : Lane) (id : Id) (v : Variable) : Change :=
  match l.value? id with
  | some before => .updated before v
  | none => .created v

end Lane

namespace Step

/-- Drop the identifiers whose last read is behind the lane, but not one that is kept, and report
    them. -/
def retire (a : FunctionAnalysis) (keep : Option Id) : Step Unit := do
  let l ← lane
  (l.retiring a keep).forM fun id => note (.removed ((l.value? id).getD .empty))
  modifyLane fun l => l.retire a keep

/-- Report an assignment, and whether its value has a component that is not finite. -/
def announce (id : Id) (v : Variable) : Step Unit := do
  if v.hasNonFinite then raise .generatedNonFinite
  note ((← lane).assignment id v)

/-- Assign a result and bring it into scope. Subnormal components become zeros if the instruction
    flushes. -/
def assign (i : Instr) (id : Id) (v : Variable) (report : Bool) : Step Unit := do
  let l ← lane
  if !l.hasPlace id then throw (.program (.resultOutOfRange id))
  let v := if i.isFlushing then v.flushed else v
  if report then announce id v
  modifyLane fun l => (l.assign id v).bringIntoScope id

/-- Do what an effect asks. -/
def apply (a : FunctionAnalysis) (i : Instr) : Effect → Step Unit
  | .proceed => retire a none
  | .assign id v report => do
    retire a (some id)
    assign i id v report
  | .kill => modifyLane fun l => { l with isKilled := true }

/-- Do what an outcome asks. -/
def conclude (a : FunctionAnalysis) (i : Instr) : Outcome → Step Unit
  | .effect e => apply a i e
  | .jump block => do
    let l ← (← lane).jumpTo a block
    modifyLane fun _ => l
    retire a none
  | .leave => modifyLane fun l => { l with isEnded := true }

/-- Execute the next instruction. -/
def execute (s : Setting) : Step Unit := do
  let (a, i) ← (← lane).nextInstr s.program s.analyses
  modifyLane Lane.advanced
  conclude a i (← instruction s i)

end Step

/-- What a step of a lane leaves behind. -/
structure Stepped where
  lane : Lane
  world : World
  /-- The state to report, or why the step failed. The number of the step is not set. -/
  result : Except Fault StepState

/-- The state that a machine reports. A lane that has returned stays at its last instruction. -/
def Machine.state (m : Machine) (start : Nat) : StepState :=
  { next := if m.lane.isEnded then start else m.lane.globalInstr
    events := m.events
    changes := m.changes.toList }

/-- Step a lane once; a lane that is finished does not move. What was done before a fault stays
    done. -/
def Lane.step (l : Lane) (s : Setting) (w : World) : Stepped :=
  let m : Machine := { lane := l, world := w }
  if l.isFinished then { lane := l, world := w, result := .ok (m.state l.globalInstr) }
  else
    match (Step.execute s).on m with
    | (.error fault, m) => { lane := m.lane, world := m.world, result := .error fault }
    | (.ok (), m) => { lane := m.lane, world := m.world, result := .ok (m.state l.globalInstr) }

end Lockstep
