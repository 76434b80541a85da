import Lockstep.Lane.Step
import Lockstep.Config

set_option autoImplicit false

/-! # Sessions

A session runs a group of lanes in lockstep and reports the steps of one of them. In a round every
lane that may run steps once, in order of the lane numbers; afterwards the lanes read the global
variables again if one of them wrote to memory. A fault ends the session; what was done before it
stays done. -/

namespace Lockstep

/-- A session. -/
structure Session where
  program : Program
  bindings : Bindings
  analyses : Analyses
  /-- For each identifier, whether it is a global variable. -/
  liveGlobals : Array Bool
  lanes : List Lane
  /-- The number of the reporting lane. -/
  active : Nat
  config : Config
  world : World
  /-- How many states have been reported. -/
  steps : Nat := 0
  isStarted : Bool := false
  isTerminated : Bool := false
deriving Inhabited

/-- What a computation leaves of a session, and its result or fault. -/
structure Progress (α : Type) where
  session : Session
  result : Except Fault α

namespace World

/-- Allocate a global variable, and give its value. An initial value is written through its
    bytes. -/
def allocateGlobal (w : World) (g : GlobalDecl) : Except Fault (Variable × World) := do
  let (v, memory) ← w.memory.allocateFor g.ty g.id true g.name
  match g.init, memory.pointer? g.id with
  | some init, some p =>
    let memory ← memory.write p init.toVariable.toBytes
    return (← memory.reload g.id v, { w with memory })
  | _, _ => return (v, { w with memory })

end World

namespace Session

/-- Allocate global variables, and add them to those that are in scope from the start. -/
def allocateGlobals (b : Bindings) (live : Array Bool) (w : World) :
    List GlobalDecl → Except Fault (Bindings × Array Bool × World)
  | [] => .ok (b, live, w)
  | g :: gs => do
    let (v, w) ← w.allocateGlobal g
    if live.size ≤ g.id.index then throw (.program (.globalOutOfRange g.id))
    allocateGlobals (b.addGlobal g.id v) (live.setIfInBounds g.id.index true) w gs

/-- Set up a session: analyse the program, allocate its global variables and make the lanes. -/
def new (p : Program) (b : Bindings) (w : World) (inits : List LaneInit) (active : Nat)
    (config : Config) : Except Fault Session := do
  if inits.length ≤ active then throw (.program (.activeLane active inits.length))
  let analyses ← FunctionAnalysis.ofProgram p
  let (bindings, liveGlobals, world) ←
    allocateGlobals b (Array.replicate p.idCount false) w p.globals
  let lanes := inits.mapIdx fun i init => Lane.new i p init
  return { program := p, bindings, analyses, liveGlobals, lanes, active, config, world }

/-- The reporting lane. -/
def activeLane? (s : Session) : Option Lane := s.lanes[s.active]?

/-- Whether the reporting lane has nothing left to run. -/
def isFinished (s : Session) : Bool := s.activeLane?.all Lane.isFinished

/-- The lanes that may run now. -/
def mask (s : Session) : List Bool := activeMask s.program.stage s.lanes s.analyses

/-! ## Entering -/

/-- Enter the program with the lanes from number `index` on, `count` of them. -/
def enterLanes (s : Session) : (index count : Nat) → Progress Unit
  | _, 0 => { session := s, result := .ok () }
  | index, n + 1 =>
    match s.lanes[index]? with
    | none => { session := s, result := .ok () }
    | some l =>
      let (result, l) := l.enter s.program s.bindings s.analyses s.liveGlobals
      let s := { s with lanes := s.lanes.set index l }
      match result with
      | .error fault => { session := s, result := .error fault }
      | .ok () => enterLanes s (index + 1) n

/-- Enter the program with all lanes, and report the state before the first step. -/
def start (s : Session) : Progress (List StepState) :=
  let entered := enterLanes { s with isStarted := true } 0 s.lanes.length
  let s := entered.session
  match entered.result with
  | .error fault => { session := s, result := .error fault }
  | .ok () =>
    let states := s.activeLane?.toList.map fun l =>
      { l.initialState s.bindings with index := s.steps }
    { session := { s with steps := s.steps + 1 }, result := .ok states }

/-! ## Rounds -/

/-- What a step of a lane reads. -/
def setting (s : Session) (host : Host) (index : Nat) : Setting :=
  { program := s.program, bindings := s.bindings, analyses := s.analyses, host,
    group := s.lanes, recording := index == s.active }

/-- Put a lane and the shared state in their places after a step. -/
def update (s : Session) (index : Nat) (stepped : Stepped) : Session :=
  { s with lanes := s.lanes.set index stepped.lane, world := stepped.world }

/-- Step one lane; only the reporting lane gives a state. -/
def stepLane (s : Session) (host : Host) (index : Nat) : Progress (List StepState) :=
  match s.lanes[index]? with
  | none => { session := s, result := .ok [] }
  | some l =>
    let stepped := l.step (s.setting host index) s.world
    let s := s.update index stepped
    match stepped.result with
    | .error fault => { session := s, result := .error fault }
    | .ok state =>
      if index = s.active then
        { session := { s with steps := s.steps + 1 },
          result := .ok [{ state with index := s.steps }] }
      else { session := s, result := .ok [] }

/-- Step those lanes that a mask allows, numbered from `index` on. -/
def stepLanes (s : Session) (host : Host) : (index : Nat) → List Bool → Progress (List StepState)
  | _, [] => { session := s, result := .ok [] }
  | index, false :: rest => s.stepLanes host (index + 1) rest
  | index, true :: rest =>
    let stepped := s.stepLane host index
    match stepped.result with
    | .error fault => { session := stepped.session, result := .error fault }
    | .ok states =>
      let others := stepped.session.stepLanes host (index + 1) rest
      { others with result := others.result.map (states ++ ·) }

/-- Read the global variables again in the lanes from number `index` on, `count` of them. -/
def refreshLanes (s : Session) : (index count : Nat) → Progress Unit
  | _, 0 => { session := s, result := .ok () }
  | index, n + 1 =>
    match s.lanes[index]? with
    | none => { session := s, result := .ok () }
    | some l =>
      let (result, l) := l.refreshGlobals s.world.memory s.bindings.globals
      let s := { s with lanes := s.lanes.set index l }
      match result with
      | .error fault => { session := s, result := .error fault }
      | .ok () => refreshLanes s (index + 1) n

/-- Read the global variables again in all lanes, unless there have been no writes to memory since
    there were `writes`. -/
def refresh (s : Session) (writes : Nat) : Progress Unit :=
  if s.world.memory.writes = writes then { session := s, result := .ok () }
  else s.refreshLanes 0 s.lanes.length

/-- Move the lanes of a mask past markers. -/
def skipNops (s : Session) (mask : List Bool) : Session :=
  { s with lanes := s.lanes.mapIdx fun i l =>
      if mask[i]?.getD false then l.skipNops s.program else l }

/-- Run one round: the lanes that may run step once each. -/
def round (s : Session) (host : Host) : Progress (List StepState) :=
  let mask := s.mask
  let stepped := s.stepLanes host 0 mask
  match stepped.result with
  | .error fault => { session := stepped.session, result := .error fault }
  | .ok states =>
    let refreshed := stepped.session.refresh s.world.memory.writes
    match refreshed.result with
    | .error fault => { session := refreshed.session, result := .error fault }
    | .ok () => { session := refreshed.session.skipNops mask, result := .ok states }

/-- Run rounds until the reporting lane has made enough steps in all or has finished. There is no
    answer when that takes more rounds than are allowed. -/
def runUntil (host : Host) (stop : Nat) :
    (rounds : Nat) → (s : Session) → (acc : Array StepState) → Option (Progress (List StepState))
  | 0, _, _ => none
  | n + 1, s, acc =>
    if s.steps ≥ stop ∨ s.isFinished then some { session := s, result := .ok acc.toList }
    else
      match s.config.maxTotalSteps.filter (·.toNat ≤ s.steps) with
      | some limit => some { session := s, result := .error (.stepLimit limit.toNat) }
      | none =>
        let done := s.round host
        match done.result with
        | .error fault => some { session := done.session, result := .error fault }
        | .ok states => runUntil host stop n done.session (acc.append states.toArray)

/-! ## Continuing -/

/-- Run the session forward. The first call gives the state before the first step; each later one
    gives as many states as the configuration allows, and none when the reporting lane has
    finished. -/
def run (s : Session) (host : Host) (rounds : Nat) : Option (Progress (List StepState)) :=
  if s.isStarted then runUntil host (s.steps + s.config.stepsPerContinue.toNat) rounds s #[]
  else some s.start

/-- Run the session forward unless it has been terminated. A fault terminates it. -/
def resume (s : Session) (host : Host) (rounds : Nat) : Option (Progress (List StepState)) :=
  if s.isTerminated then some { session := s, result := .error .sessionTerminated }
  else
    (s.run host rounds).map fun done =>
      match done.result with
      | .ok _ => done
      | .error _ => { done with session := { done.session with isTerminated := true } }

end Session

end Lockstep
