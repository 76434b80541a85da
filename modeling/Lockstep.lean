import Lockstep.Table
import Lockstep.Bytes
import Lockstep.Normalized
import Lockstep.Decimal
import Lockstep.Program.Opcode
import Lockstep.Program.Intrinsic
import Lockstep.Variable
import Lockstep.Program.Builder
import Lockstep.Memory
import Lockstep.View.Window
import Lockstep.Flow.Control
import Lockstep.Flow.Liveness
import Lockstep.Report
import Lockstep.Host.Unbound
import Lockstep.World
import Lockstep.Lane.Basic
import Lockstep.Exec.Number
import Lockstep.Exec.Vector
import Lockstep.Exec.Branch
import Lockstep.Exec.Pointer
import Lockstep.Exec.Math
import Lockstep.Exec.Signature
import Lockstep.Exec.Quad
import Lockstep.View.Access
import Lockstep.Exec.Handle
import Lockstep.Exec.Buffer
import Lockstep.Exec.Sample
import Lockstep.Lane.Step
import Lockstep.Session
import Lockstep.Json.State
import Lockstep.Proofs.Flow.Uniform
import Lockstep.Proofs.Blocks
import Lockstep.Proofs.Session.Reconverge
import Lockstep.Proofs.Session.Waiting
import Lockstep.Proofs.Session.Quiet
import Lockstep.Proofs.Exec.Derivative
import Lockstep.Proofs.Lane.Turn
import Lockstep.Proofs.Lane.LoopReads
import Lockstep.Proofs.Session.Apart
import Lockstep.Proofs.Session.Replay
import Lockstep.Proofs.Session.Canonical
import Lockstep.Proofs.Lane.History
import Lockstep.Proofs.Typing.Session
import Lockstep.Proofs.Session.Barrier
import Lockstep.Proofs.Session.Account
import Lockstep.Proofs.Session.Quad
import Lockstep.Proofs.Session.Changes
import Lockstep.Proofs.Session.Unassigned
import Lockstep.Proofs.Builder
import Lockstep.Proofs.Lane.Reload
import Lockstep.Proofs.Session.Journal
import Lockstep.Proofs.Lane.Trail
import Lockstep.Proofs.Lane.InView
import Lockstep.Proofs.View.ByteAddress
import Lockstep.Proofs.Session.Tally
import Lockstep.Proofs.Lane.Integer
import Lockstep.Proofs.Lane.Phi
import Lockstep.Proofs.Parts
import Lockstep.Proofs.Lane.Element
import Lockstep.Proofs.View.Misses
import Lockstep.Proofs.Lane.Degraded
import Lockstep.Proofs.Flow.Accepts
import Lockstep.Proofs.Lane.Stack
import Lockstep.Proofs.Session.Derived
import Lockstep.Proofs.Lane.Creation
import Lockstep.Proofs.Lane.Register
import Lockstep.Proofs.Lane.Signature
import Lockstep.Proofs.Lane.BitScan
import Lockstep.Proofs.Lane.IntMath
import Lockstep.Proofs.Session.Flush
import Lockstep.Proofs.View.Recode
import Lockstep.Proofs.Flatten
import Lockstep.Proofs.Session.Pointers
import Lockstep.Proofs.Session.Counters
