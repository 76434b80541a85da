import Lockstep.Exec.Operand

set_option autoImplicit false

/-! # Elements of vectors and aggregates -/

namespace Lockstep

namespace Lane

/-- Walk into a value along the operands from `index` on. Members are entered; a value without
    members can be indexed once, at the end, by component. -/
def extractFrom (l : Lane) (i : Instr) (id : Id) (result : Variable) (current : Variable) :
    (index count : Nat) → Except Fault Effect
  | _, 0 => .ok (.value id (current.withName (i.resultName id)))
  | index, n + 1 => do
    let pick ← l.argNat i index
    if current.members.isEmpty then
      if n ≠ 0 ∨ pick ≥ current.compCount then
        throw (.program (.extractIndex pick current.compCount))
      return .value id (result.set 0 (current.get pick))
    else
      match current.members[pick]? with
      | none => throw (.program (.extractMember pick))
      | some m => l.extractFrom i id result m (index + 1) n

/-- The component of two vectors, one after the other, that a shuffle picks. -/
def shufflePick (a b : Variable) (pick : Nat) : Except Fault UInt64 :=
  if pick < a.compCount then .ok (a.get pick)
  else if pick - a.compCount < b.compCount then .ok (b.get (pick - a.compCount))
  else .error (.program (.shuffleLane pick))

/-- Elements of vectors and aggregates. -/
def vector (l : Lane) (i : Instr) : Except Fault Effect := do
  let (id, result) ← i.blank
  let a ← l.arg i 0
  match i.op with
  | .extractVal =>
    if i.args.length < 2 then throw (.program .extractWithoutIndex)
    l.extractFrom i id result a 1 (i.args.length - 1)
  | .extractElement =>
    let pick ← l.argNat i 1
    if pick ≥ a.compCount then throw (.program (.extractElementIndex pick a.compCount))
    return .value id (result.set 0 (a.get pick))
  | .insertElement =>
    let b ← l.arg i 1
    let pick ← l.argNat i 2
    if pick ≥ result.compCount then throw (.program (.insertElementIndex pick result.compCount))
    return .value id ({ result with value := a.value }.set pick (b.get 0))
  | .shuffleVector =>
    let b ← l.arg i 1
    let picks ← l.arg i 2
    let words ← (List.range result.compCount).mapM fun c => shufflePick a b (picks.get c).toNat
    return .value id (result.fill fun c => words[c]?.getD 0)
  | _ => throw (.unsupportedOpcode i.op)

end Lane

end Lockstep
