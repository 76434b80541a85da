import Lockstep.Named

set_option autoImplicit false

/-! # Opcodes

The instruction set: what an instruction does, apart from its operands. Calls of shader intrinsics
are one opcode; which intrinsic is called is said by the callee (`Lockstep.Program.Intrinsic`). -/

namespace Lockstep

/-- What an instruction does. -/
inductive Opcode
  | noOp | call
  | ret | br | switch | unreachable
  | phi | select | extractVal | insertValue
  | alloca | load | loadAtomic | store | storeAtomic | getElementPtr | fence | compareExchange
  | atomicExchange | atomicAdd | atomicSub | atomicAnd | atomicNand | atomicOr | atomicXor
  | atomicMax | atomicMin | atomicUMax | atomicUMin | addrSpaceCast
  | add | sub | mul | uDiv | sDiv | uRem | sRem | and | or | xor | shiftLeft | logicalShiftRight
  | arithShiftRight
  | fAdd | fSub | fMul | fDiv | fRem
  | fOrdFalse | fOrdEqual | fOrdGreater | fOrdGreaterEqual | fOrdLess | fOrdLessEqual
  | fOrdNotEqual | fOrd | fUnord | fUnordEqual | fUnordGreater | fUnordGreaterEqual | fUnordLess
  | fUnordLessEqual | fUnordNotEqual | fOrdTrue
  | iEqual | iNotEqual | uGreater | uGreaterEqual | uLess | uLessEqual | sGreater | sGreaterEqual
  | sLess | sLessEqual
  | trunc | zExt | sExt | fToU | fToS | uToF | sToF | fpTrunc | fpExt | ptrToI | iToPtr | bitcast
  | extractElement | insertElement | shuffleVector
deriving DecidableEq, Repr, Inhabited

instance : Named Opcode where
  listing := [
    (.noOp, "NoOp"), (.call, "Call"), (.ret, "Ret"), (.br, "Br"), (.switch, "Switch"),
    (.unreachable, "Unreachable"), (.phi, "Phi"), (.select, "Select"), (.extractVal, "ExtractVal"),
    (.insertValue, "InsertValue"), (.alloca, "Alloca"), (.load, "Load"),
    (.loadAtomic, "LoadAtomic"), (.store, "Store"), (.storeAtomic, "StoreAtomic"),
    (.getElementPtr, "GetElementPtr"), (.fence, "Fence"), (.compareExchange, "CompareExchange"),
    (.atomicExchange, "AtomicExchange"), (.atomicAdd, "AtomicAdd"), (.atomicSub, "AtomicSub"),
    (.atomicAnd, "AtomicAnd"), (.atomicNand, "AtomicNand"), (.atomicOr, "AtomicOr"),
    (.atomicXor, "AtomicXor"), (.atomicMax, "AtomicMax"), (.atomicMin, "AtomicMin"),
    (.atomicUMax, "AtomicUMax"), (.atomicUMin, "AtomicUMin"), (.addrSpaceCast, "AddrSpaceCast"),
    (.add, "Add"), (.sub, "Sub"), (.mul, "Mul"), (.uDiv, "UDiv"), (.sDiv, "SDiv"), (.uRem, "URem"),
    (.sRem, "SRem"), (.and, "And"), (.or, "Or"), (.xor, "Xor"), (.shiftLeft, "ShiftLeft"),
    (.logicalShiftRight, "LogicalShiftRight"), (.arithShiftRight, "ArithShiftRight"),
    (.fAdd, "FAdd"), (.fSub, "FSub"), (.fMul, "FMul"), (.fDiv, "FDiv"), (.fRem, "FRem"),
    (.fOrdFalse, "FOrdFalse"), (.fOrdEqual, "FOrdEqual"), (.fOrdGreater, "FOrdGreater"),
    (.fOrdGreaterEqual, "FOrdGreaterEqual"), (.fOrdLess, "FOrdLess"),
    (.fOrdLessEqual, "FOrdLessEqual"), (.fOrdNotEqual, "FOrdNotEqual"), (.fOrd, "FOrd"),
    (.fUnord, "FUnord"), (.fUnordEqual, "FUnordEqual"), (.fUnordGreater, "FUnordGreater"),
    (.fUnordGreaterEqual, "FUnordGreaterEqual"), (.fUnordLess, "FUnordLess"),
    (.fUnordLessEqual, "FUnordLessEqual"), (.fUnordNotEqual, "FUnordNotEqual"),
    (.fOrdTrue, "FOrdTrue"), (.iEqual, "IEqual"), (.iNotEqual, "INotEqual"),
    (.uGreater, "UGreater"), (.uGreaterEqual, "UGreaterEqual"), (.uLess, "ULess"),
    (.uLessEqual, "ULessEqual"), (.sGreater, "SGreater"), (.sGreaterEqual, "SGreaterEqual"),
    (.sLess, "SLess"), (.sLessEqual, "SLessEqual"), (.trunc, "Trunc"), (.zExt, "ZExt"),
    (.sExt, "SExt"), (.fToU, "FToU"), (.fToS, "FToS"), (.uToF, "UToF"), (.sToF, "SToF"),
    (.fpTrunc, "FPTrunc"), (.fpExt, "FPExt"), (.ptrToI, "PtrToI"), (.iToPtr, "IToPtr"),
    (.bitcast, "Bitcast"), (.extractElement, "ExtractElement"), (.insertElement, "InsertElement"),
    (.shuffleVector, "ShuffleVector")]

namespace Opcode

/-- Whether the instruction ends its basic block. -/
def isTerminator : Opcode → Bool
  | .br | .switch | .ret | .unreachable => true
  | _ => false

/-- Whether the instruction reads, combines and writes a place in memory as one. -/
def isAtomicUpdate : Opcode → Bool
  | .atomicExchange | .atomicAdd | .atomicSub | .atomicAnd | .atomicNand | .atomicOr | .atomicXor
  | .atomicMax | .atomicMin | .atomicUMax | .atomicUMin => true
  | _ => false

end Opcode

end Lockstep
