set_option autoImplicit false

/-! # Byte strings and little-endian words

Memory and resource contents are lists of bytes. A `slice` is present only when it lies wholly
inside, `splice` overwrites a part and keeps the length, and words are written low byte first. -/

namespace Lockstep

/-- A string of bytes. -/
abbrev Bytes := List UInt8

namespace Bytes

/-- The bytes of positions `start ..< stop`, if that is a range inside the string. -/
def slice? (bs : Bytes) (start stop : Nat) : Option Bytes :=
  if start ≤ stop ∧ stop ≤ bs.length then some ((bs.drop start).take (stop - start)) else none

/-- Overwrite the bytes from `start` on with `new`, if they lie inside the string. -/
def splice? (bs : Bytes) (start : Nat) (new : Bytes) : Option Bytes :=
  if start + new.length ≤ bs.length then
    some (bs.take start ++ new ++ bs.drop (start + new.length))
  else none

/-- `width` bytes of a word, low byte first; bytes past the eighth are zero. -/
def ofWord (w : UInt64) : (width : Nat) → Bytes
  | 0 => []
  | n + 1 => w.toUInt8 :: ofWord (w >>> 8) n

/-- The word whose bytes are given low byte first; bytes past the eighth do not count. -/
def toWord : Bytes → UInt64
  | [] => 0
  | b :: rest => b.toUInt64 ||| (toWord rest <<< 8)

/-- The word of `width` bytes at a position, zero when they are not all present. -/
def wordAt (bs : Bytes) (start width : Nat) : UInt64 :=
  ((bs.slice? start (start + width)).map toWord).getD 0

/-- Overwrite `width` bytes at a position with a word, or nothing when they are not all present. -/
def setWordAt (bs : Bytes) (start width : Nat) (w : UInt64) : Bytes :=
  (bs.splice? start (ofWord w width)).getD bs

@[simp] theorem length_ofWord (w : UInt64) (n : Nat) : (ofWord w n).length = n := by
  induction n generalizing w with
  | zero => rfl
  | succ n ih => simp [ofWord, ih]

/-- Overwriting keeps the length. -/
theorem length_splice? {bs new out : Bytes} {start : Nat} (h : bs.splice? start new = some out) :
    out.length = bs.length := by
  unfold splice? at h
  split at h
  · cases h
    simp only [List.length_append, List.length_take, List.length_drop]
    omega
  · cases h

end Bytes

end Lockstep
