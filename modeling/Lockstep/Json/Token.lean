set_option autoImplicit false

/-! # Tokens of JSON text

The text is read character by character; what has been read of a token is the state of the reader,
so reading is one recursion over the characters. A string may hold escapes of surrogates that do not
pair up; it is a token even so, but one without a text. -/

namespace Lockstep

namespace Json

/-- A token. -/
inductive Token
  | openArray | closeArray | openObject | closeObject | comma | colon
  | null
  | bool (value : Bool)
  /-- A number that is written with digits only. -/
  | natural (value : Nat)
  /-- A number with a sign, a fraction or an exponent. -/
  | number
  /-- A string; without a text when it holds a lone surrogate. -/
  | string (text : Option String)
deriving DecidableEq, Repr, Inhabited

/-! ## Strings -/

/-- What has been read of a string. -/
structure StringPart where
  /-- The characters so far, the last one first. -/
  chars : List Char := []
  /-- A high surrogate that waits for its low one. -/
  high : Option Nat := none
  /-- Whether all surrogates so far have paired up. -/
  isText : Bool := true
deriving Repr

namespace StringPart

/-- Append a character. -/
def push (s : StringPart) (c : Char) : StringPart :=
  { chars := c :: s.chars, isText := s.isText && s.high.isNone }

/-- The character that a high and a low surrogate stand for. -/
def ofPair (high low : Nat) : Char :=
  Char.ofNat (0x10000 + (high - 0xd800) * 0x400 + (low - 0xdc00))

/-- Append a UTF-16 unit that was given by its number. -/
def pushUnit (s : StringPart) (unit : Nat) : StringPart :=
  let isHigh := 0xd800 ≤ unit && unit < 0xdc00
  let isLow := 0xdc00 ≤ unit && unit < 0xe000
  match s.high with
  | some high =>
    if isLow then { chars := ofPair high unit :: s.chars, isText := s.isText }
    else { s with high := none, isText := false }
  | none =>
    if isHigh then { s with high := some unit }
    else if isLow then { s with isText := false }
    else s.push (Char.ofNat unit)

/-- The token of the whole string. -/
def token (s : StringPart) : Token :=
  .string (if s.isText && s.high.isNone then some (String.ofList s.chars.reverse) else none)

end StringPart

/-- The character of an escape by one letter. -/
def escaped? : Char → Option Char
  | '"' => some '"'
  | '\\' => some '\\'
  | '/' => some '/'
  | 'b' => some '\x08'
  | 'f' => some '\x0c'
  | 'n' => some '\n'
  | 'r' => some '\r'
  | 't' => some '\t'
  | _ => none

/-- The value of a hexadecimal digit. -/
def hexDigit? (c : Char) : Option Nat :=
  if '0' ≤ c ∧ c ≤ '9' then some (c.toNat - '0'.toNat)
  else if 'a' ≤ c ∧ c ≤ 'f' then some (c.toNat - 'a'.toNat + 10)
  else if 'A' ≤ c ∧ c ≤ 'F' then some (c.toNat - 'A'.toNat + 10)
  else none

/-! ## Numbers -/

/-- Where in a number the reader is. -/
inductive NumberPart
  | sign | zero | integer | point | fraction | exponent | exponentSign | power
deriving DecidableEq, Repr

namespace NumberPart

/-- Where a character leads that belongs to the number. -/
def next (p : NumberPart) (c : Char) : Option NumberPart :=
  match p with
  | sign => if c = '0' then some zero else if c.isDigit then some integer else none
  | zero => if c = '.' then some point else if c = 'e' ∨ c = 'E' then some exponent else none
  | integer =>
    if c.isDigit then some integer
    else if c = '.' then some point
    else if c = 'e' ∨ c = 'E' then some exponent
    else none
  | point => if c.isDigit then some fraction else none
  | fraction =>
    if c.isDigit then some fraction else if c = 'e' ∨ c = 'E' then some exponent else none
  | exponent =>
    if c.isDigit then some power else if c = '+' ∨ c = '-' then some exponentSign else none
  | exponentSign => if c.isDigit then some power else none
  | power => if c.isDigit then some power else none

/-- Whether the number can end here. -/
def isWhole : NumberPart → Bool
  | zero | integer | fraction | power => true
  | _ => false

/-- Whether the number has digits only, but for a sign. -/
def isIntegral : NumberPart → Bool
  | zero | integer => true
  | _ => false

end NumberPart

/-! ## Reading -/

/-- What has been read of a token. -/
inductive Mode
  | between
  /-- In a word, with what is left of it. -/
  | word (rest : List Char) (token : Token)
  /-- In a number, with the value of its digits when it has no sign. -/
  | number (part : NumberPart) (value : Option Nat)
  | string (s : StringPart)
  | escape (s : StringPart)
  /-- In an escape by number, with the digits that are left and the value of those that were
      read. -/
  | hex (s : StringPart) (left : Nat) (value : Nat)
deriving Repr

/-- The token of a number that ends, if it can. -/
def numberToken? (part : NumberPart) (value : Option Nat) : Option Token :=
  if part.isIntegral then some ((value.map Token.natural).getD .number)
  else if part.isWhole then some .number
  else none

/-- What a character is between two tokens: the tokens that it completes, and what follows. -/
def begin? (c : Char) : Option (List Token × Mode) :=
  if c = ' ' ∨ c = '\n' ∨ c = '\t' ∨ c = '\r' then some ([], .between)
  else if c = '[' then some ([.openArray], .between)
  else if c = ']' then some ([.closeArray], .between)
  -- the braces, by their codes as in `Constant.text`
  else if c = '\x7b' then some ([.openObject], .between)
  else if c = '\x7d' then some ([.closeObject], .between)
  else if c = ',' then some ([.comma], .between)
  else if c = ':' then some ([.colon], .between)
  else if c = '"' then some ([], .string {})
  else if c = 'n' then some ([], .word ['u', 'l', 'l'] .null)
  else if c = 't' then some ([], .word ['r', 'u', 'e'] (.bool true))
  else if c = 'f' then some ([], .word ['a', 'l', 's', 'e'] (.bool false))
  else if c = '-' then some ([], .number .sign none)
  else if c = '0' then some ([], .number .zero (some 0))
  else if c.isDigit then some ([], .number .integer (some (c.toNat - '0'.toNat)))
  else none

/-- Read a character: the tokens that it completes, and what follows. -/
def read? (mode : Mode) (c : Char) : Option (List Token × Mode) :=
  match mode with
  | .between => begin? c
  | .word (r :: rest) token =>
    if c ≠ r then none
    else if rest.isEmpty then some ([token], .between)
    else some ([], .word rest token)
  | .word [] _ => none
  | .number part value =>
    match part.next c with
    | some p =>
      let value := if p.isIntegral then value.map (· * 10 + (c.toNat - '0'.toNat)) else none
      some ([], .number p value)
    | none => do
      let token ← numberToken? part value
      let (tokens, mode) ← begin? c
      return (token :: tokens, mode)
  | .string s =>
    if c = '"' then some ([s.token], .between)
    else if c = '\\' then some ([], .escape s)
    else if c.toNat < 0x20 then none
    else some ([], .string (s.push c))
  | .escape s =>
    if c = 'u' then some ([], .hex s 4 0)
    else (escaped? c).map fun e => ([], .string (s.push e))
  | .hex s left value =>
    (hexDigit? c).map fun d =>
      let value := value * 16 + d
      if left ≤ 1 then ([], .string (s.pushUnit value)) else ([], .hex s (left - 1) value)

/-- The tokens that the end of the text completes. -/
def end? : Mode → Option (List Token)
  | .between => some []
  | .number part value => (numberToken? part value).map fun t => [t]
  | _ => none

/-- Read characters; `acc` has the tokens so far, the last one first. -/
def tokensFrom (mode : Mode) (acc : List Token) : List Char → Option (List Token)
  | [] => (end? mode).map fun ts => (ts.reverse ++ acc).reverse
  | c :: rest =>
    match read? mode c with
    | none => none
    | some (ts, mode) => tokensFrom mode (ts.reverse ++ acc) rest

/-- The tokens of a text, if it consists of tokens. -/
def tokens? (text : String) : Option (List Token) := tokensFrom .between [] text.toList

/-! ## Passing over values -/

/-- An array or an object that has been opened. -/
inductive Frame
  | array | object
deriving DecidableEq, Repr

/-- What has to come next inside a value. -/
inductive Need
  | value | valueOrClose | key | keyOrClose | colon | commaOrClose
deriving DecidableEq, Repr

/-- After a value: it was the whole one, or an array or object goes on. -/
def afterValue : List Frame → Option (Need × List Frame)
  | [] => none
  | frames => some (.commaOrClose, frames)

/-- Pass over a token of a value. The outer `none` is a token that cannot stand here, the inner one
    says that the value is complete. -/
def pass? (need : Need) (frames : List Frame) (t : Token) : Option (Option (Need × List Frame)) :=
  match need, t, frames with
  | .value, .openArray, _ | .valueOrClose, .openArray, _ =>
    some (some (.valueOrClose, .array :: frames))
  | .value, .openObject, _ | .valueOrClose, .openObject, _ =>
    some (some (.keyOrClose, .object :: frames))
  | .valueOrClose, .closeArray, .array :: rest => some (afterValue rest)
  | .value, .null, _ | .valueOrClose, .null, _ => some (afterValue frames)
  | .value, .bool _, _ | .valueOrClose, .bool _, _ => some (afterValue frames)
  | .value, .natural _, _ | .valueOrClose, .natural _, _ => some (afterValue frames)
  | .value, .number, _ | .valueOrClose, .number, _ => some (afterValue frames)
  | .value, .string _, _ | .valueOrClose, .string _, _ => some (afterValue frames)
  | .key, .string _, _ | .keyOrClose, .string _, _ => some (some (.colon, frames))
  | .keyOrClose, .closeObject, .object :: rest => some (afterValue rest)
  | .colon, .colon, _ => some (some (.value, frames))
  | .commaOrClose, .comma, .array :: _ => some (some (.value, frames))
  | .commaOrClose, .comma, .object :: _ => some (some (.key, frames))
  | .commaOrClose, .closeArray, .array :: rest => some (afterValue rest)
  | .commaOrClose, .closeObject, .object :: rest => some (afterValue rest)
  | _, _, _ => none

/-- Pass over the rest of a value and give what follows it. -/
def skipFrom (need : Need) (frames : List Frame) : List Token → Option (List Token)
  | [] => none
  | t :: rest =>
    match pass? need frames t with
    | none => none
    | some none => some rest
    | some (some (need, frames)) => skipFrom need frames rest

/-- Pass over a value, however deep, and give what follows it. -/
def skip? (ts : List Token) : Option (List Token) := skipFrom .value [] ts

/-- What follows a value is shorter than what it is part of. -/
theorem length_lt_of_skipFrom {need : Need} {frames : List Frame} {ts rest : List Token}
    (h : skipFrom need frames ts = some rest) : rest.length < ts.length := by
  induction ts generalizing need frames with
  | nil => simp [skipFrom] at h
  | cons t ts ih =>
    rw [skipFrom] at h
    split at h
    · cases h
    · cases h; simp
    · exact Nat.lt_succ_of_lt (ih h)

end Json

end Lockstep
