/-
Reading whole numbers of a bounded range.

A text is read from left to right and the first fault decides: a character that is no
digit, or a value beyond the bound.
-/

namespace ShardAllocation

namespace Text

/-- The largest natural number of so many bits. -/
def wordLimit (bits : Nat) : Nat := Nat.pow 2 bits - 1

/-- What keeps a text from being a whole number. -/
inductive WholeFault where
  | empty
  | invalidDigit
  | tooLarge
  | tooSmall
  deriving DecidableEq, Repr

namespace WholeFault

/-- The wording of the fault. -/
def message : WholeFault → String
  | empty => "cannot parse integer from empty string"
  | invalidDigit => "invalid digit found in string"
  | tooLarge => "number too large to fit in target type"
  | tooSmall => "number too small to fit in target type"

end WholeFault

/-- Reads digits onto an already read value, up to `limit`. -/
def readDigits (limit : Nat) (overflow : WholeFault) : Nat → List Char → Except WholeFault Nat
  | value, [] => .ok value
  | value, c :: rest =>
    if !c.isDigit then .error .invalidDigit
    else
      let next := 10 * value + (c.toNat - '0'.toNat)
      if limit < next then .error overflow else readDigits limit overflow next rest

/-- Reads a natural number of at most `limit`; a plus sign may precede the digits. -/
def readNatural (limit : Nat) : List Char → Except WholeFault Nat
  | [] => .error .empty
  | ['+'] => .error .invalidDigit
  | '+' :: ds => readDigits limit .tooLarge 0 ds
  | ds => readDigits limit .tooLarge 0 ds

/-- Reads an integer of 64 bits; a sign may precede the digits. -/
def readInteger : List Char → Except WholeFault Int
  | [] => .error .empty
  | ['+'] => .error .invalidDigit
  | ['-'] => .error .invalidDigit
  | '-' :: ds => (readDigits (wordLimit 63 + 1) .tooSmall 0 ds).map fun n => -(n : Int)
  | '+' :: ds => (readDigits (wordLimit 63) .tooLarge 0 ds).map Int.ofNat
  | ds => (readDigits (wordLimit 63) .tooLarge 0 ds).map Int.ofNat

end Text

end ShardAllocation
