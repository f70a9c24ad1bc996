import Easel.Text.CharClass

/-!
# Values of flags

How the text given to a flag is read: a truth value by one of twelve words, and a whole number of 64
bits in base two, eight, ten or sixteen by its first digits, with underscores between digits.
-/

namespace Easel.Command

/-- Why a text is no value. -/
inductive ValueError where
  | malformed | outOfRange
  deriving DecidableEq, Repr

def ValueError.message : ValueError → String
  | .malformed => "invalid syntax"
  | .outOfRange => "value out of range"

/-- A truth value. -/
def readSwitch (s : String) : Except ValueError Bool :=
  if ["1", "t", "T", "TRUE", "true", "True"].contains s then .ok true
  else if ["0", "f", "F", "FALSE", "false", "False"].contains s then .ok false
  else .error .malformed

/-- The value of a digit or letter. -/
def digitValue? (c : Char) : Option Nat :=
  if Text.isAsciiDigit c then some (c.toNat - 48)
  else if c.isAlpha then some (c.toLower.toNat - 87)
  else none

/-- The base of a number without its sign, and the digits after what marks the base. -/
def splitBase : List Char → Nat × List Char
  | '0' :: mark :: d :: rest =>
    match mark.toLower with
    | 'b' => (2, d :: rest)
    | 'o' => (8, d :: rest)
    | 'x' => (16, d :: rest)
    | _ => (8, mark :: d :: rest)
  | '0' :: rest => (8, rest)
  | cs => (10, cs)

/-- The value of digits in a base, after those worth `n`. Underscores are passed over, and a value
of more than 64 bits ends the reading. -/
def digitsValue (base : Nat) (n : Nat) : List Char → Except ValueError Nat
  | [] => .ok n
  | c :: rest =>
    if c = '_' then digitsValue base n rest
    else match digitValue? c with
      | none => .error .malformed
      | some d =>
        if base ≤ d then .error .malformed
        else if Nat.pow 2 64 ≤ n * base + d then .error .outOfRange
        else digitsValue base (n * base + d) rest

/-- The last character seen, as far as it matters to an underscore. -/
inductive Seen where
  | digit | underscore | other
  deriving DecidableEq

/-- Whether every underscore stands between two digits. -/
def underscoresBetween (isDigit : Char → Bool) : Seen → List Char → Bool
  | seen, [] => seen != .underscore
  | seen, c :: rest =>
    if isDigit c then underscoresBetween isDigit .digit rest
    else if c = '_' then seen == .digit && underscoresBetween isDigit .underscore rest
    else seen != .underscore && underscoresBetween isDigit .other rest

/-- Whether the underscores of a number without its sign are well placed. What marks the base counts
as a digit. -/
def underscoresOk (cs : List Char) : Bool :=
  let isHex (c : Char) : Bool :=
    Text.isAsciiDigit c || ('a' ≤ c.toLower && c.toLower ≤ 'f')
  match cs with
  | '0' :: mark :: rest =>
    match mark.toLower with
    | 'x' => underscoresBetween isHex .digit rest
    | 'b' | 'o' => underscoresBetween Text.isAsciiDigit .digit rest
    | _ => underscoresBetween Text.isAsciiDigit .other cs
  | _ => underscoresBetween Text.isAsciiDigit .other cs

/-- A number without its sign. -/
def readUnsigned (cs : List Char) : Except ValueError Nat :=
  if cs.isEmpty then .error .malformed
  else
    let (base, ds) := splitBase cs
    match digitsValue base 0 ds with
    | .error e => .error e
    | .ok n => if cs.contains '_' && !underscoresOk cs then .error .malformed else .ok n

/-- The sign of a number and the characters after it. -/
def splitSign : List Char → Bool × List Char
  | '-' :: rest => (true, rest)
  | '+' :: rest => (false, rest)
  | cs => (false, cs)

/-- A whole number of 64 bits with a sign. -/
def readNumber (s : String) : Except ValueError Int :=
  let (negative, cs) := splitSign s.toList
  match readUnsigned cs with
  | .error e => .error e
  | .ok n =>
    if negative then (if n ≤ Nat.pow 2 63 then .ok (-n) else .error .outOfRange)
    else if n < Nat.pow 2 63 then .ok n else .error .outOfRange

end Easel.Command
