import Easel.Text.Raw

/-!
# Reading JSON into records

A document is read straight into a record: an object sets the fields it names and skips every other
member. Of two members for one field the later wins. `null` leaves a field as it is, but takes back
a list. A skipped collection only has to close its own brackets, and not to be nested too deeply. A
zero byte ends the document.

A document is read byte by byte; a byte is shown as the character of the same number.
-/

namespace Easel.Json

/-- The bytes of a document as characters. -/
def source (bytes : ByteArray) : List Char := bytes.toList.map fun b => Char.ofNat b.toNat

/-- A reader gives a value and the text after it. -/
abbrev Reader (α : Type) := List Char → Option (α × List Char)

/-- The character that ends a document wherever it stands. -/
def terminator : Char := '\x00'

/-- The blanks between tokens of a document. -/
def isSpace (c : Char) : Bool := c == ' ' || c == '\t' || c == '\n' || c == '\r'

def skipSpace (cs : List Char) : List Char := cs.dropWhile isSpace

/-- The text after a given word. -/
def afterWord : List Char → List Char → Option (List Char)
  | [], cs => some cs
  | w :: ws, c :: cs => if w = c then afterWord ws cs else none
  | _ :: _, [] => none

/-! ## Strings -/

/-- The character of a short escape. -/
def shortEscape : Char → Option Char
  | '"' => some '"'
  | '\\' => some '\\'
  | '/' => some '/'
  | 'b' => some (Char.ofNat 8)
  | 'f' => some (Char.ofNat 12)
  | 'n' => some '\n'
  | 'r' => some '\r'
  | 't' => some '\t'
  | _ => none

/-- The number four hexadecimal digits spell. -/
def codeUnit (a b c d : Char) : Option Nat := do
  let a ← Text.hexValue? a
  let b ← Text.hexValue? b
  let c ← Text.hexValue? c
  let d ← Text.hexValue? d
  pure (((a * 16 + b) * 16 + c) * 16 + d)

/-- A piece of a string: a byte, or a code unit that may be half of a pair. -/
inductive Piece where
  | byte (b : UInt8)
  | unit (n : Nat)
  deriving DecidableEq, Repr

/-- The piece of a byte that is shown as a character. -/
def Piece.ofChar (c : Char) : Piece := .byte c.toNat.toUInt8

/-- The pieces of a string after its opening quote, and the text after the closing one. Any byte but
a quote, a backslash and a zero stands for itself. -/
def pieces : Reader (List Piece)
  | [] => none
  | '"' :: rest => some ([], rest)
  | '\\' :: 'u' :: a :: b :: c :: d :: rest => do
    let n ← codeUnit a b c d
    let (ps, rest) ← pieces rest
    pure (.unit n :: ps, rest)
  | '\\' :: c :: rest => do
    let e ← shortEscape c
    let (ps, rest) ← pieces rest
    pure (.ofChar e :: ps, rest)
  | ['\\'] => none
  | c :: rest =>
    if c = terminator then none
    else do
      let (ps, rest) ← pieces rest
      pure (.ofChar c :: ps, rest)

/-- The character of two code units, if they are a pair. -/
def pairChar? (hi lo : Nat) : Option Char :=
  if 0xd800 ≤ hi ∧ hi < 0xdc00 ∧ 0xdc00 ≤ lo ∧ lo < 0xe000 then
    some (Char.ofNat ((hi - 0xd800) * 0x400 + (lo - 0xdc00) + 0x10000))
  else none

/-- The character of a code unit that is no part of a pair; half of a pair becomes the replacement
character. -/
def unitChar (n : Nat) : Char := if n.isValidChar then Char.ofNat n else Text.replacement

/-- The bytes of pieces, of which a code unit before the first may be waiting for its other half. -/
def joinPairs : Option Nat → List Piece → List UInt8
  | none, [] => []
  | some hi, [] => String.utf8EncodeChar (unitChar hi)
  | none, .byte b :: rest => b :: joinPairs none rest
  | some hi, .byte b :: rest => String.utf8EncodeChar (unitChar hi) ++ b :: joinPairs none rest
  | none, .unit n :: rest => joinPairs (some n) rest
  | some hi, .unit n :: rest =>
    match pairChar? hi n with
    | some c => String.utf8EncodeChar c ++ joinPairs none rest
    | none => String.utf8EncodeChar (unitChar hi) ++ joinPairs (some n) rest

/-- The text of a string after its opening quote, and what comes after the closing one. -/
def stringTail : Reader RawText := fun cs =>
  (pieces cs).map fun (ps, rest) => (.ofBytes (joinPairs none ps), rest)

/-- The text after the closing quote of a string that is not read. -/
def skipString : List Char → Option (List Char)
  | [] => none
  | '"' :: rest => some rest
  | '\\' :: c :: rest => if c = terminator then none else skipString rest
  | c :: rest => if c = terminator then none else skipString rest

/-! ## Members that are not read -/

/-- How deeply collections may be nested. -/
def maxDepth : Int := 10000

/-- Where in a collection a text goes on: between its values, in a string, or after a backslash in a
string. -/
inductive Spot where
  | between
  | inString
  | escaped
  deriving DecidableEq, Repr

/-- The spot after one more character of a string. -/
def Spot.ofStringChar (c : Char) : Spot :=
  if c = '"' then .between else if c = '\\' then .escaped else .inString

/-- The text after a collection, of which `extra + 1` brackets of one form are open. Brackets of
both forms change the depth, and strings are passed over whole. -/
def skipCollection (opening closing : Char) (extra : Nat) (depth : Int) :
    Spot → List Char → Option (List Char)
  | _, [] => none
  | spot, c :: rest =>
    if c = terminator then none
    else match spot with
      | .escaped => skipCollection opening closing extra depth .inString rest
      | .inString => skipCollection opening closing extra depth (.ofStringChar c) rest
      | .between =>
        if c = '"' then skipCollection opening closing extra depth .inString rest
        else if c = '{' ∨ c = '[' then
          if maxDepth < depth + 1 then none
          else skipCollection opening closing (if c = opening then extra + 1 else extra)
            (depth + 1) .between rest
        else if c = closing ∧ extra = 0 then some rest
        else if c = '}' ∨ c = ']' then
          skipCollection opening closing (if c = closing then extra - 1 else extra)
            (depth - 1) .between rest
        else skipCollection opening closing extra depth .between rest

/-- A character that may stand in a number. -/
def isNumberChar (c : Char) : Bool :=
  Text.isAsciiDigit c || c == '.' || c == 'e' || c == 'E' || c == '+' || c == '-'

/-- The text after a value that is not read, which `depth` collections enclose. -/
def skipValue (depth : Nat) (cs : List Char) : Option (List Char) :=
  match skipSpace cs with
  | '{' :: rest => skipCollection '{' '}' 0 (depth + 1) .between rest
  | '[' :: rest => skipCollection '[' ']' 0 (depth + 1) .between rest
  | '"' :: rest => skipString rest
  | 't' :: rest => afterWord ['r', 'u', 'e'] rest
  | 'f' :: rest => afterWord ['a', 'l', 's', 'e'] rest
  | 'n' :: rest => afterWord ['u', 'l', 'l'] rest
  | c :: rest =>
    if c = '-' ∨ Text.isAsciiDigit c then some (rest.dropWhile isNumberChar) else none
  | [] => none

/-! ## Fields -/

/-- A string, or the value so far for `null`. -/
def string (old : RawText) : Reader RawText := fun cs =>
  match skipSpace cs with
  | '"' :: rest => stringTail rest
  | 'n' :: rest => (afterWord ['u', 'l', 'l'] rest).map fun rest => (old, rest)
  | _ => none

/-- A truth value, or the value so far for `null`. -/
def bool (old : Bool) : Reader Bool := fun cs =>
  match skipSpace cs with
  | 't' :: rest => (afterWord ['r', 'u', 'e'] rest).map fun rest => (true, rest)
  | 'f' :: rest => (afterWord ['a', 'l', 's', 'e'] rest).map fun rest => (false, rest)
  | 'n' :: rest => (afterWord ['u', 'l', 'l'] rest).map fun rest => (old, rest)
  | _ => none

/-- A number held in 64 bits with a sign. -/
def wrap (n : Int) : Int := Int.bmod n (Nat.pow 2 64)

/-- The value of at most nineteen digits. -/
def digits? (ds : List Char) : Option Nat :=
  if ds.length ≤ 19 then some (ds.foldl (fun n d => n * 10 + (d.toNat - 48)) 0) else none

/-- A whole number, or the value so far for `null`. A zero ends a number that starts with it. -/
def int (old : Int) : Reader Int := fun cs =>
  match skipSpace cs with
  | '-' :: rest =>
    (digits? (rest.takeWhile Text.isAsciiDigit)).map fun n =>
      (wrap (-(wrap n)), rest.dropWhile Text.isAsciiDigit)
  | '0' :: rest => some (0, rest)
  | 'n' :: rest => (afterWord ['u', 'l', 'l'] rest).map fun rest => (old, rest)
  | cs =>
    match cs.takeWhile Text.isAsciiDigit with
    | [] => none
    | ds => (digits? ds).map fun n => (wrap n, cs.dropWhile Text.isAsciiDigit)

/-- The strings of an array after its opening bracket. `null` stands for the string that had its
place before. The first argument bounds their number. -/
def stringItems : Nat → List RawText → Reader (List RawText)
  | 0, _, _ => none
  | n + 1, old, cs => do
    let (s, rest) ← string (old.headD "") cs
    match skipSpace rest with
    | ']' :: rest => pure ([s], rest)
    | ',' :: rest =>
      let (more, rest) ← stringItems n old.tail rest
      pure (s :: more, rest)
    | _ => none

/-- An array of strings, or no array for `null`. -/
def strings (old : Option (List RawText)) : Reader (Option (List RawText)) := fun cs =>
  match skipSpace cs with
  | '[' :: rest =>
    match skipSpace rest with
    | ']' :: rest => some (some [], rest)
    | rest =>
      (stringItems (rest.length + 1) (old.getD []) rest).map fun (items, rest) =>
        (some items, rest)
  | 'n' :: rest => (afterWord ['u', 'l', 'l'] rest).map fun rest => (none, rest)
  | _ => none

/-! ## Objects -/

/-- A field of a record: its name, and how its value changes the record. -/
structure Field (σ : Type) where
  name : String
  read : σ → Reader σ

/-- The field that `get` and `set` give, with a reader that is told the value so far. -/
def Field.of {σ α : Type} (name : String) (reader : α → Reader α) (get : σ → α)
    (set : σ → α → σ) : Field σ :=
  ⟨name, fun record cs => (reader (get record) cs).map fun (v, rest) => (set record v, rest)⟩

/-- The fields whose name has, in either case, the character number `code` at an index. -/
def narrow {σ : Type} (index code : Nat) (fields : List (Field σ)) : List (Field σ) :=
  fields.filter fun f =>
    (f.name.toList[index]?).any fun c => c.toNat == code || c.toUpper.toNat == code

/-- The number of an escape in a name; what is no hexadecimal digit counts as zero. -/
def looseUnit (a b c d : Char) : Nat :=
  [a, b, c, d].foldl (fun n x => n * 16 + (Text.hexValue? x).getD 0) 0

/-- The field a name stands for, if any, after its opening quote. `fields` are those the name so far
is a start of, `index` counts the characters it spells and `length` those it is written with. An
escape that is none spells nothing and takes the character after it along. A name stands for the
first of its fields even if it does not spell all of it, as long as it is written with as many
characters. -/
def keyTail {σ : Type} (fields : List (Field σ)) (index length : Nat) :
    Reader (Option (Field σ))
  | [] => none
  | '"' :: rest => some (fields.head?.filter fun f => f.name.length ≤ length, rest)
  | '\\' :: 'u' :: a :: b :: c :: d :: rest =>
    match narrow index (looseUnit a b c d) fields with
    | [] => (skipString (a :: b :: c :: d :: rest)).map fun rest => (none, rest)
    | fields => keyTail fields (index + 1) (length + 6) rest
  | '\\' :: 'u' :: _ => none
  | '\\' :: e :: c :: rest =>
    if (shortEscape e).isSome then (skipString (c :: rest)).map fun rest => (none, rest)
    else keyTail fields index (length + 3) rest
  | '\\' :: _ => none
  | c :: rest =>
    if c = terminator then none
    else match narrow index c.toNat fields with
      | [] => (skipString rest).map fun rest => (none, rest)
      | fields => keyTail fields (index + 1) (length + 1) rest

/-- The members of an object from a name on. `depth` counts the collections around them, and the
number after it bounds how many they are. -/
def members {σ : Type} (depth : Nat) (fields : List (Field σ)) : Nat → σ → Reader σ
  | 0, _, _ => none
  | n + 1, record, cs =>
    match skipSpace cs with
    | '"' :: rest => do
      let (field, rest) ← keyTail fields 0 0 rest
      match skipSpace rest with
      | ':' :: rest =>
        let (record, rest) ← (match field with
          | some f => f.read record rest
          | none => (skipValue depth rest).map fun rest => (record, rest))
        match skipSpace rest with
        | '}' :: rest => pure (record, rest)
        | ',' :: rest => members depth fields n record rest
        | _ => none
      | _ => none
    | _ => none

/-- An object read into a record, or the record so far for `null`. `depth` counts the collections
around its members, and the fields are in alphabetical order. -/
def object {σ : Type} (depth : Nat) (fields : List (Field σ)) (record : σ) : Reader σ := fun cs =>
  match skipSpace cs with
  | '{' :: rest =>
    match skipSpace rest with
    | '}' :: rest => some (record, rest)
    | rest => members depth fields (rest.length + 1) record rest
  | 'n' :: rest => (afterWord ['u', 'l', 'l'] rest).map fun rest => (record, rest)
  | _ => none

/-- Whether nothing but blanks comes before the end of the document. -/
def atEnd (cs : List Char) : Bool :=
  match skipSpace cs with
  | [] => true
  | c :: _ => c == terminator

/-- A whole document read into a record. -/
def document {σ : Type} (fields : List (Field σ)) (record : σ) (bytes : ByteArray) : Option σ :=
  match object 1 fields record (source bytes) with
  | some (record, rest) => if atEnd rest then some record else none
  | none => none

end Easel.Json
