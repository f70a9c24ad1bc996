import Easel.Command.FlagValue
import Easel.Text.Quoted

/-!
# Flags

The arguments of a command are flags and files in any order. A flag has a long name and may have a
short one; short switches can be grouped, and two dashes end the flags. The flags of a command are
listed in its help.
-/

namespace Easel.Command

/-- What a flag takes. -/
inductive FlagKind where
  | switch | text | number
  deriving DecidableEq, Repr

/-- A flag of a command. -/
structure Flag where
  name : String
  short : Option Char := none
  kind : FlagKind
  summary : String
  deriving DecidableEq, Repr

/-- What a flag is given. -/
inductive FlagValue where
  | switch (b : Bool)
  | text (s : String)
  | number (n : Int)
  deriving DecidableEq, Repr

/-- Why arguments cannot be read. -/
inductive FlagError where
  | unknown (name : String)
  /-- The group of short flags from the unknown one on. -/
  | unknownShort (group : String)
  | malformed (arg : String)
  | missingValue (arg : String)
  | missingShortValue (letter : Char) (group : String)
  | invalidValue (flag : Flag) (value : String) (e : ValueError)
  deriving DecidableEq, Repr

/-- The names of a flag. -/
def Flag.names (f : Flag) : String :=
  match f.short with
  | some c => s!"-{c}, --{f.name}"
  | none => s!"--{f.name}"

/-- The reader that a message about a value names. -/
def FlagKind.reader : FlagKind → String
  | .switch => "strconv.ParseBool"
  | .number => "strconv.ParseInt"
  | .text => ""

/-- The first byte of a text as a character. -/
def firstByte (s : String) : Char := Char.ofNat (s.toUTF8.toList.headD 0).toNat

def FlagError.message : FlagError → String
  | .unknown name => s!"unknown flag: --{name}"
  | .unknownShort group =>
    "unknown shorthand flag: " ++ Text.quoteOne (firstByte group) ++ " in -" ++ group
  | .malformed arg => s!"bad flag syntax: {arg}"
  | .missingValue arg => s!"flag needs an argument: {arg}"
  | .missingShortValue letter group =>
    "flag needs an argument: " ++ Text.quoteOne letter ++ " in -" ++ group
  | .invalidValue flag value e =>
    "invalid argument " ++ Text.quote value ++ " for \"" ++ flag.names ++ "\" flag: " ++
      flag.kind.reader ++ ": parsing " ++ Text.quote value ++ ": " ++ e.message

/-- Why the reading of arguments ends early. -/
inductive FlagStop where
  | help
  | error (e : FlagError)
  deriving DecidableEq, Repr

/-- The arguments of a command: the flags in the order they were given, and the files. -/
structure Arguments where
  values : List (String × FlagValue) := []
  files : List String := []
  deriving DecidableEq, Repr

/-! ## Reading -/

/-- The value a text gives to a flag. -/
def Flag.read (f : Flag) (s : String) : Except FlagStop (String × FlagValue) :=
  match f.kind with
  | .text => .ok (f.name, .text s)
  | .switch =>
    match readSwitch s with
    | .ok b => .ok (f.name, .switch b)
    | .error e => .error (.error (.invalidValue f s e))
  | .number =>
    match readNumber s with
    | .ok n => .ok (f.name, .number n)
    | .error e => .error (.error (.invalidValue f s e))

/-- A flag still waiting for its value, with the error if there is none. -/
structure Waiting where
  flag : Flag
  error : FlagError

/-- A long flag after its dashes: its value, or that it waits for one. -/
def readLong (flags : List Flag) (arg : String) :
    Except FlagStop (List (String × FlagValue) × Option Waiting) :=
  let body := arg.toList.drop 2
  let name := String.ofList (body.takeWhile (· != '='))
  if body.head? = some '-' ∨ body.head? = some '=' then .error (.error (.malformed arg))
  else match flags.find? (fun f => f.name == name) with
    | none => .error (if name = "help" then .help else .error (.unknown name))
    | some f =>
      match body.dropWhile (· != '=') with
      | _ :: value => (f.read (String.ofList value)).map fun v => ([v], none)
      | [] =>
        if f.kind = .switch then .ok ([(f.name, .switch true)], none)
        else .ok ([], some ⟨f, .missingValue arg⟩)

/-- A group of short flags: the values of its switches, up to a flag that takes the rest of the
group or waits for a value. -/
def readShort (flags : List Flag) :
    List Char → Except FlagStop (List (String × FlagValue) × Option Waiting)
  | [] => .ok ([], none)
  | c :: rest =>
    match flags.find? (fun f => f.short == some c) with
    | none => .error (if c = 'h' then .help else .error (.unknownShort (String.ofList (c :: rest))))
    | some f =>
      match rest with
      | '=' :: d :: value => (f.read (String.ofList (d :: value))).map fun v => ([v], none)
      | rest =>
        if f.kind = .switch then
          (readShort flags rest).map fun (vs, waiting) => ((f.name, .switch true) :: vs, waiting)
        else if rest.isEmpty then
          .ok ([], some ⟨f, .missingShortValue c (String.ofList [c])⟩)
        else (f.read (String.ofList rest)).map fun v => ([v], none)

/-- Whether an argument is a flag. -/
def isFlag (arg : String) : Bool := arg.toList.head? == some '-' && 1 < arg.length

/-- Whether an argument is a long flag. -/
def isLong (arg : String) : Bool := (arg.toList.drop 1).head? == some '-'

/-- The flags in one argument. -/
def readFlag (flags : List Flag) (arg : String) :
    Except FlagStop (List (String × FlagValue) × Option Waiting) :=
  if isLong arg then readLong flags arg else readShort flags (arg.toList.drop 1)

/-- Read arguments after those read before. -/
def readArguments (flags : List Flag) : List String → Arguments → Except FlagStop Arguments
  | [], a => .ok a
  | arg :: rest, a =>
    if !isFlag arg then readArguments flags rest { a with files := a.files ++ [arg] }
    else if arg = "--" then .ok { a with files := a.files ++ rest }
    else match readFlag flags arg with
      | .error e => .error e
      | .ok (vs, none) => readArguments flags rest { a with values := a.values ++ vs }
      | .ok (vs, some waiting) =>
        match rest with
        | [] => .error (.error waiting.error)
        | s :: rest =>
          match waiting.flag.read s with
          | .error e => .error e
          | .ok v => readArguments flags rest { a with values := a.values ++ vs ++ [v] }

namespace Arguments

/-- The last value given to a flag. -/
def value? (a : Arguments) (name : String) : Option FlagValue := a.values.reverse.lookup name

/-- The truth value given to a flag, if any. -/
def switch? (a : Arguments) (name : String) : Option Bool :=
  match a.value? name with
  | some (.switch b) => some b
  | _ => none

def switch (a : Arguments) (name : String) : Bool := (a.switch? name).getD false

/-- The text given to a flag, if any. -/
def text? (a : Arguments) (name : String) : Option String :=
  match a.value? name with
  | some (.text s) => some s
  | _ => none

def text (a : Arguments) (name : String) : String := (a.text? name).getD ""

/-- The number given to a flag, if any. -/
def number? (a : Arguments) (name : String) : Option Int :=
  match a.value? name with
  | some (.number n) => some n
  | _ => none

end Arguments

/-! ## Help -/

/-- What help shows for the value of a flag. -/
def FlagKind.placeholder : FlagKind → String
  | .switch => ""
  | .text => " string"
  | .number => " int"

/-- The left column of a flag's help. -/
def Flag.heading (f : Flag) : String :=
  (match f.short with
    | some c => s!"  -{c}, --"
    | none => "      --") ++ f.name ++ f.kind.placeholder

/-- The flags sorted by name, each on a line, with their summaries in a column. -/
def flagHelp (flags : List Flag) : String :=
  let sorted := flags.mergeSort (fun a b => a.name ≤ b.name)
  let width := (sorted.map fun f => f.heading.length).foldl max 0
  String.join (sorted.map fun f => Text.padRight (width + 3) f.heading ++ f.summary ++ "\n")

end Easel.Command
