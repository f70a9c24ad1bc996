import Easel.Scope.Symbol
import Easel.Text.Basic

/-!
# Symbol tables

A symbol table is a stack of scopes above the builtin names. The lowest scope is global and never
closed. A name is declared at most once in a scope, and an inner declaration hides an outer one.
-/

namespace Easel

/-- The symbols of one scope. -/
abbrev Scope := List Symbol

/-- The open scopes, the innermost first, and the global scope below them. -/
structure SymbolTable where
  nested : List Scope
  globals : Scope
  deriving DecidableEq, Repr

namespace Scope

/-- The symbol a scope holds under a name. -/
def find? (scope : Scope) (name : String) : Option Symbol :=
  List.find? (fun s => s.name == name) scope

end Scope

namespace SymbolTable

/-- The table before any declaration. -/
def empty : SymbolTable := ⟨[], []⟩

/-- The number of scopes, the global one included. -/
def depth (t : SymbolTable) : Nat := t.nested.length + 1

/-- Open a scope. -/
def enter (t : SymbolTable) : SymbolTable := { t with nested := [] :: t.nested }

/-- Close the innermost scope, unless it is the global one. -/
def exit? (t : SymbolTable) : Option SymbolTable :=
  match t.nested with
  | [] => none
  | _ :: outer => some { t with nested := outer }

/-- The innermost scope. -/
def innermost (t : SymbolTable) : Scope := t.nested.headD t.globals

/-- The table with a symbol added to the innermost scope. -/
def add (t : SymbolTable) (s : Symbol) : SymbolTable :=
  match t.nested with
  | [] => { t with globals := s :: t.globals }
  | scope :: outer => { t with nested := (s :: scope) :: outer }

/-- Declare a symbol in the innermost scope. If the name is taken there, the table stays as it is
and the symbol that has it is given instead. -/
def declare (t : SymbolTable) (s : Symbol) : SymbolTable × Symbol × Bool :=
  match t.innermost.find? s.name with
  | some taken => (t, taken, false)
  | none => (t.add s, s, true)

/-- The builtin symbol of a name. -/
def builtin? (name : String) : Option Symbol :=
  if isBuiltin name then some { name, kind := .builtin } else none

/-- The symbol a name stands for: the innermost declaration, or else the builtin. -/
def lookup (t : SymbolTable) (name : String) : Option Symbol :=
  ((t.nested ++ [t.globals]).findSome? (fun scope => scope.find? name)).or (builtin? name)

/-- The global symbols in the order of their names. -/
def sortedGlobals (t : SymbolTable) : List Symbol :=
  t.globals.mergeSort (fun a b => a.name ≤ b.name)

/-- One line about a symbol. -/
def describeSymbol (s : Symbol) : String :=
  s!"  {Text.padRight 16 s.name} {Text.padRight 10 s.kind.name} line {s.line} col {s.column}\n"

/-- The global symbols as text. -/
def describe (t : SymbolTable) : String :=
  "Symbol Table:\n" ++ String.join (t.sortedGlobals.map describeSymbol)

end SymbolTable

end Easel
