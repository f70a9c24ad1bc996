import Easel.Scope.Table

/-!
# Sessions on a symbol table

A session is a sequence of operations on a symbol table. An operation may fail, which abandons all
that was still to come, through every enclosing operation, up to one that recovers. `within` runs
operations in a scope of their own and closes that scope however they end; it does not recover.
-/

namespace Easel.SymbolTable

/-- An operation on a table. -/
inductive Op where
  | enter
  | exit
  | declare (s : Symbol)
  | lookup (name : String)
  | globals
  | describe
  | within (body : List Op)
  | abandon (reason : String)
  | recover (body : List Op)

/-- What an operation answers. -/
inductive Reply where
  | done
  | declared (s : Symbol) (fresh : Bool)
  | found (s : Option Symbol)
  | globals (symbols : List Symbol)
  | text (s : String)
  deriving DecidableEq, Repr

/-- An operation as it was carried out: its name, its answer, the depth after it, and why it failed
if it did. -/
structure Entry where
  op : String
  reply : Reply
  depth : Nat
  failure : Option String := none
  deriving DecidableEq, Repr

/-- What is said of an attempt to close the global scope. -/
def exitFailure : String := "ExitScope called on global scope"

/-- Close the innermost scope, with what to say if there is none to close. -/
def close (t : SymbolTable) : SymbolTable × Option String :=
  match t.exit? with
  | some t' => (t', none)
  | none => (t, some exitFailure)

mutual

/-- Carry out one operation: the table after it, the entries it makes, and the reason if it fails.
A scope of its own is closed after a failure too, and a failure to close it replaces the first
one. -/
def Op.run (t : SymbolTable) : Op → SymbolTable × List Entry × Option String
  | .enter => (t.enter, [⟨"enter", .done, t.enter.depth, none⟩], none)
  | .exit =>
    let (t', failure) := t.close
    (t', [⟨"exit", .done, t'.depth, failure⟩], failure)
  | .declare s =>
    let (t', taken, fresh) := t.declare s
    (t', [⟨"declare", .declared taken fresh, t'.depth, none⟩], none)
  | .lookup name => (t, [⟨"lookup", .found (t.lookup name), t.depth, none⟩], none)
  | .globals => (t, [⟨"globals", .globals t.sortedGlobals, t.depth, none⟩], none)
  | .describe => (t, [⟨"string", .text (SymbolTable.describe t), t.depth, none⟩], none)
  | .within body =>
    let (inner, entries, abandoned) := Op.runAll t.enter body
    let (t', failure) := inner.close
    (t', ⟨"with", .done, t'.depth, failure.or abandoned⟩ :: entries, failure.or abandoned)
  | .abandon reason => (t, [⟨"panic", .done, t.depth, some reason⟩], some reason)
  | .recover body =>
    let (t', entries, _) := Op.runAll t body
    (t', entries, none)

/-- Carry out operations in turn, up to one that fails. -/
def Op.runAll (t : SymbolTable) : List Op → SymbolTable × List Entry × Option String
  | [] => (t, [], none)
  | op :: rest =>
    let (t', entries, abandoned) := op.run t
    match abandoned with
    | some reason => (t', entries, some reason)
    | none =>
      let (t'', more, abandoned') := Op.runAll t' rest
      (t'', entries ++ more, abandoned')

end

mutual

/-- The operation, with a recovery around each `exit` and each `within` in it. -/
def Op.guarded : Op → Op
  | .exit => .recover [.exit]
  | .within body => .recover [.within (Op.guardedAll body)]
  | .recover body => .recover (Op.guardedAll body)
  | op => op

/-- The operations, with a recovery around each `exit` and each `within` in them. -/
def Op.guardedAll : List Op → List Op
  | [] => []
  | op :: rest => op.guarded :: Op.guardedAll rest

end

/-- The entries of a session on a new table. A session recovers from what a step of it does, and only
ends early where a step is to be abandoned outside of any scope. -/
def session (ops : List Op) : List Entry := (Op.runAll .empty (Op.guardedAll ops)).2.1

end Easel.SymbolTable
