import Easel.Program.Parser.Stmt
import Easel.Token.Lexer
import Easel.Workspace.Basic

/-!
# Import resolution

The files a program needs are those reachable over the imports at the top level of each file, read
relative to the importing file. They are listed with every file after the files it imports. A file
that cannot be read and a cycle of imports stop the resolution. Files are read from a workspace
(`Workspace.resolveImports`) or wherever else the caller keeps them.
-/

namespace Easel

/-- The paths that a source imports at its top level. -/
def importPaths (source : String) : List String :=
  (parse (Token.lex source)).1.filterMap fun
    | .importFrom _ _ path => some path
    | _ => none

namespace Import

/-- Why the imports of a file cannot be resolved; a file that cannot be read has a cause. -/
inductive Error (ε : Type) where
  /-- A file is imported from within its own imports; the chain runs from the entry. -/
  | cycle (chain : List RawText) (name : RawText)
  /-- A file cannot be read; the importer is missing for the entry. -/
  | unreadable (importer : Option RawText) (name : RawText) (cause : ε)
  deriving DecidableEq, Repr

/-- What an error says, with the message of the cause. -/
def Error.message {ε : Type} (causeMessage : ε → String) : Error ε → String
  | .cycle chain name =>
    "import cycle: " ++ String.intercalate " -> " ((chain ++ [name]).map RawText.text)
  | .unreadable none name cause => s!"reading {name}: {causeMessage cause}"
  | .unreadable (some importer) name cause => s!"{importer} imports {name}: {causeMessage cause}"

/-- How far a resolution has come: the files listed and the files read, each in order. -/
structure Progress where
  order : List RawText := []
  reads : List RawText := []
  deriving DecidableEq, Repr

variable {m : Type → Type} [Monad m] {ε : Type}

/-- Visit names in turn, up to the first that fails. -/
def visitAll (visit : RawText → Progress → m (Progress × Option (Error ε))) :
    List RawText → Progress → m (Progress × Option (Error ε))
  | [], s => pure (s, none)
  | name :: rest, s => do
    match ← visit name s with
    | (s', some e) => return (s', some e)
    | (s', none) => visitAll visit rest s'

/-- The names a source imports, seen from the root of the file it is in. -/
def importsOf (name : RawText) (source : String) : List RawText :=
  (importPaths source).map fun (p : String) => Path.join (Path.parent name) p

/-- Visit a file and then list it. `chain` holds the files that are being visited, from the entry
on, and the first argument bounds how long it grows. -/
def visit (read : RawText → m (Except ε String)) :
    Nat → List RawText → RawText → Progress → m (Progress × Option (Error ε))
  | 0, chain, name, s => pure (s, some (.cycle chain name))
  | n + 1, chain, name, s => do
    if s.order.contains name then return (s, none)
    if chain.contains name then return (s, some (.cycle chain name))
    let s := { s with reads := s.reads ++ [name] }
    match ← read name with
    | .error cause => return (s, some (.unreadable chain.getLast? name cause))
    | .ok source =>
      match ← visitAll (visit read n (chain ++ [name])) (importsOf name source) s with
      | (s', some e) => return (s', some e)
      | (s', none) => return ({ s' with order := s'.order ++ [name] }, none)

/-- The files an entry needs, each after the files it imports, or why they cannot be listed; and in
both cases the files read on the way. `limit` is more than the number of files that can be read. -/
def resolve (limit : Nat) (read : RawText → m (Except ε String)) (entry : RawText) :
    m (Except (Error ε) (List RawText) × List RawText) := do
  match ← visit read limit [] (Path.clean entry) {} with
  | (s, some e) => return (.error e, s.reads)
  | (s, none) => return (.ok s.order, s.reads)

end Import

/-- The files of a workspace that an entry needs, each after the files it imports. -/
def Workspace.resolveImports (w : Workspace) (entry : RawText) :
    Except (Import.Error Workspace.Error) (List RawText) :=
  (Id.run (Import.resolve (w.files.length + 1) (fun name => pure (w.readText name)) entry)).1

end Easel
