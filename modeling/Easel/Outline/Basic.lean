/-!
# Outlines

An outline shows a value field by field, one to a line, as a literal of its type. Empty lists of one
type are one and the same: if there are several, the first is labelled, and the others are shown by
the label.
-/

namespace Easel

/-- A value as an outline shows it. -/
inductive Outline where
  | atom (text : String)
  /-- A record of some type. -/
  | record (type : String) (fields : List (String × Outline))
  /-- A list of some type. -/
  | list (type : String) (items : List Outline)

namespace Outline

/-! ## Labels -/

mutual

/-- The types of the empty lists in an outline, from top to bottom. -/
def empties : Outline → List String
  | .atom _ => []
  | .record _ fields => emptiesOfFields fields
  | .list type [] => [type]
  | .list _ (item :: rest) => item.empties ++ emptiesOfItems rest

def emptiesOfFields : List (String × Outline) → List String
  | [] => []
  | (_, v) :: rest => v.empties ++ emptiesOfFields rest

def emptiesOfItems : List Outline → List String
  | [] => []
  | v :: rest => v.empties ++ emptiesOfItems rest

end

/-- The types of which there are several empty lists, by first appearance. -/
def sharedTypes (o : Outline) : List String :=
  let all := o.empties
  all.eraseDups.filter fun type => 1 < all.count type

/-- The label of a type, if it has one. -/
def label? (shared : List String) (type : String) : Option String :=
  (shared.idxOf? type).map fun i => s!"p{i}"

/-! ## Text -/

/-- The start of a line at a depth. -/
def margin (depth : Nat) : String := String.ofList (List.replicate (2 * depth) ' ')

/-- A shown value: its text, the comment after it, and the types whose label has been shown. -/
structure Shown where
  text : String
  comment : String := ""
  seen : List String

/-- An empty list, labelled if it is the first of several, or the label if it is not the first. -/
def showEmpty (shared seen : List String) (type : String) : Shown :=
  match label? shared type with
  | none => ⟨type ++ r"{}", "", seen⟩
  | some label =>
    if seen.contains type then ⟨label, "", seen⟩
    else ⟨type ++ r"{}", " // " ++ label, type :: seen⟩

mutual

/-- A value at a depth. -/
def shown (shared : List String) (depth : Nat) (seen : List String) : Outline → Shown
  | .atom text => ⟨text, "", seen⟩
  | .record type fields =>
    let (body, seen) := showFields shared (depth + 1) seen fields
    ⟨type ++ r"{" ++ "\n" ++ body ++ margin depth ++ r"}", "", seen⟩
  | .list type [] => showEmpty shared seen type
  | .list type (item :: rest) =>
    let first := item.shown shared (depth + 1) seen
    let (body, seen) := showItems shared (depth + 1) first.seen rest
    ⟨type ++ r"{" ++ "\n" ++ margin (depth + 1) ++ first.text ++ "," ++ first.comment ++ "\n" ++ body ++
      margin depth ++ r"}", "", seen⟩

/-- The lines of fields. -/
def showFields (shared : List String) (depth : Nat) (seen : List String) :
    List (String × Outline) → String × List String
  | [] => ("", seen)
  | (name, v) :: rest =>
    let s := v.shown shared depth seen
    let (more, seen) := showFields shared depth s.seen rest
    (margin depth ++ name ++ ": " ++ s.text ++ "," ++ s.comment ++ "\n" ++ more, seen)

/-- The lines of items. -/
def showItems (shared : List String) (depth : Nat) (seen : List String) :
    List Outline → String × List String
  | [] => ("", seen)
  | v :: rest =>
    let s := v.shown shared depth seen
    let (more, seen) := showItems shared depth s.seen rest
    (margin depth ++ s.text ++ "," ++ s.comment ++ "\n" ++ more, seen)

end

/-- The text of an outline. -/
def print (o : Outline) : String := (o.shown o.sharedTypes 0 []).text

end Outline

end Easel
