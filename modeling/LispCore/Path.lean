import LispCore.Text.Split

/-!
Paths of files. A path is relative, or starts at the root, which may also be written with exactly
two slashes; more than two mean one. Empty components and single dots are dropped; two dots stay,
since what they mean depends on the files.
-/

namespace LispCore

/-- Where a path starts. -/
inductive Anchor where
  | relative
  | root
  | doubleRoot
deriving DecidableEq, Repr

/-- A path: where it starts and its components. -/
structure Path where
  anchor : Anchor := .relative
  parts : List String
deriving DecidableEq, Repr

namespace Path

/-- Where a text that is read as a path starts. -/
def anchorOf (cs : List Char) : Anchor :=
  match (cs.takeWhile (· = '/')).length with
  | 0 => .relative
  | 2 => .doubleRoot
  | _ => .root

/-- Reads a path. -/
def ofText (text : String) : Path :=
  let cs := text.toList
  let parts := (Text.splitOn '/' cs).filter fun part => part ≠ [] ∧ part ≠ ['.']
  ⟨anchorOf cs, parts.map String.ofList⟩

/-- The text of a path; a relative path without components is a dot. -/
def toText (p : Path) : String :=
  let names := "/".intercalate p.parts
  match p.anchor with
  | .relative => if p.parts.isEmpty then "." else names
  | .root => "/" ++ names
  | .doubleRoot => "//" ++ names

/-- A path taken from a directory; a path that is not relative stays what it is. -/
def join (dir p : Path) : Path :=
  if p.anchor = .relative then { dir with parts := dir.parts ++ p.parts } else p

/-- Whether a component has a suffix: a dot that is neither its first nor its last character, and
after which no other dot comes. -/
def hasSuffix (name : String) : Bool :=
  let after := (name.toList.reverse.takeWhile (· ≠ '.')).length
  after != 0 && after + 1 < name.length

/-- The path with a suffix at its last component, if that one has none already. A path without
components can have no suffix. -/
def withDefaultSuffix? (p : Path) (suffix : String) : Option Path :=
  p.parts.getLast?.map fun name =>
    if hasSuffix name then p else { p with parts := p.parts.dropLast ++ [name ++ suffix] }

end Path

end LispCore
