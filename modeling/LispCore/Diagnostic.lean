import LispCore.Reader.Program

/-!
Diagnostics of a text for an editor. A text is read with names of its own and never evaluated; the
failure that stops it becomes one diagnostic at the characters that the offending token was written
with, and at least one character wide.
-/

namespace LispCore

/-- A message about a part of a text. -/
structure Diagnostic where
  start : Position
  stop : Position
  message : String
deriving DecidableEq, Repr

namespace Diagnostic

/-- Every diagnostic is an error. -/
def severity : Nat := 1

/-- Who reports the diagnostics. -/
def source : String := "clove-ls"

/-- How many columns a diagnostic at a token covers. -/
def width (t : Token) : Nat :=
  max (if t.length = 0 then t.text.length else t.length) 1

/-- The diagnostic of a failure. Without a token it stands at the start of the text. -/
def ofFailure : Failure → Diagnostic
  | .read e =>
    match e.token? with
    | some t => ⟨t.start, { t.start with column := t.start.column + width t }, e.text⟩
    | none => ⟨{}, { column := 1 }, e.text⟩
  | e => ⟨{}, { column := 1 }, e.message?.getD ""⟩

/-- The diagnostics of a text. -/
def ofText (text : String) : Except Failure (List Diagnostic) :=
  (Reader.ofText text).parseAll.1.map fun parsed => parsed.failure.toList.map ofFailure

end Diagnostic

end LispCore
