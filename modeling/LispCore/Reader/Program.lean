import LispCore.Reader.Form
import LispCore.Token.Lexer

/-!
Reading programs: all forms of a stream, in order. Reading stops at the end of the input or at the
first failure, and the forms before a failure are kept. `read` and `readAll` give either forms or a
failure, `parseAll` both, where the failure is one that it recovers from.
-/

namespace LispCore.Reader

/-- The reader of a text. -/
def ofText (text : String) (symbols : SymbolTable := ∅) : Reader := ⟨.ofText text, symbols⟩

/-- The forms up to the end of the input or to a failure, and the failure. -/
def forms (r : Reader) : List Value × Option Failure × Reader :=
  match _h : r.form with
  | (.ok none, r') => ([], none, r')
  | (.error e, r') => ([], some e, r')
  | (.ok (some v), r') =>
    let (vs, failure, r'') := forms r'
    (v :: vs, failure, r'')
termination_by r.stream.size
decreasing_by exact size_resume_lt _h

/-- All forms, if none fails. -/
def readAll (r : Reader) : Except Failure (List Value) × Reader :=
  match r.forms with
  | (vs, none, r') => (.ok vs, r')
  | (_, some e, r') => (.error e, r')

/-- What was read of a program and why no more was. -/
structure Parsed where
  forms : List Value
  failure : Option Failure

/-- The forms up to a failure together with that failure, unless nothing recovers from it. -/
def parseAll (r : Reader) : Except Failure Parsed × Reader :=
  match r.forms with
  | (forms, none, r') => (.ok ⟨forms, none⟩, r')
  | (forms, some e, r') => (if e.isRecoverable then .ok ⟨forms, some e⟩ else .error e, r')

end LispCore.Reader
