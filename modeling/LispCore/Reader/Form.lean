import LispCore.Reader.Literal
import LispCore.Token.Stream
import LispCore.Value.List

/-!
Reading one form from a stream of tokens.

The reader holds a stack of the forms it is inside of, the innermost first, and takes one token at a
time. `State.step` says what a token does: it may open a form, stand for a value by itself, or close
the innermost form, which is then a value for the form around it. A value with no form around it is
the result. No token after the last one of a form is looked at. The stack grows with the depth of
the text and has no limit: forms are nested here to any depth, where a reader that recurses on the
stack of its host stops at the depth that the host allows.

Names are interned in the order in which the forms that use them are complete: a symbol when its
token is read, the name of a marker after its operand, the name of a hash at its closing bracket.
-/

namespace LispCore.Reader

/-- A form that is not complete. Elements are kept with the last one first. -/
inductive Frame where
  | list (elements : List Value)
  | dotted (elements : List Value)
  | array (items : List Value)
  | hash (items : List Value)
  | marked (m : Marker)

/-- What the reader is waiting for: a form or the end of the innermost one, or, after a dotted tail,
the bracket that closes the list. -/
inductive State where
  | form (stack : List Frame)
  | close (elements : List Value) (tail : Value) (stack : List Frame)

/-- What a token leads to: a state with more to read, a complete form, or an error. -/
inductive Progress where
  | more (state : State)
  | done (v : Value)
  | failed (e : Failure)

/-- Hands a complete value to the form around it. Markers wrap it at once, and the value that this
gives is handed on. -/
def complete (v : Value) : List Frame → SymbolTable → Progress × SymbolTable
  | [], t => (.done v, t)
  | .list elements :: stack, t => (.more (.form (.list (v :: elements) :: stack)), t)
  | .dotted elements :: stack, t => (.more (.close elements v stack), t)
  | .array items :: stack, t => (.more (.form (.array (v :: items) :: stack)), t)
  | .hash items :: stack, t => (.more (.form (.hash (v :: items) :: stack)), t)
  | .marked m :: stack, t =>
    let (name, t) := t.intern m.formName
    complete (.ofList [.symbol name, v]) stack t

/-- Hands on the value of a conversion that may fail. -/
def completeWith (v : Except Failure Value) (stack : List Frame) (t : SymbolTable) :
    Progress × SymbolTable :=
  match v with
  | .ok v => complete v stack t
  | .error e => (.failed e, t)

/-- What a token does where a form may start. -/
def start (tok : Token) (stack : List Frame) (t : SymbolTable) : Progress × SymbolTable :=
  match tok.kind with
  | .opening .round => (.more (.form (.list [] :: stack)), t)
  | .opening .square => (.more (.form (.array [] :: stack)), t)
  | .opening .curly => (.more (.form (.hash [] :: stack)), t)
  | .marker m => (.more (.form (.marked m :: stack)), t)
  | .symbol =>
    let (s, t) := t.intern tok.text
    complete (.symbol s) stack t
  | .bool => complete (.bool (tok.text == "true")) stack t
  | .integer r => completeWith ((tok.readInteger r).map .int) stack t
  | .float => completeWith (tok.readFloat.map .float) stack t
  | .string => complete (.str tok.text) stack t
  | .char =>
    match tok.text.toList with
    | [c] => complete (.char c) stack t
    | _ => (.failed (.read (.notOneCharacter tok)), t)
  | .closing _ | .dot | .endOfInput => (.failed (.read (.noForm tok)), t)

/-- What a token other than the end of the input does. -/
def State.step (tok : Token) : State → SymbolTable → Progress × SymbolTable
  | .close elements tail stack, t =>
    if tok.kind = .closing .round then complete (Value.ofList elements.reverse tail) stack t
    else (.failed (.read (.extraAfterDottedTail tok)), t)
  | .form (.list elements :: stack), t =>
    if tok.kind = .closing .round then complete (Value.ofList elements.reverse) stack t
    else if tok.kind = .dot ∧ elements ≠ [] then (.more (.form (.dotted elements :: stack)), t)
    else start tok (.list elements :: stack) t
  | .form (.array items :: stack), t =>
    if tok.kind = .closing .square then complete (.array items.reverse) stack t
    else start tok (.array items :: stack) t
  | .form (.hash items :: stack), t =>
    if tok.kind = .closing .curly then
      let (name, t) := t.intern "hash"
      complete (.cons (.symbol name) (Value.ofList items.reverse)) stack t
    else start tok (.hash items :: stack) t
  | .form stack, t => start tok stack t

/-- What the end of the input means: nothing is left to read, or a form is not complete. -/
def State.atEnd (tok : Token) : State → Except Failure (Option Value)
  | .form [] => .ok none
  | .form (.list _ :: _) => .error (.read (.endInside .round tok))
  | .form (.array _ :: _) => .error (.read (.endInside .square tok))
  | .form (.hash _ :: _) => .error (.read (.endInside .curly tok))
  | .form (.dotted _ :: _) | .form (.marked _ :: _) => .error (.read (.endForOperand tok))
  | .close .. => .error (.read (.endAfterDottedTail tok))

end LispCore.Reader

namespace LispCore

/-- A stream of tokens and the table its symbols are interned in. -/
structure Reader where
  stream : TokenStream
  symbols : SymbolTable := ∅
deriving Inhabited

namespace Reader

/-- Reads on from a state to the end of the outermost form, or to the end of the input if no form
has been started. What was read up to an error is used up, and the names in it stay interned. -/
def resume (state : State) (r : Reader) : Except Failure (Option Value) × Reader :=
  match _h : r.stream.next with
  | (.error e, stream) => (.error e, { r with stream })
  | (.ok tok, stream) =>
    if _hend : tok.kind = .endOfInput then (state.atEnd tok, { r with stream })
    else
      match state.step tok r.symbols with
      | (.more state, symbols) => resume state ⟨stream, symbols⟩
      | (.done v, symbols) => (.ok (some v), ⟨stream, symbols⟩)
      | (.failed e, symbols) => (.error e, ⟨stream, symbols⟩)
termination_by r.stream.size
decreasing_by exact TokenStream.size_next_lt _h _hend

/-- Reads the next form; at the end of the input there is none. -/
def form (r : Reader) : Except Failure (Option Value) × Reader := r.resume (.form [])

/-- Reads the rest of a form whose opening bracket was used up before. -/
def inside (b : Bracket) (r : Reader) : Except Failure (Option Value) × Reader :=
  r.resume (.form [match b with
    | .round => .list []
    | .square => .array []
    | .curly => .hash []])

theorem size_resume_le (state : State) (r : Reader) :
    (r.resume state).2.stream.size ≤ r.stream.size := by
  fun_induction resume state r with
  | case1 state r e stream h => simpa only [h] using r.stream.size_next_le
  | case2 state r tok stream h => simpa only [h] using r.stream.size_next_le
  | case3 state r tok stream h hend state' symbols hs ih =>
    exact Nat.le_trans ih (Nat.le_of_lt (TokenStream.size_next_lt h hend))
  | case4 state r tok stream h => simpa only [h] using r.stream.size_next_le
  | case5 state r tok stream h => simpa only [h] using r.stream.size_next_le

/-- Reading a form uses up a part of the stream. -/
theorem size_resume_lt {state : State} {r r' : Reader} {v : Value}
    (h : r.resume state = (.ok (some v), r')) : r'.stream.size < r.stream.size := by
  rw [resume] at h
  split at h
  · cases h
  · next tok stream hn =>
    split at h
    · next hend =>
      exfalso
      cases state with
      | form stack =>
        rcases stack with _ | ⟨f, stack⟩
        · simp [State.atEnd] at h
        · cases f <;> simp [State.atEnd] at h
      | close => simp [State.atEnd] at h
    · next hend =>
      have hlt := TokenStream.size_next_lt hn hend
      split at h
      · next state' symbols _ =>
        have := size_resume_le state' ⟨stream, symbols⟩
        rw [h] at this
        exact Nat.lt_of_le_of_lt this hlt
      · cases h; exact hlt
      · cases h

end Reader

end LispCore
