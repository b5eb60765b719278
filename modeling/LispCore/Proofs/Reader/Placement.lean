import LispCore.Proofs.Reader.Program
import LispCore.Proofs.Token.Placement

/-!
Reading does not depend on where tokens stand.

Tokens that are moved are read as the same forms and intern the same names; only the failure that
stops the reading moves with its token. `State.step_moved` says so of one step, `State.scan_moved`
of all steps and `Scan.finish_moved` of the end of a source. `parsed_moved` draws the conclusion for
programs.
-/

namespace LispCore.Reader

variable {f : Position → Position}

/-- What a token leads to, with the failure moved if it is one. -/
def Progress.moved (f : Position → Position) : Progress → Progress
  | .failed e => .failed (e.moved f)
  | p => p

/-- What scanning gives, with the failure moved if a token was refused. -/
def Scan.moved (f : Position → Position) (s : Scan) : Scan :=
  { s with stop := s.stop.mapError (Failure.moved f) }

/-- What reading gives, with the failure moved if there is one. -/
def Reading.moved (f : Position → Position) (q : Reading) : Reading :=
  { q with failure := q.failure.map (Failure.moved f) }

/-- What was read of a program, with the failure moved if there is one. -/
def Parsed.moved (f : Position → Position) (p : Parsed) : Parsed :=
  { p with failure := p.failure.map (Failure.moved f) }

/-! ### Steps -/

theorem readInteger_moved (tok : Token) (r : Radix) :
    (tok.moved f).readInteger r = (tok.readInteger r).mapError (Failure.moved f) := by
  unfold Token.readInteger
  rw [Token.text_moved]
  split
  · rfl
  · dsimp only
    split
    · rfl
    · split <;> rfl

theorem readFloat_moved (tok : Token) :
    (tok.moved f).readFloat = tok.readFloat.mapError (Failure.moved f) := by
  unfold Token.readFloat
  rw [Token.text_moved]
  split
  · rfl
  · split <;> rfl

/-- The result of a step, with the failure moved if it is one. -/
def movedStep (f : Position → Position) (x : Progress × SymbolTable) : Progress × SymbolTable :=
  (x.1.moved f, x.2)

/-- A complete value is handed on without a failure, so there is nothing to move. -/
theorem complete_moved (v : Value) (stack : List Frame) (t : SymbolTable) :
    movedStep f (complete v stack t) = complete v stack t := by
  rcases h : complete v stack t with ⟨st | w | e, t'⟩
  · rfl
  · rfl
  · exact absurd h (complete_ne_failed v stack t e t')

theorem completeWith_moved {α : Type} (x : Except Failure α) (g : α → Value) (stack : List Frame)
    (t : SymbolTable) :
    completeWith ((x.mapError (Failure.moved f)).map g) stack t =
      movedStep f (completeWith (x.map g) stack t) := by
  cases x with
  | ok a => exact (complete_moved _ _ _).symm
  | error e => rfl

theorem start_moved (tok : Token) (stack : List Frame) (t : SymbolTable) :
    start (tok.moved f) stack t = movedStep f (start tok stack t) := by
  unfold start
  rw [Token.kind_moved, Token.text_moved, readFloat_moved]
  cases tok.kind with
  | opening b => cases b <;> rfl
  | marker | closing | dot | endOfInput => rfl
  | symbol | bool | string => exact (complete_moved _ _ _).symm
  | integer r =>
    dsimp only
    rw [readInteger_moved]
    exact completeWith_moved _ _ _ _
  | float => exact completeWith_moved _ _ _ _
  | char =>
    dsimp only
    split
    · exact (complete_moved _ _ _).symm
    · rfl

/-- **A moved token leads to the same**, and its refusal moves with it. -/
theorem State.step_moved (st : State) (tok : Token) (t : SymbolTable) :
    st.step (tok.moved f) t = movedStep f (st.step tok t) := by
  have hstart (stack : List Frame) := start_moved (f := f) tok stack t
  rcases st with (_ | ⟨frame, stack⟩) | ⟨elements, tail, stack⟩
  · exact hstart []
  · cases frame with
    | dotted | marked => exact hstart _
    | list elements =>
      simp only [State.step, Token.kind_moved, hstart, apply_ite (movedStep f), complete_moved]
      rfl
    | array items | hash items =>
      simp only [State.step, Token.kind_moved, hstart, apply_ite (movedStep f), complete_moved]
  · simp only [State.step, Token.kind_moved, apply_ite (movedStep f), complete_moved]
    rfl

/-! ### Programs -/

/-- **Moved tokens are scanned as the same forms**, and the refusal of one moves with it. -/
theorem State.scan_moved (toks : List Token) (st : State) (t : SymbolTable) :
    st.scan (toks.map (Token.moved f)) t = (st.scan toks t).moved f := by
  induction toks generalizing st t with
  | nil => rfl
  | cons tok toks ih =>
    rw [List.map_cons, State.scan, State.scan, State.step_moved]
    rcases st.step tok t with ⟨st' | v | e, t'⟩
    · exact ih st' t'
    · exact congrArg (Scan.after [v]) (ih (.form []) t')
    · rfl

theorem State.atEnd_moved (st : State) (tok : Token) :
    st.atEnd (tok.moved f) = (st.atEnd tok).mapError (Failure.moved f) := by
  rcases st with (_ | ⟨_ | _ | _ | _ | _, _⟩) | _ <;> rfl

theorem State.failureAt_moved (st : State) (last : Except Failure Token) :
    st.failureAt (movedItem f last) = (st.failureAt last).map (Failure.moved f) := by
  cases last with
  | error e => rfl
  | ok tok =>
    simp only [movedItem, State.failureAt, State.atEnd_moved]
    cases st.atEnd tok <;> rfl

theorem Scan.finish_moved (s : Scan) (last : Except Failure Token) :
    (s.moved f).finish (movedItem f last) = (s.finish last).moved f := by
  obtain ⟨forms, stop, t⟩ := s
  cases stop with
  | error e => rfl
  | ok st => exact congrArg (fun failure => Reading.mk forms failure t) (State.failureAt_moved st last)

/-- **A program whose tokens are moved is read as the same forms**, and what it is refused for moves
with its token. -/
theorem parsed_moved (q : Reading) : (q.moved f).parsed = q.parsed.map (Parsed.moved f) := by
  obtain ⟨forms, failure, t⟩ := q
  cases failure with
  | none => rfl
  | some e =>
    simp only [Reading.moved, Option.map_some, Reading.parsed, Failure.isRecoverable_moved]
    split
    · rfl
    · next h => rw [Failure.moved_of_not_recoverable h]; rfl

end LispCore.Reader
