import LispCore.Session.Call

/-!
Running programs.

A run evaluates the forms of a session's program in order and ends with the last value or with the
first error. It goes on one step at a time, and a step that has to wait for a channel changes
nothing, so that the runs of coroutines can take turns in any order. `advance?` takes a step of the
first one that can.
-/

namespace LispCore

namespace Store

variable {H : Host}

/-- Answers a request of an evaluation in a session, unless it has to wait. -/
def answer? (st : Store H) (sid : Nat) : Request → Option (Except Error Value × Store H)
  | .lookup key => some (st.lookup sid key)
  | .define key v => some (st.define sid key v)
  | .isMacro s => some (.ok (.bool ((st.session sid).macros.contains s)), st)
  | .function name =>
    let (f, st) := st.function sid name
    some (f.map Builtin.toValue, st)
  | .expander name =>
    let (f, st) := st.expander sid name
    some (f.map Builtin.toValue, st)
  | .apply (.builtin id name) args => st.invoke? sid ⟨id, name⟩ args
  | .apply f _ => some (.error (.notApplicable f), st)

/-- What a step of a run leads to. -/
inductive Outcome (H : Host) where
  | more (run : Run H)
  | finished (result : Except Error Value)

/-- One step of a run: it begins the next form of the program as it is now, or goes on with the form
in progress. There is no step while the form in progress has to wait. -/
def stepRun? (st : Store H) (run : Run H) : Option (Outcome H × Store H) :=
  match run.task with
  | none =>
    let se := st.session run.session
    match se.evaluator, se.program[run.begun]? with
    | none, _ => some (.finished (.error .noEvaluator), st)
    | some _, none => some (.finished (.ok run.last), st)
    | some ev, some form =>
      some (.more { run with begun := run.begun + 1, task := some (H.start ev form) }, st)
  | some task =>
    match H.next task with
    | .more task => some (.more { run with task := some task }, st)
    | .finished v => some (.more { run with task := none, last := v }, st)
    | .failed e => some (.finished (.error e), st)
    | .ask request resume =>
      (st.answer? run.session request).map fun (r, st) =>
        (.more { run with task := some (resume r) }, st)

/-- One step of a coroutine that was started and has not finished, unless it has to wait. -/
def stepCoroutine? (st : Store H) (id : Nat) : Option (Store H) :=
  match st.coroutines[id]? with
  | some ⟨_, .running run⟩ =>
    (st.stepRun? run).map fun (outcome, st) =>
      st.setStatus id (match outcome with
        | .more run => .running run
        | .finished result => .finished result)
  | _ => none

/-- A step of the first coroutine that can take one. -/
def advance? (st : Store H) : Option (Store H) :=
  (List.range st.coroutines.size).findSome? st.stepCoroutine?

/-- Whether a coroutine has been started. -/
def isStarted (st : Store H) (id : Nat) : Bool :=
  match st.coroutines[id]? with
  | none | some ⟨_, .unstarted⟩ => false
  | some _ => true

/-- The result of a coroutine that has finished. -/
def result? (st : Store H) (id : Nat) : Option (Except Error Value) :=
  match st.coroutines[id]? with
  | some ⟨_, .finished result⟩ => some result
  | _ => none

end Store

end LispCore
