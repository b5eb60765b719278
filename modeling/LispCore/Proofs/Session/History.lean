import LispCore.Proofs.Session.Growth
import LispCore.Session.Run

/-!
Histories of a store.

A `Turn` is what happens next: a session is made, a session is asked for something, or a run of a
program takes a step. What is asked is a `Command`, whether it comes from outside or from the form
that a coroutine is evaluating, and `Store.carryOut?` answers it. An `Event` is a turn that was
taken, with the store before it and after it, and a `History` is a chain of events.

`RunStep` says once what a step of a run can do and what comes of a form in it (`stepRun?_iff`,
`runStep_of_stepCoroutine?`), and `Store.stepRun?_eq_none_iff` when there is no step.
-/

namespace LispCore

variable {H : Host}

/-! ### Commands -/

/-- What can be asked of a session: what an evaluation asks for, and what can be done with it from
outside. -/
inductive Command (H : Host) where
  | request (r : Request)
  | intern (name : String)
  | find (key : Value)
  | keep (v : Value)
  | addFunction (name : String) (b : Behaviour H)
  | addMacro (name : String) (b : Behaviour H)
  | call (name : String) (args : List Value)
  | expand (name : String) (args : List Value)
  | loadText (text : String)
  | loadFile (roots : SourceRoots) (name : String)
  | loadForms (forms : List Value)
  | readAll (text : String)
  | duplicate
  | addCoroutine

namespace Store

/-- Carries out a command in a session, unless it has to wait for a channel. -/
def carryOut? (st : Store H) (sid : Nat) : Command H → Option (Except Error Value × Store H)
  | .request r => st.answer? sid r
  | .intern name =>
    let (s, st) := st.intern sid name
    some (.ok (.symbol s), st)
  | .find key => some ((st.isBound sid key).map .bool, st)
  | .keep v =>
    let (v, st) := st.retain v
    some (.ok v, st)
  | .addFunction name b =>
    let (f, st) := st.addFunction sid name b
    some (.ok f.toValue, st)
  | .addMacro name b =>
    let (f, st) := st.addMacro sid name b
    some (.ok f.toValue, st)
  | .call name args => st.call? sid name args
  | .expand name args => st.expand? sid name args
  | .loadText text =>
    let (result, st) := st.loadText sid text
    some (result.map fun _ => .null, st)
  | .loadFile roots name =>
    let (result, st) := st.loadFile sid roots name
    some (result.map fun _ => .null, st)
  | .loadForms forms =>
    let (result, st) := st.loadForms sid forms
    some (result.map fun _ => .null, st)
  | .readAll text =>
    let (forms, st) := st.readAll sid text
    some ((forms.mapError .reading).map .array, st)
  | .duplicate => some (.ok .null, (st.duplicate sid).2)
  | .addCoroutine =>
    let (id, st) := st.addCoroutine sid
    some (.ok (.coroutine id), st)

/-- The function or the macro that a command applies, and to what. -/
def application? (st : Store H) (sid : Nat) : Command H → Option (Builtin × List Value)
  | .request (.apply (.builtin id name) args) => some (⟨id, name⟩, args)
  | .call name args => (st.function sid name).1.toOption.map (·, args)
  | .expand name args => (st.expander sid name).1.toOption.map (·, args)
  | _ => none

end Store

/-! ### Turns -/

/-- What happens next in a store. A run that is not the run of a coroutine is held by its caller. -/
inductive Turn (H : Host) where
  | session (evaluator : Option H.Evaluator)
  | command (sid : Nat) (c : Command H)
  | run (run : Run H)
  | coroutine (id : Nat)

/-- What the form in progress of a run asks for next. -/
def Run.request? (run : Run H) : Option Request :=
  run.task.bind fun task =>
    match H.next task with
    | .ask request _ => some request
    | _ => none

namespace Store

/-- The run of a coroutine that was started and has not finished. -/
def running? (st : Store H) (id : Nat) : Option (Run H) :=
  match st.coroutines[id]? with
  | some ⟨_, .running run⟩ => some run
  | _ => none

/-- Takes a turn, unless it has to wait or there is no such session or coroutine. -/
def take? (st : Store H) : Turn H → Option (Store H)
  | .session evaluator => some (st.addSession evaluator).2
  | .command sid c => if sid < st.sessions.size then (st.carryOut? sid c).map (·.2) else none
  | .run run => if run.session < st.sessions.size then (st.stepRun? run).map (·.2) else none
  | .coroutine id => st.stepCoroutine? id

/-- What a turn asks, and of which session. -/
def asks? (st : Store H) : Turn H → Option (Nat × Command H)
  | .session _ => none
  | .command sid c => some (sid, c)
  | .run run => run.request?.map fun r => (run.session, .request r)
  | .coroutine id =>
    (st.running? id).bind fun run => run.request?.map fun r => (run.session, .request r)

end Store

/-- A turn that was taken, with the store before it and after it. -/
structure Event (H : Host) where
  before : Store H
  turn : Turn H
  after : Store H
  happened : before.take? turn = some after

namespace Event

/-- The session in which something was asked for. -/
def session? (e : Event H) : Option Nat := (e.before.asks? e.turn).map (·.1)

/-- The answer to what was asked for. -/
def answer? (e : Event H) : Option (Except Error Value) :=
  (e.before.asks? e.turn).bind fun (sid, c) => (e.before.carryOut? sid c).map (·.1)

end Event

/-- Takes turns one after another, if they all can be taken: the events, the latest first, and the
store that they lead to. -/
def Store.replay? (st : Store H) : List (Turn H) → Option (List (Event H) × Store H)
  | [] => some ([], st)
  | turn :: turns =>
    match h : st.take? turn with
    | none => none
    | some st₁ => (st₁.replay? turns).map fun (es, st') => (es ++ [⟨st, turn, st₁, h⟩], st')

/-- `History st es st'`: the events `es`, the latest first, lead from a store to another. -/
inductive History (st : Store H) : List (Event H) → Store H → Prop where
  | nil : History st [] st
  | cons {es} (e : Event H) : History st es e.before → History st (e :: es) e.after

namespace History

variable {st st' st'' : Store H} {es later : List (Event H)}

theorem append (h : History st es st') (h' : History st' later st'') :
    History st (later ++ es) st'' := by
  induction h' with
  | nil => exact h
  | cons e _ ih => exact .cons e ih

/-- The events of turns that are replayed are a history. -/
theorem of_replay? {turns : List (Turn H)} (h : st.replay? turns = some (es, st')) :
    History st es st' ∧ es.reverse.map (·.turn) = turns := by
  induction turns generalizing st es with
  | nil =>
    cases h
    exact ⟨.nil, rfl⟩
  | cons turn turns ih =>
    rw [Store.replay?] at h
    split at h
    · cases h
    · next st₁ htake =>
      obtain ⟨⟨later, st₂⟩, hrest, heq⟩ := Option.map_eq_some_iff.mp h
      cases heq
      obtain ⟨hlater, hturns⟩ := ih hrest
      refine ⟨(History.cons ⟨st, turn, st₁, htake⟩ .nil).append hlater, ?_⟩
      simpa using hturns

end History

/-- What some events, the latest first, tell one after another. -/
def chronicle {α : Type} (tells? : Event H → Option α) (es : List (Event H)) : List α :=
  es.reverse.filterMap tells?

theorem chronicle_cons {α : Type} (tells? : Event H → Option α) (e : Event H)
    (es : List (Event H)) :
    chronicle tells? (e :: es) = chronicle tells? es ++ (tells? e).toList := by
  rw [chronicle, List.reverse_cons, List.filterMap_append, ← chronicle]
  cases h : tells? e <;> simp [h]

/-! ### Steps of runs -/

/-- The status of a coroutine after a step of its run. -/
def Store.Outcome.status : Store.Outcome H → CoroutineStatus H
  | .more run => .running run
  | .finished result => .finished result

/-- What comes of a form of a program: it is begun, it gives a value, or it raises an error. -/
inductive Mark where
  | began (form : Value)
  | gave (v : Value)
  | raised (e : Error)

/-- `RunStep st run mark outcome st'`: what a step of a run does, with what comes of a form in it.
It ends the run, begins the next form, goes on with the form in progress or ends it, or answers what
that form asks for. -/
inductive RunStep (st : Store H) (run : Run H) :
    Option Mark → Store.Outcome H → Store H → Prop where
  | unable : run.task = none → (st.session run.session).evaluator = none →
      RunStep st run none (.finished (.error .noEvaluator)) st
  | ended {ev} : run.task = none → (st.session run.session).evaluator = some ev →
      (st.session run.session).program[run.begun]? = none →
      RunStep st run none (.finished (.ok run.last)) st
  | began {ev form} : run.task = none → (st.session run.session).evaluator = some ev →
      (st.session run.session).program[run.begun]? = some form →
      RunStep st run (some (.began form))
        (.more { run with begun := run.begun + 1, task := some (H.start ev form) }) st
  | went {task task'} : run.task = some task → H.next task = .more task' →
      RunStep st run none (.more { run with task := some task' }) st
  | gave {task v} : run.task = some task → H.next task = .finished v →
      RunStep st run (some (.gave v)) (.more { run with task := none, last := v }) st
  | raised {task e} : run.task = some task → H.next task = .failed e →
      RunStep st run (some (.raised e)) (.finished (.error e)) st
  | asked {task request resume a st'} : run.task = some task →
      H.next task = .ask request resume → st.answer? run.session request = some (a, st') →
      RunStep st run none (.more { run with task := some (resume a) }) st'

variable {st st' : Store H} {run : Run H} {mark : Option Mark} {outcome : Store.Outcome H}

theorem exists_runStep_of_stepRun? (h : st.stepRun? run = some (outcome, st')) :
    ∃ mark, RunStep st run mark outcome st' := by
  rw [Store.stepRun?] at h
  cases htask : run.task with
  | none =>
    rw [htask] at h
    cases hev : (st.session run.session).evaluator with
    | none =>
      simp only [hev] at h
      cases h
      exact ⟨_, .unable htask hev⟩
    | some ev =>
      cases hform : (st.session run.session).program[run.begun]? with
      | none =>
        simp only [hev, hform] at h
        cases h
        exact ⟨_, .ended htask hev hform⟩
      | some form =>
        simp only [hev, hform] at h
        cases h
        exact ⟨_, .began htask hev hform⟩
  | some task =>
    rw [htask] at h
    cases hnext : H.next task with
    | more task' =>
      simp only [hnext] at h
      cases h
      exact ⟨_, .went htask hnext⟩
    | finished v =>
      simp only [hnext] at h
      cases h
      exact ⟨_, .gave htask hnext⟩
    | failed e =>
      simp only [hnext] at h
      cases h
      exact ⟨_, .raised htask hnext⟩
    | ask request resume =>
      simp only [hnext] at h
      obtain ⟨⟨a, st₁⟩, hanswer, heq⟩ := Option.map_eq_some_iff.mp h
      cases heq
      exact ⟨_, .asked htask hnext hanswer⟩

/-- **`RunStep` is what `stepRun?` does.** -/
theorem stepRun?_iff :
    st.stepRun? run = some (outcome, st') ↔ ∃ mark, RunStep st run mark outcome st' := by
  refine ⟨exists_runStep_of_stepRun?, ?_⟩
  rintro ⟨mark, h⟩
  rw [Store.stepRun?]
  cases h with
  | unable htask hev => simp [htask, hev]
  | ended htask hev hform | began htask hev hform => simp [htask, hev, hform]
  | went htask hnext | gave htask hnext | raised htask hnext => simp [htask, hnext]
  | asked htask hnext hanswer => simp [htask, hnext, hanswer]

/-- What comes of a form in a step of a run of a program, by what the step leads to. -/
def Run.mark? (run : Run H) (program : List Value) : Store.Outcome H → Option Mark
  | .more run' =>
    match run.task, run'.task with
    | none, some _ => program[run.begun]?.map .began
    | some _, none => some (.gave run'.last)
    | _, _ => none
  | .finished (.error e) => run.task.map fun _ => .raised e
  | .finished (.ok _) => none

theorem RunStep.mark?_eq (h : RunStep st run mark outcome st') :
    run.mark? (st.session run.session).program outcome = mark := by
  cases h with
  | unable htask => simp [Run.mark?, htask]
  | ended => rfl
  | began htask _ hform => simp [Run.mark?, htask, hform]
  | went htask | gave htask | raised htask | asked htask => simp [Run.mark?, htask]

/-- A step of a run answers what the form in progress asks for, or leaves the store as it is. -/
theorem RunStep.request (h : RunStep st run mark outcome st') :
    (∃ r a, run.request? = some r ∧ st.answer? run.session r = some (a, st')) ∨
      (run.request? = none ∧ st' = st) := by
  cases h with
  | asked htask hnext hanswer => exact .inl ⟨_, _, by simp [Run.request?, htask, hnext], hanswer⟩
  | unable htask | ended htask | began htask => exact .inr ⟨by simp [Run.request?, htask], rfl⟩
  | went htask hnext | gave htask hnext | raised htask hnext =>
    exact .inr ⟨by simp [Run.request?, htask, hnext], rfl⟩

/-- A run stays in its session. -/
theorem RunStep.session {run' : Run H} (h : RunStep st run mark (.more run') st') :
    run'.session = run.session := by
  cases h <;> rfl

/-- A step of a coroutine is a step of its run. -/
theorem runStep_of_stepCoroutine? {id : Nat} (h : st.stepCoroutine? id = some st') :
    ∃ sid run mark outcome st₁, st.coroutines[id]? = some ⟨sid, .running run⟩ ∧
      RunStep st run mark outcome st₁ ∧ st' = st₁.setStatus id outcome.status := by
  rw [Store.stepCoroutine?] at h
  split at h
  · next sid run hrunning =>
    obtain ⟨⟨outcome, st₁⟩, hstep, heq⟩ := Option.map_eq_some_iff.mp h
    obtain ⟨mark, hrun⟩ := stepRun?_iff.mp hstep
    refine ⟨sid, run, mark, outcome, st₁, hrunning, hrun, ?_⟩
    rw [← heq]
    cases outcome <;> rfl
  · cases h

end LispCore
