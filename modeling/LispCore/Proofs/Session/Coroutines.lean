import LispCore.Proofs.Session.Channels
import LispCore.Proofs.Session.Loading

/-!
Coroutines, along histories.

A macro that makes coroutines expands to the call that starts a new one, whose session is a copy of
the caller's with the forms as its program (`Store.Expanded`). From then on, whatever happens in
between, the coroutine is started at most once and takes the forms in order, one after the other,
until one of them raises an error (`Life`), and its session is its own (`Store.RunsOnce`). Once
started it can always go on, but for a form that waits (`Store.stepCoroutine?_eq_none_iff`).
-/

namespace LispCore

variable {H : Host} {st st' : Store H} {es : List (Event H)} {d : Deed H} {id : Nat}

/-! ### What a coroutine does -/

/-- What comes of a form of a coroutine in an event. -/
def Event.mark? (e : Event H) (id : Nat) : Option Mark :=
  match e.turn with
  | .coroutine id' =>
    if id' = id then
      (e.before.running? id).bind fun run => (e.before.stepRun? run).bind fun (outcome, _) =>
        run.mark? (e.before.session run.session).program outcome
    else none
  | _ => none

/-- What came of the forms of a coroutine, in order. -/
def marks (es : List (Event H)) (id : Nat) : List Mark := chronicle (·.mark? id) es

/-- Whether a deed starts a coroutine. -/
def Deed.starts (d : Deed H) (id : Nat) : Bool :=
  match d with
  | .started id' => id' == id
  | _ => false

/-- How often a coroutine was started. -/
def starts (es : List (Event H)) (id : Nat) : Nat := es.countP (·.deed.starts id)

/-- What comes of forms that are evaluated, each with its value. -/
def marksOf (done : List (Value × Value)) : List Mark :=
  done.flatMap fun (form, v) => [.began form, .gave v]

/-- The value of the last of some forms that were evaluated. -/
def lastOf (done : List (Value × Value)) : Value := (done.getLast?.map (·.2)).getD .null

/-- `Life ev body program n ms status`: how a coroutine got to a status after `n` starts. It took
the forms of its program in order and one after the other, each was evaluated before the next was
begun, and after an error none was. Where it ends without an error, all of `body` was evaluated. -/
inductive Life (ev : Option H.Evaluator) (body program : List Value) :
    Nat → List Mark → CoroutineStatus H → Prop where
  | unstarted : Life ev body program 0 [] .unstarted
  | between {done} {run : Run H} : run.task = none → run.begun = done.length →
      run.last = lastOf done → done.map (·.1) <+: program → (ev = none → done = []) →
      Life ev body program 1 (marksOf done) (.running run)
  | amid {done form} {run : Run H} {task} : run.task = some task →
      run.begun = done.length + 1 → ev.isSome → done.map (·.1) ++ [form] <+: program →
      Life ev body program 1 (marksOf done ++ [.began form]) (.running run)
  | finished {done} : ev.isSome → body <+: done.map (·.1) → done.map (·.1) <+: program →
      Life ev body program 1 (marksOf done) (.finished (.ok (lastOf done)))
  | raised {done form e} : ev.isSome → done.map (·.1) ++ [form] <+: program →
      Life ev body program 1 (marksOf done ++ [.began form, .raised e]) (.finished (.error e))
  | unable : ev = none → Life ev body program 1 [] (.finished (.error .noEvaluator))

variable {ev : Option H.Evaluator} {body program program' : List Value} {n : Nat} {ms : List Mark}
  {status : CoroutineStatus H}

/-- What a coroutine has done does not depend on what is put at the end of its program. -/
theorem Life.mono (h : Life ev body program n ms status) (hprogram : program <+: program') :
    Life ev body program' n ms status := by
  cases h with
  | unstarted => exact .unstarted
  | between htask hbegun hlast hdone hev =>
    exact .between htask hbegun hlast (hdone.trans hprogram) hev
  | amid htask hbegun hev hdone => exact .amid htask hbegun hev (hdone.trans hprogram)
  | finished hev hbody hdone => exact .finished hev hbody (hdone.trans hprogram)
  | raised hev hdone => exact .raised hev (hdone.trans hprogram)
  | unable hev => exact .unable hev

/-- The forms of a prefix and the next one. -/
theorem prefix_append_of_getElem? {xs ys : List Value} {x : Value} (h : xs <+: ys)
    (hx : ys[xs.length]? = some x) : xs ++ [x] <+: ys := by
  obtain ⟨zs, rfl⟩ := h
  rw [List.getElem?_append_right (Nat.le_refl _), Nat.sub_self] at hx
  cases zs with
  | nil => cases hx
  | cons z zs =>
    cases hx
    exact ⟨zs, by simp⟩

/-- A prefix with nothing after it is the whole. -/
theorem eq_of_prefix_of_getElem?_none {xs ys : List Value} (h : xs <+: ys)
    (hnone : ys[xs.length]? = none) : xs = ys :=
  h.eq_of_length_le (List.getElem?_eq_none_iff.mp hnone)

theorem marksOf_append (done : List (Value × Value)) (form v : Value) :
    marksOf (done ++ [(form, v)]) = marksOf done ++ [.began form, .gave v] := by
  rw [marksOf, List.flatMap_append]
  rfl

theorem lastOf_append (done : List (Value × Value)) (form v : Value) :
    lastOf (done ++ [(form, v)]) = v := by
  rw [lastOf, List.getLast?_concat]
  rfl

/-- **A step of a run is a step of its life.** -/
theorem RunStep.life {run : Run H} {mark : Option Mark} {outcome : Store.Outcome H}
    (h : RunStep st run mark outcome st')
    (hlife : Life (st.session run.session).evaluator body (st.session run.session).program n ms
      (.running run))
    (hbody : body <+: (st.session run.session).program) :
    Life (st.session run.session).evaluator body (st.session run.session).program n
      (ms ++ mark.toList) outcome.status := by
  cases hlife with
  | @between done _ htask hbegun hlast hdone hnone =>
    rw [← List.length_map (fun x : Value × Value => x.1)] at hbegun
    cases h with
    | unable _ hev =>
      rw [hnone hev]
      exact .unable hev
    | ended _ hev hform =>
      rw [Option.toList_none, List.append_nil, Store.Outcome.status, hlast]
      rw [hbegun] at hform
      have hall := eq_of_prefix_of_getElem?_none hdone hform
      exact .finished (by rw [hev]; rfl) (hall ▸ hbody) hdone
    | @began _ form _ hev hform =>
      rw [hbegun] at hform
      refine .amid rfl ?_ (by rw [hev]; rfl) (prefix_append_of_getElem? hdone hform)
      rw [hbegun, List.length_map]
    | went htask' | gave htask' | raised htask' | asked htask' =>
      rw [htask] at htask'
      cases htask'
  | @amid done form _ task htask hbegun hsome hdone =>
    cases h with
    | unable htask' | ended htask' | began htask' =>
      rw [htask] at htask'
      cases htask'
    | went | asked =>
      rw [Option.toList_none, List.append_nil]
      exact .amid rfl hbegun hsome hdone
    | @gave _ v =>
      have hmarks : marksOf done ++ [Mark.began form] ++ [.gave v] =
          marksOf (done ++ [(form, v)]) := by
        rw [marksOf_append, List.append_assoc]
        rfl
      rw [Option.toList_some, hmarks]
      refine .between rfl ?_ (lastOf_append done form v).symm ?_ fun hev => ?_
      · rw [hbegun, List.length_append, List.length_singleton]
      · rw [List.map_append]
        exact hdone
      · rw [hev] at hsome
        cases hsome
    | @raised _ e =>
      rw [Option.toList_some, List.append_assoc]
      exact .raised hsome hdone

/-! ### What becomes of a coroutine -/

variable {child : Nat}

namespace Store

theorem coroutine_setStatus_self (h : st.coroutines[id]? = some ⟨child, status⟩)
    (status' : CoroutineStatus H) :
    (st.setStatus id status').coroutines[id]? = some ⟨child, status'⟩ := by
  rw [setStatus, Array.getElem?_modify, if_pos rfl, h]
  rfl

theorem coroutine_setStatus_of_ne {id' : Nat} (hne : id ≠ id') (status' : CoroutineStatus H) :
    (st.setStatus id' status').coroutines[id]? = st.coroutines[id]? := by
  rw [setStatus, Array.getElem?_modify, if_neg (Ne.symm hne)]

/-- A coroutine that is unstarted is started by a change, or its status stays as it is. -/
theorem Change.coroutine (h : st.Change d st') (hc : st.coroutines[id]? = some ⟨child, status⟩) :
    (d.starts id = true ∧ status = .unstarted ∧
      st'.coroutines[id]? = some ⟨child, .running { session := child }⟩) ∨
    (d.starts id = false ∧ st'.coroutines[id]? = some ⟨child, status⟩) := by
  cases h with
  | nothing | created | bound | named | loaded | copied | opened | sent | received =>
    exact .inr ⟨rfl, hc⟩
  | spawned | held => exact .inr ⟨rfl, getElem?_push_of_some hc _⟩
  | @started id' sid hunstarted =>
    by_cases hid : id = id'
    · subst hid
      rw [hunstarted] at hc
      cases hc
      exact .inl ⟨beq_self_eq_true id, rfl, coroutine_setStatus_self hunstarted _⟩
    · refine .inr ⟨beq_false_of_ne (Ne.symm hid), ?_⟩
      rw [coroutine_setStatus_of_ne hid]
      exact hc

theorem Done.coroutine (h : st.Done d st') (hc : st.coroutines[id]? = some ⟨child, status⟩) :
    (d.starts id = true ∧ status = .unstarted ∧
      st'.coroutines[id]? = some ⟨child, .running { session := child }⟩) ∨
    (d.starts id = false ∧ st'.coroutines[id]? = some ⟨child, status⟩) := by
  obtain ⟨s₁, s₂, hq, hchange, hq'⟩ := h
  rw [← hq.coroutines] at hc
  rw [hq'.coroutines]
  exact hchange.coroutine hc

/-- A program only grows, and only by loading. -/
theorem Becomes.program_isPrefix {m : Nat} {se : Session H} (h : st.Becomes d m se)
    (hm : m < st.sessions.size) :
    (st.session m).program <+: se.program ∧
      ((∀ forms, d ≠ .loaded m forms) → se.program = (st.session m).program) := by
  cases h with
  | created | copied | spawned => exact absurd hm (Nat.lt_irrefl _)
  | bound | named | same => exact ⟨List.prefix_refl _, fun _ => rfl⟩
  | loaded => exact ⟨List.prefix_append _ _, fun h => absurd rfl (h _)⟩

end Store

namespace Event

variable (e : Event H)

theorem program_isPrefix (ho : e.before.Orderly) {m : Nat} (hm : m < e.before.sessions.size) :
    (e.before.session m).program <+: (e.after.session m).program ∧
      ((∀ forms, e.deed ≠ .loaded m forms) →
        (e.after.session m).program = (e.before.session m).program) := by
  obtain ⟨s₁, hq, hbecomes⟩ := e.becomes ho (Nat.lt_of_lt_of_le hm (e.grows ho).sessions)
  have hprogram := hbecomes.program_isPrefix (by rwa [hq.sessions])
  rw [hq.session] at hprogram
  exact hprogram

/-- **An event is a step of the life of each coroutine**, or leaves it as it is. -/
theorem life (ho : e.before.Orderly) (hc : e.before.coroutines[id]? = some ⟨child, status⟩)
    (hlife : Life (e.before.session child).evaluator body (e.before.session child).program n ms
      status)
    (hbody : body <+: (e.before.session child).program) :
    ∃ status', e.after.coroutines[id]? = some ⟨child, status'⟩ ∧
      Life (e.before.session child).evaluator body (e.before.session child).program
        (n + if e.deed.starts id then 1 else 0) (ms ++ (e.mark? id).toList) status' := by
  -- What the deed does to the coroutine, where no step of it is taken.
  have hdone {st₁ : Store H} (hdone : e.before.Done e.deed st₁) :
      ∃ status', st₁.coroutines[id]? = some ⟨child, status'⟩ ∧
        Life (e.before.session child).evaluator body (e.before.session child).program
          (n + if e.deed.starts id then 1 else 0) ms status' := by
    obtain ⟨hstarts, rfl, hc'⟩ | ⟨hstarts, hc'⟩ := hdone.coroutine hc
    · cases hlife
      refine ⟨_, hc', ?_⟩
      rw [if_pos hstarts]
      exact show Life _ _ _ 1 (marksOf []) _ from
        .between rfl rfl rfl List.nil_prefix fun _ => rfl
    · refine ⟨_, hc', ?_⟩
      rw [if_neg (by rw [hstarts]; nofun)]
      exact hlife
  obtain ⟨hdone', hturn⟩ |
    ⟨id', sid, run, mark, outcome, st₁, hturn, hrunning, hstep, hdone', hafter⟩ := e.did ho
  · have hmark : e.mark? id = none := by
      rw [mark?]
      cases h : e.turn with
      | coroutine id' => exact absurd h (hturn id')
      | _ => rfl
    rw [hmark, Option.toList_none, List.append_nil]
    exact hdone hdone'
  · by_cases hid : id' = id
    · subst hid
      rw [hrunning] at hc
      cases hc
      have hsession : run.session = child := (ho.coroutines hrunning).run rfl
      have hmark : e.mark? id' = mark := by
        rw [mark?, hturn]
        simp [Store.running?, hrunning, stepRun?_iff.mpr ⟨mark, hstep⟩, hstep.mark?_eq]
      obtain ⟨-, hunstarted, -⟩ | ⟨hstarts, hc'⟩ := hdone'.coroutine hrunning
      · cases hunstarted
      · rw [hmark, hafter, if_neg (by rw [hstarts]; nofun)]
        refine ⟨_, Store.coroutine_setStatus_self hc' _, ?_⟩
        rw [← hsession] at hlife hbody ⊢
        exact hstep.life hlife hbody
    · have hmark : e.mark? id = none := by
        rw [mark?, hturn]
        exact if_neg hid
      obtain ⟨status', hc', hlife'⟩ := hdone hdone'
      rw [hmark, Option.toList_none, List.append_nil, hafter,
        Store.coroutine_setStatus_of_ne (Ne.symm hid)]
      exact ⟨status', hc', hlife'⟩

end Event

/-- **The life of a coroutine**, from when it is unstarted to any later state. -/
theorem History.life {later : List (Event H)} (h : History st later st') (ho : st.Orderly)
    (hc : st.coroutines[id]? = some ⟨child, .unstarted⟩) :
    ∃ status, st'.coroutines[id]? = some ⟨child, status⟩ ∧
      (st.session child).program <+: (st'.session child).program ∧
      Life (st.session child).evaluator (st.session child).program (st'.session child).program
        (starts later id) (marks later id) status := by
  induction h with
  | nil => exact ⟨_, hc, List.prefix_refl _, .unstarted⟩
  | @cons later e hlater ih =>
    obtain ⟨status, hc', hbody, hlife⟩ := ih
    have ho' := hlater.orderly ho
    have hgrows := hlater.grows ho
    have hlive : child < st.sessions.size := (ho.coroutines hc).session
    have hlive' := Nat.lt_of_lt_of_le hlive hgrows.sessions
    rw [← hgrows.evaluator hlive] at hlife ⊢
    obtain ⟨status', hc'', hlife'⟩ := e.life ho' hc' hlife hbody
    have hprogram := (e.program_isPrefix ho' hlive').1
    refine ⟨status', hc'', hbody.trans hprogram, ?_⟩
    rw [starts, marks, chronicle_cons, List.countP_cons]
    exact hlife'.mono hprogram

/-! ### Sessions of their own -/

namespace Store

end Store

namespace Store

end Store

/-- `st.Expanded sid args a st'`: what comes of making a coroutine. Nothing changes where one of the
forms may not stand in a program. Otherwise there is a new coroutine with a new session, which has
the forms as its program and all else from the session it is made in, and the expansion is the call
that starts it. -/
inductive Store.Expanded (st : Store H) (sid : Nat) (args : List Value) :
    Except Error Value → Store H → Prop where
  | refused {form} : args.find? (!isLoadable ·) = some form →
      st.Expanded sid args (.error (.list (.improperForm form))) st
  | made {s kept st'} : (∀ form ∈ args, isLoadable form = true) → Value.KeptAllAs args kept →
      (st'.symbols sid).find? "apply" = some s →
      st'.sessions = st.sessions.push { st.session sid with program := kept } →
      st'.coroutines = st.coroutines.push ⟨st.sessions.size, .unstarted⟩ →
      st'.channels = st.channels →
      st.Expanded sid args
        (.ok (.ofList [.symbol s, Builtin.start.toValue, .array [.coroutine st.coroutines.size]]))
        st'

theorem Store.Expanded.coroutine {sid : Nat} {args : List Value} {answer : Value}
    (h : st.Expanded sid args (.ok answer) st') :
    st'.coroutines[st.coroutines.size]? = some ⟨st.sessions.size, .unstarted⟩ := by
  cases h with
  | made _ _ _ _ hcoroutines => rw [hcoroutines, Array.getElem?_push, if_pos rfl]

end LispCore
