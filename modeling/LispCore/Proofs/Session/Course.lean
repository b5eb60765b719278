import LispCore.Proofs.Session.Answered

/-!
What holds along histories.

`Grows` says what a store never loses: names, functions, the tables and evaluators of sessions, the
capacities of channels, and which session a coroutine is for. Each change is such a growth, and so
is a history (`History.grows`). `Orderly` says that what is referred to is there.

An event does its deed, and where it is a step of a coroutine, the coroutine's status is changed
after that (`Event.did`). So what quiet steps, changes and statuses preserve holds all along a
history (`History.preserves`). A command that is carried out without an error is done, whoever asks
for it (`Store.carriesOut`).
-/

namespace LispCore

variable {H : Host}

/-- A coroutine is for one of some sessions, and its run is in that session. -/
structure Coroutine.Placed (c : Coroutine H) (sessions : Nat) : Prop where
  session : c.session < sessions
  run : ∀ {run}, c.status = .running run → run.session = c.session

namespace Store

/-- Nothing in a store is lost in another. -/
structure Grows (st st' : Store H) : Prop where
  behaviours : ∀ {id : Nat} {b}, st.behaviours[id]? = some b → st'.behaviours[id]? = some b
  names : ∀ i : Nat, (st.tables[i]?.getD ∅).names <+: (st'.tables[i]?.getD ∅).names
  tables : st.tables.size ≤ st'.tables.size
  sessions : st.sessions.size ≤ st'.sessions.size
  table : ∀ {m}, m < st.sessions.size → (st'.session m).table = (st.session m).table
  evaluator : ∀ {m}, m < st.sessions.size → (st'.session m).evaluator = (st.session m).evaluator
  channels : ∀ {id capacity : Nat} {queue}, st.channels[id]? = some ⟨capacity, queue⟩ →
    ∃ queue', st'.channels[id]? = some ⟨capacity, queue'⟩
  coroutines : ∀ {id sid : Nat} {status}, st.coroutines[id]? = some ⟨sid, status⟩ →
    ∃ status', st'.coroutines[id]? = some ⟨sid, status'⟩

variable {st st' st'' : Store H} {n m : Nat} {d : Deed H}

/-! ### Sessions that are new -/

theorem session_of_push_self {se : Session H} (h : st'.sessions = st.sessions.push se) :
    st'.session st.sessions.size = se := by
  rw [session, h, Array.getElem?_push, if_pos rfl]
  rfl

theorem session_of_push_of_lt {se : Session H} (h : st'.sessions = st.sessions.push se)
    (hm : m < st.sessions.size) : st'.session m = st.session m := by
  rw [session, h, Array.getElem?_push, if_neg (Nat.ne_of_lt hm), session]

/-- What is true of the sessions of a store and of one more is true of all sessions then. -/
theorem forall_session_of_push {P : Session H → Prop} {se : Session H}
    (h : st'.sessions = st.sessions.push se) (hold : ∀ m < st.sessions.size, P (st.session m))
    (hnew : P se) : ∀ m < st'.sessions.size, P (st'.session m) := by
  intro m hm
  rw [h, Array.size_push] at hm
  obtain hlt | rfl := Nat.lt_succ_iff_lt_or_eq.mp hm
  · rw [session_of_push_of_lt h hlt]
    exact hold m hlt
  · rw [session_of_push_self h]
    exact hnew

theorem size_modifySession (f : Session H → Session H) :
    (st.modifySession n f).sessions.size = st.sessions.size := Array.size_modify

/-- What is true of the sessions of a store is true of all after a change that keeps it. -/
theorem forall_session_of_modifySession {P : Session H → Prop} {f : Session H → Session H}
    (hold : ∀ m < st.sessions.size, P (st.session m)) (hf : ∀ se, P se → P (f se)) :
    ∀ m < (st.modifySession n f).sessions.size, P ((st.modifySession n f).session m) := by
  intro m hm
  rw [size_modifySession] at hm
  by_cases hmn : m = n
  · subst hmn
    rw [session_modifySession_self hm]
    exact hf _ (hold m hm)
  · rw [session_modifySession_of_ne hmn]
    exact hold m hm

/-! ### Growth -/

namespace Grows

theorem refl (st : Store H) : st.Grows st where
  behaviours h := h
  names _ := List.prefix_refl _
  tables := Nat.le_refl _
  sessions := Nat.le_refl _
  table _ := rfl
  evaluator _ := rfl
  channels h := ⟨_, h⟩
  coroutines h := ⟨_, h⟩

theorem trans (h : st.Grows st') (h' : st'.Grows st'') : st.Grows st'' where
  behaviours hb := h'.behaviours (h.behaviours hb)
  names i := (h.names i).trans (h'.names i)
  tables := Nat.le_trans h.tables h'.tables
  sessions := Nat.le_trans h.sessions h'.sessions
  table hm := (h'.table (Nat.lt_of_lt_of_le hm h.sessions)).trans (h.table hm)
  evaluator hm := (h'.evaluator (Nat.lt_of_lt_of_le hm h.sessions)).trans (h.evaluator hm)
  channels hch := by
    obtain ⟨_, hch'⟩ := h.channels hch
    exact h'.channels hch'
  coroutines hc := by
    obtain ⟨_, hc'⟩ := h.coroutines hc
    exact h'.coroutines hc'

theorem size_channels (h : st.Grows st') : st.channels.size ≤ st'.channels.size := by
  refine Nat.le_of_not_lt fun hlt => ?_
  obtain ⟨queue, hget⟩ := h.channels (Array.getElem?_eq_getElem hlt)
  exact Nat.lt_irrefl _ (Array.getElem?_eq_some_iff.mp hget).1

/-- No session loses a name. -/
theorem symbols (h : st.Grows st') (hm : m < st.sessions.size) :
    (st.symbols m).names <+: (st'.symbols m).names := by
  rw [Store.symbols, Store.symbols, h.table hm]
  exact h.names _

end Grows

theorem Quiet.grows (h : st.Quiet st') : st.Grows st' where
  behaviours := h.behaviours
  names := h.names
  tables := Nat.le_of_eq h.tables.symm
  sessions := Nat.le_of_eq (congrArg Array.size h.sessions).symm
  table _ := by rw [h.session]
  evaluator _ := by rw [h.session]
  channels hch := ⟨_, by rw [h.channels, hch]⟩
  coroutines hc := ⟨_, by rw [h.coroutines, hc]⟩

theorem grows_modifySession {f : Session H → Session H} (htable : ∀ se, (f se).table = se.table)
    (hevaluator : ∀ se, (f se).evaluator = se.evaluator) : st.Grows (st.modifySession n f) :=
  { Grows.refl st with
    sessions := by simp [modifySession]
    table := fun {m} hm => by
      by_cases hmn : m = n
      · subst hmn
        rw [session_modifySession_self hm, htable]
      · rw [session_modifySession_of_ne hmn]
    evaluator := fun {m} hm => by
      by_cases hmn : m = n
      · subst hmn
        rw [session_modifySession_self hm, hevaluator]
      · rw [session_modifySession_of_ne hmn] }

/-- A store grows by a session and perhaps tables and coroutines. -/
theorem grows_push {tables : Array SymbolTable} {coroutines : Array (Coroutine H)}
    {se : Session H}
    (htables : ∀ {i : Nat} {t}, st.tables[i]? = some t → tables[i]? = some t)
    (hcoroutines : ∀ {id : Nat} {c}, st.coroutines[id]? = some c → coroutines[id]? = some c) :
    st.Grows { st with tables, sessions := st.sessions.push se, coroutines } where
  behaviours h := h
  names i := by
    cases h : st.tables[i]? with
    | none => exact List.nil_prefix
    | some t => simp [htables h]
  tables := by
    refine Nat.le_of_not_lt fun hlt => ?_
    obtain ⟨t, ht⟩ : ∃ t, st.tables[tables.size]? = some t := ⟨_, Array.getElem?_eq_getElem hlt⟩
    exact Nat.lt_irrefl _ (Array.getElem?_eq_some_iff.mp (htables ht)).1
  sessions := by simp
  table hm := by rw [session_of_push_of_lt rfl hm]
  evaluator hm := by rw [session_of_push_of_lt rfl hm]
  channels h := ⟨_, h⟩
  coroutines h := ⟨_, hcoroutines h⟩

theorem grows_setQueue (id : Nat) (queue : List Value) : st.Grows (st.setQueue id queue) :=
  { Grows.refl st with
    channels := fun {id' capacity queue'} h => by
      show ∃ _, (st.channels.modify id _)[id']? = _
      rw [Array.getElem?_modify]
      split
      · exact ⟨queue, by rw [h, Option.map_some]⟩
      · exact ⟨queue', h⟩ }

theorem grows_setStatus (id : Nat) (status : CoroutineStatus H) :
    st.Grows (st.setStatus id status) :=
  { Grows.refl st with
    coroutines := fun {id' sid status'} h => by
      show ∃ _, (st.coroutines.modify id _)[id']? = _
      rw [Array.getElem?_modify]
      split
      · exact ⟨status, by rw [h, Option.map_some]⟩
      · exact ⟨status', h⟩ }

theorem Change.grows (h : st.Change d st') : st.Grows st' := by
  cases h with
  | nothing => exact .refl st
  | created evaluator => exact grows_push (fun h => getElem?_push_of_some h _) id
  | bound | named | loaded => exact grows_modifySession (fun _ => rfl) fun _ => rfl
  | copied => exact grows_push id id
  | spawned => exact grows_push id fun h => getElem?_push_of_some h _
  | held =>
    exact { Grows.refl st with coroutines := fun h => ⟨_, getElem?_push_of_some h _⟩ }
  | opened => exact { Grows.refl st with channels := fun h => ⟨_, getElem?_push_of_some h _⟩ }
  | sent | received => exact grows_setQueue _ _
  | started => exact grows_setStatus _ _

theorem Done.grows (h : st.Done d st') : st.Grows st' := by
  obtain ⟨st₁, st₂, hq, hc, hq'⟩ := h
  exact (hq.grows.trans hc.grows).trans hq'.grows

/-! ### Order -/

/-- What is referred to is there: the function that starts coroutines, the tables of sessions, and
the sessions of coroutines. -/
structure Orderly (st : Store H) : Prop where
  start : st.behaviours[0]? = some .startCoroutine
  tables : ∀ m < st.sessions.size, (st.session m).table < st.tables.size
  coroutines : ∀ {id : Nat} {c}, st.coroutines[id]? = some c → c.Placed st.sessions.size

theorem orderly_empty : ({} : Store H).Orderly where
  start := rfl
  tables _ hm := nomatch hm
  coroutines h := nomatch h

/-- What is true of the elements of an array and of one more is true after that is added. -/
theorem forall_getElem?_push {α : Type} {xs : Array α} {y : α} {P : α → Prop}
    (hold : ∀ {i : Nat} {x}, xs[i]? = some x → P x) (hnew : P y) {i : Nat} {x : α}
    (h : (xs.push y)[i]? = some x) : P x := by
  rw [Array.getElem?_push] at h
  split at h
  · cases h
    exact hnew
  · exact hold h

namespace Orderly

theorem quiet (h : st.Orderly) (hq : st.Quiet st') : st'.Orderly where
  start := hq.behaviours h.start
  tables m hm := by
    rw [hq.session, hq.tables]
    rw [hq.sessions] at hm
    exact h.tables m hm
  coroutines hc := by
    rw [hq.coroutines] at hc
    rw [hq.sessions]
    exact h.coroutines hc

theorem modifySession (h : st.Orderly) {f : Session H → Session H}
    (hf : ∀ se, (f se).table = se.table) : (st.modifySession n f).Orderly where
  start := h.start
  tables := forall_session_of_modifySession (P := fun se => se.table < st.tables.size) h.tables
    fun se hse => by rwa [hf]
  coroutines hc := by
    rw [size_modifySession]
    exact h.coroutines hc

theorem push (h : st.Orderly) {tables : Array SymbolTable} {coroutines : Array (Coroutine H)}
    {se : Session H} (htables : st.tables.size ≤ tables.size) (hse : se.table < tables.size)
    (hcoroutines : ∀ {id : Nat} {c}, coroutines[id]? = some c → c.Placed (st.sessions.size + 1)) :
    Orderly { st with tables, sessions := st.sessions.push se, coroutines } where
  start := h.start
  tables := forall_session_of_push rfl (P := fun se => se.table < tables.size)
    (fun m hm => Nat.lt_of_lt_of_le (h.tables m hm) htables) hse
  coroutines hc := by
    rw [Array.size_push]
    exact hcoroutines hc

theorem placed_succ (h : st.Orderly) {id : Nat} {c : Coroutine H}
    (hc : st.coroutines[id]? = some c) : c.Placed (st.sessions.size + 1) :=
  ⟨Nat.lt_succ_of_lt (h.coroutines hc).session, (h.coroutines hc).run⟩

theorem setStatus (h : st.Orderly) {id : Nat} {status : CoroutineStatus H}
    (hstatus : ∀ {c}, st.coroutines[id]? = some c →
      ∀ {run}, status = .running run → run.session = c.session) :
    (st.setStatus id status).Orderly where
  start := h.start
  tables := h.tables
  coroutines {id' c} hc := by
    replace hc : (st.coroutines.modify id fun c => { c with status })[id']? = some c := hc
    rw [Array.getElem?_modify] at hc
    split at hc
    · next hid =>
      subst hid
      obtain ⟨c₀, hold, rfl⟩ := Option.map_eq_some_iff.mp hc
      exact ⟨(h.coroutines hold).session, hstatus hold⟩
    · exact h.coroutines hc

theorem change (h : st.Orderly) (hc : st.Change d st') : st'.Orderly := by
  cases hc with
  | nothing => exact h
  | created => exact h.push (by simp) (by simp) h.placed_succ
  | bound | named | loaded => exact h.modifySession fun _ => rfl
  | copied hsid => exact h.push (Nat.le_refl _) (h.tables _ hsid) h.placed_succ
  | spawned hsid =>
    refine h.push (Nat.le_refl _) (h.tables _ hsid) (forall_getElem?_push h.placed_succ ?_)
    exact ⟨Nat.lt_succ_self _, fun hrun => nomatch hrun⟩
  | held hsid =>
    refine ⟨h.start, h.tables, forall_getElem?_push h.coroutines ?_⟩
    exact ⟨hsid, fun hrun => nomatch hrun⟩
  | opened | sent | received => exact ⟨h.start, h.tables, h.coroutines⟩
  | started hunstarted =>
    refine h.setStatus fun {c} hc {run} hrun => ?_
    rw [hunstarted] at hc
    cases hc
    cases hrun
    rfl

theorem done (h : st.Orderly) (hd : st.Done d st') : st'.Orderly := by
  obtain ⟨st₁, st₂, hq, hc, hq'⟩ := hd
  exact ((h.quiet hq).change hc).quiet hq'

end Orderly

end Store

/-! ### What becomes of sessions -/

/-- The session that a deed changes. -/
def Deed.session? : Deed H → Option Nat
  | .bound sid _ _ | .named sid _ _ | .loaded sid _ => some sid
  | _ => none

/-- What session `n` was before a deed in a store of some sessions: a copy was what it is a copy of,
and a session made from nothing was none. -/
def Deed.origin? (d : Deed H) (sessions n : Nat) : Option Nat :=
  if n = sessions then
    match d with
    | .created _ => none
    | .copied sid | .spawned sid _ => some sid
    | _ => some n
  else some n

namespace Store

/-- `st.Becomes d n se`: what becomes of session `n` when a deed is done. -/
inductive Becomes (st : Store H) : Deed H → Nat → Session H → Prop where
  | created (evaluator) : st.Becomes (.created evaluator) st.sessions.size
      { evaluator, table := st.tables.size }
  | bound {sid key v s w} : sid < st.sessions.size → key.StandsFor (st.symbols sid) s →
      v.KeptAs w → st.Becomes (.bound sid key v) sid
        { st.session sid with bindings := (st.session sid).bindings.set s w }
  | named {sid name s f} : sid < st.sessions.size → s.name = name →
      (st.symbols sid).find? name = some s → st.Becomes (.named sid name f.toValue) sid
        { st.session sid with macros := (st.session sid).macros.set s f }
  | loaded {sid forms kept} : sid < st.sessions.size → Value.KeptAllAs forms kept →
      st.Becomes (.loaded sid forms) sid
        { st.session sid with program := (st.session sid).program ++ kept }
  | copied {sid} : sid < st.sessions.size →
      st.Becomes (.copied sid) st.sessions.size { st.session sid with program := [] }
  | spawned {sid forms kept} : sid < st.sessions.size → Value.KeptAllAs forms kept →
      st.Becomes (.spawned sid forms) st.sessions.size { st.session sid with program := kept }
  | same {d n} : n < st.sessions.size → d.session? ≠ some n → st.Becomes d n (st.session n)

variable {st st' : Store H} {d : Deed H} {n : Nat}

theorem becomes_of_modifySession {sid : Nat} {f : Session H → Session H}
    (hd : d.session? = some sid) (hn : n < st.sessions.size)
    (hself : st.Becomes d sid (f (st.session sid))) :
    st.Becomes d n ((st.modifySession sid f).session n) := by
  by_cases hne : n = sid
  · subst hne
    rw [session_modifySession_self hn]
    exact hself
  · rw [session_modifySession_of_ne hne]
    exact .same hn fun h => hne (Option.some.inj (h.symm.trans hd))

theorem becomes_of_push {se : Session H} (hd : d.session? = none)
    (hsessions : st'.sessions = st.sessions.push se) (hn : n < st'.sessions.size)
    (hnew : st.Becomes d st.sessions.size se) : st.Becomes d n (st'.session n) := by
  rw [hsessions, Array.size_push] at hn
  obtain hlt | rfl := Nat.lt_succ_iff_lt_or_eq.mp hn
  · rw [session_of_push_of_lt hsessions hlt]
    exact .same hlt (by rw [hd]; nofun)
  · rw [session_of_push_self hsessions]
    exact hnew

/-- A change does to each session what its deed says. -/
theorem Change.becomes (h : st.Change d st') (hn : n < st'.sessions.size) :
    st.Becomes d n (st'.session n) := by
  cases h with
  | nothing | held | opened | sent | received | started => exact .same hn nofun
  | created evaluator => exact becomes_of_push rfl rfl hn (.created evaluator)
  | bound hsid hkey hkept =>
    rw [size_modifySession] at hn
    exact becomes_of_modifySession rfl hn (.bound hsid hkey hkept)
  | named hsid hname hfind =>
    rw [size_modifySession] at hn
    exact becomes_of_modifySession rfl hn (.named hsid hname hfind)
  | loaded hsid _ hkept =>
    rw [size_modifySession] at hn
    exact becomes_of_modifySession rfl hn (.loaded hsid hkept)
  | copied hsid => exact becomes_of_push rfl rfl hn (.copied hsid)
  | spawned hsid _ hkept => exact becomes_of_push rfl rfl hn (.spawned hsid hkept)

end Store

/-! ### Events -/

namespace Event

variable {e : Event H} {st' : Store H}

theorem answer?_of_asks {sid : Nat} {c : Command H} {a : Except Error Value}
    (hasks : e.before.asks? e.turn = some (sid, c))
    (ha : e.before.carryOut? sid c = some (a, st')) : e.answer? = some a := by
  rw [answer?, hasks, Option.bind_some]
  dsimp only
  rw [ha, Option.map_some]

theorem deed_of_answer {sid : Nat} {c : Command H} {answer : Value}
    (hasks : e.before.asks? e.turn = some (sid, c)) (ha : e.answer? = some (.ok answer)) :
    e.deed = e.before.deed sid c answer := by
  rw [deed, hasks, ha]
  cases hturn : e.turn with
  | session evaluator =>
    rw [hturn] at hasks
    cases hasks
  | command | run | coroutine => rfl

/-- Nothing is done where the answer is an error. -/
theorem deed_of_error {err : Error} (ha : e.answer? = some (.error err)) : e.deed = .nothing := by
  rw [deed, ha]
  cases hturn : e.turn with
  | session evaluator =>
    rw [answer?, hturn] at ha
    cases ha
  | command | run | coroutine => rcases e.before.asks? _ with _ | ⟨sid, c⟩ <;> rfl

/-- What was asked for is what was done. -/
theorem done_of_answered {sid : Nat} {c : Command H} {a : Except Error Value}
    (hasks : e.before.asks? e.turn = some (sid, c)) (ha : e.before.carryOut? sid c = some (a, st'))
    (h : e.before.Answered (e.before.deed sid c) a st') : e.before.Done e.deed st' := by
  have hanswer := answer?_of_asks hasks ha
  cases a with
  | ok answer =>
    rw [deed_of_answer hasks hanswer]
    exact h
  | error err =>
    rw [deed_of_error hanswer]
    exact h.nothing

theorem deed_of_no_request (hasks : e.before.asks? e.turn = none)
    (hturn : ∀ evaluator, e.turn ≠ .session evaluator) : e.deed = .nothing := by
  rw [deed, hasks]
  cases h : e.turn with
  | session evaluator => exact absurd h (hturn evaluator)
  | command | run | coroutine => rfl

/-- A step of a run does what its form in progress asks for. -/
theorem done_of_runStep {run : Run H} {mark : Option Mark} {outcome : Store.Outcome H}
    (ho : e.before.Orderly) (hlive : run.session < e.before.sessions.size)
    (hasks : e.before.asks? e.turn = run.request?.map fun r => (run.session, .request r))
    (hturn : ∀ evaluator, e.turn ≠ .session evaluator)
    (h : RunStep e.before run mark outcome st') : e.before.Done e.deed st' := by
  obtain ⟨r, a, hr, ha⟩ | ⟨hr, rfl⟩ := h.request
  · rw [hr] at hasks
    exact done_of_answered hasks ha (Store.answered_request hlive (ho.tables _ hlive) ha)
  · rw [hr] at hasks
    rw [deed_of_no_request hasks hturn]
    exact (Store.Quiet.refl _).nothing

/-- **An event does its deed**, and a step of a coroutine changes its status after that. -/
theorem did (e : Event H) (ho : e.before.Orderly) :
    (e.before.Done e.deed e.after ∧ ∀ id, e.turn ≠ .coroutine id) ∨
    ∃ id sid run mark outcome st₁, e.turn = .coroutine id ∧
      e.before.coroutines[id]? = some ⟨sid, .running run⟩ ∧
      RunStep e.before run mark outcome st₁ ∧
      e.before.Done e.deed st₁ ∧ e.after = st₁.setStatus id outcome.status := by
  have happened := e.happened
  cases hturn : e.turn with
  | session evaluator =>
    rw [hturn] at happened
    refine .inl ⟨?_, nofun⟩
    rw [deed, hturn, ← Option.some.inj happened]
    exact (Store.Change.created evaluator).done
  | command sid c =>
    rw [hturn, Store.take?] at happened
    split at happened
    · next hlive =>
      obtain ⟨⟨a, st₁⟩, ha, hafter⟩ := Option.map_eq_some_iff.mp happened
      refine .inl ⟨?_, nofun⟩
      have hasks : e.before.asks? e.turn = some (sid, c) := by
        rw [hturn]
        rfl
      rw [← hafter]
      exact done_of_answered hasks ha (Store.answered_carryOut hlive (ho.tables _ hlive) ha)
    · cases happened
  | run run =>
    rw [hturn, Store.take?] at happened
    split at happened
    · next hlive =>
      obtain ⟨⟨outcome, st₁⟩, hstep, hafter⟩ := Option.map_eq_some_iff.mp happened
      obtain ⟨mark, hrun⟩ := stepRun?_iff.mp hstep
      refine .inl ⟨?_, nofun⟩
      rw [← hafter]
      refine done_of_runStep ho hlive ?_ ?_ hrun
      · rw [hturn]
        rfl
      · rw [hturn]
        nofun
    · cases happened
  | coroutine id =>
    rw [hturn] at happened
    obtain ⟨sid, run, mark, outcome, st₁, hrunning, hstep, hafter⟩ :=
      runStep_of_stepCoroutine? happened
    have hplaced := ho.coroutines hrunning
    have hlive : run.session < e.before.sessions.size := by
      rw [hplaced.run rfl]
      exact hplaced.session
    refine .inr ⟨id, sid, run, mark, outcome, st₁, rfl, hrunning, hstep, ?_, hafter⟩
    refine done_of_runStep ho hlive ?_ ?_ hstep
    · rw [hturn, Store.asks?, Store.running?, hrunning]
      rfl
    · rw [hturn]
      nofun

/-- All but the statuses of coroutines is as the deed leaves it. -/
theorem exists_done (e : Event H) (ho : e.before.Orderly) :
    ∃ st₁, e.before.Done e.deed st₁ ∧
      e.after = { st₁ with coroutines := e.after.coroutines } := by
  obtain ⟨hdone, -⟩ | ⟨id, sid, run, mark, outcome, st₁, -, -, -, hdone, hafter⟩ := e.did ho
  · exact ⟨e.after, hdone, rfl⟩
  · refine ⟨st₁, hdone, ?_⟩
    rw [hafter]
    rfl

/-- What becomes of a session in an event, after quiet steps, is said by its deed. -/
theorem becomes (e : Event H) (ho : e.before.Orderly) {n : Nat}
    (hn : n < e.after.sessions.size) :
    ∃ s₁, e.before.Quiet s₁ ∧ s₁.Becomes e.deed n (e.after.session n) := by
  obtain ⟨st₁, ⟨s₁, s₂, hq, hc, hq'⟩, hafter⟩ := e.exists_done ho
  rw [hafter] at hn ⊢
  have hlive : n < s₂.sessions.size := Nat.lt_of_lt_of_eq hn (congrArg Array.size hq'.sessions)
  have hbecomes := hc.becomes hlive
  rw [← hq'.session] at hbecomes
  exact ⟨s₁, hq, hbecomes⟩

theorem grows (e : Event H) (ho : e.before.Orderly) : e.before.Grows e.after := by
  obtain ⟨hdone, -⟩ | ⟨id, sid, run, mark, outcome, st₁, -, -, -, hdone, hafter⟩ := e.did ho
  · exact hdone.grows
  · rw [hafter]
    exact hdone.grows.trans (Store.grows_setStatus id outcome.status)

theorem orderly (e : Event H) (ho : e.before.Orderly) : e.after.Orderly := by
  obtain ⟨hdone, -⟩ | ⟨id, sid, run, mark, outcome, st₁, -, hrunning, hstep, hdone, hafter⟩ :=
    e.did ho
  · exact ho.done hdone
  · rw [hafter]
    refine (ho.done hdone).setStatus fun {c} hc {run'} hstatus => ?_
    obtain ⟨status', hc'⟩ := hdone.grows.coroutines hrunning
    rw [hc'] at hc
    cases hc
    cases outcome with
    | more run'' =>
      cases hstatus
      rw [hstep.session]
      exact (ho.coroutines hrunning).run rfl
    | finished result => cases hstatus

end Event

/-! ### Commands that succeed -/

/-- A command can be given, and whoever asks it of the session gets an answer that is no error; `P`
holds of the answer and of what is done. -/
def Store.CarriesOut (st : Store H) (n : Nat) (c : Command H) (P : Value → Deed H → Prop) : Prop :=
  (st.take? (.command n c)).isSome ∧
    ∀ e : Event H, e.before = st → st.asks? e.turn = some (n, c) →
      ∃ answer, e.answer? = some (.ok answer) ∧ P answer e.deed

/-- What is carried out without an error, whoever asks for it, is done. -/
theorem Store.carriesOut {st st' : Store H} {n : Nat} {c : Command H} {answer : Value}
    {P : Value → Deed H → Prop} (hn : n < st.sessions.size)
    (h : st.carryOut? n c = some (.ok answer, st')) (hP : P answer (st.deed n c answer)) :
    st.CarriesOut n c P := by
  refine ⟨?_, fun e he hasks => ?_⟩
  · rw [take?, if_pos hn, h]
    rfl
  · subst he
    have hanswer := Event.answer?_of_asks hasks h
    refine ⟨answer, hanswer, ?_⟩
    rw [Event.deed_of_answer hasks hanswer]
    exact hP

/-! ### Histories -/

namespace History

variable {st st' : Store H} {es : List (Event H)}

/-- Every state of a history is in order. -/
theorem orderly (h : History st es st') (ho : st.Orderly) : st'.Orderly := by
  induction h with
  | nil => exact ho
  | cons e _ ih => exact e.orderly ih

/-- Nothing is lost along a history. -/
theorem grows (h : History st es st') (ho : st.Orderly) : st.Grows st' := by
  induction h with
  | nil => exact .refl st
  | cons e hes ih => exact ih.trans (e.grows (hes.orderly ho))

end History

end LispCore
