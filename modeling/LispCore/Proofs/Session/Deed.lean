import LispCore.Proofs.Session.History
import LispCore.Proofs.Value.Kept

/-!
What is done in a store.

The `Deed` of a command is read off what was asked and what was answered: a key was bound, a program
was loaded, a value was sent on a channel and so on, or nothing that anyone could tell later. `Done`
says what it takes: one `Change`, and before and after it steps that only add names, labels and
functions (`Quiet`). What is asked of a session is `Answered` if its deed is done, or if there is an
error and only such steps were taken.
-/

namespace LispCore

variable {H : Host}

/-- What was done. A session, a channel or a coroutine that came to be by it has the next number of
its kind. -/
inductive Deed (H : Host) where
  | nothing
  | created (evaluator : Option H.Evaluator)
  | bound (sid : Nat) (key v : Value)
  | named (sid : Nat) (name : String) (f : Value)
  | loaded (sid : Nat) (forms : List Value)
  | copied (sid : Nat)
  | spawned (sid : Nat) (forms : List Value)
  | held (sid : Nat)
  | opened (capacity : Nat)
  | sent (id : Nat) (v : Value)
  | received (id : Nat) (v : Value)
  | started (id : Nat)

namespace Store

/-- The forms of a text that a session reads without failure. -/
def formsOf (st : Store H) (sid : Nat) (text : String) : List Value :=
  (st.readAll sid text).1.toOption.getD []

/-- What was done where a session applied a function or a macro to arguments and got an answer. -/
def applied (st : Store H) (sid : Nat) (f : Builtin) (args : List Value) (answer : Value) :
    Deed H :=
  match st.behaviours[f.id]?, args with
  | some (.host g), args =>
    match H.reply g f.name args with
    | .define key v => .bound sid key v
    | _ => .nothing
  | some .makeChannel, [] => .opened 0
  | some .makeChannel, [.int (.ofNat n)] => .opened n
  | some .send, [.channel id _, v] => .sent id v
  | some .receive, [.channel id _] => .received id answer
  | some .startCoroutine, [.coroutine id] => .started id
  | some .go, args => .spawned sid args
  | _, _ => .nothing

/-- What was done where a session carried out a command and got an answer. -/
def deed (st : Store H) (sid : Nat) (c : Command H) (answer : Value) : Deed H :=
  match c with
  | .request (.define key v) => .bound sid key v
  | .addFunction name _ => .bound sid (.str name) answer
  | .addMacro name _ => .named sid name answer
  | .loadText text => .loaded sid (st.formsOf sid text)
  | .loadFile roots name => .loaded sid ((roots.text name).toOption.elim [] (st.formsOf sid))
  | .loadForms forms => .loaded sid forms
  | .duplicate => .copied sid
  | .addCoroutine => .held sid
  | c => (st.application? sid c).elim .nothing fun (f, args) => st.applied sid f args answer

end Store

/-- What was done in a turn. An error means that nothing was done. -/
def Event.deed (e : Event H) : Deed H :=
  match e.turn, e.before.asks? e.turn, e.answer? with
  | .session evaluator, _, _ => .created evaluator
  | _, some (sid, c), some (.ok answer) => e.before.deed sid c answer
  | _, _, _ => .nothing

/-! ### Changes -/

/-- A key stands for a symbol: it is that symbol, or its name where the symbol is known. -/
def Value.StandsFor (t : SymbolTable) (key : Value) (s : Symbol) : Prop :=
  key = .symbol s ∨ key = .str s.name ∧ t.find? s.name = some s

/-- The store with a copy of a session that has another program, and a coroutine for the copy. -/
def Store.spawn (st : Store H) (sid : Nat) (program : List Value) : Store H :=
  { st with
    sessions := st.sessions.push { st.session sid with program }
    coroutines := st.coroutines.push { session := st.sessions.size } }

/-- Names and labels are added and perhaps functions, and nothing else is changed. -/
structure Store.Quiet (st st' : Store H) : Prop where
  sessions : st'.sessions = st.sessions
  channels : st'.channels = st.channels
  coroutines : st'.coroutines = st.coroutines
  behaviours : ∀ {id : Nat} {b}, st.behaviours[id]? = some b → st'.behaviours[id]? = some b
  tables : st'.tables.size = st.tables.size
  names : ∀ i : Nat, (st.tables[i]?.getD ∅).names <+: (st'.tables[i]?.getD ∅).names

/-- What a deed changes. -/
inductive Store.Change (st : Store H) : Deed H → Store H → Prop where
  | nothing : st.Change .nothing st
  | created (evaluator) : st.Change (.created evaluator) (st.addSession evaluator).2
  | bound {sid key v s w} : sid < st.sessions.size → key.StandsFor (st.symbols sid) s →
      v.KeptAs w →
      st.Change (.bound sid key v)
        (st.modifySession sid fun se => { se with bindings := se.bindings.set s w })
  | named {sid name s f} : sid < st.sessions.size → s.name = name →
      (st.symbols sid).find? name = some s →
      st.Change (.named sid name f.toValue)
        (st.modifySession sid fun se => { se with macros := se.macros.set s f })
  | loaded {sid forms kept} : sid < st.sessions.size →
      (∀ form ∈ forms, Store.isLoadable form = true) → Value.KeptAllAs forms kept →
      st.Change (.loaded sid forms)
        (st.modifySession sid fun se => { se with program := se.program ++ kept })
  | copied {sid} : sid < st.sessions.size → st.Change (.copied sid) (st.duplicate sid).2
  | spawned {sid forms kept} : sid < st.sessions.size →
      (∀ form ∈ forms, Store.isLoadable form = true) → Value.KeptAllAs forms kept →
      st.Change (.spawned sid forms) (st.spawn sid kept)
  | held {sid} : sid < st.sessions.size → st.Change (.held sid) (st.addCoroutine sid).2
  | opened (capacity) : st.Change (.opened capacity) (st.addChannel capacity).2
  | sent {id v} : (st.channel id).isFull = false →
      st.Change (.sent id v) (st.setQueue id ((st.channel id).queue ++ [v]))
  | received {id v queue} : (st.channel id).queue = v :: queue →
      st.Change (.received id v) (st.setQueue id queue)
  | started {id sid} : st.coroutines[id]? = some ⟨sid, .unstarted⟩ →
      st.Change (.started id) (st.setStatus id (.running { session := sid }))

/-- A deed is done: its change, with quiet steps before and after it. -/
def Store.Done (st : Store H) (d : Deed H) (st' : Store H) : Prop :=
  ∃ st₁ st₂, st.Quiet st₁ ∧ st₁.Change d st₂ ∧ st₂.Quiet st'

/-- What was asked for is answered: a deed is done, or there is an error and none is. -/
def Store.Answered (st : Store H) (d : Value → Deed H) : Except Error Value → Store H → Prop
  | .ok answer, st' => st.Done (d answer) st'
  | .error _, st' => st.Quiet st'

namespace Store

variable {st st' st'' : Store H} {n : Nat} {d : Deed H}

/-! ### Quiet steps -/

namespace Quiet

theorem refl (st : Store H) : st.Quiet st where
  sessions := rfl
  channels := rfl
  coroutines := rfl
  behaviours h := h
  tables := rfl
  names _ := List.prefix_refl _

theorem trans (h : st.Quiet st') (h' : st'.Quiet st'') : st.Quiet st'' where
  sessions := h'.sessions.trans h.sessions
  channels := h'.channels.trans h.channels
  coroutines := h'.coroutines.trans h.coroutines
  behaviours hb := h'.behaviours (h.behaviours hb)
  tables := h'.tables.trans h.tables
  names i := (h.names i).trans (h'.names i)

theorem session (h : st.Quiet st') (m : Nat) : st'.session m = st.session m := by
  rw [Store.session, h.sessions, Store.session]

theorem channel (h : st.Quiet st') (id : Nat) : st'.channel id = st.channel id := by
  rw [Store.channel, h.channels, Store.channel]

theorem symbols (h : st.Quiet st') (m : Nat) :
    (st.symbols m).names <+: (st'.symbols m).names := by
  rw [Store.symbols, Store.symbols, h.session m]
  exact h.names _

theorem nothing (h : st.Quiet st') : st.Done .nothing st' := ⟨st', st', h, .nothing, .refl st'⟩

/-- A deed is done after quiet steps, too. -/
theorem done (h : st.Quiet st') (h' : st'.Done d st'') : st.Done d st'' := by
  obtain ⟨st₁, st₂, hq, hc, hq'⟩ := h'
  exact ⟨st₁, st₂, h.trans hq, hc, hq'⟩

theorem answered {deed : Value → Deed H} {a : Except Error Value} (h : st.Quiet st')
    (h' : st'.Answered deed a st'') : st.Answered deed a st'' := by
  cases a with
  | ok answer => exact h.done h'
  | error e => exact h.trans h'

end Quiet

theorem Change.done (h : st.Change d st') : st.Done d st' := ⟨st, st', .refl st, h, .refl st'⟩

theorem quiet_setSymbols {t : SymbolTable} (ht : (st.symbols n).names <+: t.names) :
    st.Quiet (st.setSymbols n t) where
  sessions := rfl
  channels := rfl
  coroutines := rfl
  behaviours h := h
  tables := (keeps_setSymbols ht).tables
  names := (keeps_setSymbols ht).names

theorem quiet_nextCell (nextCell : Nat) : st.Quiet { st with nextCell := nextCell } where
  sessions := rfl
  channels := rfl
  coroutines := rfl
  behaviours h := h
  tables := rfl
  names _ := List.prefix_refl _

theorem quiet_addBuiltin (name : String) (b : Behaviour H) :
    st.Quiet (st.addBuiltin name b).2 where
  sessions := rfl
  channels := rfl
  coroutines := rfl
  behaviours h := getElem?_push_of_some h b
  tables := rfl
  names _ := List.prefix_refl _

theorem quiet_intern (name : String) : st.Quiet (st.intern n name).2 :=
  quiet_setSymbols ((st.symbols n).names_isPrefixOf_insert name)

theorem quiet_key (k : Value) : st.Quiet (st.key n k).2 := by
  cases k with
  | str name => exact quiet_intern name
  | _ => exact .refl st

theorem quiet_lookup (k : Value) : st.Quiet (st.lookup n k).2 := by
  have hkey := st.quiet_key (n := n) k
  rw [lookup]
  split
  · next s st₁ hk =>
    rw [hk] at hkey
    split <;> exact hkey
  · next k' st₁ _ hk =>
    rw [hk] at hkey
    exact hkey

theorem quiet_function (name : String) : st.Quiet (st.function n name).2 := by
  have hlookup := st.quiet_lookup (n := n) (.str name)
  rw [function]
  split <;> next heq => rw [heq] at hlookup; exact hlookup

theorem quiet_expander (name : String) : st.Quiet (st.expander n name).2 := by
  rw [expander_eq]
  split <;> exact quiet_intern name

/-- Looking for a function or a macro makes none. -/
theorem behaviours_lookup (k : Value) : (st.lookup n k).2.behaviours = st.behaviours := by
  have hkey : (st.key n k).2.behaviours = st.behaviours := by cases k <;> rfl
  rw [lookup]
  split
  · next s st₁ hk =>
    rw [hk] at hkey
    split <;> exact hkey
  · next k' st₁ _ hk =>
    rw [hk] at hkey
    exact hkey

theorem behaviours_function (name : String) :
    (st.function n name).2.behaviours = st.behaviours := by
  have hlookup := st.behaviours_lookup (n := n) (.str name)
  rw [function]
  split <;> next heq => rw [heq] at hlookup; exact hlookup

theorem behaviours_expander (name : String) :
    (st.expander n name).2.behaviours = st.behaviours := by
  rw [expander_eq]
  split <;> rfl

end Store

end LispCore
