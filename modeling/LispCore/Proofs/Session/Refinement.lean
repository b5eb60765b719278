import LispCore.Proofs.Reader.Naming
import LispCore.Proofs.Session.Bound

/-!
An operation on a session of a store does what it does to the session by itself.

`Sees r st n w` says that session `n` of a store looks as the view `w`, where the registry `r` tells
what numbers stand for. `Does r st n e a st'` says that the effect `e` is what an operation did in
it: the answer `a` is seen as its result, the session looks as its view, and there is one session
more if the effect has a child, a copy of the session but for its program.

`does_perform` says so of every operation. The registry is that of the store after the operation,
which the steps before it look up too, since a registry only grows (`Sees.mono`).
-/

namespace LispCore

variable {H : Host} {r r' : Registry H} {st st' st₁ st₂ : Store H} {n m : Nat} {w : View H}

/-- What the numbers in a store stand for, where sessions are told by their holders. -/
def Store.registry (st : Store H) (own : Nat → Holder) : Registry H where
  behaviour id := st.behaviours[id]?
  holder id := st.coroutines[id]?.map fun c => own c.session

/-- A session of a store looks as a view. -/
structure Sees (r : Registry H) (st : Store H) (n : Nat) (w : View H) : Prop where
  live : n < st.sessions.size
  table : (st.session n).table < st.tables.size
  evaluator : (st.session n).evaluator = w.evaluator
  bindings : BindsAs r (st.symbols n) id (st.session n).bindings w.bindings
  macros : BindsAs r (st.symbols n) Builtin.toValue (st.session n).macros w.macros
  program : (st.session n).program.map (Value.seen r) = w.program
  known : ∀ v ∈ (st.session n).program, v.Known r

namespace Sees

/-- A session is seen the same when more is known. -/
theorem mono (h : Sees r st n w) (hr : r.Grows r') : Sees r' st n w where
  live := h.live
  table := h.table
  evaluator := h.evaluator
  bindings := h.bindings.mono hr (List.prefix_refl _)
  macros := h.macros.mono hr (List.prefix_refl _)
  program := (Value.map_seen_eq h.known hr).trans h.program
  known v hv := (h.known v hv).mono hr

/-- A session that is not changed is seen the same. -/
theorem touched (h : Sees r st n w) (ht : st.Touches m st') (hsame : st'.session n = st.session n) :
    Sees r st' n w where
  live := Nat.lt_of_lt_of_le h.live ht.sessions
  table := by
    rw [hsame, ht.tables]
    exact h.table
  evaluator := by
    rw [hsame]
    exact h.evaluator
  bindings := by
    rw [hsame]
    exact h.bindings.mono (.refl r) (ht.symbols h.live)
  macros := by
    rw [hsame]
    exact h.macros.mono (.refl r) (ht.symbols h.live)
  program := by
    rw [hsame]
    exact h.program
  known := by
    rw [hsame]
    exact h.known

theorem kept (h : Sees r st n w) (hk : st.Keeps m st') : Sees r st' n w :=
  h.touched hk.toTouches (hk.session n)

/-- A session is changed to look as another view. -/
theorem modify (h : Sees r st n w) {f : Session H → Session H} {w' : View H}
    (htable : ∀ se, (f se).table = se.table)
    (hevaluator : (f (st.session n)).evaluator = w'.evaluator)
    (hbindings : BindsAs r (st.symbols n) id (f (st.session n)).bindings w'.bindings)
    (hmacros : BindsAs r (st.symbols n) Builtin.toValue (f (st.session n)).macros w'.macros)
    (hprogram : (f (st.session n)).program.map (Value.seen r) = w'.program)
    (hknown : ∀ v ∈ (f (st.session n)).program, v.Known r) :
    Sees r (st.modifySession n f) n w' := by
  have htouches := st.touches_modifySession (n := n) htable
  have hself := Store.session_modifySession_self h.live f
  have hnames := htouches.symbols h.live
  refine ⟨Nat.lt_of_lt_of_le h.live htouches.sessions, ?_, ?_, ?_, ?_, ?_, ?_⟩
  · rw [hself, htable]
    exact h.table
  · rw [hself]
    exact hevaluator
  · rw [hself]
    exact hbindings.mono (.refl r) hnames
  · rw [hself]
    exact hmacros.mono (.refl r) hnames
  · rw [hself]
    exact hprogram
  · rw [hself]
    exact hknown

/-- A copy of a session looks as a copy. -/
theorem duplicate (h : Sees r st n w) : Sees r (st.duplicate n).2 st.sessions.size w.copy := by
  have hself : (st.duplicate n).2.session st.sessions.size = { st.session n with program := [] } :=
    Store.session_duplicate_self
  have hnames : (st.duplicate n).2.symbols st.sessions.size = st.symbols n := by
    rw [Store.symbols, hself, Store.symbols]
    rfl
  refine ⟨?_, ?_, ?_, ?_, ?_, ?_, ?_⟩
  · simp [Store.duplicate]
  · rw [hself]
    exact h.table
  · rw [hself]
    exact h.evaluator
  · rw [hself, hnames]
    exact h.bindings
  · rw [hself, hnames]
    exact h.macros
  · rw [hself]
    rfl
  · rw [hself]
    intro v hv
    cases hv

end Sees

/-- A store has one session more, which looks as a view and is a copy of session `n` but for its
program, and session `n` is as it was. -/
structure Adds (r : Registry H) (st : Store H) (n : Nat) (st' : Store H) (child : View H) :
    Prop where
  size : st'.sessions.size = st.sessions.size + 1
  view : Sees r st' st.sessions.size child
  copy : ∃ program, st'.session st.sessions.size = { st.session n with program := program }
  parent : st'.session n = st.session n

/-- An effect is what was done in a session. -/
structure Does (r : Registry H) (st : Store H) (n : Nat) (e : Effect H) (a : Except Error Value)
    (st' : Store H) : Prop where
  result : seenResult r a = e.result
  view : Sees r st' n e.view
  alone : e.child = none → st'.sessions.size = st.sessions.size
  child : ∀ v, e.child = some v → Adds r st n st' v

namespace Does

variable {e : Effect H} {a : Except Error Value}

/-- An answer that leaves every session as it was. -/
theorem answer (h : Sees r st n w) {x : SeenResult H} (ha : seenResult r a = x) :
    Does r st n ⟨x, w, none⟩ a st where
  result := ha
  view := h
  alone _ := rfl
  child _ hv := nomatch hv

/-- What is done after a step that keeps all sessions. -/
theorem after (h : Does r st₁ n e a st') (hk : st.Keeps n st₁) : Does r st n e a st' where
  result := h.result
  view := h.view
  alone he := by rw [h.alone he, hk.same]
  child v he := by
    obtain ⟨hsize, hview, ⟨program, hcopy⟩, hparent⟩ := h.child v he
    refine ⟨?_, ?_, ⟨program, ?_⟩, ?_⟩
    · rw [hsize, hk.same]
    · rw [hk.same] at hview
      exact hview
    · rw [hk.same, hk.session] at hcopy
      exact hcopy
    · rw [hparent, hk.session]

/-- A change of the session. -/
theorem modify {f : Session H → Session H} {x : SeenResult H}
    (hview : Sees r (st.modifySession n f) n w) (ha : seenResult r a = x) :
    Does r st n ⟨x, w, none⟩ a (st.modifySession n f) where
  result := ha
  view := hview
  alone _ := by simp [Store.modifySession]
  child _ hv := nomatch hv

end Does

/-! ### Names -/

namespace Store

/-- If a value is a symbol, it is the one of its name in a session. -/
def Holds (st : Store H) (n : Nat) (k : Value) : Prop :=
  ∀ s, k = .symbol s → (st.symbols n).find? s.name = some s

theorem Holds.kept {k : Value} (h : st.Holds n k) (hk : st.Keeps n st') : st'.Holds n k :=
  fun s hs => SymbolTable.find?_of_isPrefix (hk.symbols n) (h s hs)

theorem holds_place (ht : (st.session n).table < st.tables.size) (v : Value) :
    (st.place n v).2.Holds n (st.place n v).1 := by
  intro s hs
  show ((st.setSymbols n (v.interned (st.symbols n)).2).symbols n).find? s.name = some s
  rw [symbols_setSymbols ht]
  exact Value.find?_of_interned hs

/-- A value that is told with names is seen as it was told. -/
theorem seen_place (v : Value) : (st.place n v).1.seen r = v.seen r := (Value.seen_interned v _).1

theorem known_place {v : Value} (hv : v.Known r) : (st.place n v).1.Known r :=
  (Value.seen_interned v _).2 hv

theorem seen_placeAll (vs : List Value) :
    (st.placeAll n vs).1.map (Value.seen r) = vs.map (Value.seen r) :=
  (Value.seen_internedItems vs _).1

theorem known_placeAll {vs : List Value} (hvs : ∀ v ∈ vs, v.Known r) :
    ∀ v ∈ (st.placeAll n vs).1, v.Known r :=
  (Value.seen_internedItems vs _).2 hvs

/-- A key that names something stands for the symbol of that name. -/
theorem key_of_name (ht : (st.session n).table < st.tables.size) {k : Value} (hk : st.Holds n k)
    {name : String} (hname : (k.seen r).name? = some name) :
    ∃ s st₁, st.key n k = (.symbol s, st₁) ∧ st.Keeps n st₁ ∧ s.name = name ∧
      (st₁.symbols n).find? s.name = some s := by
  cases k with
  | str text =>
    obtain rfl : text = name := by simpa [Value.seen, Seen.name?] using hname
    exact ⟨_, _, rfl, keeps_intern text, rfl, find?_intern ht text⟩
  | symbol s =>
    obtain rfl : s.name = name := by simpa [Value.seen, Seen.name?] using hname
    exact ⟨s, st, rfl, .refl st n, rfl, hk s rfl⟩
  | _ => simp [Value.seen, Seen.name?] at hname

end Store

/-! ### Bindings -/

theorem does_define (h : Sees r st n w) {k v : Value} (hk : st.Holds n k) (hv : v.Known r) :
    Does r st n (w.define (k.seen r) (v.seen r)) ((st.define n k v).1.map fun _ => .null)
      (st.define n k v).2 := by
  cases hname : (k.seen r).name? with
  | none =>
    have hrefused : st.define n k v = (.error (.notDefinable k), st) := by
      cases k <;> simp [Value.seen, Seen.name?] at hname <;> rfl
    rw [hrefused, View.define, hname]
    exact .answer h rfl
  | some name =>
    obtain ⟨s, st₁, hkey, hkept, rfl, hfind⟩ := Store.key_of_name h.table hk hname
    have hkept' := hkept.trans (Store.keeps_retain v)
    have hdefined : st.define n k v = (.ok (st₁.retain v).1,
        (st₁.retain v).2.modifySession n fun se =>
          { se with bindings := se.bindings.set s (st₁.retain v).1 }) := by
      rw [Store.define, hkey]
    have hlabel := Value.seen_label (r := r) v st₁.nextCell
    rw [hdefined, View.define, hname, ← hlabel.1]
    refine Does.after (.modify ?_ rfl) hkept'
    have h' := h.kept hkept'
    exact h'.modify (fun _ => rfl) h'.evaluator (h'.bindings.set hfind (hlabel.2 hv)) h'.macros
      h'.program h'.known

theorem does_lookup (h : Sees r st n w) {k : Value} (hk : st.Holds n k) :
    Does r st n ⟨w.lookup (k.seen r), w, none⟩ (st.lookup n k).1 (st.lookup n k).2 := by
  cases hname : (k.seen r).name? with
  | none =>
    have hrefused : st.lookup n k =
        (.error (if k.isHashable then .unbound k else .unhashableKey k), st) := by
      cases k <;> simp [Value.seen, Seen.name?] at hname <;> rfl
    rw [hrefused, View.lookup, hname, Value.seen_isHashable]
    refine .answer h ?_
    cases k.isHashable <;> rfl
  | some name =>
    obtain ⟨s, st₁, hkey, hkept, rfl, hfind⟩ := Store.key_of_name h.table hk hname
    have h' := h.kept hkept
    rw [Store.lookup, hkey, View.lookup, hname]
    simp only [h'.bindings.lookup_eq hfind]
    cases hget : (st₁.session n).bindings.get? s with
    | none => exact Does.after (.answer h' rfl) hkept
    | some v => exact Does.after (.answer h' rfl) hkept

theorem find_eq (h : Sees r st n w) {k : Value} (hk : st.Holds n k) :
    seenResult r ((st.isBound n k).map .bool) = w.find (k.seen r) := by
  cases k with
  | symbol s =>
    rw [Value.seen, View.find, h.bindings.lookup_eq (hk s rfl), Option.isSome_map]
    rfl
  | _ => simp [Store.isBound, Value.isHashable, View.find, Value.seen, Seen.isHashable, seenResult,
      Error.seen, Except.map]

/-- A new function is seen as what it does and its name. -/
theorem seen_addBuiltin (name : String) {b : Behaviour H}
    (hb : r.behaviour st.behaviours.size = some b) :
    ((st.addBuiltin name b).1.toValue).seen r = .builtin (some b) name ∧
      ((st.addBuiltin name b).1.toValue).Known r := by
  refine ⟨?_, .builtin hb⟩
  show (Value.builtin st.behaviours.size name).seen r = _
  rw [Value.seen, hb]

/-- A new function or macro has its name in the table of the session. -/
theorem Sees.named (h : Sees r st n w) (name : String) (b : Behaviour H) :
    st.Keeps n ((st.addBuiltin name b).2.intern n name).2 ∧
      (((st.addBuiltin name b).2.intern n name).2.symbols n).find? name =
        some ((st.addBuiltin name b).2.intern n name).1 :=
  ⟨(Store.keeps_addBuiltin name b).trans (Store.keeps_intern name), Store.find?_intern h.table name⟩

theorem does_addFunction (h : Sees r st n w) (name : String) {b : Behaviour H}
    (hb : r.behaviour st.behaviours.size = some b) :
    Does r st n
      ⟨.ok (.builtin (some b) name),
        { w with bindings := bindName name (.builtin (some b) name) w.bindings }, none⟩
      (.ok (st.addFunction n name b).1.toValue) (st.addFunction n name b).2 := by
  obtain ⟨hseen, hknown⟩ := seen_addBuiltin name hb
  obtain ⟨hkept, hfind⟩ := h.named name b
  have h' := h.kept hkept
  rw [← hseen]
  refine Does.after (.modify ?_ rfl) hkept
  exact h'.modify (fun _ => rfl) h'.evaluator (h'.bindings.set hfind hknown) h'.macros h'.program
    h'.known

theorem does_addMacro (h : Sees r st n w) (name : String) {b : Behaviour H}
    (hb : r.behaviour st.behaviours.size = some b) :
    Does r st n
      ⟨.ok (.builtin (some b) name),
        { w with macros := bindName name (.builtin (some b) name) w.macros }, none⟩
      (.ok (st.addMacro n name b).1.toValue) (st.addMacro n name b).2 := by
  obtain ⟨hseen, hknown⟩ := seen_addBuiltin name hb
  obtain ⟨hkept, hfind⟩ := h.named name b
  have h' := h.kept hkept
  rw [← hseen]
  refine Does.after (.modify ?_ rfl) hkept
  exact h'.modify (fun _ => rfl) h'.evaluator h'.bindings (h'.macros.set hfind hknown) h'.program
    h'.known

/-! ### Programs -/

theorem does_loadForms (h : Sees r st n w) {forms : List Value} (hforms : ∀ v ∈ forms, v.Known r) :
    Does r st n (w.loadForms (forms.map (Value.seen r)))
      ((st.loadForms n forms).1.map fun _ => .null) (st.loadForms n forms).2 := by
  have hfind : (forms.map (Value.seen r)).find? (!·.isLoadable) =
      (forms.find? (!Store.isLoadable ·)).map (Value.seen r) := by
    rw [List.find?_map]
    congr 2
    funext v
    simp [Value.seen_isLoadable]
  rw [View.loadForms, hfind, Store.loadForms]
  cases forms.find? (!Store.isLoadable ·) with
  | some form => exact .answer h rfl
  | none =>
    obtain ⟨hseen, hknown⟩ := Value.seen_labelItems (r := r) forms st.nextCell
    have hkept : st.Keeps n { st with nextCell := (Value.labelItems st.nextCell forms).2 } :=
      Store.keeps_nextCell _
    have h' := h.kept hkept
    refine Does.after (.modify ?_ rfl) hkept
    refine h'.modify (fun _ => rfl) h'.evaluator h'.bindings h'.macros ?_ ?_
    · rw [List.map_append, hseen]
      exact congrArg (· ++ _) h.program
    · exact List.forall_mem_append.mpr ⟨h.known, hknown hforms⟩

/-- What was read is seen by name only. -/
theorem loadParsed_byName (w : View H) (parsed : Except Failure Reader.Parsed) :
    w.loadParsed r (parsed.map Reader.Parsed.byName) = w.loadParsed r parsed := by
  match parsed with
  | .error e => rfl
  | .ok ⟨forms, some e⟩ => rfl
  | .ok ⟨forms, none⟩ =>
    show w.loadForms ((forms.map Value.byName).map (Value.seen r)) = _
    rw [View.loadParsed, List.map_map]
    congr 1
    exact List.map_congr_left fun v _ => Value.seen_byName v

theorem does_loadText (h : Sees r st n w) (text : String) :
    Does r st n (w.loadText r text) ((st.loadText n text).1.map fun _ => .null)
      (st.loadText n text).2 := by
  have hnames := Reader.names_parseAll (tokens text) (st.symbols n)
  change _ <+: (Reader.ofText text (st.symbols n)).parseAll.2.symbols.names at hnames
  have hkept := Store.keeps_setSymbols hnames
  have h' := h.kept hkept
  have hknown (vs : List Value)
      (hvs : (Reader.ofText text (st.symbols n)).parseAll.1 = .ok ⟨vs, none⟩) :
      ∀ v ∈ vs, v.Known r := Reader.known_of_parseAll r hvs
  -- The view may as well be given what is read where the names of the session are known.
  have hsame : w.loadText r text =
      w.loadParsed r (Reader.ofText text (st.symbols n)).parseAll.1 := by
    rw [View.loadText, ← loadParsed_byName w (Reader.ofText text (st.symbols n)).parseAll.1,
      ← loadParsed_byName w (Reader.ofText text).parseAll.1]
    exact congrArg (w.loadParsed r) (Reader.parseAll_byName (tokens text) ∅ (st.symbols n))
  rw [hsame, Store.loadText]
  generalize (Reader.ofText text (st.symbols n)).parseAll = read at h' hkept hknown
  rcases read with ⟨_ | ⟨forms, _ | e⟩, reader⟩
  · exact Does.after (.answer h' rfl) hkept
  · exact Does.after (does_loadForms h' (hknown forms rfl)) hkept
  · exact Does.after (.answer h' rfl) hkept

/-! ### Sessions -/

theorem does_duplicate (h : Sees r st n w) :
    Does r st n ⟨.ok .null, w, some w.copy⟩ (.ok .null) (st.duplicate n).2 where
  result := rfl
  view := h.touched Store.touches_duplicate (Store.session_duplicate_of_lt h.live)
  alone hv := nomatch hv
  child v hv := by
    cases hv
    exact ⟨by simp [Store.duplicate], h.duplicate, ⟨[], Store.session_duplicate_self⟩,
      Store.session_duplicate_of_lt h.live⟩

/-- Loading forms changes nothing of a session but its program. -/
theorem session_loadForms (hn : n < st.sessions.size) (forms : List Value) :
    ∃ program, (st.loadForms n forms).2.session n = { st.session n with program := program } := by
  rw [Store.loadForms]
  cases forms.find? (!Store.isLoadable ·) with
  | some form => exact ⟨(st.session n).program, rfl⟩
  | none => exact ⟨_, Store.session_modifySession_self hn _⟩

theorem child_loadForms (w : View H) (forms : List (Seen H)) :
    (w.loadForms forms).child = none := by
  rw [View.loadForms]
  split <;> rfl

/-- The call that starts a coroutine is seen by the session that the coroutine holds. -/
theorem seen_startCall {child : Lineage} {id : Nat} {s : Symbol}
    (hstart : r.behaviour 0 = some .startCoroutine) (hheld : r.holder id = some (.member child))
    (hs : s.name = "apply") :
    (Value.ofList [.symbol s, Builtin.start.toValue, .array [.coroutine id]]).seen r =
      .startCall child := by
  have hfunction : (Builtin.start.toValue).seen r = .builtin (some .startCoroutine) "__start" := by
    rw [Builtin.start, Builtin.toValue, Value.seen, hstart]
  have hargument : (Value.array [.coroutine id]).seen r =
      .array [.coroutine (some (.member child))] := by
    rw [Value.seen, Value.seenItems, Value.seenItems, Value.seen, hheld]
  have hname : (Value.symbol s).seen r = .symbol "apply" := by rw [Value.seen, hs]
  rw [Value.seen_ofList, List.map_cons, List.map_cons, List.map_cons, hname, hfunction, hargument]
  rfl

theorem does_spawn (hs : st.Sound) (h : Sees r st n w) {forms : List Value}
    (hforms : ∀ v ∈ forms, v.Known r) {own : Nat → Holder} {child : Lineage}
    (hr : ((st.go n forms).2.registry own).Grows r)
    (hown : (st.go n forms).2.sessions.size ≠ st.sessions.size →
      own st.sessions.size = .member child) :
    Does r st n (w.spawn child (forms.map (Value.seen r))) (st.go n forms).1 (st.go n forms).2 := by
  have hload := does_loadForms h.duplicate hforms
  have hchild := child_loadForms w.copy (forms.map (Value.seen r))
  obtain ⟨program, hcopy⟩ := session_loadForms h.duplicate.live forms
  rw [View.spawn]
  generalize w.copy.loadForms (forms.map (Value.seen r)) = effect at hload hchild ⊢
  obtain ⟨x, v, c⟩ := effect
  obtain rfl : c = none := hchild
  rcases hst : (st.duplicate n).2.loadForms st.sessions.size forms with ⟨e | u, st₁⟩
  · rw [hst] at hload
    rw [Store.go_eq, hst]
    have hresult : Except.error (e.seen r) = x := hload.result
    subst hresult
    exact .answer h rfl
  · rw [hst] at hload hcopy
    rw [Store.go_eq, hst] at hr hown ⊢
    have hresult : Except.ok .null = x := hload.result
    subst hresult
    have hsize : st₁.sessions.size = st.sessions.size + 1 := by
      rw [hload.alone rfl]
      simp [Store.duplicate]
    have hlive := h.live
    have hloaded := (st.duplicate n).2.touches_loadForms (n := st.sessions.size) forms
    rw [hst] at hloaded
    have htouches : st.Touches n st₁ :=
      Store.touches_duplicate.andThen hloaded (.inr (Nat.le_refl _))
    have hparent : st₁.session n = st.session n := by
      refine (hloaded.others ?_ (Nat.ne_of_lt hlive)).trans (Store.session_duplicate_of_lt hlive)
      exact Nat.lt_of_lt_of_le hlive Store.touches_duplicate.sessions
    have hkept : st₁.Keeps n ((st₁.addCoroutine st.sessions.size).2.intern n "apply").2 :=
      (Store.keeps_addCoroutine (by omega)).trans (Store.keeps_intern "apply")
    have hheld : r.holder st₁.coroutines.size = some (.member child) := by
      refine hr.holder ?_
      show ((st₁.coroutines.push _)[st₁.coroutines.size]?).map _ = _
      rw [Array.getElem?_push_size, Option.map_some, hown]
      rw [hkept.same, hsize]
      exact Nat.succ_ne_self _
    have hstart : r.behaviour 0 = some .startCoroutine :=
      hr.behaviour (hkept.behaviours (htouches.behaviours hs.start))
    exact {
      result := congrArg Except.ok (seen_startCall hstart hheld rfl)
      view := (h.touched htouches hparent).kept hkept
      alone := by
        intro hnone
        cases hnone
      child := by
        rintro _ ⟨⟩
        refine ⟨?_, hload.view.kept hkept, ⟨program, ?_⟩, ?_⟩
        · rw [hkept.same, hsize]
        · rw [hkept.session, hcopy, Store.session_duplicate_self]
        · rw [hkept.session, hparent] }

/-- The macro of a name is what the view has of it. -/
theorem lookup_macros (h : Sees r st n w) (name : String) :
    w.macros.lookup name =
      (((st.intern n name).2.session n).macros.get? (st.intern n name).1).map
        fun f => f.toValue.seen r := by
  have hkept : st.Keeps n (st.intern n name).2 := Store.keeps_intern name
  have hfind : ((st.intern n name).2.symbols n).find? (st.intern n name).1.name =
      some (st.intern n name).1 := Store.find?_intern h.table name
  exact (h.kept hkept).macros.lookup_eq hfind

theorem expandsGo_iff {own : Nat → Holder} (h : Sees (st.registry own) st n w)
    (args : List Value) : st.expandsGo n ↔ w.allows (.go args) := by
  have hlookup := lookup_macros h "go"
  rw [Store.expandsGo, Store.expander_eq, View.allows, hlookup]
  cases ((st.intern n "go").2.session n).macros.get? (st.intern n "go").1 with
  | none => simp
  | some f =>
    have hseen : f.toValue.seen (st.registry own) = .builtin (st.behaviours[f.id]?) f.name := by
      rw [Builtin.toValue, Value.seen]
      rfl
    have hsame : (st.intern n "go").2.behaviours = st.behaviours := rfl
    rw [Option.map_some, hseen]
    simp only [hsame]
    cases st.behaviours[f.id]? with
    | none => simp
    | some b => cases b <;> simp

theorem does_go (hs : st.Sound) (h : Sees r st n w) (hgo : st.expandsGo n) {args : List Value}
    (hargs : ∀ v ∈ args, v.Known r) {a : Except Error Value}
    (hexpand : st.expand? n "go" args = some (a, st')) {own : Nat → Holder} {child : Lineage}
    (hr : (st'.registry own).Grows r)
    (hown : st'.sessions.size ≠ st.sessions.size → own st.sessions.size = .member child) :
    Does r st n (w.go child (args.map (Value.seen r))) a st' := by
  have hkept : st.Keeps n (st.intern n "go").2 := Store.keeps_intern "go"
  have h' := h.kept hkept
  rw [Store.expand_go hgo] at hexpand
  rw [View.go, lookup_macros h "go"]
  cases hget : ((st.intern n "go").2.session n).macros.get? (st.intern n "go").1 with
  | none =>
    rw [hget] at hexpand
    cases hexpand
    exact Does.after (.answer h' rfl) hkept
  | some f =>
    rw [hget] at hexpand
    obtain ⟨rfl, rfl⟩ := Prod.mk.inj (Option.some.inj hexpand)
    exact Does.after (does_spawn (hkept.sound hs) h' hargs hr hown) hkept

/-! ### Operations -/

/-- A session can carry out an operation just if its view allows it. -/
theorem perform?_isSome_iff {own : Nat → Holder} (h : Sees (st.registry own) st n w)
    (op : Operation H) : (st.perform? n op).isSome ↔ w.allows op := by
  cases op with
  | go args =>
    have hkept : st.Keeps n (st.placeAll n args).2 := Store.keeps_placeAll args
    have h' : Sees ((st.placeAll n args).2.registry own) (st.placeAll n args).2 n w := h.kept hkept
    rw [← expandsGo_iff h' args, Store.perform?]
    by_cases hgo : (st.placeAll n args).2.expandsGo n
    · simp only [hgo, if_true]
      rw [Store.expand_go hgo]
      split <;> simp
    · simp [hgo]
  | _ => simp [Store.perform?, View.allows]

/-- **An operation in a store does what it does to the session by itself.** The registry is to know
all that the store knows after it, where a session that it makes is the child of that lineage. -/
theorem does_perform (hs : st.Sound) (h : Sees r st n w) {op : Operation H}
    (hop : ∀ v ∈ op.values, v.Known r) {a : Except Error Value}
    (hperform : st.perform? n op = some (a, st')) {own : Nat → Holder} {child : Lineage}
    (hr : (st'.registry own).Grows r)
    (hown : st'.sessions.size ≠ st.sessions.size → own st.sessions.size = .member child) :
    Does r st n (w.perform r child op) a st' := by
  cases op with
  | define key v =>
    obtain ⟨-, hv⟩ := List.forall_mem_cons.mp hop
    have hkey : st.Keeps n (st.place n key).2 := Store.keeps_place key
    have hvalue : (st.place n key).2.Keeps n ((st.place n key).2.place n v).2 := Store.keeps_place v
    have hknown : ((st.place n key).2.place n v).1.Known r :=
      Store.known_place (hv v List.mem_cons_self)
    have hdoes := does_define (h.kept (hkey.trans hvalue))
      ((Store.holds_place h.table key).kept hvalue) hknown
    rw [Store.seen_place, Store.seen_place] at hdoes
    cases hperform
    exact hdoes.after (hkey.trans hvalue)
  | addFunction name b =>
    cases hperform
    refine does_addFunction h name (hr.behaviour ?_)
    exact Array.getElem?_push_size
  | addMacro name b =>
    cases hperform
    refine does_addMacro h name (hr.behaviour ?_)
    exact Array.getElem?_push_size
  | lookup key =>
    have hkey : st.Keeps n (st.place n key).2 := Store.keeps_place key
    have hdoes := does_lookup (h.kept hkey) (Store.holds_place h.table key)
    rw [Store.seen_place] at hdoes
    obtain ⟨rfl, rfl⟩ := Prod.mk.inj (Option.some.inj hperform)
    exact hdoes.after hkey
  | find key =>
    have hkey : st.Keeps n (st.place n key).2 := Store.keeps_place key
    have hanswer := find_eq (h.kept hkey) (Store.holds_place h.table key)
    rw [Store.seen_place] at hanswer
    cases hperform
    exact Does.after (.answer (h.kept hkey) hanswer) hkey
  | loadText text =>
    cases hperform
    exact does_loadText h text
  | loadForms forms =>
    have hforms : st.Keeps n (st.placeAll n forms).2 := Store.keeps_placeAll forms
    have hknown : ∀ v ∈ (st.placeAll n forms).1, v.Known r := Store.known_placeAll hop
    have hdoes := does_loadForms (h.kept hforms) hknown
    rw [Store.seen_placeAll] at hdoes
    cases hperform
    exact hdoes.after hforms
  | go args =>
    have hargs : st.Keeps n (st.placeAll n args).2 := Store.keeps_placeAll args
    rw [Store.perform?] at hperform
    by_cases hgo : (st.placeAll n args).2.expandsGo n
    · simp only [hgo, if_true] at hperform
      have hdoes := does_go (hargs.sound hs) (h.kept hargs) hgo (Store.known_placeAll hop) hperform
        hr hown
      rw [Store.seen_placeAll] at hdoes
      exact hdoes.after hargs
    · simp [hgo] at hperform
  | duplicate =>
    cases hperform
    exact does_duplicate h

/-- A session that an operation makes has its body as the program. -/
theorem View.program_child {child : Lineage} {op : Operation H} {c : View H}
    (h : (w.perform r child op).child = some c) : c.program = op.body.map (Value.seen r) := by
  cases op with
  | go args =>
    rw [View.perform, View.go] at h
    split at h
    · cases h
    · rw [View.spawn, View.loadForms] at h
      cases hbad : (args.map (Value.seen r)).find? (!·.isLoadable) with
      | some form =>
        rw [hbad] at h
        cases h
      | none =>
        rw [hbad] at h
        cases h
        exact List.nil_append _
  | duplicate =>
    cases h
    rfl
  | define key v =>
    rw [View.perform, View.define] at h
    split at h <;> cases h
  | loadText text =>
    rw [View.perform, View.loadText, View.loadParsed.eq_def] at h
    split at h
    · cases h
    · cases h
    · rw [child_loadForms] at h
      cases h
  | loadForms forms =>
    rw [View.perform, child_loadForms] at h
    cases h
  | addFunction | addMacro | lookup | find => cases h

/-! ### What is seen does not depend on more than what is known -/

/-- What is seen of a session. -/
def Session.view (r : Registry H) (se : Session H) : View H where
  evaluator := se.evaluator
  bindings := se.bindings.entries.map fun e => (e.1.name, e.2.seen r)
  macros := se.macros.entries.map fun e => (e.1.name, e.2.toValue.seen r)
  program := se.program.map (Value.seen r)

theorem Sees.view_eq {r : Registry H} {st : Store H} {n : Nat} {w : View H} (h : Sees r st n w) :
    (st.session n).view r = w := by
  have hbindings : (st.session n).bindings.entries.map (fun e => (e.1.name, e.2.seen r)) =
      w.bindings := h.bindings.entries
  rw [Session.view, h.evaluator, hbindings, h.macros.entries, h.program]

/-- A session can be looked at where the same numbers are known. -/
theorem Sees.again {r r' : Registry H} {st : Store H} {n : Nat} {w : View H} (h : Sees r st n w)
    (hbehaviour : ∀ id, (r.behaviour id).isSome → (r'.behaviour id).isSome)
    (hholder : ∀ id, (r.holder id).isSome → (r'.holder id).isSome) :
    Sees r' st n ((st.session n).view r') where
  live := h.live
  table := h.table
  evaluator := rfl
  bindings := ⟨rfl, h.bindings.keys, fun e he => (h.bindings.known e he).again hbehaviour hholder⟩
  macros := ⟨rfl, h.macros.keys, fun e he => (h.macros.known e he).again hbehaviour hholder⟩
  program := rfl
  known v hv := (h.known v hv).again hbehaviour hholder

/-- What an operation does does not depend on more than what the numbers in it stand for. -/
theorem View.perform_grows {r r' : Registry H} (w : View H) (child : Lineage) {op : Operation H}
    (hr : r.Grows r') (hop : ∀ v ∈ op.values, v.Known r) :
    w.perform r' child op = w.perform r child op := by
  cases op with
  | define key v =>
    have hkey := (hop key (by simp [Operation.values])).seen_eq hr
    have hv := (hop v (by simp [Operation.values])).seen_eq hr
    rw [View.perform, View.perform, hkey, hv]
  | lookup key | find key =>
    have hkey := (hop key (by simp [Operation.values])).seen_eq hr
    rw [View.perform, View.perform, hkey]
  | loadText text =>
    rw [View.perform, View.perform, View.loadText, View.loadText]
    have hknown (vs : List Value) (hvs : (Reader.ofText text).parseAll.1 = .ok ⟨vs, none⟩) :
        ∀ v ∈ vs, v.Known r := Reader.known_of_parseAll r hvs
    generalize (Reader.ofText text).parseAll.1 = parsed at hknown ⊢
    match parsed with
    | .error e | .ok ⟨forms, some e⟩ => rfl
    | .ok ⟨forms, none⟩ =>
      rw [View.loadParsed, View.loadParsed, Value.map_seen_eq (hknown forms rfl) hr]
  | loadForms forms =>
    have hforms : forms.map (Value.seen r') = forms.map (Value.seen r) := Value.map_seen_eq hop hr
    rw [View.perform, View.perform, hforms]
  | go args =>
    have hargs : args.map (Value.seen r') = args.map (Value.seen r) := Value.map_seen_eq hop hr
    rw [View.perform, View.perform, hargs]
  | addFunction | addMacro | duplicate => rfl

/-- What is known in a store stays known. -/
theorem Store.registry_grows {st st' : Store H} {n : Nat} {own own' : Nat → Holder}
    (hs : st.Sound) (ht : st.Touches n st') (hown : ∀ m, m < st.sessions.size → own' m = own m) :
    (st.registry own).Grows (st'.registry own') where
  behaviour hb := ht.behaviours hb
  holder {id o} ho := by
    obtain ⟨c, hc, rfl⟩ := Option.map_eq_some_iff.mp ho
    exact Option.map_eq_some_iff.mpr ⟨c, ht.coroutines hc, hown c.session (hs.coroutines hc)⟩

end LispCore
