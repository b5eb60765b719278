import LispCore.Proofs.Session.Deed

/-!
What commands come to.

Each function of a store answers what is asked of it with its deed, and from these
`Store.answered_carryOut` puts together all that a command can do. So `Change` is all that can ever
happen to sessions, channels and coroutines, and what holds along histories follows from its twelve
cases.
-/

namespace LispCore.Store

variable {H : Host} {st st' st₁ : Store H} {n : Nat}

/-! ### Bindings -/

/-- A definition binds the symbol that its key stands for, or the key stands for none. -/
theorem answered_define (hn : n < st.sessions.size)
    (ht : (st.session n).table < st.tables.size) (key v : Value) :
    st.Answered (fun _ => .bound n key v) (st.define n key v).1 (st.define n key v).2 := by
  -- Where the key stands for a symbol in the store after quiet steps, that is bound.
  have hbound (s : Symbol) (st₁ : Store H) (hkey : st.key n key = (.symbol s, st₁))
      (hq : st.Quiet st₁) (hs : key.StandsFor (st₁.symbols n) s) :
      st.Answered (fun _ => .bound n key v) (st.define n key v).1 (st.define n key v).2 := by
    rw [define, hkey]
    have hretain : st.Quiet (st₁.retain v).2 := hq.trans (quiet_nextCell _)
    refine hretain.done (Change.bound ?_ ?_ ?_).done
    · rw [hretain.sessions]
      exact hn
    · exact hs
    · exact ⟨st₁.nextCell, rfl⟩
  cases key with
  | str name =>
    refine hbound (st.intern n name).1 (st.intern n name).2 rfl (quiet_intern name) ?_
    exact .inr ⟨rfl, find?_intern ht name⟩
  | symbol s => exact hbound s st rfl (.refl st) (.inl rfl)
  | _ => exact .refl st

theorem done_addFunction (hn : n < st.sessions.size)
    (ht : (st.session n).table < st.tables.size) (name : String) (b : Behaviour H) :
    st.Done (.bound n (.str name) (st.addFunction n name b).1.toValue)
      (st.addFunction n name b).2 := by
  have hq : st.Quiet ((st.addBuiltin name b).2.intern n name).2 :=
    (quiet_addBuiltin name b).trans (quiet_intern name)
  have hlive : n < ((st.addBuiltin name b).2.intern n name).2.sessions.size := by
    rw [hq.sessions]
    exact hn
  have hkey : (Value.str name).StandsFor
      (((st.addBuiltin name b).2.intern n name).2.symbols n)
      ((st.addBuiltin name b).2.intern n name).1 :=
    .inr ⟨rfl, find?_intern ht name⟩
  have hchange := Change.bound (v := (st.addBuiltin name b).1.toValue) hlive hkey
    (Value.keptAs_builtin _ _)
  exact hq.done hchange.done

theorem done_addMacro (hn : n < st.sessions.size)
    (ht : (st.session n).table < st.tables.size) (name : String) (b : Behaviour H) :
    st.Done (.named n name (st.addMacro n name b).1.toValue) (st.addMacro n name b).2 := by
  have hq : st.Quiet ((st.addBuiltin name b).2.intern n name).2 :=
    (quiet_addBuiltin name b).trans (quiet_intern name)
  have hlive : n < ((st.addBuiltin name b).2.intern n name).2.sessions.size := by
    rw [hq.sessions]
    exact hn
  have hfind : (((st.addBuiltin name b).2.intern n name).2.symbols n).find? name =
      some ((st.addBuiltin name b).2.intern n name).1 := find?_intern ht name
  have hchange := Change.named (s := ((st.addBuiltin name b).2.intern n name).1)
    (f := (st.addBuiltin name b).1) hlive rfl hfind
  exact hq.done hchange.done

/-! ### Programs -/

/-- Values as they are kept, all at once. -/
def retainAll (st : Store H) (vs : List Value) : List Value × Store H :=
  ((Value.labelItems st.nextCell vs).1, { st with nextCell := (Value.labelItems st.nextCell vs).2 })

theorem loadForms_of_loadable {forms : List Value}
    (h : ∀ form ∈ forms, isLoadable form = true) :
    st.loadForms n forms =
      (.ok (), (st.retainAll forms).2.modifySession n fun se =>
        { se with program := se.program ++ (st.retainAll forms).1 }) := by
  have hfind : forms.find? (!isLoadable ·) = none := by
    refine List.find?_eq_none.mpr fun form hform => ?_
    simp [h form hform]
  rw [loadForms, hfind]
  rfl

theorem loadForms_of_find? {forms : List Value} {form : Value}
    (h : forms.find? (!isLoadable ·) = some form) :
    st.loadForms n forms = (.error (.list (.improperForm form)), st) := by
  rw [loadForms, h]

/-- Each of some forms may stand in a program, or one is the first that may not. -/
theorem loadable_or_find? (forms : List Value) :
    (∀ form ∈ forms, isLoadable form = true) ∨
      ∃ form, forms.find? (!isLoadable ·) = some form := by
  cases hfind : forms.find? (!isLoadable ·) with
  | none => exact .inl fun form hform => by simpa using List.find?_eq_none.mp hfind form hform
  | some form => exact .inr ⟨form, rfl⟩

/-- Forms are loaded if each of them may stand in a program. -/
theorem answered_loadForms (hn : n < st.sessions.size) (forms : List Value) :
    st.Answered (fun _ => .loaded n forms)
      ((st.loadForms n forms).1.map fun _ => .null) (st.loadForms n forms).2 := by
  obtain hloadable | ⟨form, hfind⟩ := loadable_or_find? forms
  · rw [loadForms_of_loadable hloadable]
    have hq : st.Quiet (st.retainAll forms).2 := quiet_nextCell _
    have hchange : (st.retainAll forms).2.Change (.loaded n forms) _ :=
      .loaded hn hloadable ⟨st.nextCell, rfl⟩
    exact hq.done hchange.done
  · rw [loadForms_of_find? hfind]
    exact .refl st

theorem quiet_readAll (text : String) : st.Quiet (st.readAll n text).2 := by
  have hnames := Reader.names_parseAll (tokens text) (st.symbols n)
  rw [Reader.symbols_parseAll, ← Reader.symbols_readAll] at hnames
  exact quiet_setSymbols hnames

/-- A text is loaded if it is read to its end. -/
theorem loadText_eq (text : String) :
    st.loadText n text =
      match st.readAll n text with
      | (.ok forms, st₁) => st₁.loadForms n forms
      | (.error e, st₁) => (.error (.reading e), st₁) := by
  rw [loadText, readAll, Reader.parseAll, Reader.readAll]
  rcases (Reader.ofText text (st.symbols n)).forms with ⟨forms, _ | e, r⟩
  · rfl
  · by_cases h : e.isRecoverable <;> simp [h, loadParsed]

/-- A file is loaded as its text is. -/
theorem loadFile_eq (roots : SourceRoots) (name : String) :
    st.loadFile n roots name =
      match roots.text name with
      | .error e => (.error (.loading e), st.setSymbols n (st.symbols n))
      | .ok text =>
        match st.readAll n text with
        | (.ok forms, st₁) => st₁.loadForms n forms
        | (.error e, st₁) =>
          (.error (if e.isRecoverable then .reading e else .loading (.stopped e)), st₁) := by
  unfold loadFile SourceRoots.load
  cases roots.text name with
  | error e => rfl
  | ok text =>
    dsimp only
    rw [readAll, Reader.parseAll, Reader.readAll]
    rcases (Reader.ofText text (st.symbols n)).forms with ⟨forms, _ | e, r⟩
    · rfl
    · by_cases h : e.isRecoverable <;> simp [h, loadParsed]

/-- Loading a program is answered. -/
theorem answered_loadText (hn : n < st.sessions.size) (text : String) :
    st.Answered (fun _ => .loaded n (st.formsOf n text))
      ((st.loadText n text).1.map fun _ => .null) (st.loadText n text).2 := by
  have hread := st.quiet_readAll (n := n) text
  rw [loadText_eq, formsOf]
  rcases h : st.readAll n text with ⟨e | forms, st₁⟩
  · rw [h] at hread
    exact hread
  · rw [h] at hread
    have hlive : n < st₁.sessions.size := by
      rw [hread.sessions]
      exact hn
    exact hread.answered (answered_loadForms hlive forms)

theorem answered_loadFile (hn : n < st.sessions.size) (roots : SourceRoots) (name : String) :
    st.Answered (fun _ => .loaded n ((roots.text name).toOption.elim [] (st.formsOf n)))
      ((st.loadFile n roots name).1.map fun _ => .null) (st.loadFile n roots name).2 := by
  rw [loadFile_eq]
  cases roots.text name with
  | error e => exact quiet_setSymbols (List.prefix_refl _)
  | ok text =>
    have htext := answered_loadText hn text
    rw [loadText_eq] at htext
    dsimp only
    rcases h : st.readAll n text with ⟨e | forms, st₁⟩
    · rw [h] at htext
      exact htext
    · rw [h] at htext
      exact htext

/-! ### Channels and coroutines -/

theorem answered_answerReply (hn : n < st.sessions.size)
    (ht : (st.session n).table < st.tables.size) (r : Reply) :
    st.Answered (fun _ => match r with | .define key v => .bound n key v | _ => .nothing)
      (st.answerReply n r).1 (st.answerReply n r).2 := by
  cases r with
  | value v => exact (Quiet.refl st).nothing
  | failed e => exact .refl st
  | define key v =>
    have hdefine := answered_define hn ht key v
    rw [answerReply]
    rcases hdef : st.define n key v with ⟨e | w, st₁⟩
    · rw [hdef] at hdefine
      exact hdefine
    · rw [hdef] at hdefine
      exact hdefine

theorem startCoroutine_of_not_coroutine {args : List Value}
    (h : ∀ id, args ≠ [.coroutine id]) : st.startCoroutine args = (.error .notACoroutine, st) := by
  rw [startCoroutine]
  exact h

/-- Only a coroutine that is unstarted is started. -/
theorem startCoroutine_cases (args : List Value) :
    (∃ id sid, args = [.coroutine id] ∧ st.coroutines[id]? = some ⟨sid, .unstarted⟩ ∧
      st.startCoroutine args = (.ok .null, st.setStatus id (.running { session := sid }))) ∨
    ∃ e, st.startCoroutine args = (.error e, st) := by
  by_cases hargs : ∃ id, args = [.coroutine id]
  · obtain ⟨id, rfl⟩ := hargs
    rw [startCoroutine]
    rcases h : st.coroutines[id]? with _ | ⟨sid, _ | run | result⟩
    · exact .inr ⟨_, rfl⟩
    · exact .inl ⟨id, sid, rfl, h, rfl⟩
    · exact .inr ⟨_, rfl⟩
    · exact .inr ⟨_, rfl⟩
  · exact .inr ⟨_, startCoroutine_of_not_coroutine fun id h => hargs ⟨id, h⟩⟩

/-- What was put at the end of an array is changed there. -/
theorem modify_push_size {α : Type} (xs : Array α) (x : α) (f : α → α) :
    (xs.push x).modify xs.size f = xs.push (f x) := by
  refine Array.ext_getElem? fun i => ?_
  rw [Array.getElem?_modify, Array.getElem?_push, Array.getElem?_push]
  by_cases h : i = xs.size
  · rw [if_pos h.symm, if_pos h, if_pos h, Option.map_some]
  · rw [if_neg (Ne.symm h), if_neg h, if_neg h]

/-- Forms that may stand in a program become the program of a copy of the session. -/
theorem go_of_loadable {forms : List Value} (h : ∀ form ∈ forms, isLoadable form = true) :
    st.go n forms =
      (.ok (.ofList [
          .symbol (((st.retainAll forms).2.spawn n (st.retainAll forms).1).intern n "apply").1,
          Builtin.start.toValue, .array [.coroutine st.coroutines.size]]),
        (((st.retainAll forms).2.spawn n (st.retainAll forms).1).intern n "apply").2) := by
  -- The copy is made with an empty program, and the forms are put into that.
  have hcopied : (((st.duplicate n).2.retainAll forms).2.modifySession st.sessions.size
      fun se => { se with program := se.program ++ (st.retainAll forms).1 }) =
      { (st.retainAll forms).2 with
        sessions := st.sessions.push { st.session n with
          program := (st.retainAll forms).1 } } := by
    refine congrArg (fun sessions => { (st.retainAll forms).2 with sessions := sessions }) ?_
    exact modify_push_size st.sessions { st.session n with program := [] } _
  rw [go_eq, loadForms_of_loadable h]
  dsimp only
  rw [show ((st.duplicate n).2.retainAll forms).1 = (st.retainAll forms).1 from rfl, hcopied]
  rfl

/-- A form that may not stand in a program is the reason why there is no copy. -/
theorem go_of_find? {forms : List Value} {form : Value}
    (h : forms.find? (!isLoadable ·) = some form) :
    st.go n forms = (.error (.list (.improperForm form)), st) := by
  rw [go_eq, loadForms_of_find? h]

theorem answered_go (hn : n < st.sessions.size) (forms : List Value) :
    st.Answered (fun _ => .spawned n forms) (st.go n forms).1 (st.go n forms).2 := by
  obtain hloadable | ⟨form, hfind⟩ := loadable_or_find? forms
  · rw [go_of_loadable hloadable]
    have hq : st.Quiet (st.retainAll forms).2 := quiet_nextCell _
    exact ⟨_, _, hq, .spawned hn hloadable ⟨st.nextCell, rfl⟩, quiet_intern "apply"⟩
  · rw [go_of_find? hfind]
    exact .refl st

/-- The arguments that make a channel: none, or how much it holds. -/
theorem capacityArgument_eq_ok {args : List Value} {capacity : Nat}
    (h : capacityArgument args = .ok capacity) :
    args = [] ∧ capacity = 0 ∨ args = [.int (.ofNat capacity)] := by
  unfold capacityArgument at h
  split at h
  · exact .inl ⟨rfl, (Except.ok.inj h).symm⟩
  · exact .inr (by rw [Except.ok.inj h])
  · cases h
  · cases h

theorem channelArgument_eq_ok {args : List Value} {id : Nat} (h : channelArgument args = .ok id) :
    ∃ capacity rest, args = .channel id capacity :: rest := by
  unfold channelArgument at h
  split at h
  · cases h
  · next capacity rest => exact ⟨capacity, rest, by rw [Except.ok.inj h]⟩
  · cases h

/-- The arguments of a send operation: a channel and a value. -/
theorem sendArguments_eq_ok {args : List Value} {id : Nat} {v : Value}
    (h : sendArguments args = .ok (id, v)) : ∃ capacity, args = [.channel id capacity, v] := by
  unfold sendArguments at h
  cases hchannel : channelArgument args with
  | error e =>
    rw [hchannel] at h
    cases h
  | ok id' =>
    obtain ⟨capacity, rest, rfl⟩ := channelArgument_eq_ok hchannel
    rw [hchannel] at h
    match rest, h with
    | [_], h =>
      cases h
      exact ⟨capacity, rfl⟩
    | [], h => cases h
    | _ :: _ :: _, h => cases h

/-- The argument of a receive operation: a channel. -/
theorem receiveArguments_eq_ok {args : List Value} {id : Nat}
    (h : receiveArguments args = .ok id) : ∃ capacity, args = [.channel id capacity] := by
  unfold receiveArguments at h
  cases hchannel : channelArgument args with
  | error e =>
    rw [hchannel] at h
    cases h
  | ok id' =>
    obtain ⟨capacity, rest, rfl⟩ := channelArgument_eq_ok hchannel
    rw [hchannel] at h
    match rest, h with
    | [], h =>
      cases h
      exact ⟨capacity, rfl⟩
    | _ :: _, h => cases h

theorem change_of_send? {id : Nat} {v : Value} (h : st.send? id v = some st') :
    st.Change (.sent id v) st' := by
  rw [send?] at h
  cases hfull : (st.channel id).isFull with
  | true => simp [hfull] at h
  | false =>
    simp only [hfull, Bool.false_eq_true, if_false, Option.some.injEq] at h
    subst h
    exact .sent hfull

theorem change_of_receive? {id : Nat} {v : Value} (h : st.receive? id = some (v, st')) :
    st.Change (.received id v) st' := by
  rw [receive?] at h
  split at h
  · cases h
  · next w queue hqueue =>
    cases h
    exact .received hqueue

/-! ### Commands -/

variable {f : Builtin} {args : List Value} {a : Except Error Value}

theorem answered_invoke (hn : n < st.sessions.size) (ht : (st.session n).table < st.tables.size)
    (h : st.invoke? n f args = some (a, st')) : st.Answered (st.applied n f args) a st' := by
  rw [invoke?] at h
  rcases hb : st.behaviours[f.id]? with _ | g | _ | _ | _ | _ | _
  · simp only [hb] at h
    cases h
    exact .refl st
  · simp only [hb, Option.some.injEq] at h
    have hreply := answered_answerReply hn ht (H.reply g f.name args)
    rw [h] at hreply
    cases a with
    | error e => exact hreply
    | ok answer =>
      show st.Done (st.applied n f args answer) st'
      simp only [applied, hb]
      exact hreply
  · cases hargs : capacityArgument args with
    | error e =>
      simp only [hb, hargs] at h
      cases h
      exact .refl st
    | ok capacity =>
      simp only [hb, hargs] at h
      cases h
      show st.Done (st.applied n f args _) _
      simp only [applied, hb]
      obtain ⟨rfl, rfl⟩ | rfl := capacityArgument_eq_ok hargs <;> exact (Change.opened _).done
  · cases hargs : sendArguments args with
    | error e =>
      simp only [hb, hargs] at h
      cases h
      exact .refl st
    | ok sent =>
      simp only [hb, hargs] at h
      obtain ⟨st₁, hsend, heq⟩ := Option.map_eq_some_iff.mp h
      cases heq
      obtain ⟨capacity, rfl⟩ := sendArguments_eq_ok hargs
      show st.Done (st.applied n f _ _) _
      simp only [applied, hb]
      exact (change_of_send? hsend).done
  · cases hargs : receiveArguments args with
    | error e =>
      simp only [hb, hargs] at h
      cases h
      exact .refl st
    | ok id =>
      simp only [hb, hargs] at h
      obtain ⟨⟨v, st₁⟩, hreceive, heq⟩ := Option.map_eq_some_iff.mp h
      cases heq
      obtain ⟨capacity, rfl⟩ := receiveArguments_eq_ok hargs
      show st.Done (st.applied n f _ _) _
      simp only [applied, hb]
      exact (change_of_receive? hreceive).done
  · simp only [hb, Option.some.injEq] at h
    obtain ⟨id, sid, rfl, hunstarted, hstart⟩ | ⟨e, hrefused⟩ := st.startCoroutine_cases args
    · rw [hstart] at h
      cases h
      show st.Done (st.applied n f _ _) _
      simp only [applied, hb]
      exact (Change.started hunstarted).done
    · rw [hrefused] at h
      cases h
      exact .refl st
  · simp only [hb, Option.some.injEq] at h
    have hgo := answered_go hn args
    rw [h] at hgo
    cases a with
    | error e => exact hgo
    | ok answer =>
      show st.Done (st.applied n f args answer) st'
      simp only [applied, hb]
      exact hgo

/-- Applies the function or macro that was found, or tells why there is none. -/
def applyFound? (n : Nat) (args : List Value) :
    Except Error Builtin × Store H → Option (Except Error Value × Store H)
  | (.ok f, st) => st.invoke? n f args
  | (.error e, st) => some (.error e, st)

theorem call?_eq_applyFound? (name : String) :
    st.call? n name args = applyFound? n args (st.function n name) := by
  rw [call?]
  rcases st.function n name with ⟨e | f, st₁⟩ <;> rfl

theorem expand?_eq_applyFound? (name : String) :
    st.expand? n name args = applyFound? n args (st.expander n name) := by
  rw [expand?]
  rcases st.expander n name with ⟨e | f, st₁⟩ <;> rfl

/-- What is found by quiet steps that add no function is applied as it would be at once. -/
theorem answered_applyFound? (hn : n < st.sessions.size)
    (ht : (st.session n).table < st.tables.size) {found : Except Error Builtin × Store H}
    (hq : st.Quiet found.2) (hsame : found.2.behaviours = st.behaviours)
    (h : applyFound? n args found = some (a, st')) :
    st.Answered (fun answer => (found.1.toOption.map (·, args)).elim .nothing
      fun (f, args) => st.applied n f args answer) a st' := by
  obtain ⟨e | f, st₁⟩ := found
  · cases h
    exact hq
  · have happlied : st₁.applied n f args = st.applied n f args := by
      funext answer
      unfold applied
      rw [show st₁.behaviours = st.behaviours from hsame]
    show st.Answered (st.applied n f args) a st'
    rw [← happlied]
    refine hq.answered (answered_invoke ?_ ?_ h)
    · rw [hq.sessions]
      exact hn
    · rw [hq.session, hq.tables]
      exact ht

theorem answered_call (hn : n < st.sessions.size) (ht : (st.session n).table < st.tables.size)
    {name : String} (h : st.call? n name args = some (a, st')) :
    st.Answered (st.deed n (.call name args)) a st' := by
  rw [call?_eq_applyFound?] at h
  exact answered_applyFound? hn ht (quiet_function name) (behaviours_function name) h

theorem answered_expand (hn : n < st.sessions.size) (ht : (st.session n).table < st.tables.size)
    {name : String} (h : st.expand? n name args = some (a, st')) :
    st.Answered (st.deed n (.expand name args)) a st' := by
  rw [expand?_eq_applyFound?] at h
  exact answered_applyFound? hn ht (quiet_expander name) (behaviours_expander name) h

/-- Expanding applies the macro of the name. -/
theorem expand?_eq (st : Store H) (n : Nat) (name : String) (args : List Value) :
    st.expand? n name args =
      match (st.session n).macros.get? (st.intern n name).1 with
      | some f => (st.intern n name).2.invoke? n f args
      | none => some (.error (.noMacro name), (st.intern n name).2) := by
  rw [expand?, expander_eq]
  show (match (match (st.session n).macros.get? (st.intern n name).1 with
    | some f => (Except.ok f, (st.intern n name).2)
    | none => (.error (Error.noMacro name), (st.intern n name).2)) with
    | (.ok f, st) => st.invoke? n f args
    | (.error e, st) => some (.error e, st)) = _
  cases (st.session n).macros.get? (st.intern n name).1 <;> rfl

/-- Nothing is done where nothing but names and labels is added. -/
theorem Quiet.answered_nothing (h : st.Quiet st') {deed : Value → Deed H}
    (hdeed : deed = fun _ => .nothing) : st.Answered deed a st' := by
  subst hdeed
  cases a with
  | ok answer => exact h.nothing
  | error e => exact h

theorem answered_request (hn : n < st.sessions.size) (ht : (st.session n).table < st.tables.size)
    {r : Request} (h : st.answer? n r = some (a, st')) :
    st.Answered (st.deed n (.request r)) a st' := by
  cases r with
  | lookup key =>
    obtain ⟨rfl, rfl⟩ := Prod.mk.inj (Option.some.inj h)
    exact (st.quiet_lookup key).answered_nothing rfl
  | define key v =>
    have hdefine := answered_define hn ht key v
    obtain ⟨rfl, rfl⟩ := Prod.mk.inj (Option.some.inj h)
    exact hdefine
  | isMacro s =>
    cases h
    exact (Quiet.refl st).answered_nothing rfl
  | function name =>
    cases h
    exact (st.quiet_function name).answered_nothing rfl
  | expander name =>
    cases h
    exact (st.quiet_expander name).answered_nothing rfl
  | apply f args =>
    cases f with
    | builtin id name => exact answered_invoke hn ht h
    | _ =>
      cases h
      exact Quiet.refl st

/-- **What is asked of a session is answered by its deed.** -/
theorem answered_carryOut (hn : n < st.sessions.size)
    (ht : (st.session n).table < st.tables.size) {c : Command H}
    (h : st.carryOut? n c = some (a, st')) : st.Answered (st.deed n c) a st' := by
  cases c with
  | request r => exact answered_request hn ht h
  | intern name =>
    cases h
    exact (quiet_intern name).answered_nothing rfl
  | find key =>
    cases h
    exact (Quiet.refl st).answered_nothing rfl
  | keep v =>
    cases h
    exact (quiet_nextCell _).answered_nothing rfl
  | addFunction name b =>
    cases h
    exact done_addFunction hn ht name b
  | addMacro name b =>
    cases h
    exact done_addMacro hn ht name b
  | call name args => exact answered_call hn ht h
  | expand name args => exact answered_expand hn ht h
  | loadText text =>
    cases h
    exact answered_loadText hn text
  | loadFile roots name =>
    have hload := answered_loadFile hn roots name
    generalize hresult : st.loadFile n roots name = result at hload
    rw [carryOut?, hresult] at h
    cases h
    exact hload
  | loadForms forms =>
    cases h
    exact answered_loadForms hn forms
  | readAll text =>
    cases h
    exact (st.quiet_readAll text).answered_nothing rfl
  | duplicate =>
    cases h
    exact (Change.copied hn).done
  | addCoroutine =>
    cases h
    exact (Change.held hn).done

end LispCore.Store
