import LispCore.Proofs.Session.Course
import LispCore.Session.Lisp

/-!
Channels, along histories.

What is sent on a channel is received from it in the same order or still waits there
(`History.sent_eq`), whoever sends and receives and in whatever order they take turns. A channel
never holds more than its capacity, a command waits for a channel only where that is full or empty
(`Store.carryOut?_eq_none_iff`) and is carried out where it is not (`Store.carriesOut_send`,
`Store.carriesOut_receive`), and nothing but sending and receiving on a channel changes it.
-/

namespace LispCore

variable {H : Host} {st st' : Store H} {es : List (Event H)} {d : Deed H} {n c : Nat}

/-! ### What a channel becomes -/

namespace Store

theorem channel_of_getElem? {ch : Channel} (h : st.channels[c]? = some ch) : st.channel c = ch := by
  rw [channel, h]
  rfl

theorem channel_setQueue_self (hc : c < st.channels.size) (queue : List Value) :
    (st.setQueue c queue).channel c = { st.channel c with queue } := by
  show ((st.channels.modify c fun ch => { ch with queue })[c]?).getD ⟨0, []⟩ =
    { st.channels[c]?.getD ⟨0, []⟩ with queue }
  rw [Array.getElem?_modify, if_pos rfl, Array.getElem?_eq_getElem hc]
  rfl

theorem channel_setQueue_of_ne {id : Nat} (hne : c ≠ id) (queue : List Value) :
    (st.setQueue id queue).channel c = st.channel c := by
  show ((st.channels.modify id fun ch => { ch with queue })[c]?).getD ⟨0, []⟩ =
    st.channels[c]?.getD ⟨0, []⟩
  rw [Array.getElem?_modify, if_neg (Ne.symm hne)]

/-- What becomes of a channel: a value is sent on it or received from it, or it stays as it is. -/
inductive ChannelStep (ch : Channel) (c : Nat) : Deed H → Channel → Prop where
  | sent {v} : ch.isFull = false → ChannelStep ch c (.sent c v) { ch with queue := ch.queue ++ [v] }
  | received {v queue} : ch.queue = v :: queue →
      ChannelStep ch c (.received c v) { ch with queue }
  | same {d : Deed H} : (∀ v, d ≠ .sent c v) → (∀ v, d ≠ .received c v) → ChannelStep ch c d ch

theorem ChannelStep.capacity {ch ch' : Channel} (h : ChannelStep ch c d ch') :
    ch'.capacity = ch.capacity := by
  cases h <;> rfl

theorem Change.channelStep (h : st.Change d st') (hc : c < st.channels.size) :
    ChannelStep (st.channel c) c d (st'.channel c) := by
  cases h with
  | nothing | created | bound | named | loaded | copied | spawned | held | started =>
    exact .same nofun nofun
  | opened capacity =>
    have hsame : (st.addChannel capacity).2.channel c = st.channel c := by
      show ((st.channels.push ⟨capacity, []⟩)[c]?).getD ⟨0, []⟩ = st.channels[c]?.getD ⟨0, []⟩
      rw [Array.getElem?_push, if_neg (Nat.ne_of_lt hc)]
    rw [hsame]
    exact .same nofun nofun
  | @sent id v hfull =>
    by_cases hid : c = id
    · subst hid
      rw [channel_setQueue_self hc]
      exact .sent hfull
    · rw [channel_setQueue_of_ne hid]
      exact .same (fun w h => hid (Deed.sent.inj h).1.symm) nofun
  | @received id v queue hqueue =>
    by_cases hid : c = id
    · subst hid
      rw [channel_setQueue_self hc]
      exact .received hqueue
    · rw [channel_setQueue_of_ne hid]
      exact .same nofun fun w h => hid (Deed.received.inj h).1.symm

/-- A channel is there before a change, or it is made then and empty. -/
theorem Change.channels (h : st.Change d st') (hc : c < st'.channels.size) :
    c < st.channels.size ∨
      ∃ capacity, d = .opened capacity ∧ c = st.channels.size ∧
        st'.channel c = ⟨capacity, []⟩ := by
  cases h with
  | nothing | created | bound | named | loaded | copied | spawned | held | started => exact .inl hc
  | sent | received =>
    rw [setQueue, Array.size_modify] at hc
    exact .inl hc
  | opened capacity =>
    rw [addChannel, Array.size_push] at hc
    obtain hlt | rfl := Nat.lt_succ_iff_lt_or_eq.mp hc
    · exact .inl hlt
    · refine .inr ⟨capacity, rfl, rfl, channel_of_getElem? ?_⟩
      rw [addChannel, Array.getElem?_push, if_pos rfl]

end Store

namespace Event

theorem channelStep (e : Event H) (ho : e.before.Orderly) (hc : c < e.before.channels.size) :
    Store.ChannelStep (e.before.channel c) c e.deed (e.after.channel c) := by
  obtain ⟨st₁, ⟨s₁, s₂, hq, hchange, hq'⟩, hafter⟩ := e.exists_done ho
  rw [← hq.channels] at hc
  have hstep := hchange.channelStep hc
  rw [hq.channel, ← hq'.channel] at hstep
  rw [hafter]
  exact hstep

theorem channels (e : Event H) (ho : e.before.Orderly) (hc : c < e.after.channels.size) :
    c < e.before.channels.size ∨
      ∃ capacity, e.deed = .opened capacity ∧ c = e.before.channels.size ∧
        e.after.channel c = ⟨capacity, []⟩ := by
  obtain ⟨st₁, ⟨s₁, s₂, hq, hchange, hq'⟩, hafter⟩ := e.exists_done ho
  rw [hafter] at hc ⊢
  have hlive : c < s₂.channels.size := Nat.lt_of_lt_of_eq hc (congrArg Array.size hq'.channels)
  obtain hold | ⟨capacity, hdeed, hnew, hempty⟩ := hchange.channels hlive
  · rw [hq.channels] at hold
    exact .inl hold
  · rw [hq.channels] at hnew
    rw [← hq'.channel] at hempty
    exact .inr ⟨capacity, hdeed, hnew, hempty⟩

end Event

/-! ### What was sent and received -/

/-- The value that an event sends on a channel that is there. -/
def Event.sent? (e : Event H) (c : Nat) : Option Value :=
  match e.deed with
  | .sent id v => if id = c ∧ c < e.before.channels.size then some v else none
  | _ => none

/-- The value that an event receives from a channel that is there. -/
def Event.received? (e : Event H) (c : Nat) : Option Value :=
  match e.deed with
  | .received id v => if id = c ∧ c < e.before.channels.size then some v else none
  | _ => none

/-- The values that were sent on a channel, in order. -/
def sent (es : List (Event H)) (c : Nat) : List Value := chronicle (·.sent? c) es

/-- The values that were received from a channel, in order. -/
def received (es : List (Event H)) (c : Nat) : List Value := chronicle (·.received? c) es

/-- Nothing is told of a channel that is not there yet. -/
theorem History.chronicle_eq_nil {value? : Event H → Option Value}
    (hvalue : ∀ e, e.before.channels.size ≤ c → value? e = none) (h : History {} es st)
    (hc : st.channels.size ≤ c) : chronicle value? es = [] := by
  induction h with
  | nil => rfl
  | cons e hes ih =>
    have hbefore := Nat.le_trans (e.grows (hes.orderly Store.orderly_empty)).size_channels hc
    rw [chronicle_cons, ih hbefore, hvalue e hbefore]
    rfl

theorem Event.sent?_of_le (e : Event H) (hc : e.before.channels.size ≤ c) : e.sent? c = none := by
  rw [sent?]
  split
  · exact if_neg fun h => Nat.not_lt_of_le hc h.2
  · rfl

theorem Event.received?_of_le (e : Event H) (hc : e.before.channels.size ≤ c) :
    e.received? c = none := by
  rw [received?]
  split
  · exact if_neg fun h => Nat.not_lt_of_le hc h.2
  · rfl

/-- An event takes what it receives from the front of a channel and puts what it sends at its
end. -/
theorem Event.queue (e : Event H) (ho : e.before.Orderly) (hc : c < e.before.channels.size) :
    (e.before.channel c).queue ++ (e.sent? c).toList =
      (e.received? c).toList ++ (e.after.channel c).queue := by
  have hstep := e.channelStep ho hc
  rw [sent?, received?]
  generalize e.deed = d at hstep ⊢
  generalize e.after.channel c = ch' at hstep ⊢
  cases hstep with
  | sent hfull => simp [hc]
  | received hqueue => simp [hc, hqueue]
  | same hsent hreceived =>
    cases d with
    | sent id v => simp [show id ≠ c from fun h => hsent v (h ▸ rfl)]
    | received id v => simp [show id ≠ c from fun h => hreceived v (h ▸ rfl)]
    | _ => simp

/-- **What is sent on a channel is received from it in that order, or waits in it.** -/
theorem History.sent_eq (h : History {} es st) :
    ∀ c < st.channels.size, sent es c = received es c ++ (st.channel c).queue := by
  induction h with
  | nil => exact fun c hc => nomatch hc
  | @cons es e hes ih =>
    intro c hc
    have ho := hes.orderly Store.orderly_empty
    rw [sent, received, chronicle_cons, chronicle_cons, ← sent, ← received]
    obtain hold | ⟨capacity, -, hnew, hempty⟩ := e.channels ho hc
    · rw [ih c hold, List.append_assoc, e.queue ho hold, List.append_assoc]
    · have hc' := Nat.le_of_eq hnew.symm
      rw [sent, received, hes.chronicle_eq_nil (fun e => e.sent?_of_le) hc',
        hes.chronicle_eq_nil (fun e => e.received?_of_le) hc', e.sent?_of_le hc',
        e.received?_of_le hc', hempty]
      rfl

/-! ### Capacities -/

/-- A channel has the capacity that it was made with. -/
theorem History.capacity (h : History {} es st) :
    ∀ c < st.channels.size, ∃ e ∈ es, e.before.channels.size = c ∧
      e.deed = .opened (st.channel c).capacity := by
  induction h with
  | nil => exact fun c hc => nomatch hc
  | @cons es e hes ih =>
    intro c hc
    have ho := hes.orderly Store.orderly_empty
    obtain hold | ⟨capacity, hdeed, hnew, hempty⟩ := e.channels ho hc
    · obtain ⟨e', he', hsize, hdeed⟩ := ih c hold
      rw [← (e.channelStep ho hold).capacity] at hdeed
      exact ⟨e', List.mem_cons_of_mem e he', hsize, hdeed⟩
    · exact ⟨e, List.mem_cons_self, hnew.symm, by rw [hempty, hdeed]⟩

theorem Channel.length_lt_of_isFull {ch : Channel} (h : ch.isFull = false)
    (hcapacity : 0 < ch.capacity) : ch.queue.length < ch.capacity := by
  simp only [isFull, Bool.and_eq_false_iff, bne_eq_false_iff_eq, decide_eq_false_iff_not] at h
  omega

theorem Store.ChannelStep.length_le {ch ch' : Channel} (h : ChannelStep ch c d ch')
    (hlength : ch.queue.length ≤ ch.capacity) (hcapacity : 0 < ch.capacity) :
    ch'.queue.length ≤ ch'.capacity := by
  cases h with
  | sent hfull =>
    have hlt := Channel.length_lt_of_isFull hfull hcapacity
    simp only [List.length_append, List.length_singleton]
    exact hlt
  | received hqueue =>
    rw [hqueue, List.length_cons] at hlength
    exact Nat.le_of_succ_le hlength
  | same => exact hlength

/-- A channel never holds more than its capacity, if that is not zero. -/
theorem History.length_le (h : History {} es st) :
    ∀ c < st.channels.size, 0 < (st.channel c).capacity →
      (st.channel c).queue.length ≤ (st.channel c).capacity := by
  induction h with
  | nil => exact fun c hc => nomatch hc
  | @cons es e hes ih =>
    intro c hc hcapacity
    have ho := hes.orderly Store.orderly_empty
    obtain hold | ⟨capacity, -, -, hempty⟩ := e.channels ho hc
    · have hstep := e.channelStep ho hold
      rw [hstep.capacity] at hcapacity
      exact hstep.length_le (ih c hold hcapacity) hcapacity
    · rw [hempty]
      exact Nat.zero_le _

/-! ### Waiting -/

namespace Store

variable {f : Builtin} {args : List Value}

/-- Applying a function or a macro waits where a channel is full or empty. -/
def WaitsFor (st : Store H) (f : Builtin) (args : List Value) : Prop :=
  (∃ c k v, args = [.channel c k, v] ∧ st.behaviours[f.id]? = some .send ∧
    (st.channel c).isFull = true) ∨
  ∃ c k, args = [.channel c k] ∧ st.behaviours[f.id]? = some .receive ∧ (st.channel c).queue = []

theorem send?_eq_none_iff {v : Value} : st.send? c v = none ↔ (st.channel c).isFull = true := by
  rw [send?]
  cases (st.channel c).isFull <;> simp

theorem receive?_eq_none_iff : st.receive? c = none ↔ (st.channel c).queue = [] := by
  rw [receive?]
  cases (st.channel c).queue <;> simp

theorem invoke?_eq_none_iff : st.invoke? n f args = none ↔ st.WaitsFor f args := by
  constructor
  · intro h
    rw [invoke?] at h
    rcases hb : st.behaviours[f.id]? with _ | g | _ | _ | _ | _ | _
    · simp only [hb, reduceCtorEq] at h
    · simp only [hb, reduceCtorEq] at h
    · cases hargs : capacityArgument args <;> simp only [hb, hargs, reduceCtorEq] at h
    · cases hargs : sendArguments args with
      | error e => simp only [hb, hargs, reduceCtorEq] at h
      | ok sent =>
        simp only [hb, hargs, Option.map_eq_none_iff] at h
        obtain ⟨k, rfl⟩ := sendArguments_eq_ok hargs
        exact .inl ⟨sent.1, k, sent.2, rfl, hb, send?_eq_none_iff.mp h⟩
    · cases hargs : receiveArguments args with
      | error e => simp only [hb, hargs, reduceCtorEq] at h
      | ok id =>
        simp only [hb, hargs, Option.map_eq_none_iff] at h
        obtain ⟨k, rfl⟩ := receiveArguments_eq_ok hargs
        exact .inr ⟨id, k, rfl, hb, receive?_eq_none_iff.mp h⟩
    · simp only [hb, reduceCtorEq] at h
    · simp only [hb, reduceCtorEq] at h
  · rintro (⟨c, k, v, rfl, hb, hfull⟩ | ⟨c, k, rfl, hb, hempty⟩)
    · rw [invoke?, hb]
      exact Option.map_eq_none_iff.mpr (send?_eq_none_iff.mpr hfull)
    · rw [invoke?, hb]
      exact Option.map_eq_none_iff.mpr (receive?_eq_none_iff.mpr hempty)

theorem waitsFor_iff_exists {application : Option (Builtin × List Value)}
    (h : application = some (f, args)) :
    st.WaitsFor f args ↔ ∃ g vs, application = some (g, vs) ∧ st.WaitsFor g vs := by
  subst h
  constructor
  · exact fun hwaits => ⟨f, args, rfl, hwaits⟩
  · rintro ⟨g, vs, heq, hwaits⟩
    cases heq
    exact hwaits

/-- What is found by quiet steps that add no function waits where it would wait at once. -/
theorem applyFound?_eq_none_iff {found : Except Error Builtin × Store H}
    (hq : st.Quiet found.2) (hsame : found.2.behaviours = st.behaviours) :
    applyFound? n args found = none ↔
      ∃ f vs, found.1.toOption.map (·, args) = some (f, vs) ∧ st.WaitsFor f vs := by
  obtain ⟨e | f, st₁⟩ := found
  · simp [applyFound?, Except.toOption]
  · have hwaits : st₁.WaitsFor f args ↔ st.WaitsFor f args := by
      simp only [WaitsFor, show st₁.behaviours = st.behaviours from hsame, hq.channel]
    rw [applyFound?, invoke?_eq_none_iff, hwaits]
    exact waitsFor_iff_exists rfl

/-- **A command waits only for a channel** that is full when something is sent on it, or empty when
something is received from it. -/
theorem carryOut?_eq_none_iff {cmd : Command H} :
    st.carryOut? n cmd = none ↔
      ∃ f args, st.application? n cmd = some (f, args) ∧ st.WaitsFor f args := by
  cases cmd with
  | request r =>
    cases r with
    | apply f args =>
      cases f with
      | builtin id name => exact invoke?_eq_none_iff.trans (waitsFor_iff_exists rfl)
      | _ => simp [carryOut?, answer?, application?]
    | _ => simp [carryOut?, answer?, application?]
  | call name args =>
    rw [carryOut?, call?_eq_applyFound?]
    exact applyFound?_eq_none_iff (quiet_function name) (behaviours_function name)
  | expand name args =>
    rw [carryOut?, expand?_eq_applyFound?]
    exact applyFound?_eq_none_iff (quiet_expander name) (behaviours_expander name)
  | _ => simp [carryOut?, application?]

theorem application?_request_iff {r : Request} :
    st.application? n (.request r) = some (f, args) ↔ r = .apply f.toValue args := by
  cases r with
  | apply g vs =>
    cases g with
    | builtin id name =>
      constructor
      · intro h
        cases h
        rfl
      · intro h
        cases h
        rfl
    | _ => exact iff_of_false nofun nofun
  | _ => exact iff_of_false nofun nofun

end Store

/-! ### Sending and receiving -/

namespace Store

variable {f : Builtin} {args : List Value} {cmd : Command H}

theorem applyFound?_of_toOption {found : Except Error Builtin × Store H}
    (h : found.1.toOption = some f) : applyFound? n args found = found.2.invoke? n f args := by
  obtain ⟨e | g, st₁⟩ := found
  · cases h
  · cases h
    rfl

/-- What a command applies is applied after quiet steps that add no function. -/
theorem carryOut?_of_application? (h : st.application? n cmd = some (f, args)) :
    ∃ st₁, st.Quiet st₁ ∧ st₁.behaviours = st.behaviours ∧
      st.carryOut? n cmd = st₁.invoke? n f args := by
  cases cmd with
  | request r =>
    obtain rfl := application?_request_iff.mp h
    exact ⟨st, .refl st, rfl, rfl⟩
  | call name vs =>
    obtain ⟨g, hfound, heq⟩ := Option.map_eq_some_iff.mp h
    cases heq
    refine ⟨(st.function n name).2, quiet_function name, behaviours_function name, ?_⟩
    rw [carryOut?, call?_eq_applyFound?, applyFound?_of_toOption hfound]
  | expand name vs =>
    obtain ⟨g, hfound, heq⟩ := Option.map_eq_some_iff.mp h
    cases heq
    refine ⟨(st.expander n name).2, quiet_expander name, behaviours_expander name, ?_⟩
    rw [carryOut?, expand?_eq_applyFound?, applyFound?_of_toOption hfound]
  | _ => cases h

/-- What a command does is what it applies. -/
theorem deed_of_application? (h : st.application? n cmd = some (f, args)) (answer : Value) :
    st.deed n cmd answer = st.applied n f args answer := by
  cases cmd with
  | request r =>
    obtain rfl := application?_request_iff.mp h
    rfl
  | call name vs | expand name vs =>
    show (st.application? n _).elim _ _ = _
    rw [h]
    rfl
  | _ => cases h

/-- What is applied without an error, with the same functions and channels, is done. -/
theorem carriesOut_of_invoke? {answer : Value} {P : Value → Deed H → Prop}
    (hn : n < st.sessions.size) (happ : st.application? n cmd = some (f, args))
    (hinvoke : ∀ st₁, st.Quiet st₁ → st₁.behaviours = st.behaviours →
      ∃ st₂, st₁.invoke? n f args = some (.ok answer, st₂))
    (hP : P answer (st.applied n f args answer)) : st.CarriesOut n cmd P := by
  obtain ⟨st₁, hq, hsame, hcarry⟩ := carryOut?_of_application? happ
  obtain ⟨st₂, hanswer⟩ := hinvoke st₁ hq hsame
  refine carriesOut hn (hcarry.trans hanswer) ?_
  rw [deed_of_application? happ]
  exact hP

/-- A value is sent on a channel that is not full. -/
theorem carriesOut_send {k : Nat} {v : Value} (hn : n < st.sessions.size)
    (happ : st.application? n cmd = some (f, [.channel c k, v]))
    (hb : st.behaviours[f.id]? = some .send) (hfull : (st.channel c).isFull = false) :
    st.CarriesOut n cmd fun answer d => answer = .null ∧ d = .sent c v := by
  refine carriesOut_of_invoke? hn happ (fun st₁ hq hsame => ?_) ⟨rfl, ?_⟩
  · refine ⟨st₁.setQueue c ((st₁.channel c).queue ++ [v]), ?_⟩
    have hsend : st₁.send? c v = some (st₁.setQueue c ((st₁.channel c).queue ++ [v])) := by
      rw [send?, hq.channel, hfull]
      rfl
    rw [invoke?, hsame, hb]
    exact congrArg (Option.map _) hsend
  · simp only [applied, hb]

/-- The first value of a channel that is not empty is received from it. -/
theorem carriesOut_receive {k : Nat} {v : Value} {queue : List Value} (hn : n < st.sessions.size)
    (happ : st.application? n cmd = some (f, [.channel c k]))
    (hb : st.behaviours[f.id]? = some .receive) (hqueue : (st.channel c).queue = v :: queue) :
    st.CarriesOut n cmd fun answer d => answer = v ∧ d = .received c v := by
  refine carriesOut_of_invoke? hn happ (fun st₁ hq hsame => ?_) ⟨rfl, ?_⟩
  · refine ⟨st₁.setQueue c queue, ?_⟩
    have hreceive : st₁.receive? c = some (v, st₁.setQueue c queue) := by
      rw [receive?, hq.channel, hqueue]
    rw [invoke?, hsame, hb]
    exact congrArg (Option.map _) hreceive
  · simp only [applied, hb]

end Store

/-! ### Channels as queues -/

/-- An error leaves all channels as they are. -/
theorem Event.channels_of_error (e : Event H) (ho : e.before.Orderly) {err : Error}
    (ha : e.answer? = some (.error err)) : e.after.channels = e.before.channels := by
  obtain ⟨st₁, ⟨s₁, s₂, hq, hchange, hq'⟩, hafter⟩ := e.exists_done ho
  rw [deed_of_error ha] at hchange
  cases hchange
  rw [hafter]
  exact hq'.channels.trans hq.channels

/-- The channels of a store are queues. -/
structure Store.Queues (st : Store H) (es : List (Event H)) : Prop where
  /-- What was sent was received in the same order, but for what still waits. -/
  sent_eq : ∀ c < st.channels.size, sent es c = received es c ++ (st.channel c).queue
  /-- A channel has the capacity that it was made with. -/
  made : ∀ c < st.channels.size, ∃ e ∈ es, e.before.channels.size = c ∧
    e.deed = .opened (st.channel c).capacity
  /-- It never holds more, if that is not zero. -/
  bounded : ∀ c < st.channels.size, 0 < (st.channel c).capacity →
    (st.channel c).queue.length ≤ (st.channel c).capacity
  /-- If it is zero, no sender ever waits. -/
  unbounded : ∀ c < st.channels.size, (st.channel c).capacity = 0 → ∀ sid cmd f k v,
    st.application? sid cmd = some (f, [.channel c k, v]) → (st.carryOut? sid cmd).isSome
  /-- Otherwise only what sends on a full channel or receives from an empty one waits. -/
  waits : ∀ sid cmd, st.carryOut? sid cmd = none ↔
    ∃ f args, st.application? sid cmd = some (f, args) ∧ st.WaitsFor f args
  /-- A value that is sent on a channel that is not full is put on it. -/
  sends : ∀ sid < st.sessions.size, ∀ cmd f c k v,
    st.application? sid cmd = some (f, [.channel c k, v]) → st.behaviours[f.id]? = some .send →
      (st.channel c).isFull = false →
        st.CarriesOut sid cmd fun answer d => answer = .null ∧ d = .sent c v
  /-- The value at the front of a channel that is not empty is received. -/
  receives : ∀ sid < st.sessions.size, ∀ cmd f c k v queue,
    st.application? sid cmd = some (f, [.channel c k]) → st.behaviours[f.id]? = some .receive →
      (st.channel c).queue = v :: queue →
        st.CarriesOut sid cmd fun answer d => answer = v ∧ d = .received c v
  /-- What ends with an error changes no channel. -/
  refused : ∀ e : Event H, e.before = st → ∀ err, e.answer? = some (.error err) →
    e.after.channels = st.channels
  /-- A channel is changed only by sending on it and receiving from it. -/
  apart : ∀ e : Event H, e.before = st → ∀ c < st.channels.size,
    (∀ v, e.deed ≠ .sent c v) → (∀ v, e.deed ≠ .received c v) →
      e.after.channel c = st.channel c

/-- **Channels are queues** in every state that a store can come to. -/
theorem History.queues (h : History {} es st) : st.Queues es where
  sent_eq := h.sent_eq
  made := h.capacity
  bounded := h.length_le
  unbounded c _ hcapacity sid cmd f k v happ := by
    refine Option.isSome_iff_ne_none.mpr fun hnone => ?_
    obtain ⟨f', args, happ', hwaits⟩ := Store.carryOut?_eq_none_iff.mp hnone
    rw [happ] at happ'
    cases happ'
    obtain ⟨c', k', v', hargs, -, hfull⟩ | ⟨c', k', hargs, -, -⟩ := hwaits
    · cases hargs
      simp [Channel.isFull, hcapacity] at hfull
    · cases hargs
  waits sid cmd := Store.carryOut?_eq_none_iff
  sends _ hn _ _ _ _ _ happ hb hfull := Store.carriesOut_send hn happ hb hfull
  receives _ hn _ _ _ _ _ _ happ hb hqueue := Store.carriesOut_receive hn happ hb hqueue
  refused e he err ha := by
    subst he
    exact e.channels_of_error (h.orderly Store.orderly_empty) ha
  apart e he c hc hsent hreceived := by
    subst he
    have hstep := e.channelStep (h.orderly Store.orderly_empty) hc
    generalize e.deed = d at hstep hsent hreceived
    generalize e.after.channel c = ch at hstep ⊢
    cases hstep with
    | sent => exact absurd rfl (hsent _)
    | received => exact absurd rfl (hreceived _)
    | same => rfl

/-- Two sessions that share a channel of one place: one sends on it, is refused a second value that
is no value at all, and the other receives what was sent. -/
theorem queues_of_two_sessions :
    ∃ es st, History ({} : Store Lisp.host) es st ∧
      es.reverse.map (·.turn) =
        [.session none, .command 0 (.addFunction "make-chan" .makeChannel),
          .command 0 (.addFunction "send!" .send), .command 0 (.addFunction "<!" .receive),
          .command 0 .duplicate, .command 0 (.call "make-chan" [.int 1]),
          .command 0 (.call "send!" [.channel 0 1, .int 7]),
          .command 1 (.call "send!" [.channel 0 1]), .command 1 (.call "<!" [.channel 0 1])] ∧
      st.Queues es ∧ sent es 0 = [.int 7] ∧ received es 0 = [.int 7] := by
  have hreplayed : (({} : Store Lisp.host).replay? [.session none,
      .command 0 (.addFunction "make-chan" .makeChannel),
      .command 0 (.addFunction "send!" .send), .command 0 (.addFunction "<!" .receive),
      .command 0 .duplicate, .command 0 (.call "make-chan" [.int 1]),
      .command 0 (.call "send!" [.channel 0 1, .int 7]),
      .command 1 (.call "send!" [.channel 0 1]),
      .command 1 (.call "<!" [.channel 0 1])]).map (fun p => (sent p.1 0, received p.1 0)) =
    some ([.int 7], [.int 7]) := rfl
  obtain ⟨⟨es, st⟩, hreplay, htold⟩ := Option.map_eq_some_iff.mp hreplayed
  obtain ⟨hes, hturns⟩ := History.of_replay? hreplay
  obtain ⟨hsent, hreceived⟩ := Prod.mk.inj htold
  exact ⟨es, st, hes, hturns, hes.queues, hsent, hreceived⟩

end LispCore
