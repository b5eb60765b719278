import LispCore.Documents
import LispCore.Proofs.Reader.Text
import Mathlib.Data.List.Induction

/-!
What an editor is told about its documents, event after event.

`Documents.handleAll` handles events in order, each with what it publishes. Two stores move together
there: the texts that are open, and the diagnostics that the editor heard last.

* `DocumentEvent.textAfter`, `Documents.get?_applyTo` — an event changes the text of its own
  document and no other;
* `Documents.handle_eq` — every event publishes the diagnostics of the text that it leaves, a closed
  document having none;
* `Documents.handleAll_own`, `Documents.handleAll_of_own` — a document sees its own events only;
* `Documents.published_agrees` — the main statement.
-/

namespace LispCore

/-- The diagnostics that were published for a document. -/
abbrev Publication := String × List Diagnostic

namespace DocumentEvent

/-- The text that an event brings, if it brings one: no changes at once bring none. -/
def text? : DocumentEvent → Option String
  | opened _ text => some text
  | changed _ texts => texts.getLast?
  | closed _ => none

/-- Whether an event closes its document. -/
def isClosing : DocumentEvent → Bool
  | closed _ => true
  | _ => false

/-- The text of the document of an event after it, given the text before. -/
def textAfter (old : Option String) (event : DocumentEvent) : Option String :=
  if event.isClosing then none else event.text?.or old

/-- The events of one document, in order. -/
def own (name : String) (events : List DocumentEvent) : List DocumentEvent :=
  events.filter (·.name = name)

/-- The text of a document after some events, given the text before them. -/
def textOf (name : String) (old : Option String) (events : List DocumentEvent) : Option String :=
  events.foldl (fun old event => if event.name = name then event.textAfter old else old) old

/-- `LeavesText name text events`: among the events of a document the last one that brings a text
brings this one, and the document is not closed after it. -/
def LeavesText (name text : String) (events : List DocumentEvent) : Prop :=
  ∃ before event after, events = before ++ event :: after ∧ event.name = name ∧
    event.text? = some text ∧
    ∀ later ∈ after, later.name = name → later.text? = none ∧ later.isClosing = false

variable {name text : String} {event : DocumentEvent} {events : List DocumentEvent}

theorem own_cons_self (h : event.name = name) :
    own name (event :: events) = event :: own name events :=
  List.filter_cons_of_pos (by simpa using h)

theorem own_cons_of_ne (h : event.name ≠ name) : own name (event :: events) = own name events :=
  List.filter_cons_of_neg (by simpa using h)

theorem own_own (name : String) (events : List DocumentEvent) :
    own name (own name events) = own name events := by
  simp [own]

/-- Events of other documents leave a text as it is. -/
theorem textOf_of_forall_ne {old : Option String} (h : ∀ event ∈ events, event.name ≠ name) :
    textOf name old events = old := by
  induction events with
  | nil => rfl
  | cons event events ih =>
    obtain ⟨hevent, hevents⟩ := List.forall_mem_cons.mp h
    rw [textOf, List.foldl_cons, if_neg hevent]
    exact ih hevents

theorem isClosing_of_text? (h : event.text? = some text) : event.isClosing = false := by
  cases event with
  | closed => cases h
  | _ => rfl

/-- What the last event does decides, if it is about the document and does anything at all. -/
theorem leavesText_append_singleton :
    LeavesText name text (events ++ [event]) ↔
      (event.name = name ∧ event.text? = some text) ∨
        (event.name = name → event.text? = none ∧ event.isClosing = false) ∧
          LeavesText name text events := by
  constructor
  · rintro ⟨before, e, after, hevents, hname, htext, hlater⟩
    obtain rfl | ⟨after, last, rfl⟩ := List.eq_nil_or_concat after
    · obtain ⟨rfl, rfl⟩ := List.append_inj' hevents rfl |>.imp id List.head_eq_of_cons_eq
      exact .inl ⟨hname, htext⟩
    · rw [List.concat_eq_append] at hevents hlater
      rw [← List.cons_append, ← List.append_assoc] at hevents
      obtain ⟨rfl, hlast⟩ := List.append_inj' hevents rfl
      obtain rfl := List.head_eq_of_cons_eq hlast
      obtain ⟨hafter, hlast⟩ := List.forall_mem_append.mp hlater
      exact .inr ⟨hlast _ (List.mem_singleton_self _), before, e, after, rfl, hname, htext, hafter⟩
  · rintro (⟨hname, htext⟩ | ⟨hidle, before, e, after, rfl, hname, htext, hafter⟩)
    · exact ⟨events, event, [], rfl, hname, htext, by simp⟩
    · refine ⟨before, e, after ++ [event], by simp, hname, htext, ?_⟩
      exact List.forall_mem_append.mpr ⟨hafter, List.forall_mem_singleton.mpr hidle⟩

/-- **The text of a document is the last one that it was given**, unless it was closed since. -/
theorem textOf_eq_some_iff : textOf name none events = some text ↔ LeavesText name text events := by
  induction events using List.reverseRecOn with
  | nil =>
    constructor
    · intro h
      cases h
    · rintro ⟨before, event, after, hevents, -⟩
      simp at hevents
  | append_singleton events event ih =>
    rw [leavesText_append_singleton, ← ih]
    simp only [textOf, List.foldl_append, List.foldl_cons, List.foldl_nil]
    by_cases hname : event.name = name
    · simp only [hname, if_true, textAfter, true_and, true_implies]
      cases htext : event.text? with
      | some new => simp [isClosing_of_text? htext]
      | none => cases event.isClosing <;> simp
    · simp [hname]

end DocumentEvent

open DocumentEvent

namespace Documents

/-- **An event changes the text of its own document only.** -/
theorem get?_applyTo (d : Documents) (event : DocumentEvent) (name : String) :
    (event.applyTo d).get? name =
      if event.name = name then event.textAfter (d.get? name) else d.get? name := by
  have hinsert (n text : String) :
      (d.insert n text).get? name = if n = name then some text else d.get? name := by
    split
    · next h => rw [h, get?_insert_self]
    · next h => exact get?_insert_of_ne d text (Ne.symm h)
  cases event with
  | opened n text => exact hinsert n text
  | changed n texts =>
    rw [applyTo]
    split
    · next text htext =>
      rw [hinsert, textAfter, text?, htext]
      rfl
    · next htext =>
      rw [textAfter, text?, htext]
      exact (ite_self _).symm
  | closed n =>
    rw [applyTo, textAfter]
    split
    · next h => rw [← (show n = name from h), get?_erase_self]; rfl
    · next h => exact get?_erase_of_ne d (Ne.symm h)

/-- An empty text has nothing amiss. -/
theorem ofText_empty : Diagnostic.ofText "" = .ok [] := by
  have hcut : CutInto {} "".toList [] (.ok (endAt {})) := CutInto.nil {}
  rw [Diagnostic.ofText, Reader.parseAll_fst, Reader.reading_ofText hcut]
  rfl

/-- **Every event publishes the diagnostics of the text that it leaves.** -/
theorem handle_eq (d : Documents) (event : DocumentEvent) :
    d.handle event =
      (((event.applyTo d).diagnostics event.name).map (event.name, ·), event.applyTo d) := by
  cases event with
  | closed name =>
    have hnone : ((DocumentEvent.closed name).applyTo d).get? name = none := get?_erase_self d name
    rw [handle, diagnostics, DocumentEvent.name, hnone, Option.getD_none, ofText_empty]
    rfl
  | _ => rfl

/-- The documents after some events with what each of them publishes, if none of them fails. -/
def handleAll (d : Documents) : List DocumentEvent → Except Failure (List Publication × Documents)
  | [] => .ok ([], d)
  | event :: events =>
    match d.handle event with
    | (.error e, _) => .error e
    | (.ok publication, d) =>
      (handleAll d events).map fun (publications, d) => (publication :: publications, d)

/-- What was published for one document, in order. -/
def publishedFor (name : String) (publications : List Publication) : List (List Diagnostic) :=
  (publications.filter (·.1 = name)).map (·.2)

/-- `LastPublished name diagnostics publications`: this is what was published last for a
document. -/
def LastPublished (name : String) (diagnostics : List Diagnostic)
    (publications : List Publication) : Prop :=
  ∃ before after, publications = before ++ (name, diagnostics) :: after ∧ ∀ p ∈ after, p.1 ≠ name

variable {d d' : Documents} {event : DocumentEvent} {events : List DocumentEvent}
  {publications : List Publication}

theorem handleAll_cons_eq_ok :
    d.handleAll (event :: events) = .ok (publications, d') ↔
      ∃ diagnostics rest, (event.applyTo d).diagnostics event.name = .ok diagnostics ∧
        (event.applyTo d).handleAll events = .ok (rest, d') ∧
        publications = (event.name, diagnostics) :: rest := by
  rw [handleAll, handle_eq]
  cases (event.applyTo d).diagnostics event.name with
  | error e => simp [Except.map]
  | ok diagnostics =>
    simp only [Except.map]
    cases (event.applyTo d).handleAll events with
    | error e => simp
    | ok r =>
      obtain ⟨rest, d₁⟩ := r
      constructor
      · intro h
        cases h
        exact ⟨diagnostics, rest, rfl, rfl, rfl⟩
      · rintro ⟨diagnostics', rest', hdiagnostics, hrest, rfl⟩
        cases hdiagnostics
        cases hrest
        rfl

/-- Each event publishes once, for its own document. -/
theorem names_handleAll (h : d.handleAll events = .ok (publications, d')) :
    publications.map (·.1) = events.map (·.name) := by
  induction events generalizing d publications with
  | nil =>
    cases h
    rfl
  | cons event events ih =>
    obtain ⟨diagnostics, rest, -, hrest, rfl⟩ := handleAll_cons_eq_ok.mp h
    rw [List.map_cons, List.map_cons, ih hrest]

/-- The text of a document after some events depends on the text before and the events alone. -/
theorem get?_handleAll (h : d.handleAll events = .ok (publications, d')) (name : String) :
    d'.get? name = textOf name (d.get? name) events := by
  induction events generalizing d publications with
  | nil =>
    cases h
    rfl
  | cons event events ih =>
    obtain ⟨diagnostics, rest, -, hrest, rfl⟩ := handleAll_cons_eq_ok.mp h
    rw [ih hrest, get?_applyTo, textOf, textOf, List.foldl_cons]

/-- **What was published last is up to date**, for every document that an event was about. -/
theorem exists_lastPublished (h : d.handleAll events = .ok (publications, d')) {name : String}
    (hname : ∃ event ∈ events, event.name = name) :
    ∃ diagnostics, LastPublished name diagnostics publications ∧
      d'.diagnostics name = .ok diagnostics := by
  induction events generalizing d publications with
  | nil =>
    obtain ⟨event, hmem, -⟩ := hname
    cases hmem
  | cons event events ih =>
    obtain ⟨diagnostics, rest, hfirst, hrest, rfl⟩ := handleAll_cons_eq_ok.mp h
    by_cases hlater : ∃ event ∈ events, event.name = name
    · obtain ⟨ds, ⟨before, after, rfl, hafter⟩, hds⟩ := ih hrest hlater
      exact ⟨ds, ⟨_ :: before, after, rfl, hafter⟩, hds⟩
    · -- No later event is about the document, so the first one is, and nothing changes after it.
      have hothers : ∀ event ∈ events, event.name ≠ name := fun e he hne => hlater ⟨e, he, hne⟩
      obtain rfl : event.name = name := by
        obtain ⟨e, hmem, he⟩ := hname
        obtain rfl | hmem := List.mem_cons.mp hmem
        · exact he
        · exact absurd he (hothers e hmem)
      have htext : d'.get? event.name = (event.applyTo d).get? event.name := by
        rw [get?_handleAll hrest, textOf_of_forall_ne hothers]
      refine ⟨diagnostics, ⟨[], rest, rfl, ?_⟩, ?_⟩
      · intro p hp
        have hmem : p.1 ∈ events.map (·.name) := names_handleAll hrest ▸ List.mem_map_of_mem hp
        obtain ⟨e, he, hne⟩ := List.mem_map.mp hmem
        rw [← hne]
        exact hothers e he
      · rw [Documents.diagnostics, htext]
        exact hfirst

/-! ### Events of one document -/

/-- **A document sees its own events only.** Where they alone happen to it, it gets the same text,
and the same is published for it. -/
theorem handleAll_own {name : String} {d₀ : Documents} (hd : d₀.get? name = d.get? name)
    (h : d.handleAll events = .ok (publications, d')) :
    ∃ own' d₁, d₀.handleAll (own name events) = .ok (own', d₁) ∧
      publishedFor name own' = publishedFor name publications ∧ d₁.get? name = d'.get? name := by
  induction events generalizing d d₀ publications with
  | nil =>
    cases h
    exact ⟨[], d₀, rfl, rfl, hd⟩
  | cons event events ih =>
    obtain ⟨diagnostics, rest, hfirst, hrest, rfl⟩ := handleAll_cons_eq_ok.mp h
    by_cases hname : event.name = name
    · have htext : (event.applyTo d₀).get? name = (event.applyTo d).get? name := by
        rw [get?_applyTo, get?_applyTo, hd]
      obtain ⟨own', d₁, hown, hpublished, hd₁⟩ := ih htext hrest
      have hfirst' : (event.applyTo d₀).diagnostics event.name = .ok diagnostics := by
        rw [← hfirst, Documents.diagnostics, Documents.diagnostics, hname, htext]
      refine ⟨(event.name, diagnostics) :: own', d₁, ?_, ?_, hd₁⟩
      · rw [own_cons_self hname]
        exact handleAll_cons_eq_ok.mpr ⟨_, _, hfirst', hown, rfl⟩
      · unfold publishedFor at hpublished ⊢
        rw [List.filter_cons_of_pos (by simpa using hname),
          List.filter_cons_of_pos (by simpa using hname), List.map_cons, List.map_cons, hpublished]
    · have htext : d₀.get? name = (event.applyTo d).get? name := by
        rw [get?_applyTo, if_neg hname, hd]
      obtain ⟨own', d₁, hown, hpublished, hd₁⟩ := ih htext hrest
      refine ⟨own', d₁, by rw [own_cons_of_ne hname]; exact hown, ?_, hd₁⟩
      rw [hpublished, publishedFor, publishedFor, List.filter_cons_of_neg (by simpa using hname)]

/-- Only the events of a single document can make one of them fail. -/
theorem handleAll_of_own
    (h : ∀ name, ∃ publications d', d.handleAll (own name events) = .ok (publications, d')) :
    ∃ publications d', d.handleAll events = .ok (publications, d') := by
  induction events generalizing d with
  | nil => exact ⟨[], d, rfl⟩
  | cons event events ih =>
    obtain ⟨ps, d₁, hown⟩ := h event.name
    rw [own_cons_self rfl] at hown
    obtain ⟨diagnostics, rest, hfirst, hrest, -⟩ := handleAll_cons_eq_ok.mp hown
    have htail : ∀ name, ∃ publications d',
        (event.applyTo d).handleAll (own name events) = .ok (publications, d') := by
      intro name
      by_cases hname : event.name = name
      · subst hname
        exact ⟨rest, d₁, hrest⟩
      · obtain ⟨ps, d₂, hothers⟩ := h name
        rw [own_cons_of_ne hname] at hothers
        have htext : (event.applyTo d).get? name = d.get? name := by
          rw [get?_applyTo, if_neg hname]
        obtain ⟨own', d₃, hown', -⟩ := handleAll_own htext hothers
        rw [own_own] at hown'
        exact ⟨own', d₃, hown'⟩
    obtain ⟨publications, d', hpublications⟩ := ih htail
    exact ⟨_, d', handleAll_cons_eq_ok.mpr ⟨diagnostics, publications, hfirst, hpublications, rfl⟩⟩

/-- Two courses of events in which those of one document are the same come out the same for it. -/
theorem handleAll_of_own_eq {events' : List DocumentEvent} {publications' : List Publication}
    {d₁ d₁' : Documents} {name : String} (hd : d₁.get? name = d.get? name)
    (hown : own name events' = own name events)
    (h : d.handleAll events = .ok (publications, d'))
    (h' : d₁.handleAll events' = .ok (publications', d₁')) :
    d₁'.get? name = d'.get? name ∧
      publishedFor name publications' = publishedFor name publications := by
  obtain ⟨ps, e, hps, hpublished, he⟩ := handleAll_own rfl h
  obtain ⟨ps', e', hps', hpublished', he'⟩ := handleAll_own hd.symm h'
  rw [hown, hps] at hps'
  cases hps'
  exact ⟨he'.symm.trans he, hpublished'.symm.trans hpublished⟩

/-- **What an editor was told always matches its documents.** Let some events happen from the start,
none of which fails.

* Each event publishes one list of diagnostics, for its own document.
* A document has a text exactly if the last event that brought it one came after it was closed the
  last time, and then it has the text of that event.
* For every document that an event was about, the list published last is that of the diagnostics of
  its text now, and empty if it is closed.
* In any other course of events in which those of a document are the same, the document gets the
  same text, and the same lists are published for it.
* In particular events may change places as long as those of each document stay in order: none of
  them fails then, and every document fares the same. -/
theorem published_agrees (h : (∅ : Documents).handleAll events = .ok (publications, d)) :
    publications.map (·.1) = events.map (·.name) ∧
    (∀ name text, d.get? name = some text ↔ LeavesText name text events) ∧
    (∀ name, (∃ event ∈ events, event.name = name) → ∃ diagnostics,
      LastPublished name diagnostics publications ∧ d.diagnostics name = .ok diagnostics ∧
        (d.get? name = none → diagnostics = [])) ∧
    (∀ events' publications' d' name,
      (∅ : Documents).handleAll events' = .ok (publications', d') →
      own name events' = own name events → d'.get? name = d.get? name ∧
        publishedFor name publications' = publishedFor name publications) ∧
    ∀ events', (∀ name, own name events' = own name events) → ∃ publications' d',
      (∅ : Documents).handleAll events' = .ok (publications', d') ∧
        ∀ name, d'.get? name = d.get? name ∧
          publishedFor name publications' = publishedFor name publications := by
  refine ⟨names_handleAll h, ?_, ?_, ?_, ?_⟩
  · intro name text
    rw [get?_handleAll h]
    exact textOf_eq_some_iff
  · intro name hname
    obtain ⟨diagnostics, hlast, hdiagnostics⟩ := exists_lastPublished h hname
    refine ⟨diagnostics, hlast, hdiagnostics, ?_⟩
    intro hnone
    rw [Documents.diagnostics, hnone, Option.getD_none, ofText_empty] at hdiagnostics
    exact (Except.ok.inj hdiagnostics).symm
  · intro events' publications' d' name h' hown
    exact handleAll_of_own_eq rfl hown h h'
  · intro events' hown
    obtain ⟨publications', d', h'⟩ : ∃ publications' d',
        (∅ : Documents).handleAll events' = .ok (publications', d') := by
      apply handleAll_of_own
      intro name
      obtain ⟨own', d₁, h₁, -⟩ := handleAll_own rfl h
      rw [hown name]
      exact ⟨own', d₁, h₁⟩
    exact ⟨publications', d', h', fun name => handleAll_of_own_eq rfl (hown name) h h'⟩

/-- Two documents: one is opened, changed by nothing, closed and changed again; the other is changed
before it is opened and closed twice. -/
def irregularEvents : List DocumentEvent :=
  [.opened "a" "(", .changed "b" ["x", ")"], .changed "a" [], .closed "a", .changed "a" ["1"],
    .closed "b", .closed "b"]

theorem handleAll_irregularEvents :
    ((∅ : Documents).handleAll irregularEvents).map (fun r => (r.1.map (·.2.length), r.2.entries)) =
      .ok ([1, 1, 1, 0, 0, 0, 0], [("a", "1")]) := by decide +kernel

/-- The first document comes back with the text of its last change, and the last that was heard of
the second one is that nothing is amiss. -/
theorem published_agrees_irregularEvents :
    ∃ publications d, (∅ : Documents).handleAll irregularEvents = .ok (publications, d) ∧
      publications.map (·.1) = ["a", "b", "a", "a", "a", "b", "b"] ∧
      (d.get? "a" = some "1" ∧ LeavesText "a" "1" irregularEvents) ∧
      d.get? "b" = none ∧ LastPublished "b" [] publications := by
  cases hr : (∅ : Documents).handleAll irregularEvents with
  | error e =>
    have hentries := handleAll_irregularEvents
    rw [hr] at hentries
    cases hentries
  | ok r =>
    obtain ⟨publications, d⟩ := r
    have hentries := handleAll_irregularEvents
    rw [hr] at hentries
    have hd : d.entries = [("a", "1")] := congrArg Prod.snd (Except.ok.inj hentries)
    obtain ⟨hnames, htexts, hlast, -, -⟩ := published_agrees hr
    have ha : d.get? "a" = some "1" := by rw [get?, hd]; rfl
    have hb : d.get? "b" = none := by rw [get?, hd]; rfl
    have hown : ∃ event ∈ irregularEvents, event.name = "b" :=
      ⟨.closed "b", by simp [irregularEvents], rfl⟩
    obtain ⟨diagnostics, hpublished, -, hempty⟩ := hlast "b" hown
    rw [hempty hb] at hpublished
    exact ⟨publications, d, rfl, hnames, ⟨ha, (htexts "a" "1").mp ha⟩, hb, hpublished⟩

end Documents

end LispCore
