import LispCore.Proofs.Reader.Delivery

/-!
A token stream is a cursor.

A `Cursor` stands before the tokens that are still to come. Taking the next token moves it on and
looking at it does not; a failure that is come to is told once, and then there is the end for ever.
A stream answers any calls like the cursor before the tokens that its source delivers, although it
pulls its tokens one by one, keeps the last of them for later and remembers the end.

* `TokenStream.Shows`, `Shows.answer` — which cursor a stream stands for, and that a call keeps it;
* `Cursor.taken_answers`, `Cursor.failures_answers` — what is taken are the tokens in their order,
  and a failure is told at most once;
* `TokenStream.Accounts`, `Accounts.answer` — what was pulled is what was taken and what is kept;
* `TokenStream.answers_ofSource` — the main statement.
-/

namespace LispCore

/-! ### Calls -/

/-- The two ways to ask for the next token: it stays the next one, or it is used up. -/
inductive TokenCall where
  | peek
  | next
deriving DecidableEq, Repr

namespace TokenCall

/-- What a call keeps for the next one. -/
def kept : TokenCall → Token → Option Token
  | peek, t => some t
  | next, _ => none

/-- What calls are answered one after another, and the state after them. -/
def answers {σ : Type} (answer : σ → TokenCall → Except Failure Token × σ) :
    σ → List TokenCall → List (Except Failure Token) × σ
  | s, [] => ([], s)
  | s, c :: cs =>
    let (x, s') := answer s c
    let (xs, s'') := answers answer s' cs
    (x :: xs, s'')

/-- The tokens that were taken: what the calls for the next token were answered. -/
def taken : List TokenCall → List (Except Failure Token) → List Token
  | next :: cs, .ok t :: xs => t :: taken cs xs
  | _ :: cs, _ :: xs => taken cs xs
  | _, _ => []

/-- The failures that were told. -/
def failures : List (Except Failure Token) → List Failure
  | [] => []
  | .ok _ :: xs => failures xs
  | .error e :: xs => e :: failures xs

section Answers

variable {σ : Type} {answer : σ → TokenCall → Except Failure Token × σ}

theorem answers_cons (s : σ) (c : TokenCall) (cs : List TokenCall) :
    answers answer s (c :: cs) =
      ((answer s c).1 :: (answers answer (answer s c).2 cs).1,
        (answers answer (answer s c).2 cs).2) := rfl

/-- More calls go on where the calls before them ended. -/
theorem answers_append (s : σ) (cs ds : List TokenCall) :
    answers answer s (cs ++ ds) =
      ((answers answer s cs).1 ++ (answers answer (answers answer s cs).2 ds).1,
        (answers answer (answers answer s cs).2 ds).2) := by
  induction cs generalizing s with
  | nil => rfl
  | cons c cs ih =>
    rw [List.cons_append, answers_cons, answers_cons, ih]
    rfl

theorem taken_cons (c : TokenCall) (x : Except Failure Token) (cs : List TokenCall)
    (xs : List (Except Failure Token)) :
    taken (c :: cs) (x :: xs) = taken [c] [x] ++ taken cs xs := by
  cases c <;> cases x <;> rfl

theorem failures_cons (x : Except Failure Token) (xs : List (Except Failure Token)) :
    failures (x :: xs) = failures [x] ++ failures xs := by
  cases x <;> rfl

end Answers

end TokenCall

open TokenCall

/-! ### Cursors -/

/-- A place in a run of tokens: those that come, and then a failure or the end. -/
structure Cursor where
  tokens : List Token
  ending : Except Failure Token

namespace Cursor

/-- The cursor before the tokens of a source up to its first end or failure. -/
def ofSource (src : TokenSource) : Cursor := ⟨src.delivered, src.ending⟩

/-- A token stays or is used up as it is asked for. A failure is told once, and is followed by an
end without a place. The end stays for ever. -/
def answer : Cursor → TokenCall → Except Failure Token × Cursor
  | ⟨t :: ts, ending⟩, .peek => (.ok t, ⟨t :: ts, ending⟩)
  | ⟨t :: ts, ending⟩, .next => (.ok t, ⟨ts, ending⟩)
  | ⟨[], .ok t⟩, _ => (.ok t, ⟨[], .ok t⟩)
  | ⟨[], .error e⟩, _ => (.error e, ⟨[], .ok .unplacedEnd⟩)

/-- The token that is given for ever when all others were taken. -/
def last (k : Cursor) : Token :=
  match k.ending with
  | .ok t => t
  | .error _ => .unplacedEnd

/-- The failure that is still to be told, if there is one. -/
def failure (k : Cursor) : List Failure :=
  match k.ending with
  | .ok _ => []
  | .error e => [e]

variable (k : Cursor)

/-- One call takes the first token, or nothing, or the end. -/
theorem taken_answer (c : TokenCall) :
    (k.answer c).2.last = k.last ∧ ∃ n, taken [c] [(k.answer c).1] ++ (k.answer c).2.tokens =
      k.tokens ++ List.replicate n k.last := by
  rcases k with ⟨_ | ⟨t, ts⟩, e | t'⟩ <;> cases c
  case nil.ok.next => exact ⟨rfl, 1, rfl⟩
  all_goals exact ⟨rfl, 0, (List.append_nil _).symm⟩

/-- **The tokens are taken each once and in order**, and after them nothing but the end. -/
theorem taken_answers (calls : List TokenCall) :
    (answers answer k calls).2.last = k.last ∧
      ∃ n, taken calls (answers answer k calls).1 ++ (answers answer k calls).2.tokens =
        k.tokens ++ List.replicate n k.last := by
  induction calls generalizing k with
  | nil => exact ⟨rfl, 0, (List.append_nil _).symm⟩
  | cons c cs ih =>
    obtain ⟨hlast, m, hm⟩ := k.taken_answer c
    obtain ⟨hlast', n, hn⟩ := ih (k.answer c).2
    rw [answers_cons]
    refine ⟨hlast'.trans hlast, m + n, ?_⟩
    calc taken (c :: cs) _ ++ _
      _ = taken [c] [(k.answer c).1] ++ ((k.answer c).2.tokens ++ List.replicate n k.last) := by
        rw [taken_cons, List.append_assoc, hn, hlast]
      _ = k.tokens ++ List.replicate (m + n) k.last := by
        rw [← List.append_assoc, hm, List.append_assoc, List.replicate_append_replicate]

/-- One call tells the failure, or leaves it. -/
theorem failures_answer (c : TokenCall) :
    failures [(k.answer c).1] ++ (k.answer c).2.failure = k.failure := by
  rcases k with ⟨_ | ⟨t, ts⟩, e | t'⟩ <;> cases c <;> rfl

/-- **The failure is told once at most.** -/
theorem failures_answers (calls : List TokenCall) :
    failures (answers answer k calls).1 ++ (answers answer k calls).2.failure = k.failure := by
  induction calls generalizing k with
  | nil => rfl
  | cons c cs ih => rw [answers_cons, failures_cons, List.append_assoc, ih, failures_answer]

/-- **A token that was looked at is still the next one.** -/
theorem answer_peek {t : Token} (h : (k.answer .peek).1 = .ok t) :
    (k.answer .peek).2 = k ∧ (k.answer .next).1 = .ok t := by
  rcases k with ⟨_ | ⟨t, ts⟩, e | t'⟩
  case nil.error => cases h
  all_goals exact ⟨rfl, h⟩

end Cursor

/-! ### What a stream stands for -/

namespace TokenStream

open TokenSource

/-- What a stream answers a call. -/
def answer (s : TokenStream) : TokenCall → Except Failure Token × TokenStream
  | .peek => s.peek
  | .next => s.next

variable {s : TokenStream} {k : Cursor}

/-- `s.Answers c x s'`: all that a call can do. The token was kept, the end is there, or an item is
pulled from the source; and then a token is kept or used up. -/
inductive Answers (s : TokenStream) (c : TokenCall) :
    Except Failure Token → TokenStream → Prop where
  | kept {t s'} : s.buffer = some t →
      s'.buffer = c.kept t → s'.source = s.source → s'.ending = s.ending → Answers s c (.ok t) s'
  | ended {t s'} : s.buffer = none → s.ending = some t →
      s'.buffer = c.kept t → s'.source = s.source → s'.ending = s.ending → Answers s c (.ok t) s'
  | ranOut {s'} : s.buffer = none → s.ending = none → s.source = [] →
      s'.buffer = c.kept .unplacedEnd → s'.source = [] → s'.ending = some .unplacedEnd →
      Answers s c (.ok .unplacedEnd) s'
  | token {t rest s'} : s.buffer = none → s.ending = none → s.source = .ok t :: rest →
      s'.buffer = c.kept t → s'.source = rest →
      s'.ending = (if t.kind = .endOfInput then some t else none) → Answers s c (.ok t) s'
  | failure {e rest s'} : s.buffer = none → s.ending = none → s.source = .error e :: rest →
      s'.buffer = none → s'.source = [] → s'.ending = none → Answers s c (.error e) s'

/-- What is pulled is kept or used up. -/
theorem answer_of_pull {x : Except Failure Token} {s' : TokenStream} (hbuffer : s.buffer = none)
    (hpull : s.pull = (x, s')) (c : TokenCall) :
    (s.answer c).1 = x ∧ (s.answer c).2.buffer = x.toOption.bind c.kept ∧
      (s.answer c).2.source = s'.source ∧ (s.answer c).2.ending = s'.ending := by
  have hpulls := s.pulls
  rw [hpull] at hpulls
  have hnone : s'.buffer = none := hpulls.buffer_eq.trans hbuffer
  cases c <;> cases x <;> simp [answer, peek, next, hbuffer, hpull, hnone, TokenCall.kept,
    Except.toOption]

theorem answers (s : TokenStream) (c : TokenCall) : s.Answers c (s.answer c).1 (s.answer c).2 := by
  cases hbuffer : s.buffer with
  | some t =>
    cases c <;> simp only [answer, peek, next, hbuffer]
    · exact .kept hbuffer hbuffer rfl rfl
    · exact .kept hbuffer rfl rfl rfl
  | none =>
    cases hending : s.ending with
    | some t =>
      have hpull : s.pull = (.ok t, s) := by simp only [pull, hending]
      obtain ⟨hx, hkept, hsource', hending'⟩ := answer_of_pull hbuffer hpull c
      rw [hx]
      exact .ended hbuffer hending hkept hsource' hending'
    | none =>
      rcases hsource : s.source with _ | ⟨e | t, rest⟩
      · have hpull : s.pull = (.ok .unplacedEnd, s.pulled .unplacedEnd []) := by
          simp only [pull, hending, hsource]
        obtain ⟨hx, hkept, hsource', hending'⟩ := answer_of_pull hbuffer hpull c
        rw [hx]
        exact .ranOut hbuffer hending hsource hkept (hsource'.trans (source_pulled ..))
          (hending'.trans (ending_pulled ..))
      · have hpull : s.pull = (.error e, { s with source := [] }) := by
          simp only [pull, hending, hsource]
        obtain ⟨hx, hkept, hsource', hending'⟩ := answer_of_pull hbuffer hpull c
        rw [hx]
        exact .failure hbuffer hending hsource hkept hsource' (hending'.trans hending)
      · have hpull : s.pull = (.ok t, s.pulled t rest) := by simp only [pull, hending, hsource]
        obtain ⟨hx, hkept, hsource', hending'⟩ := answer_of_pull hbuffer hpull c
        rw [ending_pulled, hending] at hending'
        rw [hx]
        exact .token hbuffer hending hsource hkept (hsource'.trans (source_pulled ..)) hending'

theorem eq_of_mem_kept {c : TokenCall} {t t' : Token} (h : t' ∈ c.kept t) : t' = t := by
  cases c <;> cases h
  rfl

/-- `s.Shows k`: a stream stands for a cursor. Before the end it has kept the first of the tokens,
or none, and delivers the others; after the end there is only the end. -/
inductive Shows (s : TokenStream) : Cursor → Prop where
  | reading {toks last} : s.ending = none → (∀ t ∈ s.buffer, t.kind ≠ .endOfInput) →
      toks = s.buffer.toList ++ delivered s.source → last = TokenSource.ending s.source →
      Shows s ⟨toks, last⟩
  | ended {t} : s.ending = some t → (∀ t' ∈ s.buffer, t' = t) → Shows s ⟨[], .ok t⟩

theorem shows_ofSource (src : TokenSource) : (ofSource src).Shows (.ofSource src) :=
  .reading rfl (by simp [ofSource]) rfl rfl

/-- Where a token comes, it is kept or used up, and the others are still to come. -/
theorem shows_kept {c : TokenCall} {t : Token} (ht : t.kind ≠ .endOfInput)
    (hbuffer : s.buffer = c.kept t) (hending : s.ending = none) :
    s.Shows (Cursor.answer ⟨t :: delivered s.source, TokenSource.ending s.source⟩ c).2 := by
  have hkept : ∀ t' ∈ s.buffer, t'.kind ≠ .endOfInput := by
    rw [hbuffer]
    exact fun t' hmem => eq_of_mem_kept hmem ▸ ht
  cases c with
  | peek => exact .reading hending hkept (by rw [hbuffer]; rfl) rfl
  | next => exact .reading hending hkept (by rw [hbuffer]; rfl) rfl

/-- Where the end comes, it stays. -/
theorem shows_end {c : TokenCall} {t : Token} (hbuffer : s.buffer = c.kept t)
    (hending : s.ending = some t) : s.Shows ⟨[], .ok t⟩ :=
  .ended hending (by rw [hbuffer]; exact fun _ => eq_of_mem_kept)

/-- **A call keeps what a stream stands for**, and is answered as the cursor answers it. -/
theorem Shows.answer (h : s.Shows k) (c : TokenCall) :
    (s.answer c).1 = (k.answer c).1 ∧ (s.answer c).2.Shows (k.answer c).2 := by
  have hanswers := s.answers c
  generalize (s.answer c).1 = x, (s.answer c).2 = s' at hanswers
  cases h with
  | reading hending hbuffered htoks hlast =>
    subst htoks hlast
    cases hanswers with
    | @kept t _ hbuffer hbuffer' hsource hending' =>
      rw [hbuffer, ← hsource]
      exact ⟨by cases c <;> rfl,
        shows_kept (hbuffered t hbuffer) hbuffer' (hending'.trans hending)⟩
    | ended _ hended => rw [hending] at hended; cases hended
    | ranOut hbuffer _ hsource hbuffer' _ hending' =>
      rw [hbuffer, hsource]
      exact ⟨rfl, shows_end hbuffer' hending'⟩
    | @token t rest _ hbuffer _ hsource hbuffer' hsource' hending' =>
      rw [hbuffer, hsource, ← hsource', Option.toList_none, List.nil_append, delivered,
        TokenSource.ending]
      by_cases ht : t.kind = .endOfInput
      · rw [if_pos ht, if_pos ht]
        exact ⟨rfl, shows_end hbuffer' (hending'.trans (if_pos ht))⟩
      · rw [if_neg ht, if_neg ht]
        exact ⟨by cases c <;> rfl, shows_kept ht hbuffer' (hending'.trans (if_neg ht))⟩
    | failure hbuffer _ hsource hbuffer' hsource' hending' =>
      rw [hbuffer, hsource]
      refine ⟨rfl, .reading hending' ?_ ?_ ?_⟩
      · rw [hbuffer']
        exact fun _ hmem => absurd hmem (by simp)
      · rw [hbuffer', hsource']
        rfl
      · rw [hsource']
        rfl
  | @ended t hending hbuffered =>
    cases hanswers with
    | @kept t' _ hbuffer hbuffer' _ hending' =>
      obtain rfl := hbuffered t' hbuffer
      exact ⟨rfl, shows_end hbuffer' (hending'.trans hending)⟩
    | ended _ hended hbuffer' _ hending' =>
      obtain rfl := Option.some.inj (hending.symm.trans hended)
      exact ⟨rfl, shows_end hbuffer' (hending'.trans hending)⟩
    | ranOut _ hnone | token _ hnone | failure _ hnone => rw [hending] at hnone; cases hnone

/-- **Any calls are answered as the cursor answers them.** -/
theorem Shows.run (h : s.Shows k) (calls : List TokenCall) :
    (TokenCall.answers TokenStream.answer s calls).1 =
        (TokenCall.answers Cursor.answer k calls).1 ∧
      (TokenCall.answers TokenStream.answer s calls).2.Shows
        (TokenCall.answers Cursor.answer k calls).2 := by
  induction calls generalizing s k with
  | nil => exact ⟨rfl, h⟩
  | cons c cs ih =>
    obtain ⟨hanswer, hshows⟩ := h.answer c
    obtain ⟨hanswers, hshows⟩ := ih hshows
    rw [answers_cons, answers_cons, hanswer, hanswers]
    exact ⟨rfl, hshows⟩

end TokenStream

/-! ### What is pulled -/

namespace TokenSource

/-- `src.Yields toks rest`: some tokens are pulled off the front of a source, and that is left.
After a failure nothing is left. -/
inductive Yields : TokenSource → List Token → TokenSource → Prop where
  | none {src} : Yields src [] src
  | token {t src toks rest} : Yields src toks rest → Yields (.ok t :: src) (t :: toks) rest
  | failure {e src} : Yields (.error e :: src) [] []

variable {src rest : TokenSource} {toks : List Token}

theorem Yields.another {t : Token} (h : src.Yields toks (.ok t :: rest)) :
    src.Yields (toks ++ [t]) rest := by
  generalize hleft : (.ok t :: rest : TokenSource) = left at h
  induction h with
  | none =>
    subst hleft
    exact .token .none
  | token _ ih => exact .token (ih hleft)
  | failure => cases hleft

theorem Yields.failed {e : Failure} (h : src.Yields toks (.error e :: rest)) :
    src.Yields toks [] := by
  generalize hleft : (.error e :: rest : TokenSource) = left at h
  induction h with
  | none =>
    subst hleft
    exact .failure
  | token _ ih => exact .token (ih hleft)
  | failure => cases hleft

end TokenSource

namespace TokenStream

open TokenSource

variable {src : TokenSource} {used pulled : List Token} {s : TokenStream}

/-- What was pulled of a source is what was taken and what is kept, up to the end; after the end
nothing more is pulled. -/
structure Accounts (src : TokenSource) (used pulled : List Token) (s : TokenStream) : Prop where
  yields : src.Yields pulled s.source
  returned : pulled <+: used ++ s.buffer.toList
  reading : s.ending = none →
    pulled = used ++ s.buffer.toList ∧ ∀ t ∈ pulled, t.kind ≠ .endOfInput
  no_end : ∀ t ∈ pulled.dropLast, t.kind ≠ .endOfInput

theorem accounts_ofSource (src : TokenSource) : Accounts src [] [] (ofSource src) :=
  ⟨.none, List.nil_prefix, fun _ => ⟨rfl, by simp⟩, by simp⟩

/-- A token is kept or taken. -/
theorem taken_append_kept (used : List Token) (c : TokenCall) (t : Token) :
    used ++ taken [c] [.ok t] ++ (c.kept t).toList = used ++ [t] := by
  cases c <;> simp [taken, TokenCall.kept]

/-- **A call keeps the account.** -/
theorem Accounts.answer (h : Accounts src used pulled s) (c : TokenCall) :
    ∃ pulled', Accounts src (used ++ taken [c] [(s.answer c).1]) pulled' (s.answer c).2 := by
  have hanswers := s.answers c
  generalize (s.answer c).1 = x, (s.answer c).2 = s' at hanswers
  obtain ⟨hyields, hreturned, hreading, hno_end⟩ := h
  cases hanswers with
  | kept hbuffer hbuffer' hsource hending =>
    rw [hbuffer, Option.toList_some] at hreturned hreading
    refine ⟨pulled, hsource ▸ hyields, ?_, ?_, hno_end⟩
    all_goals rw [hbuffer', taken_append_kept]
    · exact hreturned
    · rw [hending]
      exact hreading
  | ended hbuffer hended hbuffer' hsource hending =>
    rw [hbuffer, Option.toList_none, List.append_nil] at hreturned
    refine ⟨pulled, hsource ▸ hyields, ?_, ?_, hno_end⟩
    · rw [hbuffer', taken_append_kept]
      exact hreturned.trans (List.prefix_append ..)
    · rw [hending, hended]
      exact fun hnone => absurd hnone (by simp)
  | ranOut hbuffer hnone hsource hbuffer' hsource' hending =>
    rw [hbuffer, Option.toList_none, List.append_nil] at hreturned
    refine ⟨pulled, hsource'.trans hsource.symm ▸ hyields, ?_, ?_, hno_end⟩
    · rw [hbuffer', taken_append_kept]
      exact hreturned.trans (List.prefix_append ..)
    · rw [hending]
      exact fun hnone => absurd hnone (by simp)
  | @token t rest _ hbuffer hnone hsource hbuffer' hsource' hending =>
    obtain ⟨hpulled, hregular⟩ := hreading hnone
    rw [hbuffer, Option.toList_none, List.append_nil] at hpulled
    rw [hsource] at hyields
    have hall : pulled ++ [t] = used ++ taken [c] [.ok t] ++ s'.buffer.toList := by
      rw [hbuffer', taken_append_kept, hpulled]
    refine ⟨pulled ++ [t], hsource' ▸ hyields.another, hall ▸ List.prefix_rfl, ?_, ?_⟩
    · rw [← hall, hending]
      intro hended
      have ht : t.kind ≠ .endOfInput := by
        intro ht
        rw [if_pos ht] at hended
        cases hended
      exact ⟨rfl, List.forall_mem_append.mpr ⟨hregular, List.forall_mem_singleton.mpr ht⟩⟩
    · rw [List.dropLast_concat]
      exact hregular
  | @failure e rest _ hbuffer hnone hsource hbuffer' hsource' hending =>
    have htaken : taken [c] [.error e] = [] := by cases c <;> rfl
    rw [hsource] at hyields
    rw [htaken, List.append_nil]
    have hkept : s'.buffer = s.buffer := hbuffer'.trans hbuffer.symm
    refine ⟨pulled, hsource' ▸ hyields.failed, ?_, ?_, hno_end⟩
    all_goals rw [hkept]
    · exact hreturned
    · exact fun _ => hreading hnone

/-- **Any calls keep the account.** -/
theorem Accounts.run (h : Accounts src used pulled s) (calls : List TokenCall) :
    ∃ pulled', Accounts src (used ++ taken calls (TokenCall.answers TokenStream.answer s calls).1)
      pulled' (TokenCall.answers TokenStream.answer s calls).2 := by
  induction calls generalizing s used pulled with
  | nil => exact ⟨pulled, (List.append_nil used).symm ▸ h⟩
  | cons c cs ih =>
    obtain ⟨_, hanswer⟩ := h.answer c
    rw [answers_cons, taken_cons, ← List.append_assoc]
    exact ih hanswer

/-! ### Streams and cursors -/

/-- A stream that stands for a cursor still stands for it when a token was looked at. -/
theorem Shows.peek {k : Cursor} {t : Token} (h : s.Shows k) (ht : s.peek.1 = .ok t) :
    s.peek.2.Shows k ∧ s.next.1 = .ok t := by
  obtain ⟨hpeek, hshows⟩ := h.answer .peek
  obtain ⟨hcursor, hnext⟩ := k.answer_peek (hpeek.symm.trans ht)
  exact ⟨hcursor ▸ hshows, (h.answer .next).1.trans hnext⟩

/-- A token that was looked at is there for every call to look at it, and for the first call to take
it. -/
theorem Shows.peek_again {k : Cursor} {t : Token} (h : s.Shows k) (ht : s.peek.1 = .ok t)
    (n : Nat) :
    (TokenCall.answers TokenStream.answer s (List.replicate n .peek ++ [.next])).1 =
      List.replicate (n + 1) (.ok t) := by
  induction n generalizing s with
  | zero => exact congrArg (fun x => [x]) (h.peek ht).2
  | succ n ih =>
    have hshows := (h.peek ht).1
    have hagain : s.peek.2.peek.1 = .ok t :=
      (hshows.answer .peek).1.trans ((h.answer .peek).1.symm.trans ht)
    rw [List.replicate_succ, List.cons_append, answers_cons, List.replicate_succ]
    exact List.cons_eq_cons.mpr ⟨ht, ih hshows hagain⟩

/-- **A token stream answers like a cursor** over the tokens of its source before the first end or
failure. After any calls:

* They were answered as the cursor answers them.
* What was taken are these tokens in their order, each once, and after them nothing but the end,
  which is that of the source or one without a place. The failure was told at most once.
* Where the next token can be looked at, it is there again for every call to look at it and for
  the first call to take it, and looking at it once more or once less changes no other answer.
* What was pulled of the source is what was taken and, at the most, one token that is kept; nothing
  was pulled after an end. -/
theorem answers_ofSource (src : TokenSource) (calls : List TokenCall) :
    let xs := (TokenCall.answers answer (ofSource src) calls).1
    let s := (TokenCall.answers answer (ofSource src) calls).2
    let k := Cursor.ofSource src
    xs = (TokenCall.answers Cursor.answer k calls).1 ∧
    (∃ n, taken calls xs <+: delivered src ++ List.replicate n k.last) ∧
    failures xs <+: k.failure ∧
    (∀ t, s.peek.1 = .ok t →
      (∀ n, (TokenCall.answers answer s (List.replicate n .peek ++ [.next])).1 =
        List.replicate (n + 1) (.ok t)) ∧
      ∀ more, ∃ ys,
        (TokenCall.answers answer (ofSource src) (calls ++ .peek :: more)).1 = xs ++ .ok t :: ys ∧
        (TokenCall.answers answer (ofSource src) (calls ++ more)).1 = xs ++ ys) ∧
    ∃ pulled, src.Yields pulled s.source ∧ pulled <+: taken calls xs ++ s.buffer.toList ∧
      pulled.length ≤ (taken calls xs).length + 1 ∧
      ∀ t ∈ pulled.dropLast, t.kind ≠ .endOfInput := by
  intro xs s k
  obtain ⟨hanswers, hshows⟩ := (shows_ofSource src).run calls
  obtain ⟨-, n, htaken⟩ := k.taken_answers calls
  obtain ⟨pulled, haccounts⟩ := (accounts_ofSource src).run calls
  rw [← hanswers] at htaken
  refine ⟨hanswers, ⟨n, _, htaken⟩, ?_, ?_, pulled, haccounts.yields, haccounts.returned, ?_,
    haccounts.no_end⟩
  · have hfailures := k.failures_answers calls
    rw [← hanswers] at hfailures
    exact ⟨_, hfailures⟩
  · intro t ht
    refine ⟨hshows.peek_again ht, fun more => ⟨(TokenCall.answers answer s more).1, ?_, ?_⟩⟩
    · rw [answers_append, answers_cons, (hshows.run more).1, ← ((hshows.peek ht).1.run more).1,
        ← ht]
      rfl
    · rw [answers_append]
  · have hlength : pulled.length ≤ (taken calls xs ++ s.buffer.toList).length :=
      haccounts.returned.length_le
    have hbuffer : s.buffer.toList.length ≤ 1 := by cases s.buffer <;> simp
    rw [List.length_append] at hlength
    omega

end TokenStream

end LispCore
