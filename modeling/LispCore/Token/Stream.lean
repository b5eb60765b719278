import LispCore.Failure

/-!
Token streams: one token of look-ahead over a source of tokens.

A source is a list of tokens, any of which may be a failure in its place; what stands after a
failure is never delivered. The first end of input is the last token that is pulled, and it is
delivered for ever. `Pulls` is all that pulling can do, and `next_cases` all that taking a token
can. `size` counts what a source can still deliver, `size_next_lt` says that a token other than the
end uses it up.
-/

namespace LispCore

/-- Tokens in order, with failures where the source of the tokens failed. -/
abbrev TokenSource := List (Except Failure Token)

/-- A source with at most one token pulled ahead and, once it was pulled, its end. -/
structure TokenStream where
  source : TokenSource
  buffer : Option Token := none
  ending : Option Token := none
  ending_isEnd : ∀ t ∈ ending, t.kind = .endOfInput := by simp

namespace TokenStream

def ofSource (source : TokenSource) : TokenStream := { source }

instance : Inhabited TokenStream := ⟨.ofSource []⟩

/-- How many more times something other than the end can be delivered. -/
def size (s : TokenStream) : Nat := s.buffer.toList.length + s.source.length

/-- The stream after a token was pulled from the rest of its source. -/
def pulled (s : TokenStream) (t : Token) (rest : TokenSource) : TokenStream :=
  if h : t.kind = .endOfInput then
    { s with source := rest, ending := some t, ending_isEnd := by simpa using h }
  else { s with source := rest }

/-- Takes a token from the source itself. After a failure nothing is left in the source. -/
def pull (s : TokenStream) : Except Failure Token × TokenStream :=
  match s.ending with
  | some t => (.ok t, s)
  | none =>
    match s.source with
    | [] => (.ok .unplacedEnd, s.pulled .unplacedEnd [])
    | .ok t :: rest => (.ok t, s.pulled t rest)
    | .error e :: _ => (.error e, { s with source := [] })

/-- The next token, which stays the next one. -/
def peek (s : TokenStream) : Except Failure Token × TokenStream :=
  match s.buffer with
  | some t => (.ok t, s)
  | none =>
    match s.pull with
    | (.ok t, s') => (.ok t, { s' with buffer := some t })
    | (.error e, s') => (.error e, s')

/-- The next token, which is used up. -/
def next (s : TokenStream) : Except Failure Token × TokenStream :=
  match s.buffer with
  | some t => (.ok t, { s with buffer := none })
  | none => s.pull

theorem buffer_pulled (s : TokenStream) (t : Token) (rest : TokenSource) :
    (s.pulled t rest).buffer = s.buffer := by
  unfold pulled; split <;> rfl

theorem source_pulled (s : TokenStream) (t : Token) (rest : TokenSource) :
    (s.pulled t rest).source = rest := by
  unfold pulled; split <;> rfl

theorem ending_pulled (s : TokenStream) (t : Token) (rest : TokenSource) :
    (s.pulled t rest).ending = if t.kind = .endOfInput then some t else s.ending := by
  unfold pulled; split <;> rfl

/-- `Pulls s x s'`: pulling from a stream gives a token or a failure and leaves a stream. -/
inductive Pulls (s : TokenStream) : Except Failure Token → TokenStream → Prop where
  | ended {t} : s.ending = some t → Pulls s (.ok t) s
  | ranOut : s.ending = none → s.source = [] →
      Pulls s (.ok .unplacedEnd) (s.pulled .unplacedEnd [])
  | token {t rest} : s.ending = none → s.source = .ok t :: rest →
      Pulls s (.ok t) (s.pulled t rest)
  | failure {e rest} : s.ending = none → s.source = .error e :: rest →
      Pulls s (.error e) { s with source := [] }

theorem pulls (s : TokenStream) : s.Pulls s.pull.1 s.pull.2 := by
  unfold pull
  split
  · next hending => exact .ended hending
  · next hending =>
    split
    · next hsource => exact .ranOut hending hsource
    · next hsource => exact .token hending hsource
    · next hsource => exact .failure hending hsource

/-- The next token is the one that was pulled ahead, or it is pulled now. -/
theorem next_cases {s s' : TokenStream} {x : Except Failure Token} (h : s.next = (x, s')) :
    (∃ t, s.buffer = some t ∧ x = .ok t ∧ s' = { s with buffer := none }) ∨
      s.buffer = none ∧ s.Pulls x s' := by
  unfold next at h
  split at h
  · next t hbuffer =>
    cases h
    exact .inl ⟨t, hbuffer, rfl, rfl⟩
  · next hbuffer =>
    have hpulls := s.pulls
    rw [h] at hpulls
    exact .inr ⟨hbuffer, hpulls⟩

theorem Pulls.buffer_eq {s s' : TokenStream} {x : Except Failure Token} (h : s.Pulls x s') :
    s'.buffer = s.buffer := by
  cases h with
  | ended => rfl
  | ranOut => exact buffer_pulled ..
  | token => exact buffer_pulled ..
  | failure => rfl

theorem Pulls.size_le {s s' : TokenStream} {x : Except Failure Token} (h : s.Pulls x s') :
    s'.size ≤ s.size := by
  cases h with
  | ended => exact Nat.le_refl _
  | ranOut => simp [size, buffer_pulled, source_pulled]
  | token _ hsource => simp [size, buffer_pulled, source_pulled, hsource]
  | failure => simp [size]

theorem size_next_le (s : TokenStream) : s.next.2.size ≤ s.size := by
  rcases hnext : s.next with ⟨x, s'⟩
  obtain ⟨t, hbuffer, -, rfl⟩ | ⟨-, hpulls⟩ := next_cases hnext
  · simp [size, hbuffer]
  · exact hpulls.size_le

/-- Delivering a token other than the end makes the stream smaller. -/
theorem size_next_lt {s s' : TokenStream} {t : Token} (h : s.next = (.ok t, s'))
    (ht : t.kind ≠ .endOfInput) : s'.size < s.size := by
  obtain ⟨_, hbuffer, -, rfl⟩ | ⟨-, hpulls⟩ := next_cases h
  · simp [size, hbuffer]
  · cases hpulls with
    | ended hending => exact absurd (s.ending_isEnd _ hending) ht
    | ranOut => exact absurd rfl ht
    | token _ hsource => simp [size, buffer_pulled, source_pulled, hsource]

end TokenStream

end LispCore
