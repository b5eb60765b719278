import LispCore.Proofs.Reader.Program

/-!
Any source of tokens.

A source may end early, go on after its end or fail in the middle. What a reader sees of it are the
tokens before its first end or failure, and then that end or failure.

* `delivered`, `ending` — these tokens and what stops them;
* `reading_source` — what is read of a source is what scanning the delivered tokens gives, and after
  that what its ending says;
* `resume_ok_some` — a form takes its tokens off the front of a source. What stands after them stays
  where it is and does not matter.
-/

namespace LispCore

namespace TokenSource

/-- The tokens that a source delivers before its first end or failure. -/
def delivered : TokenSource → List Token
  | .ok tok :: src => if tok.kind = .endOfInput then [] else tok :: delivered src
  | _ => []

/-- The first end or failure of a source. A source that has run out has an end without a place. -/
def ending : TokenSource → Except Failure Token
  | [] => .ok .unplacedEnd
  | .ok tok :: src => if tok.kind = .endOfInput then .ok tok else ending src
  | .error e :: _ => .error e

theorem not_end_of_mem_delivered {src : TokenSource} :
    ∀ tok ∈ delivered src, tok.kind ≠ .endOfInput := by
  intro tok hmem
  induction src with
  | nil => cases hmem
  | cons item src ih =>
    cases item with
    | error e => cases hmem
    | ok tok' =>
      rw [delivered] at hmem
      split at hmem
      · cases hmem
      · next hend =>
        rcases List.mem_cons.mp hmem with rfl | hmem
        · exact hend
        · exact ih hmem

/-- A source is what it delivers, and then its ending and what nobody gets to see. -/
theorem eq_delivered_append (src : TokenSource) :
    ∃ rest, src = (delivered src).map .ok ++ rest ∧ delivered rest = [] ∧
      ending rest = ending src := by
  induction src with
  | nil => exact ⟨[], rfl, rfl, rfl⟩
  | cons item src ih =>
    cases item with
    | error e => exact ⟨.error e :: src, rfl, rfl, rfl⟩
    | ok tok =>
      by_cases hend : tok.kind = .endOfInput
      · exact ⟨.ok tok :: src, by simp [delivered, hend], by simp [delivered, hend], rfl⟩
      · obtain ⟨rest, hsrc, hnone, hending⟩ := ih
        refine ⟨rest, ?_, hnone, ?_⟩
        · rw [delivered, if_neg hend, List.map_cons, List.cons_append, ← hsrc]
        · rw [ending, if_neg hend, hending]

theorem delivered_append {xs : List Token} (hend : ∀ tok ∈ xs, tok.kind ≠ .endOfInput)
    (src : TokenSource) : delivered (xs.map .ok ++ src) = xs ++ delivered src := by
  induction xs with
  | nil => rfl
  | cons tok xs ih =>
    obtain ⟨htok, hxs⟩ := List.forall_mem_cons.mp hend
    rw [List.map_cons, List.cons_append, delivered, if_neg htok, ih hxs, List.cons_append]

end TokenSource

namespace Reader

open TokenSource

/-! ### Programs -/

/-- Where a source delivers nothing more, its ending says what becomes of the form that is open. -/
theorem readingFrom_undelivered {src : TokenSource} (hnone : delivered src = []) (st : State)
    (t : SymbolTable) :
    readingFrom st ⟨.ofSource src, t⟩ = (Scan.mk [] (.ok st) t).finish (ending src) := by
  cases src with
  | nil => exact readingFrom_of_next rfl rfl st t
  | cons item src =>
    cases item with
    | error e =>
      have hlast : IsLast (.error e) := by
        intro tok h
        cases h
      exact readingFrom_last hlast src st t
    | ok tok =>
      have htok : tok.kind = .endOfInput := by
        refine Decidable.byContradiction fun hend => ?_
        simp [delivered, hend] at hnone
      have hlast : IsLast (.ok tok) := by
        rintro _ ⟨⟩
        exact htok
      rw [ending, if_pos htok]
      exact readingFrom_last hlast src st t

/-- **What is read of a source** is what scanning the tokens that it delivers gives, and after that
what its ending says. -/
theorem reading_source (src : TokenSource) (t : SymbolTable) :
    (Reader.mk (.ofSource src) t).reading =
      ((State.form []).scan (delivered src) t).finish (ending src) := by
  obtain ⟨rest, hsrc, hnone, hending⟩ := eq_delivered_append src
  have hend : ∀ tok ∈ delivered src, tok.kind ≠ .endOfInput := not_end_of_mem_delivered
  have hread := readingFrom_append hend (readingFrom_undelivered hnone) (.form []) t
  rwa [← hsrc, hending, ← reading_eq] at hread

/-! ### Forms -/

/-- One step off a source. -/
theorem resume_cons {tok : Token} (hend : tok.kind ≠ .endOfInput) (src : TokenSource) (st : State)
    (t : SymbolTable) :
    resume st ⟨.ofSource (.ok tok :: src), t⟩ = outcome src (proceed [] (st.step tok t)) := by
  rw [← State.run_cons]
  exact resume_ofSource (List.forall_mem_singleton.mpr hend) st t src

/-- Where a source delivers nothing more, no form is read. -/
theorem resume_undelivered {src : TokenSource} (hnone : delivered src = []) (st : State)
    (t : SymbolTable) (v : Value) : (resume st ⟨.ofSource src, t⟩).1 ≠ .ok (some v) := by
  intro h
  have hreading := readingFrom_undelivered hnone st t
  rcases hresume : resume st ⟨.ofSource src, t⟩ with ⟨x, r⟩
  rw [hresume] at h
  obtain rfl : x = .ok (some v) := h
  rw [readingFrom, hresume] at hreading
  have hforms := congrArg Reading.forms hreading
  simp [Reading.after, Scan.finish] at hforms

/-- **A form takes its tokens off the front of a source**, and whatever stands after them, the same
form is read and that is left. -/
theorem resume_ok_some {src : TokenSource} {st : State} {t : SymbolTable} {v : Value} {r : Reader}
    (h : resume st ⟨.ofSource src, t⟩ = (.ok (some v), r)) :
    ∃ (used : List Token) (rest : TokenSource), src = used.map .ok ++ rest ∧
      r.stream = .ofSource rest ∧
      ∀ other : TokenSource, resume st ⟨.ofSource (used.map .ok ++ other), t⟩ =
        (.ok (some v), ⟨.ofSource other, r.symbols⟩) := by
  induction src generalizing st t with
  | nil => exact absurd (congrArg Prod.fst h) (resume_undelivered rfl st t v)
  | cons item src ih =>
    cases item with
    | error e => exact absurd (congrArg Prod.fst h) (resume_undelivered rfl st t v)
    | ok tok =>
      by_cases hend : tok.kind = .endOfInput
      · have hnone : delivered (.ok tok :: src) = [] := by simp [delivered, hend]
        exact absurd (congrArg Prod.fst h) (resume_undelivered hnone st t v)
      · rw [resume_cons hend] at h
        rcases hstep : st.step tok t with ⟨st' | w | e, t'⟩ <;> rw [hstep] at h
        · obtain ⟨used, rest, rfl, hstream, hother⟩ := ih h
          refine ⟨tok :: used, rest, rfl, hstream, ?_⟩
          intro other
          rw [List.map_cons, List.cons_append, resume_cons hend, hstep]
          exact hother other
        · cases h
          refine ⟨[tok], src, rfl, rfl, ?_⟩
          intro other
          rw [List.map_singleton, List.singleton_append, resume_cons hend, hstep]
          rfl
        · cases h

end Reader

end LispCore
