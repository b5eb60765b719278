import LispCore.Text.Blank
import LispCore.Text.Newline
import LispCore.Token.Atom

/-!
What writing every line end as a line feed does to the parts of a text.

* `normalizeNewlines_append` — it may be done part by part, unless a carriage return and the line
  feed after it are parted;
* `exists_append_of_normalizeNewlines` — what holds no line feed afterwards was there before;
* `Position.advance_normalizeNewlines` — no place moves, if no carriage return stands alone.
-/

namespace LispCore

namespace Text

/-- What a character becomes where it does not stand between a carriage return and a line feed. -/
def lineEnd (c : Char) : Char := if c = '\r' then '\n' else c

theorem lineEnd_of_ne {c : Char} (h : c ≠ '\r') : lineEnd c = c := if_neg h

/-- What is no line feed now was what it is before. -/
theorem eq_of_lineEnd {c d : Char} (h : lineEnd c = d) (hd : d ≠ '\n') : c = d := by
  unfold lineEnd at h
  split at h
  · exact absurd h.symm hd
  · exact h

/-- A carriage return and a line feed are both blanks, so blanks stay what they are. -/
@[simp] theorem isBlank_lineEnd (c : Char) : isBlank (lineEnd c) = isBlank c := by
  unfold lineEnd
  split
  · next h => rw [h]; rfl
  · rfl

/-! ### Parts of a text -/

variable {c : Char} {cs xs ys : List Char}

/-- The line feed after a carriage return ends no line of its own. -/
theorem normalizeNewlines_crlf (cs : List Char) :
    normalizeNewlines ('\r' :: '\n' :: cs) = normalizeNewlines ('\n' :: cs) := rfl

theorem normalizeNewlines_cons (h : c = '\r' → cs.head? ≠ some '\n') :
    normalizeNewlines (c :: cs) = lineEnd c :: normalizeNewlines cs := by
  rw [normalizeNewlines.eq_3]
  · rfl
  · rintro rest rfl rfl
    exact h rfl rfl

theorem normalizeNewlines_cons_of_ne (h : c ≠ '\r') (cs : List Char) :
    normalizeNewlines (c :: cs) = c :: normalizeNewlines cs := by
  rw [normalizeNewlines_cons fun hc => absurd hc h, lineEnd_of_ne h]

/-- A carriage return and a line feed stand at the start of a text, or its first character is by
itself. -/
theorem crlf_or_cons (c : Char) (cs : List Char) :
    (∃ rest, c = '\r' ∧ cs = '\n' :: rest) ∨
      normalizeNewlines (c :: cs) = lineEnd c :: normalizeNewlines cs := by
  by_cases h : c = '\r' → cs.head? ≠ some '\n'
  · exact .inr (normalizeNewlines_cons h)
  · obtain ⟨hc, hhead⟩ := Classical.not_imp.mp h
    obtain ⟨rest, hrest⟩ := List.head?_eq_some_iff.mp (Decidable.not_not.mp hhead)
    exact .inl ⟨rest, hc, hrest⟩

theorem head?_normalizeNewlines (cs : List Char) :
    (normalizeNewlines cs).head? = cs.head?.map lineEnd := by
  cases cs with
  | nil => rfl
  | cons c cs =>
    obtain ⟨rest, rfl, rfl⟩ | h := crlf_or_cons c cs
    · rfl
    · rw [h]
      rfl

/-- **Line ends are written part by part**, unless one of them is parted. -/
theorem normalizeNewlines_append (h : xs.getLast? = some '\r' → ys.head? ≠ some '\n') :
    normalizeNewlines (xs ++ ys) = normalizeNewlines xs ++ normalizeNewlines ys := by
  fun_induction normalizeNewlines xs with
  | case1 => rfl
  | case2 rest ih =>
    have hrest : rest.getLast? = some '\r' → ys.head? ≠ some '\n' := by
      intro hlast
      exact h (by simp [List.getLast?_cons, hlast])
    rw [List.cons_append, List.cons_append, normalizeNewlines, ih hrest]
    rfl
  | case3 c rest hcrlf ih =>
    cases rest with
    | nil =>
      rw [List.singleton_append, normalizeNewlines_cons fun hc => h (by rw [hc]; rfl)]
      rfl
    | cons d rest =>
      have hcons : c = '\r' → (d :: rest ++ ys).head? ≠ some '\n' := by
        rintro rfl hd
        obtain rfl : d = '\n' := by simpa using hd
        exact hcrlf rest rfl rfl
      rw [List.cons_append, normalizeNewlines_cons hcons, ih (by simpa using h)]
      rfl

theorem normalizeNewlines_append_crlf (xs ys : List Char) :
    normalizeNewlines (xs ++ '\r' :: '\n' :: ys) =
      normalizeNewlines xs ++ '\n' :: normalizeNewlines ys := by
  rw [normalizeNewlines_append (by simp), normalizeNewlines]

/-- **What holds no line feed was there before.** -/
theorem exists_append_of_normalizeNewlines (h : normalizeNewlines cs = xs ++ ys)
    (hxs : '\n' ∉ xs) : ∃ zs, cs = xs ++ zs ∧ normalizeNewlines zs = ys := by
  induction xs generalizing cs with
  | nil => exact ⟨cs, rfl, h⟩
  | cons x xs ih =>
    simp only [List.mem_cons, not_or] at hxs
    cases cs with
    | nil => cases h
    | cons c cs =>
      obtain ⟨rest, rfl, rfl⟩ | hcons := crlf_or_cons c cs
      · exact absurd (List.head_eq_of_cons_eq h) hxs.1
      · rw [hcons] at h
        obtain ⟨rfl, hrest⟩ := List.cons.inj h
        obtain ⟨zs, rfl, hzs⟩ := ih hrest hxs.2
        have hc : c = lineEnd c := eq_of_lineEnd rfl (Ne.symm hxs.1)
        rw [← hc]
        exact ⟨zs, rfl, hzs⟩

/-- Every character was one before, or a line end. -/
theorem exists_of_mem_normalizeNewlines {d : Char} (h : d ∈ normalizeNewlines cs) :
    ∃ c ∈ cs, d = lineEnd c := by
  fun_induction normalizeNewlines cs with
  | case1 => cases h
  | case2 rest ih =>
    obtain rfl | h := List.mem_cons.mp h
    · exact ⟨'\r', by simp, rfl⟩
    · obtain ⟨c, hc, rfl⟩ := ih h
      exact ⟨c, by simp [hc], rfl⟩
  | case3 c rest _ ih =>
    obtain rfl | h := List.mem_cons.mp h
    · exact ⟨c, by simp, rfl⟩
    · obtain ⟨c', hc, rfl⟩ := ih h
      exact ⟨c', by simp [hc], rfl⟩

/-- Blanks stay blanks. -/
theorem isBlank_of_mem_normalizeNewlines (h : ∀ c ∈ cs, isBlank c = true) :
    ∀ c ∈ normalizeNewlines cs, isBlank c = true := by
  intro c hc
  obtain ⟨d, hd, rfl⟩ := exists_of_mem_normalizeNewlines hc
  rw [isBlank_lineEnd]
  exact h d hd

/-- Every carriage return of a text has a line feed right after it. -/
def NoLoneReturn (cs : List Char) : Prop :=
  ∀ before after, cs = before ++ '\r' :: after → after.head? = some '\n'

theorem NoLoneReturn.of_append (h : NoLoneReturn (xs ++ ys)) : NoLoneReturn ys := by
  rintro before after rfl
  exact h (xs ++ before) after (by simp)

end Text

open Text

/-! ### Places -/

/-- **No place moves** if no carriage return stands alone. -/
theorem Position.advance_normalizeNewlines {cs : List Char} (h : NoLoneReturn cs) (p : Position) :
    p.advance (normalizeNewlines cs) = p.advance cs := by
  fun_induction normalizeNewlines cs generalizing p with
  | case1 => rfl
  | case2 rest ih => exact ih (@NoLoneReturn.of_append ['\r', '\n'] _ h) (p.next '\n')
  | case3 c rest hcrlf ih =>
    have hc : c ≠ '\r' := by
      rintro rfl
      obtain ⟨rest', rfl⟩ := List.head?_eq_some_iff.mp (h [] rest rfl)
      exact hcrlf rest' rfl rfl
    rw [if_neg hc]
    exact ih (@NoLoneReturn.of_append [c] _ h) (p.next c)

/-- A delimiter stays one, whatever line end it is. -/
@[simp] theorem isDelimiter_lineEnd (c : Char) : isDelimiter (lineEnd c) = isDelimiter c := by
  unfold lineEnd
  split
  · next h => rw [h]; rfl
  · rfl

end LispCore
