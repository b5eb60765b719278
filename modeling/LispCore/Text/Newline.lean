/-!
Line ends. A stored text may end its lines with a line feed, a carriage return or both in this
order; reading it turns each of them into one line feed. `normalizeNewlines_of_not_mem` says that
nothing changes where there is no carriage return.
-/

namespace LispCore.Text

/-- A text with every line end written as one line feed. -/
def normalizeNewlines : List Char → List Char
  | [] => []
  | '\r' :: '\n' :: rest => '\n' :: normalizeNewlines rest
  | c :: rest => (if c = '\r' then '\n' else c) :: normalizeNewlines rest

theorem normalizeNewlines_of_not_mem {cs : List Char} (h : '\r' ∉ cs) :
    normalizeNewlines cs = cs := by
  fun_induction normalizeNewlines cs with
  | case1 => rfl
  | case2 rest => simp at h
  | case3 c rest _ ih =>
    simp only [List.mem_cons, not_or] at h
    simp [ih h.2, Ne.symm h.1]

end LispCore.Text
