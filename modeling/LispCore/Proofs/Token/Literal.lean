import LispCore.Token.Lexer

/-!
What the literals of strings and characters are, said by their shape.

* `splitString?_eq_some_iff` — a string ends at its first quote that no backslash takes along;
  `splitString?_eq_none_iff` says when there is none.
* `splitCharacter?_eq_some_iff` — a character literal is a name or one character, with a delimiter
  or the end of the text after it. No text has two of them (`CharacterBody.append_inj`), so the
  order in which the names are tried does not matter.
-/

namespace LispCore

/-! ### Strings -/

/-- What stands between the quotes of a string: characters that are neither a quote nor a backslash,
and backslashes each with any character after it. -/
inductive StringBody : List Char → Prop where
  | nil : StringBody []
  | plain {c body} : c ≠ '\\' → c ≠ '"' → StringBody body → StringBody (c :: body)
  | escaped {c body} : StringBody body → StringBody ('\\' :: c :: body)

/-- A text after an opening quote that no quote closes. -/
def Unclosed (cs : List Char) : Prop := ∀ body rest, StringBody body → cs ≠ body ++ '"' :: rest

theorem StringBody.splitString? {body : List Char} (h : StringBody body) (rest : List Char) :
    splitString? (body ++ '"' :: rest) = some (body ++ ['"'], rest) := by
  induction h with
  | nil => rfl
  | @plain c body hback hquote _ ih =>
    rw [List.cons_append, LispCore.splitString?.eq_3]
    · simp [ih]
    · intro h
      exact hquote h
    · intro _ _ h _
      exact hback h
  | escaped _ ih => simp [LispCore.splitString?, ih]

/-- **A string ends at the first quote that closes it.** -/
theorem splitString?_eq_some_iff {cs raw rest : List Char} :
    splitString? cs = some (raw, rest) ↔
      ∃ body, StringBody body ∧ raw = body ++ ['"'] ∧ cs = body ++ '"' :: rest := by
  constructor
  · intro h
    fun_induction splitString? cs generalizing raw rest with
    | case1 => cases h; exact ⟨[], .nil, rfl, rfl⟩
    | case2 c cs ih =>
      obtain ⟨⟨r, s⟩, hs, he⟩ := Option.map_eq_some_iff.mp h
      cases he
      obtain ⟨body, hbody, rfl, rfl⟩ := ih hs
      exact ⟨_, hbody.escaped, rfl, rfl⟩
    | case3 c cs hquote hback ih =>
      obtain ⟨⟨r, s⟩, hs, he⟩ := Option.map_eq_some_iff.mp h
      cases he
      obtain ⟨body, hbody, rfl, rfl⟩ := ih hs
      refine ⟨c :: body, .plain ?_ hquote hbody, rfl, rfl⟩
      rintro rfl
      -- A backslash takes a character along, so the text after it is not empty.
      cases body with
      | nil => exact hback _ _ rfl rfl
      | cons d body => exact hback _ _ rfl rfl
    | case4 => cases h
  · rintro ⟨body, hbody, rfl, rfl⟩
    exact hbody.splitString? rest

theorem splitString?_eq_none_iff {cs : List Char} : splitString? cs = none ↔ Unclosed cs := by
  constructor
  · rintro h body rest hbody rfl
    rw [hbody.splitString?] at h
    cases h
  · intro h
    cases hs : splitString? cs with
    | none => rfl
    | some split =>
      obtain ⟨body, hbody, -, hcs⟩ := splitString?_eq_some_iff.mp hs
      exact absurd hcs (h body _ hbody)

/-! ### Characters -/

/-- What stands after the mark of a character literal: one character, or a name in any case. -/
def CharacterBody (cs : List Char) : Prop :=
  cs.length = 1 ∨ ∃ entry ∈ characterNames, matchesName entry.1 cs = true

instance (cs : List Char) : Decidable (CharacterBody cs) :=
  inferInstanceAs (Decidable (_ ∨ ∃ entry ∈ characterNames, _))

theorem matchesName_length {name cs : List Char} (h : matchesName name cs = true) :
    cs.length = name.length := by
  fun_induction matchesName name cs with
  | case1 => rfl
  | case2 l ls c cs ih => simp [ih (Bool.and_eq_true_iff.mp h).2]
  | case3 => cases h

theorem exists_matchesLetter {name cs : List Char} (h : matchesName name cs = true) {c : Char}
    (hc : c ∈ cs) : ∃ l ∈ name, matchesLetter l c = true := by
  fun_induction matchesName name cs with
  | case1 => cases hc
  | case2 l ls d cs ih =>
    obtain ⟨hd, hrest⟩ := Bool.and_eq_true_iff.mp h
    rcases List.mem_cons.mp hc with rfl | hc
    · exact ⟨l, by simp, hd⟩
    · obtain ⟨l', hl', hm⟩ := ih hrest hc
      exact ⟨l', by simp [hl'], hm⟩
  | case3 => cases h

/-- No delimiter is a capital letter, so lower case changes none. -/
theorem toLower_of_isDelimiter {c : Char} (h : isDelimiter c = true) : c.toLower = c := by
  have hnot : ¬(65 ≤ c.toNat ∧ c.toNat ≤ 90) := by
    rcases Bool.or_eq_true_iff.mp h with h | h
    · simp only [Text.isBlank, Bool.or_eq_true, Bool.and_eq_true, decide_eq_true_eq,
        beq_iff_eq] at h
      omega
    · rw [List.contains_iff_mem] at h
      simp only [List.mem_cons, List.not_mem_nil, or_false] at h
      rcases h with rfl | rfl | rfl | rfl | rfl | rfl | rfl | rfl | rfl | rfl | rfl <;> decide
  exact dif_neg hnot

/-- What matches a letter, which is no delimiter, is none. -/
theorem isDelimiter_of_matchesLetter {l c : Char} (hl : isDelimiter l = false)
    (h : matchesLetter l c = true) : isDelimiter c = false := by
  simp only [matchesLetter, Bool.or_eq_true, Bool.and_eq_true, beq_iff_eq] at h
  rcases h with (h | ⟨-, rfl⟩) | ⟨-, rfl | rfl⟩
  · rw [Bool.eq_false_iff]
    intro hc
    rw [toLower_of_isDelimiter hc] at h
    rw [h, hl] at hc
    cases hc
  all_goals decide

/-- A name holds no delimiter. -/
theorem isDelimiter_of_matchesName {entry : List Char × Char} (hentry : entry ∈ characterNames)
    {cs : List Char} (h : matchesName entry.1 cs = true) : ∀ c ∈ cs, isDelimiter c = false := by
  have hnames : (characterNames.all fun entry => entry.1.all (!isDelimiter ·)) = true := by decide
  intro c hc
  obtain ⟨l, hl, hm⟩ := exists_matchesLetter h hc
  have hl' := List.all_eq_true.mp (List.all_eq_true.mp hnames entry hentry) l hl
  exact isDelimiter_of_matchesLetter (by simpa using hl') hm

theorem CharacterBody.ne_nil {cs : List Char} (h : CharacterBody cs) : cs ≠ [] := by
  have hnames : ∀ entry ∈ characterNames, entry.1 ≠ [] := by decide
  rintro rfl
  obtain h | ⟨entry, hentry, h⟩ := h
  · cases h
  · exact hnames entry hentry (List.length_eq_zero_iff.mp (matchesName_length h).symm)

/-- **No character literal is a part of another.** What follows the shorter one would be a letter of
the longer one, and no delimiter. -/
theorem CharacterBody.append_inj {xs ys rest rest' : List Char} (hx : CharacterBody xs)
    (hy : CharacterBody ys) (hrest : startsDelimited rest = true)
    (hrest' : startsDelimited rest' = true) (h : xs ++ rest = ys ++ rest') : xs = ys := by
  -- A longer literal is a name, and the character of it just after the shorter one is a letter.
  have hlt {as bs more more' : List Char} (ha : CharacterBody as) (hb : CharacterBody bs)
      (hmore : startsDelimited more = true) (h : as ++ more = bs ++ more') :
      ¬as.length < bs.length := by
    intro hlen
    obtain hone | ⟨entry, hentry, hname⟩ := hb
    · exact ha.ne_nil (List.length_eq_zero_iff.mp (by omega))
    obtain ⟨ds, rfl, hds⟩ : ∃ ds, bs = as ++ ds ∧ more = ds ++ more' := by
      obtain ⟨ds, hb, hm⟩ | ⟨ds, hb, hm⟩ := List.append_eq_append_iff.mp h
      · exact ⟨ds, hb, hm⟩
      · rw [hb, List.length_append] at hlen
        omega
    cases ds with
    | nil => simp at hlen
    | cons d ds =>
      have hd := isDelimiter_of_matchesName hentry hname d (by simp)
      rw [hds] at hmore
      simp [startsDelimited, hd] at hmore
  have hlen : xs.length = ys.length := by
    have h₁ := hlt hx hy hrest h
    have h₂ := hlt hy hx hrest' h.symm
    omega
  exact (List.append_inj h hlen).1

theorem splitDelimited?_append {accepts : List Char → Bool} {raw rest : List Char}
    (hraw : accepts raw = true) (hrest : startsDelimited rest = true) :
    splitDelimited? accepts raw.length (raw ++ rest) = some (raw, rest) := by
  simp [splitDelimited?, hraw, hrest]

theorem of_splitDelimited? {accepts : List Char → Bool} {n : Nat} {cs raw rest : List Char}
    (h : splitDelimited? accepts n cs = some (raw, rest)) :
    accepts raw = true ∧ startsDelimited rest = true := by
  simp only [splitDelimited?, List.splitAt_eq, Option.ite_none_right_eq_some, Option.some.injEq,
    Prod.mk.injEq, Bool.and_eq_true] at h
  obtain ⟨hraw, rfl, rfl⟩ := h
  exact hraw

theorem of_splitCharacter? {cs raw rest : List Char}
    (h : splitCharacter? cs = some (raw, rest)) :
    CharacterBody raw ∧ startsDelimited rest = true := by
  rcases Option.or_eq_some_iff.mp h with h | ⟨-, h⟩
  · obtain ⟨entry, hentry, h⟩ := List.exists_of_findSome?_eq_some h
    obtain ⟨hname, hrest⟩ := of_splitDelimited? h
    exact ⟨.inr ⟨entry, hentry, hname⟩, hrest⟩
  · obtain ⟨hlen, hrest⟩ := of_splitDelimited? h
    exact ⟨.inl (by simpa using hlen), hrest⟩

theorem splitCharacter?_isSome {raw rest : List Char} (hraw : CharacterBody raw)
    (hrest : startsDelimited rest = true) : (splitCharacter? (raw ++ rest)).isSome = true := by
  rw [splitCharacter?, Option.isSome_or, Bool.or_eq_true]
  obtain hlen | ⟨⟨name, c⟩, hentry, hname⟩ := hraw
  · right
    have hsplit : splitDelimited? (·.length == 1) raw.length (raw ++ rest) = some (raw, rest) :=
      splitDelimited?_append (by simpa using hlen) hrest
    rw [hlen] at hsplit
    rw [hsplit]; rfl
  · left
    rw [List.findSome?_isSome_iff]
    refine ⟨(name, c), hentry, ?_⟩
    dsimp only
    rw [← matchesName_length hname, splitDelimited?_append hname hrest]; rfl

/-- **A character literal is found exactly where one is**, with its whole text. -/
theorem splitCharacter?_eq_some_iff {cs raw rest : List Char} :
    splitCharacter? cs = some (raw, rest) ↔
      cs = raw ++ rest ∧ CharacterBody raw ∧ startsDelimited rest = true := by
  constructor
  · intro h
    exact ⟨(append_of_splitCharacter? h).symm, of_splitCharacter? h⟩
  · rintro ⟨rfl, hraw, hrest⟩
    obtain ⟨⟨raw', rest'⟩, h⟩ := Option.isSome_iff_exists.mp (splitCharacter?_isSome hraw hrest)
    obtain ⟨hraw', hrest'⟩ := of_splitCharacter? h
    have happend := append_of_splitCharacter? h
    obtain rfl := hraw'.append_inj hraw hrest' hrest happend
    rw [h, List.append_cancel_left happend]

end LispCore
