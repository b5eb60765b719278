import LispCore.Proofs.Reader.Placement
import LispCore.Proofs.Reader.Text

/-!
Reading is incremental: what is put after a text on a line of its own changes nothing about what was
read before it.

`parseAll_append` compares reading a text with reading it and more. If the text is read to its end,
the rest is read as a program of its own, some lines lower down. If it was refused for a reason of
its own, more text does not mend that. In every case the forms that were read stay the first ones.
-/

namespace LispCore.Reader

/-- What was read of a program, after forms that were read before. -/
def Parsed.after (vs : List Value) (p : Parsed) : Parsed := { p with forms := vs ++ p.forms }

theorem Reading.parsed_after (vs : List Value) (q : Reading) :
    (q.after vs).parsed = q.parsed.map (Parsed.after vs) := by
  obtain ⟨forms, failure, t⟩ := q
  cases failure with
  | none => rfl
  | some e =>
    simp only [Reading.parsed, Reading.after]
    split <;> rfl

/-- The characters of a text and, on a line of its own, another. -/
theorem toList_append_newline (text more : String) :
    (text ++ "\n" ++ more).toList = text.toList ++ '\n' :: more.toList := by
  simp

/-- A text that goes on after a line feed is read on as the rest by itself is, lower down. -/
theorem reading_append_newline {text : String} {toks' : List Token}
    {last' : Except Failure Token} (more : String)
    (hnext : CutInto (Position.advance {} text.toList) ('\n' :: more.toList) toks' last')
    (t : SymbolTable) :
    ((State.form []).scan toks' t).finish last' =
      (ofText more t).reading.moved (.below (text.toList.count '\n' + 1)) := by
  obtain ⟨ys, last, h⟩ := exists_cutInto {} more.toList
  have hblank : ∀ c ∈ ['\n'], Text.isBlank c = true := List.forall_mem_singleton.mpr rfl
  have htokens : tokensFrom (Position.advance {} text.toList) ('\n' :: more.toList) =
      (ys.map (Token.moved (.below (text.toList.count '\n' + 1)))).map .ok ++
        [movedItem (.below (text.toList.count '\n' + 1)) last] := by
    rw [← List.singleton_append, tokensFrom_blanks hblank, ← Position.advance_append,
      Position.advance_newline, tokensFrom_below, h.tokens_eq, map_movedItem]
  obtain ⟨rfl, rfl⟩ := hnext.unique htokens
  rw [State.scan_moved, Scan.finish_moved, ← reading_ofText h]

/-- **Reading is incremental.** Let a text be read without a fault, and let more text follow it on a
line of its own.

* If nothing was amiss, the forms are those of the text and then those that the rest has by itself,
  read with the names known by then, and so is the failure, its token as many lines lower down as
  the text and the line feed have.
* If the text is refused at a token that is out of place or at a number, it is refused in the same
  way with anything after it, and the same names are known.
* In every case the forms of the text come first. -/
theorem parseAll_append (text more : String) (t : SymbolTable) {p : Parsed}
    (hp : (ofText text t).parseAll.1 = .ok p) :
    (p.failure = none →
      (ofText (text ++ "\n" ++ more) t).parseAll.1 =
          (ofText more (ofText text t).parseAll.2.symbols).parseAll.1.map (fun q =>
            (q.moved (.below (text.toList.count '\n' + 1))).after p.forms) ∧
        (ofText (text ++ "\n" ++ more) t).parseAll.2.symbols =
          (ofText more (ofText text t).parseAll.2.symbols).parseAll.2.symbols) ∧
    (∀ err, p.failure = some (.read err) → err.family = .structural ∨ err.family = .numeric →
      (ofText (text ++ "\n" ++ more) t).parseAll.1 = .ok p ∧
        (ofText (text ++ "\n" ++ more) t).parseAll.2.symbols =
          (ofText text t).parseAll.2.symbols) ∧
    (∀ q, (ofText (text ++ "\n" ++ more) t).parseAll.1 = .ok q → p.forms <+: q.forms) := by
  have hmore : ∀ c ∈ ('\n' :: more.toList).head?, c = '\n' := by simp
  obtain ⟨toks, last, toks', last', h, hwhole, hnext⟩ :=
    exists_cutInto_append hmore {} text.toList
  rw [← toList_append_newline] at hwhole
  have hread := reading_ofText h t
  have hreadWhole := reading_ofText hwhole t
  rw [State.scan_append] at hreadWhole
  generalize (State.form []).scan toks t = s at hread hreadWhole
  simp only [parseAll_fst, symbols_parseAll, hread, hreadWhole] at hp ⊢
  obtain rfl := Reading.forms_of_parsed hp
  refine ⟨?_, ?_, ?_⟩
  · intro hnone
    obtain ⟨hstop, hend⟩ := Scan.finish_eq_none hnone
    have hrest : (s.andThen toks').finish last' =
        ((ofText more s.symbols).reading.moved (.below (text.toList.count '\n' + 1))).after
          s.forms := by
      rw [Scan.finish_andThen_of_complete hstop, reading_append_newline more (hnext hend)]
    rw [hrest, Reading.parsed_after, parsed_moved]
    refine ⟨?_, rfl⟩
    show _ = Except.map _ (ofText more s.symbols).reading.parsed
    cases (ofText more s.symbols).reading.parsed <;> rfl
  · intro err herr hfamily
    have hrefused : s.stop = .error (.read err) := by
      obtain hstop | ⟨-, ⟨-, hblames⟩ | ⟨-, hlexical⟩⟩ := Scan.finish_cases h.ends herr
      · exact hstop
      · obtain ⟨err', heq, -, hend⟩ := hblames
        cases heq
        simp [hend] at hfamily
      · obtain ⟨err', tok, heq, -, hsource⟩ | ⟨name, heq, -⟩ := hlexical.cases
        · cases heq
          simp [hsource] at hfamily
        · cases heq
    rw [Scan.finish_andThen_of_refused hrefused toks' last last']
    exact ⟨hp, rfl⟩
  · intro q hq
    rw [Reading.forms_of_parsed hq]
    exact s.forms_andThen toks'

/-- What is read of a text with a comment at its end. -/
theorem reading_commented : (ofText "a ; b").reading =
    ⟨[.symbol ⟨"a", 0⟩], none, SymbolTable.insert ∅ "a"⟩ := by
  have h : CutInto {} "a ; b".toList [{ kind := .symbol, text := "a", length := 1 }]
    (.ok (endAt ⟨0, 5⟩)) := .of_tokens (by decide +kernel)
  rw [reading_ofText h]
  rfl

/-- A comment at the end of a text does not take in what is put after it, and a bracket there that
closes nothing is reported a line lower down. -/
theorem parseAll_append_commented :
    (ofText "a ; b").parseAll.1 = .ok ⟨[.symbol ⟨"a", 0⟩], none⟩ ∧
    (ofText ("a ; b" ++ "\n" ++ "b )")).parseAll.1 =
      .ok ⟨[.symbol ⟨"a", 0⟩, .symbol ⟨"b", 1⟩], some (.read (.noForm
        { kind := .closing .round, text := ")", start := ⟨1, 2⟩, length := 1 }))⟩ := by
  have hp : (ofText "a ; b").parseAll.1 = .ok ⟨[.symbol ⟨"a", 0⟩], none⟩ := by
    rw [parseAll_fst, reading_commented]
    rfl
  have h : CutInto {} "b )".toList [{ kind := .symbol, text := "b", length := 1 },
    { kind := .closing .round, text := ")", start := ⟨0, 2⟩, length := 1 }] (.ok (endAt ⟨0, 3⟩)) :=
    .of_tokens (by decide +kernel)
  refine ⟨hp, ?_⟩
  rw [((parseAll_append "a ; b" "b )" ∅ hp).1 rfl).1, symbols_parseAll, reading_commented,
    parseAll_fst, reading_ofText h]
  rfl

end LispCore.Reader
