import LispCore.Proofs.Diagnostic.Extent
import LispCore.Proofs.Reader.Alike
import LispCore.Proofs.Reader.Outline
import LispCore.Proofs.Token.LineEnds
import LispCore.Source

/-!
An editor and a loader of one text.

An editor reads its text as it is. A loader reads a file, where every line end is taken for a line
feed. `Diagnostic.Agrees` says that what the one publishes and what the other gives come to the
same.

* `Reader.failure_elsewhere` — the names that are known do not matter for what stops the reading;
* `Reader.failure_normalized` — nor do line ends, in a text that keeps its tokens;
* `SourceRoots.load_agrees` — the main statement.
-/

namespace LispCore

namespace Reader

open Text

/-- **What stops the reading of a text is the same whatever names are known.** -/
theorem failure_elsewhere (text : String) (t t' : SymbolTable) :
    (ofText text t).reading.failure = (ofText text t').reading.failure := by
  obtain ⟨toks, last, h⟩ := exists_cutInto {} text.toList
  rw [reading_ofText h, reading_ofText h]
  have halike := State.scan_alike keptByInsert_unrelated toks (.refl (.form [])) (unrelated t t')
  exact halike.failure_eq last

/-- What stops the reading of a text is alike to itself, since it shows at a token or nowhere. -/
theorem failure_alike_self (text : String) (t : SymbolTable) :
    Option.Rel (FailureAlike Eq) (ofText text t).reading.failure
      (ofText text t).reading.failure := by
  cases h : (ofText text t).reading.failure with
  | none => exact .none
  | some e =>
    refine .some ?_
    obtain ⟨err, tok, rfl, htok⟩ | hfaults := failure_cases h
    · exact .read htok htok rfl rfl
    · cases hfaults <;> exact .other (by simp)

/-- **Line ends do not matter for what stops the reading** of a text that keeps its tokens. -/
theorem failure_normalized {text : String} (h : KeepsTokens text.toList) (t t' : SymbolTable) :
    Option.Rel (FailureAlike (SamePlace text.toList)) (ofText text t).reading.failure
      (ofText (String.ofList (normalizeNewlines text.toList)) t').reading.failure := by
  have hstart : text.toList = [] ++ text.toList := rfl
  have hstart' : normalizeNewlines text.toList = [] ++ normalizeNewlines text.toList := rfl
  obtain ⟨toks, last, toks', last', hcut, hcut', htoks, hlast⟩ :=
    exists_cutInto_normalized h hstart hstart'
  have hcut'' : CutInto {} (String.ofList (normalizeNewlines text.toList)).toList toks' last' := by
    rw [String.toList_ofList]
    exact hcut'
  rw [reading_ofText hcut, reading_ofText hcut'']
  exact Scan.finish_tokens (State.scan_tokens hcut.not_end htoks (.form .nil) t t') hlast

/-- A failure that shows at a token is given with the forms before it. -/
theorem parseAll_of_failure {text : String} {t : SymbolTable} {failure : Option Failure}
    (h : (ofText text t).reading.failure = failure)
    (hread : ∀ e ∈ failure, ∃ err, e = .read err) :
    ∃ forms, (ofText text t).parseAll.1 = .ok ⟨forms, failure⟩ := by
  rw [parseAll_fst, Reading.parsed, h]
  cases failure with
  | none => exact ⟨_, rfl⟩
  | some e =>
    obtain ⟨err, rfl⟩ := hread e rfl
    exact ⟨_, rfl⟩

/-- For any other failure reading a text is given up. -/
theorem parseAll_of_fault {text : String} {t : SymbolTable} {e : Failure}
    (h : (ofText text t).reading.failure = some e) (he : ∀ err, e ≠ .read err) :
    (ofText text t).parseAll.1 = .error e := by
  obtain ⟨err, tok, rfl, -⟩ | hfaults := failure_cases h
  · exact absurd rfl (he err)
  · exact (parseAll_eq_error_iff text t e).mpr hfaults

end Reader

namespace Diagnostic

/-- `Agrees place published loaded`: what is published for a text says the same as what loading it
gives. There is no diagnostic and no failure, or one diagnostic with the message of the failure, at
the place that belongs to the place of its token. Or else both are given up for the same. -/
inductive Agrees (place : Position → Position → Prop) :
    Except Failure (List Diagnostic) → Except LoadError Reader.Parsed → Prop where
  | clean {forms} : Agrees place (.ok []) (.ok ⟨forms, none⟩)
  | failed {forms d err tok} : err.token? = some tok → d.message = err.text →
      place d.start tok.start → Agrees place (.ok [d]) (.ok ⟨forms, some (.read err)⟩)
  | stopped {e} : Agrees place (.error e) (.error (.stopped e))

theorem Agrees.mono {place place' : Position → Position → Prop}
    {published : Except Failure (List Diagnostic)} {loaded : Except LoadError Reader.Parsed}
    (h : Agrees place published loaded) (hle : ∀ p q, place p q → place' p q) :
    Agrees place' published loaded := by
  cases h with
  | clean => exact .clean
  | failed htok hmessage hplace => exact .failed htok hmessage (hle _ _ hplace)
  | stopped => exact .stopped

/-- **Two readings agree if what stops them is alike.** -/
theorem agrees_of_failures {place : Position → Position → Prop} {text text' : String}
    {t : SymbolTable}
    (h : Option.Rel (FailureAlike place) (Reader.ofText text).reading.failure
      (Reader.ofText text' t).reading.failure) :
    Agrees place (ofText text) ((Reader.ofText text' t).parseAll.1.mapError .stopped) := by
  rw [ofText]
  generalize hfailure : (Reader.ofText text).reading.failure = failure at h
  generalize hfailure' : (Reader.ofText text' t).reading.failure = failure' at h
  cases h with
  | none =>
    obtain ⟨forms, hparsed⟩ := Reader.parseAll_of_failure hfailure (by simp)
    obtain ⟨forms', hparsed'⟩ := Reader.parseAll_of_failure hfailure' (by simp)
    rw [hparsed, hparsed']
    exact .clean
  | some he =>
    cases he with
    | @read err err' tok tok' htok htok' htext hplace =>
      obtain ⟨forms, hparsed⟩ := Reader.parseAll_of_failure hfailure (by simp)
      obtain ⟨forms', hparsed'⟩ := Reader.parseAll_of_failure hfailure' (by simp)
      rw [hparsed, hparsed']
      have hdiagnostic := ofFailure_read htok
      refine .failed htok' ?_ ?_
      · rw [hdiagnostic]
        exact htext.symm
      · rw [hdiagnostic]
        exact hplace
    | other hother =>
      rw [Reader.parseAll_of_fault hfailure hother, Reader.parseAll_of_fault hfailure' hother]
      exact .stopped

end Diagnostic

/-! ### Files -/

namespace SourceRoots

open Diagnostic Text

variable {roots : SourceRoots} {name : String} {path : Path} {text : String}

/-- A file that holds a text is read as that text, its line ends being line feeds. -/
theorem text_of_toUTF8 (hpath : roots.resolve name = .ok (some path))
    (hfile : roots.files.contents? path = some text.toUTF8) :
    roots.text name = .ok (String.ofList (normalizeNewlines text.toList)) := by
  have hdecode : (roots.files.contents? path).bind String.fromUTF8? = some text := by
    rw [hfile]
    exact dif_pos text.isValidUTF8
  rw [SourceRoots.text, hpath]
  simp only [bind, Except.bind, hdecode]
  rfl

/-- Loading a file that holds a text is reading it, its line ends being line feeds. -/
theorem load_of_toUTF8 (hpath : roots.resolve name = .ok (some path))
    (hfile : roots.files.contents? path = some text.toUTF8) (t : SymbolTable) :
    (roots.load name t).1 =
      (Reader.ofText (String.ofList (normalizeNewlines text.toList)) t).parseAll.1.mapError
        .stopped := by
  rw [load, text_of_toUTF8 hpath hfile]
  dsimp only
  rcases (Reader.ofText (String.ofList (normalizeNewlines text.toList)) t).parseAll with
    ⟨e | parsed, r⟩
  · rfl
  · rfl

/-- **An editor and a loader agree on a text.** Let the file of a program hold the text that an
editor has open, and let any names be known to the loader.

* The loader says what the editor would say of the text with all line ends written as line feeds.
* It says what the editor does say, at the same place of the text, if the text keeps its tokens.
* The place has the same line and column for both if besides no carriage return stands alone; and
  a text keeps its tokens then, unless one of its literals is a carriage return. -/
theorem load_agrees (hpath : roots.resolve name = .ok (some path))
    (hfile : roots.files.contents? path = some text.toUTF8) (t : SymbolTable) :
    Agrees Eq (ofText (String.ofList (normalizeNewlines text.toList))) (roots.load name t).1 ∧
    (KeepsTokens text.toList →
      Agrees (SamePlace text.toList) (ofText text) (roots.load name t).1) ∧
    (KeepsTokens text.toList → NoLoneReturn text.toList →
      Agrees Eq (ofText text) (roots.load name t).1) ∧
    (NoLoneReturn text.toList →
      (∀ before after, text.toList ≠ before ++ '#' :: '\\' :: '\r' :: after) →
      KeepsTokens text.toList) := by
  rw [load_of_toUTF8 hpath hfile]
  have hkept (h : KeepsTokens text.toList) := agrees_of_failures (Reader.failure_normalized h ∅ t)
  refine ⟨?_, hkept, ?_, keepsTokens_of_noLoneReturn⟩
  · apply agrees_of_failures
    rw [← Reader.failure_elsewhere _ ∅ t]
    exact Reader.failure_alike_self _ ∅
  · intro h hlone
    exact (hkept h).mono fun p q hplace => hplace.eq hlone

/-! ### Files with lone carriage returns -/

/-- A directory with one file in it. -/
def ofContents (contents : String) : SourceRoots where
  files := ⟨.directory [("a.lisp", .file contents.toUTF8)], []⟩

theorem resolve_ofContents (contents : String) :
    (ofContents contents).resolve "a.lisp" = .ok (some ⟨.relative, ["a.lisp"]⟩) := rfl

theorem contents?_ofContents (contents : String) :
    (ofContents contents).files.contents? ⟨.relative, ["a.lisp"]⟩ = some contents.toUTF8 := rfl

/-- A string may hold a carriage return alone. The editor and the loader then count lines
differently, and still tell that a list is not closed, and where. -/
theorem load_agrees_quotedReturn :
    (ofContents "\"\r\"(").resolve "a.lisp" = .ok (some ⟨.relative, ["a.lisp"]⟩) ∧
    (ofContents "\"\r\"(").files.contents? ⟨.relative, ["a.lisp"]⟩ = some "\"\r\"(".toUTF8 ∧
    KeepsTokens "\"\r\"(".toList ∧
    ofText "\"\r\"(" = .ok [⟨⟨0, 4⟩, ⟨0, 5⟩, "Unexpected end of input inside list"⟩] ∧
    ∃ forms err tok, ((ofContents "\"\r\"(").load "a.lisp" ∅).1 = .ok ⟨forms, some (.read err)⟩ ∧
      err.token? = some tok ∧ err.text = "Unexpected end of input inside list" ∧
      SamePlace "\"\r\"(".toList ⟨0, 4⟩ tok.start := by
  have hstring : Lexeme.Written .string ['"', '\r', '"'] ['('] :=
    @Lexeme.Written.string ['\r'] _ (.plain (by decide) (by decide) .nil)
  have hopening : Lexeme.Written (.mark (.opening .round)) ['('] [] := .mark rfl (by decide)
  have hkeeps : KeepsTokens "\"\r\"(".toList :=
    .lexeme hstring trivial (.lexeme hopening trivial .nil)
  have hcut : CutInto {} "\"\r\"(".toList
      [{ kind := .string, text := "\r", length := 3 },
        { kind := .opening .round, text := "(", start := ⟨0, 3⟩, length := 1 }]
      (.ok (endAt ⟨0, 4⟩)) := .of_tokens (by decide +kernel)
  have hofText : ofText "\"\r\"(" =
      .ok [⟨⟨0, 4⟩, ⟨0, 5⟩, "Unexpected end of input inside list"⟩] := by
    rw [ofText, Reader.parseAll_fst, Reader.reading_ofText hcut]
    rfl
  have hagrees := (load_agrees (resolve_ofContents _) (contents?_ofContents _) ∅).2.1 hkeeps
  refine ⟨rfl, rfl, hkeeps, hofText, ?_⟩
  rw [hofText] at hagrees
  generalize ((ofContents "\"\r\"(").load "a.lisp" ∅).1 = loaded at hagrees ⊢
  cases hagrees with
  | failed htok hmessage hplace => exact ⟨_, _, _, rfl, htok, hmessage.symm, hplace⟩

/-- A carriage return ends a comment for the loader only. What stands after it in the line is read
there, and refused, while the editor has nothing to tell. -/
theorem not_agrees_returnInComment :
    ofText ";\r)" = .ok [] ∧
    ((ofContents ";\r)").load "a.lisp" ∅).1 = .ok ⟨[], some (.read (.noForm
      { kind := .closing .round, text := ")", start := ⟨1, 0⟩, length := 1 }))⟩ ∧
    ¬Agrees (fun _ _ => True) (ofText ";\r)") ((ofContents ";\r)").load "a.lisp" ∅).1 := by
  have hcut : CutInto {} ";\r)".toList [] (.ok (endAt ⟨0, 3⟩)) := .of_tokens (by decide +kernel)
  have hcut' : CutInto {} (String.ofList (normalizeNewlines ";\r)".toList)).toList
      [{ kind := .closing .round, text := ")", start := ⟨1, 0⟩, length := 1 }]
      (.ok (endAt ⟨1, 1⟩)) := .of_tokens (by decide +kernel)
  have hofText : ofText ";\r)" = .ok [] := by
    rw [ofText, Reader.parseAll_fst, Reader.reading_ofText hcut]
    rfl
  have hload : ((ofContents ";\r)").load "a.lisp" ∅).1 = .ok ⟨[], some (.read (.noForm
      { kind := .closing .round, text := ")", start := ⟨1, 0⟩, length := 1 }))⟩ := by
    rw [load_of_toUTF8 (resolve_ofContents _) (contents?_ofContents _), Reader.parseAll_fst,
      Reader.reading_ofText hcut']
    rfl
  refine ⟨hofText, hload, ?_⟩
  rw [hofText, hload]
  intro hagrees
  cases hagrees

end SourceRoots

end LispCore
