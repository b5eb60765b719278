import LispCore.Proofs.Diagnostic.Agreement
import LispCore.Proofs.Source.Location

/-!
Where a program is found.

A program name stands for the first file among some paths: the name itself, and below each directory
of the search path the name with its suffix. What the directories are is said by how the text of the
search path is written (`Segments`, `Named`), and what the suffix is by how a name is (`Suffixed`).

* `Named.searchPath_eq` — the directories that a search path names;
* `Path.hasSuffix_iff` — which components have a suffix;
* `resolve_eq_some_iff`, `resolve_eq_none_iff` — what a name stands for;
* `load_of_resolve_none`, `load_of_resolve_some` — what is loaded;
* `resolve_repadded`, `resolve_append`, `resolve_adding` — blanks in the search path do not matter,
  nor do more directories at its end where a program was found, and one more file can only be found
  itself;
* `resolve_first` — the main statement.
-/

namespace LispCore

open Text

/-! ### Blanks around a text -/

namespace Text

variable {cs left core right : List Char}

/-- A text is a run of some characters and what begins with another one. -/
theorem exists_run (p : Char → Bool) (cs : List Char) :
    ∃ run rest, cs = run ++ rest ∧ (∀ c ∈ run, p c = true) ∧ ∀ c ∈ rest.head?, p c = false :=
  ⟨cs.takeWhile p, cs.dropWhile p, List.takeWhile_append_dropWhile.symm, of_mem_takeWhile,
    head?_dropWhile⟩

/-- A text that is not empty and has no blank at its two ends. -/
structure Tight (core : List Char) : Prop where
  ne_nil : core ≠ []
  head : ∀ c ∈ core.head?, isBlank c = false
  last : ∀ c ∈ core.getLast?, isBlank c = false

/-- Nothing is left of blanks. -/
theorem trim_of_blank (h : ∀ c ∈ cs, isBlank c = true) : trim cs = [] := by
  have hdrop : (cs ++ []).dropWhile isBlank = [] := dropWhile_run h (by simp)
  rw [List.append_nil] at hdrop
  rw [trim, trimBy, hdrop]
  rfl

/-- The blanks around a text are taken off. -/
theorem trim_padded (hleft : ∀ c ∈ left, isBlank c = true) (hcore : Tight core)
    (hright : ∀ c ∈ right, isBlank c = true) : trim (left ++ core ++ right) = core := by
  have hfront : (left ++ core ++ right).dropWhile isBlank = core ++ right := by
    rw [List.append_assoc]
    refine dropWhile_run hleft ?_
    rw [List.head?_append_of_ne_nil _ hcore.ne_nil]
    exact hcore.head
  have hback : (right.reverse ++ core.reverse).dropWhile isBlank = core.reverse := by
    refine dropWhile_run (fun c hc => hright c (List.mem_reverse.mp hc)) ?_
    rw [List.head?_reverse]
    exact hcore.last
  rw [trim, trimBy, hfront, List.reverse_append, hback, List.reverse_reverse]

/-- A text is blank, or there are blanks around a text that has none at its ends. -/
theorem exists_tight (cs : List Char) : (∀ c ∈ cs, isBlank c = true) ∨
    ∃ left core right, cs = left ++ core ++ right ∧ (∀ c ∈ left, isBlank c = true) ∧ Tight core ∧
      ∀ c ∈ right, isBlank c = true := by
  obtain ⟨left, rest, rfl, hleft, hrest⟩ := exists_run isBlank cs
  obtain ⟨right, core, hsplit, hright, hcore⟩ := exists_run isBlank rest.reverse
  obtain rfl : rest = core.reverse ++ right.reverse := by
    rw [← List.reverse_append, ← hsplit, List.reverse_reverse]
  have hright' : ∀ c ∈ right.reverse, isBlank c = true := fun c hc =>
    hright c (List.mem_reverse.mp hc)
  by_cases hempty : core = []
  · subst hempty
    left
    intro c hc
    rw [List.reverse_nil, List.nil_append] at hc
    exact (List.mem_append.mp hc).elim (hleft c) (hright' c)
  · right
    have hne : core.reverse ≠ [] := List.reverse_ne_nil_iff.mpr hempty
    refine ⟨left, core.reverse, right.reverse, (List.append_assoc ..).symm, hleft, ⟨hne, ?_, ?_⟩,
      hright'⟩
    · rwa [List.head?_append_of_ne_nil _ hne] at hrest
    · rwa [List.getLast?_reverse]

/-! ### Segments -/

/-- A text is cut as the library cuts it. -/
theorem splitOn_eq (sep : Char) (cs : List Char) : splitOn sep cs = cs.splitOn sep := by
  induction cs with
  | nil => rfl
  | cons c cs ih =>
    have hcons : (c :: cs).splitOn sep =
        if (c == sep) = true then [] :: cs.splitOn sep else (cs.splitOn sep).modifyHead (c :: ·) :=
      List.splitOnP_cons_eq_if_modifyHead c cs
    rw [splitOn, ih, hcons]
    simp only [beq_iff_eq]
    split
    · rfl
    · cases h : cs.splitOn sep with
      | nil => exact absurd h (List.splitOnP_ne_nil _ _)
      | cons piece pieces => rfl

theorem splitOn_ne_nil (sep : Char) (cs : List Char) : splitOn sep cs ≠ [] := by
  rw [splitOn_eq]
  exact List.splitOnP_ne_nil _ _

theorem splitOn_append_cons (sep : Char) (cs ds : List Char) :
    splitOn sep (cs ++ sep :: ds) = splitOn sep cs ++ splitOn sep ds := by
  rw [splitOn_eq, splitOn_eq, splitOn_eq]
  exact List.splitOnP_append_cons cs ds (beq_self_eq_true sep)

/-- No piece has a separator in it. -/
theorem not_mem_of_mem_splitOn (sep : Char) (cs : List Char) :
    ∀ piece ∈ splitOn sep cs, sep ∉ piece := by
  fun_induction splitOn sep cs with
  | case1 => simp
  | case2 cs ih => simpa using ih
  | case3 c cs hne hnil => exact absurd hnil (splitOn_ne_nil sep cs)
  | case4 c cs hne first pieces hsplit ih =>
    rw [hsplit] at ih
    intro piece hpiece
    obtain rfl | hpiece := List.mem_cons.mp hpiece
    · intro hsep
      obtain rfl | hsep := List.mem_cons.mp hsep
      · exact hne rfl
      · exact ih first List.mem_cons_self hsep
    · exact ih piece (List.mem_cons_of_mem _ hpiece)

end Text

/-- `Segments text segs`: a text is some segments with colons between them. -/
structure Segments (text : String) (segs : List (List Char)) : Prop where
  text_eq : text.toList = [':'].intercalate segs
  ne_nil : segs ≠ []
  no_colon : ∀ seg ∈ segs, ':' ∉ seg

/-- Segments that name directories: blank ones name none, and the blanks around a name do not belong
to it. -/
inductive Named : List (List Char) → List Path → Prop where
  | nil : Named [] []
  | blank {seg : List Char} {segs : List (List Char)} {dirs : List Path} :
      (∀ c ∈ seg, isBlank c = true) → Named segs dirs → Named (seg :: segs) dirs
  | name {left core right : List Char} {segs : List (List Char)} {dirs : List Path} :
      (∀ c ∈ left, isBlank c = true) → Tight core → (∀ c ∈ right, isBlank c = true) →
      Named segs dirs →
      Named ((left ++ core ++ right) :: segs) (.ofText (String.ofList core) :: dirs)

/-- `Repadded segs segs'`: blank segments are inserted, and blanks around the others. -/
inductive Repadded : List (List Char) → List (List Char) → Prop where
  | nil : Repadded [] []
  | blank {seg : List Char} {segs segs' : List (List Char)} : (∀ c ∈ seg, isBlank c = true) →
      Repadded segs segs' → Repadded segs (seg :: segs')
  | padded {left seg right : List Char} {segs segs' : List (List Char)} :
      (∀ c ∈ left, isBlank c = true) → (∀ c ∈ right, isBlank c = true) → Repadded segs segs' →
      Repadded (seg :: segs) ((left ++ seg ++ right) :: segs')

section Segments

variable {text text' : String} {segs segs' : List (List Char)} {dirs defaults : List Path}

theorem Segments.splitOn_eq (h : Segments text segs) : splitOn ':' text.toList = segs := by
  rw [Text.splitOn_eq, h.text_eq]
  exact List.splitOn_intercalate ':' h.no_colon h.ne_nil

theorem segments_splitOn (text : String) : Segments text (splitOn ':' text.toList) := by
  refine ⟨?_, splitOn_ne_nil _ _, not_mem_of_mem_splitOn _ _⟩
  rw [Text.splitOn_eq, List.intercalate_splitOn]

theorem exists_named (segs : List (List Char)) : ∃ dirs, Named segs dirs := by
  induction segs with
  | nil => exact ⟨[], .nil⟩
  | cons seg segs ih =>
    obtain ⟨dirs, hdirs⟩ := ih
    obtain hblank | ⟨left, core, right, rfl, hleft, hcore, hright⟩ := exists_tight seg
    · exact ⟨dirs, .blank hblank hdirs⟩
    · exact ⟨_, .name hleft hcore hright hdirs⟩

theorem Named.map_trim_eq (h : Named segs dirs) :
    ((segs.map trim).filter (· ≠ [])).map (fun name => .ofText (String.ofList name)) = dirs := by
  induction h with
  | nil => rfl
  | blank hblank _ ih => simpa [trim_of_blank hblank] using ih
  | name hleft hcore hright _ ih =>
    rw [List.map_cons, trim_padded hleft hcore hright,
      List.filter_cons_of_pos (by simpa using hcore.ne_nil), List.map_cons, ih]

theorem searchPath_eq (htext : text ≠ "") (defaults : List Path) :
    searchPath (some text) defaults =
      (((splitOn ':' text.toList).map trim).filter (· ≠ [])).map
        fun name => .ofText (String.ofList name) := by
  rw [searchPath, Option.getD_some]
  split
  · exact absurd rfl htext
  · rfl

/-- **The directories that a list of segments names.** -/
theorem Named.searchPath_eq (h : Named segs dirs) (hsegs : Segments text segs) (htext : text ≠ "")
    (defaults : List Path) : searchPath (some text) defaults = dirs := by
  rw [LispCore.searchPath_eq htext, hsegs.splitOn_eq]
  exact h.map_trim_eq

/-- More segments at the end name more directories at the end. -/
theorem searchPath_append (htext : text ≠ "") (more : String) (defaults : List Path) :
    ∃ dirs, searchPath (some (text ++ ":" ++ more)) defaults =
      searchPath (some text) defaults ++ dirs := by
  have hlong : text ++ ":" ++ more ≠ "" := by simp
  have hchars : (text ++ ":" ++ more).toList = text.toList ++ ':' :: more.toList := by simp
  rw [searchPath_eq htext, searchPath_eq hlong, hchars, splitOn_append_cons, List.map_append,
    List.filter_append, List.map_append]
  exact ⟨_, rfl⟩

/-- **The blanks in a list of segments do not matter.** -/
theorem Named.repadded (h : Named segs dirs) (hpad : Repadded segs segs') : Named segs' dirs := by
  induction hpad generalizing dirs with
  | nil => exact h
  | blank hblank _ ih => exact .blank hblank (ih h)
  | @padded left seg right segs segs' hleft hright _ ih =>
    generalize hall : seg :: segs = all at h
    cases h with
    | nil => cases hall
    | blank hblank h =>
      cases hall
      refine .blank ?_ (ih h)
      intro c hc
      simp only [List.mem_append] at hc
      exact hc.elim (·.elim (hleft c) (hblank c)) (hright c)
    | @name left' core right' _ _ hleft' hcore hright' h =>
      cases hall
      have hfirst : ∀ c ∈ left ++ left', isBlank c = true := fun c hc =>
        (List.mem_append.mp hc).elim (hleft c) (hleft' c)
      have hlast : ∀ c ∈ right' ++ right, isBlank c = true := fun c hc =>
        (List.mem_append.mp hc).elim (hright' c) (hright c)
      have hnamed := Named.name hfirst hcore hlast (ih h)
      simpa only [List.append_assoc] using hnamed

theorem Segments.eq_empty_iff (h : Segments text segs) : text = "" ↔ segs = [[]] := by
  constructor
  · rintro rfl
    exact h.splitOn_eq.symm
  · rintro rfl
    exact String.toList_inj.mp h.text_eq

/-- A text does not get empty when blanks are inserted. -/
theorem Segments.ne_empty_of_repadded (h : Segments text segs) (h' : Segments text' segs')
    (hpad : Repadded segs segs') (htext : text ≠ "") : text' ≠ "" := by
  rw [Ne, h.eq_empty_iff] at htext
  rw [Ne, h'.eq_empty_iff]
  rintro rfl
  generalize hone : ([[]] : List (List Char)) = one at hpad
  cases hpad with
  | nil => cases hone
  | blank _ hrest =>
    cases hone
    cases hrest
    exact h.ne_nil rfl
  | @padded left seg right segs _ _ _ hrest =>
    obtain ⟨hseg, rfl⟩ := List.cons.inj hone
    cases hrest
    have hnil : seg = [] := by
      have happend := hseg.symm
      simp only [List.append_eq_nil_iff] at happend
      exact happend.1.2
    exact htext (by rw [hnil])

end Segments

/-! ### Names of programs -/

namespace Path

/-- A component has a suffix: what follows its last dot, if something does and something is before
the dot. -/
def Suffixed (component : String) : Prop :=
  ∃ stem suffix, component = stem ++ "." ++ suffix ∧ stem ≠ "" ∧ suffix ≠ "" ∧ '.' ∉ suffix.toList

/-- A component, backwards, that is cut before its first dot. -/
theorem hasSuffix_of_reverse {component : String} {after rest : List Char}
    (h : component.toList.reverse = after ++ rest) (hafter : ∀ c ∈ after, c ≠ '.')
    (hrest : ∀ c ∈ rest.head?, c = '.') :
    hasSuffix component = true ↔ after ≠ [] ∧ 1 < rest.length := by
  have htake : component.toList.reverse.takeWhile (· ≠ '.') = after := by
    rw [h]
    exact takeWhile_run (fun c hc => decide_eq_true (hafter c hc)) fun c hc =>
      decide_eq_false (not_not_intro (hrest c hc))
  have hlength : component.length = after.length + rest.length := by
    rw [← String.length_toList, ← List.length_reverse, h, List.length_append]
  rw [hasSuffix, htake, hlength]
  simp only [Bool.and_eq_true, bne_iff_ne, decide_eq_true_eq, ← List.length_pos_iff]
  omega

theorem hasSuffix_iff (component : String) : hasSuffix component = true ↔ Suffixed component := by
  constructor
  · intro h
    obtain ⟨after, rest, hsplit, hafter, hrest⟩ :=
      exists_run (· ≠ '.') component.toList.reverse
    simp only [decide_eq_true_eq, decide_eq_false_iff_not, Decidable.not_not] at hafter hrest
    obtain ⟨hne, hlength⟩ := (hasSuffix_of_reverse hsplit hafter hrest).mp h
    cases rest with
    | nil => exact absurd hlength (by simp)
    | cons dot stem =>
      obtain rfl : dot = '.' := hrest dot rfl
      have hstem : stem ≠ [] := by
        rintro rfl
        simp at hlength
      refine ⟨String.ofList stem.reverse, String.ofList after.reverse, ?_, ?_, ?_, ?_⟩
      · rw [← String.toList_inj, ← List.reverse_inj, hsplit]
        simp
      · simpa using hstem
      · simpa using hne
      · intro hdot
        rw [String.toList_ofList, List.mem_reverse] at hdot
        exact hafter '.' hdot rfl
  · rintro ⟨stem, suffix, rfl, hstem, hsuffix, hdot⟩
    have hsplit : (stem ++ "." ++ suffix).toList.reverse =
        suffix.toList.reverse ++ '.' :: stem.toList.reverse := by simp
    have hafter : ∀ c ∈ suffix.toList.reverse, c ≠ '.' := by
      rintro c hc rfl
      exact hdot (List.mem_reverse.mp hc)
    refine (hasSuffix_of_reverse hsplit hafter (by simp)).mpr ⟨by simpa using hsuffix, ?_⟩
    have hlength : 0 < stem.toList.length := List.length_pos_iff.mpr (by simpa using hstem)
    simpa using hlength

/-- `p.Completed rel`: a path gets the suffix of programs at its last component, or has a suffix
there. -/
inductive Completed (p : Path) : Path → Prop where
  | suffixed {front : List String} {last : String} : p.parts = front ++ [last] → Suffixed last →
      Completed p p
  | bare {front : List String} {last : String} : p.parts = front ++ [last] → ¬Suffixed last →
      Completed p { p with parts := front ++ [last ++ ".lisp"] }

/-- A path with a last component can be completed. -/
theorem exists_completed {p : Path} (h : p.parts ≠ []) :
    ∃ rel, p.withDefaultSuffix? sourceSuffix = some rel ∧ Completed p rel := by
  obtain ⟨front, last, hparts⟩ := (List.eq_nil_or_concat p.parts).resolve_left h
  rw [List.concat_eq_append] at hparts
  rw [withDefaultSuffix?, hparts, List.getLast?_concat, List.dropLast_concat, Option.map_some]
  refine ⟨_, rfl, ?_⟩
  split
  next hsuffix => exact .suffixed hparts ((hasSuffix_iff last).mp hsuffix)
  next hsuffix => exact .bare hparts fun hsuffixed => hsuffix ((hasSuffix_iff last).mpr hsuffixed)

end Path

/-! ### The first file -/

/-- The paths that a program name may stand for. -/
def candidates (path rel : Path) (dirs : List Path) : List Path := path :: dirs.map (·.join rel)

/-- `files.FirstFile ps p`: the first of some paths that leads to a file. -/
def FileSystem.FirstFile (files : FileSystem) (ps : List Path) (p : Path) : Prop :=
  ∃ before after, ps = before ++ p :: after ∧ (∃ bytes, files.Holds p bytes) ∧
    ∀ q ∈ before, ∀ bytes, ¬files.Holds q bytes

/-- Where more is found than before, the first thing found is what it was before or is new. -/
theorem find?_eq_or {α : Type} {p p' : α → Bool} {new : α → Prop}
    (h : ∀ x, p' x = true ↔ p x = true ∨ new x) (xs : List α) :
    xs.find? p' = xs.find? p ∨ ∃ x, xs.find? p' = some x ∧ new x := by
  induction xs with
  | nil => exact .inl rfl
  | cons x xs ih =>
    rw [List.find?_cons, List.find?_cons]
    cases hx' : p' x with
    | true =>
      obtain hx | hnew := (h x).mp hx'
      · exact .inl (by rw [hx])
      · exact .inr ⟨x, rfl, hnew⟩
    | false =>
      have hx : p x = false := Bool.eq_false_iff.mpr fun hx => by simp [(h x).mpr (.inl hx)] at hx'
      rw [hx]
      exact ih

namespace SourceRoots

variable {roots : SourceRoots} {name text text' : String} {rel p : Path} {dirs : List Path}
  {segs segs' : List (List Char)} {bytes : ByteArray}

theorem resolve_eq (hrel : (Path.ofText name).withDefaultSuffix? sourceSuffix = some rel) :
    roots.resolve name =
      .ok ((candidates (.ofText name) rel roots.directories).find? roots.files.isFile) := by
  rw [resolve, candidates, List.find?_cons, hrel]
  cases roots.files.isFile (.ofText name) <;> rfl

/-- **A name stands for the first file.** -/
theorem resolve_eq_some_iff
    (hrel : (Path.ofText name).withDefaultSuffix? sourceSuffix = some rel) :
    roots.resolve name = .ok (some p) ↔
      roots.files.FirstFile (candidates (.ofText name) rel roots.directories) p := by
  rw [resolve_eq hrel, Except.ok.injEq, List.find?_eq_some_iff_append]
  simp only [Bool.not_eq_true', Bool.eq_false_iff, Ne, FileSystem.isFile_iff, not_exists]
  constructor
  · rintro ⟨hfile, before, after, heq, hbefore⟩
    exact ⟨before, after, heq, hfile, hbefore⟩
  · rintro ⟨before, after, heq, hfile, hbefore⟩
    exact ⟨hfile, before, after, heq, hbefore⟩

/-- A name stands for nothing if there is no file. -/
theorem resolve_eq_none_iff
    (hrel : (Path.ofText name).withDefaultSuffix? sourceSuffix = some rel) :
    roots.resolve name = .ok none ↔
      ∀ q ∈ candidates (.ofText name) rel roots.directories, ∀ bytes,
        ¬roots.files.Holds q bytes := by
  rw [resolve_eq hrel, Except.ok.injEq, List.find?_eq_none]
  simp only [FileSystem.isFile_iff, not_exists]

/-! ### What is loaded -/

/-- What is read of the text of a program, with the names that are known then. -/
def readSource (source : String) (t : SymbolTable) :
    Except LoadError Reader.Parsed × SymbolTable :=
  let (parsed, r) := (Reader.ofText (String.ofList (normalizeNewlines source.toList)) t).parseAll
  (parsed.mapError .stopped, r.symbols)

theorem load_of_resolve_none (h : roots.resolve name = .ok none) (t : SymbolTable) :
    roots.load name t = (.error (.notFound name), t) := by
  rw [load, SourceRoots.text, h]
  rfl

theorem isFile_of_resolve (h : roots.resolve name = .ok (some p)) :
    roots.files.isFile p = true := by
  rw [resolve] at h
  split at h
  next hfile =>
    cases h
    exact hfile
  next =>
    split at h
    next => cases h
    next => exact List.find?_some (Except.ok.inj h)

/-- A file that is found is read, if it is a text. -/
theorem load_of_resolve_some (h : roots.resolve name = .ok (some p)) (t : SymbolTable) :
    ∃ bytes, roots.files.Holds p bytes ∧
      (∀ source : String, bytes = source.toUTF8 → roots.load name t = readSource source t) ∧
      ((∀ source : String, bytes ≠ source.toUTF8) →
        roots.load name t = (.error (.notUtf8 p), t)) := by
  obtain ⟨bytes, hbytes⟩ := Option.isSome_iff_exists.mp (isFile_of_resolve h)
  refine ⟨bytes, FileSystem.contents?_eq_some_iff.mp hbytes, ?_, ?_⟩
  · rintro source rfl
    rw [load, text_of_toUTF8 h hbytes, readSource]
    dsimp only
    rcases (Reader.ofText (String.ofList (normalizeNewlines source.toList)) t).parseAll with
      ⟨e | parsed, r⟩
    · rfl
    · rfl
  · intro hnone
    have hdecode : (roots.files.contents? p).bind String.fromUTF8? = none := by
      rw [hbytes, Option.bind_some]
      exact dif_neg fun hvalid => hnone (.fromUTF8 bytes hvalid) rfl
    have htext : roots.text name = .error (.notUtf8 p) := by
      rw [SourceRoots.text, h]
      simp only [bind, Except.bind, hdecode]
      rfl
    rw [load, htext]

theorem load_fst_eq_notFound_iff
    (hrel : (Path.ofText name).withDefaultSuffix? sourceSuffix = some rel) (t : SymbolTable) :
    (roots.load name t).1 = .error (.notFound name) ↔ roots.resolve name = .ok none := by
  constructor
  · intro hload
    have hresolve : roots.resolve name = _ := resolve_eq hrel
    cases hfind : (candidates (.ofText name) rel roots.directories).find? roots.files.isFile with
    | none => rw [hresolve, hfind]
    | some p =>
      rw [hfind] at hresolve
      obtain ⟨bytes, -, htext, hnone⟩ := load_of_resolve_some hresolve t
      by_cases h : ∃ source : String, bytes = source.toUTF8
      · obtain ⟨source, hsource⟩ := h
        rw [htext source hsource, readSource] at hload
        generalize (Reader.ofText (String.ofList (normalizeNewlines source.toList)) t).parseAll =
          parsed at hload
        rcases parsed with ⟨e | parsed, r⟩ <;> cases hload
      · rw [hnone fun source hsource => h ⟨source, hsource⟩] at hload
        cases hload
  · intro h
    rw [load_of_resolve_none h]

/-! ### Other search paths and other files -/

theorem directories_eq (hlist : roots.list = some text) (htext : text ≠ "")
    (hsegs : Segments text segs) (hnamed : Named segs dirs) : roots.directories = dirs := by
  rw [directories, hlist, hnamed.searchPath_eq hsegs htext]

/-- **Blanks in the search path do not matter.** -/
theorem resolve_repadded (hlist : roots.list = some text) (htext : text ≠ "")
    (hsegs : Segments text segs) (hsegs' : Segments text' segs') (hpad : Repadded segs segs')
    (name : String) :
    ({ roots with list := some text' } : SourceRoots).resolve name = roots.resolve name := by
  obtain ⟨dirs, hnamed⟩ := exists_named segs
  have htext' := hsegs.ne_empty_of_repadded hsegs' hpad htext
  have hdirs :
      ({ roots with list := some text' } : SourceRoots).directories = roots.directories := by
    rw [directories_eq hlist htext hsegs hnamed]
    exact directories_eq rfl htext' hsegs' (hnamed.repadded hpad)
  rw [resolve, resolve, hdirs]

/-- **A program that was found is found again with more directories.** -/
theorem resolve_append (hrel : (Path.ofText name).withDefaultSuffix? sourceSuffix = some rel)
    (hlist : roots.list = some text) (htext : text ≠ "") (h : roots.resolve name = .ok (some p))
    (more : String) :
    ({ roots with list := some (text ++ ":" ++ more) } : SourceRoots).resolve name =
      .ok (some p) := by
  obtain ⟨dirs, hdirs⟩ := searchPath_append htext more [roots.files.workingPath]
  have hdirectories :
      ({ roots with list := some (text ++ ":" ++ more) } : SourceRoots).directories =
        roots.directories ++ dirs := by
    rw [directories, hdirs, directories, hlist]
  rw [resolve_eq hrel, Except.ok.injEq] at h ⊢
  rw [hdirectories, candidates, List.map_append, ← List.cons_append, List.find?_append]
  rw [candidates] at h
  rw [h]
  rfl

/-- **One more file is found itself or makes no difference.** -/
theorem resolve_adding (hrel : (Path.ofText name).withDefaultSuffix? sourceSuffix = some rel)
    {new : List String} {tree' : FileTree} (h : roots.files.tree.Adds new bytes tree') :
    ({ roots with files.tree := tree' } : SourceRoots).resolve name = roots.resolve name ∨
      ∃ p, ({ roots with files.tree := tree' } : SourceRoots).resolve name = .ok (some p) ∧
        ({ roots.files with tree := tree' } : FileSystem).LeadsTo p new := by
  rw [resolve_eq hrel, resolve_eq hrel]
  obtain hsame | ⟨p, hfind, hleads⟩ := find?_eq_or (fun p => FileSystem.isFile_adding h (p := p))
    (candidates (.ofText name) rel roots.directories)
  · exact .inl (congrArg Except.ok hsame)
  · exact .inr ⟨p, congrArg Except.ok hfind, hleads⟩

/-! ### What a program name stands for -/

/-- **A program name stands for the first file among some paths**, where there is a search path. The
directories are those that its segments name, in their order.

* What is found is the first of these paths that leads to a file: the name itself, or the name with
  its suffix below a directory. Nothing is found exactly if none of them leads to a file, and then
  and only then loading says so. Otherwise that very file is read, its line ends being line feeds,
  if it is a text.
* Blank segments and blanks around segments do not matter. What was found is found with more
  segments at the end. Where a file is put into a directory, the same is found as before or the new
  file. -/
theorem resolve_first (hlist : roots.list = some text) (htext : text ≠ "")
    (hname : (Path.ofText name).parts ≠ []) :
    ∃ segs dirs rel, Segments text segs ∧ Named segs dirs ∧ (Path.ofText name).Completed rel ∧
      (∀ p, roots.resolve name = .ok (some p) ↔
        roots.files.FirstFile (candidates (.ofText name) rel dirs) p) ∧
      (roots.resolve name = .ok none ↔
        ∀ q ∈ candidates (.ofText name) rel dirs, ∀ bytes, ¬roots.files.Holds q bytes) ∧
      (∀ t, (roots.load name t).1 = .error (.notFound name) ↔ roots.resolve name = .ok none) ∧
      (∀ p t, roots.resolve name = .ok (some p) → ∃ bytes, roots.files.Holds p bytes ∧
        (∀ source : String, bytes = source.toUTF8 → roots.load name t = readSource source t) ∧
        ((∀ source : String, bytes ≠ source.toUTF8) →
          roots.load name t = (.error (.notUtf8 p), t))) ∧
      (∀ text' segs', Segments text' segs' → Repadded segs segs' →
        ({ roots with list := some text' } : SourceRoots).resolve name = roots.resolve name) ∧
      (∀ p more, roots.resolve name = .ok (some p) →
        ({ roots with list := some (text ++ ":" ++ more) } : SourceRoots).resolve name =
          .ok (some p)) ∧
      ∀ dir entries new bytes, roots.files.tree.node? dir = some (.directory entries) →
        roots.files.tree.node? (dir ++ [new]) = none →
        let tree' := FileTree.insert (.file bytes) (dir ++ [new]) roots.files.tree
        let roots' : SourceRoots := { roots with files.tree := tree' }
        roots'.resolve name = roots.resolve name ∨
          ∃ p, roots'.resolve name = .ok (some p) ∧ roots'.files.LeadsTo p (dir ++ [new]) := by
  obtain ⟨rel, hrel, hcompleted⟩ := Path.exists_completed hname
  obtain ⟨dirs, hnamed⟩ := exists_named (splitOn ':' text.toList)
  have hsegs := segments_splitOn text
  obtain rfl := directories_eq hlist htext hsegs hnamed
  refine ⟨_, _, rel, hsegs, hnamed, hcompleted, fun p => resolve_eq_some_iff hrel,
    resolve_eq_none_iff hrel, load_fst_eq_notFound_iff hrel,
    fun p t h => load_of_resolve_some h t,
    fun text' segs' hsegs' hpad => resolve_repadded hlist htext hsegs hsegs' hpad name,
    fun p more h => resolve_append hrel hlist htext h more, ?_⟩
  intro dir entries new bytes hdir hnew
  exact resolve_adding hrel (FileTree.adds_insert hdir hnew bytes)

/-- A program in a directory of the search path, after a blank segment; its name alone leads to a
directory. -/
def shadowed : SourceRoots where
  files.tree := .directory
    [("a", .directory []), ("lib", .directory [("a.lisp", .file "1".toUTF8)])]
  files.workingDirectory := []
  list := some " :lib"

/-- The program is found in its directory, whatever follows in the search path, and also if a file
is put into the directory that has its name, unless it is that file. -/
theorem resolve_first_shadowed :
    shadowed.list = some " :lib" ∧ " :lib" ≠ "" ∧ (Path.ofText "a").parts ≠ [] ∧
    shadowed.resolve "a" = .ok (some ⟨.relative, ["lib", "a.lisp"]⟩) ∧
    (∀ more, ({ shadowed with list := some (" :lib" ++ ":" ++ more) } : SourceRoots).resolve "a" =
      .ok (some ⟨.relative, ["lib", "a.lisp"]⟩)) ∧
    ∀ bytes, let tree' := FileTree.insert (.file bytes) ["a", "b"] shadowed.files.tree
      let roots' : SourceRoots := { shadowed with files.tree := tree' }
      roots'.resolve "a" = shadowed.resolve "a" ∨
        ∃ p, roots'.resolve "a" = .ok (some p) ∧ roots'.files.LeadsTo p ["a", "b"] := by
  have hlist : shadowed.list = some " :lib" := rfl
  have htext : " :lib" ≠ "" := by decide
  have hname : (Path.ofText "a").parts ≠ [] := by decide +kernel
  have hfound : shadowed.resolve "a" = .ok (some ⟨.relative, ["lib", "a.lisp"]⟩) := rfl
  obtain ⟨_, _, _, -, -, -, -, -, -, -, -, happend, hadding⟩ := resolve_first hlist htext hname
  exact ⟨hlist, htext, hname, hfound, fun more => happend _ more hfound,
    fun bytes => hadding ["a"] [] "b" bytes rfl rfl⟩

end SourceRoots

end LispCore
