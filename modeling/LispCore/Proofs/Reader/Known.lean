import LispCore.Proofs.Reader.Alike
import LispCore.Proofs.Reader.Delivery
import LispCore.Proofs.Reader.Text
import LispCore.Proofs.Reader.Uses

/-!
Reading where all names are known.

A program that was read once may be read again, in the table that it left or in a later one. Nothing
is new then: the symbols are the same and the table does not change. In such a table a form is no
more than the value it denotes.

* `Expr.again` — a form read again denotes the very value it denoted;
* `Exprs.replace` — a form anywhere in a program, at any depth, may be replaced by another that
  denotes the same value;
* `reads_iff`, `Reads.again` — the same of readers and their sources.
-/

namespace LispCore

namespace SymbolTable

theorem insertAll_of_mem {t : SymbolTable} {names : List String} (h : ∀ n ∈ names, n ∈ t) :
    t.insertAll names = t := by
  induction names with
  | nil => rfl
  | cons name names ih =>
    obtain ⟨hname, hnames⟩ := List.forall_mem_cons.mp h
    rw [insertAll_cons, insert_of_mem hname, ih hnames]

/-- Tables whose names stand at the front of each other's are one. -/
theorem eq_of_isPrefix {t t' : SymbolTable} (h : t.names <+: t'.names) (h' : t'.names <+: t.names) :
    t = t' :=
  ext_names (h.eq_of_length (Nat.le_antisymm h.length_le h'.length_le))

end SymbolTable

namespace Reader

open TokenSource

variable {toks xs ys before after : List Token} {t t' T : SymbolTable} {v : Value}
  {vs : List Value}

/-! ### Forms read again -/

theorem Expr.names_isPrefixOf (h : Expr toks t v t') : t.names <+: t'.names := by
  obtain ⟨names, -, rfl⟩ := h.uses
  exact t.names_isPrefixOf_insertAll names

theorem Exprs.names_isPrefixOf (h : Exprs toks t vs t') : t.names <+: t'.names := by
  obtain ⟨names, -, rfl⟩ := h.uses
  exact t.names_isPrefixOf_insertAll names

theorem Atomic.again {tok : Token} (h : Atomic tok t v t') (hle : t'.names <+: T.names) :
    Atomic tok T v T := by
  cases h with
  | symbol hk =>
    have hagain := Atomic.symbol (t := T) hk
    rw [SymbolTable.intern_again hle] at hagain
    exact hagain
  | bool hk => exact .bool hk
  | integer hk hspell hmin hmax => exact .integer hk hspell hmin hmax
  | float hk hread => exact .float hk hread
  | string hk => exact .string hk
  | char hk htext => exact .char hk htext

mutual

/-- **A form that is read again denotes the very same value**, symbols included, and no name is new.
-/
theorem Expr.again {toks : List Token} {t t' T : SymbolTable} {v : Value} (h : Expr toks t v t')
    (hle : t'.names <+: T.names) : Expr toks T v T := by
  match h with
  | .atomic ha => exact .atomic (ha.again hle)
  | .marked hk hx =>
    have hagain := Expr.marked hk (hx.again ((SymbolTable.names_isPrefixOf_insert _ _).trans hle))
    rw [SymbolTable.intern_again hle] at hagain
    exact hagain
  | .list hk hxs hcl => exact .list hk (hxs.again hle) hcl
  | .dotted hk hxs hne hdot hx hcl =>
    exact .dotted hk (hxs.again (hx.names_isPrefixOf.trans hle)) hne hdot (hx.again hle) hcl
  | .array hk hxs hcl => exact .array hk (hxs.again hle) hcl
  | .hash hk hxs hcl =>
    have hagain :=
      Expr.hash hk (hxs.again ((SymbolTable.names_isPrefixOf_insert _ _).trans hle)) hcl
    rw [SymbolTable.intern_again hle] at hagain
    exact hagain

theorem Exprs.again {toks : List Token} {t t' T : SymbolTable} {vs : List Value}
    (h : Exprs toks t vs t') (hle : t'.names <+: T.names) : Exprs toks T vs T := by
  match h with
  | .nil => exact .nil
  | .cons hx hxs =>
    exact .cons (hx.again (hxs.names_isPrefixOf.trans hle)) (hxs.again hle)

end

/-- Tokens are one form in one way only. -/
theorem Expr.unique {w : Value} {t'' : SymbolTable} (h : Expr toks t v t')
    (h' : Expr toks t w t'') (hreg : ∀ tok ∈ toks, tok.Regular) : v = w ∧ t' = t'' := by
  have hrun := h.run_form hreg [] []
  rw [h'.run_form hreg [] []] at hrun
  cases hrun
  exact ⟨rfl, rfl⟩

/-- A form whose names are known denotes a value, and stays a form. -/
theorem FormUses.known {names : List String} (h : FormUses toks names) (hT : ∀ n ∈ names, n ∈ T) :
    ∃ v, Expr toks T v T := by
  obtain ⟨v, hx⟩ := h.expr T
  rw [SymbolTable.insertAll_of_mem hT] at hx
  exact ⟨v, hx⟩

theorem FormsUse.known {names : List String} (h : FormsUse toks names) (hT : ∀ n ∈ names, n ∈ T) :
    ∃ vs, Exprs toks T vs T := by
  obtain ⟨vs, hxs⟩ := h.exprs T
  rw [SymbolTable.insertAll_of_mem hT] at hxs
  exact ⟨vs, hxs⟩

/-- The names that a form uses are known where it adds none. -/
theorem Expr.mem_of_uses {names : List String} (h : Expr toks T v T)
    (hreg : ∀ tok ∈ toks, tok.Regular) (hnames : FormUses toks names) : ∀ n ∈ names, n ∈ T := by
  obtain ⟨w, hx⟩ := hnames.expr T
  intro n hn
  rw [(h.unique hx hreg).2]
  exact SymbolTable.mem_insertAll_iff.mpr (.inr hn)

/-! ### Forms inside a program -/

/-- Goes on scanning from what a step led to. -/
def scanFrom (toks : List Token) : Progress × SymbolTable → Scan
  | (.more st, t) => st.scan toks t
  | (.done v, t) => ((State.form []).scan toks t).after [v]
  | (.failed e, t) => ⟨[], .error e, t⟩

/-- The tokens of a form are scanned as its value, wherever a form may start. -/
theorem Expr.scan_form (h : Expr toks t v t') (hreg : ∀ tok ∈ toks, tok.Regular)
    (stack : List Frame) (rest : List Token) :
    (State.form stack).scan (toks ++ rest) t = scanFrom rest (complete v stack t') := by
  rw [State.scan_eq_run, h.run_form hreg]
  rcases complete v stack t' with ⟨st | w | e, t''⟩
  · rw [proceed_more, scanFrom, State.scan_eq_run]
  · rfl
  · rfl

theorem names_scanFrom (toks : List Token) (x : Progress × SymbolTable) :
    x.2.names <+: (scanFrom toks x).symbols.names := by
  obtain ⟨st | w | e, t⟩ := x
  · exact st.names_scan toks t
  · exact (State.form []).names_scan toks t
  · exact List.prefix_refl _

/-- **Tokens are forms exactly if scanning them leaves no form open.** -/
theorem scan_eq_iff (hend : ∀ tok ∈ toks, tok.kind ≠ .endOfInput) :
    (State.form []).scan toks t = ⟨vs, .ok (.form []), T⟩ ↔
      (∀ tok ∈ toks, tok.Regular) ∧ Exprs toks t vs T := by
  constructor
  · intro h
    have hstop : ((State.form []).scan toks t).stop = .ok (.form []) := by rw [h]
    refine ⟨State.regular_of_scan_ok hend hstop, ?_⟩
    have hscanned := State.scan_scanned hend t
    rw [h] at hscanned
    cases hscanned with
    | waiting hxs hst =>
      cases hst with
      | form hopen =>
        cases hopen
        rwa [List.append_nil]
  · rintro ⟨hreg, hxs⟩
    have hscan := hxs.scan_append hreg []
    rw [List.append_nil] at hscan
    rw [hscan]
    simp [State.scan, Scan.after]

/-- After a dotted tail no form starts. -/
theorem State.scan_close {tok : Token} (htok : tok.kind.startsForm = true) (toks : List Token)
    (elements : List Value) (tail : Value) (stack : List Frame) (t : SymbolTable) :
    ((State.close elements tail stack).scan (tok :: toks) t).stop =
      .error (.read (.extraAfterDottedTail tok)) := by
  have hclosing : tok.kind ≠ .closing .round := by
    intro h
    simp [h, TokenKind.startsForm] at htok
  simp [State.scan, State.step, hclosing]

/-- A form inside a program that adds no name is met where a form may start, and adds none. -/
theorem Exprs.around (h : Exprs (before ++ (xs ++ after)) T vs T)
    (hreg : ∀ tok ∈ before ++ (xs ++ after), tok.Regular) (hform : IsForm xs) :
    ∃ ws stack v, (State.form []).scan before T = ⟨ws, .ok (.form stack), T⟩ ∧ Expr xs T v T ∧
      (scanFrom after (complete v stack T)).after ws = ⟨vs, .ok (.form []), T⟩ := by
  have hend : ∀ tok ∈ before ++ (xs ++ after), tok.kind ≠ .endOfInput :=
    fun tok h => (hreg tok h).not_end
  have hscan := (scan_eq_iff hend).mpr ⟨hreg, h⟩
  have hgrown := State.names_scan before (.form []) T
  rw [State.scan_append] at hscan
  rcases hbefore : (State.form []).scan before T with ⟨ws, stop, t₁⟩
  rw [hbefore] at hscan hgrown
  cases stop with
  | error e => cases hscan
  | ok st =>
    have hrest := Scan.names_andThen ⟨ws, .ok st, t₁⟩ (xs ++ after)
    rw [hscan] at hrest
    obtain rfl : T = t₁ := SymbolTable.eq_of_isPrefix hgrown hrest
    obtain ⟨_, hregs⟩ := List.forall_mem_append.mp hreg
    obtain ⟨hregx, -⟩ := List.forall_mem_append.mp hregs
    cases st with
    | close elements tail stack =>
      obtain ⟨s, w, s', hx⟩ := hform
      obtain ⟨tok, rest, rfl, hstart⟩ := hx.exists_cons
      have hstop := congrArg Scan.stop hscan
      rw [Scan.andThen] at hstop
      dsimp only [Scan.after] at hstop
      rw [List.cons_append, State.scan_close hstart] at hstop
      cases hstop
    | form stack =>
      have hform' : IsForm (xs ++ []) := by rwa [List.append_nil]
      obtain ⟨v, t', hx⟩ := hform'.exists_expr hregx T
      rw [List.map_nil, List.append_nil] at hx
      have hgoes : (scanFrom after (complete v stack t')).after ws =
          ⟨vs, .ok (.form []), T⟩ := by
        rw [← hscan, ← hx.scan_form hregx]
        rfl
      have hfinal := (names_complete v stack t').trans (names_scanFrom after _)
      have hT : (scanFrom after (complete v stack t')).symbols = T := congrArg Scan.symbols hgoes
      rw [hT] at hfinal
      obtain rfl : T = t' := SymbolTable.eq_of_isPrefix hx.names_isPrefixOf hfinal
      exact ⟨ws, stack, v, rfl, hx, hgoes⟩

/-- **A form may be replaced by another that denotes the same value**, anywhere in a program that
adds no name. -/
theorem Exprs.replace (h : Exprs (before ++ (xs ++ after)) T vs T)
    (hreg : ∀ tok ∈ before ++ (xs ++ after), tok.Regular) (hform : IsForm xs)
    (hregy : ∀ tok ∈ ys, tok.Regular) (hsame : ∀ v, Expr xs T v T → Expr ys T v T) :
    Exprs (before ++ (ys ++ after)) T vs T := by
  obtain ⟨ws, stack, v, hbefore, hx, hgoes⟩ := h.around hreg hform
  obtain ⟨hregBefore, hregs⟩ := List.forall_mem_append.mp hreg
  have hreg' : ∀ tok ∈ before ++ (ys ++ after), tok.Regular :=
    List.forall_mem_append.mpr
      ⟨hregBefore, List.forall_mem_append.mpr ⟨hregy, (List.forall_mem_append.mp hregs).2⟩⟩
  have hend : ∀ tok ∈ before ++ (ys ++ after), tok.kind ≠ .endOfInput :=
    fun tok h => (hreg' tok h).not_end
  refine ((scan_eq_iff hend).mp ?_).2
  rw [State.scan_append_of_ok hbefore, (hsame v hx).scan_form hregy, hgoes]

/-! ### Programs read again -/

/-- Reading a list of tokens, which may have an end in it, gives some forms and leaves a table. -/
def Reads (toks : List Token) (t : SymbolTable) (vs : List Value) (T : SymbolTable) : Prop :=
  (Reader.mk (.ofSource (toks.map .ok)) t).readAll.1 = .ok vs ∧
    (Reader.mk (.ofSource (toks.map .ok)) t).readAll.2.symbols = T

/-- A list of tokens ends without a failure. -/
theorem ending_tokens (toks : List Token) :
    ∃ tok : Token, ending (toks.map .ok) = .ok tok := by
  induction toks with
  | nil => exact ⟨.unplacedEnd, rfl⟩
  | cons tok toks ih =>
    rw [List.map_cons, ending]
    split
    · exact ⟨tok, rfl⟩
    · exact ih

/-- **A list of tokens is read as forms exactly if the tokens before its end are these forms.** -/
theorem reads_iff : Reads toks t vs T ↔
    (∀ tok ∈ delivered (toks.map .ok), tok.Regular) ∧
      Exprs (delivered (toks.map .ok)) t vs T := by
  rw [← scan_eq_iff not_end_of_mem_delivered, Reads, readAll_fst, symbols_readAll, reading_source]
  obtain ⟨tok, hending⟩ := ending_tokens toks
  rw [hending]
  generalize (State.form []).scan (delivered (toks.map .ok)) t = s
  constructor
  · rintro ⟨hforms, rfl⟩
    split at hforms
    · next hnone =>
      obtain ⟨hstop, -⟩ := Scan.finish_eq_none hnone
      obtain ⟨ws, stop, t'⟩ := s
      cases hforms
      obtain rfl : stop = .ok (.form []) := hstop
      rfl
    · cases hforms
  · rintro rfl
    exact ⟨rfl, rfl⟩

/-- Tokens that are forms are read as these, if no end stands among them. -/
theorem reads_of_exprs (hreg : ∀ tok ∈ toks, tok.Regular) (h : Exprs toks t vs T) :
    Reads toks t vs T := by
  have hend : ∀ tok ∈ toks, tok.kind ≠ .endOfInput := fun tok h => (hreg tok h).not_end
  have hdelivered : delivered (toks.map .ok) = toks := by
    simpa [delivered] using delivered_append hend []
  rw [reads_iff, hdelivered]
  exact ⟨hreg, h⟩

namespace Reads

theorem names_isPrefixOf (h : Reads toks t vs T) : t.names <+: T.names :=
  (reads_iff.mp h).2.names_isPrefixOf

/-- **A program read again** in a later table gives the very same forms and adds no name. -/
theorem again (h : Reads toks t vs t') (hle : t'.names <+: T.names) : Reads toks T vs T := by
  obtain ⟨hreg, hxs⟩ := reads_iff.mp h
  exact reads_iff.mpr ⟨hreg, hxs.again hle⟩

/-- What is read in one table is read in every other, symbols compared by name. -/
theorem elsewhere (h : Reads toks t vs T) (s : SymbolTable) :
    ∃ ws S, Reads toks s ws S ∧ ws.map Value.byName = vs.map Value.byName := by
  obtain ⟨hreg, hxs⟩ := reads_iff.mp h
  obtain ⟨names, hnames, -⟩ := hxs.uses
  obtain ⟨ws, hws⟩ := hnames.exprs s
  have halike := State.scan_alike keptByInsert_unrelated (delivered (toks.map .ok))
    (.refl (.form [])) (unrelated s t)
  rw [(scan_eq_iff not_end_of_mem_delivered).mpr ⟨hreg, hws⟩,
    (scan_eq_iff not_end_of_mem_delivered).mpr ⟨hreg, hxs⟩] at halike
  exact ⟨ws, _, reads_iff.mpr ⟨hreg, hws⟩, halike.forms⟩

/-- A program that adds no name to a table adds to another only names of that table. -/
theorem mem_of_known {ws : List Value} {S : SymbolTable} (h : Reads toks t vs T)
    (hknown : Reads toks S ws S) (hle : ∀ n, n ∈ t → n ∈ S) : ∀ n, n ∈ T → n ∈ S := by
  obtain ⟨hreg, hxs⟩ := reads_iff.mp h
  obtain ⟨names, hnames, rfl⟩ := hxs.uses
  obtain ⟨us, hus⟩ := hnames.exprs S
  have hscan := (scan_eq_iff not_end_of_mem_delivered).mpr (reads_iff.mp hknown)
  rw [(scan_eq_iff not_end_of_mem_delivered).mpr ⟨hreg, hus⟩] at hscan
  have hS : S.insertAll names = S := congrArg Scan.symbols hscan
  intro n hn
  obtain hn | hn := SymbolTable.mem_insertAll_iff.mp hn
  · exact hle n hn
  · rw [← hS]
    exact SymbolTable.mem_insertAll_iff.mpr (.inr hn)

end Reads

end Reader

end LispCore
