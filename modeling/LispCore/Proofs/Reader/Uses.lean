import LispCore.Proofs.Reader.Pending
import LispCore.Proofs.Symbol.Names

/-!
Which names reading uses, and when.

A symbol uses its text when it is read, a marker the name of its form when its operand is complete,
and a hash its name when it is closed. `FormUses` says so of a form and `ProgramUses` of tokens that
end anywhere, also inside a form. None of them mentions a table.

* `State.uses_of_scan_ok` — tokens that are not refused do use names;
* `ProgramUses.scan` — scanning tokens interns the names they use, in that order.
-/

namespace LispCore.Reader

/-! ### Uses -/

mutual

/-- `FormUses toks names`: reading the tokens of a form uses names, in this order. -/
inductive FormUses : List Token → List String → Prop where
  | symbol {tok} : tok.kind = .symbol → FormUses [tok] [tok.text]
  | literal {tok t v t'} : tok.kind ≠ .symbol → Atomic tok t v t' → FormUses [tok] []
  | marked {tok m toks names} : tok.kind = .marker m → FormUses toks names →
      FormUses (tok :: toks) (names ++ [m.formName])
  | list {op toks cl names} : op.kind = .opening .round → FormsUse toks names →
      cl.kind = .closing .round → FormUses (op :: (toks ++ [cl])) names
  | dotted {op toks dot tail cl names names'} : op.kind = .opening .round → FormsUse toks names →
      toks ≠ [] → dot.kind = .dot → FormUses tail names' → cl.kind = .closing .round →
      FormUses (op :: (toks ++ dot :: (tail ++ [cl]))) (names ++ names')
  | array {op toks cl names} : op.kind = .opening .square → FormsUse toks names →
      cl.kind = .closing .square → FormUses (op :: (toks ++ [cl])) names
  | hash {op toks cl names} : op.kind = .opening .curly → FormsUse toks names →
      cl.kind = .closing .curly → FormUses (op :: (toks ++ [cl])) (names ++ ["hash"])

/-- `FormsUse toks names`: so does reading the tokens of some forms. -/
inductive FormsUse : List Token → List String → Prop where
  | nil : FormsUse [] []
  | cons {xs ys names names'} : FormUses xs names → FormsUse ys names' →
      FormsUse (xs ++ ys) (names ++ names')

end

/-- `OpenUses toks names`: the tokens leave forms open, one may follow them, and the forms that are
complete among them use names. The open ones have not used theirs yet. -/
inductive OpenUses : List Token → List String → Prop where
  | nil : OpenUses [] []
  | brackets {before op b toks names names'} : OpenUses before names → op.kind = .opening b →
      FormsUse toks names' → OpenUses (before ++ op :: toks) (names ++ names')
  | dotted {before op toks dot names names'} : OpenUses before names →
      op.kind = .opening .round → FormsUse toks names' → toks ≠ [] → dot.kind = .dot →
      OpenUses (before ++ op :: (toks ++ [dot])) (names ++ names')
  | marked {before tok m names} : OpenUses before names → tok.kind = .marker m →
      OpenUses (before ++ [tok]) names

/-- `PendingUses toks names`: so do tokens that are the start of one form; a form may follow them,
or the bracket after a dotted tail. -/
inductive PendingUses : List Token → List String → Prop where
  | form {toks names} : OpenUses toks names → PendingUses toks names
  | close {before op toks dot tail names names' names''} : OpenUses before names →
      op.kind = .opening .round → FormsUse toks names' → toks ≠ [] → dot.kind = .dot →
      FormUses tail names'' →
      PendingUses (before ++ op :: (toks ++ dot :: tail)) (names ++ (names' ++ names''))

/-- `ProgramUses toks names`: the tokens are complete forms and then the start of one more, and
reading them uses names. -/
inductive ProgramUses : List Token → List String → Prop where
  | mk {xs ys names names'} : FormsUse xs names → PendingUses ys names' →
      ProgramUses (xs ++ ys) (names ++ names')

theorem FormsUse.append {xs ys : List Token} {names names' : List String} (h : FormsUse xs names)
    (h' : FormsUse ys names') : FormsUse (xs ++ ys) (names ++ names') := by
  match h with
  | .nil => exact h'
  | .cons hx hxs =>
    rw [List.append_assoc, List.append_assoc]
    exact .cons hx (hxs.append h')

theorem FormsUse.single {toks : List Token} {names : List String} (h : FormUses toks names) :
    FormsUse toks names := by
  have hone := FormsUse.cons h .nil
  rwa [List.append_nil, List.append_nil] at hone

/-! ### Forms use names -/

theorem Exprs.eq_nil_iff {toks : List Token} {t t' : SymbolTable} {vs : List Value}
    (h : Exprs toks t vs t') : toks = [] ↔ vs = [] := by
  cases h with
  | nil => simp
  | cons hx hxs =>
    obtain ⟨tok, rest, rfl, -⟩ := hx.exists_cons
    simp

mutual

/-- **Every form uses names**, and reading it adds these to the table and no others. -/
theorem Expr.uses {toks : List Token} {t t' : SymbolTable} {v : Value} (h : Expr toks t v t') :
    ∃ names, FormUses toks names ∧ t' = t.insertAll names := by
  match h with
  | .atomic ha =>
    have ha' := ha
    cases ha' with
    | symbol hk => exact ⟨_, .symbol hk, rfl⟩
    | bool hk => exact ⟨_, .literal (by simp [hk]) ha, rfl⟩
    | integer hk => exact ⟨_, .literal (by simp [hk]) ha, rfl⟩
    | float hk => exact ⟨_, .literal (by simp [hk]) ha, rfl⟩
    | string hk => exact ⟨_, .literal (by simp [hk]) ha, rfl⟩
    | char hk => exact ⟨_, .literal (by simp [hk]) ha, rfl⟩
  | .marked hk hx =>
    obtain ⟨names, hnames, htable⟩ := hx.uses
    refine ⟨_, .marked hk hnames, ?_⟩
    rw [htable, SymbolTable.insertAll_append]
    rfl
  | .list hk hxs hcl =>
    obtain ⟨names, hnames, htable⟩ := hxs.uses
    exact ⟨_, .list hk hnames hcl, htable⟩
  | .dotted hk hxs hne hdot hx hcl =>
    obtain ⟨names, hnames, htable⟩ := hxs.uses
    obtain ⟨names', hnames', htable'⟩ := hx.uses
    refine ⟨_, .dotted hk hnames (mt hxs.eq_nil_iff.mp hne) hdot hnames' hcl, ?_⟩
    rw [htable', htable, SymbolTable.insertAll_append]
  | .array hk hxs hcl =>
    obtain ⟨names, hnames, htable⟩ := hxs.uses
    exact ⟨_, .array hk hnames hcl, htable⟩
  | .hash hk hxs hcl =>
    obtain ⟨names, hnames, htable⟩ := hxs.uses
    refine ⟨_, .hash hk hnames hcl, ?_⟩
    rw [htable, SymbolTable.insertAll_append]
    rfl

theorem Exprs.uses {toks : List Token} {t t' : SymbolTable} {vs : List Value}
    (h : Exprs toks t vs t') : ∃ names, FormsUse toks names ∧ t' = t.insertAll names := by
  match h with
  | .nil => exact ⟨_, .nil, rfl⟩
  | .cons hx hxs =>
    obtain ⟨names, hnames, htable⟩ := hx.uses
    obtain ⟨names', hnames', htable'⟩ := hxs.uses
    refine ⟨_, .cons hnames hnames', ?_⟩
    rw [htable', htable, SymbolTable.insertAll_append]

end

theorem Open.uses {stack : List Frame} {toks : List Token} {t₀ t : SymbolTable}
    (h : Open stack toks t₀ t) : ∃ names, OpenUses toks names := by
  induction h with
  | nil => exact ⟨_, .nil⟩
  | list _ hk hxs ih | array _ hk hxs ih | hash _ hk hxs ih =>
    obtain ⟨names, hnames⟩ := ih
    obtain ⟨names', hnames', -⟩ := hxs.uses
    exact ⟨_, .brackets hnames hk hnames'⟩
  | dotted _ hk hxs hne hdot ih =>
    obtain ⟨names, hnames⟩ := ih
    obtain ⟨names', hnames', -⟩ := hxs.uses
    exact ⟨_, .dotted hnames hk hnames' (mt hxs.eq_nil_iff.mp (by simpa using hne)) hdot⟩
  | marked _ hk ih =>
    obtain ⟨names, hnames⟩ := ih
    exact ⟨_, .marked hnames hk⟩

theorem Reached.uses {st : State} {toks : List Token} {t₀ t : SymbolTable}
    (h : Reached st toks t₀ t) : ∃ names, PendingUses toks names := by
  cases h with
  | form hopen =>
    obtain ⟨names, hnames⟩ := hopen.uses
    exact ⟨names, .form hnames⟩
  | close hopen hk hxs hne hdot hx =>
    obtain ⟨names, hnames⟩ := hopen.uses
    obtain ⟨names', hnames', -⟩ := hxs.uses
    obtain ⟨names'', hnames'', -⟩ := hx.uses
    exact ⟨_, .close hnames hk hnames' (mt hxs.eq_nil_iff.mp (by simpa using hne)) hdot hnames''⟩

/-- Tokens that are not refused use names. -/
theorem State.uses_of_scan_ok {toks : List Token} (hend : ∀ tok ∈ toks, tok.kind ≠ .endOfInput)
    {st : State} {t : SymbolTable} (h : ((State.form []).scan toks t).stop = .ok st) :
    ∃ names, ProgramUses toks names := by
  obtain ⟨xs, ys, vs, t₁, t', rfl, hxs, hst⟩ := State.reached_of_scan_ok hend h
  obtain ⟨names, hnames, -⟩ := hxs.uses
  obtain ⟨names', hnames'⟩ := hst.uses
  exact ⟨_, .mk hnames hnames'⟩

/-! ### Names that are used are interned -/

mutual

/-- **A form interns the names it uses**, whatever is known before. -/
theorem FormUses.expr {toks : List Token} {names : List String} (h : FormUses toks names)
    (t : SymbolTable) : ∃ v, Expr toks t v (t.insertAll names) := by
  match h with
  | .symbol hk => exact ⟨_, .atomic (.symbol hk)⟩
  | .literal hk ha =>
    cases ha with
    | symbol hk' => exact absurd hk' hk
    | bool hk => exact ⟨_, .atomic (.bool hk)⟩
    | integer hk hspell hmin hmax => exact ⟨_, .atomic (.integer hk hspell hmin hmax)⟩
    | float hk hread => exact ⟨_, .atomic (.float hk hread)⟩
    | string hk => exact ⟨_, .atomic (.string hk)⟩
    | char hk htext => exact ⟨_, .atomic (.char hk htext)⟩
  | .marked hk hnames =>
    obtain ⟨v, hx⟩ := hnames.expr t
    rw [SymbolTable.insertAll_append]
    exact ⟨_, .marked hk hx⟩
  | .list hk hnames hcl =>
    obtain ⟨vs, hxs⟩ := hnames.exprs t
    exact ⟨_, .list hk hxs hcl⟩
  | .dotted hk hnames hne hdot hnames' hcl =>
    obtain ⟨vs, hxs⟩ := hnames.exprs t
    obtain ⟨v, hx⟩ := hnames'.expr _
    rw [SymbolTable.insertAll_append]
    exact ⟨_, .dotted hk hxs (mt hxs.eq_nil_iff.mpr hne) hdot hx hcl⟩
  | .array hk hnames hcl =>
    obtain ⟨vs, hxs⟩ := hnames.exprs t
    exact ⟨_, .array hk hxs hcl⟩
  | .hash hk hnames hcl =>
    obtain ⟨vs, hxs⟩ := hnames.exprs t
    rw [SymbolTable.insertAll_append]
    exact ⟨_, .hash hk hxs hcl⟩

theorem FormsUse.exprs {toks : List Token} {names : List String} (h : FormsUse toks names)
    (t : SymbolTable) : ∃ vs, Exprs toks t vs (t.insertAll names) := by
  match h with
  | .nil => exact ⟨[], .nil⟩
  | .cons hnames hnames' =>
    obtain ⟨v, hx⟩ := hnames.expr t
    obtain ⟨vs, hxs⟩ := hnames'.exprs _
    rw [SymbolTable.insertAll_append]
    exact ⟨_, .cons hx hxs⟩

end

/-- Brackets of a kind that hold elements. -/
def Frame.holding : Bracket → List Value → Frame
  | .round => .list
  | .square => .array
  | .curly => .hash

theorem collects_holding (b : Bracket) : Collects (Frame.holding b) := by
  intro v elements stack t
  cases b <;> rfl

/-- Scanning steps that leave a form open. -/
theorem State.scan_of_run {toks left : List Token} {st st' : State} {t t' : SymbolTable}
    (h : st.run toks t = (.more st', t', left)) : st.scan toks t = ⟨[], .ok st', t'⟩ := by
  rw [State.scan_eq_run, h]

/-- Tokens after some that are not refused are scanned from where these led to. -/
theorem State.scan_append_of_ok {xs : List Token} {st st' : State} {t t' : SymbolTable}
    {vs : List Value} (h : st.scan xs t = ⟨vs, .ok st', t'⟩) (ys : List Token) :
    st.scan (xs ++ ys) t = (st'.scan ys t').after vs := by
  rw [State.scan_append, h]
  rfl

/-- Forms after an opening bracket are collected in it. -/
theorem FormsUse.scan_opening {op : Token} {b : Bracket} (hk : op.kind = .opening b)
    {toks : List Token} {names : List String} (h : FormsUse toks names)
    (hreg : ∀ tok ∈ toks, tok.Regular) (stack : List Frame) (t : SymbolTable) :
    ∃ vs, (State.form stack).scan (op :: toks) t =
        ⟨[], .ok (.form (.holding b vs :: stack)), t.insertAll names⟩ ∧ (toks ≠ [] → vs ≠ []) := by
  obtain ⟨vs, hxs⟩ := h.exprs t
  refine ⟨vs.reverse, ?_, ?_⟩
  · have hrun : (State.form (.holding b [] :: stack)).run (toks ++ []) t =
        (State.form (.holding b (vs.reverse ++ []) :: stack)).run [] (t.insertAll names) :=
      hxs.run_form hreg (collects_holding b)
    have hopened : Frame.opened b = .holding b [] := by cases b <;> rfl
    rw [List.append_nil, List.append_nil, ← hopened, ← State.run_opening hk] at hrun
    exact State.scan_of_run hrun
  · intro hne hnil
    exact hne (hxs.eq_nil_iff.mpr (List.reverse_eq_nil_iff.mp hnil))

/-- A dot after them leaves the list to be ended by one more form. -/
theorem FormsUse.scan_dot {op dot : Token} (hk : op.kind = .opening .round)
    (hdot : dot.kind = .dot) {toks : List Token} {names : List String} (h : FormsUse toks names)
    (hne : toks ≠ []) (hreg : ∀ tok ∈ toks, tok.Regular) (stack : List Frame) (t : SymbolTable) :
    ∃ vs, (State.form stack).scan ((op :: toks) ++ [dot]) t =
        ⟨[], .ok (.form (.dotted vs :: stack)), t.insertAll names⟩ := by
  obtain ⟨vs, hvs, hvsne⟩ := h.scan_opening hk hreg stack t
  refine ⟨vs, ?_⟩
  rw [State.scan_append_of_ok hvs]
  simp [Scan.after, Frame.holding, State.scan, State.step, hdot, hvsne hne]

/-- **Tokens that leave forms open intern the names they use**, and a form may follow them. -/
theorem OpenUses.scan {toks : List Token} {names : List String} (h : OpenUses toks names)
    (hreg : ∀ tok ∈ toks, tok.Regular) (t : SymbolTable) :
    ∃ stack, (State.form []).scan toks t = ⟨[], .ok (.form stack), t.insertAll names⟩ := by
  induction h with
  | nil => exact ⟨[], rfl⟩
  | @brackets before op b toks names names' _ hk hnames ih =>
    obtain ⟨hbefore, hafter⟩ := List.forall_mem_append.mp hreg
    obtain ⟨stack, hstack⟩ := ih hbefore
    obtain ⟨vs, hvs, -⟩ := hnames.scan_opening hk (List.forall_mem_cons.mp hafter).2 stack
      (t.insertAll names)
    rw [State.scan_append_of_ok hstack, hvs, SymbolTable.insertAll_append]
    exact ⟨_, rfl⟩
  | @dotted before op toks dot names names' _ hk hnames hne hdot ih =>
    obtain ⟨hbefore, hafter⟩ := List.forall_mem_append.mp hreg
    obtain ⟨htoks, -⟩ := List.forall_mem_append.mp (List.forall_mem_cons.mp hafter).2
    obtain ⟨stack, hstack⟩ := ih hbefore
    obtain ⟨vs, hvs⟩ := hnames.scan_dot hk hdot hne htoks stack (t.insertAll names)
    rw [State.scan_append_of_ok hstack, ← List.cons_append, hvs, SymbolTable.insertAll_append]
    exact ⟨_, rfl⟩
  | @marked before tok m names _ hk ih =>
    obtain ⟨hbefore, -⟩ := List.forall_mem_append.mp hreg
    obtain ⟨stack, hstack⟩ := ih hbefore
    rw [State.scan_append_of_ok hstack, State.scan, State.step_marker hk]
    exact ⟨_, rfl⟩

/-- The start of a form interns the names it uses. -/
theorem PendingUses.scan {toks : List Token} {names : List String} (h : PendingUses toks names)
    (hreg : ∀ tok ∈ toks, tok.Regular) (t : SymbolTable) :
    ∃ st, (State.form []).scan toks t = ⟨[], .ok st, t.insertAll names⟩ := by
  cases h with
  | form hopen =>
    obtain ⟨stack, hstack⟩ := hopen.scan hreg t
    exact ⟨_, hstack⟩
  | @close before op toks dot tail names names' names'' hopen hk hnames hne hdot hlast =>
    obtain ⟨hbefore, hafter⟩ := List.forall_mem_append.mp hreg
    obtain ⟨htoks, hrest⟩ := List.forall_mem_append.mp (List.forall_mem_cons.mp hafter).2
    obtain ⟨stack, hstack⟩ := hopen.scan hbefore t
    obtain ⟨vs, hvs⟩ := hnames.scan_dot hk hdot hne htoks stack (t.insertAll names)
    obtain ⟨v, hx⟩ := hlast.expr ((t.insertAll names).insertAll names')
    have htail := State.scan_of_run
      (hx.run_form (List.forall_mem_cons.mp hrest).2 (.dotted vs :: stack) [])
    have hsplit : op :: (toks ++ dot :: tail) = ((op :: toks) ++ [dot]) ++ tail := by simp
    rw [List.append_nil] at htail
    rw [State.scan_append_of_ok hstack, hsplit, State.scan_append_of_ok hvs, htail,
      SymbolTable.insertAll_append, SymbolTable.insertAll_append]
    exact ⟨_, rfl⟩

/-- **Tokens that are not refused intern the names they use, and no others.** -/
theorem ProgramUses.scan {toks : List Token} {names : List String} (h : ProgramUses toks names)
    (hreg : ∀ tok ∈ toks, tok.Regular) (t : SymbolTable) :
    ∃ vs st, (State.form []).scan toks t = ⟨vs, .ok st, t.insertAll names⟩ := by
  obtain ⟨hforms, hpending⟩ := h
  obtain ⟨hxs, hys⟩ := List.forall_mem_append.mp hreg
  obtain ⟨vs, hexprs⟩ := hforms.exprs t
  obtain ⟨st, hst⟩ := hpending.scan hys (t.insertAll _)
  rw [hexprs.scan_append hxs, hst, SymbolTable.insertAll_append]
  exact ⟨_, st, rfl⟩

end LispCore.Reader
