import LispCore.Proofs.Reader.Program
import LispCore.Proofs.Symbol.Names
import LispCore.Proofs.Value.Named

/-!
Reading where other names are known.

Two readers are alike if what they hold is the same but for the identities of symbols. Their tables
may be related in any way that interning a name in both of them keeps.

* `State.step_alike`, `State.scan_alike` — over the same tokens, readers that are alike stay so:
  they read forms that are the same by name, stop for the same reason, and leave related tables;
* `State.names_scan` — no reader ever drops a name or changes the symbol of one.
-/

namespace LispCore.Reader

/-- A relation of tables that stays when a name is interned in both. -/
def KeptByInsert (ρ : SymbolTable → SymbolTable → Prop) : Prop :=
  ∀ t t' name, ρ t t' → ρ (t.insert name) (t'.insert name)

/-- Tables that need not have anything to do with each other. -/
def Unrelated (_ _ : SymbolTable) : Prop := True

theorem unrelated (t t' : SymbolTable) : Unrelated t t' := trivial

theorem keptByInsert_unrelated : KeptByInsert Unrelated := by
  intro t t' name _
  exact unrelated _ _

/-! ### States that are alike -/

/-- Two stacks hold the same forms, symbols compared by name. -/
inductive StackAlike : List Frame → List Frame → Prop where
  | nil : StackAlike [] []
  | list {vs ws stack stack'} : vs.map Value.byName = ws.map Value.byName →
      StackAlike stack stack' → StackAlike (.list vs :: stack) (.list ws :: stack')
  | dotted {vs ws stack stack'} : vs.map Value.byName = ws.map Value.byName →
      StackAlike stack stack' → StackAlike (.dotted vs :: stack) (.dotted ws :: stack')
  | array {vs ws stack stack'} : vs.map Value.byName = ws.map Value.byName →
      StackAlike stack stack' → StackAlike (.array vs :: stack) (.array ws :: stack')
  | hash {vs ws stack stack'} : vs.map Value.byName = ws.map Value.byName →
      StackAlike stack stack' → StackAlike (.hash vs :: stack) (.hash ws :: stack')
  | marked {m stack stack'} : StackAlike stack stack' →
      StackAlike (.marked m :: stack) (.marked m :: stack')

/-- Two states wait for the same, symbols compared by name. -/
inductive StateAlike : State → State → Prop where
  | form {stack stack'} : StackAlike stack stack' → StateAlike (.form stack) (.form stack')
  | close {vs ws v w stack stack'} : vs.map Value.byName = ws.map Value.byName →
      v.byName = w.byName → StackAlike stack stack' →
      StateAlike (.close vs v stack) (.close ws w stack')

/-- Two steps lead to the same, symbols compared by name, and to tables that are related. -/
inductive StepAlike (ρ : SymbolTable → SymbolTable → Prop) :
    Progress × SymbolTable → Progress × SymbolTable → Prop where
  | more {st st' t t'} : StateAlike st st' → ρ t t' → StepAlike ρ (.more st, t) (.more st', t')
  | done {v w t t'} : v.byName = w.byName → ρ t t' → StepAlike ρ (.done v, t) (.done w, t')
  | failed {e t t'} : ρ t t' → StepAlike ρ (.failed e, t) (.failed e, t')

/-- Scanning stops for the same reason: in states that are alike, or with the same failure. -/
inductive StopAlike : Except Failure State → Except Failure State → Prop where
  | ok {st st'} : StateAlike st st' → StopAlike (.ok st) (.ok st')
  | error {e} : StopAlike (.error e) (.error e)

/-- What two scans give is the same, symbols compared by name, and their tables are related. -/
structure ScanAlike (ρ : SymbolTable → SymbolTable → Prop) (s s' : Scan) : Prop where
  forms : s.forms.map Value.byName = s'.forms.map Value.byName
  stop : StopAlike s.stop s'.stop
  symbols : ρ s.symbols s'.symbols

theorem StackAlike.refl (stack : List Frame) : StackAlike stack stack := by
  induction stack with
  | nil => exact .nil
  | cons frame stack ih =>
    cases frame with
    | list => exact .list rfl ih
    | dotted => exact .dotted rfl ih
    | array => exact .array rfl ih
    | hash => exact .hash rfl ih
    | marked => exact .marked ih

theorem StateAlike.refl (st : State) : StateAlike st st := by
  cases st with
  | form stack => exact .form (.refl stack)
  | close vs v stack => exact .close rfl rfl (.refl stack)

theorem byName_reverse {vs ws : List Value} (h : vs.map Value.byName = ws.map Value.byName) :
    vs.reverse.map Value.byName = ws.reverse.map Value.byName := by
  rw [List.map_reverse, List.map_reverse, h]

variable {ρ : SymbolTable → SymbolTable → Prop}

theorem StepAlike.symbols {x y : Progress × SymbolTable} (h : StepAlike ρ x y) : ρ x.2 y.2 := by
  cases h with
  | more _ ht => exact ht
  | done _ ht => exact ht
  | failed ht => exact ht

theorem ScanAlike.after {s s' : Scan} {vs ws : List Value}
    (hvs : vs.map Value.byName = ws.map Value.byName) (h : ScanAlike ρ s s') :
    ScanAlike ρ (s.after vs) (s'.after ws) where
  forms := by rw [Scan.after, Scan.after, List.map_append, List.map_append, hvs, h.forms]
  stop := h.stop
  symbols := h.symbols

/-! ### Steps -/

/-- Values that are the same by name are handed to the same forms with the same effect. -/
theorem complete_alike (hρ : KeptByInsert ρ) {stack stack' : List Frame}
    (hstack : StackAlike stack stack') {v w : Value} (hv : v.byName = w.byName)
    {t t' : SymbolTable} (ht : ρ t t') :
    StepAlike ρ (complete v stack t) (complete w stack' t') := by
  induction hstack generalizing v w t t' with
  | nil => exact .done hv ht
  | list hvs hstack => exact .more (.form (.list (by simp [hv, hvs]) hstack)) ht
  | dotted hvs hstack => exact .more (.close hvs hv hstack) ht
  | array hvs hstack => exact .more (.form (.array (by simp [hv, hvs]) hstack)) ht
  | hash hvs hstack => exact .more (.form (.hash (by simp [hv, hvs]) hstack)) ht
  | @marked m stack stack' _ ih =>
    rw [complete, complete]
    exact ih (by simp [hv]) (hρ t t' m.formName ht)

/-- A token does the same where a form may start. -/
theorem start_alike (hρ : KeptByInsert ρ) (tok : Token) {stack stack' : List Frame}
    (hstack : StackAlike stack stack') {t t' : SymbolTable} (ht : ρ t t') :
    StepAlike ρ (start tok stack t) (start tok stack' t') := by
  have hcomplete (v : Value) : StepAlike ρ (complete v stack t) (complete v stack' t') :=
    complete_alike hρ hstack rfl ht
  unfold start
  cases tok.kind with
  | opening b =>
    cases b with
    | round => exact .more (.form (.list rfl hstack)) ht
    | square => exact .more (.form (.array rfl hstack)) ht
    | curly => exact .more (.form (.hash rfl hstack)) ht
  | closing => exact .failed ht
  | dot => exact .failed ht
  | marker => exact .more (.form (.marked hstack)) ht
  | symbol =>
    exact complete_alike hρ hstack (by simp) (hρ t t' tok.text ht)
  | bool => exact hcomplete _
  | integer r =>
    dsimp only
    cases tok.readInteger r with
    | error e => exact .failed ht
    | ok n => exact hcomplete _
  | float =>
    dsimp only
    cases tok.readFloat with
    | error e => exact .failed ht
    | ok x => exact hcomplete _
  | char =>
    dsimp only
    split
    · exact hcomplete _
    · exact .failed ht
  | string => exact hcomplete _
  | endOfInput => exact .failed ht

/-- **One step keeps readers alike.** -/
theorem State.step_alike (hρ : KeptByInsert ρ) (tok : Token) {st st' : State}
    (hst : StateAlike st st') {t t' : SymbolTable} (ht : ρ t t') :
    StepAlike ρ (st.step tok t) (st'.step tok t') := by
  cases hst with
  | close hvs hv hstack =>
    rw [State.step, State.step]
    split
    · exact complete_alike hρ hstack (by simp only [Value.byName_ofList, byName_reverse hvs, hv]) ht
    · exact .failed ht
  | form hstack =>
    have hstart := start_alike hρ tok hstack ht
    cases hstack with
    | nil => exact hstart
    | dotted => exact hstart
    | marked => exact hstart
    | @list vs ws stack stack' hvs hstack =>
      have hempty : vs = [] ↔ ws = [] := by
        rw [← List.map_eq_nil_iff (f := Value.byName), hvs, List.map_eq_nil_iff]
      rw [State.step, State.step]
      split
      · exact complete_alike hρ hstack (by simp only [Value.byName_ofList, byName_reverse hvs]) ht
      · simp only [ne_eq, hempty]
        split
        · exact .more (.form (.dotted hvs hstack)) ht
        · exact hstart
    | array hvs hstack =>
      rw [State.step, State.step]
      split
      · exact complete_alike hρ hstack (by simp only [Value.byName_array, byName_reverse hvs]) ht
      · exact hstart
    | hash hvs hstack =>
      rw [State.step, State.step]
      split
      · exact complete_alike hρ hstack (by simp [byName_reverse hvs])
          (hρ t t' "hash" ht)
      · exact hstart

/-- **All steps over the same tokens keep readers alike.** -/
theorem State.scan_alike (hρ : KeptByInsert ρ) (toks : List Token) {st st' : State}
    (hst : StateAlike st st') {t t' : SymbolTable} (ht : ρ t t') :
    ScanAlike ρ (st.scan toks t) (st'.scan toks t') := by
  induction toks generalizing st st' t t' with
  | nil => exact ⟨rfl, .ok hst, ht⟩
  | cons tok toks ih =>
    have hstep := State.step_alike hρ tok hst ht
    rw [State.scan, State.scan]
    generalize st.step tok t = x at hstep
    generalize st'.step tok t' = y at hstep
    cases hstep with
    | more hst ht => exact ih hst ht
    | done hv ht => exact .after (by simp [hv]) (ih (.form .nil) ht)
    | failed ht => exact ⟨rfl, .error, ht⟩

/-! ### Ends -/

/-- The end of a source means the same to readers that are alike. -/
theorem StateAlike.failureAt_eq {st st' : State} (h : StateAlike st st')
    (last : Except Failure Token) : st.failureAt last = st'.failureAt last := by
  cases last with
  | error e => rfl
  | ok tok =>
    cases h with
    | close => rfl
    | form hstack => cases hstack <;> rfl

theorem ScanAlike.failure_eq {s s' : Scan} (h : ScanAlike ρ s s') (last : Except Failure Token) :
    (s.finish last).failure = (s'.finish last).failure := by
  obtain ⟨vs, stop, t⟩ := s
  obtain ⟨ws, stop', t'⟩ := s'
  obtain ⟨-, hstop, -⟩ := h
  cases hstop with
  | ok hst => exact hst.failureAt_eq last
  | error => rfl

/-! ### Names are kept -/

theorem keptByInsert_isPrefix (t₀ : SymbolTable) :
    KeptByInsert fun t _ => t₀.names <+: t.names := by
  intro t t' name h
  exact h.trans (t.names_isPrefixOf_insert name)

theorem names_complete (v : Value) (stack : List Frame) (t : SymbolTable) :
    t.names <+: (complete v stack t).2.names := by
  have halike : StepAlike (fun u _ => t.names <+: u.names) (complete v stack t)
      (complete v stack t) :=
    complete_alike (keptByInsert_isPrefix t) (.refl stack) rfl (List.prefix_refl t.names)
  exact halike.symbols

/-- **No name is dropped and no symbol changes** while tokens are scanned. -/
theorem State.names_scan (toks : List Token) (st : State) (t : SymbolTable) :
    t.names <+: (st.scan toks t).symbols.names := by
  have halike : ScanAlike (fun u _ => t.names <+: u.names) (st.scan toks t) (st.scan toks t) :=
    State.scan_alike (keptByInsert_isPrefix t) toks (.refl st) (List.prefix_refl t.names)
  exact halike.symbols

theorem Scan.names_andThen (s : Scan) (toks : List Token) :
    s.symbols.names <+: (s.andThen toks).symbols.names := by
  obtain ⟨vs, stop, t⟩ := s
  cases stop with
  | ok st => exact st.names_scan toks t
  | error e => exact List.prefix_refl _

end LispCore.Reader
