import LispCore.Session.Store

/-!
Values as they are kept.

A store keeps a value with labels for the pairs that had none, and with nothing else changed.
`KeptAs` says so of one value and `KeptAllAs` of some values in order. What may stand in a program
does not depend on labels (`KeptAllAs.isLoadable`).
-/

namespace LispCore.Value

/-- `v.KeptAs w`: the value `w` is `v` with labels for the pairs that had none. -/
def KeptAs (v w : Value) : Prop := ∃ next, w = (v.label next).1

/-- `KeptAllAs vs ws`: the values `ws` are `vs` with labels for the pairs that had none. -/
def KeptAllAs (vs ws : List Value) : Prop := ∃ next, ws = (labelItems next vs).1

theorem keptAs_builtin (id : Nat) (name : String) :
    (Value.builtin id name).KeptAs (.builtin id name) := ⟨0, rfl⟩

/-- Only a function is kept as that function. -/
theorem eq_builtin_of_keptAs {v : Value} {id : Nat} {name : String}
    (h : v.KeptAs (.builtin id name)) : v = .builtin id name := by
  obtain ⟨next, h⟩ := h
  cases v with
  | pair cell head tail =>
    rw [label] at h
    cases cell <;> cases h
  | array items => cases h
  | _ => exact h.symm

/-- Labels change nothing of what a chain of pairs ends in but its labels. -/
theorem lastTail_label (v : Value) (next : Nat) :
    ∃ next', (v.label next).1.lastTail = (v.lastTail.label next').1 := by
  induction v using lastTail.induct generalizing next with
  | case1 cell head tail ih =>
    obtain ⟨next', htail⟩ := ih (head.label next).2
    refine ⟨next', ?_⟩
    rw [label, lastTail, ← htail]
    cases cell <;> rfl
  | case2 v hv =>
    refine ⟨next, ?_⟩
    rw [lastTail.eq_2 v hv]
    cases v with
    | pair cell head tail => exact absurd rfl (hv cell head tail)
    | _ => simp [label, lastTail]

theorem isList_label (v : Value) (next : Nat) : (v.label next).1.isList = v.isList := by
  obtain ⟨next', hlast⟩ := v.lastTail_label next
  rw [isList, hlast, isList]
  cases v.lastTail with
  | pair cell head tail => cases cell <;> simp [label]
  | _ => simp [label]

theorem isLoadable_label (v : Value) (next : Nat) :
    Store.isLoadable (v.label next).1 = Store.isLoadable v := by
  cases v with
  | pair cell head tail =>
    have hlist := isList_label (.pair cell head tail) next
    rw [label] at hlist ⊢
    cases cell <;> exact hlist
  | _ => simp [label, Store.isLoadable]

theorem isLoadable_labelItems {vs : List Value} (h : ∀ v ∈ vs, Store.isLoadable v = true)
    (next : Nat) : ∀ w ∈ (labelItems next vs).1, Store.isLoadable w = true := by
  induction vs generalizing next with
  | nil =>
    intro w hw
    cases hw
  | cons v vs ih =>
    obtain ⟨hv, hvs⟩ := List.forall_mem_cons.mp h
    rw [labelItems]
    refine List.forall_mem_cons.mpr ⟨?_, ih hvs _⟩
    rw [isLoadable_label, hv]

/-- What may stand in a program may stand there as it is kept. -/
theorem KeptAllAs.isLoadable {vs ws : List Value} (h : KeptAllAs vs ws)
    (hvs : ∀ v ∈ vs, Store.isLoadable v = true) : ∀ w ∈ ws, Store.isLoadable w = true := by
  obtain ⟨next, rfl⟩ := h
  exact isLoadable_labelItems hvs next

end LispCore.Value
