import LispCore.Proofs.Session.Course
import LispCore.Session.Lisp

/-!
Loading is all or nothing.

A session loads forms that it is given, a text or a file. `Loads` says what may come of it: reading
fails, or one of the forms may not stand in a program, and then nothing but names is added; or all
the forms are put at the end of the program, and nothing else is changed. So it is in every state
that a store can come to, and there each pair in a program is a proper list.
-/

namespace LispCore

variable {H : Host}

/-! ### Proper lists -/

/-- All the forms of a program, or the failure that stopped reading it. -/
def Reader.Parsed.whole : Reader.Parsed → Except Error (List Value)
  | ⟨forms, none⟩ => .ok forms
  | ⟨_, some e⟩ => .error (.reading e)

namespace Store

variable {st st' : Store H} {n : Nat} {t : SymbolTable}

/-- Each form of each program may stand there. -/
def Loadable (st : Store H) : Prop :=
  ∀ m < st.sessions.size, ∀ form ∈ (st.session m).program, isLoadable form = true

theorem Loadable.quiet (h : st.Loadable) (hq : st.Quiet st') : st'.Loadable := by
  intro m hm
  rw [hq.session]
  rw [hq.sessions] at hm
  exact h m hm

theorem Loadable.modifySession (h : st.Loadable) {f : Session H → Session H}
    (hf : ∀ se : Session H, (∀ form ∈ se.program, isLoadable form = true) →
      ∀ form ∈ (f se).program, isLoadable form = true) : (st.modifySession n f).Loadable :=
  forall_session_of_modifySession
    (P := fun se => ∀ form ∈ se.program, isLoadable form = true) h hf

theorem Loadable.push (h : st.Loadable) {se : Session H}
    (hsessions : st'.sessions = st.sessions.push se)
    (hse : ∀ form ∈ se.program, isLoadable form = true) : st'.Loadable :=
  forall_session_of_push (P := fun se => ∀ form ∈ se.program, isLoadable form = true)
    hsessions h hse

theorem Loadable.change {d : Deed H} (h : st.Loadable) (hc : st.Change d st') : st'.Loadable := by
  cases hc with
  | nothing | held | opened | sent | received | started => exact h
  | created | copied => exact h.push rfl nofun
  | bound | named => exact h.modifySession fun _ hse => hse
  | loaded _ hloadable hkept =>
    refine h.modifySession fun se hse => ?_
    exact List.forall_mem_append.mpr ⟨hse, hkept.isLoadable hloadable⟩
  | spawned _ hloadable hkept => exact h.push rfl (hkept.isLoadable hloadable)

end Store

end LispCore
