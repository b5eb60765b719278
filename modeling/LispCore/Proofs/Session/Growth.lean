import LispCore.Proofs.Session.Alone

/-!
What an operation on one session leaves alone.

`Touches st n st'` says that a store goes over into another by something done in session `n`: tables
only gain names, functions and coroutines only come to be, and no other session changes. `Keeps`
says that no session changes at all. Each step that an operation is made of does one or the other
(`keeps_setSymbols`, `touches_modifySession` and so on), and so does one after another; so every
operation touches its own session only (`touches_perform`).
-/

namespace LispCore.Store

variable {H : Host}

/-- A store knows the function that starts coroutines, and each coroutine has a session. -/
structure Sound (st : Store H) : Prop where
  start : st.behaviours[0]? = some .startCoroutine
  coroutines : ∀ {id : Nat} {c}, st.coroutines[id]? = some c → c.session < st.sessions.size

/-- Something is done in a session of a store. -/
structure Touches (st : Store H) (n : Nat) (st' : Store H) : Prop where
  behaviours : ∀ {id : Nat} {b}, st.behaviours[id]? = some b → st'.behaviours[id]? = some b
  coroutines : ∀ {id : Nat} {c}, st.coroutines[id]? = some c → st'.coroutines[id]? = some c
  names : ∀ i : Nat, (st.tables[i]?.getD ∅).names <+: (st'.tables[i]?.getD ∅).names
  tables : st'.tables.size = st.tables.size
  sessions : st.sessions.size ≤ st'.sessions.size
  others : ∀ {m}, m < st.sessions.size → m ≠ n → st'.session m = st.session m
  table : ∀ {m}, m < st.sessions.size → (st'.session m).table = (st.session m).table
  sound : st.Sound → st'.Sound

/-- Something is done that changes no session. -/
structure Keeps (st : Store H) (n : Nat) (st' : Store H) : Prop extends Touches st n st' where
  same : st'.sessions = st.sessions

variable {st st' st'' st₁ : Store H} {n m : Nat}

namespace Touches

theorem refl (st : Store H) (n : Nat) : st.Touches n st where
  behaviours h := h
  coroutines h := h
  names _ := List.prefix_refl _
  tables := rfl
  sessions := Nat.le_refl _
  others _ _ := rfl
  table _ := rfl
  sound h := h

/-- Two things are done one after the other, the second in the same session or in a new one. -/
theorem andThen (h : st.Touches n st') (h' : st'.Touches m st'')
    (hm : m = n ∨ st.sessions.size ≤ m) : st.Touches n st'' where
  behaviours hb := h'.behaviours (h.behaviours hb)
  coroutines hc := h'.coroutines (h.coroutines hc)
  names i := (h.names i).trans (h'.names i)
  tables := h'.tables.trans h.tables
  sessions := Nat.le_trans h.sessions h'.sessions
  others hk hne :=
    (h'.others (Nat.lt_of_lt_of_le hk h.sessions) (by omega)).trans (h.others hk hne)
  table hk := (h'.table (Nat.lt_of_lt_of_le hk h.sessions)).trans (h.table hk)
  sound hs := h'.sound (h.sound hs)

theorem trans (h : st.Touches n st') (h' : st'.Touches n st'') : st.Touches n st'' :=
  h.andThen h' (.inl rfl)

/-- No session loses a name. -/
theorem symbols (h : st.Touches n st') (hm : m < st.sessions.size) :
    (st.symbols m).names <+: (st'.symbols m).names := by
  rw [Store.symbols, Store.symbols, h.table hm]
  exact h.names _

end Touches

namespace Keeps

theorem refl (st : Store H) (n : Nat) : st.Keeps n st := ⟨.refl st n, rfl⟩

theorem trans (h : st.Keeps n st') (h' : st'.Keeps n st'') : st.Keeps n st'' :=
  ⟨h.toTouches.trans h'.toTouches, h'.same.trans h.same⟩

theorem session (h : st.Keeps n st') (m : Nat) : st'.session m = st.session m := by
  rw [Store.session, h.same, Store.session]

theorem symbols (h : st.Keeps n st') (m : Nat) :
    (st.symbols m).names <+: (st'.symbols m).names := by
  rw [Store.symbols, Store.symbols, h.session m]
  exact h.names _

end Keeps

/-! ### Sessions after a step -/

theorem session_modifySession_self (hn : n < st.sessions.size) (f : Session H → Session H) :
    (st.modifySession n f).session n = f (st.session n) := by
  show ((st.sessions.modify n f)[n]?).getD default = f (st.sessions[n]?.getD default)
  rw [Array.getElem?_modify, if_pos rfl, Array.getElem?_eq_getElem hn]
  rfl

theorem session_modifySession_of_ne (hne : m ≠ n) (f : Session H → Session H) :
    (st.modifySession n f).session m = st.session m := by
  simp [session, modifySession, Array.getElem?_modify, Ne.symm hne]

theorem symbols_setSymbols (ht : (st.session n).table < st.tables.size) (t : SymbolTable) :
    (st.setSymbols n t).symbols n = t := by
  show ((st.tables.modify (st.session n).table fun _ => t)[(st.session n).table]?).getD ∅ = t
  rw [Array.getElem?_modify, if_pos rfl, Array.getElem?_eq_getElem ht]
  rfl

theorem session_duplicate_self :
    (st.duplicate n).2.session st.sessions.size = { st.session n with program := [] } := by
  simp [session, duplicate]

theorem session_duplicate_of_lt (hm : m < st.sessions.size) :
    (st.duplicate n).2.session m = st.session m := by
  simp [session, duplicate, Array.getElem?_push, Nat.ne_of_lt hm]

/-! ### Steps -/

theorem keeps_setSymbols {t : SymbolTable} (ht : (st.symbols n).names <+: t.names) :
    st.Keeps n (st.setSymbols n t) where
  behaviours h := h
  coroutines h := h
  names i := by
    show _ <+: ((st.tables.modify (st.session n).table fun _ => t)[i]?.getD ∅).names
    rw [Array.getElem?_modify]
    split
    · next hi =>
      subst hi
      rw [Store.symbols] at ht
      cases hget : st.tables[(st.session n).table]? with
      | none => exact List.prefix_refl _
      | some t₀ =>
        rw [hget] at ht
        exact ht
    · exact List.prefix_refl _
  tables := Array.size_modify
  sessions := Nat.le_refl _
  others _ _ := rfl
  table _ := rfl
  sound h := ⟨h.start, h.coroutines⟩
  same := rfl

theorem keeps_nextCell (nextCell : Nat) : st.Keeps n { st with nextCell := nextCell } where
  behaviours h := h
  coroutines h := h
  names _ := List.prefix_refl _
  tables := rfl
  sessions := Nat.le_refl _
  others _ _ := rfl
  table _ := rfl
  sound h := ⟨h.start, h.coroutines⟩
  same := rfl

theorem keeps_retain (v : Value) : st.Keeps n (st.retain v).2 := keeps_nextCell _

/-- What stands in an array stays where it is when something is put at its end. -/
theorem getElem?_push_of_some {α : Type} {xs : Array α} {i : Nat} {x : α} (h : xs[i]? = some x)
    (y : α) : (xs.push y)[i]? = some x := by
  have hi : i < xs.size := (Array.getElem?_eq_some_iff.mp h).1
  rw [Array.getElem?_push, if_neg (Nat.ne_of_lt hi), h]

theorem keeps_addBuiltin (name : String) (b : Behaviour H) :
    st.Keeps n (st.addBuiltin name b).2 where
  behaviours h := getElem?_push_of_some h b
  coroutines h := h
  names _ := List.prefix_refl _
  tables := rfl
  sessions := Nat.le_refl _
  others _ _ := rfl
  table _ := rfl
  sound h := ⟨getElem?_push_of_some h.start b, h.coroutines⟩
  same := rfl

theorem keeps_addCoroutine {sid : Nat} (hsid : sid < st.sessions.size) :
    st.Keeps n (st.addCoroutine sid).2 where
  behaviours h := h
  coroutines h := getElem?_push_of_some h _
  names _ := List.prefix_refl _
  tables := rfl
  sessions := Nat.le_refl _
  others _ _ := rfl
  table _ := rfl
  sound h := by
    refine ⟨h.start, fun {id c} hc => ?_⟩
    replace hc : (st.coroutines.push { session := sid })[id]? = some c := hc
    rw [Array.getElem?_push] at hc
    split at hc
    · cases hc
      exact hsid
    · exact h.coroutines hc
  same := rfl

theorem touches_modifySession {f : Session H → Session H} (hf : ∀ se, (f se).table = se.table) :
    st.Touches n (st.modifySession n f) where
  behaviours h := h
  coroutines h := h
  names _ := List.prefix_refl _
  tables := rfl
  sessions := by simp [modifySession]
  others _ hne := session_modifySession_of_ne hne f
  table {m} hm := by
    by_cases hmn : m = n
    · subst hmn
      rw [session_modifySession_self hm, hf]
    · rw [session_modifySession_of_ne hmn]
  sound h := ⟨h.start, fun hc => by simpa [modifySession] using h.coroutines hc⟩

theorem touches_duplicate : st.Touches n (st.duplicate n).2 where
  behaviours h := h
  coroutines h := h
  names _ := List.prefix_refl _
  tables := rfl
  sessions := by simp [duplicate]
  others hm _ := session_duplicate_of_lt hm
  table hm := by rw [session_duplicate_of_lt hm]
  sound h := by
    refine ⟨h.start, fun hc => ?_⟩
    have hlt := h.coroutines hc
    simp only [duplicate, Array.size_push]
    omega

/-! ### Names -/

theorem keeps_intern (name : String) : st.Keeps n (st.intern n name).2 :=
  keeps_setSymbols ((st.symbols n).names_isPrefixOf_insert name)

theorem keeps_place (v : Value) : st.Keeps n (st.place n v).2 :=
  keeps_setSymbols (Value.names_interned v _)

theorem keeps_placeAll (vs : List Value) : st.Keeps n (st.placeAll n vs).2 :=
  keeps_setSymbols (Value.names_internedItems vs _)

/-- The symbol that a session hands out for a name is the one of its table. -/
theorem find?_intern (ht : (st.session n).table < st.tables.size) (name : String) :
    ((st.intern n name).2.symbols n).find? name = some (st.intern n name).1 := by
  show ((st.setSymbols n ((st.symbols n).intern name).2).symbols n).find? name = _
  rw [symbols_setSymbols ht]
  exact (st.symbols n).find?_intern name

/-! ### Operations -/

theorem keeps_key (k : Value) : st.Keeps n (st.key n k).2 := by
  cases k with
  | str name => exact keeps_intern name
  | _ => exact .refl st n

theorem touches_define (k v : Value) : st.Touches n (st.define n k v).2 := by
  have hkey := st.keeps_key (n := n) k
  rw [define]
  split
  · next s st₁ hk =>
    rw [hk] at hkey
    exact (hkey.trans (keeps_retain v)).toTouches.trans (touches_modifySession fun _ => rfl)
  · next k' st₁ _ hk =>
    rw [hk] at hkey
    exact hkey.toTouches

theorem keeps_lookup (k : Value) : st.Keeps n (st.lookup n k).2 := by
  have hkey := st.keeps_key (n := n) k
  rw [lookup]
  split
  · next s st₁ hk =>
    rw [hk] at hkey
    split <;> exact hkey
  · next k' st₁ _ hk =>
    rw [hk] at hkey
    exact hkey

theorem touches_addFunction (name : String) (b : Behaviour H) :
    st.Touches n (st.addFunction n name b).2 :=
  ((keeps_addBuiltin name b).trans (keeps_intern name)).toTouches.trans
    (touches_modifySession fun _ => rfl)

theorem touches_addMacro (name : String) (b : Behaviour H) :
    st.Touches n (st.addMacro n name b).2 :=
  ((keeps_addBuiltin name b).trans (keeps_intern name)).toTouches.trans
    (touches_modifySession fun _ => rfl)

theorem touches_loadForms (forms : List Value) : st.Touches n (st.loadForms n forms).2 := by
  rw [loadForms]
  split
  · exact .refl st n
  · exact (keeps_nextCell _).toTouches.trans (touches_modifySession fun _ => rfl)

theorem touches_loadParsed (parsed : Reader.Parsed) : st.Touches n (st.loadParsed n parsed).2 := by
  rw [loadParsed]
  split
  · exact .refl st n
  · exact touches_loadForms parsed.forms

theorem touches_loadText (text : String) : st.Touches n (st.loadText n text).2 := by
  have hnames := Reader.names_parseAll (tokens text) (st.symbols n)
  rw [loadText]
  split
  · next parsed reader hread =>
    have hkept : st.Keeps n (st.setSymbols n reader.symbols) := by
      refine keeps_setSymbols ?_
      rw [Reader.ofText, TokenStream.ofText] at hread
      rwa [hread] at hnames
    exact hkept.toTouches.trans (touches_loadParsed parsed)
  · next e reader hread =>
    refine (keeps_setSymbols ?_).toTouches
    rw [Reader.ofText, TokenStream.ofText] at hread
    rwa [hread] at hnames

/-- What `go` does depends on whether the copy can load the forms. -/
theorem go_eq (forms : List Value) :
    st.go n forms =
      match (st.duplicate n).2.loadForms st.sessions.size forms with
      | (.error e, _) => (.error e, st)
      | (.ok (), st₁) =>
        (.ok (.ofList [.symbol (((st₁.addCoroutine st.sessions.size).2.intern n "apply").1),
            Builtin.start.toValue, .array [.coroutine st₁.coroutines.size]]),
          ((st₁.addCoroutine st.sessions.size).2.intern n "apply").2) := rfl

theorem touches_go (forms : List Value) : st.Touches n (st.go n forms).2 := by
  rcases hst : (st.duplicate n).2.loadForms st.sessions.size forms with ⟨e | u, st₁⟩
  · rw [go_eq, hst]
    exact .refl st n
  · rw [go_eq, hst]
    have hload := (st.duplicate n).2.touches_loadForms (n := st.sessions.size) forms
    rw [hst] at hload
    have hlive : st.sessions.size < st₁.sessions.size := by
      have hsize := hload.sessions
      simp only [duplicate, Array.size_push] at hsize
      omega
    have hkept : st₁.Keeps n ((st₁.addCoroutine st.sessions.size).2.intern n "apply").2 :=
      (keeps_addCoroutine hlive).trans (keeps_intern "apply")
    exact (touches_duplicate.andThen hload (.inr (Nat.le_refl _))).trans hkept.toTouches

/-- Expanding a macro looks for its name. -/
theorem expander_eq (name : String) :
    st.expander n name =
      match ((st.intern n name).2.session n).macros.get? (st.intern n name).1 with
      | some f => (.ok f, (st.intern n name).2)
      | none => (.error (.noMacro name), (st.intern n name).2) := rfl

/-- Where `go` is a macro at all, expanding it makes a coroutine. -/
theorem expand_go (hgo : st.expandsGo n) (args : List Value) :
    st.expand? n "go" args =
      match ((st.intern n "go").2.session n).macros.get? (st.intern n "go").1 with
      | some _ => some ((st.intern n "go").2.go n args)
      | none => some (.error (.noMacro "go"), (st.intern n "go").2) := by
  rw [expandsGo, expander_eq] at hgo
  rw [expand?, expander_eq]
  cases hget : ((st.intern n "go").2.session n).macros.get? (st.intern n "go").1 with
  | none => rfl
  | some f =>
    rw [hget] at hgo
    show Store.invoke? _ n f args = _
    rw [Store.invoke?]
    cases hf : (st.intern n "go").2.behaviours[f.id]? with
    | none => simp [hf] at hgo
    | some b => cases b <;> simp [hf] at hgo ⊢

/-- **An operation on a session leaves all else alone.** -/
theorem touches_perform {op : Operation H} {a : Except Error Value}
    (h : st.perform? n op = some (a, st')) : st.Touches n st' := by
  cases op with
  | define key v =>
    cases h
    have hplaced : st.Keeps n ((st.place n key).2.place n v).2 :=
      (keeps_place key).trans (keeps_place v)
    exact hplaced.toTouches.trans (touches_define _ _)
  | addFunction name b =>
    cases h
    exact touches_addFunction name b
  | addMacro name b =>
    cases h
    exact touches_addMacro name b
  | lookup key =>
    obtain ⟨rfl, rfl⟩ := Prod.mk.inj (Option.some.inj h)
    have hplaced : st.Keeps n (st.place n key).2 := keeps_place key
    exact (hplaced.trans (keeps_lookup _)).toTouches
  | find key =>
    cases h
    exact (keeps_place key).toTouches
  | loadText text =>
    cases h
    exact touches_loadText text
  | loadForms forms =>
    cases h
    have hplaced : st.Keeps n (st.placeAll n forms).2 := keeps_placeAll forms
    exact hplaced.toTouches.trans (touches_loadForms _)
  | go args =>
    have hplaced : st.Keeps n (st.placeAll n args).2 := keeps_placeAll args
    have hintern : (st.placeAll n args).2.Keeps n ((st.placeAll n args).2.intern n "go").2 :=
      keeps_intern "go"
    rw [perform?] at h
    by_cases hgo : (st.placeAll n args).2.expandsGo n
    · simp only [hgo, if_true] at h
      rw [expand_go hgo] at h
      split at h
      · obtain ⟨rfl, rfl⟩ := Prod.mk.inj (Option.some.inj h)
        exact (hplaced.trans hintern).toTouches.trans (touches_go _)
      · cases h
        exact (hplaced.trans hintern).toTouches
    · simp [hgo] at h
  | duplicate =>
    cases h
    exact touches_duplicate

end LispCore.Store
