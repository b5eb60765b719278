import LispCore.Proofs.Session.Course
import LispCore.Session.Lisp

/-!
Names and what they are bound to, along histories.

A copy of a session shares its symbol table, so the sessions that descend from one (`root`) are a
family with one table, which only ever grows at its end. That makes the symbol of a name the same at
all times, and what a session has under it what was put there last, by the session itself or by
those it descends from before the copy was made (`latest`). Binding a name never fails
(`Store.carriesOut_define`). Functions and macros are kept apart, and both are known by names
(`History.known_by_name`).
-/

namespace LispCore

variable {H : Host} {st st' : Store H} {d : Deed H} {n : Nat} {se : Session H} {s : Symbol}

/-! ### Families -/

/-- The session that a session descends from: it, or what it is a copy of, and so on. -/
def root : List (Event H) → Nat → Nat
  | [], n => n
  | e :: es, n => (e.deed.origin? e.before.sessions.size n).elim n (root es)

theorem Deed.origin?_of_lt {sessions : Nat} (hn : n < sessions) : d.origin? sessions n = some n :=
  if_neg (Nat.ne_of_lt hn)

theorem Deed.origin?_created (evaluator : Option H.Evaluator) (sessions : Nat) :
    (Deed.created evaluator).origin? sessions sessions = none := if_pos rfl

theorem Deed.origin?_copied (sid sessions : Nat) :
    (Deed.copied sid : Deed H).origin? sessions sessions = some sid := if_pos rfl

theorem Deed.origin?_spawned (sid sessions : Nat) (forms : List Value) :
    (Deed.spawned sid forms : Deed H).origin? sessions sessions = some sid := if_pos rfl

/-- A session has the table of what it was before, or a table of its own if it was nothing. -/
theorem Store.Becomes.table (h : st.Becomes d n se) :
    (d.origin? st.sessions.size n = none ∧ n = st.sessions.size ∧ se.table = st.tables.size) ∨
      ∃ m < st.sessions.size, d.origin? st.sessions.size n = some m ∧
        se.table = (st.session m).table := by
  cases h with
  | created evaluator => exact .inl ⟨Deed.origin?_created _ _, rfl, rfl⟩
  | bound hsid | named hsid | loaded hsid | same hsid =>
    exact .inr ⟨n, hsid, Deed.origin?_of_lt hsid, rfl⟩
  | copied hsid => exact .inr ⟨_, hsid, Deed.origin?_copied _ _, rfl⟩
  | spawned hsid => exact .inr ⟨_, hsid, Deed.origin?_spawned _ _ _, rfl⟩

/-! ### What was done last -/

/-- A key that stands for a symbol: the symbol or its name. -/
def Value.isKeyOf (s : Symbol) : Value → Bool
  | .symbol s' => s' == s
  | .str name => name == s.name
  | _ => false

/-- What a deed binds a symbol of a session to. -/
def Deed.binds? (d : Deed H) (n : Nat) (s : Symbol) : Option Value :=
  match d with
  | .bound sid key v => if sid = n ∧ key.isKeyOf s then some v else none
  | _ => none

/-- The macro to which a deed gives the name of a symbol in a session. -/
def Deed.names? (d : Deed H) (n : Nat) (s : Symbol) : Option Value :=
  match d with
  | .named sid name f => if sid = n ∧ name = s.name then some f else none
  | _ => none

/-- What was last put under a symbol in a session, or in what it was before it was made. -/
def latest (puts? : Deed H → Nat → Symbol → Option Value) :
    List (Event H) → Nat → Symbol → Option Value
  | [], _, _ => none
  | e :: es, n, s =>
    (puts? e.deed n s).or
      ((e.deed.origin? e.before.sessions.size n).bind fun m => latest puts? es m s)

/-- No other symbol is in a table under the name of a symbol. -/
def SymbolTable.Admits (t : SymbolTable) (s : Symbol) : Prop :=
  ∀ s', t.find? s.name = some s' → s' = s

theorem SymbolTable.Admits.of_isPrefix {t t' : SymbolTable} (h : t'.Admits s)
    (ht : t.names <+: t'.names) : t.Admits s :=
  fun s' hs' => h s' (find?_of_isPrefix ht hs')

/-- Where no other symbol has the name, the keys of a symbol are those that stand for it. -/
theorem Value.StandsFor.isKeyOf_iff {t : SymbolTable} {key : Value} {s₀ : Symbol}
    (h : key.StandsFor t s₀) (hs : t.Admits s) : key.isKeyOf s = true ↔ s = s₀ := by
  obtain rfl | ⟨rfl, hfind⟩ := h
  · rw [isKeyOf, beq_iff_eq, eq_comm]
  · constructor
    · intro hkey
      have hname : s₀.name = s.name := by simpa [isKeyOf] using hkey
      rw [hname] at hfind
      exact (hs s₀ hfind).symm
    · rintro rfl
      exact beq_self_eq_true _

theorem Deed.binds?_of_session?_ne (h : d.session? ≠ some n) : d.binds? n s = none := by
  cases d with
  | bound sid key v => exact if_neg fun hsid => h (congrArg some hsid.1)
  | _ => rfl

theorem Deed.names?_of_session?_ne (h : d.session? ≠ some n) : d.names? n s = none := by
  cases d with
  | named sid name f => exact if_neg fun hsid => h (congrArg some hsid.1)
  | _ => rfl

/-- A deed binds a symbol in a session or names a macro there, or the session has all the bindings
and macros of what it was before. -/
theorem Store.Becomes.acts (h : st.Becomes d n se) :
    (∃ key v s₀ w, n < st.sessions.size ∧ d = .bound n key v ∧ key.StandsFor (st.symbols n) s₀ ∧
      v.KeptAs w ∧ se = { st.session n with bindings := (st.session n).bindings.set s₀ w }) ∨
    (∃ s₀ f, n < st.sessions.size ∧ d = .named n s₀.name f.toValue ∧
      (st.symbols n).find? s₀.name = some s₀ ∧
      se = { st.session n with macros := (st.session n).macros.set s₀ f }) ∨
    (∀ s, d.binds? n s = none ∧ d.names? n s = none) ∧
      ((d.origin? st.sessions.size n = none ∧ ∃ evaluator table, se = { evaluator, table }) ∨
        ∃ m program, d.origin? st.sessions.size n = some m ∧
          se = { st.session m with program }) := by
  cases h with
  | created evaluator =>
    exact .inr (.inr ⟨fun s => ⟨rfl, rfl⟩, .inl ⟨Deed.origin?_created _ _, _, _, rfl⟩⟩)
  | bound hsid hkey hkept => exact .inl ⟨_, _, _, _, hsid, rfl, hkey, hkept, rfl⟩
  | named hsid hname hfind =>
    subst hname
    exact .inr (.inl ⟨_, _, hsid, rfl, hfind, rfl⟩)
  | loaded hsid =>
    exact .inr (.inr ⟨fun s => ⟨rfl, rfl⟩, .inr ⟨n, _, Deed.origin?_of_lt hsid, rfl⟩⟩)
  | copied =>
    exact .inr (.inr ⟨fun s => ⟨rfl, rfl⟩, .inr ⟨_, _, Deed.origin?_copied _ _, rfl⟩⟩)
  | spawned =>
    exact .inr (.inr ⟨fun s => ⟨rfl, rfl⟩, .inr ⟨_, _, Deed.origin?_spawned _ _ _, rfl⟩⟩)
  | same hn hd =>
    refine .inr (.inr ⟨fun s => ⟨?_, ?_⟩, .inr ⟨n, _, Deed.origin?_of_lt hn, rfl⟩⟩)
    · exact Deed.binds?_of_session?_ne hd
    · exact Deed.names?_of_session?_ne hd

/-- What is got of a session is what a deed puts there, or what was got of what it was before. -/
def Traces (puts? : Deed H → Nat → Symbol → Option Value)
    (get : Session H → Symbol → Option Value) : Prop :=
  ∀ {st : Store H} {d : Deed H} {n : Nat} {se : Session H} {s : Symbol}, st.Becomes d n se →
    (∀ m, d.origin? st.sessions.size n = some m → (st.symbols m).Admits s) →
    (∃ v w, puts? d n s = some v ∧ v.KeptAs w ∧ get se s = some w) ∨
      (puts? d n s = none ∧
        get se s = (d.origin? st.sessions.size n).bind fun m => get (st.session m) s)

theorem traces_bindings : Traces (H := H) Deed.binds? fun se s => se.bindings.get? s := by
  intro st d n se s h hs
  obtain ⟨key, v, s₀, w, hn, rfl, hkey, hkept, rfl⟩ | ⟨s₀, f, hn, rfl, -, rfl⟩ |
    ⟨hnone, hrest⟩ := h.acts
  · have horigin := Deed.origin?_of_lt hn (d := (.bound n key v : Deed H))
    have hiff := hkey.isKeyOf_iff (hs n horigin)
    by_cases heq : s = s₀
    · refine .inl ⟨v, w, if_pos ⟨rfl, hiff.mpr heq⟩, hkept, ?_⟩
      rw [heq]
      exact Bindings.get?_set_self _ _ _
    · refine .inr ⟨if_neg fun hand => heq (hiff.mp hand.2), ?_⟩
      rw [horigin]
      exact Bindings.get?_set_of_ne _ _ heq
  · refine .inr ⟨rfl, ?_⟩
    rw [Deed.origin?_of_lt hn]
    rfl
  · refine .inr ⟨(hnone s).1, ?_⟩
    obtain ⟨horigin, _, _, rfl⟩ | ⟨m, _, horigin, rfl⟩ := hrest <;> rw [horigin] <;> rfl

theorem traces_macros :
    Traces (H := H) Deed.names? fun se s => (se.macros.get? s).map Builtin.toValue := by
  intro st d n se s h hs
  obtain ⟨key, v, s₀, w, hn, rfl, -, -, rfl⟩ | ⟨s₀, f, hn, rfl, hfind, rfl⟩ |
    ⟨hnone, hrest⟩ := h.acts
  · refine .inr ⟨rfl, ?_⟩
    rw [Deed.origin?_of_lt hn]
    rfl
  · have horigin := Deed.origin?_of_lt hn (d := (.named n s₀.name f.toValue : Deed H))
    by_cases heq : s = s₀
    · refine .inl ⟨f.toValue, f.toValue, if_pos ⟨rfl, congrArg _ heq.symm⟩,
        Value.keptAs_builtin _ _, ?_⟩
      rw [heq]
      exact congrArg (·.map Builtin.toValue) (Bindings.get?_set_self _ _ _)
    · refine .inr ⟨if_neg fun hand => ?_, ?_⟩
      · rw [hand.2] at hfind
        exact heq (hs n horigin s₀ hfind).symm
      · rw [horigin]
        exact congrArg (·.map Builtin.toValue) (Bindings.get?_set_of_ne _ _ heq)
  · refine .inr ⟨(hnone s).2, ?_⟩
    obtain ⟨horigin, _, _, rfl⟩ | ⟨m, _, horigin, rfl⟩ := hrest <;> rw [horigin] <;> rfl

/-! ### Along a history -/

/-- What is got of the sessions of a store is what was put there, as it is kept. -/
def Store.Shows (st : Store H) (get : Session H → Symbol → Option Value)
    (put : Nat → Symbol → Option Value) : Prop :=
  ∀ n < st.sessions.size, ∀ s, (st.symbols n).Admits s →
    Option.Rel Value.KeptAs (put n s) (get (st.session n) s)

variable {puts? : Deed H → Nat → Symbol → Option Value} {get : Session H → Symbol → Option Value}
  {put : Nat → Symbol → Option Value}

/-- What was put under a symbol is got, as it is kept. -/
theorem Store.Shows.of_some (h : st.Shows get put) (hn : n < st.sessions.size)
    (hs : (st.symbols n).Admits s) {v : Value} (hv : put n s = some v) :
    ∃ w, v.KeptAs w ∧ get (st.session n) s = some w := by
  have hshown := h n hn s hs
  rw [hv] at hshown
  cases hget : get (st.session n) s with
  | none =>
    rw [hget] at hshown
    cases hshown
  | some w =>
    rw [hget] at hshown
    cases hshown with
    | some hkept => exact ⟨w, hkept, rfl⟩

/-- Nothing is got where nothing was put. -/
theorem Store.Shows.of_none (h : st.Shows get put) (hn : n < st.sessions.size)
    (hs : (st.symbols n).Admits s) (hv : put n s = none) : get (st.session n) s = none := by
  have hshown := h n hn s hs
  rw [hv] at hshown
  cases hget : get (st.session n) s with
  | none => rfl
  | some w =>
    rw [hget] at hshown
    cases hshown

theorem Store.Shows.quiet (h : st.Shows get put) (hq : st.Quiet st') : st'.Shows get put := by
  intro n hn s hs
  rw [hq.session]
  rw [hq.sessions] at hn
  exact h n hn s (hs.of_isPrefix (hq.symbols n))

theorem Store.Shows.change (hf : Traces puts? get) (h : st.Shows get put)
    (hc : st.Change d st') :
    st'.Shows get fun n s =>
      (puts? d n s).or ((d.origin? st.sessions.size n).bind fun m => put m s) := by
  intro n hn s hs
  have hbecomes := hc.becomes hn
  have hadmits (m : Nat) (hm : d.origin? st.sessions.size n = some m) :
      m < st.sessions.size ∧ (st.symbols m).Admits s := by
    obtain ⟨hnone, -⟩ | ⟨m', hm', horigin, htable⟩ := hbecomes.table
    · rw [hnone] at hm
      cases hm
    · obtain rfl : m' = m := Option.some.inj (horigin.symm.trans hm)
      refine ⟨hm', hs.of_isPrefix ?_⟩
      rw [Store.symbols, Store.symbols, htable]
      exact hc.grows.names _
  obtain ⟨v, w, hputs, hkept, hget⟩ | ⟨hputs, hget⟩ :=
    hf hbecomes fun m hm => (hadmits m hm).2
  · dsimp only
    rw [hputs, hget]
    exact .some hkept
  · dsimp only
    rw [hputs, hget, Option.none_or]
    cases horigin : d.origin? st.sessions.size n with
    | none => exact .none
    | some m => exact h m (hadmits m horigin).1 s (hadmits m horigin).2

/-- **What a session has is what was put there last.** -/
theorem History.shows {es : List (Event H)} (hf : Traces puts? get) (h : History {} es st) :
    st.Shows get (latest puts? es) := by
  induction h with
  | nil => exact fun n hn => nomatch hn
  | cons e hes ih =>
    obtain ⟨st₁, ⟨s₁, s₂, hq, hc, hq'⟩, hafter⟩ :=
      e.exists_done (hes.orderly Store.orderly_empty)
    have hshows := ((ih.quiet hq).change hf hc).quiet hq'
    rw [hq.sessions] at hshows
    rw [hafter]
    exact hshows

/-- A session has the table of what it was before an event, or a new one if it was nothing. -/
theorem Event.table (e : Event H) (ho : e.before.Orderly) (hn : n < e.after.sessions.size) :
    (e.deed.origin? e.before.sessions.size n = none ∧ n = e.before.sessions.size ∧
      (e.after.session n).table = e.before.tables.size) ∨
    ∃ m < e.before.sessions.size, e.deed.origin? e.before.sessions.size n = some m ∧
      (e.after.session n).table = (e.before.session m).table := by
  obtain ⟨s₁, hq, hbecomes⟩ := e.becomes ho hn
  have htable := hbecomes.table
  rw [hq.sessions, hq.tables] at htable
  simp only [hq.session] at htable
  exact htable

/-- A session descends from one that is there. -/
theorem History.root_lt {es : List (Event H)} (h : History {} es st) :
    ∀ n < st.sessions.size, root es n < st.sessions.size := by
  induction h with
  | nil => exact fun n hn => nomatch hn
  | cons e hes ih =>
    intro n hn
    have ho := hes.orderly Store.orderly_empty
    obtain ⟨horigin, -⟩ | ⟨m, hm, horigin, -⟩ := e.table ho hn
    · rw [root, horigin]
      exact hn
    · rw [root, horigin]
      exact Nat.lt_of_lt_of_le (ih m hm) (e.grows ho).sessions

/-- **The sessions of a family have one table**, and no others have it. -/
theorem History.table_eq_iff {es : List (Event H)} (h : History {} es st) :
    ∀ n < st.sessions.size, ∀ m < st.sessions.size,
      (st.session n).table = (st.session m).table ↔ root es n = root es m := by
  induction h with
  | nil => exact fun n hn => nomatch hn
  | @cons es e hes ih =>
    have ho := hes.orderly Store.orderly_empty
    -- A session that is new has a table that no other has, and no other descends from it.
    have hnew {k : Nat} (hk : k < e.before.sessions.size) :
        (e.before.session k).table ≠ e.before.tables.size ∧ root es k ≠ e.before.sessions.size :=
      ⟨Nat.ne_of_lt (ho.tables k hk), Nat.ne_of_lt (hes.root_lt k hk)⟩
    intro n hn m hm
    rw [root, root]
    obtain ⟨hon, hn', htn⟩ | ⟨n', hn', hon, htn⟩ := e.table ho hn
    · obtain ⟨hom, hm', htm⟩ | ⟨m', hm', hom, htm⟩ := e.table ho hm
      · rw [hn', hm']
        exact iff_of_true rfl rfl
      · rw [hon, hom, htn, htm]
        exact iff_of_false (hnew hm').1.symm (hn' ▸ (hnew hm').2.symm)
    · obtain ⟨hom, hm', htm⟩ | ⟨m', hm', hom, htm⟩ := e.table ho hm
      · rw [hon, hom, htn, htm]
        exact iff_of_false (hnew hn').1 (hm' ▸ (hnew hn').2)
      · rw [hon, hom, htn, htm]
        exact ih n' hn' m' hm'

/-! ### Names -/

/-- The keys that mean a name in a session: the name and its symbol. -/
def Store.keysOf (st : Store H) (n : Nat) (name : String) : List Value :=
  [.str name, .symbol (st.intern n name).1]

/-- What is in the sessions of a store, by names. -/
structure Store.ByName (st : Store H) (es : List (Event H)) : Prop where
  /-- Each family has one symbol table. -/
  family : ∀ n < st.sessions.size, ∀ m < st.sessions.size,
    (st.session n).table = (st.session m).table ↔ root es n = root es m
  /-- Its entries have different names and are counted from 0. -/
  distinct : ∀ n < st.sessions.size, ((st.symbols n).symbols.map (·.name)).Nodup ∧
    (st.symbols n).symbols.map (·.id) = List.range (st.symbols n).size
  /-- A name that is new becomes the last of them. -/
  newest : ∀ n < st.sessions.size, ∀ name, name ∉ st.symbols n →
    ((st.intern n name).2.symbols n).symbols = (st.symbols n).symbols ++ [(st.intern n name).1]
  /-- They stay as they are, and at any two times they are the same if their names are. -/
  lasting : ∀ {later st'}, History st later st' →
    ∀ n < st.sessions.size, ∀ m < st'.sessions.size,
      root (later ++ es) n = root (later ++ es) m →
        (st.symbols n).symbols <+: (st'.symbols m).symbols ∧
        ∀ s ∈ (st.symbols n).symbols, ∀ s' ∈ (st'.symbols m).symbols, s = s' ↔ s.name = s'.name
  /-- A name or a symbol can always be bound, and the answer is the value as it is kept. -/
  binds : ∀ n < st.sessions.size, ∀ {key s}, Value.isKeyOf s key = true → ∀ v,
    st.CarriesOut n (.request (.define key v)) fun w d => v.KeptAs w ∧ d = .bound n key v
  /-- A function can always be added, which binds its name to it, and so can a macro. -/
  adds : ∀ n < st.sessions.size, ∀ name b,
    (st.CarriesOut n (.addFunction name b) fun f d =>
      f = .builtin st.behaviours.size name ∧ d = .bound n (.str name) f) ∧
    st.CarriesOut n (.addMacro name b) fun f d =>
      f = .builtin st.behaviours.size name ∧ d = .named n name f
  /-- A name or its symbol is bound to the value that it was bound to last. -/
  bound : ∀ n < st.sessions.size, ∀ {name v},
    latest Deed.binds? es n (st.intern n name).1 = some v →
      (∃ w, v.KeptAs w ∧ ∀ key ∈ st.keysOf n name, (st.lookup n key).1 = .ok w) ∧
      st.isBound n (.symbol (st.intern n name).1) = .ok true
  /-- It is unbound if it never was bound. -/
  unbound : ∀ n < st.sessions.size, ∀ {name},
    latest Deed.binds? es n (st.intern n name).1 = none →
      (∀ key ∈ st.keysOf n name,
        (st.lookup n key).1 = .error (.unbound (.symbol (st.intern n name).1))) ∧
      st.isBound n (.symbol (st.intern n name).1) = .ok false
  /-- The macro of a name is the one that was given the name last. -/
  expands : ∀ n < st.sessions.size, ∀ {name v},
    latest Deed.names? es n (st.intern n name).1 = some v →
      ∃ f, v = f.toValue ∧
        ∀ args, st.expand? n name args = (st.intern n name).2.invoke? n f args
  /-- There is none if none was given it. -/
  noMacro : ∀ n < st.sessions.size, ∀ {name},
    latest Deed.names? es n (st.intern n name).1 = none → ∀ args,
      st.expand? n name args = some (.error (.noMacro name), (st.intern n name).2)
  /-- Bindings change by binding only, and macros by making macros. -/
  apart : ∀ e : Event H, e.before = st → ∀ n < st.sessions.size,
    ((∀ key v, e.deed ≠ .bound n key v) →
      (e.after.session n).bindings = (st.session n).bindings) ∧
    ((∀ name f, e.deed ≠ .named n name f) → (e.after.session n).macros = (st.session n).macros)

theorem Store.admits_intern (st : Store H) (n : Nat) (name : String) :
    (st.symbols n).Admits (st.intern n name).1 := by
  intro s hs
  have hintern : (st.symbols n).intern name = (s, st.symbols n) :=
    SymbolTable.intern_of_find? hs
  show s = ((st.symbols n).intern name).1
  rw [hintern]

theorem Store.lookup_str (st : Store H) (n : Nat) (name : String) :
    st.lookup n (.str name) =
      match (st.session n).bindings.get? (st.intern n name).1 with
      | some v => (.ok v, (st.intern n name).2)
      | none => (.error (.unbound (.symbol (st.intern n name).1)), (st.intern n name).2) := rfl

theorem Store.lookup_symbol (st : Store H) (n : Nat) (s : Symbol) :
    st.lookup n (.symbol s) =
      match (st.session n).bindings.get? s with
      | some v => (.ok v, st)
      | none => (.error (.unbound (.symbol s)), st) := rfl

/-- A name and its symbol are looked up alike. -/
theorem Store.lookup_keysOf {key : Value} {name : String} (hkey : key ∈ st.keysOf n name) :
    (st.lookup n key).1 =
      match (st.session n).bindings.get? (st.intern n name).1 with
      | some v => .ok v
      | none => .error (.unbound (.symbol (st.intern n name).1)) := by
  obtain rfl | hkey := List.mem_cons.mp hkey
  · rw [lookup_str]
    cases (st.session n).bindings.get? (st.intern n name).1 <;> rfl
  · obtain rfl := List.mem_singleton.mp hkey
    rw [lookup_symbol]
    cases (st.session n).bindings.get? (st.intern n name).1 <;> rfl

/-- A deed that neither binds anything in a session nor names a macro there changes none of its
bindings or macros. -/
theorem Store.Becomes.apart (h : st.Becomes d n se) (hn : n < st.sessions.size) :
    ((∀ key v, d ≠ .bound n key v) → se.bindings = (st.session n).bindings) ∧
      ((∀ name f, d ≠ .named n name f) → se.macros = (st.session n).macros) := by
  cases h with
  | bound => exact ⟨fun hd => absurd rfl (hd _ _), fun _ => rfl⟩
  | named => exact ⟨fun _ => rfl, fun hd => absurd rfl (hd _ _)⟩
  | created | copied | spawned => exact absurd hn (Nat.lt_irrefl _)
  | loaded | same => exact ⟨fun _ => rfl, fun _ => rfl⟩

/-- A name or a symbol can be bound. -/
theorem Store.carriesOut_define {key : Value} (hn : n < st.sessions.size)
    (hkey : key.isKeyOf s = true) (v : Value) :
    st.CarriesOut n (.request (.define key v)) fun w d => v.KeptAs w ∧ d = .bound n key v := by
  have hkept : v.KeptAs (v.label st.nextCell).1 := ⟨st.nextCell, rfl⟩
  cases key with
  | str name | symbol s' => exact carriesOut hn rfl ⟨hkept, rfl⟩
  | _ => cases hkey

/-- **What is in sessions is known by names** in every state that a store can come to. -/
theorem History.known_by_name {es : List (Event H)} (h : History {} es st) : st.ByName es where
  family := h.table_eq_iff
  distinct n _ := by
    rw [SymbolTable.map_name_symbols]
    exact ⟨(st.symbols n).nodup, (st.symbols n).map_id_symbols⟩
  newest n hn name hname := by
    have ht := (h.orderly Store.orderly_empty).tables n hn
    have hinterned : (st.intern n name).2.symbols n = ((st.symbols n).intern name).2 :=
      Store.symbols_setSymbols ht _
    rw [hinterned]
    exact SymbolTable.symbols_intern_of_not_mem hname
  lasting {later st'} hlater n hn m hm hroot := by
    have hgrows := hlater.grows (h.orderly Store.orderly_empty)
    have hwhole := h.append hlater
    have htable := (hwhole.table_eq_iff n (Nat.lt_of_lt_of_le hn hgrows.sessions) m hm).mpr hroot
    have hnames : (st.symbols n).names <+: (st'.symbols m).names := by
      have hsame := hgrows.symbols hn
      rwa [Store.symbols, Store.symbols, htable] at hsame
    exact ⟨SymbolTable.symbols_isPrefix hnames, fun s hs s' hs' =>
      SymbolTable.eq_iff_of_mem_symbols hnames hs hs'⟩
  binds n hn _ _ hkey v := Store.carriesOut_define hn hkey v
  adds n hn name b := ⟨Store.carriesOut hn rfl ⟨rfl, rfl⟩, Store.carriesOut hn rfl ⟨rfl, rfl⟩⟩
  bound n hn name v hv := by
    obtain ⟨w, hkept, hget⟩ := (h.shows traces_bindings).of_some hn (st.admits_intern n name) hv
    refine ⟨⟨w, hkept, fun key hkey => ?_⟩, ?_⟩
    · rw [Store.lookup_keysOf hkey, hget]
    · rw [Store.isBound, Bindings.contains, hget]
      rfl
  unbound n hn name hv := by
    have hget := (h.shows traces_bindings).of_none hn (st.admits_intern n name) hv
    refine ⟨fun key hkey => ?_, ?_⟩
    · rw [Store.lookup_keysOf hkey, hget]
    · rw [Store.isBound, Bindings.contains, hget]
      rfl
  expands n hn name v hv := by
    obtain ⟨w, hkept, hget⟩ := (h.shows traces_macros).of_some hn (st.admits_intern n name) hv
    obtain ⟨f, hfound, rfl⟩ := Option.map_eq_some_iff.mp hget
    refine ⟨f, Value.eq_builtin_of_keptAs hkept, fun args => ?_⟩
    rw [Store.expand?_eq, hfound]
  noMacro n hn name hv args := by
    have hget := (h.shows traces_macros).of_none hn (st.admits_intern n name) hv
    rw [Store.expand?_eq, Option.map_eq_none_iff.mp hget]
  apart e he n hn := by
    subst he
    have ho := h.orderly Store.orderly_empty
    obtain ⟨s₁, hq, hbecomes⟩ :=
      e.becomes ho (Nat.lt_of_lt_of_le hn (e.grows ho).sessions)
    have happart := hbecomes.apart (by rwa [hq.sessions])
    rw [hq.session] at happart
    exact happart

/-- A name that is bound in a session, bound anew there by its symbol after the session was copied,
and made the name of a macro in the copy: what it is bound to in both. A name that was looked up in
vain is bound after that. -/
theorem known_by_name_of_rebinding :
    ∃ es st, History ({} : Store Lisp.host) es st ∧
      es.reverse.map (·.turn) =
        [.session none, .command 0 (.request (.define (.str "x") (.int 1))),
          .command 0 .duplicate, .command 0 (.request (.define (.symbol ⟨"x", 0⟩) (.int 2))),
          .command 1 (.addMacro "x" .go), .command 1 (.request (.lookup (.str "y")))] ∧
      st.ByName es ∧
      (∀ key ∈ st.keysOf 0 "x", (st.lookup 0 key).1 = .ok (.int 2)) ∧
      (∀ key ∈ st.keysOf 1 "x", (st.lookup 1 key).1 = .ok (.int 1)) ∧
      (∀ key ∈ st.keysOf 1 "y", (st.lookup 1 key).1 = .error (.unbound (.symbol ⟨"y", 1⟩))) ∧
      ∃ e : Event Lisp.host, e.before = st ∧
        e.turn = .command 1 (.request (.define (.str "y") (.int 3))) ∧
        e.answer? = some (.ok (.int 3)) ∧
        ∀ key ∈ e.after.keysOf 1 "y", (e.after.lookup 1 key).1 = .ok (.int 3) := by
  have hreplayed : (({} : Store Lisp.host).replay? [.session none,
      .command 0 (.request (.define (.str "x") (.int 1))), .command 0 .duplicate,
      .command 0 (.request (.define (.symbol ⟨"x", 0⟩) (.int 2))),
      .command 1 (.addMacro "x" .go), .command 1 (.request (.lookup (.str "y")))]).map
        (fun p => (p.2.sessions.size, (p.2.intern 1 "y").1,
          latest Deed.binds? p.1 0 (p.2.intern 0 "x").1,
          latest Deed.binds? p.1 1 (p.2.intern 1 "x").1,
          latest Deed.binds? p.1 1 (p.2.intern 1 "y").1)) =
      some (2, ⟨"y", 1⟩, some (.int 2), some (.int 1), none) := rfl
  obtain ⟨⟨es, st⟩, hreplay, htold⟩ := Option.map_eq_some_iff.mp hreplayed
  obtain ⟨hes, hturns⟩ := History.of_replay? hreplay
  simp only [Prod.mk.injEq] at htold
  obtain ⟨hsize, hsymbol, hx₀, hx₁, hy⟩ := htold
  have hknown := hes.known_by_name
  have hlive₀ : 0 < st.sessions.size := by rw [hsize]; exact Nat.two_pos
  have hlive₁ : 1 < st.sessions.size := by rw [hsize]; exact Nat.one_lt_two
  obtain ⟨⟨_, ⟨_, rfl⟩, hlookup₀⟩, -⟩ := hknown.bound 0 hlive₀ hx₀
  obtain ⟨⟨_, ⟨_, rfl⟩, hlookup₁⟩, -⟩ := hknown.bound 1 hlive₁ hx₁
  obtain ⟨hunbound, -⟩ := hknown.unbound 1 hlive₁ hy
  rw [hsymbol] at hunbound
  -- The copy is asked to bind the name that was unbound.
  obtain ⟨htaken, hdone⟩ :=
    hknown.binds 1 hlive₁ (show Value.isKeyOf ⟨"y", 1⟩ (.str "y") = true from rfl) (.int 3)
  obtain ⟨st', htake⟩ := Option.isSome_iff_exists.mp htaken
  let e : Event Lisp.host := ⟨st, .command 1 (.request (.define (.str "y") (.int 3))), st', htake⟩
  obtain ⟨_, hanswer, ⟨_, rfl⟩, hdeed⟩ := hdone e rfl rfl
  have hgrows := e.grows (hes.orderly Store.orderly_empty)
  have hbound : latest Deed.binds? (e :: es) 1 (e.after.intern 1 "y").1 = some (.int 3) := by
    rw [latest, hdeed]
    rfl
  obtain ⟨⟨_, ⟨_, rfl⟩, hlookup⟩, -⟩ :=
    (History.cons e hes).known_by_name.bound 1 (Nat.lt_of_lt_of_le hlive₁ hgrows.sessions) hbound
  exact ⟨es, st, hes, hturns, hknown, hlookup₀, hlookup₁, hunbound, e, rfl, rfl, hanswer, hlookup⟩

end LispCore
