import LispCore.Proofs.Session.Refinement

/-!
Sessions of one family do not disturb each other.

A `World` is a store with the sessions of a family in it, told by their lineages, and with the
answers that they got. `World.step?` lets one of them carry out the next operation of its script,
and `World.run?` follows a schedule.

Whatever the schedule, a world is what its sessions are by themselves (`Follows`): each looks as it
would without the others, and got the answers that it would have got. One step keeps it so
(`Follows.step`).
-/

namespace LispCore

variable {H : Host}

/-! ### Families at work -/

/-- A store with a family of sessions in it. Each is known by its lineage, and the log says what was
answered to each, in order. -/
structure World (H : Host) where
  store : Store H
  number? : Lineage → Option Nat
  holder : Nat → Holder
  log : List (Lineage × SeenResult H) := []

namespace World

variable (u : World H)

/-- A family with its first session only. -/
def start (st : Store H) (n : Nat) : World H where
  store := st
  number? p := if p = [] then some n else none
  holder m := if m = n then .member [] else .outside m

/-- What numbers stand for. -/
def registry : Registry H := u.store.registry u.holder

/-- The answers that a session got. -/
def results (p : Lineage) : List (SeenResult H) := (u.log.filter (·.1 = p)).map (·.2)

/-- How many operations a session has carried out. -/
def taken (p : Lineage) : Nat := (u.results p).length

/-- How a session looks. -/
def look? (p : Lineage) : Option (View H) :=
  (u.number? p).map fun n => (u.store.session n).view u.registry

/-- The family in another store. If that has one session more, it is a member of that lineage. -/
def moved (st : Store H) (child : Lineage) : World H :=
  { u with
    store := st
    number? := fun p =>
      if p = child ∧ u.store.sessions.size < st.sessions.size then some u.store.sessions.size
      else u.number? p
    holder := fun m =>
      if m = u.store.sessions.size ∧ m < st.sessions.size then .member child else u.holder m }

/-- The family after an operation of a session, with its answer. -/
def advanced (p : Lineage) (a : Except Error Value) (st : Store H) : World H :=
  let v := u.moved st (u.taken p :: p)
  { v with log := v.log ++ [(p, seenResult v.registry a)] }

/-- A session carries out the next operation of its script. -/
def step? (script : Lineage → List (Operation H)) (p : Lineage) : Option (World H) :=
  match u.number? p, (script p)[u.taken p]? with
  | some n, some op =>
    (u.store.perform? n op).map fun (a, st) => u.advanced p a st
  | _, _ => none

/-- Sessions carry out operations one after another. -/
def run? (script : Lineage → List (Operation H)) (u : World H) (schedule : List Lineage) :
    Option (World H) :=
  schedule.foldlM (fun u p => u.step? script p) u

variable {u : World H} {script : Lineage → List (Operation H)} {p q : Lineage}
  {a : Except Error Value} {st : Store H} {m : Nat}

/-- A step is an operation on the session, with its answer. -/
theorem step?_eq_some {u' : World H} (h : u.step? script p = some u') :
    ∃ n op a st, u.number? p = some n ∧ (script p)[u.taken p]? = some op ∧
      u.store.perform? n op = some (a, st) ∧ u' = u.advanced p a st := by
  rw [step?] at h
  split at h
  · next n op hn hop =>
    obtain ⟨⟨a, st⟩, hperform, rfl⟩ := Option.map_eq_some_iff.mp h
    exact ⟨n, op, a, st, hn, hop, hperform, rfl⟩
  · cases h

/-- A member of the family is new, or it was there before. -/
theorem number?_advanced_cases (h : (u.advanced p a st).number? q = some m) :
    (q = u.taken p :: p ∧ m = u.store.sessions.size ∧ m < st.sessions.size) ∨
      u.number? q = some m := by
  simp only [advanced, moved] at h
  split at h
  · next hnew =>
    cases h
    exact .inl ⟨hnew.1, rfl, hnew.2⟩
  · exact .inr h

theorem number?_advanced_of_ne (h : q ≠ u.taken p :: p) :
    (u.advanced p a st).number? q = u.number? q :=
  if_neg fun hnew => h hnew.1

theorem isSome_number?_advanced (h : u.number? (u.taken p :: p) = none) :
    ((u.advanced p a st).number? (u.taken p :: p)).isSome ↔
      u.store.sessions.size < st.sessions.size := by
  simp only [advanced, moved]
  split
  · next hnew => simp [hnew.2]
  · next hold =>
    rw [h]
    simpa using hold

theorem results_advanced_self :
    (u.advanced p a st).results p =
      u.results p ++ [seenResult (u.advanced p a st).registry a] := by
  have hregistry : (u.advanced p a st).registry = (u.moved st (u.taken p :: p)).registry := rfl
  rw [hregistry]
  simp [results, advanced, moved]

theorem results_advanced_of_ne (h : q ≠ p) : (u.advanced p a st).results q = u.results q := by
  simp [results, advanced, moved, Ne.symm h]

theorem taken_advanced_self : (u.advanced p a st).taken p = u.taken p + 1 := by
  rw [taken, results_advanced_self, List.length_append, taken]
  rfl

theorem taken_advanced_of_ne (h : q ≠ p) : (u.advanced p a st).taken q = u.taken q := by
  rw [taken, results_advanced_of_ne h, taken]

end World

/-! ### Each session by itself -/

namespace Family

variable {F : Family H} {p : Lineage} {w : View H} {k : Nat} {op : Operation H}

theorem viewAfter_succ (hop : (F.script p)[k]? = some op) :
    F.viewAfter p w (k + 1) =
      ((F.viewAfter p w k).perform F.registry (k :: p) op).view := by
  rw [viewAfter, hop]

theorem effectAt_eq (hop : (F.script p)[k]? = some op) :
    F.effectAt p w k = some ((F.viewAfter p w k).perform F.registry (k :: p) op) := by
  rw [effectAt, hop, Option.map_some]

theorem resultsBefore_succ (hop : (F.script p)[k]? = some op) :
    F.resultsBefore p w (k + 1) =
      F.resultsBefore p w k ++ [((F.viewAfter p w k).perform F.registry (k :: p) op).result] := by
  rw [resultsBefore, List.range_succ, List.filterMap_append, resultsBefore, List.filterMap_cons,
    effectAt_eq hop]
  rfl

theorem initial_cons (hp : F.initial p = some w) (hop : (F.script p)[k]? = some op) :
    F.initial (k :: p) = ((F.viewAfter p w k).perform F.registry (k :: p) op).child := by
  rw [initial, hp, Option.bind_some, effectAt_eq hop, Option.bind_some]

end Family

/-- A session of a family that started as `w` did what its script says, as it would by itself. -/
structure Ran (F : Family H) (u : World H) (p : Lineage) (n : Nat) (w : View H) : Prop where
  view : Sees u.registry u.store n (F.viewAfter p w (u.taken p))
  results : u.results p = F.resultsBefore p w (u.taken p)
  allowed : ∀ k, k < u.taken p →
    ∃ op, (F.script p)[k]? = some op ∧ (F.viewAfter p w k).allows op

/-- Each session of a world is as it would be by itself, and those are there that have been made. -/
structure Follows (F : Family H) (u : World H) : Prop where
  sound : u.store.Sound
  grows : F.registry.Grows u.registry
  root : (u.number? []).isSome
  held : ∀ {p n}, u.number? p = some n → u.holder n = .member p
  ran : ∀ {p n}, u.number? p = some n → ∃ w, F.initial p = some w ∧ Ran F u p n w
  made : ∀ {k p}, (u.number? (k :: p)).isSome ↔ k < u.taken p ∧ (F.initial (k :: p)).isSome
  idle : ∀ {p}, u.number? p = none → u.taken p = 0
  shared : ∀ {p q n m}, u.number? p = some n → u.number? q = some m →
    (u.store.session n).table = (u.store.session m).table

/-- The numbers in the operations of a family are known. -/
def Family.Known (F : Family H) : Prop :=
  ∀ p, ∀ op ∈ F.script p, ∀ v ∈ op.values, v.Known F.registry

namespace Follows

variable {F : Family H} {u u' : World H} {p q : Lineage} {n : Nat}

/-- Sessions of different lineages have different numbers. -/
theorem number_inj (h : Follows F u) (hp : u.number? p = some n) (hq : u.number? q = some n) :
    p = q := by
  have hsame := (h.held hp).symm.trans (h.held hq)
  cases hsame
  rfl

/-- The next operation of a session has not made one yet. -/
theorem number?_next (h : Follows F u) (p : Lineage) : u.number? (u.taken p :: p) = none := by
  rw [← Option.not_isSome_iff_eq_none, h.made]
  exact fun hlt => Nat.lt_irrefl _ hlt.1

theorem live (h : Follows F u) (hn : u.number? p = some n) : n < u.store.sessions.size := by
  obtain ⟨w, -, hran⟩ := h.ran hn
  exact hran.view.live

section Step

variable (hF : F.Known) (h : Follows F u) {op : Operation H} {a : Except Error Value}
  {st : Store H} (hn : u.number? p = some n) (hop : (F.script p)[u.taken p]? = some op)
  (hperform : u.store.perform? n op = some (a, st))

include hF h hn hop hperform

/-- What an operation of a session does to the world. -/
theorem does :
    u.registry.Grows (u.advanced p a st).registry ∧
    ∃ w, F.initial p = some w ∧ Ran F u p n w ∧
      Does (u.advanced p a st).registry u.store n
        ((F.viewAfter p w (u.taken p)).perform F.registry (u.taken p :: p) op) a st := by
  have htouches := Store.touches_perform hperform
  have hgrows : u.registry.Grows (u.advanced p a st).registry := by
    refine Store.registry_grows h.sound htouches fun m hm => ?_
    exact if_neg fun hnew => absurd hnew.1 (Nat.ne_of_lt hm)
  obtain ⟨w, hw, hran⟩ := h.ran hn
  have hknown := hF p op (List.mem_of_getElem? hop)
  refine ⟨hgrows, w, hw, hran, ?_⟩
  rw [← View.perform_grows _ _ (h.grows.trans hgrows) hknown]
  refine does_perform h.sound (hran.view.mono hgrows)
    (fun v hv => (hknown v hv).mono (h.grows.trans hgrows)) hperform (.refl _) fun hsize => ?_
  exact if_pos ⟨rfl, Nat.lt_of_le_of_ne htouches.sessions (Ne.symm hsize)⟩

/-- After a step the session is as it would be by itself. -/
theorem ran_self : ∃ w, F.initial p = some w ∧ Ran F (u.advanced p a st) p n w := by
  obtain ⟨-, w, hw, hran, hdoes⟩ := does hF h hn hop hperform
  refine ⟨w, hw, ?_, ?_, fun k hk => ?_⟩
  · rw [World.taken_advanced_self, Family.viewAfter_succ hop]
    exact hdoes.view
  · rw [World.taken_advanced_self, Family.resultsBefore_succ hop, World.results_advanced_self,
      ← hran.results, ← hdoes.result]
  · rw [World.taken_advanced_self] at hk
    rcases Nat.lt_succ_iff_lt_or_eq.mp hk with hk | rfl
    · exact hran.allowed k hk
    · refine ⟨op, hop, ?_⟩
      rw [← perform?_isSome_iff hran.view, hperform]
      rfl

/-- After a step of another session a session is as it was. -/
theorem ran_other {m : Nat} {w : View H} (hqp : q ≠ p) (hm : u.number? q = some m)
    (hran : Ran F u q m w) : Ran F (u.advanced p a st) q m w := by
  obtain ⟨hgrows, -⟩ := does hF h hn hop hperform
  have htouches := Store.touches_perform hperform
  have hmn : m ≠ n := fun heq => hqp (h.number_inj hm (heq ▸ hn))
  refine ⟨?_, ?_, ?_⟩
  · rw [World.taken_advanced_of_ne hqp]
    exact (hran.view.mono hgrows).touched htouches (htouches.others hran.view.live hmn)
  · rw [World.taken_advanced_of_ne hqp, World.results_advanced_of_ne hqp]
    exact hran.results
  · rw [World.taken_advanced_of_ne hqp]
    exact hran.allowed

/-- A session is made just if one is to be made, and it starts as it would by itself. -/
theorem ran_child :
    (u.store.sessions.size = st.sessions.size ∧ F.initial (u.taken p :: p) = none) ∨
    ∃ w, u.store.sessions.size < st.sessions.size ∧ F.initial (u.taken p :: p) = some w ∧
      (∃ program, st.session u.store.sessions.size =
        { u.store.session n with program := program }) ∧
      Ran F (u.advanced p a st) (u.taken p :: p) u.store.sessions.size w := by
  obtain ⟨-, w, hw, hran, hdoes⟩ := does hF h hn hop hperform
  rw [Family.initial_cons hw hop]
  cases hchild : ((F.viewAfter p w (u.taken p)).perform F.registry (u.taken p :: p) op).child with
  | none => exact .inl ⟨(hdoes.alone hchild).symm, rfl⟩
  | some c =>
    obtain ⟨hsize, hview, hcopy, -⟩ := hdoes.child c hchild
    have htaken : (u.advanced p a st).taken (u.taken p :: p) = 0 := by
      rw [World.taken_advanced_of_ne (List.cons_ne_self _ _)]
      exact h.idle (h.number?_next p)
    refine .inr ⟨c, by omega, rfl, hcopy, ?_, ?_, fun k hk => ?_⟩
    · rw [htaken]
      exact hview
    · rw [htaken]
      exact List.eq_nil_of_length_eq_zero htaken
    · rw [htaken] at hk
      exact absurd hk (Nat.not_lt_zero k)

/-- Every member is as it would be by itself. -/
theorem ran_advanced {m : Nat} (hm : (u.advanced p a st).number? q = some m) :
    ∃ w, F.initial q = some w ∧ Ran F (u.advanced p a st) q m w := by
  rcases World.number?_advanced_cases hm with ⟨rfl, rfl, hgrew⟩ | hold
  · rcases ran_child hF h hn hop hperform with ⟨hsize, -⟩ | ⟨w, -, hw, -, hran⟩
    · exact absurd hsize (Nat.ne_of_lt hgrew)
    · exact ⟨w, hw, hran⟩
  · by_cases hqp : q = p
    · subst hqp
      cases hn.symm.trans hold
      exact ran_self hF h hn hop hperform
    · obtain ⟨w, hw, hran⟩ := h.ran hold
      exact ⟨w, hw, ran_other hF h hn hop hperform hqp hold hran⟩

/-- Those sessions are there that have been made. -/
theorem made_advanced {k : Nat} :
    ((u.advanced p a st).number? (k :: q)).isSome ↔
      k < (u.advanced p a st).taken q ∧ (F.initial (k :: q)).isSome := by
  by_cases hkq : k :: q = u.taken p :: p
  · cases hkq
    rw [World.isSome_number?_advanced (h.number?_next p), World.taken_advanced_self]
    rcases ran_child hF h hn hop hperform with ⟨hsize, hw⟩ | ⟨w, hsize, hw, -⟩
    · simp [hw, hsize]
    · simp [hw, hsize]
  · rw [World.number?_advanced_of_ne hkq, h.made]
    by_cases hqp : q = p
    · subst hqp
      have hk : k ≠ u.taken q := fun heq => hkq (heq ▸ rfl)
      rw [World.taken_advanced_self]
      constructor
      · exact fun hmade => ⟨by omega, hmade.2⟩
      · exact fun hmade => ⟨by omega, hmade.2⟩
    · rw [World.taken_advanced_of_ne hqp]

/-- All members have the table of the one that took the step. -/
theorem table_advanced {m : Nat} (hm : (u.advanced p a st).number? q = some m) :
    (st.session m).table = (u.store.session n).table := by
  rcases World.number?_advanced_cases hm with ⟨rfl, rfl, hgrew⟩ | hold
  · rcases ran_child hF h hn hop hperform with ⟨hsize, -⟩ | ⟨w, -, -, ⟨program, hcopy⟩, -⟩
    · exact absurd hsize (Nat.ne_of_lt hgrew)
    · rw [hcopy]
  · rw [(Store.touches_perform hperform).table (h.live hold), h.shared hold hn]

end Step

/-- **One step keeps each session as it would be by itself.** -/
theorem step (h : Follows F u) (hF : F.Known) (hstep : u.step? F.script p = some u') :
    Follows F u' := by
  obtain ⟨n, op, a, st, hn, hop, hperform, rfl⟩ := World.step?_eq_some hstep
  obtain ⟨hgrows, -⟩ := does hF h hn hop hperform
  refine {
    sound := (Store.touches_perform hperform).sound h.sound
    grows := h.grows.trans hgrows
    root := ?root
    held := fun {q m} hm => ?held
    ran := ran_advanced hF h hn hop hperform
    made := made_advanced hF h hn hop hperform
    idle := fun {q} hnone => ?idle
    shared := fun hm hm' => (table_advanced hF h hn hop hperform hm).trans
      (table_advanced hF h hn hop hperform hm').symm }
  case root =>
    rw [World.number?_advanced_of_ne (List.cons_ne_nil _ _).symm]
    exact h.root
  case held =>
    rcases World.number?_advanced_cases hm with ⟨rfl, rfl, hgrew⟩ | hold
    · exact if_pos ⟨rfl, hgrew⟩
    · refine (if_neg ?_).trans (h.held hold)
      exact fun hnew => absurd hnew.1 (Nat.ne_of_lt (h.live hold))
  case idle =>
    have hqp : q ≠ p := by
      rintro rfl
      rw [World.number?_advanced_of_ne (List.cons_ne_self _ _).symm, hn] at hnone
      cases hnone
    have hold : u.number? q = none := by
      by_cases hq : q = u.taken p :: p
      · exact hq ▸ h.number?_next p
      · rwa [World.number?_advanced_of_ne hq] at hnone
    rw [World.taken_advanced_of_ne hqp]
    exact h.idle hold

end Follows

end LispCore
