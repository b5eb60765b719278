import LispCore.Proofs.Session.World
import LispCore.Session.Lisp

/-!
Sessions of one family do not disturb each other.

Each session of a family carries out the operations of its script, and a schedule says in which
order they all take their turns. Along every run each session stays as it would be by itself
(`Follows.run`), so two runs in which each has done as much give the same answers and leave the same
sessions behind (`Follows.agree`). And a schedule can be replaced by any other in which no session
has a turn before it is made (`Follows.exists_run`).

`duplicates_isolated` puts this together with what holds of the records themselves: one step changes
no other session, a child starts as a copy of its parent, and all have the same symbols.
-/

namespace LispCore

variable {H : Host} {st : Store H} {n : Nat}

/-! ### Runs -/

namespace World

variable {script : Lineage → List (Operation H)} {u u' : World H} {p q : Lineage}
  {schedule : List Lineage}

theorem run?_cons (u : World H) (p : Lineage) (schedule : List Lineage) :
    u.run? script (p :: schedule) = (u.step? script p).bind (·.run? script schedule) :=
  List.foldlM_cons

theorem run?_cons_eq_some (h : u.run? script (p :: schedule) = some u') :
    ∃ v, u.step? script p = some v ∧ v.run? script schedule = some u' :=
  Option.bind_eq_some_iff.mp (run?_cons u p schedule ▸ h)

theorem taken_step (h : u.step? script p = some u') (q : Lineage) :
    u'.taken q = u.taken q + [p].count q := by
  obtain ⟨n, op, a, st, -, -, -, rfl⟩ := step?_eq_some h
  by_cases hqp : q = p
  · subst hqp
    rw [taken_advanced_self, List.count_singleton_self]
  · rw [taken_advanced_of_ne hqp, List.count_eq_zero_of_not_mem (by simpa using hqp)]
    rfl

/-- A session has carried out as many operations as it had turns. -/
theorem taken_run (h : u.run? script schedule = some u') (q : Lineage) :
    u'.taken q = u.taken q + schedule.count q := by
  induction schedule generalizing u with
  | nil =>
    cases h
    rfl
  | cons p schedule ih =>
    obtain ⟨v, hstep, hrun⟩ := run?_cons_eq_some h
    rw [ih hrun, taken_step hstep, Nat.add_assoc, ← List.count_append, List.singleton_append]

end World

/-- No session has a turn before the operation that makes it, where some turns have been taken. -/
def inOrder (taken : List Lineage) : List Lineage → Bool
  | [] => true
  | [] :: schedule => inOrder ([] :: taken) schedule
  | (k :: p) :: schedule => decide (k < taken.count p) && inOrder ((k :: p) :: taken) schedule

theorem inOrder_cons {taken schedule : List Lineage} {p : Lineage}
    (h : inOrder taken (p :: schedule)) :
    (∀ k parent, p = k :: parent → k < taken.count parent) ∧ inOrder (p :: taken) schedule := by
  cases p with
  | nil => exact ⟨fun _ _ hp => (List.cons_ne_nil _ _ hp.symm).elim, h⟩
  | cons k parent =>
    rw [inOrder, Bool.and_eq_true] at h
    refine ⟨?_, h.2⟩
    rintro _ _ ⟨⟩
    exact of_decide_eq_true h.1

namespace Follows

variable {F : Family H} {u u' : World H} {p q : Lineage} {schedule : List Lineage}

/-- **A run keeps each session as it would be by itself.** -/
theorem run (h : Follows F u) (hF : F.Known) (hrun : u.run? F.script schedule = some u') :
    Follows F u' := by
  induction schedule generalizing u with
  | nil =>
    cases hrun
    exact h
  | cons p schedule ih =>
    obtain ⟨v, hstep, hrun⟩ := World.run?_cons_eq_some hrun
    exact ih (h.step hF hstep) hrun

/-- Where each session has done as much, the same sessions are there. -/
theorem isSome_number?_eq (h : Follows F u) (h' : Follows F u')
    (htaken : ∀ q, u'.taken q = u.taken q) (p : Lineage) :
    (u'.number? p).isSome = (u.number? p).isSome := by
  cases p with
  | nil => rw [h.root, h'.root]
  | cons k p => rw [Bool.eq_iff_iff, h.made, h'.made, htaken]

/-- **Where each session has done as much, it got the same answers and looks the same.** -/
theorem agree (h : Follows F u) (h' : Follows F u') (htaken : ∀ q, u'.taken q = u.taken q)
    (p : Lineage) : u'.results p = u.results p ∧ u'.look? p = u.look? p := by
  have hsame := isSome_number?_eq h h' htaken p
  cases hn : u.number? p with
  | none =>
    rw [hn] at hsame
    have hn' : u'.number? p = none := by simpa using hsame
    refine ⟨?_, ?_⟩
    · rw [List.eq_nil_of_length_eq_zero (h.idle hn), List.eq_nil_of_length_eq_zero (h'.idle hn')]
    · rw [World.look?, World.look?, hn, hn']
      rfl
  | some n =>
    rw [hn] at hsame
    obtain ⟨n', hn'⟩ := Option.isSome_iff_exists.mp hsame
    obtain ⟨w, hw, hran⟩ := h.ran hn
    obtain ⟨w', hw', hran'⟩ := h'.ran hn'
    obtain rfl : w' = w := Option.some.inj (hw'.symm.trans hw)
    refine ⟨?_, ?_⟩
    · rw [hran.results, hran'.results, htaken]
    · rw [World.look?, World.look?, hn, hn', Option.map_some, Option.map_some, hran.view.view_eq,
        hran'.view.view_eq, htaken]

/-- A session can take a turn that it took in another world. -/
theorem exists_step (h : Follows F u) (h' : Follows F u') (hturn : u.taken p < u'.taken p)
    (hmade : (u.number? p).isSome) : ∃ v, u.step? F.script p = some v := by
  obtain ⟨n, hn⟩ := Option.isSome_iff_exists.mp hmade
  obtain ⟨n', hn'⟩ : ∃ n', u'.number? p = some n' := by
    refine Option.ne_none_iff_exists'.mp fun hnone => ?_
    rw [h'.idle hnone] at hturn
    exact Nat.not_lt_zero _ hturn
  obtain ⟨w, hw, hran⟩ := h.ran hn
  obtain ⟨w', hw', hran'⟩ := h'.ran hn'
  obtain rfl : w' = w := Option.some.inj (hw'.symm.trans hw)
  obtain ⟨op, hop, hallows⟩ := hran'.allowed _ hturn
  obtain ⟨⟨a, st⟩, hperform⟩ :=
    Option.isSome_iff_exists.mp ((perform?_isSome_iff hran.view op).mpr hallows)
  refine ⟨u.advanced p a st, ?_⟩
  rw [World.step?, hn, hop]
  simp only [hperform, Option.map_some]

/-- **The turns of a run can be taken in any order** that gives no session one before it is made. -/
theorem exists_run (h' : Follows F u') (hF : F.Known) (h : Follows F u) {taken : List Lineage}
    (htaken : ∀ q, u.taken q = taken.count q)
    (hturns : ∀ q, u.taken q + schedule.count q ≤ u'.taken q) (horder : inOrder taken schedule) :
    ∃ v, u.run? F.script schedule = some v := by
  induction schedule generalizing u taken with
  | nil => exact ⟨u, rfl⟩
  | cons p schedule ih =>
    obtain ⟨hp, horder⟩ := inOrder_cons horder
    have hturn : u.taken p < u'.taken p := by
      have hle := hturns p
      rw [List.count_cons_self] at hle
      omega
    have hmade : (u.number? p).isSome := by
      cases p with
      | nil => exact h.root
      | cons k parent =>
        refine h.made.mpr ⟨?_, ?_⟩
        · rw [htaken]
          exact hp k parent rfl
        · refine (h'.made.mp ?_).2
          refine Option.isSome_iff_ne_none.mpr fun hnone => ?_
          rw [h'.idle hnone] at hturn
          exact Nat.not_lt_zero _ hturn
    obtain ⟨v, hstep⟩ := h.exists_step h' hturn hmade
    have hcount (q : Lineage) : v.taken q = (p :: taken).count q := by
      rw [World.taken_step hstep, htaken, Nat.add_comm, ← List.count_append, List.singleton_append]
    have hrest (q : Lineage) : v.taken q + schedule.count q ≤ u'.taken q := by
      rw [World.taken_step hstep, Nat.add_assoc, ← List.count_append]
      exact hturns q
    obtain ⟨v', hrun⟩ := ih (h.step hF hstep) hcount hrest horder
    refine ⟨v', ?_⟩
    rw [World.run?_cons, hstep]
    exact hrun

end Follows

/-! ### Records -/

/-- What a turn of session `p` of a family leaves alone: no other session changes, and one that is
made is a copy of its parent, as that is before and after, with the body of the operation as its
program. -/
structure Undisturbed (script : Lineage → List (Operation H)) (u : World H) (p : Lineage)
    (u' : World H) : Prop where
  members : ∀ q m, u.number? q = some m → u'.number? q = some m
  others : ∀ q m, u.number? q = some m → q ≠ p → u'.store.session m = u.store.session m
  child : ∀ op n m, (script p)[u.taken p]? = some op → u.number? p = some n →
    u'.number? (u.taken p :: p) = some m →
    u'.store.session n = u.store.session n ∧
    ∃ program, u'.store.session m = { u.store.session n with program := program } ∧
      program.map (Value.seen u'.registry) = op.body.map (Value.seen u'.registry)

/-- A name that is interned in a session of a family at one time has the same symbol in each of its
sessions at another. -/
def KeepsSymbols (u u' : World H) : Prop :=
  ∀ p n name s, u.number? p = some n → (u.store.symbols n).find? name = some s →
    ∀ q m, u'.number? q = some m → (u'.store.symbols m).intern name = (s, u'.store.symbols m)

namespace Follows

variable {F : Family H} {u u' : World H} {p : Lineage} {schedule : List Lineage}

theorem number?_step (h : Follows F u) (hstep : u.step? F.script p = some u') {q : Lineage}
    {m : Nat} (hm : u.number? q = some m) : u'.number? q = some m := by
  obtain ⟨n, op, a, st, -, -, -, rfl⟩ := World.step?_eq_some hstep
  rw [World.number?_advanced_of_ne, hm]
  rintro rfl
  rw [h.number?_next] at hm
  cases hm

/-- **A turn of a session disturbs no other.** -/
theorem undisturbed (h : Follows F u) (hF : F.Known) (hstep : u.step? F.script p = some u') :
    Undisturbed F.script u p u' := by
  have hmembers {q m} (hm : u.number? q = some m) := h.number?_step hstep hm
  obtain ⟨n, op, a, st, hn, hop, hperform, rfl⟩ := World.step?_eq_some hstep
  refine ⟨fun q m hm => hmembers hm, fun q m hm hqp => ?_, ?_⟩
  · refine (Store.touches_perform hperform).others (h.live hm) ?_
    rintro rfl
    exact hqp (h.number_inj hm hn)
  · intro op' n' m hop' hn' hm
    cases hop.symm.trans hop'
    cases hn.symm.trans hn'
    obtain ⟨hgrows, w, -, -, hdoes⟩ := does hF h hn hop hperform
    obtain ⟨-, rfl, hgrew⟩ | hold := World.number?_advanced_cases hm
    · cases hchild :
          ((F.viewAfter p w (u.taken p)).perform F.registry (u.taken p :: p) op).child with
      | none => exact absurd (hdoes.alone hchild) (Nat.ne_of_gt hgrew)
      | some c =>
        obtain ⟨-, hview, ⟨program, hcopy⟩, hparent⟩ := hdoes.child c hchild
        refine ⟨hparent, program, hcopy, ?_⟩
        have hprogram := hview.program
        rw [hcopy, View.program_child hchild] at hprogram
        have hknown (v : Value) (hv : v ∈ op.body) : v.Known F.registry :=
          hF p op (List.mem_of_getElem? hop) v (Operation.mem_values_of_body hv)
        rw [Value.map_seen_eq hknown (h.grows.trans hgrows)]
        exact hprogram
    · rw [h.number?_next] at hold
      cases hold

/-- A member of a family keeps its number and its names. -/
theorem names_run (h : Follows F u) (hF : F.Known) (hrun : u.run? F.script schedule = some u')
    {n : Nat} (hn : u.number? p = some n) :
    u'.number? p = some n ∧ (u.store.symbols n).names <+: (u'.store.symbols n).names := by
  induction schedule generalizing u with
  | nil =>
    cases hrun
    exact ⟨hn, List.prefix_refl _⟩
  | cons q schedule ih =>
    obtain ⟨v, hstep, hrun⟩ := World.run?_cons_eq_some hrun
    obtain ⟨hn', hnames⟩ := ih (h.step hF hstep) hrun (h.number?_step hstep hn)
    refine ⟨hn', List.IsPrefix.trans ?_ hnames⟩
    obtain ⟨m, op, a, st, -, -, hperform, rfl⟩ := World.step?_eq_some hstep
    exact (Store.touches_perform hperform).symbols (h.live hn)

/-- **All sessions of a family have the same symbols**, at all times. -/
theorem keepsSymbols (h : Follows F u) (hF : F.Known)
    (hrun : u.run? F.script schedule = some u') : KeepsSymbols u u' := by
  intro p n name s hn hs q m hm
  obtain ⟨hn', hnames⟩ := h.names_run hF hrun hn
  have hsame : u'.store.symbols m = u'.store.symbols n := by
    rw [Store.symbols, (h.run hF hrun).shared hm hn', Store.symbols]
  rw [hsame]
  exact SymbolTable.intern_of_find? (SymbolTable.find?_of_isPrefix hnames hs)

end Follows

/-! ### Families of duplicates -/

/-- A session that a family can start from: its keys are the symbols of their names, and all numbers
in its values are known. -/
structure Store.Rooted (st : Store H) (n : Nat) : Prop where
  sound : st.Sound
  sees : ∃ w, Sees (World.start st n).registry st n w

/-- The family of a session where each has its script. -/
def World.family (script : Lineage → List (Operation H)) (st : Store H) (n : Nat) : Family H where
  script := script
  registry := (World.start st n).registry
  root := (st.session n).view (World.start st n).registry

/-- A family starts as its first session is. -/
theorem follows_start (h : st.Rooted n) (script : Lineage → List (Operation H)) :
    Follows (World.family script st n) (World.start st n) := by
  obtain ⟨hsound, w, hw⟩ := h
  have hmember {p m} (hm : (World.start st n).number? p = some m) : p = [] ∧ m = n := by
    replace hm : (if p = [] then some n else none) = some m := hm
    split at hm
    · next hp => exact ⟨hp, (Option.some.inj hm).symm⟩
    · cases hm
  refine {
    sound := hsound
    grows := .refl _
    root := rfl
    held := fun {p m} hm => ?held
    ran := fun {p m} hm => ?ran
    made := fun {k p} => ?made
    idle := fun _ => rfl
    shared := fun {p q m₁ m₂} h₁ h₂ => ?shared }
  case held =>
    obtain ⟨rfl, rfl⟩ := hmember hm
    exact if_pos rfl
  case ran =>
    obtain ⟨rfl, rfl⟩ := hmember hm
    refine ⟨_, rfl, ?_, rfl, fun k hk => absurd hk (Nat.not_lt_zero k)⟩
    rw [← hw.view_eq] at hw
    exact hw
  case made =>
    constructor
    · intro hsome
      obtain ⟨m, hm⟩ := Option.isSome_iff_exists.mp hsome
      exact absurd (hmember hm).1 (List.cons_ne_nil k p)
    · exact fun hlt => absurd hlt.1 (Nat.not_lt_zero k)
  case shared =>
    rw [(hmember h₁).2, (hmember h₂).2]

theorem sound_empty : (Store.Sound ({} : Store H)) :=
  ⟨rfl, fun hc => by simp at hc⟩

/-- A session that was just made can be the first of a family. -/
theorem rooted_addSession (hs : st.Sound) (evaluator : Option H.Evaluator) :
    (st.addSession evaluator).2.Rooted st.sessions.size := by
  have hself : (st.addSession evaluator).2.session st.sessions.size =
      { evaluator, table := st.tables.size } := by
    simp [Store.session, Store.addSession]
  have hlive : st.sessions.size < (st.addSession evaluator).2.sessions.size := by
    simp [Store.addSession]
  refine ⟨⟨hs.start, fun hc => Nat.lt_trans (hs.coroutines hc) hlive⟩, ⟨evaluator, [], [], []⟩, ?_⟩
  refine {
    live := hlive
    table := ?_
    evaluator := by rw [hself]
    bindings := by rw [hself]; exact .empty _ _ _
    macros := by rw [hself]; exact .empty _ _ _
    program := by rw [hself]; rfl
    known := by rw [hself]; exact fun v hv => absurd hv List.not_mem_nil }
  rw [hself]
  simp [Store.addSession]

/-- Each session of a family is one that a family can start from. -/
theorem Follows.rooted {F : Family H} {u : World H} {p : Lineage} (h : Follows F u)
    (hn : u.number? p = some n) : u.store.Rooted n := by
  obtain ⟨w, -, hran⟩ := h.ran hn
  refine ⟨h.sound, _, hran.view.again (fun id hid => hid) fun id hid => ?_⟩
  replace hid : ((u.store.coroutines[id]?).map fun c => u.holder c.session).isSome := hid
  show ((u.store.coroutines[id]?).map fun c => (World.start u.store n).holder c.session).isSome
  rw [Option.isSome_map] at hid ⊢
  exact hid

/-- **The sessions of a family are isolated.** Let a family start from one session, and let each of
its sessions have a script of operations, with the sessions made by `duplicate` and by `go` among
them.

* If all turns of a run are taken in another order, in which no session has one before it is made,
  that is a run too. Each operation gives the same answer in both, and each session has the same
  bindings, the same macros and the same program, as they are seen: symbols by name, functions by
  what they do, and coroutines by the sessions that they hold.
* A turn of one session changes no other, and one that it makes starts as a copy of it whose program
  is empty, or for `go` what it was given.
* A name that is interned in one of the sessions has the same symbol in all, then and later. -/
theorem duplicates_isolated {script : Lineage → List (Operation H)} (hroot : st.Rooted n)
    (hscript : ∀ p, ∀ op ∈ script p, ∀ v ∈ op.values, v.Known (World.start st n).registry)
    {schedule schedule' : List Lineage} {u : World H}
    (hrun : (World.start st n).run? script schedule = some u)
    (hperm : schedule'.Perm schedule) (horder : inOrder [] schedule') :
    (∃ u', (World.start st n).run? script schedule' = some u' ∧
      ∀ p, u'.results p = u.results p ∧ u'.look? p = u.look? p) ∧
    (∀ turns v p v', (World.start st n).run? script turns = some v →
      v.step? script p = some v' → Undisturbed script v p v') ∧
    (∀ turns v later v', (World.start st n).run? script turns = some v →
      v.run? script later = some v' → KeepsSymbols v v') := by
  have hF : (World.family script st n).Known := hscript
  have hstart := follows_start hroot script
  have hfollows : Follows (World.family script st n) u := hstart.run hF hrun
  have htaken (q : Lineage) : u.taken q = schedule'.count q := by
    rw [World.taken_run hrun, hperm.count_eq]
    exact Nat.zero_add _
  refine ⟨?_, fun turns v p v' hturns hstep => ?_, fun turns v later v' hturns hlater => ?_⟩
  · have hturns (q : Lineage) : (World.start st n).taken q + schedule'.count q ≤ u.taken q := by
      rw [htaken]
      exact Nat.le_of_eq (Nat.zero_add _)
    obtain ⟨u', hrun'⟩ := hfollows.exists_run hF hstart (fun _ => rfl) hturns horder
    refine ⟨u', hrun', hfollows.agree (hstart.run hF hrun') fun q => ?_⟩
    rw [htaken, World.taken_run hrun']
    exact Nat.zero_add _
  · exact (hstart.run hF hturns).undisturbed hF hstep
  · exact (hstart.run hF hturns).keepsSymbols hF hlater

/-! ### A family of three -/

/-- A session that copies itself twice, by `duplicate` and by `go`, and binds a name anew
afterwards. -/
def snapshotScript (p : Lineage) : List (Operation Lisp.host) :=
  if p = [] then
    [.addMacro "go" .go, .define (.str "x") (.int 1), .duplicate, .go [.symbol ⟨"f", 0⟩],
      .define (.str "x") (.int 3)]
  else if p = [2] then [.define (.symbol ⟨"x", 0⟩) (.int 2), .lookup (.str "x")]
  else if p = [3] then [.lookup (.str "x")]
  else []

theorem known_snapshotScript (r : Registry Lisp.host) (p : Lineage) :
    ∀ op ∈ snapshotScript p, ∀ v ∈ op.values, v.Known r := by
  intro op hop v hv
  rw [snapshotScript] at hop
  have hatom : (∃ s, v = .str s) ∨ (∃ k, v = .int k) ∨ ∃ s, v = .symbol s := by
    grind [Operation.values]
  rcases hatom with ⟨s, rfl⟩ | ⟨k, rfl⟩ | ⟨s, rfl⟩
  · exact .str
  · exact .int
  · exact .symbol

/-- Whether the copies work before their parent binds the name anew or after, they see what it was
bound to when they were made. -/
theorem duplicates_isolated_snapshots :
    ∃ u u' : World Lisp.host,
      (World.start ((({} : Store Lisp.host).addSession none).2) 0).run? snapshotScript
        [[], [], [], [], [], [2], [2], [3]] = some u ∧
      (World.start ((({} : Store Lisp.host).addSession none).2) 0).run? snapshotScript
        [[], [], [], [2], [], [3], [2], []] = some u' ∧
      ∀ p, u'.results p = u.results p ∧ u'.look? p = u.look? p := by
  have hrun : ((World.start ((({} : Store Lisp.host).addSession none).2) 0).run? snapshotScript
      [[], [], [], [], [], [2], [2], [3]]).isSome := by decide +kernel
  obtain ⟨u, hu⟩ := Option.isSome_iff_exists.mp hrun
  obtain ⟨⟨u', hu', hagree⟩, -, -⟩ := duplicates_isolated (rooted_addSession sound_empty none)
    (known_snapshotScript _) hu
    (show [[], [], [], [2], [], [3], [2], []].Perm [[], [], [], [], [], [2], [2], [3]] by decide)
    (by decide)
  exact ⟨u, u', hu, hu', hagree⟩

end LispCore
