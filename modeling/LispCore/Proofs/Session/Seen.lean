import LispCore.Proofs.Reader.Known
import LispCore.Session.Store

/-!
Values as they are seen from outside a store.

The numbers in a value depend on everything that was made before it: the identity of a symbol, of a
function, of a coroutine and the labels of pairs. `Seen` is a value without them: a symbol is its
name, a function what it does and its name, a coroutine the session that it holds, a pair its parts.
What the numbers stand for is told by a `Registry`, and registries only grow.

* `Known.seen_eq` — a value whose numbers are known is seen the same for ever;
* `seen_byName`, `seen_label`, `seen_interned` — symbols are seen by name only, and labels not at
  all;
* `known_of_parseAll` — what is read from a text holds nothing of a host.
-/

namespace LispCore

/-- How a session came to be: by which operation of its parent, by which of the parent's parent and
so on, each counted from zero. The first session of a family has no such history. -/
abbrev Lineage := List Nat

/-- A session as others see it: one of a family, or one outside of it by its number. -/
inductive Holder where
  | member (lineage : Lineage)
  | outside (number : Nat)

/-- A value as it is seen from outside. -/
inductive Seen (H : Host) where
  | null
  | endMark
  | bool (b : Bool)
  | int (n : Int)
  | float (x : Binary64)
  | str (s : String)
  | char (c : Char)
  | symbol (name : String)
  | pair (head tail : Seen H)
  | array (items : List (Seen H))
  | builtin (behaviour : Option (Behaviour H)) (name : String)
  | channel (id : Nat) (capacity : Nat)
  | coroutine (holder : Option Holder)

/-- What the numbers of functions and of coroutines stand for. -/
structure Registry (H : Host) where
  behaviour : Nat → Option (Behaviour H)
  holder : Nat → Option Holder

/-- What a registry knows, another knows too. -/
structure Registry.Grows {H : Host} (r r' : Registry H) : Prop where
  behaviour : ∀ {id b}, r.behaviour id = some b → r'.behaviour id = some b
  holder : ∀ {id o}, r.holder id = some o → r'.holder id = some o

/-- An error as it is seen from outside: as it is, or as a reason about a value. -/
inductive SeenError (H : Host) where
  | plain (e : Error)
  | about (reason : Value → Error) (v : Seen H)

variable {H : Host} {r r' : Registry H}

theorem Registry.Grows.refl (r : Registry H) : r.Grows r := ⟨id, id⟩

theorem Registry.Grows.trans {r'' : Registry H} (h : r.Grows r') (h' : r'.Grows r'') :
    r.Grows r'' :=
  ⟨fun hb => h'.behaviour (h.behaviour hb), fun ho => h'.holder (h.holder ho)⟩

namespace Value

mutual

/-- A value as it is seen where a registry tells what numbers stand for. -/
def seen (r : Registry H) : Value → Seen H
  | .null => .null
  | .endMark => .endMark
  | .bool b => .bool b
  | .int n => .int n
  | .float x => .float x
  | .str s => .str s
  | .char c => .char c
  | .symbol s => .symbol s.name
  | .pair _ head tail => .pair (seen r head) (seen r tail)
  | .array items => .array (seenItems r items)
  | .builtin id name => .builtin (r.behaviour id) name
  | .channel id capacity => .channel id capacity
  | .coroutine id => .coroutine (r.holder id)

/-- The items of an array as they are seen. -/
def seenItems (r : Registry H) : List Value → List (Seen H)
  | [] => []
  | x :: xs => seen r x :: seenItems r xs

end

theorem seenItems_eq_map (items : List Value) : seenItems r items = items.map (seen r) := by
  induction items with
  | nil => rfl
  | cons x xs ih => rw [seenItems, ih, List.map_cons]

/-- The numbers in a value are known. -/
inductive Known (r : Registry H) : Value → Prop where
  | null : Known r .null
  | endMark : Known r .endMark
  | bool {b} : Known r (.bool b)
  | int {n} : Known r (.int n)
  | float {x} : Known r (.float x)
  | str {s} : Known r (.str s)
  | char {c} : Known r (.char c)
  | symbol {s} : Known r (.symbol s)
  | pair {cell head tail} : Known r head → Known r tail → Known r (.pair cell head tail)
  | array {items} : (∀ v ∈ items, Known r v) → Known r (.array items)
  | builtin {id name b} : r.behaviour id = some b → Known r (.builtin id name)
  | channel {id capacity} : Known r (.channel id capacity)
  | coroutine {id o} : r.holder id = some o → Known r (.coroutine id)

theorem Known.mono {v : Value} (h : v.Known r) (hr : r.Grows r') : v.Known r' := by
  induction h with
  | pair _ _ ihHead ihTail => exact .pair ihHead ihTail
  | array _ ih => exact .array ih
  | builtin hb => exact .builtin (hr.behaviour hb)
  | coroutine ho => exact .coroutine (hr.holder ho)
  | _ => constructor

/-- **A value whose numbers are known is seen the same for ever.** -/
theorem Known.seen_eq {v : Value} (h : v.Known r) (hr : r.Grows r') : v.seen r' = v.seen r := by
  induction h with
  | pair _ _ ihHead ihTail => rw [seen, seen, ihHead, ihTail]
  | array _ ih =>
    rw [seen, seen, seenItems_eq_map, seenItems_eq_map]
    exact congrArg Seen.array (List.map_congr_left ih)
  | builtin hb => rw [seen, seen, hb, hr.behaviour hb]
  | coroutine ho => rw [seen, seen, ho, hr.holder ho]
  | _ => rw [seen, seen]

/-- Whether the numbers in a value are known depends on which numbers are known only. -/
theorem Known.again {v : Value} (h : v.Known r)
    (hbehaviour : ∀ id, (r.behaviour id).isSome → (r'.behaviour id).isSome)
    (hholder : ∀ id, (r.holder id).isSome → (r'.holder id).isSome) : v.Known r' := by
  induction h with
  | pair _ _ ihHead ihTail => exact .pair ihHead ihTail
  | array _ ih => exact .array ih
  | @builtin id name b hb =>
    obtain ⟨b', hb'⟩ := Option.isSome_iff_exists.mp (hbehaviour id (by rw [hb]; rfl))
    exact .builtin hb'
  | @coroutine id o ho =>
    obtain ⟨o', ho'⟩ := Option.isSome_iff_exists.mp (hholder id (by rw [ho]; rfl))
    exact .coroutine ho'
  | _ => constructor

theorem map_seen_eq {vs : List Value} (h : ∀ v ∈ vs, v.Known r) (hr : r.Grows r') :
    vs.map (seen r') = vs.map (seen r) :=
  List.map_congr_left fun v hv => (h v hv).seen_eq hr

theorem Known.ofList {vs : List Value} {tail : Value} (hvs : ∀ v ∈ vs, v.Known r)
    (htail : tail.Known r) : (Value.ofList vs tail).Known r := by
  induction vs with
  | nil => exact htail
  | cons v vs ih =>
    obtain ⟨hv, hvs⟩ := List.forall_mem_cons.mp hvs
    exact .pair hv (ih hvs)

end Value

/-- The list of some values that ends in a value, as it is seen. -/
def Seen.ofList (items : List (Seen H)) (tail : Seen H := .null) : Seen H := items.foldr .pair tail

namespace Value

theorem seen_ofList (vs : List Value) (tail : Value) :
    (ofList vs tail).seen r = Seen.ofList (vs.map (seen r)) (tail.seen r) := by
  induction vs with
  | nil => rfl
  | cons v vs ih =>
    rw [ofList_cons, cons, seen, ih]
    rfl

/-! ### Symbols and labels -/

mutual

/-- Symbols are seen by name only. -/
theorem seen_byName : (v : Value) → v.byName.seen r = v.seen r
  | .pair cell head tail => by rw [byName, seen, seen, seen_byName head, seen_byName tail]
  | .array items => by rw [byName, seen, seen, seenItems_byName items]
  | .symbol s => by rw [byName, seen, seen]
  | .null | .endMark | .bool _ | .int _ | .float _ | .str _ | .char _ | .builtin .. | .channel ..
  | .coroutine _ => by rw [byName] <;> simp

theorem seenItems_byName : (items : List Value) →
    seenItems r (byNameItems items) = seenItems r items
  | [] => by rw [byNameItems]
  | x :: xs => by rw [byNameItems, seenItems, seenItems, seen_byName x, seenItems_byName xs]

end

mutual

/-- Labels are not seen, and a value that is given labels stays known. -/
theorem seen_label : (v : Value) → (next : Nat) →
    (v.label next).1.seen r = v.seen r ∧ (v.Known r → (v.label next).1.Known r)
  | .pair cell head tail, next => by
    obtain ⟨hhead, hknownHead⟩ := seen_label head next
    obtain ⟨htail, hknownTail⟩ := seen_label tail (head.label next).2
    have hsame : seen r ((Value.pair cell head tail).label next).1 =
        .pair (seen r (head.label next).1) (seen r (tail.label (head.label next).2).1) := by
      rw [label]
      cases cell <;> rw [seen]
    refine ⟨?_, ?_⟩
    · rw [hsame, hhead, htail, seen]
    · intro hknown
      cases hknown with
      | pair hh ht =>
        rw [label]
        cases cell <;> exact .pair (hknownHead hh) (hknownTail ht)
  | .array items, next => by
    obtain ⟨hitems, hknownItems⟩ := seen_labelItems items next
    refine ⟨?_, ?_⟩
    · rw [label, seen, seen, seenItems_eq_map, seenItems_eq_map]
      exact congrArg Seen.array hitems
    · intro hknown
      cases hknown with
      | array h => exact .array (hknownItems h)
  | .null, _ | .endMark, _ | .bool _, _ | .int _, _ | .float _, _ | .str _, _ | .char _, _
  | .symbol _, _ | .builtin .., _ | .channel .., _ | .coroutine _, _ => by
    rw [label] <;> simp

theorem seen_labelItems : (vs : List Value) → (next : Nat) →
    (labelItems next vs).1.map (seen r) = vs.map (seen r) ∧
      ((∀ v ∈ vs, v.Known r) → ∀ v ∈ (labelItems next vs).1, v.Known r)
  | [], _ => by simp [labelItems]
  | x :: xs, next => by
    obtain ⟨hx, hknownX⟩ := seen_label x next
    obtain ⟨hxs, hknownXs⟩ := seen_labelItems xs (x.label next).2
    rw [labelItems]
    refine ⟨?_, ?_⟩
    · rw [List.map_cons, List.map_cons, hx, hxs]
    · intro hknown
      obtain ⟨h, hs⟩ := List.forall_mem_cons.mp hknown
      exact List.forall_mem_cons.mpr ⟨hknownX h, hknownXs hs⟩

end

/-! ### Symbols told by name -/

mutual

/-- A value whose symbols are told by name, with their symbols in a table that they are interned in
from left to right. -/
def interned : Value → SymbolTable → Value × SymbolTable
  | .symbol s, t =>
    let (s, t) := t.intern s.name
    (.symbol s, t)
  | .pair cell head tail, t =>
    let (head, t) := interned head t
    let (tail, t) := interned tail t
    (.pair cell head tail, t)
  | .array items, t =>
    let (items, t) := internedItems items t
    (.array items, t)
  | v, t => (v, t)

/-- The same for some values one after another. -/
def internedItems : List Value → SymbolTable → List Value × SymbolTable
  | [], t => ([], t)
  | x :: xs, t =>
    let (x, t) := interned x t
    let (xs, t) := internedItems xs t
    (x :: xs, t)

end

mutual

/-- A value is seen as it was told. -/
theorem seen_interned : (v : Value) → (t : SymbolTable) →
    (v.interned t).1.seen r = v.seen r ∧ (v.Known r → (v.interned t).1.Known r)
  | .pair cell head tail, t => by
    obtain ⟨hhead, hknownHead⟩ := seen_interned head t
    obtain ⟨htail, hknownTail⟩ := seen_interned tail (head.interned t).2
    rw [interned]
    refine ⟨?_, ?_⟩
    · rw [seen, seen, hhead, htail]
    · intro hknown
      cases hknown with
      | pair hh ht => exact .pair (hknownHead hh) (hknownTail ht)
  | .array items, t => by
    obtain ⟨hitems, hknownItems⟩ := seen_internedItems items t
    rw [interned]
    refine ⟨?_, ?_⟩
    · rw [seen, seen, seenItems_eq_map, seenItems_eq_map]
      exact congrArg Seen.array hitems
    · intro hknown
      cases hknown with
      | array h => exact .array (hknownItems h)
  | .symbol s, t => by
    rw [interned]
    refine ⟨?_, fun _ => .symbol⟩
    rw [seen, seen]
    rfl
  | .null, _ | .endMark, _ | .bool _, _ | .int _, _ | .float _, _ | .str _, _ | .char _, _
  | .builtin .., _ | .channel .., _ | .coroutine _, _ => by
    rw [interned] <;> simp

theorem seen_internedItems : (vs : List Value) → (t : SymbolTable) →
    (internedItems vs t).1.map (seen r) = vs.map (seen r) ∧
      ((∀ v ∈ vs, v.Known r) → ∀ v ∈ (internedItems vs t).1, v.Known r)
  | [], _ => by simp [internedItems]
  | x :: xs, t => by
    obtain ⟨hx, hknownX⟩ := seen_interned x t
    obtain ⟨hxs, hknownXs⟩ := seen_internedItems xs (x.interned t).2
    rw [internedItems]
    refine ⟨?_, ?_⟩
    · rw [List.map_cons, List.map_cons, hx, hxs]
    · intro hknown
      obtain ⟨h, hs⟩ := List.forall_mem_cons.mp hknown
      exact List.forall_mem_cons.mpr ⟨hknownX h, hknownXs hs⟩

end

mutual

/-- Interning the symbols of a value drops no name. -/
theorem names_interned : (v : Value) → (t : SymbolTable) → t.names <+: (v.interned t).2.names
  | .pair cell head tail, t => by
    rw [interned]
    exact (names_interned head t).trans (names_interned tail _)
  | .array items, t => by
    rw [interned]
    exact names_internedItems items t
  | .symbol s, t => by
    rw [interned]
    exact t.names_isPrefixOf_insert s.name
  | .null, _ | .endMark, _ | .bool _, _ | .int _, _ | .float _, _ | .str _, _ | .char _, _
  | .builtin .., _ | .channel .., _ | .coroutine _, _ => by
    rw [interned] <;> simp

theorem names_internedItems : (vs : List Value) → (t : SymbolTable) →
    t.names <+: (internedItems vs t).2.names
  | [], _ => by simp [internedItems]
  | x :: xs, t => by
    rw [internedItems]
    exact (names_interned x t).trans (names_internedItems xs _)

end

/-- A symbol that is told by name is the one of its table. -/
theorem find?_of_interned {v : Value} {t : SymbolTable} {s : Symbol}
    (h : (v.interned t).1 = .symbol s) : (v.interned t).2.find? s.name = some s := by
  cases v with
  | symbol s' =>
    rw [interned] at h ⊢
    cases h
    exact SymbolTable.find?_intern t s'.name
  | pair | array =>
    rw [interned] at h
    cases h
  | _ =>
    rw [interned] at h
    · cases h
    all_goals simp

end Value

/-! ### What can be told of a value that is seen -/

namespace Seen

/-- What a chain of pairs ends in. -/
def lastTail : Seen H → Seen H
  | .pair _ tail => lastTail tail
  | v => v

def isList (v : Seen H) : Bool := v.lastTail matches .null

/-- Whether a form may stand in a program. -/
def isLoadable : Seen H → Bool
  | v@(.pair ..) => v.isList
  | _ => true

/-- Whether a value can be a key at all. -/
def isHashable : Seen H → Bool
  | .pair .. | .array _ => false
  | _ => true

/-- The name that a key stands for, as a symbol or as a text. -/
def name? : Seen H → Option String
  | .str name | .symbol name => some name
  | _ => none

end Seen

namespace Value

theorem seen_lastTail (v : Value) : (v.seen r).lastTail = v.lastTail.seen r := by
  induction v using lastTail.induct with
  | case1 cell head tail ih => rw [seen, Seen.lastTail, lastTail, ih]
  | case2 v hv =>
    rw [lastTail.eq_2 v hv]
    cases v with
    | pair cell head tail => exact absurd rfl (hv cell head tail)
    | _ => simp [seen, Seen.lastTail]

theorem seen_isList (v : Value) : (v.seen r).isList = v.isList := by
  rw [Seen.isList, seen_lastTail, isList]
  cases v.lastTail <;> simp [seen]

theorem seen_isLoadable (v : Value) : (v.seen r).isLoadable = Store.isLoadable v := by
  cases v with
  | pair cell head tail =>
    have h := seen_isList (r := r) (.pair cell head tail)
    rw [seen] at h ⊢
    exact h
  | _ => simp [seen, Seen.isLoadable, Store.isLoadable]

theorem seen_isHashable (v : Value) : (v.seen r).isHashable = v.isHashable := by
  cases v <;> simp [seen, Seen.isHashable, isHashable]

end Value

/-- An error as it is seen where a registry tells what numbers stand for. -/
def Error.seen (r : Registry H) : Error → SeenError H
  | .list (.notAList v) => .about (fun v => .list (.notAList v)) (v.seen r)
  | .list (.improperTail v) => .about (fun v => .list (.improperTail v)) (v.seen r)
  | .list (.improperForm v) => .about (fun v => .list (.improperForm v)) (v.seen r)
  | .notDefinable v => .about .notDefinable (v.seen r)
  | .unbound v => .about .unbound (v.seen r)
  | .unhashableKey v => .about .unhashableKey (v.seen r)
  | .notApplicable v => .about .notApplicable (v.seen r)
  | e => .plain e

/-- The result of an operation as it is seen. -/
def seenResult (r : Registry H) : Except Error Value → Except (SeenError H) (Seen H)
  | .ok v => .ok (v.seen r)
  | .error e => .error (e.seen r)

/-! ### What is read -/

namespace Reader

open TokenSource Value

mutual

/-- What is read holds no function, no channel and no coroutine. -/
theorem Expr.known (r : Registry H) {toks : List Token} {t t' : SymbolTable} {v : Value}
    (h : Expr toks t v t') : v.Known r := by
  match h with
  | .atomic ha =>
    cases ha with
    | symbol => exact .symbol
    | bool => exact .bool
    | integer => exact .int
    | float => exact .float
    | string => exact .str
    | char => exact .char
  | .marked _ hx => exact .pair .symbol (.pair (hx.known r) .null)
  | .list _ hxs _ => exact .ofList (hxs.known r) .null
  | .dotted _ hxs _ _ hx _ => exact .ofList (hxs.known r) (hx.known r)
  | .array _ hxs _ => exact .array (hxs.known r)
  | .hash _ hxs _ => exact .pair .symbol (.ofList (hxs.known r) .null)

theorem Exprs.known (r : Registry H) {toks : List Token} {t t' : SymbolTable} {vs : List Value}
    (h : Exprs toks t vs t') : ∀ v ∈ vs, v.Known r := by
  match h with
  | .nil =>
    intro v hv
    cases hv
  | .cons hx hxs => exact List.forall_mem_cons.mpr ⟨hx.known r, hxs.known r⟩

end

/-- **The forms of a program hold nothing of a host.** -/
theorem known_of_parseAll (r : Registry H) {src : TokenSource} {t : SymbolTable} {vs : List Value}
    (h : (Reader.mk (.ofSource src) t).parseAll.1 = .ok ⟨vs, none⟩) : ∀ v ∈ vs, v.Known r := by
  rw [parseAll_fst, reading_source] at h
  have hparsed := Reading.forms_of_parsed h
  obtain ⟨hforms, hfailure⟩ := Parsed.mk.inj hparsed
  obtain ⟨hstop, -⟩ := Scan.finish_eq_none hfailure.symm
  rcases hscan : (State.form []).scan (delivered src) t with ⟨ws, stop, t'⟩
  rw [hscan] at hforms hstop
  obtain rfl : vs = ws := hforms
  obtain rfl : stop = .ok (.form []) := hstop
  exact ((scan_eq_iff not_end_of_mem_delivered).mp hscan).2.known r

/-- Reading a program drops no name. -/
theorem names_parseAll (src : TokenSource) (t : SymbolTable) :
    t.names <+: (Reader.mk (.ofSource src) t).parseAll.2.symbols.names := by
  rw [symbols_parseAll, reading_source]
  exact (State.form []).names_scan _ t

end Reader

end LispCore
