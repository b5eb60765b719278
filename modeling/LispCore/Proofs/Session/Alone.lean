import LispCore.Proofs.Session.Seen
import LispCore.Session.Call

/-!
Operations on sessions, and what they do to a session by itself.

`Store.perform?` carries out an operation on a session of a store. `View.perform` says what it does
to a session that shares nothing with any other: there is no store, no symbol table and no number,
only names and what is seen of values.

A `Family` says what each session of a family is to do. How a session of it looks after some of its
operations, and what each of them gives, is told from its own operations and those of its ancestors
alone (`Family.viewAfter`, `Family.effectAt`, `Family.initial`).
-/

namespace LispCore

/-- An operation on a session. The symbols in its values are told by name. -/
inductive Operation (H : Host) where
  | define (key v : Value)
  | addFunction (name : String) (b : Behaviour H)
  | addMacro (name : String) (b : Behaviour H)
  | lookup (key : Value)
  | find (key : Value)
  | loadText (text : String)
  | loadForms (forms : List Value)
  | go (args : List Value)
  | duplicate

variable {H : Host}

/-- The values that an operation is given. -/
def Operation.values : Operation H → List Value
  | define key v => [key, v]
  | lookup key | find key => [key]
  | loadForms forms => forms
  | go args => args
  | addFunction .. | addMacro .. | loadText _ | duplicate => []

/-- The program of the session that an operation makes. -/
def Operation.body : Operation H → List Value
  | go args => args
  | _ => []

theorem Operation.mem_values_of_body {op : Operation H} {v : Value} (h : v ∈ op.body) :
    v ∈ op.values := by
  cases op with
  | go args => exact h
  | _ => cases h

/-! ### In a store -/

namespace Store

/-- A value that is told with names for its symbols, in a session. -/
def place (st : Store H) (sid : Nat) (v : Value) : Value × Store H :=
  let (v, t) := v.interned (st.symbols sid)
  (v, st.setSymbols sid t)

/-- Some values that are told with names for their symbols, in a session. -/
def placeAll (st : Store H) (sid : Nat) (vs : List Value) : List Value × Store H :=
  let (vs, t) := Value.internedItems vs (st.symbols sid)
  (vs, st.setSymbols sid t)

/-- Whether the macro `go` of a session, if it has one, is the one that makes coroutines. -/
def expandsGo (st : Store H) (sid : Nat) : Bool :=
  match st.expander sid "go" with
  | (.ok f, st) => (st.behaviours[f.id]? matches some .go)
  | (.error _, _) => true

/-- Carries out an operation on a session. A macro `go` that is not the one that makes coroutines is
not expanded here. -/
def perform? (st : Store H) (sid : Nat) : Operation H → Option (Except Error Value × Store H)
  | .define key v =>
    let (key, st) := st.place sid key
    let (v, st) := st.place sid v
    let (result, st) := st.define sid key v
    some (result.map fun _ => .null, st)
  | .addFunction name b =>
    let (f, st) := st.addFunction sid name b
    some (.ok f.toValue, st)
  | .addMacro name b =>
    let (f, st) := st.addMacro sid name b
    some (.ok f.toValue, st)
  | .lookup key =>
    let (key, st) := st.place sid key
    some (st.lookup sid key)
  | .find key =>
    let (key, st) := st.place sid key
    some ((st.isBound sid key).map .bool, st)
  | .loadText text =>
    let (result, st) := st.loadText sid text
    some (result.map fun _ => .null, st)
  | .loadForms forms =>
    let (forms, st) := st.placeAll sid forms
    let (result, st) := st.loadForms sid forms
    some (result.map fun _ => .null, st)
  | .go args =>
    let (args, st) := st.placeAll sid args
    if st.expandsGo sid then st.expand? sid "go" args else none
  | .duplicate => some (.ok .null, (st.duplicate sid).2)

end Store

/-! ### By itself -/

/-- What is seen of a session: its evaluator, what names are bound to and what macros they name,
each in order of the first time, and its program. -/
structure View (H : Host) where
  evaluator : Option H.Evaluator
  bindings : List (String × Seen H)
  macros : List (String × Seen H)
  program : List (Seen H)

/-- What an operation gives, as it is seen. -/
abbrev SeenResult (H : Host) := Except (SeenError H) (Seen H)

/-- What an operation does: its result, the session after it, and a session that it makes. -/
structure Effect (H : Host) where
  result : SeenResult H
  view : View H
  child : Option (View H) := none

/-- Binds a name. One that is bound already keeps its place. -/
def bindName {α : Type} (name : String) (a : α) : List (String × α) → List (String × α)
  | [] => [(name, a)]
  | (n, x) :: rest => if n = name then (n, a) :: rest else (n, x) :: bindName name a rest

/-- The call that starts the coroutine of a session of a family. -/
def Seen.startCall (child : Lineage) : Seen H :=
  .ofList [.symbol "apply", .builtin (some .startCoroutine) "__start",
    .array [.coroutine (some (.member child))]]

namespace View

/-- The copy of a session that a duplicate starts as. -/
def copy (w : View H) : View H := { w with program := [] }

def define (w : View H) (key v : Seen H) : Effect H :=
  match key.name? with
  | some name => ⟨.ok .null, { w with bindings := bindName name v w.bindings }, none⟩
  | none => ⟨.error (.about .notDefinable key), w, none⟩

def lookup (w : View H) (key : Seen H) : SeenResult H :=
  match key.name? with
  | some name =>
    match w.bindings.lookup name with
    | some v => .ok v
    | none => .error (.about .unbound (.symbol name))
  | none => .error (.about (if key.isHashable then .unbound else .unhashableKey) key)

def find (w : View H) (key : Seen H) : SeenResult H :=
  match key with
  | .symbol name => .ok (.bool (w.bindings.lookup name).isSome)
  | k => if k.isHashable then .ok (.bool false) else .error (.about .unhashableKey k)

def loadForms (w : View H) (forms : List (Seen H)) : Effect H :=
  match forms.find? (!·.isLoadable) with
  | some form => ⟨.error (.about (fun v => .list (.improperForm v)) form), w, none⟩
  | none => ⟨.ok .null, { w with program := w.program ++ forms }, none⟩

/-- Loads what was read of a text; the registry tells what the numbers in it stand for. -/
def loadParsed (w : View H) (r : Registry H) : Except Failure Reader.Parsed → Effect H
  | .error e | .ok ⟨_, some e⟩ => ⟨.error (.plain (.reading e)), w, none⟩
  | .ok ⟨forms, none⟩ => w.loadForms (forms.map (Value.seen r))

/-- What is read of a text does not depend on the names that are known, but for the identities of
symbols; so no name need be known here. -/
def loadText (w : View H) (r : Registry H) (text : String) : Effect H :=
  w.loadParsed r (Reader.ofText text).parseAll.1

/-- Makes a session that runs some forms, a child of that lineage. -/
def spawn (w : View H) (child : Lineage) (forms : List (Seen H)) : Effect H :=
  match w.copy.loadForms forms with
  | ⟨.error e, _, _⟩ => ⟨.error e, w, none⟩
  | ⟨.ok _, copy, _⟩ => ⟨.ok (.startCall child), w, some copy⟩

def go (w : View H) (child : Lineage) (args : List (Seen H)) : Effect H :=
  match w.macros.lookup "go" with
  | none => ⟨.error (.plain (.noMacro "go")), w, none⟩
  | some _ => w.spawn child args

/-- Whether a session can carry out an operation here: a macro `go` must be the one that makes
coroutines. -/
def allows (w : View H) : Operation H → Prop
  | .go _ => ∀ v, w.macros.lookup "go" = some v → ∃ name, v = .builtin (some .go) name
  | _ => True

/-- What an operation does to a session by itself. A session that it makes is a child of that
lineage; the registry tells what the numbers in the operation stand for. -/
def perform (w : View H) (r : Registry H) (child : Lineage) : Operation H → Effect H
  | .define key v => w.define (key.seen r) (v.seen r)
  | .addFunction name b =>
    ⟨.ok (.builtin (some b) name),
      { w with bindings := bindName name (.builtin (some b) name) w.bindings }, none⟩
  | .addMacro name b =>
    ⟨.ok (.builtin (some b) name),
      { w with macros := bindName name (.builtin (some b) name) w.macros }, none⟩
  | .lookup key => ⟨w.lookup (key.seen r), w, none⟩
  | .find key => ⟨w.find (key.seen r), w, none⟩
  | .loadText text => w.loadText r text
  | .loadForms forms => w.loadForms (forms.map (Value.seen r))
  | .go args => w.go child (args.map (Value.seen r))
  | .duplicate => ⟨.ok .null, w, some w.copy⟩

end View

/-! ### Families -/

/-- What the sessions of a family are to do, what the numbers in their operations stand for, and how
the first session looks. -/
structure Family (H : Host) where
  script : Lineage → List (Operation H)
  registry : Registry H
  root : View H

namespace Family

variable (F : Family H)

/-- How a session that starts as `w` looks after some of its operations. -/
def viewAfter (p : Lineage) (w : View H) : Nat → View H
  | 0 => w
  | k + 1 =>
    match (F.script p)[k]? with
    | some op => ((viewAfter p w k).perform F.registry (k :: p) op).view
    | none => viewAfter p w k

/-- What one of its operations does. -/
def effectAt (p : Lineage) (w : View H) (k : Nat) : Option (Effect H) :=
  (F.script p)[k]?.map fun op => (F.viewAfter p w k).perform F.registry (k :: p) op

/-- What the first of its operations give. -/
def resultsBefore (p : Lineage) (w : View H) (k : Nat) : List (SeenResult H) :=
  (List.range k).filterMap fun i => (F.effectAt p w i).map (·.result)

/-- How a session starts, if its ancestors make it at all. -/
def initial : Lineage → Option (View H)
  | [] => some F.root
  | k :: p => (initial p).bind fun w => (F.effectAt p w k).bind (·.child)

end Family

end LispCore
