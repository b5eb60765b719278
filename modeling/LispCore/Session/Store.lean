import LispCore.Session.Bindings
import LispCore.Session.Host

/-!
Sessions and all that they share: symbol tables, channels, coroutines and functions.

A session has bindings, macros, a program and perhaps an evaluator, and it interns names in a table
that it shares with the sessions it was duplicated from and into. Everything has a number, given in
order of creation, and is kept for ever. Values are labelled when they are kept.
-/

namespace LispCore

/-- A function or macro that a session can call: its identity and the name it was added by. -/
structure Builtin where
  id : Nat
  name : String
deriving DecidableEq, Repr

/-- What applying a function or macro does. -/
inductive Behaviour (H : Host) where
  | host (f : H.Function)
  | makeChannel
  | send
  | receive
  | startCoroutine
  | go

/-- One session. -/
structure Session (H : Host) where
  evaluator : Option H.Evaluator := none
  table : Nat := 0
  bindings : Bindings Value := ∅
  macros : Bindings Builtin := ∅
  program : List Value := []

instance {H : Host} : Inhabited (Session H) := ⟨{}⟩

/-- A queue of values; a capacity of zero sets no limit. -/
structure Channel where
  capacity : Nat
  queue : List Value := []

/-- Whether a channel takes no more values for now. -/
def Channel.isFull (c : Channel) : Bool := c.capacity != 0 && c.capacity ≤ c.queue.length

/-- A run of a session's program: how many of its forms have been begun, the task of the form in
progress, and the last value. -/
structure Run (H : Host) where
  session : Nat
  begun : Nat := 0
  task : Option H.Task := none
  last : Value := .null

/-- How far a coroutine is. -/
inductive CoroutineStatus (H : Host) where
  | unstarted
  | running (run : Run H)
  | finished (result : Except Error Value)

/-- A session with a run of its program, which is started once. -/
structure Coroutine (H : Host) where
  session : Nat
  status : CoroutineStatus H := .unstarted

/-- All sessions and what they share. -/
structure Store (H : Host) where
  tables : Array SymbolTable := #[]
  sessions : Array (Session H) := #[]
  channels : Array Channel := #[]
  coroutines : Array (Coroutine H) := #[]
  behaviours : Array (Behaviour H) := #[.startCoroutine]
  nextCell : Nat := 0

instance {H : Host} : Inhabited (Store H) := ⟨{}⟩

/-- The function that starts a coroutine. -/
def Builtin.start : Builtin := ⟨0, "__start"⟩

def Builtin.toValue (b : Builtin) : Value := .builtin b.id b.name

namespace Store

variable {H : Host}

/-- A session by its number. -/
def session (st : Store H) (sid : Nat) : Session H := st.sessions[sid]?.getD default

/-- The symbol table of a session. -/
def symbols (st : Store H) (sid : Nat) : SymbolTable :=
  st.tables[(st.session sid).table]?.getD ∅

def modifySession (st : Store H) (sid : Nat) (f : Session H → Session H) : Store H :=
  { st with sessions := st.sessions.modify sid f }

/-- With another symbol table in the place of the one of a session. -/
def setSymbols (st : Store H) (sid : Nat) (t : SymbolTable) : Store H :=
  { st with tables := st.tables.modify (st.session sid).table fun _ => t }

/-- The symbol of a name in the table of a session. -/
def intern (st : Store H) (sid : Nat) (name : String) : Symbol × Store H :=
  let (s, t) := (st.symbols sid).intern name
  (s, st.setSymbols sid t)

/-- A value whose pairs all have labels, so that it can be kept. -/
def retain (st : Store H) (v : Value) : Value × Store H :=
  let (v, nextCell) := v.label st.nextCell
  (v, { st with nextCell })

/-! ### Making sessions -/

/-- A session with an evaluator or none and a symbol table of its own. -/
def addSession (st : Store H) (evaluator : Option H.Evaluator) : Nat × Store H :=
  (st.sessions.size,
    { st with
      tables := st.tables.push ∅
      sessions := st.sessions.push { evaluator, table := st.tables.size } })

/-- A session with the symbol table, the evaluator, the bindings and the macros of another, and with
an empty program. -/
def duplicate (st : Store H) (sid : Nat) : Nat × Store H :=
  (st.sessions.size,
    { st with sessions := st.sessions.push { st.session sid with program := [] } })

/-! ### Bindings -/

/-- A key as the bindings of a session know it: a string stands for the symbol of that name. -/
def key (st : Store H) (sid : Nat) : Value → Value × Store H
  | .str name =>
    let (s, st) := st.intern sid name
    (.symbol s, st)
  | v => (v, st)

/-- Binds a key to a value, and returns the value as it is kept. -/
def define (st : Store H) (sid : Nat) (key v : Value) : Except Error Value × Store H :=
  match st.key sid key with
  | (.symbol s, st) =>
    let (v, st) := st.retain v
    (.ok v, st.modifySession sid fun se => { se with bindings := se.bindings.set s v })
  | (k, st) => (.error (.notDefinable k), st)

/-- What a key is bound to. -/
def lookup (st : Store H) (sid : Nat) (key : Value) : Except Error Value × Store H :=
  match st.key sid key with
  | (.symbol s, st) =>
    match (st.session sid).bindings.get? s with
    | some v => (.ok v, st)
    | none => (.error (.unbound (.symbol s)), st)
  | (k, st) => (.error (if k.isHashable then .unbound k else .unhashableKey k), st)

/-- Whether a key is bound; only symbols ever are. -/
def isBound (st : Store H) (sid : Nat) (key : Value) : Except Error Bool :=
  match key with
  | .symbol s => .ok ((st.session sid).bindings.contains s)
  | k => if k.isHashable then .ok false else .error (.unhashableKey k)

/-- The bindings of a session as a listing. -/
def bindingsText (st : Store H) (sid : Nat) : String :=
  let entry (e : Symbol × Value) : String := e.1.name ++ ": " ++ e.2.inspect
  "\x7b" ++ ", ".intercalate ((st.session sid).bindings.entries.map entry) ++ "\x7d"

/-- The environment of a session as a listing: its bindings and the size of its symbol table. -/
def environmentText (st : Store H) (sid : Nat) : String :=
  "<Environment " ++ st.bindingsText sid ++ " <SymbolTable "
    ++ toString (st.symbols sid).size ++ " symbols>>"

/-! ### Functions and macros -/

/-- A new function or macro of a name. -/
def addBuiltin (st : Store H) (name : String) (b : Behaviour H) : Builtin × Store H :=
  (⟨st.behaviours.size, name⟩, { st with behaviours := st.behaviours.push b })

/-- Binds a name to a new function. -/
def addFunction (st : Store H) (sid : Nat) (name : String) (b : Behaviour H) :
    Builtin × Store H :=
  let (f, st) := st.addBuiltin name b
  let (s, st) := st.intern sid name
  (f, st.modifySession sid fun se => { se with bindings := se.bindings.set s f.toValue })

/-- Makes a name the name of a new macro. -/
def addMacro (st : Store H) (sid : Nat) (name : String) (b : Behaviour H) : Builtin × Store H :=
  let (f, st) := st.addBuiltin name b
  let (s, st) := st.intern sid name
  (f, st.modifySession sid fun se => { se with macros := se.macros.set s f })

/-- The function that a name is bound to. -/
def function (st : Store H) (sid : Nat) (name : String) : Except Error Builtin × Store H :=
  match st.lookup sid (.str name) with
  | (.ok (.builtin id name), st) => (.ok ⟨id, name⟩, st)
  | (.ok _, st) => (.error (.notAFunction name), st)
  | (.error e, st) => (.error e, st)

/-- The macro of a name. -/
def expander (st : Store H) (sid : Nat) (name : String) : Except Error Builtin × Store H :=
  let (s, st) := st.intern sid name
  match (st.session sid).macros.get? s with
  | some f => (.ok f, st)
  | none => (.error (.noMacro name), st)

/-! ### Loading -/

/-- Whether a form may stand in a program: a pair must be a list. -/
def isLoadable : Value → Bool
  | v@(.pair ..) => v.isList
  | _ => true

/-- Puts forms at the end of the program of a session, unless one of them may not stand there. -/
def loadForms (st : Store H) (sid : Nat) (forms : List Value) : Except Error Unit × Store H :=
  match forms.find? (!isLoadable ·) with
  | some form => (.error (.list (.improperForm form)), st)
  | none =>
    let (forms, nextCell) := Value.labelItems st.nextCell forms
    (.ok (), { st with nextCell }.modifySession sid fun se =>
      { se with program := se.program ++ forms })

/-- Loads the forms that were read, unless reading them failed. -/
def loadParsed (st : Store H) (sid : Nat) (parsed : Reader.Parsed) : Except Error Unit × Store H :=
  match parsed.failure with
  | some e => (.error (.reading e), st)
  | none => st.loadForms sid parsed.forms

/-- Reads a text and puts its forms at the end of the program. -/
def loadText (st : Store H) (sid : Nat) (text : String) : Except Error Unit × Store H :=
  match (Reader.ofText text (st.symbols sid)).parseAll with
  | (.ok parsed, r) => (st.setSymbols sid r.symbols).loadParsed sid parsed
  | (.error e, r) => (.error (.reading e), st.setSymbols sid r.symbols)

/-- Reads a program file and puts its forms at the end of the program. -/
def loadFile (st : Store H) (sid : Nat) (roots : SourceRoots) (name : String) :
    Except Error Unit × Store H :=
  match roots.load name (st.symbols sid) with
  | (.ok parsed, t) => (st.setSymbols sid t).loadParsed sid parsed
  | (.error e, t) => (.error (.loading e), st.setSymbols sid t)

/-- Reads all forms of a text without loading them. -/
def readAll (st : Store H) (sid : Nat) (text : String) : Except Failure (List Value) × Store H :=
  let (forms, r) := (Reader.ofText text (st.symbols sid)).readAll
  (forms, st.setSymbols sid r.symbols)

end Store

end LispCore
