import LispCore.Session.Store

/-!
Applying functions and macros.

A channel operation may have to wait: sending while the channel is full, receiving while it is
empty. Then there is no result yet and nothing has changed. `go` makes a coroutine whose session is
a copy of the caller's with the body as its program, and expands to the call that starts it.
-/

namespace LispCore.Store

variable {H : Host}

/-! ### Channels -/

/-- A channel by its number. -/
def channel (st : Store H) (id : Nat) : Channel := st.channels[id]?.getD ⟨0, []⟩

def setQueue (st : Store H) (id : Nat) (queue : List Value) : Store H :=
  { st with channels := st.channels.modify id fun c => { c with queue } }

/-- The capacity that the arguments of a new channel give it. -/
def capacityArgument : List Value → Except ChannelError Nat
  | [] => .ok 0
  | [.int (.ofNat n)] => .ok n
  | [_] => .error .invalidCapacity
  | _ => .error .tooManyArguments

/-- The channel that arguments start with. -/
def channelArgument : List Value → Except ChannelError Nat
  | [] => .error .noChannel
  | .channel id _ :: _ => .ok id
  | _ => .error .notAChannel

/-- The channel and the value that the arguments of a send operation are. -/
def sendArguments (args : List Value) : Except ChannelError (Nat × Value) :=
  match channelArgument args, args with
  | .error e, _ => .error e
  | .ok id, [_, v] => .ok (id, v)
  | .ok _, _ => .error .notChannelAndValue

/-- The channel that the arguments of a receive operation are. -/
def receiveArguments (args : List Value) : Except ChannelError Nat :=
  match channelArgument args, args with
  | .error e, _ => .error e
  | .ok id, [_] => .ok id
  | .ok _, _ => .error .notOneArgument

/-- A new channel of a capacity. -/
def addChannel (st : Store H) (capacity : Nat) : Value × Store H :=
  (.channel st.channels.size capacity, { st with channels := st.channels.push ⟨capacity, []⟩ })

/-- Puts a value at the end of a channel that is not full. -/
def send? (st : Store H) (id : Nat) (v : Value) : Option (Store H) :=
  let c := st.channel id
  if c.isFull then none else some (st.setQueue id (c.queue ++ [v]))

/-- Takes the value at the front of a channel that is not empty. -/
def receive? (st : Store H) (id : Nat) : Option (Value × Store H) :=
  match (st.channel id).queue with
  | [] => none
  | v :: queue => some (v, st.setQueue id queue)

/-! ### Coroutines -/

/-- A new coroutine that is to run the program of a session. -/
def addCoroutine (st : Store H) (sid : Nat) : Nat × Store H :=
  (st.coroutines.size, { st with coroutines := st.coroutines.push { session := sid } })

def setStatus (st : Store H) (id : Nat) (status : CoroutineStatus H) : Store H :=
  { st with coroutines := st.coroutines.modify id fun c => { c with status } }

/-- Starts a coroutine, which must be the only argument and must not have been started before. -/
def startCoroutine (st : Store H) (args : List Value) : Except Error Value × Store H :=
  match args with
  | [.coroutine id] =>
    match st.coroutines[id]? with
    | some ⟨sid, .unstarted⟩ => (.ok .null, st.setStatus id (.running { session := sid }))
    | some _ => (.error .alreadyStarted, st)
    | none => (.error .notACoroutine, st)
  | _ => (.error .notACoroutine, st)

/-- Makes a coroutine that runs some forms in a copy of a session, and the call that starts it. A
form that cannot be loaded leaves everything as it was. -/
def go (st : Store H) (sid : Nat) (body : List Value) : Except Error Value × Store H :=
  let (copy, copied) := st.duplicate sid
  match copied.loadForms copy body with
  | (.error e, _) => (.error e, st)
  | (.ok (), st) =>
    let (id, st) := st.addCoroutine copy
    let (s, st) := st.intern sid "apply"
    (.ok (.ofList [.symbol s, Builtin.start.toValue, .array [.coroutine id]]), st)

/-! ### Application -/

/-- Does what a function of the host answered. -/
def answerReply (st : Store H) (sid : Nat) : Reply → Except Error Value × Store H
  | .value v => (.ok v, st)
  | .failed e => (.error e, st)
  | .define key v =>
    match st.define sid key v with
    | (.ok _, st) => (.ok .null, st)
    | (.error e, st) => (.error e, st)

/-- Applies a function or macro to arguments; nothing is returned while it has to wait. -/
def invoke? (st : Store H) (sid : Nat) (f : Builtin) (args : List Value) :
    Option (Except Error Value × Store H) :=
  let refuse (e : ChannelError) := some (.error (.channel f.name e), st)
  match st.behaviours[f.id]? with
  | none => some (.error (.notApplicable f.toValue), st)
  | some (.host g) => some (st.answerReply sid (H.reply g f.name args))
  | some .makeChannel =>
    match capacityArgument args with
    | .error e => refuse e
    | .ok capacity =>
      let (v, st) := st.addChannel capacity
      some (.ok v, st)
  | some .send =>
    match sendArguments args with
    | .error e => refuse e
    | .ok (id, v) => (st.send? id v).map fun st => (.ok .null, st)
  | some .receive =>
    match receiveArguments args with
    | .error e => refuse e
    | .ok id => (st.receive? id).map fun (v, st) => (.ok v, st)
  | some .startCoroutine => some (st.startCoroutine args)
  | some .go => some (st.go sid args)

/-- Calls the function that a name is bound to. -/
def call? (st : Store H) (sid : Nat) (name : String) (args : List Value) :
    Option (Except Error Value × Store H) :=
  match st.function sid name with
  | (.ok f, st) => st.invoke? sid f args
  | (.error e, st) => some (.error e, st)

/-- Expands a call of the macro of a name. -/
def expand? (st : Store H) (sid : Nat) (name : String) (args : List Value) :
    Option (Except Error Value × Store H) :=
  match st.expander sid name with
  | (.ok f, st) => st.invoke? sid f args
  | (.error e, st) => some (.error e, st)

/-! ### Standard functions and macros -/

/-- Gives a session the channel operations. -/
def importChannels (st : Store H) (sid : Nat) : Store H :=
  let st := (st.addFunction sid "make-chan" .makeChannel).2
  let st := (st.addFunction sid "send!" .send).2
  (st.addFunction sid "<!" .receive).2

/-- Gives a session the macro that makes coroutines. -/
def importCoroutines (st : Store H) (sid : Nat) : Store H :=
  (st.addMacro sid "go" .go).2

end LispCore.Store
