import LispCore.Source
import LispCore.Value.List

/-!
Why an operation on a session fails. The message of a reason is the one that its user sees; some
reasons are found by the host, which reports them in words of its own.
-/

namespace LispCore

/-- What goes wrong with the arguments of a channel operation. -/
inductive ChannelError where
  | tooManyArguments
  | invalidCapacity
  | noChannel
  | notAChannel
  | notChannelAndValue
  | notOneArgument
deriving DecidableEq, Repr

/-- The message about an operation of some name. -/
def ChannelError.message (name : String) : ChannelError → String
  | tooManyArguments => name ++ " takes at most 1 argument"
  | invalidCapacity => "argument to " ++ name ++ " must be a non-negative int"
  | noChannel => name ++ " requires a channel argument"
  | notAChannel => "argument 0 of " ++ name ++ " must be channel"
  | notChannelAndValue => name ++ " takes a channel and a value"
  | notOneArgument => name ++ " takes exactly 1 argument"

/-- Whether the number of arguments is wrong, and not what they are. -/
def ChannelError.isArity : ChannelError → Bool
  | tooManyArguments | noChannel | notChannelAndValue | notOneArgument => true
  | invalidCapacity | notAChannel => false

/-- Why an operation on a session fails. -/
inductive Error where
  | notOneCharacter (text : String)
  | reading (e : Failure)
  | loading (e : LoadError)
  | list (e : Value.ListError)
  | notDefinable (key : Value)
  | unbound (key : Value)
  | unhashableKey (key : Value)
  | notAFunction (name : String)
  | noMacro (name : String)
  | noEvaluator
  | channel (name : String) (e : ChannelError)
  | notACoroutine
  | alreadyStarted
  | notApplicable (f : Value)
  | missingArgument
  | reported (message : String)
  | interrupted (message : String)

/-- The message, unless the host reports the error in words of its own. -/
def Error.message? : Error → Option String
  | notOneCharacter text =>
    some ("Char must hold exactly one character, got " ++ Text.quoted text)
  | reading e => e.message?
  | loading e => e.message?
  | list e => some e.message
  | notDefinable key => some ("Cannot define " ++ key.display ++ " as a symbol")
  | unbound key => some ("Cannot lookup unbound symbol " ++ key.display)
  | notAFunction name => some (name ++ " is not a function")
  | noMacro name => some ("No macro named " ++ name)
  | noEvaluator => some "No evaluator configured for this session"
  | channel name e => some (e.message name)
  | notACoroutine => some "not a coroutine"
  | alreadyStarted => some "coroutine already started"
  | reported message | interrupted message => some message
  | unhashableKey _ | notApplicable _ | missingArgument => none

def Error.message (e : Error) : String := e.message?.getD ""

/-- The character that a text of one character holds. -/
def Value.ofCharText (text : String) : Except Error Value :=
  match text.toList with
  | [c] => .ok (.char c)
  | _ => .error (.notOneCharacter text)

end LispCore
