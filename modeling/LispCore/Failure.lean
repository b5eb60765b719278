import LispCore.Token

/-!
Why reading stops. Most reasons are found in the text and carry the token at which the text became
impossible; a source of tokens may also report reasons of its own. The faults at the end are not
about the text's form: a named character that has no value, and an integer too long to convert.
Reading a whole program recovers from every reason but the faults and an interruption.
-/

namespace LispCore

/-- What about a text cannot be read. -/
inductive ReadError where
  | unterminatedString (token : Token)
  | malformedCharacter (token : Token)
  | reported (message : String)
  | endInside (b : Bracket) (token : Token)
  | endForOperand (token : Token)
  | endAfterDottedTail (token : Token)
  | extraAfterDottedTail (token : Token)
  | noForm (token : Token)
  | notOneCharacter (token : Token)
  | malformedInteger (r : Radix) (token : Token)
  | integerRange (token : Token)
  | malformedFloat (token : Token)
  | floatRange (token : Token)
deriving DecidableEq, Repr

namespace ReadError

/-- The four families of reading errors: the text cannot be cut into tokens, it ends too early, a
token stands where none of its kind may, or a number cannot be converted. -/
inductive Family where
  | source
  | unexpectedEnd
  | structural
  | numeric
deriving DecidableEq, Repr

def family : ReadError → Family
  | unterminatedString _ | malformedCharacter _ | reported _ => .source
  | endInside _ _ | endForOperand _ | endAfterDottedTail _ => .unexpectedEnd
  | extraAfterDottedTail _ | noForm _ | notOneCharacter _ => .structural
  | malformedInteger _ _ | integerRange _ | malformedFloat _ | floatRange _ => .numeric

/-- The token at which the error shows; an error that a source reports has none. -/
def token? : ReadError → Option Token
  | reported _ => none
  | unterminatedString t | malformedCharacter t | endInside _ t | endForOperand t
  | endAfterDottedTail t | extraAfterDottedTail t | noForm t | notOneCharacter t
  | malformedInteger _ t | integerRange t | malformedFloat t | floatRange t => some t

/-- What messages call the inside of a pair of brackets. -/
def bracketName : Bracket → String
  | .round => "list"
  | .square => "array"
  | .curly => "hash literal"

/-- The message without a position. -/
def text : ReadError → String
  | unterminatedString _ => "Unterminated string"
  | malformedCharacter t | notOneCharacter t =>
    "Invalid character literal " ++ Text.quoted t.text
  | reported message => message
  | endInside b _ => "Unexpected end of input inside " ++ bracketName b
  | endForOperand _ => "Unexpected end of input"
  | endAfterDottedTail _ => "Unexpected end of input after dotted pair"
  | extraAfterDottedTail _ => "extra value in dotted pair"
  | noForm t => "Invalid syntax, didn't know what to do with " ++ t.describe
  | malformedInteger r t =>
    "Invalid base-" ++ toString r.base ++ " integer literal " ++ Text.quoted t.text
  | integerRange t => "Integer literal " ++ Text.quoted t.text ++ " out of range"
  | malformedFloat t => "Invalid float literal " ++ Text.quoted t.text
  | floatRange t => "Float literal " ++ Text.quoted t.text ++ " out of range"

/-- The message with the position of the token, lines and columns counted from one. -/
def message (e : ReadError) : String :=
  match e.token? with
  | none => e.text
  | some t =>
    e.text ++ " (line " ++ toString (t.start.line + 1) ++ ", column "
      ++ toString (t.start.column + 1) ++ ")"

end ReadError

/-- Why a reader stops. -/
inductive Failure where
  | read (e : ReadError)
  | general (message : String)
  | system (message : String)
  | interrupted (message : String)
  | unknownCharacterName (name : String)
  | integerTooLong (digits : Nat)
deriving DecidableEq, Repr

namespace Failure

/-- Whether reading a program returns what it has read so far when this stops it. -/
def isRecoverable : Failure → Bool
  | read _ | general _ | system _ => true
  | interrupted _ | unknownCharacterName _ | integerTooLong _ => false

/-- The message. A fault has none here: the host reports it in words of its own. -/
def message? : Failure → Option String
  | read e => some e.message
  | general m | system m | interrupted m => some m
  | unknownCharacterName _ | integerTooLong _ => none

end Failure

end LispCore
