import LispCore.Number.Radix
import LispCore.Text.Quoted

/-!
Tokens: what a text is cut into before it is read. A token has a kind, a text of its own, the
position at which it starts and the number of characters it was written with.

Positions count lines and columns from zero, columns in characters; only a line feed ends a line.
-/

namespace LispCore

/-- A place in a text. -/
structure Position where
  line : Nat := 0
  column : Nat := 0
deriving DecidableEq, Repr, Inhabited

namespace Position

/-- The place after a character. -/
def next (p : Position) (c : Char) : Position :=
  if c = '\n' then ⟨p.line + 1, 0⟩ else ⟨p.line, p.column + 1⟩

/-- The place after a text. -/
def advance (p : Position) (cs : List Char) : Position := cs.foldl next p

@[simp] theorem advance_nil (p : Position) : p.advance [] = p := rfl

@[simp] theorem advance_append (p : Position) (cs ds : List Char) :
    p.advance (cs ++ ds) = (p.advance cs).advance ds := by
  simp [advance]

end Position

/-- The three pairs of brackets. -/
inductive Bracket where
  | round
  | square
  | curly
deriving DecidableEq, Repr

/-- The marks that wrap the form after them in a call. -/
inductive Marker where
  | quote
  | backtick
  | tilde
  | tildeAt
deriving DecidableEq, Repr

/-- The name of the form that a marker stands for. -/
def Marker.formName : Marker → String
  | quote => "quote"
  | backtick => "syntax-quote"
  | tilde => "unquote"
  | tildeAt => "unquote-splicing"

/-- The kinds of tokens. -/
inductive TokenKind where
  | opening (b : Bracket)
  | closing (b : Bracket)
  | dot
  | marker (m : Marker)
  | symbol
  | bool
  | integer (r : Radix)
  | float
  | char
  | string
  | endOfInput
deriving DecidableEq, Repr

/-- The name that messages call a kind of token by. -/
def TokenKind.name : TokenKind → String
  | opening .round => "LPAREN"
  | closing .round => "RPAREN"
  | opening .square => "LSQUARE"
  | closing .square => "RSQUARE"
  | opening .curly => "LCURLY"
  | closing .curly => "RCURLY"
  | dot => "DOT"
  | marker .quote => "QUOTE"
  | marker .backtick => "BACKTICK"
  | marker .tilde => "TILDE"
  | marker .tildeAt => "TILDE_AT"
  | symbol => "SYMBOL"
  | bool => "BOOL"
  | integer .decimal => "DECIMAL"
  | integer .hexadecimal => "HEX"
  | integer .octal => "OCTAL"
  | integer .binary => "BINARY"
  | char => "CHAR"
  | string => "STRING"
  | float => "FLOAT"
  | endOfInput => "END"

/-- A token. The text of a string or a character is what it stands for, that of an integer has no
radix mark, and that of any other token is what was written. -/
structure Token where
  kind : TokenKind
  text : String
  start : Position := {}
  length : Nat := 0
deriving DecidableEq, Repr

namespace Token

/-- The end of a text that does not say where it ends. -/
def unplacedEnd : Token := { kind := .endOfInput, text := "" }

/-- A token as messages name it. -/
def describe (t : Token) : String :=
  if t.kind = .endOfInput then "end of input" else t.kind.name ++ " " ++ Text.quoted t.text

end Token

end LispCore
