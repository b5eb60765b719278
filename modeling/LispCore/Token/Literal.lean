/-!
How strings and characters are written in a text: strings between double quotes with backslash
escapes, characters after `#\`, four of them by name. Reading resolves every escape; writing escapes
what a line cannot hold plainly. `unescape_escape` says that the two agree.
-/

namespace LispCore

namespace StringLiteral

/-- The character that a backslash and a character stand for. -/
def escaped (c : Char) : Char :=
  match c with
  | 'n' => '\n'
  | 't' => '\t'
  | 'r' => '\r'
  | '0' => '\x00'
  | c => c

/-- Resolves the escapes of a text; a backslash at its very end stands for itself. -/
def unescape : List Char → List Char
  | '\\' :: c :: rest => escaped c :: unescape rest
  | c :: rest => c :: unescape rest
  | [] => []

/-- The text between the quotes of a string literal. The first and the last character are dropped
without a look at them. -/
def decode (raw : List Char) : List Char := unescape (raw.drop 1).dropLast

/-- How one character of a string is written. -/
def escape (c : Char) : List Char :=
  match c with
  | '\\' => ['\\', '\\']
  | '"' => ['\\', '"']
  | '\n' => ['\\', 'n']
  | '\t' => ['\\', 't']
  | '\r' => ['\\', 'r']
  | '\x00' => ['\\', '0']
  | c => [c]

/-- The literal of a string. -/
def encode (cs : List Char) : List Char := '"' :: cs.flatMap escape ++ ['"']

/-- A character is written plainly, or as a backslash and a character that stands for it. -/
theorem escape_eq (c : Char) :
    (escape c = [c] ∧ c ≠ '\\' ∧ c ≠ '"') ∨ ∃ d, escape c = ['\\', d] ∧ escaped d = c := by
  unfold escape
  split
  · exact .inr ⟨'\\', rfl, rfl⟩
  · exact .inr ⟨'"', rfl, rfl⟩
  · exact .inr ⟨'n', rfl, rfl⟩
  · exact .inr ⟨'t', rfl, rfl⟩
  · exact .inr ⟨'r', rfl, rfl⟩
  · exact .inr ⟨'0', rfl, rfl⟩
  · next h₁ h₂ _ _ _ _ => exact .inl ⟨rfl, h₁, h₂⟩

theorem unescape_escape (cs : List Char) : unescape (cs.flatMap escape) = cs := by
  induction cs with
  | nil => rfl
  | cons c cs ih =>
    rcases escape_eq c with ⟨h, hc, -⟩ | ⟨d, h, hd⟩
    · rw [List.flatMap_cons, h, List.singleton_append, unescape, ih]
      exact fun _ _ h _ => hc h
    · rw [List.flatMap_cons, h, List.cons_append, List.singleton_append, unescape, hd, ih]

@[simp] theorem decode_encode (cs : List Char) : decode (encode cs) = cs := by
  simp [decode, encode, unescape_escape]

end StringLiteral

/-- The name that a character is written with, if it has one. -/
def characterName? (c : Char) : Option (List Char) :=
  match c with
  | ' ' => some "space".toList
  | '\n' => some "newline".toList
  | '\t' => some "tab".toList
  | '\r' => some "return".toList
  | _ => none

/-- The names of characters, in lower case. -/
def characterNames : List (List Char × Char) :=
  [("newline".toList, '\n'), ("space".toList, ' '), ("tab".toList, '\t'), ("return".toList, '\r')]

/-- The character of a name. -/
def characterOfName? (name : List Char) : Option Char :=
  (characterNames.find? fun entry => entry.1 == name).map (·.2)

/-- The text of a character literal. -/
def characterLiteral (c : Char) : List Char := '#' :: '\\' :: (characterName? c).getD [c]

end LispCore
