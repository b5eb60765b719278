import LispCore.Reader.Form

/-!
The grammar of forms, said without the reader that decides it.

`Expr toks t v t'` says that the tokens `toks` are one form: read where the names of `t` are known,
it denotes `v`, and the names of `t'` are known after it. `Exprs` says the same of a sequence of
forms. The rules are those of the surface syntax, one constructor a production:

* an atomic token is a form by itself (`Atomic`); integers need the digits of their radix and a
  value of 64 bits, characters a text of one character;
* a marker and the form after it are a call of the form that the marker names;
* brackets hold a sequence of forms, and a round pair may end it with a dot and one more form, if
  at least one form stands before the dot.

Names are interned in the order in which the forms that use them are complete, so the tables of a
derivation are threaded from left to right.
-/

namespace LispCore

/-! ### Integers -/

/-- A text is an integer of a radix: one or more digits, perhaps with a sign before them. -/
inductive Radix.Spells (r : Radix) : List Char → Int → Prop where
  | unsigned {ds} : r.isNatural ds → r.Spells ds (r.value ds)
  | plus {ds} : r.isNatural ds → r.Spells ('+' :: ds) (r.value ds)
  | minus {ds} : r.isNatural ds → r.Spells ('-' :: ds) (-(r.value ds))

theorem Radix.readNat?_eq_some_iff {r : Radix} {cs : List Char} {n : Nat} :
    r.readNat? cs = some n ↔ r.isNatural cs ∧ r.value cs = n := by
  simp [Radix.readNat?]

/-- A sign is no digit of any radix. -/
theorem Radix.isDigit_sign (r : Radix) : r.isDigit '-' = false ∧ r.isDigit '+' = false := by
  cases r <;> decide

theorem Radix.readInt?_minus (r : Radix) (ds : List Char) :
    r.readInt? ('-' :: ds) = (r.readNat? ds).map fun n => -Int.ofNat n := by
  rw [Radix.readInt?]
  cases r.readNat? ds <;> rfl

/-- **Integers are read exactly.** Reading gives the integer that a text spells, and nothing for a
text that spells none. -/
theorem Radix.readInt?_eq_some_iff {r : Radix} {cs : List Char} {n : Int} :
    r.readInt? cs = some n ↔ r.Spells cs n := by
  have hsign := r.isDigit_sign
  constructor
  · intro h
    rcases cs with _ | ⟨c, ds⟩
    · simp [Radix.readInt?, Radix.readNat?, Radix.isNatural] at h
    by_cases hm : c = '-'
    · subst hm
      rw [Radix.readInt?_minus] at h
      obtain ⟨m, hm, rfl⟩ := Option.map_eq_some_iff.mp h
      obtain ⟨hnat, rfl⟩ := Radix.readNat?_eq_some_iff.mp hm
      exact .minus hnat
    unfold Radix.readInt? at h
    split at h
    · next heq => exact absurd (List.cons.inj heq).1 hm
    · next heq =>
      cases heq
      obtain ⟨m, hm, rfl⟩ := Option.map_eq_some_iff.mp h
      obtain ⟨hnat, rfl⟩ := Radix.readNat?_eq_some_iff.mp hm
      exact .plus hnat
    · obtain ⟨m, hm, rfl⟩ := Option.map_eq_some_iff.mp h
      obtain ⟨hnat, rfl⟩ := Radix.readNat?_eq_some_iff.mp hm
      exact .unsigned hnat
  · intro h
    cases h with
    | unsigned hnat =>
      have hread := Radix.readNat?_eq_some_iff.mpr ⟨hnat, rfl⟩
      unfold Radix.readInt?
      split
      · simp [Radix.isNatural, hsign.1] at hnat
      · simp [Radix.isNatural, hsign.2] at hnat
      · rw [hread]; rfl
    | plus hnat => simp [Radix.readInt?, Radix.readNat?, hnat]
    | minus hnat => simp [Radix.readInt?, Radix.readNat?, hnat]

namespace Token

/-- A token that a source may deliver before its end, and whose digits are few enough to be
converted if it is a decimal integer. -/
structure Regular (tok : Token) : Prop where
  not_end : tok.kind ≠ .endOfInput
  few_digits : tok.kind = .integer .decimal →
    tok.text.toList.countP Radix.decimal.isDigit ≤ maxDecimalDigits

instance (tok : Token) : Decidable tok.Regular :=
  decidable_of_iff (tok.kind ≠ .endOfInput ∧ (tok.kind = .integer .decimal →
      tok.text.toList.countP Radix.decimal.isDigit ≤ maxDecimalDigits))
    ⟨fun h => ⟨h.1, h.2⟩, fun h => ⟨h.not_end, h.few_digits⟩⟩

/-- The integer of a regular token is the one its text spells, if it has 64 bits. -/
theorem readInteger_eq_ok_iff {tok : Token} {r : Radix} {n : Int} (hreg : tok.Regular)
    (hkind : tok.kind = .integer r) :
    tok.readInteger r = .ok n ↔ r.Spells tok.text.toList n ∧ minInt ≤ n ∧ n ≤ maxInt := by
  rw [← Radix.readInt?_eq_some_iff]
  unfold readInteger
  cases hread : r.readInt? tok.text.toList with
  | none => simp
  | some m =>
    have hfew : ¬(r = .decimal ∧ maxDecimalDigits < tok.text.toList.countP r.isDigit) := by
      rintro ⟨rfl, hmany⟩
      exact absurd (hreg.few_digits hkind) (Nat.not_le.mpr hmany)
    simp only [if_neg hfew, Option.some.injEq]
    split
    · next hrange =>
      simp only [Except.ok.injEq]
      exact ⟨fun h => h ▸ ⟨rfl, hrange⟩, fun h => h.1⟩
    · next hrange =>
      simp only [reduceCtorEq, false_iff]
      rintro ⟨rfl, h⟩
      exact hrange h

end Token

/-- Whether a form may start with a token of a kind. -/
def TokenKind.startsForm : TokenKind → Bool
  | closing _ | dot | endOfInput => false
  | _ => true

namespace Reader

/-! ### Forms -/

/-- `Atomic tok t v t'`: a token denotes a value by itself. -/
inductive Atomic (tok : Token) (t : SymbolTable) : Value → SymbolTable → Prop where
  | symbol : tok.kind = .symbol →
      Atomic tok t (.symbol (t.intern tok.text).1) (t.intern tok.text).2
  | bool : tok.kind = .bool → Atomic tok t (.bool (tok.text == "true")) t
  | integer {r n} : tok.kind = .integer r → r.Spells tok.text.toList n → minInt ≤ n → n ≤ maxInt →
      Atomic tok t (.int n) t
  | float {x} : tok.kind = .float → tok.readFloat = .ok x → Atomic tok t (.float x) t
  | string : tok.kind = .string → Atomic tok t (.str tok.text) t
  | char {c} : tok.kind = .char → tok.text.toList = [c] → Atomic tok t (.char c) t

mutual

/-- `Expr toks t v t'`: the tokens are one form, which denotes a value. -/
inductive Expr : List Token → SymbolTable → Value → SymbolTable → Prop where
  | atomic {tok t v t'} : Atomic tok t v t' → Expr [tok] t v t'
  | marked {tok m toks t v t'} : tok.kind = .marker m → Expr toks t v t' →
      Expr (tok :: toks) t (.ofList [.symbol (t'.intern m.formName).1, v])
        (t'.intern m.formName).2
  | list {op toks cl t vs t'} : op.kind = .opening .round → Exprs toks t vs t' →
      cl.kind = .closing .round → Expr (op :: (toks ++ [cl])) t (.ofList vs) t'
  | dotted {op toks dot tail cl t vs t₁ v t'} : op.kind = .opening .round →
      Exprs toks t vs t₁ → vs ≠ [] → dot.kind = .dot → Expr tail t₁ v t' →
      cl.kind = .closing .round →
      Expr (op :: (toks ++ dot :: (tail ++ [cl]))) t (.ofList vs v) t'
  | array {op toks cl t vs t'} : op.kind = .opening .square → Exprs toks t vs t' →
      cl.kind = .closing .square → Expr (op :: (toks ++ [cl])) t (.array vs) t'
  | hash {op toks cl t vs t'} : op.kind = .opening .curly → Exprs toks t vs t' →
      cl.kind = .closing .curly →
      Expr (op :: (toks ++ [cl])) t (.cons (.symbol (t'.intern "hash").1) (.ofList vs))
        (t'.intern "hash").2

/-- `Exprs toks t vs t'`: the tokens are forms one after another, which denote values. -/
inductive Exprs : List Token → SymbolTable → List Value → SymbolTable → Prop where
  | nil {t} : Exprs [] t [] t
  | cons {xs ys t v t₁ vs t'} : Expr xs t v t₁ → Exprs ys t₁ vs t' →
      Exprs (xs ++ ys) t (v :: vs) t'

end

/-- A form has a first token, of a kind that may start a form. -/
theorem Expr.exists_cons {toks : List Token} {t t' : SymbolTable} {v : Value}
    (h : Expr toks t v t') : ∃ tok rest, toks = tok :: rest ∧ tok.kind.startsForm = true := by
  cases h with
  | atomic h =>
    refine ⟨_, _, rfl, ?_⟩
    cases h <;> simp [TokenKind.startsForm, *]
  | marked hk => exact ⟨_, _, rfl, by simp [TokenKind.startsForm, hk]⟩
  | list hk => exact ⟨_, _, rfl, by simp [TokenKind.startsForm, hk]⟩
  | dotted hk => exact ⟨_, _, rfl, by simp [TokenKind.startsForm, hk]⟩
  | array hk => exact ⟨_, _, rfl, by simp [TokenKind.startsForm, hk]⟩
  | hash hk => exact ⟨_, _, rfl, by simp [TokenKind.startsForm, hk]⟩

/-- One form is a sequence of one. -/
theorem Exprs.single {toks : List Token} {t t' : SymbolTable} {v : Value} (h : Expr toks t v t') :
    Exprs toks t [v] t' := by
  simpa using Exprs.cons h .nil

/-- A sequence of forms may be followed by another. -/
theorem Exprs.append {xs ys : List Token} {t t₁ t' : SymbolTable} {vs ws : List Value}
    (h : Exprs xs t vs t₁) (h' : Exprs ys t₁ ws t') : Exprs (xs ++ ys) t (vs ++ ws) t' := by
  match h with
  | .nil => exact h'
  | .cons hx hxs => simpa using Exprs.cons hx (hxs.append h')

/-- A sequence of forms may be followed by one more. -/
theorem Exprs.snoc {xs ys : List Token} {t t₁ t' : SymbolTable} {vs : List Value} {v : Value}
    (h : Exprs xs t vs t₁) (h' : Expr ys t₁ v t') : Exprs (xs ++ ys) t (vs ++ [v]) t' :=
  h.append (.single h')

/-- No form denotes the mark of an exhausted text. -/
theorem Expr.ne_endMark {toks : List Token} {t t' : SymbolTable} {v : Value}
    (h : Expr toks t v t') : v ≠ .endMark := by
  cases h with
  | atomic h => cases h <;> simp
  | marked => simp [Value.cons]
  | @list _ _ _ _ vs => cases vs <;> simp [Value.cons]
  | @dotted _ _ _ _ _ _ vs _ _ _ _ _ hne =>
    cases vs with
    | nil => exact absurd rfl hne
    | cons => simp [Value.cons]
  | array => simp
  | hash => simp [Value.cons]

end Reader

end LispCore
