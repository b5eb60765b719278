import LispCore.Value.Printer

/-!
Lists: chains of pairs that end in `null`. `heads` and `lastTail` take a chain of any ending apart
and `ofList` puts one together; every operation on lists is said through them.
-/

namespace LispCore.Value

/-- Why a list operation refuses a value. -/
inductive ListError where
  | notAList (v : Value)
  | improperTail (v : Value)
  | improperForm (v : Value)

def ListError.message : ListError → String
  | notAList v => v.display ++ " is not a list"
  | improperTail v => "cannot append past improper tail " ++ v.display
  | improperForm v => "Cannot load improper form " ++ v.display

/-- The elements of a chain of pairs. -/
def heads : Value → List Value
  | .pair _ head tail => head :: heads tail
  | _ => []

/-- What a chain of pairs ends in. -/
def lastTail : Value → Value
  | .pair _ _ tail => lastTail tail
  | v => v

/-- The chain of some elements that ends in a value. -/
def ofList (items : List Value) (tail : Value := .null) : Value := items.foldr cons tail

@[simp] theorem ofList_nil (tail : Value) : ofList [] tail = tail := rfl

@[simp] theorem ofList_cons (x : Value) (xs : List Value) (tail : Value) :
    ofList (x :: xs) tail = cons x (ofList xs tail) := rfl

theorem ofList_append (xs ys : List Value) (tail : Value) :
    ofList (xs ++ ys) tail = ofList xs (ofList ys tail) := by
  simp [ofList]

@[simp] theorem heads_ofList (xs : List Value) (tail : Value) :
    (ofList xs tail).heads = xs ++ tail.heads := by
  induction xs with
  | nil => rfl
  | cons x xs ih => simp [cons, heads, ih]

@[simp] theorem lastTail_ofList (xs : List Value) (tail : Value) :
    (ofList xs tail).lastTail = tail.lastTail := by
  induction xs with
  | nil => rfl
  | cons x xs ih => simpa [cons, lastTail] using ih

/-- Whether a value is a list. -/
def isList (v : Value) : Bool := v.lastTail matches .null

/-- The elements of a list. -/
def toList (v : Value) : Except ListError (List Value) :=
  if v.isList then .ok v.heads else .error (.notAList v)

/-- The number of elements of a list. -/
def length (v : Value) : Except ListError Nat :=
  if v.isList then .ok v.heads.length else .error (.notAList v)

/-- A list followed by another. The second is looked at first; where the first does not end in
`null`, what it ends in is to blame. -/
def concat (a b : Value) : Except ListError Value :=
  if !b.isList then .error (.notAList b)
  else if a.isList then .ok (ofList a.heads b)
  else .error (.improperTail a.lastTail)

variable {σ ε : Type}

/-- The list of the results of a function on the elements of a list, which it visits in order. A
failure of the function ends the visit at once; an ending other than `null` is found only when the
visit comes to it. -/
def mapM (f : Value → ExceptT ε (StateM σ) Value) :
    Value → ExceptT (ListError ⊕ ε) (StateM σ) Value
  | .null => pure .null
  | .pair _ head tail => do
    let x ← ExceptT.adapt Sum.inr (f head)
    let xs ← mapM f tail
    pure (cons x xs)
  | v => throw (.inl (.notAList v))

end LispCore.Value
