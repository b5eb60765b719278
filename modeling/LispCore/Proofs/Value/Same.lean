import LispCore.Proofs.Value.Equal

/-!
Equality of values is sameness of structure.

`Same true v w` says, without an algorithm, when two values are equal: they have the same shape of
pairs and arrays and the same variant with the same payload at every leaf, but two pairs with one
label are one pair and not looked into. `Same false v w` looks into every pair.

* `equal_eq_true_iff` — equality decides `Same true`;
* `Same.symm`, `Same.trans`, `Same.refl` — sameness is symmetric, transitive where every pair is
  looked into, and reflexive where nothing is NaN;
* `Same.look` — among the values of one store, none of which holds NaN, it makes no difference
  whether pairs with one label are looked into;
* `equal_iff_same` — the main statement.
-/

namespace LispCore.Value

/-! ### Sameness -/

/-- Two values have the same structure. With `identity`, two pairs with one label are the same
whatever they hold. -/
inductive Same (identity : Bool) : Value → Value → Prop where
  | null : Same identity .null .null
  | endMark : Same identity .endMark .endMark
  | bool {b} : Same identity (.bool b) (.bool b)
  | int {n} : Same identity (.int n) (.int n)
  | number {x} : x ≠ .nan → Same identity (.float x) (.float x)
  | zeros {s t} :
      Same identity (.float (.finite s ⟨0, by decide⟩)) (.float (.finite t ⟨0, by decide⟩))
  | str {s} : Same identity (.str s) (.str s)
  | char {c} : Same identity (.char c) (.char c)
  | symbol {name id} : Same identity (.symbol ⟨name, id⟩) (.symbol ⟨name, id⟩)
  | pair {cell cell' head head' tail tail'} : Same identity head head' → Same identity tail tail' →
      Same identity (.pair cell head tail) (.pair cell' head' tail')
  | shared {c head head' tail tail'} : identity = true →
      Same identity (.pair (some c) head tail) (.pair (some c) head' tail')
  | array {xs ys} : xs.length = ys.length →
      (∀ (i : Nat) x y, xs[i]? = some x → ys[i]? = some y → Same identity x y) →
      Same identity (.array xs) (.array ys)
  | builtin {id name name'} : Same identity (.builtin id name) (.builtin id name')
  | channel {id capacity capacity'} :
      Same identity (.channel id capacity) (.channel id capacity')
  | coroutine {id} : Same identity (.coroutine id) (.coroutine id)

variable {identity : Bool} {a b c : Value}

/-! ### What equality decides -/

/-- Items are equal if they are as many and equal place by place. -/
theorem equalItems_eq_true_iff {xs ys : List Value} :
    equalItems xs ys = true ↔ xs.length = ys.length ∧
      ∀ (i : Nat) x y, xs[i]? = some x → ys[i]? = some y → x.equal y = true := by
  induction xs generalizing ys with
  | nil => cases ys <;> simp [equalItems]
  | cons v xs ih =>
    cases ys with
    | nil => simp [equalItems]
    | cons w ys =>
      rw [equalItems, Bool.and_eq_true, ih]
      constructor
      · rintro ⟨hvw, hlength, hitems⟩
        refine ⟨congrArg Nat.succ hlength, ?_⟩
        intro i x y hx hy
        cases i with
        | zero =>
          cases hx
          cases hy
          exact hvw
        | succ i => exact hitems i x y hx hy
      · rintro ⟨hlength, hitems⟩
        exact ⟨hitems 0 v w rfl rfl, Nat.succ.inj hlength, fun i => hitems (i + 1)⟩

theorem numEq_eq_true_iff {x y : Binary64} :
    x.numEq y = true ↔ Same identity (.float x) (.float y) := by
  constructor
  · intro h
    cases x with
    | nan => cases h
    | infinity s =>
      cases y with
      | infinity t =>
        obtain rfl : s = t := beq_iff_eq.mp h
        exact .number (by simp)
      | _ => cases h
    | finite s rank =>
      cases y with
      | finite t rank' =>
        simp only [Binary64.numEq, Bool.and_eq_true, beq_iff_eq, Bool.or_eq_true] at h
        obtain ⟨rfl, rfl | hzero⟩ := h
        · exact .number (by simp)
        · obtain rfl : rank = ⟨0, by decide⟩ := Fin.ext hzero
          exact .zeros
      | _ => cases h
  · intro h
    cases h with
    | number hx => exact (Binary64.numEq_self x).mpr hx
    | zeros => simp [Binary64.numEq]

theorem sameCell_eq_true_iff {cell cell' : Option Nat} :
    sameCell cell cell' = true ↔ ∃ c, cell = some c ∧ cell' = some c := by
  cases cell with
  | none => simp [sameCell]
  | some c =>
    cases cell' with
    | none => simp [sameCell]
    | some c' =>
      simp only [sameCell, beq_iff_eq, Option.some.injEq, exists_eq_left']
      exact eq_comm

theorem same_of_equal : a.equal b = true → Same true a b := by
  refine equal.induct (fun a b => a.equal b = true → Same true a b)
    (fun xs ys => ∀ (i : Nat) x y, xs[i]? = some x → ys[i]? = some y → x.equal y = true →
      Same true x y) ?null ?endMark ?bool ?int ?float ?str ?char ?symbol ?pair ?array ?builtin
    ?channel ?coroutine ?apart ?nil ?cons ?uneven a b
  case null => exact fun _ => .null
  case endMark => exact fun _ => .endMark
  case bool | int | str | char =>
    intro x y h
    rw [equal, beq_iff_eq] at h
    subst h
    constructor
  case symbol =>
    intro s t h
    rw [equal, beq_iff_eq] at h
    subst h
    exact .symbol
  case float =>
    intro x y h
    rw [equal] at h
    exact numEq_eq_true_iff.mp h
  case pair =>
    intro cell head tail cell' head' tail' hhead htail h
    rw [equal, Bool.or_eq_true, Bool.and_eq_true, sameCell_eq_true_iff] at h
    obtain ⟨c, rfl, rfl⟩ | ⟨h₁, h₂⟩ := h
    · exact .shared rfl
    · exact .pair (hhead h₁) (htail h₂)
  case array =>
    intro xs ys hitems h
    rw [equal, equalItems_eq_true_iff] at h
    exact .array h.1 fun i x y hx hy => hitems i x y hx hy (h.2 i x y hx hy)
  case builtin | channel =>
    intro id _ id' _ h
    rw [equal, beq_iff_eq] at h
    subst h
    constructor
  case coroutine =>
    intro id id' h
    rw [equal, beq_iff_eq] at h
    subst h
    exact .coroutine
  case apart =>
    intro a b h₁ h₂ h₃ h₄ h₅ h₆ h₇ h₈ h₉ h₁₀ h₁₁ h₁₂ h₁₃ h
    rw [equal.eq_14 a b h₁ h₂ h₃ h₄ h₅ h₆ h₇ h₈ h₉ h₁₀ h₁₁ h₁₂ h₁₃] at h
    cases h
  case nil =>
    intro i x y hx
    cases hx
  case cons =>
    intro v xs w ys hvw hitems i x y hx hy h
    cases i with
    | zero =>
      cases hx
      cases hy
      exact hvw h
    | succ i => exact hitems i x y hx hy h
  case uneven =>
    intro xs ys hnil hcons i x y hx hy
    cases xs with
    | nil => cases hx
    | cons v xs =>
      cases ys with
      | nil => cases hy
      | cons w ys => exact (hcons v xs w ys rfl rfl).elim

theorem equal_of_same (h : Same true a b) : a.equal b = true := by
  induction h with
  | null | endMark => rw [equal]
  | bool | int | str | char | symbol | builtin | channel | coroutine =>
    rw [equal]
    exact beq_self_eq_true _
  | number hx =>
    rw [equal]
    exact (Binary64.numEq_self _).mpr hx
  | zeros =>
    rw [equal]
    exact numEq_eq_true_iff.mpr (@Same.zeros true _ _)
  | pair _ _ hhead htail => rw [equal, hhead, htail, Bool.and_self, Bool.or_true]
  | shared _ => rw [equal, sameCell_eq_true_iff.mpr ⟨_, rfl, rfl⟩, Bool.true_or]
  | array hlength _ ih =>
    rw [equal]
    exact equalItems_eq_true_iff.mpr ⟨hlength, ih⟩

/-- **Equality decides sameness.** -/
theorem equal_eq_true_iff : a.equal b = true ↔ Same true a b := ⟨same_of_equal, equal_of_same⟩

/-! ### Symmetry, reflexivity and transitivity -/

theorem Same.symm (h : Same identity a b) : Same identity b a := by
  induction h with
  | number hx => exact .number hx
  | pair _ _ hhead htail => exact .pair hhead htail
  | shared hidentity => exact .shared hidentity
  | array hlength _ ih => exact .array hlength.symm fun i x y hx hy => ih i y x hy hx
  | _ => constructor

/-- **A value without NaN is the same as itself**, also where every pair is looked into. -/
theorem Same.refl : (v : Value) → ¬v.HoldsNan → Same identity v v
  | .null, _ => .null
  | .endMark, _ => .endMark
  | .bool _, _ => .bool
  | .int _, _ => .int
  | .float x, h => .number fun hx => h (hx ▸ .nan)
  | .str _, _ => .str
  | .char _, _ => .char
  | .symbol _, _ => .symbol
  | .pair _ head tail, h =>
    .pair (refl head fun hhead => h (.head hhead)) (refl tail fun htail => h (.tail htail))
  | .array items, h => by
    refine .array rfl ?_
    intro i x y hx hy
    obtain rfl : x = y := Option.some.inj (hx.symm.trans hy)
    have hmem : x ∈ items := List.mem_of_getElem? hx
    exact refl x fun hnan => h (.item hmem hnan)
  | .builtin _ _, _ => .builtin
  | .channel _ _, _ => .channel
  | .coroutine _, _ => .coroutine

/-- **Sameness is transitive where every pair is looked into.** -/
theorem Same.trans (h : Same false a b) (h' : Same false b c) : Same false a c := by
  induction h generalizing c with
  | null | endMark | bool | int | str | char | symbol | number => exact h'
  | zeros =>
    cases h' with
    | number => exact .zeros
    | zeros => exact .zeros
  | pair _ _ hhead htail =>
    cases h' with
    | pair hhead' htail' => exact .pair (hhead hhead') (htail htail')
    | shared hidentity => cases hidentity
  | shared hidentity => cases hidentity
  | @array xs ys hlength _ ih =>
    cases h' with
    | @array _ zs hlength' hitems' =>
      refine .array (hlength.trans hlength') ?_
      intro i x z hx hz
      have hi : i < ys.length := hlength ▸ (List.getElem?_eq_some_iff.mp hx).1
      have hy : ys[i]? = some ys[i] := List.getElem?_eq_getElem hi
      exact ih i x ys[i] hx hy (hitems' i ys[i] z hy hz)
  | builtin =>
    cases h'
    exact .builtin
  | channel =>
    cases h'
    exact .channel
  | coroutine => exact h'

/-! ### Values of one store -/

/-- A value stands somewhere in a value, or is it. -/
inductive Within (w : Value) : Value → Prop where
  | self : Within w w
  | head {cell head tail} : Within w head → Within w (.pair cell head tail)
  | tail {cell head tail} : Within w tail → Within w (.pair cell head tail)
  | item {items v} : v ∈ items → Within w v → Within w (.array items)

/-- The labels of the pairs in a value are those of cells with the contents that are given: a pair
with a label holds what the cell of that label holds. -/
def LivesIn (cells : Nat → Value × Value) (v : Value) : Prop :=
  ∀ c head tail, Within (.pair (some c) head tail) v → cells c = (head, tail)

section LivesIn

variable {cells : Nat → Value × Value} {cell : Option Nat} {first rest : Value} {items : List Value}

theorem LivesIn.head (h : LivesIn cells (.pair cell first rest)) : LivesIn cells first :=
  fun c _ _ hw => h c _ _ (.head hw)

theorem LivesIn.tail (h : LivesIn cells (.pair cell first rest)) : LivesIn cells rest :=
  fun c _ _ hw => h c _ _ (.tail hw)

theorem LivesIn.item (h : LivesIn cells (.array items)) {v : Value} (hv : v ∈ items) :
    LivesIn cells v :=
  fun c _ _ hw => h c _ _ (.item hv hw)

theorem LivesIn.pair (hfirst : LivesIn cells first) (hrest : LivesIn cells rest)
    (hcell : ∀ c ∈ cell, cells c = (first, rest)) : LivesIn cells (.pair cell first rest) := by
  intro c head tail hw
  cases hw with
  | self => exact hcell c rfl
  | head hw => exact hfirst c head tail hw
  | tail hw => exact hrest c head tail hw

theorem LivesIn.array (h : ∀ v ∈ items, LivesIn cells v) : LivesIn cells (.array items) := by
  intro c head tail hw
  cases hw with
  | item hv hw => exact h _ hv c head tail hw

/-- **It makes no difference whether a pair is looked into that is the same pair**: among values of
one store without NaN, sameness by labels is sameness of contents. -/
theorem Same.look (h : Same true a b) (ha : LivesIn cells a) (hb : LivesIn cells b)
    (hnan : ¬a.HoldsNan) : Same false a b := by
  induction h with
  | number hx => exact .number hx
  | pair _ _ hhead htail =>
    exact .pair (hhead ha.head hb.head fun hn => hnan (.head hn))
      (htail ha.tail hb.tail fun hn => hnan (.tail hn))
  | @shared c head head' tail tail' _ =>
    have hcell : (head, tail) = (head', tail') :=
      (ha c head tail .self).symm.trans (hb c head' tail' .self)
    cases hcell
    exact .pair (.refl head fun hn => hnan (.head hn)) (.refl tail fun hn => hnan (.tail hn))
  | array hlength _ ih =>
    refine .array hlength ?_
    intro i x y hx hy
    have hmem := List.mem_of_getElem? hx
    exact ih i x y hx hy (ha.item hmem) (hb.item (List.mem_of_getElem? hy))
      fun hn => hnan (.item hmem hn)
  | _ => constructor

/-- What is the same in all its contents is the same. -/
theorem Same.overlook (h : Same false a b) : Same identity a b := by
  induction h with
  | number hx => exact .number hx
  | pair _ _ hhead htail => exact .pair hhead htail
  | shared hidentity => cases hidentity
  | array hlength _ ih => exact .array hlength ih
  | _ => constructor

end LivesIn

/-! ### Equality -/

/-- Operators say of pairs and arrays what equality says. -/
theorem operatorEqual_eq (a b : Value) : operatorEqual a b = a.equal b := by
  cases a with
  | pair => cases b <;> simp [operatorEqual, equal]
  | array => cases b <;> simp [operatorEqual, equal]
  | _ => rfl

/-- **Equality of values is sameness of structure.**

* Two values are equal exactly if they have the same shape, the same variants and the same payloads,
  pairs with one label being the same unseen.
* The order of the two does not matter, and arrays of one item are equal exactly if the items are.
* The operators of pairs and arrays say what equality says.
* A value without NaN is equal to itself. Among such values of one store it makes no difference if
  pairs with one label are looked into too, and equality is transitive. -/
theorem equal_iff_same (a b : Value) :
    (a.equal b = true ↔ Same true a b) ∧
    b.equal a = a.equal b ∧ (Value.array [a]).equal (.array [b]) = a.equal b ∧
    (a.isHashable = false → (a == b) = a.equal b ∧ (a != b) = !a.equal b) ∧
    (¬a.HoldsNan → a.equal a = true) ∧
    ∀ cells, a.LivesIn cells → b.LivesIn cells → ¬a.HoldsNan → ¬b.HoldsNan →
      (a.equal b = true ↔ Same false a b) ∧
      ∀ c, c.LivesIn cells → ¬c.HoldsNan → a.equal b = true → b.equal c = true →
        a.equal c = true := by
  refine ⟨equal_eq_true_iff, ?_, ?_, ?_, ?_, ?_⟩
  · rw [Bool.eq_iff_iff, equal_eq_true_iff, equal_eq_true_iff]
    exact ⟨Same.symm, Same.symm⟩
  · rw [equal, equalItems, equalItems, Bool.and_true]
  · intro _
    have hoperator : (a == b) = a.equal b := operatorEqual_eq a b
    exact ⟨hoperator, congrArg not hoperator⟩
  · intro hnan
    exact equal_of_same (.refl a hnan)
  · intro cells ha hb hnan hnanb
    refine ⟨⟨fun h => (same_of_equal h).look ha hb hnan, fun h => equal_of_same h.overlook⟩, ?_⟩
    intro c hc _ hab hbc
    have hab := (same_of_equal hab).look ha hb hnan
    have hbc := (same_of_equal hbc).look hb hc hnanb
    exact equal_of_same (hab.trans hbc).overlook

/-! ### Two cells with one content -/

/-- Two cells that hold a list of one item each, the two zeros, and others that hold nothing. -/
def zeroCells (c : Nat) : Value × Value :=
  (.float (.finite (c = 1) ⟨0, Binary64.rankCount_pos⟩), .null)

/-- A list in one of these cells. -/
def zeroList (c : Nat) : Value := .pair (some c) (zeroCells c).1 .null

theorem zeroList_livesIn (c : Nat) : (zeroList c).LivesIn zeroCells := by
  have hleaf : LivesIn zeroCells (zeroCells c).1 := by
    intro c' head tail hw
    cases hw
  have hnull : LivesIn zeroCells .null := by
    intro c' head tail hw
    cases hw
  refine .pair hleaf hnull ?_
  intro c' hc
  cases hc
  rfl

theorem zeroList_not_holdsNan (c : Nat) : ¬(zeroList c).HoldsNan := by
  intro h
  cases h with
  | head h => cases h
  | tail h => cases h

/-- The lists in two cells, of zero and of minus zero, are equal, by their contents as well, and so
is a list that is equal to the second one. -/
theorem equal_zeroList :
    (zeroList 0).LivesIn zeroCells ∧ (zeroList 1).LivesIn zeroCells ∧ ¬(zeroList 0).HoldsNan ∧
    ((zeroList 0 == zeroList 1) = (zeroList 0).equal (zeroList 1)) ∧
    ((zeroList 0).equal (zeroList 1) = true ↔ Same false (zeroList 0) (zeroList 1)) ∧
    (zeroList 0).equal (zeroList 0) = true ∧ (zeroList 0).equal (zeroList 2) = true := by
  obtain ⟨-, -, -, hoperators, hself, hstore⟩ := equal_iff_same (zeroList 0) (zeroList 1)
  have hnan := zeroList_not_holdsNan
  obtain ⟨hlook, htrans⟩ :=
    hstore zeroCells (zeroList_livesIn 0) (zeroList_livesIn 1) (hnan 0) (hnan 1)
  exact ⟨zeroList_livesIn 0, zeroList_livesIn 1, hnan 0, (hoperators rfl).1, hlook, hself (hnan 0),
    htrans (zeroList 2) (zeroList_livesIn 2) (hnan 2) (by decide +kernel) (by decide +kernel)⟩

end LispCore.Value
