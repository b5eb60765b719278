import LispCore.Proofs.Reader.RoundTrip
import LispCore.Proofs.Value.Same

/-!
Printed texts are a canonical form.

A printed text shows all of a readable value but the labels of its pairs. Equality sees all of it
but these labels and the sign of a zero. So they say the same of values without a minus zero.

* `Readable.same_unlabel` — a readable value is the same as itself without labels;
* `same_iff_unlabel_eq` — readable values are the same exactly if they differ in labels only;
* `print_eq_iff_unlabel_eq` — they have the same text exactly if they differ in labels only;
* `equal_iff_print_eq` — the main statement.
-/

namespace LispCore.Value

variable {t : SymbolTable} {a b v : Value}

/-! ### Values without labels -/

theorem Readable.not_holdsNan (h : v.Readable t) : ¬v.HoldsNan := by
  induction h with
  | array _ ih =>
    intro hnan
    cases hnan with
    | item hmem hv => exact ih _ hmem hv
  | pair _ _ ihHead ihTail =>
    intro hnan
    cases hnan with
    | head hhead => exact ihHead hhead
    | tail htail => exact ihTail htail
  | _ =>
    intro hnan
    cases hnan

theorem Readable.unlabel (h : v.Readable t) : v.unlabel.Readable t := by
  induction h with
  | null => exact .null
  | bool => exact .bool
  | int hmin hmax => exact .int hmin hmax
  | float => exact .float
  | str => exact .str
  | char => exact .char
  | symbol hs hatom hclass => exact .symbol hs hatom hclass
  | array _ ih =>
    rw [Value.unlabel, unlabelItems_eq_map]
    refine .array ?_
    simpa using ih
  | pair _ _ ihHead ihTail => exact .pair ihHead ihTail

/-- A value without labels lives in every store. -/
theorem Readable.livesIn_unlabel (h : v.Readable t) (cells : Nat → Value × Value) :
    v.unlabel.LivesIn cells := by
  induction h with
  | array _ ih =>
    rw [Value.unlabel, unlabelItems_eq_map]
    apply LivesIn.array
    intro w hw
    obtain ⟨x, hx, rfl⟩ := List.mem_map.mp hw
    exact ih x hx
  | pair _ _ ihHead ihTail => exact .pair ihHead ihTail (by simp)
  | _ =>
    intro c head tail hw
    cases hw

/-- **A readable value is the same as itself without labels.** -/
theorem Readable.same_unlabel (h : v.Readable t) : Same false v v.unlabel := by
  induction h with
  | float => exact .number (by simp)
  | @array items _ ih =>
    rw [Value.unlabel, unlabelItems_eq_map]
    apply Same.array (by simp)
    intro i x y hx hy
    rw [List.getElem?_map, hx] at hy
    cases hy
    exact ih x (List.mem_of_getElem? hx)
  | pair _ _ ihHead ihTail => exact .pair ihHead ihTail
  | _ => constructor

/-! ### The sign of a zero -/

/-- The zero with a sign, which equals the other one and is printed differently. -/
def minusZero : Value := .float (.finite true ⟨0, Binary64.rankCount_pos⟩)

example : minusZero.equal (.float (.finite false ⟨0, Binary64.rankCount_pos⟩)) = true := by
  decide +kernel

/-- **Readable values that are the same differ in labels only**, if neither holds a minus zero. -/
theorem Same.unlabel_eq (h : Same false a b) (ha : a.Readable t) (hza : ¬minusZero.Within a)
    (hzb : ¬minusZero.Within b) : a.unlabel = b.unlabel := by
  induction h with
  | @zeros s s' =>
    obtain rfl : s = false := by
      cases s with
      | false => rfl
      | true => exact absurd .self hza
    obtain rfl : s' = false := by
      cases s' with
      | false => rfl
      | true => exact absurd .self hzb
    rfl
  | pair _ _ ihHead ihTail =>
    cases ha with
    | pair hhead htail =>
      have h₁ := ihHead hhead (fun hw => hza (.head hw)) fun hw => hzb (.head hw)
      have h₂ := ihTail htail (fun hw => hza (.tail hw)) fun hw => hzb (.tail hw)
      rw [unlabel, unlabel, h₁, h₂]
  | shared hidentity => cases hidentity
  | @array xs ys hlength _ ih =>
    cases ha with
    | array hitems =>
      rw [unlabel, unlabel, unlabelItems_eq_map, unlabelItems_eq_map]
      refine congrArg Value.array (List.ext_getElem (by simpa using hlength) ?_)
      intro i hx hy
      rw [List.length_map] at hx hy
      rw [List.getElem_map, List.getElem_map]
      have hxmem := List.getElem_mem hx
      have hymem := List.getElem_mem hy
      exact ih i _ _ (List.getElem?_eq_getElem hx) (List.getElem?_eq_getElem hy)
        (hitems _ hxmem) (fun hw => hza (.item hxmem hw)) fun hw => hzb (.item hymem hw)
  | builtin | channel => cases ha
  | _ => rfl

/-- **Readable values are the same exactly if they differ in labels only.** -/
theorem same_iff_unlabel_eq (ha : a.Readable t) (hb : b.Readable t) (hza : ¬minusZero.Within a)
    (hzb : ¬minusZero.Within b) : Same false a b ↔ a.unlabel = b.unlabel := by
  constructor
  · intro h
    exact h.unlabel_eq ha hza hzb
  · intro h
    have hsame : Same false a b.unlabel := h ▸ ha.same_unlabel
    exact hsame.trans hb.same_unlabel.symm

/-! ### Texts -/

theorem itemChars_cons_cons (x y : Value) (ys : List Value) :
    itemChars (x :: y :: ys) = x.chars ++ ' ' :: itemChars (y :: ys) :=
  itemChars.eq_3 x (y :: ys) (by simp)

theorem itemChars_map_unlabel {items : List Value}
    (h : ∀ v ∈ items, v.unlabel.chars = v.chars) : itemChars (items.map unlabel) = itemChars items := by
  induction items with
  | nil => rfl
  | cons x xs ih =>
    obtain ⟨hx, hxs⟩ := List.forall_mem_cons.mp h
    cases xs with
    | nil => exact hx
    | cons y ys =>
      have hrest := ih hxs
      rw [List.map_cons] at hrest
      rw [List.map_cons, List.map_cons, itemChars_cons_cons, hrest, hx, itemChars_cons_cons]

/-- **A text shows no labels**, and nor does the rest of a list that ends in a value. -/
theorem Readable.chars_unlabel (h : v.Readable t) :
    v.unlabel.chars = v.chars ∧ tailChars v.unlabel = tailChars v := by
  induction h with
  | array _ ih =>
    have hitems := itemChars_map_unlabel fun v hv => (ih v hv).1
    rw [Value.unlabel, unlabelItems_eq_map, chars, chars, tailChars, tailChars, hitems]
    exact ⟨rfl, rfl⟩
  | pair _ _ ihHead ihTail =>
    rw [Value.unlabel, cons, chars, chars, tailChars, tailChars, ihHead.1, ihTail.2]
    exact ⟨rfl, rfl⟩
  | _ => exact ⟨rfl, rfl⟩

/-- **Readable values have the same text exactly if they differ in labels only**, since a text is
read back as one of them. -/
theorem print_eq_iff_unlabel_eq (ha : a.Readable t) (hb : b.Readable t) :
    a.print = b.print ↔ a.unlabel = b.unlabel := by
  constructor
  · intro h
    have hchars : a.chars = b.chars := String.ofList_injective h
    obtain ⟨r, hr, -⟩ :=
      Reader.forms_joined (List.forall_mem_singleton.mpr ha) .single {}
    obtain ⟨r', hr', -⟩ :=
      Reader.forms_joined (List.forall_mem_singleton.mpr hb) .single {}
    rw [hchars, hr'] at hr
    have hvalues := congrArg Prod.fst hr
    exact (List.singleton_inj.mp hvalues).symm
  · intro h
    rw [print, print, ← ha.chars_unlabel.1, ← hb.chars_unlabel.1, h]

/-- **The printed text is a canonical form.** Let two values be readable where the same names are
known, and let neither hold a minus zero. They are equal exactly if their texts are the same.

* This holds of them as they are read, without labels.
* It holds of them with their labels too, however pairs are shared, if both are values of one
  store. -/
theorem equal_iff_print_eq (ha : a.Readable t) (hb : b.Readable t) (hza : ¬minusZero.Within a)
    (hzb : ¬minusZero.Within b) :
    (a.unlabel.equal b.unlabel = true ↔ a.print = b.print) ∧
    ∀ cells, a.LivesIn cells → b.LivesIn cells → (a.equal b = true ↔ a.print = b.print) := by
  have hself := ha.same_unlabel
  have hself' := hb.same_unlabel
  rw [print_eq_iff_unlabel_eq ha hb, ← same_iff_unlabel_eq ha hb hza hzb]
  constructor
  · constructor
    · intro h
      have hsame := (same_of_equal h).look (ha.livesIn_unlabel fun _ => (.null, .null))
        (hb.livesIn_unlabel _) ha.unlabel.not_holdsNan
      exact hself.trans (hsame.trans hself'.symm)
    · intro h
      exact equal_of_same (hself.symm.trans (h.trans hself')).overlook
  · intro cells hla hlb
    constructor
    · intro h
      exact (same_of_equal h).look hla hlb ha.not_holdsNan
    · intro h
      exact equal_of_same h.overlook

/-- A pair that may have a label: a name, and an array with a dot before it. -/
def labelledPair (cell : Option Nat) : Value :=
  .pair cell (.symbol ⟨"ab", 0⟩) (.array [.char 'x', .str "x"])

/-- Two pairs with the same contents have the same text and are equal, although their labels tell
them apart. -/
theorem equal_iff_print_eq_labelledPair :
    (∀ cell, (labelledPair cell).Readable Reader.printedNames ∧
      ¬minusZero.Within (labelledPair cell)) ∧
    (labelledPair (some 7)).print = "(ab . [#\\x \"x\"])" ∧
    (labelledPair (some 8)).print = "(ab . [#\\x \"x\"])" ∧
    (labelledPair (some 7)).equal (labelledPair (some 8)) = true := by
  have hreadable (cell : Option Nat) : (labelledPair cell).Readable Reader.printedNames := by
    refine .pair (.symbol (by decide) (by decide) (by decide)) (.array ?_)
    intro v hv
    simp only [List.mem_cons, List.not_mem_nil, or_false] at hv
    rcases hv with rfl | rfl
    · exact .char
    · exact .str
  have hzero (cell : Option Nat) : ¬minusZero.Within (labelledPair cell) := by
    intro h
    rcases h with _ | h | h | _
    · cases h
    rcases h with _ | _ | _ | ⟨hmem, h⟩
    simp only [List.mem_cons, List.not_mem_nil, or_false] at hmem
    rcases hmem with rfl | rfl <;> cases h
  have hlives (c : Nat) : (labelledPair (some c)).LivesIn
      fun _ => (.symbol ⟨"ab", 0⟩, .array [.char 'x', .str "x"]) := by
    cases hreadable (some c) with
    | pair hhead htail =>
      exact .pair (hhead.livesIn_unlabel _) (htail.livesIn_unlabel _) fun _ _ => rfl
  have hboth := equal_iff_print_eq (hreadable (some 7)) (hreadable (some 8)) (hzero _) (hzero _)
  refine ⟨fun cell => ⟨hreadable cell, hzero cell⟩, rfl, rfl, ?_⟩
  exact (hboth.2 _ (hlives 7) (hlives 8)).mpr rfl

end LispCore.Value
