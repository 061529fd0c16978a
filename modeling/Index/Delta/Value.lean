import Mathlib
import Index.Lib.IndexMap
import Index.Lib.Outline

/-! # Documents

A file of any structured format is lifted to a `serde_json` value, whose objects keep their keys in the order of the
text.  Equality of values disregards that order, and it is equality of outlines: of the heads that the paths through
the two values lead to. -/

namespace Index.Delta

open Index.Lib List

/-! ## Numbers -/

/-- `serde_json::Number`: the smallest fitting integer, or the bits of a finite `f64`. -/
inductive Number where
  | posInt (value : UInt64)
  | negInt (value : Int64)
  | float (bits : UInt64) (finite : (bits >>> 52) &&& 0x7ff ≠ 0x7ff)
deriving DecidableEq

def Number.positiveZero : UInt64 := 0
def Number.negativeZero : UInt64 := 0x8000000000000000

/-- `Number::eq`: floats are compared as numbers, which makes the two zeros equal. -/
def Number.eq : Number → Number → Bool
  | posInt left, posInt right => left = right
  | negInt left, negInt right => left = right
  | float left _, float right _ =>
    left = right ∨ (left = positiveZero ∨ left = negativeZero) ∧ (right = positiveZero ∨ right = negativeZero)
  | _, _ => false

/-- One number for every class of equal ones. -/
def Number.normal : Number → Number
  | float bits finite => if bits = negativeZero then float positiveZero (by decide) else float bits finite
  | number => number

theorem Number.eq_iff {left right : Number} : left.eq right = true ↔ left.normal = right.normal := by
  cases left with
  | posInt left | negInt left => cases right <;> simp [eq, normal] ; split_ifs <;> simp
  | float left leftFinite =>
    cases right with
    | posInt right | negInt right => simp [eq, normal]; split_ifs <;> simp
    | float right rightFinite =>
      simp only [eq, normal, decide_eq_true_eq]
      split_ifs with leftNegative rightNegative rightNegative
      · simp [leftNegative, rightNegative]
      · simp only [leftNegative, float.injEq]
        grind
      · simp only [rightNegative, float.injEq]
        grind
      · simp only [float.injEq]
        grind

/-! ## Values -/

/-- `serde_json::Value` with the feature `preserve_order`. -/
inductive Value where
  | null
  | bool (flag : Bool)
  | number (number : Number)
  | string (text : String)
  | array (items : List Value)
  | object (map : List (String × Value))

mutual

/-- `Value::eq`: an object equals one with as many entries that holds all of its own. -/
def Value.eq : Value → Value → Bool
  | .null, .null => true
  | .bool left, .bool right => left = right
  | .number left, .number right => left.eq right
  | .string left, .string right => left = right
  | .array left, .array right => Value.itemsEq left right
  | .object left, .object right => left.length = right.length && Value.entriesIn right left
  | _, _ => false

def Value.itemsEq : List Value → List Value → Bool
  | [], [] => true
  | left :: lefts, right :: rights => left.eq right && Value.itemsEq lefts rights
  | _, _ => false

/-- Every entry of a list has its equal in a map. -/
def Value.entriesIn (map : List (String × Value)) : List (String × Value) → Bool
  | [] => true
  | (key, value) :: rest =>
    (match IndexMap.get map key with
    | some other => value.eq other
    | none => false) && Value.entriesIn map rest

end

mutual

/-- What holds of every value in memory: the positions in an array fit `usize` and the keys of an object are distinct. -/
def Value.wellFormed : Value → Bool
  | .array items => items.length ≤ 2 ^ 64 && Value.itemsWellFormed items
  | .object map => IndexMap.Distinct map && Value.entriesWellFormed map
  | _ => true

def Value.itemsWellFormed : List Value → Bool
  | [] => true
  | item :: items => item.wellFormed && Value.itemsWellFormed items

def Value.entriesWellFormed : List (String × Value) → Bool
  | [] => true
  | (_, item) :: rest => item.wellFormed && Value.entriesWellFormed rest

end

/-- A value that a parser can have built. -/
structure Document where
  value : Value
  wellFormed : value.wellFormed = true

namespace Value

variable {items : List Value}

theorem itemsWellFormed_iff : itemsWellFormed items = true ↔ ∀ item ∈ items, item.wellFormed = true := by
  induction items with
  | nil => simp [itemsWellFormed]
  | cons item items ih => simp [itemsWellFormed, ih]

variable {map : List (String × Value)}

theorem entriesWellFormed_iff : entriesWellFormed map = true ↔ ∀ entry ∈ map, entry.2.wellFormed = true := by
  induction map with
  | nil => simp [entriesWellFormed]
  | cons entry map ih => simp [entriesWellFormed, ih]

theorem wellFormed_array : (array items).wellFormed = true ↔ items.length ≤ 2 ^ 64 ∧ ∀ item ∈ items, item.wellFormed = true := by
  simp [wellFormed, itemsWellFormed_iff]

theorem wellFormed_object :
    (object map).wellFormed = true ↔ IndexMap.Distinct map ∧ ∀ entry ∈ map, entry.2.wellFormed = true := by
  simp [wellFormed, entriesWellFormed_iff]

end Value

section Induction

variable {motive : Value → Prop} (null : motive .null) (bool : ∀ flag, motive (.bool flag))
  (number : ∀ number, motive (.number number)) (string : ∀ text, motive (.string text))
  (array : ∀ items, (∀ item ∈ items, motive item) → motive (.array items))
  (object : ∀ map, (∀ entry ∈ map, motive entry.2) → motive (.object map))

include null bool number string array object

mutual

/-- Induction over values, with the hypothesis for every item and every entry. -/
@[elab_as_elim]
theorem Value.inductionOn : ∀ value : Value, motive value
  | .null => null
  | .bool flag => bool flag
  | .number value => number value
  | .string text => string text
  | .array items => array items (Value.items_inductionOn items)
  | .object map => object map (Value.entries_inductionOn map)

theorem Value.items_inductionOn : ∀ items : List Value, ∀ item ∈ items, motive item
  | [] => by simp
  | item :: items => forall_mem_cons.mpr ⟨Value.inductionOn item, Value.items_inductionOn items⟩

theorem Value.entries_inductionOn : ∀ entries : List (String × Value), ∀ entry ∈ entries, motive entry.2
  | [] => by simp
  | (_, value) :: entries => forall_mem_cons.mpr ⟨Value.inductionOn value, Value.entries_inductionOn entries⟩

end

end Induction

/-! ## Outlines -/

/-- One step down from a container. -/
inductive Step where
  | key (key : String)
  | index (index : Nat)
deriving DecidableEq

/-- What a value is apart from its children. -/
inductive Head where
  | null
  | bool (flag : Bool)
  | number (number : Number)
  | string (text : String)
  | array (length : Nat)
  | object
deriving DecidableEq

namespace Value

def head : Value → Head
  | null => .null
  | bool flag => .bool flag
  | number value => .number value.normal
  | string text => .string text
  | array items => .array items.length
  | object _ => .object

def child : Value → Step → Option Value
  | object map, .key key => IndexMap.get map key
  | array items, .index index => items[index]?
  | _, _ => none

/-- The value that a path leads to. -/
def at? (value : Value) : List Step → Option Value
  | [] => some value
  | step :: path => (value.child step).bind fun child => child.at? path

def outline (value : Value) : Outline Step Head := fun path => (value.at? path).map head

/-- The outline of a place that may be empty. -/
def outlineOf : Option Value → Outline Step Head
  | none => Outline.absent
  | some value => value.outline

variable {value left right : Value} {step : Step} {path : List Step}

@[simp] theorem at?_nil : value.at? [] = some value := rfl

theorem at?_cons : value.at? (step :: path) = (value.child step).bind fun child => child.at? path := rfl

theorem at?_append {rest : List Step} : value.at? (path ++ rest) = (value.at? path).bind fun child => child.at? rest := by
  induction path generalizing value with
  | nil => rfl
  | cons step path ih =>
    rw [cons_append, at?_cons, at?_cons]
    cases value.child step with
    | none => rfl
    | some child => exact ih

@[simp] theorem outline_nil : value.outline [] = some value.head := rfl

theorem outline_cons : value.outline (step :: path) = outlineOf (value.child step) path := by
  rw [outline, at?_cons]
  cases value.child step <;> rfl

theorem below_outline : value.outline.below path = outlineOf (value.at? path) := by
  funext rest
  rw [Outline.below, outline, at?_append]
  cases value.at? path <;> rfl

theorem outlineOf_inj_none {place : Option Value} : outlineOf place = Outline.absent ↔ place = none := by
  cases place with
  | none => simp [outlineOf]
  | some value =>
    simp only [outlineOf, reduceCtorEq, iff_false]
    intro same
    simpa [Outline.absent] using congrFun same []

theorem outline_eq_iff :
    left.outline = right.outline ↔
      left.head = right.head ∧ ∀ step, outlineOf (left.child step) = outlineOf (right.child step) := by
  constructor
  · intro same
    refine ⟨by simpa using congrFun same [], fun step => funext fun path => ?_⟩
    rw [← outline_cons, ← outline_cons, same]
  · rintro ⟨heads, children⟩
    funext path
    cases path with
    | nil => rw [outline_nil, outline_nil, heads]
    | cons step path => rw [outline_cons, outline_cons, children step]

theorem outline_array_eq_iff {lefts rights : List Value} :
    (array lefts).outline = (array rights).outline ↔ ∀ index : Nat, outlineOf lefts[index]? = outlineOf rights[index]? := by
  rw [outline_eq_iff]
  constructor
  · rintro ⟨-, children⟩ index
    exact children (.index index)
  · intro children
    refine ⟨congrArg Head.array ?_, fun step => ?_⟩
    · have absent : ∀ index, lefts[index]? = none ↔ rights[index]? = none := fun index => by
        rw [← outlineOf_inj_none, ← outlineOf_inj_none, children index]
      simp only [getElem?_eq_none_iff] at absent
      have rightLong := (absent lefts.length).mp le_rfl
      have leftLong := (absent rights.length).mpr le_rfl
      omega
    · cases step with
      | key key => rfl
      | index index => exact children index

theorem outline_object_eq_iff {lefts rights : List (String × Value)} :
    (object lefts).outline = (object rights).outline ↔
      ∀ key, outlineOf (IndexMap.get lefts key) = outlineOf (IndexMap.get rights key) := by
  rw [outline_eq_iff]
  constructor
  · rintro ⟨-, children⟩ key
    exact children (.key key)
  · intro children
    refine ⟨rfl, fun step => ?_⟩
    cases step with
    | key key => exact children key
    | index index => rfl

/-- An object that holds as many keys as another and all of its keys holds no others. -/
theorem object_agrees_iff {lefts rights : List (String × Value)} (leftDistinct : IndexMap.Distinct lefts)
    (rightDistinct : IndexMap.Distinct rights) :
    (lefts.length = rights.length ∧
        ∀ entry ∈ lefts, outlineOf (some entry.2) = outlineOf (IndexMap.get rights entry.1)) ↔
      ∀ key, outlineOf (IndexMap.get lefts key) = outlineOf (IndexMap.get rights key) := by
  constructor
  · rintro ⟨lengths, held⟩ key
    have subset : lefts.map Prod.fst ⊆ rights.map Prod.fst := by
      intro key member
      obtain ⟨entry, listed, rfl⟩ := mem_map.mp member
      by_contra missing
      have same := held entry listed
      rw [IndexMap.get_eq_none.mpr missing] at same
      cases outlineOf_inj_none.mp same
    have keys : (lefts.map Prod.fst).Perm (rights.map Prod.fst) :=
      (subperm_of_subset leftDistinct subset).perm_of_length_le (by simp [lengths])
    cases found : IndexMap.get lefts key with
    | none =>
      have missing : key ∉ rights.map Prod.fst := fun member => IndexMap.get_eq_none.mp found (keys.mem_iff.mpr member)
      rw [IndexMap.get_eq_none.mpr missing]
    | some value => exact held (key, value) (IndexMap.mem_of_get found)
  · intro children
    refine ⟨IndexMap.length_eq_of_get leftDistinct rightDistinct fun key => ?_, fun entry listed => ?_⟩
    · have absent : IndexMap.get lefts key = none ↔ IndexMap.get rights key = none := by
        rw [← outlineOf_inj_none, ← outlineOf_inj_none, children key]
      cases leftFound : IndexMap.get lefts key <;> cases rightFound : IndexMap.get rights key <;> simp_all
    · rw [← children entry.1, IndexMap.get_of_mem leftDistinct listed]

theorem entriesIn_iff {map entries : List (String × Value)}
    (each : ∀ entry ∈ entries, ∀ other, IndexMap.get map entry.1 = some other →
      (entry.2.eq other = true ↔ entry.2.outline = other.outline)) :
    entriesIn map entries = true ↔ ∀ entry ∈ entries, outlineOf (some entry.2) = outlineOf (IndexMap.get map entry.1) := by
  induction entries with
  | nil => simp [entriesIn]
  | cons entry entries ih =>
    obtain ⟨here, later⟩ := forall_mem_cons.mp each
    rw [entriesIn, Bool.and_eq_true, ih later, forall_mem_cons]
    refine and_congr_left fun _ => ?_
    cases found : IndexMap.get map entry.1 with
    | none => simp [outlineOf_inj_none, show outlineOf none = Outline.absent from rfl]
    | some other => simpa [outlineOf] using here other found

theorem itemsEq_iff {lefts rights : List Value}
    (each : ∀ left ∈ lefts, ∀ right ∈ rights, (left.eq right = true ↔ left.outline = right.outline)) :
    itemsEq lefts rights = true ↔ ∀ index : Nat, outlineOf lefts[index]? = outlineOf rights[index]? := by
  induction lefts generalizing rights with
  | nil =>
    cases rights with
    | nil => simp [itemsEq]
    | cons right rights =>
      simp only [itemsEq, Bool.false_eq_true, false_iff, not_forall]
      exact ⟨0, fun same => by cases outlineOf_inj_none.mp same.symm⟩
  | cons left lefts ih =>
    cases rights with
    | nil =>
      simp only [itemsEq, Bool.false_eq_true, false_iff, not_forall]
      exact ⟨0, fun same => by cases outlineOf_inj_none.mp same⟩
    | cons right rights =>
      rw [itemsEq, Bool.and_eq_true, each left mem_cons_self right mem_cons_self,
        ih fun left leftMember right rightMember =>
          each left (mem_cons_of_mem _ leftMember) right (mem_cons_of_mem _ rightMember)]
      constructor
      · rintro ⟨first, rest⟩ index
        cases index with
        | zero => exact first
        | succ index => exact rest index
      · exact fun all => ⟨all 0, fun index => all (index + 1)⟩

/-- Equality of values is equality of outlines. -/
theorem eq_iff_outline {left right : Value} (leftFormed : left.wellFormed = true) (rightFormed : right.wellFormed = true) :
    left.eq right = true ↔ left.outline = right.outline := by
  induction left using Value.inductionOn generalizing right with
  | null | bool | string => cases right <;> simp [eq, outline_eq_iff, head, child]
  | number => cases right <;> simp [eq, Number.eq_iff, outline_eq_iff, head, child]
  | array lefts ih =>
    cases right with
    | array rights =>
      rw [eq, outline_array_eq_iff]
      exact itemsEq_iff fun left leftMember right rightMember => ih left leftMember
        ((wellFormed_array.mp leftFormed).2 left leftMember) ((wellFormed_array.mp rightFormed).2 right rightMember)
    | _ => simp [eq, outline_eq_iff, head]
  | object lefts ih =>
    cases right with
    | object rights =>
      obtain ⟨leftDistinct, leftEach⟩ := wellFormed_object.mp leftFormed
      obtain ⟨rightDistinct, rightEach⟩ := wellFormed_object.mp rightFormed
      rw [eq, Bool.and_eq_true, decide_eq_true_eq, outline_object_eq_iff, ← object_agrees_iff leftDistinct rightDistinct]
      exact and_congr_right fun _ => entriesIn_iff fun entry member other found =>
        ih entry member (leftEach entry member) (rightEach _ (IndexMap.mem_of_get found))
    | _ => simp [eq, outline_eq_iff, head]

end Value

end Index.Delta
