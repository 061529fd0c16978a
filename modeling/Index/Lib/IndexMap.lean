import Mathlib.Data.List.Nodup
import Mathlib.Data.List.Lookmap

/-! # Maps in insertion order

An `IndexMap` is the list of its entries, the oldest first.  A value inserted under a known key takes the old one's
place and a removal closes the gap, so the keys stay distinct. -/

namespace Index.Lib.IndexMap

open List

variable {κ ν : Type*} [DecidableEq κ]

/-- `IndexMap::get` -/
def get : List (κ × ν) → κ → Option ν
  | [], _ => none
  | (key, value) :: rest, wanted => if key = wanted then some value else get rest wanted

/-- `IndexMap::insert` -/
def insert : List (κ × ν) → κ → ν → List (κ × ν)
  | [], key, value => [(key, value)]
  | (old, kept) :: rest, key, value =>
    if old = key then (key, value) :: rest else (old, kept) :: insert rest key value

/-- `IndexMap::shift_remove`, for a key that is there. -/
def erase : List (κ × ν) → κ → List (κ × ν)
  | [], _ => []
  | (key, value) :: rest, removed => if key = removed then rest else (key, value) :: erase rest removed

/-- `IndexMap::shift_remove` -/
def shiftRemove (map : List (κ × ν)) (key : κ) : Option (List (κ × ν)) := (get map key).map fun _ => erase map key

def Distinct (map : List (κ × ν)) : Prop := (map.map Prod.fst).Nodup

instance (map : List (κ × ν)) : Decidable (Distinct map) := inferInstanceAs (Decidable (List.Nodup _))

variable {map : List (κ × ν)} {key other : κ} {value : ν}

omit [DecidableEq κ] in
theorem distinct_cons {entry : κ × ν} :
    Distinct (entry :: map) ↔ entry.1 ∉ map.map Prod.fst ∧ Distinct map := by
  rw [Distinct, map_cons, nodup_cons, Distinct]

theorem get_eq_none : get map key = none ↔ key ∉ map.map Prod.fst := by
  induction map with
  | nil => simp [get]
  | cons entry map ih =>
    by_cases here : entry.1 = key
    · simp [get, here]
    · simp [get, here, ih, Ne.symm here]

theorem mem_of_get (found : get map key = some value) : (key, value) ∈ map := by
  induction map with
  | nil => simp [get] at found
  | cons entry map ih =>
    rw [get] at found
    split_ifs at found with here
    · simp [← here, ← Option.some.inj found]
    · exact mem_cons_of_mem _ (ih found)

theorem get_of_mem (distinct : Distinct map) (member : (key, value) ∈ map) : get map key = some value := by
  induction map with
  | nil => simp at member
  | cons entry map ih =>
    rw [distinct_cons] at distinct
    rcases mem_cons.mp member with rfl | later
    · simp [get]
    · have differ : entry.1 ≠ key := by
        rintro rfl
        exact distinct.1 (mem_map.mpr ⟨_, later, rfl⟩)
      rw [get, if_neg differ]
      exact ih distinct.2 later

theorem get_insert : get (insert map key value) other = if key = other then some value else get map other := by
  induction map with
  | nil => rfl
  | cons entry map ih =>
    rw [insert]
    split_ifs with here same same
    · simp [get, same]
    · simp [get, here, same]
    · rw [get, if_neg (same ▸ here), ih, if_pos same]
    · rw [get, get, ih, if_neg same]

theorem keys_insert (known : key ∈ map.map Prod.fst) : (insert map key value).map Prod.fst = map.map Prod.fst := by
  induction map with
  | nil => simp at known
  | cons entry map ih =>
    rw [insert]
    split_ifs with here
    · simp [here]
    · have later : key ∈ map.map Prod.fst := by simpa [Ne.symm here] using known
      simp [ih later]

theorem insert_of_get (fresh : get map key = none) : insert map key value = map ++ [(key, value)] := by
  induction map with
  | nil => rfl
  | cons entry map ih =>
    rw [get] at fresh
    split_ifs at fresh with here
    rw [insert, if_neg here, ih fresh]
    rfl

theorem distinct_insert (distinct : Distinct map) : Distinct (insert map key value) := by
  by_cases known : key ∈ map.map Prod.fst
  · rw [Distinct, keys_insert known]
    exact distinct
  · rw [insert_of_get (get_eq_none.mpr known), Distinct, map_append, nodup_append']
    exact ⟨distinct, by simp, by simpa using known⟩

theorem mem_insert {entry : κ × ν} (member : entry ∈ insert map key value) : entry ∈ map ∨ entry = (key, value) := by
  induction map with
  | nil => exact Or.inr (by simpa [insert] using member)
  | cons first map ih =>
    rw [insert] at member
    split_ifs at member with here
    · rcases mem_cons.mp member with same | later
      · exact Or.inr same
      · exact Or.inl (mem_cons_of_mem _ later)
    · rcases mem_cons.mp member with rfl | later
      · exact Or.inl mem_cons_self
      · exact (ih later).imp_left (mem_cons_of_mem _)

theorem erase_sublist : (erase map key).Sublist map := by
  induction map with
  | nil => exact .slnil
  | cons entry map ih =>
    rw [erase]
    split_ifs with here
    · exact sublist_cons_self _ _
    · exact ih.cons_cons _

theorem distinct_erase (distinct : Distinct map) : Distinct (erase map key) :=
  distinct.sublist (erase_sublist.map Prod.fst)

theorem get_erase (distinct : Distinct map) : get (erase map key) other = if key = other then none else get map other := by
  induction map with
  | nil => simp [erase, get]
  | cons entry map ih =>
    rw [distinct_cons] at distinct
    rw [erase]
    split_ifs with here same same
    · rw [get_eq_none, ← same, ← here]
      exact distinct.1
    · rw [get, if_neg (here ▸ same)]
    · rw [get, if_neg (same ▸ here), ih distinct.2, if_pos same]
    · rw [get, get, ih distinct.2, if_neg same]

/-- Maps with the same keys have the same length. -/
theorem length_eq_of_get {left right : List (κ × ν)} (leftDistinct : Distinct left) (rightDistinct : Distinct right)
    (agree : ∀ key, (get left key).isSome = (get right key).isSome) : left.length = right.length := by
  have keys : (left.map Prod.fst).Perm (right.map Prod.fst) := by
    rw [perm_ext_iff_of_nodup leftDistinct rightDistinct]
    intro key
    rw [← not_iff_not, ← get_eq_none, ← get_eq_none, ← Option.not_isSome_iff_eq_none, ← Option.not_isSome_iff_eq_none,
      agree key]
  simpa using keys.length_eq

end Index.Lib.IndexMap
