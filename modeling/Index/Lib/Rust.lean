import Mathlib.Data.String.Basic
import Mathlib.Data.List.Nodup
import Mathlib.Data.List.Induction

/-! # Rust outcomes and ordered maps

A Rust function returns, returns an error or panics; `Fault` is what is left when it does not return
a value.  `BTreeMap` and `BTreeSet` are the extensional ordered containers of the standard library,
here with the two iterator idioms the modelled programs use: reading the values in key order and
collecting a fallible map over the entries. -/

namespace Index.Lib

open List

/-- How a call that returns no value ends. -/
inductive Fault (ε : Type*) where
  | raised : ε → Fault ε
  | panicked : Fault ε
deriving DecidableEq

/-- A function that cannot panic, called by one that can. -/
def fallible {α ε : Type*} : Except ε α → Except (Fault ε) α
  | .ok value => .ok value
  | .error e => .error (.raised e)

/-- An index or a map lookup that panics when nothing is there. -/
def orPanic {α ε : Type*} : Option α → Except (Fault ε) α
  | some value => .ok value
  | none => .error .panicked

/-- `a - b` on unsigned integers, which overflows when the result would be negative. -/
def checkedSub (a b : Nat) : Option Nat := if b ≤ a then some (a - b) else none

theorem checkedSub_of_le {a b : Nat} (le : b ≤ a) : checkedSub a b = some (a - b) := if_pos le

/-- `&items[start..stop]`, which panics outside the slice. -/
def subslice {α : Type*} (items : List α) (start stop : Nat) : Option (List α) :=
  if start ≤ stop ∧ stop ≤ items.length then some ((items.drop start).take (stop - start)) else none

variable {α : Type*} {items : List α}

theorem subslice_eq {start stop : Nat} (ordered : start ≤ stop) (inside : stop ≤ items.length) :
    subslice items start stop = some ((items.drop start).take (stop - start)) := if_pos ⟨ordered, inside⟩

/-- A loop that stops at the first error. -/
def tryForEach {α ε : Type*} (f : α → Except ε Unit) : List α → Except ε Unit
  | [] => .ok ()
  | item :: items =>
    match f item with
    | .error e => .error e
    | .ok () => tryForEach f items

/-- `iter().map(f).collect::<Result<Vec<_>, _>>()`: the first error wins. -/
def tryCollect {α β ε : Type*} (f : α → Except ε β) : List α → Except ε (List β)
  | [] => .ok []
  | item :: items =>
    match f item with
    | .error e => .error e
    | .ok image =>
      match tryCollect f items with
      | .error e => .error e
      | .ok images => .ok (image :: images)

/-- `Vec::dedup`: of equal neighbours the last is kept. -/
def dedupAdjacent {α : Type*} [DecidableEq α] : List α → List α
  | first :: second :: rest =>
    if first = second then dedupAdjacent (second :: rest) else first :: dedupAdjacent (second :: rest)
  | items => items

theorem mem_dedupAdjacent [DecidableEq α] {item : α} : item ∈ dedupAdjacent items ↔ item ∈ items := by
  fun_induction dedupAdjacent items with
  | case1 second rest ih => simp [ih]
  | case2 first second rest differ ih => simp [ih]
  | case3 items short => rfl

section Collecting

variable {α β ε : Type*} {f : α → Except ε β} {items : List α}

theorem tryForEach_eq_ok {f : α → Except ε Unit} : tryForEach f items = .ok () ↔ ∀ item ∈ items, f item = .ok () := by
  induction items with
  | nil => simp [tryForEach]
  | cons item items ih =>
    simp only [tryForEach, forall_mem_cons, ← ih]
    cases f item <;> simp

theorem map_eq_ok {run : Except ε α} {change : α → β} {value : β} :
    run.map change = .ok value ↔ ∃ first, run = .ok first ∧ change first = value := by
  cases run <;> simp [Except.map]

variable {images : List β}

theorem tryCollect_eq_ok :
    tryCollect f items = .ok images ↔ List.Forall₂ (fun item image => f item = .ok image) items images := by
  induction items generalizing images with
  | nil => simp [tryCollect, eq_comm]
  | cons item items ih =>
    simp only [tryCollect, List.forall₂_cons_left_iff, ← ih]
    cases f item with
    | error e => simp
    | ok image => cases tryCollect f items <;> simp [eq_comm]

theorem tryCollect_eq_error {e : ε} (failed : tryCollect f items = .error e) : ∃ item ∈ items, f item = .error e := by
  induction items with
  | nil => simp [tryCollect] at failed
  | cons item items ih =>
    simp only [tryCollect] at failed
    cases head : f item with
    | error e' =>
      simp only [head, Except.error.injEq] at failed
      exact ⟨item, mem_cons_self, by rw [head, failed]⟩
    | ok image =>
      cases tail : tryCollect f items with
      | error e' =>
        simp only [head, tail, Except.error.injEq] at failed
        obtain ⟨other, member, raised⟩ := ih (by rw [tail, failed])
        exact ⟨other, mem_cons_of_mem _ member, raised⟩
      | ok rest => simp [head, tail] at failed

theorem tryCollect_congr {g : α → Except ε β} (agree : ∀ item ∈ items, f item = g item) :
    tryCollect f items = tryCollect g items := by
  induction items with
  | nil => rfl
  | cons item items ih =>
    obtain ⟨head, tail⟩ := forall_mem_cons.mp agree
    simp only [tryCollect, ih tail, head]

theorem findSome?_congr {find other : α → Option β} (agree : ∀ item ∈ items, find item = other item) :
    items.findSome? find = items.findSome? other := by
  induction items with
  | nil => rfl
  | cons item items ih =>
    obtain ⟨head, tail⟩ := forall_mem_cons.mp agree
    rw [findSome?_cons, findSome?_cons, head, ih tail]

variable {related : α → β → Prop} {item : α}

theorem exists_image_of_mem (pointwise : List.Forall₂ related items images) (member : item ∈ items) :
    ∃ image ∈ images, related item image := by
  induction pointwise with
  | nil => cases member
  | cons head _ ih =>
    rcases mem_cons.mp member with rfl | member
    · exact ⟨_, mem_cons_self, head⟩
    · obtain ⟨image, imageMember, holds⟩ := ih member
      exact ⟨image, mem_cons_of_mem _ imageMember, holds⟩

theorem exists_mapM {find : α → Option β} (each : ∀ item ∈ items, ∃ image, find item = some image ∧ related item image) :
    ∃ images, items.mapM find = some images ∧ List.Forall₂ related items images := by
  induction items with
  | nil => exact ⟨[], rfl, .nil⟩
  | cons item items ih =>
    obtain ⟨head, tail⟩ := forall_mem_cons.mp each
    obtain ⟨image, found, holds⟩ := head
    obtain ⟨images, collected, pointwise⟩ := ih tail
    exact ⟨image :: images, by simp [found, collected], .cons holds pointwise⟩

variable {σ : Type*} {step : σ → α → Option σ}

theorem exists_foldlM (each : ∀ item ∈ items, ∀ state, ∃ next, step state item = some next) (start : σ) :
    ∃ final, items.foldlM step start = some final := by
  induction items generalizing start with
  | nil => exact ⟨start, rfl⟩
  | cons item items ih =>
    obtain ⟨here, later⟩ := forall_mem_cons.mp each
    obtain ⟨next, stepped⟩ := here start
    obtain ⟨final, folded⟩ := ih later next
    exact ⟨final, by rw [foldlM_cons, stepped]; exact folded⟩

/-- A loop that pushes one output for each item relates the items to their outputs. -/
theorem foldlM_pushes (outputs : σ → List β)
    (pushes : ∀ item ∈ items, ∀ state next, step state item = some next →
      ∃ output, outputs next = outputs state ++ [output] ∧ related item output) {start final : σ}
    (ran : items.foldlM step start = some final) :
    ∃ pushed, outputs final = outputs start ++ pushed ∧ List.Forall₂ related items pushed := by
  induction items generalizing start with
  | nil =>
    obtain rfl : start = final := by simpa using ran
    exact ⟨[], by simp, .nil⟩
  | cons item items ih =>
    obtain ⟨here, later⟩ := forall_mem_cons.mp pushes
    obtain ⟨next, stepped, rest⟩ := Option.bind_eq_some_iff.mp ran
    obtain ⟨output, first, holds⟩ := here start next stepped
    obtain ⟨pushed, appended, pointwise⟩ := ih later rest
    exact ⟨output :: pushed, by simp [appended, first], .cons holds pointwise⟩

/-- `enumerate().find(..)` -/
theorem find?_zipIdx_append {before after : List α} {test : α × Nat → Bool} (here : test (item, before.length) = true)
    (none : ∀ index other, before[index]? = some other → test (other, index) = false) :
    (before ++ item :: after).zipIdx.find? test = some (item, before.length) := by
  have skipped : before.zipIdx.find? test = Option.none := by
    rw [find?_eq_none]
    rintro ⟨other, index⟩ member
    simp [none index other (mem_zipIdx_iff_getElem?.mp member)]
  simp [zipIdx_append, find?_append, skipped, here]

/-- `collect()` into a map: of pairs with one key the last counts. -/
def collectMap {κ ν : Type*} [DecidableEq κ] (pairs : List (κ × ν)) : κ → Option ν :=
  pairs.foldl (fun map pair => Function.update map pair.1 (some pair.2)) fun _ => none

section CollectMap

variable {κ ν : Type*} [DecidableEq κ] {pairs : List (κ × ν)} {key : κ} {value : ν}

theorem collectMap_concat (last : κ × ν) :
    collectMap (pairs ++ [last]) = Function.update (collectMap pairs) last.1 (some last.2) := by
  simp [collectMap]

theorem mem_of_collectMap (found : collectMap pairs key = some value) : (key, value) ∈ pairs := by
  induction pairs using List.reverseRecOn with
  | nil => simp [collectMap] at found
  | append_singleton pairs last ih =>
    rw [collectMap_concat, Function.update_apply] at found
    split_ifs at found with same
    · simp [same, ← Option.some.inj found]
    · exact mem_append_left _ (ih found)

theorem exists_collectMap (member : (key, value) ∈ pairs) : ∃ last, collectMap pairs key = some last := by
  induction pairs using List.reverseRecOn with
  | nil => simp at member
  | append_singleton pairs last ih =>
    rw [collectMap_concat, Function.update_apply]
    split_ifs with same
    · exact ⟨last.2, rfl⟩
    · refine ih ((mem_append.mp member).resolve_right fun isLast => same ?_)
      rw [← mem_singleton.mp isLast]

end CollectMap

end Collecting

abbrev BTreeMap (κ ν : Type*) [Ord κ] := Std.ExtTreeMap κ ν

abbrev BTreeSet (κ : Type*) [Ord κ] := Std.ExtTreeSet κ

namespace BTreeMap

variable {κ ν μ ε : Type*} [DecidableEq κ] [Ord κ] [Std.TransOrd κ] [Std.LawfulEqOrd κ]

/-- `BTreeMap::values`: the values in key order. -/
def values (entries : BTreeMap κ ν) : List ν := entries.toList.map Prod.snd

variable {entries : BTreeMap κ ν}

omit [DecidableEq κ] in
theorem mem_iff {key : κ} : key ∈ entries ↔ ∃ value, entries[key]? = some value := by
  rw [Std.ExtTreeMap.mem_iff_isSome_getElem?, Option.isSome_iff_exists]

omit [DecidableEq κ] in
theorem mem_values {value : ν} : value ∈ entries.values ↔ ∃ key : κ, entries[key]? = some value := by
  simp [values, Std.ExtTreeMap.mem_toList_iff_getElem?_eq_some]

theorem getElem?_insert (entries : BTreeMap κ ν) (key other : κ) (value : ν) :
    (entries.insert key value)[other]? = if key = other then some value else entries[other]? := by
  simp [Std.ExtTreeMap.getElem?_insert]

omit [DecidableEq κ] in
theorem keys_nodup (entries : BTreeMap κ ν) : (entries.toList.map Prod.fst).Nodup := by
  rw [List.Nodup, pairwise_map]
  exact entries.distinct_keys_toList.imp (fun differ => by simpa using differ)

/-- `iter().map(..).collect::<Result<BTreeMap<_, _>, _>>()` over the entries in key order. -/
def tryMap (f : κ → ν → Except ε μ) (entries : BTreeMap κ ν) : Except ε (BTreeMap κ μ) :=
  match tryCollect (fun entry => (f entry.1 entry.2).map (Prod.mk entry.1)) entries.toList with
  | .error e => .error e
  | .ok images => .ok (Std.ExtTreeMap.ofList images)

variable {f : κ → ν → Except ε μ}

omit [DecidableEq κ] in
theorem tryMap_error {e : ε} (failed : tryMap f entries = .error e) :
    ∃ key value, entries[key]? = some value ∧ f key value = .error e := by
  unfold tryMap at failed
  split at failed
  next e' raised =>
    cases failed
    obtain ⟨⟨key, value⟩, member, raised⟩ := tryCollect_eq_error raised
    refine ⟨key, value, Std.ExtTreeMap.mem_toList_iff_getElem?_eq_some.mp member, ?_⟩
    cases mapped : f key value with
    | error e' => simpa [mapped, Except.map] using raised
    | ok image => simp [mapped, Except.map] at raised
  next => cases failed

theorem getElem?_ofList_iff {list : List (κ × μ)} (unique : (list.map Prod.fst).Nodup) {key : κ} {value : μ} :
    (Std.ExtTreeMap.ofList list : BTreeMap κ μ)[key]? = some value ↔ (key, value) ∈ list := by
  have distinct : list.Pairwise (fun a b => ¬ compare a.1 b.1 = .eq) := by
    rw [List.Nodup, pairwise_map] at unique
    exact unique.imp (fun differ => by simpa using differ)
  have found : ∀ {image}, (key, image) ∈ list → (Std.ExtTreeMap.ofList list : BTreeMap κ μ)[key]? = some image :=
    fun member => Std.ExtTreeMap.getElem?_ofList_of_mem Std.compare_self distinct member
  refine ⟨fun present => ?_, found⟩
  have known : key ∈ (Std.ExtTreeMap.ofList list : BTreeMap κ μ) := mem_iff.mpr ⟨_, present⟩
  simp only [Std.ExtTreeMap.mem_ofList, contains_eq_mem, mem_map, decide_eq_true_eq] at known
  obtain ⟨⟨_, image⟩, member, rfl⟩ := known
  rw [found member, Option.some.injEq] at present
  exact present ▸ member

omit [DecidableEq κ] [Ord κ] [Std.TransOrd κ] [Std.LawfulEqOrd κ] in
theorem imageOf_ok {entry : κ × ν} {image : κ × μ} (built : (f entry.1 entry.2).map (Prod.mk entry.1) = .ok image) :
    entry.1 = image.1 ∧ f entry.1 entry.2 = .ok image.2 := by
  obtain ⟨value, mapped, rfl⟩ := map_eq_ok.mp built
  exact ⟨rfl, mapped⟩

/-- A successful collection maps every entry and adds no key. -/
theorem tryMap_ok {images : BTreeMap κ μ} (collected : tryMap f entries = .ok images) (key : κ) :
    Option.Rel (fun value image => f key value = .ok image) entries[key]? images[key]? := by
  unfold tryMap at collected
  split at collected
  next => cases collected
  next list mapped =>
    cases collected
    have related := (tryCollect_eq_ok.mp mapped).imp (fun entry image built => imageOf_ok built)
    have keys : entries.toList.map Prod.fst = list.map Prod.fst := by
      refine List.forall₂_eq_eq_eq ▸ (List.forall₂_map_left_iff.mpr (List.forall₂_map_right_iff.mpr ?_))
      exact related.imp fun _ _ both => both.1
    have unique := keys ▸ keys_nodup entries
    cases present : entries[key]? with
    | none =>
      cases added : (Std.ExtTreeMap.ofList list : BTreeMap κ μ)[key]? with
      | none => exact .none
      | some image =>
        have known : key ∈ entries.toList.map Prod.fst := by
          rw [keys]
          exact mem_map_of_mem ((getElem?_ofList_iff unique).mp added)
        obtain ⟨⟨_, value⟩, member, rfl⟩ := mem_map.mp known
        rw [Std.ExtTreeMap.mem_toList_iff_getElem?_eq_some.mp member] at present
        cases present
    | some value =>
      have member := Std.ExtTreeMap.mem_toList_iff_getElem?_eq_some.mpr present
      obtain ⟨⟨_, image⟩, imageMember, rfl, mapsTo⟩ := exists_image_of_mem related member
      rw [(getElem?_ofList_iff unique).mpr imageMember]
      exact .some mapsTo

omit [DecidableEq κ] in
theorem tryMap_congr {g : κ → ν → Except ε μ} (agree : ∀ key value, entries[key]? = some value → f key value = g key value) :
    tryMap f entries = tryMap g entries := by
  unfold tryMap
  rw [tryCollect_congr fun entry member => ?_]
  rw [agree _ _ (Std.ExtTreeMap.mem_toList_iff_getElem?_eq_some.mp member)]

end BTreeMap

end Index.Lib
