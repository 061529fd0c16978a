import Mathlib.Data.List.Nodup
import Mathlib.Data.List.Perm.Subperm
import Mathlib.Logic.Relation
import Mathlib.Tactic.Convert
import Mathlib.Tactic.Tauto
import Mathlib.Order.WellFounded
import Mathlib.Data.Fintype.Card
import Mathlib.Data.Set.Finite.List

/-! # Named items and their dependencies

A list of items, each with a name and the names it needs.  `OrderedAfter done items` says that the
list can be worked through from the front: what an item needs is in `done` or the name of an earlier
item.  Everything a dependency order is used for follows from two facts, an induction principle along
the order and the existence of a cycle in every finite set in which each item needs another. -/

namespace Index.Lib

open Relation List

variable {α ν : Type*} (name : α → ν) (needs : α → List ν)

def OrderedAfter : List ν → List α → Prop
  | _, [] => True
  | done, item :: items => (∀ need ∈ needs item, need ∈ done) ∧ OrderedAfter (name item :: done) items

variable {name needs} {items : List α} {done : List ν} {item : α}

theorem OrderedAfter.snoc (ordered : OrderedAfter name needs done items)
    (ready : ∀ need ∈ needs item, need ∈ done ∨ need ∈ items.map name) : OrderedAfter name needs done (items ++ [item]) := by
  induction items generalizing done with
  | nil => exact ⟨fun need member => (ready need member).resolve_right (by simp), trivial⟩
  | cons first items ih =>
    refine ⟨ordered.1, ih ordered.2 ?_⟩
    intro need member
    have known := ready need member
    simp only [map_cons, mem_cons] at known ⊢
    tauto

theorem OrderedAfter.of_append_left {more : List α} (ordered : OrderedAfter name needs done (items ++ more)) :
    OrderedAfter name needs done items := by
  induction items generalizing done with
  | nil => trivial
  | cons item items ih => exact ⟨ordered.1, ih ordered.2⟩

/-- What an item of the list needs is done before the list or is the name of an item before it. -/
theorem OrderedAfter.needs_before {before after : List α} (ordered : OrderedAfter name needs done (before ++ item :: after))
    {need : ν} (member : need ∈ needs item) : need ∈ done ∨ need ∈ before.map name := by
  induction before generalizing done with
  | nil => exact .inl (ordered.1 need member)
  | cons first before ih =>
    have known := ih ordered.2
    simp only [map_cons, mem_cons] at known ⊢
    tauto

/-- Induction along a dependency order: a property holds of every item once it passes from the items
an item needs to the item itself. -/
theorem OrderedAfter.forall_of_needs {motive : α → Prop} (ordered : OrderedAfter name needs [] items)
    (unique : (items.map name).Nodup)
    (step : ∀ item ∈ items, (∀ other ∈ items, name other ∈ needs item → motive other) → motive item) :
    ∀ item ∈ items, motive item := by
  -- The induction is on the part of the list in front of the item.
  suffices upTo : ∀ before after, items = before ++ after → ∀ item ∈ before, motive item from upTo items [] (by simp)
  intro before
  induction before using List.reverseRecOn with
  | nil => simp
  | append_singleton before item ih =>
    intro after split
    rw [append_assoc] at split
    have earlier := ih _ split
    refine forall_mem_append.mpr ⟨earlier, forall_mem_singleton.mpr (step item (by simp [split]) ?_)⟩
    intro other otherMember needed
    rw [split] at ordered
    obtain ⟨found, foundMember, sameName⟩ := mem_map.mp ((ordered.needs_before needed).resolve_left (by simp))
    obtain rfl : found = other := inj_on_of_nodup_map unique (by simp [split, foundMember]) otherMember sameName
    exact earlier found foundMember

/-- The names of a dependency order are on no cycle of the needs. -/
theorem OrderedAfter.acyclic (ordered : OrderedAfter name needs [] items) (unique : (items.map name).Nodup) (start : ν) :
    ¬ TransGen (fun first second => ∃ item ∈ items, name item = first ∧ second ∈ needs item) start start := by
  let needed (second first : ν) : Prop := ∃ item ∈ items, name item = first ∧ second ∈ needs item
  have accessible : ∀ item ∈ items, Acc needed (name item) := by
    refine ordered.forall_of_needs unique ?_
    intro item member ih
    refine Acc.intro _ ?_
    rintro second ⟨other, otherMember, sameName, need⟩
    obtain rfl : other = item := inj_on_of_nodup_map unique otherMember member sameName
    obtain ⟨before, after, split⟩ := append_of_mem member
    have earlier : second ∈ items.map name := by
      rw [split] at ordered
      simp only [split, map_append, mem_append]
      exact .inl ((ordered.needs_before need).resolve_left (by simp))
    obtain ⟨source, sourceMember, rfl⟩ := mem_map.mp earlier
    exact ih source sourceMember need
  have irreflexive : ∀ {x : ν}, Acc (TransGen needed) x → ¬ TransGen needed x x := by
    intro x accessible
    induction accessible with
    | intro x _ ih => exact fun cycle => ih x cycle cycle
  intro cycle
  obtain ⟨_, ⟨item, member, rfl, _⟩, -⟩ := TransGen.head'_iff.mp cycle
  exact irreflexive (accessible item member).transGen (transGen_swap.mp cycle)

/-- Unique names find their items. -/
theorem find?_named [BEq ν] [LawfulBEq ν] (unique : (items.map name).Nodup) (member : item ∈ items) :
    items.find? (fun other => name other == name item) = some item := by
  cases found : items.find? (fun other => name other == name item) with
  | none => simpa using find?_eq_none.mp found item member
  | some other =>
    have sameName : name other = name item := by simpa using find?_some found
    rw [inj_on_of_nodup_map unique (mem_of_find?_eq_some found) member sameName]

/-- A nonempty finite set each of whose members is related to a member has a cycle, which every member leads to. -/
theorem exists_cycle {relation : ν → ν → Prop} (members : List ν) (start : ν) (inside : start ∈ members)
    (onward : ∀ x ∈ members, ∃ y ∈ members, relation x y) :
    ∃ x, ReflTransGen relation start x ∧ TransGen relation x x := by
  by_contra acyclic
  push Not at acyclic
  -- Only the members that the start leads to matter.
  classical
  suffices ∃ x ∈ members.filter (ReflTransGen relation start), TransGen relation x x by
    obtain ⟨x, member, cycle⟩ := this
    exact acyclic x (by simpa using (mem_filter.mp member).2) cycle
  replace onward : ∀ x ∈ members.filter (ReflTransGen relation start),
      ∃ y ∈ members.filter (ReflTransGen relation start), relation x y := by
    intro x member
    obtain ⟨old, reached⟩ := mem_filter.mp member
    obtain ⟨y, other, related⟩ := onward x old
    exact ⟨y, mem_filter.mpr ⟨other, by simpa using ReflTransGen.tail (by simpa using reached) related⟩, related⟩
  replace inside : start ∈ members.filter (ReflTransGen relation start) :=
    mem_filter.mpr ⟨inside, by simpa using ReflTransGen.refl⟩
  generalize members.filter (ReflTransGen relation start) = members at onward inside
  by_contra acyclic
  push Not at acyclic
  let path (x y : { x // x ∈ members }) : Prop := TransGen relation y.val x.val
  have irrefl : Std.Irrefl path := ⟨fun x => acyclic x.val x.property⟩
  have wellFounded : WellFounded path := Finite.wellFounded_of_trans_of_irrefl path
  obtain ⟨least, -, minimal⟩ := wellFounded.has_min Set.univ ⟨⟨start, inside⟩, trivial⟩
  obtain ⟨next, nextInside, related⟩ := onward least.val least.property
  exact minimal ⟨next, nextInside⟩ trivial (.single related)

/-! ## Batches -/

variable (name needs) in
/-- The batches can be worked through one after another: what an item needs is in `done` or the name
of an item of an earlier batch. -/
def BatchedAfter : List ν → List (List α) → Prop
  | _, [] => True
  | done, batch :: batches =>
    (∀ item ∈ batch, ∀ need ∈ needs item, need ∈ done) ∧ BatchedAfter (done ++ batch.map name) batches

theorem BatchedAfter.mono {batches : List (List α)} {more : List ν} (batched : BatchedAfter name needs done batches)
    (subset : done ⊆ more) : BatchedAfter name needs more batches := by
  induction batches generalizing done more with
  | nil => trivial
  | cons batch batches ih =>
    refine ⟨fun item member need needed => subset (batched.1 item member need needed), ?_⟩
    apply ih batched.2
    intro need member
    rcases mem_append.mp member with member | member
    · exact mem_append_left _ (subset member)
    · exact mem_append_right _ member

theorem OrderedAfter.singletons (ordered : OrderedAfter name needs done items) :
    BatchedAfter name needs done (items.map fun item => [item]) := by
  induction items generalizing done with
  | nil => trivial
  | cons item items ih =>
    refine ⟨?_, ?_⟩
    · simpa using ordered.1
    · refine (ih ordered.2).mono ?_
      intro need member
      simp only [mem_cons] at member
      simp only [map_cons, map_nil, mem_append, mem_singleton]
      tauto

/-- The items by rank, each layer in the order of the list. -/
def layers (rank : α → Nat) (count : Nat) (items : List α) : List (List α) :=
  (List.range count).map fun i => items.filter fun item => rank item = i

theorem layers_succ (rank : α → Nat) (count : Nat) (items : List α) :
    layers rank (count + 1) items = layers rank count items ++ [items.filter fun item => rank item = count] := by
  simp [layers, range_succ]

variable {rank : α → Nat}

theorem layers_congr {other : α → Nat} (count : Nat) (same : ∀ item ∈ items, rank item = other item) :
    layers rank count items = layers other count items := by
  refine map_congr_left fun i _ => filter_congr fun item member => ?_
  rw [same item member]

variable {count : Nat}

theorem layers_pad (bounded : ∀ item ∈ items, rank item < count) (extra : Nat) :
    layers rank (count + extra) items = layers rank count items ++ List.replicate extra [] := by
  induction extra with
  | zero => simp
  | succ extra ih =>
    have none : (items.filter fun item => rank item = count + extra) = [] := by
      refine filter_eq_nil_iff.mpr fun item member => ?_
      have := bounded item member
      simp only [decide_eq_true_eq]
      omega
    rw [← Nat.add_assoc, layers_succ, ih, none, append_assoc, replicate_succ']

theorem layers_snoc (rank : α → Nat) (count : Nat) (items : List α) (item : α) :
    layers rank count (items ++ [item]) = (layers rank count items).modify (rank item) (· ++ [item]) := by
  refine ext_getElem (by simp [layers]) fun i left right => ?_
  rw [getElem_modify]
  simp only [layers, getElem_map, getElem_range, filter_append]
  split
  next here => simp [here]
  next elsewhere => simp [elsewhere]

theorem mem_of_mem_layers (member : item ∈ (layers rank count items).flatten) : item ∈ items := by
  obtain ⟨layer, layerMember, inside⟩ := mem_flatten.mp member
  obtain ⟨i, -, rfl⟩ := mem_map.mp layerMember
  exact (mem_filter.mp inside).1

/-- Layering keeps the relative order of items of one rank. -/
theorem filter_layers_flatten {selects : α → Bool} (bounded : ∀ item ∈ items, rank item < count)
    (sameRank : ∀ item ∈ items, ∀ other ∈ items, selects item = true → selects other = true → rank item = rank other) :
    (layers rank count items).flatten.filter selects = items.filter selects := by
  by_cases present : ∃ item ∈ items, selects item = true
  · obtain ⟨item, member, selected⟩ := present
    have elsewhere : ∀ n, rank item ≠ n → (items.filter fun other => selects other && decide (rank other = n)) = [] := by
      intro n differ
      refine filter_eq_nil_iff.mpr fun other otherMember both => ?_
      simp only [Bool.and_eq_true, decide_eq_true_eq] at both
      exact differ ((sameRank item member other otherMember selected both.1).trans both.2)
    have upTo : ∀ n, (layers rank n items).flatten.filter selects = if rank item < n then items.filter selects else [] := by
      intro n
      induction n with
      | zero => simp [layers]
      | succ n ih =>
        rw [layers_succ, flatten_append, filter_append, ih]
        simp only [flatten_cons, flatten_nil, append_nil, filter_filter]
        rcases Nat.lt_trichotomy (rank item) n with lower | same | higher
        · rw [if_pos lower, if_pos (by omega), elsewhere n (by omega), append_nil]
        · rw [if_neg (by omega), if_pos (by omega), nil_append]
          refine filter_congr fun other otherMember => ?_
          cases otherSelected : selects other with
          | false => rfl
          | true => simp [← sameRank item member other otherMember selected otherSelected, same]
        · rw [if_neg (by omega), if_neg (by omega), elsewhere n (by omega), append_nil]
    rw [upTo, if_pos (bounded item member)]
  · push Not at present
    rw [filter_eq_nil_iff.mpr present, filter_eq_nil_iff.mpr fun item member => present item (mem_of_mem_layers member)]

theorem layers_flatten_perm (bounded : ∀ item ∈ items, rank item < count) : (layers rank count items).flatten.Perm items := by
  classical
  refine perm_iff_count.mpr fun item => ?_
  have kept : (layers rank count items).flatten.filter (· == item) = items.filter (· == item) := by
    refine filter_layers_flatten bounded fun first _ second _ here there => ?_
    rw [eq_of_beq here, eq_of_beq there]
  rw [List.count, countP_eq_length_filter, kept, ← countP_eq_length_filter]

/-- Layers by a rank that grows along the needs can be worked through in order. -/
theorem layers_batched (count : Nat)
    (grows : ∀ item ∈ items, ∀ need ∈ needs item, ∃ other ∈ items, name other = need ∧ rank other < rank item) :
    BatchedAfter name needs [] (layers rank count items) := by
  have starting : ∀ length first (done : List ν), (∀ item ∈ items, rank item < first → name item ∈ done) →
      BatchedAfter name needs done
        ((List.range' first length).map fun i => items.filter fun item => rank item = i) := by
    intro length
    induction length with
    | zero => intros; trivial
    | succ length ih =>
      intro first done earlier
      refine ⟨?_, ih _ _ ?_⟩
      · intro item member need needed
        obtain ⟨inside, level⟩ := mem_filter.mp member
        obtain ⟨other, otherMember, rfl, lower⟩ := grows item inside need needed
        exact earlier other otherMember (by simp only [decide_eq_true_eq] at level; omega)
      · intro item member lower
        rcases Nat.lt_or_ge (rank item) first with before | here
        · exact mem_append_left _ (earlier item member before)
        · refine mem_append_right _ (mem_map_of_mem (mem_filter.mpr ⟨member, ?_⟩))
          simp only [decide_eq_true_eq]
          omega
  rw [layers, range_eq_range']
  exact starting count 0 [] (by simp)

end Index.Lib
