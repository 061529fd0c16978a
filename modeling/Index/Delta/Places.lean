import Index.Delta.Independent
import Index.Delta.RoundTrip

/-! # The places of a diff

The differ comes down through containers that both documents have, arrays only if they have the same length, and
makes its edits where it stops. -/

namespace Index.Delta

open Index.Lib Value List

section Lengths

variable {old new : Value} {path : List Step} {edit : Edit}

theorem longer_of_lengthens (oldFormed : old.wellFormed = true) (member : edit ∈ edits [] old new)
    (lengthens : edit.lengthens = some path) :
    ∃ olds news, old.at? path = some (.array olds) ∧ new.at? path = some (.array news) ∧ olds.length < news.length := by
  obtain ⟨rest, oldEnd, newEnd, reached, emitted⟩ := exists_reached oldFormed member
  cases emitted with
  | itemAdded value first inside =>
    obtain rfl : rest = path := Option.some.inj lengthens
    exact ⟨_, _, reached.at?.1, reached.at?.2, lt_of_le_of_lt first inside⟩
  | _ => cases lengthens

theorem shorter_of_shortens (oldFormed : old.wellFormed = true) (member : edit ∈ edits [] old new)
    (shortens : edit.shortens = some path) :
    ∃ olds news, old.at? path = some (.array olds) ∧ new.at? path = some (.array news) ∧ news.length < olds.length := by
  obtain ⟨rest, oldEnd, newEnd, reached, emitted⟩ := exists_reached oldFormed member
  cases emitted with
  | itemRemoved value first inside =>
    obtain rfl : rest = path := Option.some.inj shortens
    exact ⟨_, _, reached.at?.1, reached.at?.2, lt_of_le_of_lt first inside⟩
  | _ => cases shortens

/-- The edits around an array whose length changes: one at the array or above it, or one that adds or removes the
first item that only one of the arrays has. -/
def Resizes (edits : List Edit) (place : List Step) (oldLength newLength : Nat) : Prop :=
  (∃ edit ∈ edits, edit.address <+: place) ∨
    (oldLength < newLength ∧ ∃ value, .add place (.index oldLength) value ∈ edits) ∨
    (newLength < oldLength ∧ ∃ value, .remove place (.index newLength) value ∈ edits)

theorem Resizes.mono {edits more : List Edit} {place : List Step} {oldLength newLength : Nat}
    (resizes : Resizes edits place oldLength newLength) (subset : ∀ edit ∈ edits, edit ∈ more) :
    Resizes more place oldLength newLength := by
  rcases resizes with ⟨edit, member, leads⟩ | ⟨longer, value, member⟩ | ⟨shorter, value, member⟩
  · exact Or.inl ⟨edit, subset edit member, leads⟩
  · exact Or.inr (Or.inl ⟨longer, value, subset _ member⟩)
  · exact Or.inr (Or.inr ⟨shorter, value, subset _ member⟩)

theorem edits_resize {rest : List Step} {olds news : List Value} (oldFormed : old.wellFormed = true)
    (newFormed : new.wellFormed = true) (oldFound : old.at? rest = some (.array olds))
    (newFound : new.at? rest = some (.array news)) (lengths : olds.length ≠ news.length) :
    Resizes (edits path old new) (path ++ rest) olds.length news.length := by
  induction rest generalizing old new path with
  | nil =>
    obtain rfl : old = .array olds := Option.some.inj oldFound
    obtain rfl : new = .array news := Option.some.inj newFound
    have unequal : ¬ (Value.array olds).eq (.array news) = true := fun same =>
      lengths (by simpa [Value.head] using congrFun ((eq_iff_outline oldFormed newFormed).mp same) [])
    unfold edits
    rw [if_neg unequal, append_nil]
    simp only [arrayEdits, if_neg lengths]
    split_ifs with appended truncated
    · rw [Bool.and_eq_true, decide_eq_true_eq] at appended
      refine Or.inr (Or.inl ⟨appended.2, news[olds.length], mem_map.mpr ⟨(news[olds.length], olds.length), ?_, rfl⟩⟩)
      rw [drop_zipIdx, mem_zipIdx_iff_le_and_getElem?_sub]
      simp [appended.2]
    · have shorter : news.length < olds.length := by
        by_contra longer
        exact appended (by simp [truncated]; omega)
      refine Or.inr (Or.inr ⟨shorter, olds[news.length], mem_map.mpr ⟨(olds[news.length], news.length), ?_, rfl⟩⟩)
      rw [mem_reverse, drop_zipIdx, mem_zipIdx_iff_le_and_getElem?_sub]
      simp [shorter]
    · exact Or.inl ⟨_, mem_singleton_self _, prefix_rfl⟩
  | cons step rest ih =>
    obtain ⟨oldChild, oldStep, oldBelow⟩ := Option.bind_eq_some_iff.mp oldFound
    obtain ⟨newChild, newStep, newBelow⟩ := Option.bind_eq_some_iff.mp newFound
    have outlines : old.outline (step :: rest) ≠ new.outline (step :: rest) := by
      rw [Value.outline, Value.outline, oldFound, newFound]
      simpa [Value.head] using lengths
    have unequal : ¬ old.eq new = true := fun same =>
      outlines (congrFun ((eq_iff_outline oldFormed newFormed).mp same) _)
    -- Where the differ steps down, the edits below are among its edits.
    have below : Resizes (edits (path ++ [step]) oldChild newChild) (path ++ [step] ++ rest) _ _ :=
      ih (wellFormed_child oldFormed oldStep) (wellFormed_child newFormed newStep) oldBelow newBelow
    rw [append_assoc, singleton_append] at below
    obtain ⟨oldMap, key, rfl, rfl, oldHeld⟩ | ⟨oldItems, index, rfl, rfl, oldHeld⟩ := child_cases oldStep
    · obtain ⟨newMap, _, rfl, same, newHeld⟩ | ⟨_, _, -, same, -⟩ := child_cases newStep
      · cases same
        refine below.mono fun edit member => ?_
        unfold edits
        rw [if_neg unequal]
        refine mem_append_left _ ?_
        rw [entryEdits_eq_flatMap]
        refine mem_flatMap.mpr ⟨(key, oldChild), IndexMap.mem_of_get oldHeld, ?_⟩
        rw [newHeld]
        exact member
      · cases same
    · obtain ⟨_, _, -, same, -⟩ | ⟨newItems, _, rfl, same, newHeld⟩ := child_cases newStep
      · cases same
      · cases same
        have oldInside := (List.getElem?_eq_some_iff.mp oldHeld).1
        have newInside := (List.getElem?_eq_some_iff.mp newHeld).1
        by_cases sameLength : oldItems.length = newItems.length
        · refine below.mono fun edit member => ?_
          unfold edits
          rw [if_neg unequal]
          show edit ∈ arrayEdits _ _ _ _
          rw [arrayEdits, if_pos sameLength, itemEdits_eq_flatMap]
          exact mem_flatMap.mpr ⟨((oldChild, newChild), index), mem_zipIdx_iff_getElem?.mpr
            (getElem?_zip_eq_some.mpr ⟨oldHeld, newHeld⟩), member⟩
        · -- Items of an equal beginning have equal outlines.
          have notPrefix : ¬ Value.itemsEq (oldItems.take (min oldItems.length newItems.length))
              (newItems.take (min oldItems.length newItems.length)) = true := fun same => by
            have items := outlineOf_of_itemsEq (wellFormed_array.mp oldFormed).2
              (wellFormed_array.mp newFormed).2 same (show index < _ by omega)
            refine outlines ?_
            rw [outline_cons, outline_cons]
            exact congrFun items rest
          refine Or.inl ⟨.replace path (.array oldItems) (.array newItems), ?_, prefix_append ..⟩
          unfold edits
          rw [if_neg unequal]
          simp [arrayEdits, sameLength, notPrefix]

end Lengths

end Index.Delta
