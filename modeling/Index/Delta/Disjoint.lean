import Index.Delta.Gap

/-! # Conflicts without overlap

Two diffs of one base whose addresses do not overlap are edits at places apart from each other.  Such edits commute,
with one exception: where one side lengthens an array and the other shortens it, the additions come after a gap and
fail. -/

namespace Index.Delta

open Index.Lib List

/-! ## Addresses that do not overlap -/

theorem address_op {edit : Edit} :
    (edit.op .pointer).address = some (render .pointer (edit.address.map Step.segment)) := by
  cases edit <;> rfl

theorem apart_of_overlap {format : Format} (pointers : addressing format = .pointer) {yours incoming : List Edit}
    (disjoint : overlap format (yours.map (Edit.op .pointer)) (incoming.map (Edit.op .pointer)) = [])
    {mine theirs : Edit} (mineMember : mine ∈ yours) (theirsMember : theirs ∈ incoming) :
    Outline.Apart mine.address theirs.address := by
  have addressed : ∀ edits : List Edit, ((edits.map (Edit.op .pointer)).any fun op => op.address.isNone) = false := by
    simp [address_op]
  have slashes : separator format = '/' := by
    rw [separator, pointers]
  simp only [overlap, addressed, Bool.or_self, Bool.and_false, Bool.false_eq_true, if_false] at disjoint
  have unrelated : ¬ related '/' (render .pointer (mine.address.map Step.segment)).toList
      (render .pointer (theirs.address.map Step.segment)).toList = true := by
    intro found
    refine eq_nil_iff_forall_not_mem.mp disjoint (render .pointer (mine.address.map Step.segment))
      (mem_dedupAdjacent.mpr (mem_filter.mpr ⟨?_, ?_⟩))
    · exact mem_filterMap.mpr ⟨_, mem_map_of_mem mineMember, address_op⟩
    · rw [any_eq_true]
      exact ⟨_, mem_filterMap.mpr ⟨_, mem_map_of_mem theirsMember, address_op⟩, slashes ▸ found⟩
  rw [render, render, String.toList_ofList, String.toList_ofList, Pointer.related_render] at unrelated
  exact ⟨fun leads => unrelated (Or.inl (leads.map _)), fun leads => unrelated (Or.inr (leads.map _))⟩

/-! ## Edits in either order -/

/-- One side shortens and the other lengthens an array of the base. -/
def OppositeLengths (base yours incoming : Value) : Prop :=
  ∃ path items mine theirs, base.at? path = some (.array items) ∧ yours.at? path = some (.array mine) ∧
    incoming.at? path = some (.array theirs) ∧
    (mine.length < items.length ∧ items.length < theirs.length ∨ theirs.length < items.length ∧ items.length < mine.length)

/-- Both orders of the two diffs can be applied to the base and give equal documents. -/
def OrdersAgree (format : Format) (base yours incoming : Value) : Prop :=
  let mine := diffValues (addressing format) [] base yours
  let theirs := diffValues (addressing format) [] base incoming
  ∃ first second, (applyStructured format mine base).bind (applyStructured format theirs) = .ok first ∧
    (applyStructured format theirs base).bind (applyStructured format mine) = .ok second ∧ first.eq second = true

theorem diffValues_root {old new : Value} :
    diffValues .pointer [] old new = (edits [] old new).map (Edit.op .pointer) := by
  have ops : diffValues .pointer ([].map Step.segment) old new = (edits [] old new).map (Edit.op .pointer) :=
    diffValues_eq_map
  exact ops

section Orders

variable {format : Format} {base yours incoming : Value}

theorem not_opposed (baseFormed : base.wellFormed = true) (same : ¬ OppositeLengths base yours incoming) {mine theirs : Edit}
    (mineMember : mine ∈ edits [] base yours) (theirsMember : theirs ∈ edits [] base incoming) :
    ¬ Edit.Opposed mine theirs := by
  rintro ⟨path, ⟨lengthens, shortens⟩ | ⟨shortens, lengthens⟩⟩
  · obtain ⟨items, longer, here, mineHere, grown⟩ := longer_of_lengthens baseFormed mineMember lengthens
    obtain ⟨_, shorter, there, theirsHere, shrunk⟩ := shorter_of_shortens baseFormed theirsMember shortens
    obtain rfl : items = _ := by simpa using here.symm.trans there
    exact same ⟨path, _, longer, shorter, here, mineHere, theirsHere, Or.inr ⟨shrunk, grown⟩⟩
  · obtain ⟨items, shorter, here, mineHere, shrunk⟩ := shorter_of_shortens baseFormed mineMember shortens
    obtain ⟨_, longer, there, theirsHere, grown⟩ := longer_of_lengthens baseFormed theirsMember lengthens
    obtain rfl : items = _ := by simpa using here.symm.trans there
    exact same ⟨path, _, shorter, longer, here, mineHere, theirsHere, Or.inl ⟨shrunk, grown⟩⟩

section

variable (pointers : addressing format = .pointer) (baseFormed : base.wellFormed = true) (yoursFormed : yours.wellFormed = true)
  (incomingFormed : incoming.wellFormed = true)
include pointers baseFormed yoursFormed incomingFormed

/-- Diffs whose edits are independent agree in both orders. -/
theorem ordersAgree_of_independent
    (independent : ∀ mine ∈ edits [] base yours, ∀ theirs ∈ edits [] base incoming, Edit.Independent mine theirs) :
    OrdersAgree format base yours incoming := by
  have whole : base.outline.below [] = base.outline := rfl
  obtain ⟨mineEnabled, -⟩ := edits_graft baseFormed yoursFormed whole
  obtain ⟨theirsEnabled, -⟩ := edits_graft baseFormed incomingFormed whole
  obtain ⟨theirsAfter, mineAfter, same⟩ := actAll_comm
    (fun mine mineMember theirs theirsMember => (independent mine mineMember theirs theirsMember).commutes)
    mineEnabled theirsEnabled
  obtain ⟨afterMine, mineApplied, mineFormed, mineOutline⟩ :=
    applyStructured_edits pointers baseFormed (edits_wellFormed baseFormed yoursFormed) mineEnabled
  obtain ⟨afterTheirs, theirsApplied, theirsFormed, theirsOutline⟩ :=
    applyStructured_edits pointers baseFormed (edits_wellFormed baseFormed incomingFormed) theirsEnabled
  obtain ⟨first, firstApplied, firstFormed, firstOutline⟩ :=
    applyStructured_edits pointers mineFormed (edits_wellFormed baseFormed incomingFormed) (by rw [mineOutline]; exact theirsAfter)
  obtain ⟨second, secondApplied, secondFormed, secondOutline⟩ :=
    applyStructured_edits pointers theirsFormed (edits_wellFormed baseFormed yoursFormed) (by rw [theirsOutline]; exact mineAfter)
  rw [OrdersAgree, pointers, diffValues_root, diffValues_root]
  refine ⟨first, second, ?_, ?_, (Value.eq_iff_outline firstFormed secondFormed).mpr ?_⟩
  · rw [mineApplied]
    exact firstApplied
  · rw [theirsApplied]
    exact secondApplied
  · rw [firstOutline, secondOutline, mineOutline, theirsOutline]
    exact same

/-- Diffs with addresses apart that lengthen and shorten one array fail in the order that shortens it first. -/
theorem not_ordersAgree_of_shorter {mine theirs items : List Value} {place : List Step}
    (apart : ∀ mine ∈ edits [] base yours, ∀ theirs ∈ edits [] base incoming, Outline.Apart mine.address theirs.address)
    (baseFound : base.at? place = some (.array items)) (yoursFound : yours.at? place = some (.array mine))
    (incomingFound : incoming.at? place = some (.array theirs)) (shorter : mine.length < items.length)
    (longer : items.length < theirs.length) (result : Value) :
    (applyStructured format (diffValues .pointer [] base yours) base).bind
      (applyStructured format (diffValues .pointer [] base incoming)) ≠ .ok result := by
  have mineResizes : Resizes (edits [] base yours) ([] ++ place) _ _ :=
    edits_resize baseFormed yoursFormed baseFound yoursFound (by omega)
  have theirsResizes : Resizes (edits [] base incoming) ([] ++ place) _ _ :=
    edits_resize baseFormed incomingFormed baseFound incomingFound (by omega)
  -- Neither diff has an edit at the array or above it: the other diff has one there or below.
  obtain ⟨removed, removal⟩ : ∃ value, .remove place (.index mine.length) value ∈ edits [] base yours := by
    rcases mineResizes with ⟨edit, member, leads⟩ | ⟨grown, -⟩ | ⟨-, found⟩
    · exfalso
      rcases theirsResizes with ⟨other, otherMember, otherLeads⟩ | ⟨-, value, otherMember⟩ | ⟨shrunk, -⟩
      · rcases prefix_or_prefix_of_prefix leads otherLeads with first | second
        · exact (apart edit member other otherMember).1 first
        · exact (apart edit member other otherMember).2 second
      · exact (apart edit member _ otherMember).1 (leads.trans (prefix_append ..))
      · omega
    · omega
    · exact found
  have outside : ∀ edit ∈ edits [] base incoming, ¬ edit.address <+: place := fun edit member leads =>
    (apart _ removal edit member).2 (leads.trans (prefix_append ..))
  obtain ⟨value, addition⟩ : ∃ value, .add place (.index items.length) value ∈ edits [] base incoming := by
    rcases theirsResizes with ⟨edit, member, leads⟩ | ⟨-, found⟩ | ⟨shrunk, -⟩
    · exact absurd leads (outside edit member)
    · exact found
    · omega
  obtain ⟨after, applied, afterFormed, outline⟩ := applyStructured_diff pointers baseFormed yoursFormed
  rw [applied, diffValues_root]
  refine applyStructured_lengthened pointers baseFormed incomingFormed addition outside baseFound shorter afterFormed ?_
  rw [outline, Value.outline, yoursFound]
  rfl

end

/-- Diffs that do not overlap agree in both orders unless one shortens an array that the other lengthens. -/
theorem disjoint_orders_agree_iff (pointers : addressing format = .pointer) (base yours incoming : Document)
    (disjoint : overlap format (diffValues (addressing format) [] base.value yours.value)
      (diffValues (addressing format) [] base.value incoming.value) = []) :
    OrdersAgree format base.value yours.value incoming.value ↔
      ¬ OppositeLengths base.value yours.value incoming.value := by
  rw [pointers, diffValues_root, diffValues_root] at disjoint
  have apart : ∀ mine ∈ edits [] base.value yours.value, ∀ theirs ∈ edits [] base.value incoming.value,
      Outline.Apart mine.address theirs.address :=
    fun mine mineMember theirs theirsMember => apart_of_overlap pointers disjoint mineMember theirsMember
  constructor
  · intro agree
    rw [OrdersAgree, pointers] at agree
    obtain ⟨first, second, yoursFirst, incomingFirst, -⟩ := agree
    rintro ⟨place, items, mine, theirs, baseFound, yoursFound, incomingFound, ⟨shorter, longer⟩ | ⟨shorter, longer⟩⟩
    · exact not_ordersAgree_of_shorter pointers base.wellFormed yours.wellFormed incoming.wellFormed apart baseFound yoursFound
        incomingFound shorter longer first yoursFirst
    · exact not_ordersAgree_of_shorter pointers base.wellFormed incoming.wellFormed yours.wellFormed
        (fun theirs theirsMember mine mineMember => (apart mine mineMember theirs theirsMember).symm) baseFound incomingFound
        yoursFound shorter longer second incomingFirst
  · intro same
    exact ordersAgree_of_independent pointers base.wellFormed yours.wellFormed incoming.wellFormed
      fun mine mineMember theirs theirsMember =>
        ⟨apart mine mineMember theirs theirsMember, not_opposed base.wellFormed same mineMember theirsMember⟩

end Orders

/-! A setting changed on one side and an item added on the other. -/

def settings : Document where
  value := .object [("items", .array [.null, .null]), ("name", .string "a")]
  wellFormed := by decide

def settingsRenamed : Document where
  value := .object [("items", .array [.null, .null]), ("name", .string "b")]
  wellFormed := by decide

def settingsExtended : Document where
  value := .object [("items", .array [.null, .null, .null]), ("name", .string "a")]
  wellFormed := by decide

theorem settings_orders_agree_iff :
    OrdersAgree .json settings.value settingsRenamed.value settingsExtended.value ↔
      ¬ OppositeLengths settings.value settingsRenamed.value settingsExtended.value :=
  disjoint_orders_agree_iff rfl settings settingsRenamed settingsExtended (by decide +kernel)

def threeItems : Document where
  value := .array [.null, .null, .null]
  wellFormed := by decide

def twoItems : Document where
  value := .array [.null, .null]
  wellFormed := by decide

def fourItems : Document where
  value := .array [.null, .null, .null, .null]
  wellFormed := by decide

/-- No address overlaps, and the added item is out of range once the other side's removal is made. -/
theorem opposite_lengths_conflict :
    overlap .json (diffValues (addressing .json) [] threeItems.value twoItems.value)
        (diffValues (addressing .json) [] threeItems.value fourItems.value) = [] ∧
      ((applyStructured .json (diffValues (addressing .json) [] threeItems.value twoItems.value) threeItems.value).bind
          (applyStructured .json (diffValues (addressing .json) [] threeItems.value fourItems.value))).map (fun _ => ()) =
        .error (.outOfRange "/3" 3) ∧
      ¬ OrdersAgree .json threeItems.value twoItems.value fourItems.value := by
  have fails : ((applyStructured .json (diffValues (addressing .json) [] threeItems.value twoItems.value) threeItems.value).bind
      (applyStructured .json (diffValues (addressing .json) [] threeItems.value fourItems.value))).map (fun _ => ()) =
      .error (.outOfRange "/3" 3) := by decide +kernel
  refine ⟨by decide +kernel, fails, ?_⟩
  rintro ⟨first, second, yoursFirst, -⟩
  cases fails.symm.trans (congrArg (Except.map fun _ => ()) yoursFirst)

end Index.Delta
