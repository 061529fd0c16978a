import Index.Delta.Edit

/-! # Applying a diff

The ops between two documents are edits of the first.  In the order the differ emits them each is enabled when its
turn comes, and together they graft the new document onto the place of the old one: containers are edited child by
child, and the children of one container do not interfere. -/

namespace Index.Delta

open Index.Lib Value Outline List

/-! ## The edits of a diff -/

def arrayEdits (path : List Step) (olds news : List Value) (itemEdits : List Edit) : List Edit :=
  let shared := min olds.length news.length
  let prefixEqual := Value.itemsEq (olds.take shared) (news.take shared)
  if olds.length = news.length then itemEdits
  else if prefixEqual && olds.length < news.length then
    (news.zipIdx.drop olds.length).map fun item => .add path (.index item.2) item.1
  else if prefixEqual then (olds.zipIdx.drop news.length).reverse.map fun item => .remove path (.index item.2) item.1
  else [.replace path (.array olds) (.array news)]

mutual

/-- The ops of `diffValues`, with the steps of their addresses. -/
def edits (path : List Step) (old new : Value) : List Edit :=
  if old.eq new then []
  else
    match old, new with
    | .object olds, .object news =>
      let added := news.filter fun item => (IndexMap.get olds item.1).isNone
      entryEdits path news olds ++ added.map fun item => .add path (.key item.1) item.2
    | .array olds, .array news => arrayEdits path olds news (itemEdits path 0 olds news)
    | old, new => [.replace path old new]

def entryEdits (path : List Step) (news : List (String × Value)) : List (String × Value) → List Edit
  | [] => []
  | (key, old) :: olds =>
    (match IndexMap.get news key with
    | some new => edits (path ++ [.key key]) old new
    | none => [.remove path (.key key) old]) ++ entryEdits path news olds

def itemEdits (path : List Step) (index : Nat) : List Value → List Value → List Edit
  | old :: olds, new :: news => edits (path ++ [.index index]) old new ++ itemEdits path (index + 1) olds news
  | _, _ => []

end

variable {path : List Step}

theorem entryEdits_eq_flatMap {news olds : List (String × Value)} : entryEdits path news olds = olds.flatMap fun entry =>
      match IndexMap.get news entry.1 with
      | some new => edits (path ++ [.key entry.1]) entry.2 new
      | none => [.remove path (.key entry.1) entry.2] := by
  induction olds with
  | nil => simp [entryEdits]
  | cons entry olds ih => rw [entryEdits, ih, flatMap_cons]

theorem itemEdits_eq_flatMap {index : Nat} {olds news : List Value} : itemEdits path index olds news =
      ((olds.zip news).zipIdx index).flatMap fun item => edits (path ++ [.index item.2]) item.1.1 item.1.2 := by
  induction olds generalizing index news with
  | nil => simp [itemEdits]
  | cons old olds ih =>
    cases news with
    | nil => simp [itemEdits]
    | cons new news => rw [itemEdits, ih, zip_cons_cons, zipIdx_cons, flatMap_cons]

section Ops

variable {addressing : Addressing}

theorem diffEntries_eq_map {news olds : List (String × Value)}
    (each : ∀ entry ∈ olds, ∀ new path, diffValues addressing (path.map Step.segment) entry.2 new =
      (edits path entry.2 new).map (Edit.op addressing)) :
    diffEntries addressing (path.map Step.segment) news olds = (entryEdits path news olds).map (Edit.op addressing) := by
  induction olds with
  | nil => simp [diffEntries, entryEdits]
  | cons entry olds ih =>
    obtain ⟨here, later⟩ := forall_mem_cons.mp each
    rw [diffEntries, entryEdits, map_append, ih later]
    congr 1
    cases IndexMap.get news entry.1 with
    | none => simp [Edit.op, Edit.address, Step.segment]
    | some new =>
      have below := here new (path ++ [.key entry.1])
      rw [map_append] at below
      exact below

theorem diffItems_eq_map {index : Nat} {olds news : List Value}
    (each : ∀ old ∈ olds, ∀ new path, diffValues addressing (path.map Step.segment) old new =
      (edits path old new).map (Edit.op addressing)) :
    diffItems addressing (path.map Step.segment) index olds news = (itemEdits path index olds news).map (Edit.op addressing) := by
  induction olds generalizing index news with
  | nil => simp [diffItems, itemEdits]
  | cons old olds ih =>
    obtain ⟨here, later⟩ := forall_mem_cons.mp each
    cases news with
    | nil => simp [diffItems, itemEdits]
    | cons new news =>
      rw [diffItems, itemEdits, map_append, ih later]
      congr 1
      have below := here new (path ++ [.index index])
      rw [map_append] at below
      exact below

theorem diffArrays_eq_map {olds news : List Value} {inner : List Edit} :
    diffArrays addressing (path.map Step.segment) olds news (inner.map (Edit.op addressing)) =
      (arrayEdits path olds news inner).map (Edit.op addressing) := by
  rw [diffArrays, arrayEdits]
  split_ifs with sameLength appended truncated
  · rfl
  · rw [leafOps, indexed, map_map, map_map]
    exact map_congr_left fun item _ => by simp [Edit.op, Edit.address, Step.segment]
  · rw [leafOps, indexed, ← map_reverse, map_map, map_map]
    exact map_congr_left fun item _ => by simp [Edit.op, Edit.address, Step.segment]
  · simp [Edit.op, Edit.address]

/-- The ops of the differ are those of the edits. -/
theorem diffValues_eq_map {old new : Value} :
    diffValues addressing (path.map Step.segment) old new = (edits path old new).map (Edit.op addressing) := by
  induction old using Value.inductionOn generalizing path new with
    (unfold diffValues edits
     split_ifs with same
     · rfl)
  | array olds ih =>
    cases new with
    | array news =>
      show diffArrays _ _ _ _ _ = (arrayEdits _ _ _ _).map _
      rw [diffItems_eq_map fun old member new path => ih old member, diffArrays_eq_map]
    | _ => simp [Edit.op, Edit.address]
  | object olds ih =>
    cases new with
    | object news =>
      show diffEntries _ _ _ _ ++ leafOps _ _ _ _ = (entryEdits _ _ _ ++ _).map _
      rw [diffEntries_eq_map fun entry member new path => ih entry member, map_append]
      simp [leafOps, Edit.op, Edit.address, Step.segment]
    | _ => simp [Edit.op, Edit.address]
  | _ => simp [Edit.op, Edit.address]

end Ops

/-! ## Editing child by child -/

abbrev EnabledEdits (edits : List Edit) (outline : Outline Step Head) : Prop := EnabledAll Edit.Enabled Edit.act edits outline

abbrev actEdits (edits : List Edit) (outline : Outline Step Head) : Outline Step Head := actAll Edit.act edits outline

variable {outline : Outline Step Head}

theorem actEdits_append {before after : List Edit} :
    actEdits (before ++ after) outline = actEdits after (actEdits before outline) := actAll_append ..

theorem actEdits_cons {edit : Edit} {edits : List Edit} :
    actEdits (edit :: edits) outline = actEdits edits (edit.act outline) := rfl

/-- A list of edits that replaces what is at a path. -/
def Grafts (edits : List Edit) (outline : Outline Step Head) (path : List Step) (sub : Outline Step Head) : Prop :=
  EnabledEdits edits outline ∧ actEdits edits outline = outline.graft path sub

theorem grafts_nil {sub : Outline Step Head} (same : outline.below path = sub) : Grafts [] outline path sub :=
  ⟨trivial, (graft_of_below same).symm⟩

theorem head_of_below {value : Value} (there : outline.below path = value.outline) : outline path = some value.head := by
  simpa [Outline.below] using congrFun there []

theorem child_of_below {value : Value} (there : outline.below path = value.outline) (step : Step) :
    outline.below (path ++ [step]) = Value.outlineOf (value.child step) := by
  funext rest
  rw [← outline_cons, ← there, Outline.below, append_assoc]
  rfl

/-- A container is grafted when its head and all its children are. -/
theorem eq_graft_of_children {result : Outline Step Head} {value : Value} (headed : result path = some value.head)
    (children : ∀ step, result.below (path ++ [step]) = Value.outlineOf (value.child step))
    (outside : ∀ place, ¬ path <+: place → result place = outline place) : result = outline.graft path value.outline := by
  refine eq_graft (fun rest => ?_) outside
  cases rest with
  | nil => rw [append_nil, headed, outline_nil]
  | cons step rest => rw [outline_cons, ← children step, Outline.below, append_assoc, singleton_append]

/-- A list of edits that gives some children of one container new values and touches nothing else. -/
structure Fills {α : Type*} (edits : List Edit) (outline : Outline Step Head) (path : List Step) (items : List α)
    (step : α → Step) (target : α → Outline Step Head) : Prop where
  enabled : EnabledEdits edits outline
  target : ∀ item ∈ items, (actEdits edits outline).below (path ++ [step item]) = target item
  frame : ∀ place, (∀ item ∈ items, ¬ path ++ [step item] <+: place) → actEdits edits outline place = outline place

namespace Fills

variable {α : Type*} {edits : List Edit} {items : List α} {step : α → Step} {target : α → Outline Step Head}

theorem container (fills : Fills edits outline path items step target) : actEdits edits outline path = outline path :=
  fills.frame path fun _ _ => not_prefix_parent

theorem away (fills : Fills edits outline path items step target) {place : List Step} (outside : ¬ path <+: place) :
    actEdits edits outline place = outline place :=
  fills.frame place fun _ _ leads => outside ((prefix_append path _).trans leads)

theorem untouched (fills : Fills edits outline path items step target) {other : Step} (missing : other ∉ items.map step) :
    (actEdits edits outline).below (path ++ [other]) = outline.below (path ++ [other]) :=
  funext fun _ => fills.frame _ fun item member =>
    (apart_siblings fun same : step item = other => missing (same ▸ mem_map_of_mem member)).below

end Fills

/-- Groups of edits at different children of one container each do their own part. -/
theorem fills_flatMap {α : Type*} (items : List α) (step : α → Step) (group : α → List Edit)
    (start target : α → Outline Step Head) {head : Head} (distinct : (items.map step).Nodup)
    (each : ∀ item ∈ items, ∀ outline : Outline Step Head, outline path = some head →
      outline.below (path ++ [step item]) = start item → Grafts (group item) outline (path ++ [step item]) (target item))
    (headed : outline path = some head) (starts : ∀ item ∈ items, outline.below (path ++ [step item]) = start item) :
    Fills (items.flatMap group) outline path items step target := by
  induction items generalizing outline with
  | nil => exact ⟨trivial, by simp, fun place _ => rfl⟩
  | cons item items ih =>
    obtain ⟨here, later⟩ := forall_mem_cons.mp each
    obtain ⟨startHere, startLater⟩ := forall_mem_cons.mp starts
    rw [map_cons, nodup_cons] at distinct
    obtain ⟨enabled, grafted⟩ := here outline headed startHere
    have siblings : ∀ other ∈ items, Outline.Apart (path ++ [step item]) (path ++ [step other]) := fun other member =>
      apart_siblings fun same => distinct.1 (same ▸ mem_map_of_mem member)
    -- The first group leaves the container and the other children as they are.
    have headedNext : actEdits (group item) outline path = some head := by
      rw [grafted, graft_of_apart not_prefix_parent, headed]
    have startsNext : ∀ other ∈ items, (actEdits (group item) outline).below (path ++ [step other]) = start other := by
      intro other member
      funext rest
      rw [grafted, Outline.below, graft_of_apart (siblings other member).below]
      exact congrFun (startLater other member) rest
    obtain ⟨enabledRest, targets, frame⟩ := ih distinct.2 later headedNext startsNext
    rw [flatMap_cons]
    refine ⟨enabledAll_append.mpr ⟨enabled, enabledRest⟩, ?_, fun place outside => ?_⟩
    · rw [actEdits_append, forall_mem_cons]
      refine ⟨funext fun rest => ?_, targets⟩
      rw [Outline.below, frame _ fun other member => (siblings other member).symm.below, grafted, graft_below]
    · obtain ⟨outsideHere, outsideLater⟩ := forall_mem_cons.mp outside
      rw [actEdits_append, frame place outsideLater, grafted, graft_of_apart outsideHere]

/-! ## Arrays that grow or shrink -/

section Arrays

theorem below_graft {sub : Outline Step Head} : (outline.graft path sub).below path = sub :=
  funext fun _ => graft_below

theorem graft_graft {sub other : Outline Step Head} : (outline.graft path other).graft path sub = outline.graft path sub :=
  (eq_graft (fun _ => graft_below) fun place outside => by
    rw [graft_of_apart outside, graft_of_apart outside])

/-- Items added at the end in turn. -/
theorem grafts_appended {items news : List Value} (there : outline.below path = (Value.array items).outline)
    (fits : items.length + news.length ≤ 2 ^ 64) :
    Grafts ((news.zipIdx items.length).map fun item => Edit.add path (.index item.2) item.1) outline path
      (Value.array (items ++ news)).outline := by
  induction news generalizing items outline with
  | nil => exact grafts_nil (by simpa using there)
  | cons new news ih =>
    rw [length_cons] at fits
    have added : (Edit.add path (.index items.length) new).act outline =
        outline.graft path (Value.array (items ++ [new])).outline := by
      rw [Edit.act, outline_push, graft_relabel, graft_append, there]
    have next : ((Edit.add path (.index items.length) new).act outline).below path =
        (Value.array (items ++ [new])).outline := by
      rw [added, below_graft]
    obtain ⟨enabled, grafted⟩ := ih next (by rw [length_append, length_singleton]; omega)
    rw [length_append, length_singleton] at enabled grafted
    refine ⟨⟨⟨head_of_below there, by omega⟩, enabled⟩, ?_⟩
    rw [zipIdx_cons, map_cons, actEdits_cons, grafted, added, graft_graft]
    simp

/-- Items removed at the end, the last first. -/
theorem grafts_truncated {items olds : List Value} (there : outline.below path = (Value.array (items ++ olds)).outline) :
    Grafts ((olds.zipIdx items.length).reverse.map fun item => Edit.remove path (.index item.2) item.1) outline path
      (Value.array items).outline := by
  induction olds using List.reverseRecOn generalizing outline with
  | nil => exact grafts_nil (by simpa using there)
  | append_singleton olds old ih =>
    have headed : outline path = some (.array (items.length + olds.length + 1)) := by
      simpa [Value.head, Nat.add_assoc] using head_of_below there
    have length : (items ++ (olds ++ [old])).length = items.length + olds.length + 1 := by
      simp [Nat.add_assoc]
    have removed : (Edit.remove path (.index (items.length + olds.length)) old).act outline =
        outline.graft path (Value.array (items ++ olds)).outline := by
      have shorter : (items ++ (olds ++ [old])).eraseIdx (items.length + olds.length) = items ++ olds := by
        rw [← append_assoc, eraseIdx_append_of_length_le (by simp)]
        simp
      rw [Edit.act, ← shorter, outline_pop length, graft_relabel, graft_append, there]
    have next : ((Edit.remove path (.index (items.length + olds.length)) old).act outline).below path =
        (Value.array (items ++ olds)).outline := by
      rw [removed, below_graft]
    obtain ⟨enabled, grafted⟩ := ih next
    have order : ((olds ++ [old]).zipIdx items.length).reverse =
        (old, items.length + olds.length) :: (olds.zipIdx items.length).reverse := by
      simp [zipIdx_append]
    rw [order, map_cons]
    refine ⟨⟨headed, enabled⟩, ?_⟩
    rw [actEdits_cons, grafted, removed, graft_graft]

end Arrays

/-! ## The diff of two documents -/

section Diff

theorem grafts_replace {old new : Value} (there : outline.below path = old.outline) :
    Grafts [.replace path old new] outline path new.outline := by
  refine ⟨⟨?_, trivial⟩, rfl⟩
  rw [Edit.Enabled, head_of_below there]
  exact Option.some_ne_none _

theorem nodup_keySteps {map : List (String × Value)} (distinct : IndexMap.Distinct map) :
    (map.map fun entry => Step.key entry.1).Nodup := by
  have keys : (map.map fun entry => Step.key entry.1) = (map.map Prod.fst).map Step.key := by simp
  rw [keys]
  exact distinct.map fun left right same => by simpa using same

/-- The edits from one value to another put the second in the place of the first, wherever that is. -/
def EditsGraft (old new : Value) : Prop :=
  ∀ {path : List Step} {outline : Outline Step Head}, outline.below path = old.outline → Grafts (edits path old new) outline path new.outline

/-- The old entries, each replaced by the new value of its key or removed. -/
theorem fills_entryEdits {olds news : List (String × Value)} (distinct : IndexMap.Distinct olds)
    (each : ∀ entry ∈ olds, ∀ new, IndexMap.get news entry.1 = some new → EditsGraft entry.2 new)
    (there : outline.below path = (Value.object olds).outline) :
    Fills (entryEdits path news olds) outline path olds (fun entry => .key entry.1)
      fun entry => Value.outlineOf (IndexMap.get news entry.1) := by
  rw [entryEdits_eq_flatMap]
  refine fills_flatMap olds _ _ (fun entry => entry.2.outline) _ (nodup_keySteps distinct) ?_ (head_of_below there) ?_
  · intro entry member current headed start
    cases found : IndexMap.get news entry.1 with
    | some new => exact each entry member new found start
    | none =>
      refine ⟨⟨⟨headed, ?_⟩, trivial⟩, rfl⟩
      rw [head_of_below start]
      exact Option.some_ne_none _
  · intro entry member
    rw [child_of_below there, Value.child, IndexMap.get_of_mem distinct member, Value.outlineOf]

/-- New keys of an object. -/
theorem fills_added {added : List (String × Value)} (distinct : IndexMap.Distinct added)
    (headed : outline path = some .object) :
    Fills (added.map fun entry => .add path (.key entry.1) entry.2) outline path added (fun entry => .key entry.1)
      fun entry => entry.2.outline := by
  rw [map_eq_flatMap]
  exact fills_flatMap added _ _ (fun entry => outline.below (path ++ [.key entry.1])) _ (nodup_keySteps distinct)
    (fun entry member current headed start => ⟨⟨headed, trivial⟩, rfl⟩) headed fun _ _ => rfl

/-- What the edits of an object's entries and the additions make of the object. -/
theorem grafts_object {olds news : List (String × Value)} (oldDistinct : IndexMap.Distinct olds)
    (newDistinct : IndexMap.Distinct news)
    (each : ∀ entry ∈ olds, ∀ new, IndexMap.get news entry.1 = some new → EditsGraft entry.2 new)
    (there : outline.below path = (Value.object olds).outline) :
    Grafts (entryEdits path news olds ++
        (news.filter fun item => (IndexMap.get olds item.1).isNone).map fun item => .add path (.key item.1) item.2)
      outline path (Value.object news).outline := by
  have old := fills_entryEdits oldDistinct each there
  have headed := old.container.trans (head_of_below there)
  have new := fills_added
    (newDistinct.sublist ((filter_sublist (p := fun item => (IndexMap.get olds item.1).isNone)).map Prod.fst)) headed
  refine ⟨enabledAll_append.mpr ⟨old.enabled, new.enabled⟩, ?_⟩
  rw [actEdits_append]
  refine eq_graft_of_children (new.container.trans headed) (fun step => ?_) fun place outside =>
    (new.away outside).trans (old.away outside)
  by_cases added : step ∈ (news.filter fun item => (IndexMap.get olds item.1).isNone).map fun entry => Step.key entry.1
  · obtain ⟨entry, member, rfl⟩ := mem_map.mp added
    rw [new.target entry member, Value.child, IndexMap.get_of_mem newDistinct (mem_of_mem_filter member), Value.outlineOf]
  rw [new.untouched added]
  by_cases known : step ∈ olds.map fun entry => Step.key entry.1
  · obtain ⟨entry, member, rfl⟩ := mem_map.mp known
    exact old.target entry member
  -- A key that neither object has, or an index.
  rw [old.untouched known, child_of_below there]
  cases step with
  | index index => rfl
  | key key =>
    have missing : IndexMap.get olds key = none := IndexMap.get_eq_none.mpr (by simpa using known)
    have absent : IndexMap.get news key = none := by
      rw [IndexMap.get_eq_none]
      intro member
      obtain ⟨entry, listed, rfl⟩ := mem_map.mp member
      exact added (mem_map.mpr ⟨entry, mem_filter.mpr ⟨listed, by simp [missing]⟩, rfl⟩)
    rw [Value.child, Value.child, missing, absent]

/-- Arrays with equal beginnings. -/
theorem outlineOf_of_itemsEq {olds news : List Value} {shared : Nat} (oldFormed : ∀ old ∈ olds, old.wellFormed = true)
    (newFormed : ∀ new ∈ news, new.wellFormed = true)
    (same : Value.itemsEq (olds.take shared) (news.take shared) = true) {index : Nat} (inside : index < shared) :
    Value.outlineOf olds[index]? = Value.outlineOf news[index]? := by
  have all := (itemsEq_iff fun old oldMember new newMember =>
    eq_iff_outline (oldFormed old (mem_of_mem_take oldMember)) (newFormed new (mem_of_mem_take newMember))).mp
      same index
  rwa [getElem?_take_of_lt inside, getElem?_take_of_lt inside] at all

theorem drop_zipIdx (items : List Value) (count start : Nat) :
    (items.zipIdx start).drop count = (items.drop count).zipIdx (start + count) := by
  induction items generalizing count start with
  | nil => simp
  | cons item items ih =>
    cases count with
    | zero => rfl
    | succ count => simp [zipIdx_cons, ih, Nat.add_assoc, Nat.add_comm 1]

theorem grafts_items {olds news : List Value} (lengths : olds.length = news.length)
    (each : ∀ old ∈ olds, ∀ new ∈ news, EditsGraft old new)
    (there : outline.below path = (Value.array olds).outline) :
    Grafts (itemEdits path 0 olds news) outline path (Value.array news).outline := by
  have listed : ∀ {item : (Value × Value) × Nat}, item ∈ (olds.zip news).zipIdx 0 ↔
      olds[item.2]? = some item.1.1 ∧ news[item.2]? = some item.1.2 := by
    intro item
    rw [mem_zipIdx_iff_getElem?, getElem?_zip_eq_some]
  have distinct : (((olds.zip news).zipIdx 0).map fun item => Step.index item.2).Nodup := by
    have indices : ((olds.zip news).zipIdx 0).map (fun item => Step.index item.2) =
        (((olds.zip news).zipIdx 0).map Prod.snd).map Step.index := by rw [map_map]; rfl
    rw [indices, zipIdx_map_snd]
    exact (nodup_range' 1).map fun left right same => by simpa using same
  have fills := fills_flatMap ((olds.zip news).zipIdx 0) (fun item => .index item.2)
    (fun item => edits (path ++ [.index item.2]) item.1.1 item.1.2) (fun item => item.1.1.outline)
    (fun item => item.1.2.outline) distinct
    (fun item member current _ start => each _ (mem_of_getElem? (listed.mp member).1) _
      (mem_of_getElem? (listed.mp member).2) start) (head_of_below there)
    (fun item member => by rw [child_of_below there, Value.child, (listed.mp member).1, Value.outlineOf])
  rw [← itemEdits_eq_flatMap] at fills
  refine ⟨fills.enabled, eq_graft_of_children ?_ (fun step => ?_) fun place => fills.away⟩
  · rw [fills.container, head_of_below there, Value.head, Value.head, lengths]
  by_cases touched : step ∈ ((olds.zip news).zipIdx 0).map fun item => Step.index item.2
  · obtain ⟨item, member, rfl⟩ := mem_map.mp touched
    rw [fills.target item member, Value.child, (listed.mp member).2, Value.outlineOf]
  rw [fills.untouched touched, child_of_below there]
  cases step with
  | key key => rfl
  | index index =>
    have outside : olds.length ≤ index := by
      by_contra inside
      have inside : index < olds.length := Nat.lt_of_not_le inside
      exact touched (mem_map.mpr ⟨((olds[index], news[index]), index), listed.mpr
        ⟨getElem?_eq_getElem inside, getElem?_eq_getElem (lengths ▸ inside)⟩, rfl⟩)
    rw [Value.child, Value.child, getElem?_eq_none outside, getElem?_eq_none (lengths ▸ outside)]

theorem grafts_array {olds news : List Value} (oldFormed : (Value.array olds).wellFormed = true)
    (newFormed : (Value.array news).wellFormed = true)
    (each : ∀ old ∈ olds, ∀ new ∈ news, EditsGraft old new)
    (there : outline.below path = (Value.array olds).outline) :
    Grafts (arrayEdits path olds news (itemEdits path 0 olds news)) outline path (Value.array news).outline := by
  obtain ⟨oldFits, oldEach⟩ := wellFormed_array.mp oldFormed
  obtain ⟨newFits, newEach⟩ := wellFormed_array.mp newFormed
  rw [arrayEdits]
  split_ifs with lengths appended truncated
  · exact grafts_items lengths each there
  · rw [Bool.and_eq_true, decide_eq_true_eq] at appended
    obtain ⟨same, longer⟩ := appended
    have result : (Value.array news).outline = (Value.array (olds ++ news.drop olds.length)).outline := by
      rw [outline_array_eq_iff]
      intro index
      by_cases inside : index < olds.length
      · rw [getElem?_append_left inside]
        exact (outlineOf_of_itemsEq oldEach newEach same (by omega)).symm
      · rw [getElem?_append_right (Nat.le_of_not_lt inside), getElem?_drop,
          Nat.add_sub_cancel' (Nat.le_of_not_lt inside)]
    have order : news.zipIdx.drop olds.length = (news.drop olds.length).zipIdx olds.length := by
      rw [drop_zipIdx, Nat.zero_add]
    rw [result, order]
    exact grafts_appended there (by rw [length_drop]; omega)
  · have shorter : news.length ≤ olds.length := by
      by_contra longer
      exact appended (by simp [truncated]; omega)
    have result : (Value.array news).outline = (Value.array (olds.take news.length)).outline := by
      rw [outline_array_eq_iff]
      intro index
      by_cases inside : index < news.length
      · rw [getElem?_take_of_lt inside]
        exact (outlineOf_of_itemsEq oldEach newEach truncated (by omega)).symm
      · rw [getElem?_eq_none (Nat.le_of_not_lt inside), getElem?_eq_none (by simp; omega)]
    have order : olds.zipIdx.drop news.length = (olds.drop news.length).zipIdx (olds.take news.length).length := by
      rw [drop_zipIdx, Nat.zero_add, length_take, Nat.min_eq_left shorter]
    rw [result, order]
    exact grafts_truncated (by rwa [take_append_drop])
  · exact grafts_replace there

/-- The edits between two documents put the second in the place of the first. -/
theorem edits_graft {old new : Value} (oldFormed : old.wellFormed = true) (newFormed : new.wellFormed = true)
    (there : outline.below path = old.outline) : Grafts (edits path old new) outline path new.outline := by
  induction old using Value.inductionOn generalizing path outline new with
    (unfold edits
     split_ifs with same
     · exact grafts_nil (there.trans ((eq_iff_outline oldFormed newFormed).mp same)))
  | array olds ih =>
    cases new with
    | array news =>
      exact grafts_array oldFormed newFormed (fun old oldMember new newMember _ _ => ih old oldMember
        ((wellFormed_array.mp oldFormed).2 old oldMember) ((wellFormed_array.mp newFormed).2 new newMember)) there
    | _ => exact grafts_replace there
  | object olds ih =>
    cases new with
    | object news =>
      obtain ⟨oldDistinct, oldEach⟩ := wellFormed_object.mp oldFormed
      obtain ⟨newDistinct, newEach⟩ := wellFormed_object.mp newFormed
      exact grafts_object oldDistinct newDistinct (fun entry member new found _ _ =>
        ih entry member (oldEach entry member) (newEach _ (IndexMap.mem_of_get found))) there
    | _ => exact grafts_replace there
  | _ => exact grafts_replace there

/-- The differ comes down a path from a pair of values to another pair. -/
inductive Reached : Value → Value → List Step → Value → Value → Prop where
  | here (old new : Value) : Reached old new [] old new
  | entry {olds news : List (String × Value)} {key : String} {old new oldEnd newEnd : Value} {path : List Step}
      (oldFound : IndexMap.get olds key = some old) (newFound : IndexMap.get news key = some new)
      (below : Reached old new path oldEnd newEnd) : Reached (.object olds) (.object news) (.key key :: path) oldEnd newEnd
  | item {olds news : List Value} {index : Nat} {old new oldEnd newEnd : Value} {path : List Step}
      (lengths : olds.length = news.length) (oldFound : olds[index]? = some old) (newFound : news[index]? = some new)
      (below : Reached old new path oldEnd newEnd) : Reached (.array olds) (.array news) (.index index :: path) oldEnd newEnd

/-- The edits made at a pair of values below a path. -/
inductive Emitted (path : List Step) : Value → Value → Edit → Prop where
  | replaced (old new : Value) : Emitted path old new (.replace path old new)
  | keyAdded (olds news : List (String × Value)) (key : String) (value : Value) (listed : (key, value) ∈ news) :
      Emitted path (.object olds) (.object news) (.add path (.key key) value)
  | keyRemoved (olds news : List (String × Value)) (key : String) (value : Value) :
      Emitted path (.object olds) (.object news) (.remove path (.key key) value)
  | itemAdded {olds news : List Value} {index : Nat} (value : Value) (first : olds.length ≤ index)
      (inside : index < news.length) (listed : value ∈ news) : Emitted path (.array olds) (.array news) (.add path (.index index) value)
  | itemRemoved {olds news : List Value} {index : Nat} (value : Value) (first : news.length ≤ index)
      (inside : index < olds.length) : Emitted path (.array olds) (.array news) (.remove path (.index index) value)

/-- Every edit of a diff is made at a pair of values that the differ comes to. -/
theorem exists_reached {old new : Value} (oldFormed : old.wellFormed = true) {path : List Step} {edit : Edit}
    (member : edit ∈ edits path old new) :
    ∃ rest oldEnd newEnd, Reached old new rest oldEnd newEnd ∧ Emitted (path ++ rest) oldEnd newEnd edit := by
  have atOnce : ∀ {old new : Value} {path : List Step} {edit : Edit}, Emitted path old new edit →
      ∃ rest oldEnd newEnd, Reached old new rest oldEnd newEnd ∧ Emitted (path ++ rest) oldEnd newEnd edit :=
    fun emitted => ⟨[], _, _, .here _ _, by rwa [append_nil]⟩
  have whole {old new : Value} {path : List Step} {edit : Edit} (member : edit ∈ [.replace path old new]) :=
    mem_singleton.mp member ▸ atOnce (.replaced old new)
  have indexed {items : List Value} {start : Nat} {item : Value × Nat} (listed : item ∈ items.zipIdx.drop start) :
      start ≤ item.2 ∧ item.2 < items.length ∧ item.1 ∈ items := by
    rw [drop_zipIdx] at listed
    have first := le_snd_of_mem_zipIdx listed
    have last := snd_lt_add_of_mem_zipIdx listed
    rw [length_drop] at last
    exact ⟨by omega, by omega, mem_of_mem_drop (fst_mem_of_mem_zipIdx listed)⟩
  induction old using Value.inductionOn generalizing path new with
    (unfold edits at member
     split_ifs at member
     · simp at member)
  | array olds ih =>
    cases new with
    | array news =>
      replace member : edit ∈ arrayEdits path olds news (itemEdits path 0 olds news) := member
      rw [arrayEdits] at member
      split_ifs at member with lengths appended truncated
      · rw [itemEdits_eq_flatMap] at member
        obtain ⟨item, listed, inside⟩ := mem_flatMap.mp member
        obtain ⟨oldFound, newFound⟩ := getElem?_zip_eq_some.mp (mem_zipIdx_iff_getElem?.mp listed)
        obtain ⟨rest, oldEnd, newEnd, reached, emitted⟩ := ih _ (mem_of_getElem? oldFound)
          ((wellFormed_array.mp oldFormed).2 _ (mem_of_getElem? oldFound)) inside
        exact ⟨.index item.2 :: rest, oldEnd, newEnd, .item lengths oldFound newFound reached, by simpa using emitted⟩
      · obtain ⟨item, listed, rfl⟩ := mem_map.mp member
        obtain ⟨first, last, added⟩ := indexed listed
        exact atOnce (.itemAdded item.1 first last added)
      · obtain ⟨item, listed, rfl⟩ := mem_map.mp member
        obtain ⟨first, last, -⟩ := indexed (mem_reverse.mp listed)
        exact atOnce (.itemRemoved item.1 first last)
      · exact whole member
    | _ => exact whole member
  | object olds ih =>
    cases new with
    | object news =>
      obtain ⟨distinct, each⟩ := wellFormed_object.mp oldFormed
      rcases mem_append.mp member with changed | added
      · rw [entryEdits_eq_flatMap] at changed
        obtain ⟨entry, listed, inside⟩ := mem_flatMap.mp changed
        cases found : IndexMap.get news entry.1 with
        | some new =>
          rw [found] at inside
          obtain ⟨rest, oldEnd, newEnd, reached, emitted⟩ := ih entry listed (each entry listed) inside
          exact ⟨.key entry.1 :: rest, oldEnd, newEnd, .entry (IndexMap.get_of_mem distinct listed) found reached, by
            simpa using emitted⟩
        | none =>
          rw [found] at inside
          rw [mem_singleton.mp inside]
          exact atOnce (.keyRemoved ..)
      · obtain ⟨entry, listed, rfl⟩ := mem_map.mp added
        exact atOnce (.keyAdded _ _ _ _ (mem_of_mem_filter listed))
    | _ => exact whole member
  | _ => exact whole member

theorem Reached.at? {old new oldEnd newEnd : Value} {path : List Step} (reached : Reached old new path oldEnd newEnd) :
    old.at? path = some oldEnd ∧ new.at? path = some newEnd := by
  induction reached with
  | here old new => exact ⟨rfl, rfl⟩
  | entry oldFound newFound below ih | item lengths oldFound newFound below ih =>
    rw [at?_cons, at?_cons, Value.child, Value.child, oldFound, newFound]
    exact ih

theorem edits_wellFormed {old new : Value} (oldFormed : old.wellFormed = true) (newFormed : new.wellFormed = true) :
    ∀ edit ∈ edits path old new, edit.WellFormed := by
  intro edit member
  obtain ⟨rest, oldEnd, newEnd, reached, emitted⟩ := exists_reached oldFormed member
  have endFormed : newEnd.wellFormed = true := wellFormed_at? newFormed reached.at?.2
  cases emitted with
  | replaced => exact endFormed
  | keyAdded _ _ _ _ listed => exact (wellFormed_object.mp endFormed).2 _ listed
  | itemAdded _ _ _ listed => exact (wellFormed_array.mp endFormed).2 _ listed
  | keyRemoved | itemRemoved => trivial

end Diff

/-! ## Applying the ops -/

section Applying

variable {format : Format} (pointers : addressing format = .pointer)

include pointers

theorem applyStructured_edits {edits : List Edit} {root : Value} (formed : root.wellFormed = true)
    (editsFormed : ∀ edit ∈ edits, edit.WellFormed) (enabled : EnabledEdits edits root.outline) :
    ∃ result, applyStructured format (edits.map (Edit.op .pointer)) root = .ok result ∧ result.wellFormed = true ∧
      result.outline = actEdits edits root.outline := by
  induction edits generalizing root with
  | nil => exact ⟨root, rfl, formed, rfl⟩
  | cons edit edits ih =>
    obtain ⟨here, later⟩ := forall_mem_cons.mp editsFormed
    obtain ⟨next, applied, nextFormed, outline⟩ := applyOp_edit pointers formed here enabled.1
    obtain ⟨result, rest, resultFormed, final⟩ := ih nextFormed later (outline ▸ enabled.2)
    refine ⟨result, ?_, resultFormed, ?_⟩
    · rw [map_cons, applyStructured_cons, applied]
      exact rest
    · rw [final, outline, actEdits_cons]

/-- The ops between two documents, applied to the first. -/
theorem applyStructured_diff {old new : Value} (oldFormed : old.wellFormed = true) (newFormed : new.wellFormed = true) :
    ∃ result, applyStructured format (diffValues .pointer [] old new) old = .ok result ∧ result.wellFormed = true ∧
      result.outline = new.outline := by
  have ops : diffValues .pointer ([].map Step.segment) old new = (edits [] old new).map (Edit.op .pointer) :=
    diffValues_eq_map
  have whole : old.outline.below [] = old.outline := rfl
  obtain ⟨enabled, grafted⟩ := edits_graft oldFormed newFormed whole
  obtain ⟨result, applied, formed, outline⟩ :=
    applyStructured_edits pointers oldFormed (edits_wellFormed oldFormed newFormed) enabled
  exact ⟨result, ops ▸ applied, formed, by rw [outline, grafted, graft_nil]⟩

/-- A diff applied to the old document gives the new one, and is empty exactly between equal documents. -/
theorem diff_apply_round_trip (old new : Document) :
    (∃ result, applyStructured format (diffValues (addressing format) [] old.value new.value) old.value = .ok result ∧
        result.eq new.value = true) ∧
      (diffValues (addressing format) [] old.value new.value = [] ↔ old.value.eq new.value = true) := by
  obtain ⟨result, applied, formed, outline⟩ := applyStructured_diff pointers old.wellFormed new.wellFormed
  rw [pointers]
  refine ⟨⟨result, applied, (eq_iff_outline formed new.wellFormed).mpr outline⟩, fun empty => ?_, fun same => ?_⟩
  · -- Nothing was applied, so the old document is the result.
    rw [empty] at applied
    obtain rfl : old.value = result := Except.ok.inj applied
    exact (eq_iff_outline old.wellFormed new.wellFormed).mpr outline
  · unfold diffValues
    rw [if_pos same]

end Applying

/-- A document with an empty key and keys that have to be escaped. -/
def oddKeys : Document where
  value := .object [("", .number (.posInt 1)), ("a/b", .array [.null, .null, .null]), ("~", .object [("0", .null)])]
  wellFormed := by decide

def oddKeysEdited : Document where
  value := .object [("~", .object [("0", .bool true), ("~1", .null)]), ("a/b", .array [.null]), ("7", .array [])]
  wellFormed := by decide

theorem oddKeys_round_trip :
    (∃ result, applyStructured .json (diffValues (addressing .json) [] oddKeys.value oddKeysEdited.value) oddKeys.value =
        .ok result ∧ result.eq oddKeysEdited.value = true) ∧
      (diffValues (addressing .json) [] oddKeys.value oddKeysEdited.value = [] ↔
        oddKeys.value.eq oddKeysEdited.value = true) :=
  diff_apply_round_trip rfl oddKeys oddKeysEdited

end Index.Delta
