import Index.AstMerge.Clash

/-! # The verdict of the structural merge

The engine calls a merge a success when the change set of the three trees has no structural conflict.  That
test sees where nodes stand, not what they say. -/

namespace Index.AstMerge

open Index.Lib List

/-! ## Structural conflicts -/

/-- The triples of a revision. -/
def ThreeWayTrees.triples (trees : ThreeWayTrees) : Revision → List PcsTriple
  | .base => pcsTriples trees.base
  | .left => pcsTriples trees.left
  | .right => pcsTriples trees.right

/-- Two nodes that the sides, and not the base, put at one place, not matched with each other. -/
def Misplaced (trees : ThreeWayTrees) (classes : ClassMapping) : Prop :=
  ∃ left ∈ trees.triples .left, ∃ right ∈ trees.triples .right,
    left ∉ trees.triples .base ∧ right ∉ trees.triples .base ∧
    left.parent = right.parent ∧ left.predecessor = right.predecessor ∧ left.successor ≠ right.successor ∧
    isConvergent classes left right = false ∧ isConvergent classes right left = false

/-- The change set lists the triples of the revisions. -/
structure ChangeSet.Lists (changeset : ChangeSet) (holds : Revision → PcsTriple → Prop) : Prop where
  listed : ∀ revision triple, holds revision triple → ∃ entry ∈ changeset, entry.1 = triple
  revisions : ∀ entry ∈ changeset, ∀ revision, revision ∈ entry.2 ↔ holds revision entry.1

variable {changeset : ChangeSet} {holds : Revision → PcsTriple → Prop}

theorem ChangeSet.Lists.add (lists : changeset.Lists holds) (revision : Revision) (triple : PcsTriple) :
    (ChangeSet.add revision changeset triple).Lists
      (fun other place => holds other place ∨ other = revision ∧ place = triple) := by
  unfold ChangeSet.add
  split_ifs with known
  · constructor
    · rintro other place (held | ⟨rfl, rfl⟩)
      · obtain ⟨entry, member, rfl⟩ := lists.listed _ _ held
        exact ⟨_, mem_map_of_mem member, by split_ifs <;> rfl⟩
      · obtain ⟨entry, member, same⟩ := any_eq_true.mp known
        exact ⟨_, mem_map_of_mem member, by rw [if_pos (of_decide_eq_true same)]; exact of_decide_eq_true same⟩
    · intro entry member other
      obtain ⟨old, oldMember, rfl⟩ := mem_map.mp member
      split_ifs with same
      · simp [lists.revisions old oldMember, same, or_comm]
      · simp [lists.revisions old oldMember, same]
  · have fresh : ∀ entry ∈ changeset, entry.1 ≠ triple :=
      fun entry member same => known (any_eq_true.mpr ⟨entry, member, decide_eq_true same⟩)
    constructor
    · rintro other place (held | ⟨rfl, rfl⟩)
      · obtain ⟨entry, member, rfl⟩ := lists.listed _ _ held
        exact ⟨entry, mem_append_left _ member, rfl⟩
      · exact ⟨_, mem_append_right _ (mem_singleton_self _), rfl⟩
    · intro entry member other
      rcases mem_append.mp member with old | new
      · simp [lists.revisions entry old, fresh entry old]
      · obtain rfl := mem_singleton.mp new
        have unheld : ¬ holds other triple := fun held =>
          have ⟨entry, member, same⟩ := lists.listed _ _ held
          fresh entry member same
        simp [unheld]

theorem ChangeSet.Lists.extract (lists : changeset.Lists holds) (tree : Tree) (revision : Revision) :
    (extractPcsTriples tree revision changeset).Lists
      (fun other place => holds other place ∨ other = revision ∧ place ∈ pcsTriples tree) := by
  unfold extractPcsTriples
  generalize pcsTriples tree = triples
  induction triples generalizing changeset holds with
  | nil => simpa using lists
  | cons triple triples ih =>
    have rest := ih (lists.add revision triple)
    simpa only [foldl_cons, mem_cons, or_assoc, and_or_left] using rest

theorem buildChangeset_lists (trees : ThreeWayTrees) :
    (buildChangeset trees).Lists (fun revision place => place ∈ trees.triples revision) := by
  have empty : ChangeSet.Lists [] (fun _ _ => False) := ⟨fun _ _ => False.elim, by simp⟩
  have all := ((empty.extract trees.base .base).extract trees.left .left).extract trees.right .right
  refine ⟨fun revision triple held => all.listed revision triple ?_,
    fun entry member revision => (all.revisions entry member revision).trans ?_⟩
  · cases revision <;> simp_all [ThreeWayTrees.triples]
  · cases revision <;> simp [ThreeWayTrees.triples]

variable {classes : ClassMapping}

theorem isConflict_symm {a b : PcsTriple × List Revision} (conflict : isConflict classes a b = true) :
    isConflict classes b a = true := by
  simp only [isConflict, Bool.and_eq_true, Bool.or_eq_true, decide_eq_true_eq, Bool.not_eq_true', Bool.or_eq_false_iff] at *
  obtain ⟨⟨differ, sides⟩, one, other⟩ := conflict
  exact ⟨⟨differ.symm, sides.symm.imp And.symm And.symm⟩, other, one⟩

theorem anyConflict_iff {entries : ChangeSet} :
    anyConflict classes entries = true ↔ ∃ a ∈ entries, ∃ b ∈ entries, isConflict classes a b = true := by
  induction entries with
  | nil => simp [anyConflict]
  | cons entry entries ih =>
    have irreflexive : isConflict classes entry entry = false := by simp [isConflict]
    simp only [anyConflict, Bool.or_eq_true, any_eq_true, ih, mem_cons]
    constructor
    · rintro (⟨b, member, conflict⟩ | ⟨a, aMember, b, bMember, conflict⟩)
      · exact ⟨entry, .inl rfl, b, .inr member, conflict⟩
      · exact ⟨a, .inr aMember, b, .inr bMember, conflict⟩
    · rintro ⟨a, rfl | aMember, b, rfl | bMember, conflict⟩
      · simp [irreflexive] at conflict
      · exact .inl ⟨b, bMember, conflict⟩
      · exact .inl ⟨a, aMember, isConflict_symm conflict⟩
      · exact .inr ⟨a, aMember, b, bMember, conflict⟩

theorem detectConflicts_eq_nil_iff (trees : ThreeWayTrees) (classes : ClassMapping) :
    detectConflicts (buildChangeset trees) classes = [] ↔ ¬ Misplaced trees classes := by
  have lists := buildChangeset_lists trees
  have only : ∀ entry ∈ buildChangeset trees, ∀ revision, isOnly revision entry = true ↔
      entry.1 ∈ trees.triples revision ∧ entry.1 ∉ trees.triples .base := by
    intro entry member revision
    simp [isOnly, lists.revisions entry member]
  rw [detectConflicts, ite_eq_right_iff, imp_iff_not (by simp), not_iff_not, any_eq_true]
  simp only [anyConflict_iff, byPosition, mem_filter, Bool.and_eq_true, decide_eq_true_eq, isConflict, Bool.or_eq_true,
    Bool.not_eq_true', Bool.or_eq_false_iff]
  constructor
  · rintro ⟨entry, -, a, ⟨aMember, aParent, aBefore⟩, b, ⟨bMember, bParent, bBefore⟩, ⟨differ, sides⟩, one, other⟩
    rw [only a aMember, only b bMember, only a aMember, only b bMember] at sides
    rcases sides with ⟨ofLeft, ofRight⟩ | ⟨ofRight, ofLeft⟩
    · exact ⟨a.1, ofLeft.1, b.1, ofRight.1, ofLeft.2, ofRight.2, aParent.trans bParent.symm, aBefore.trans bBefore.symm,
        differ, one, other⟩
    · exact ⟨b.1, ofLeft.1, a.1, ofRight.1, ofLeft.2, ofRight.2, bParent.trans aParent.symm, bBefore.trans aBefore.symm,
        Ne.symm differ, other, one⟩
  · rintro ⟨left, inLeft, right, inRight, leftNew, rightNew, parents, befores, differ, one, other⟩
    obtain ⟨a, aMember, rfl⟩ := lists.listed .left left inLeft
    obtain ⟨b, bMember, rfl⟩ := lists.listed .right right inRight
    exact ⟨a, aMember, a, ⟨aMember, rfl, rfl⟩, b, ⟨bMember, parents.symm, befores.symm⟩,
      ⟨differ, .inl ⟨(only a aMember .left).mpr ⟨inLeft, leftNew⟩, (only b bMember .right).mpr ⟨inRight, rightNew⟩⟩⟩, one, other⟩

/-! ## The verdict of the merge -/

section

variable {hasher : Hasher} {diff : Diff} {trees : ThreeWayTrees} {baseLeft baseRight : Matching} {outcome : MergeOutcome}

/-- A merge that returns reports success for a text without conflict blocks exactly if the sides put nodes
differently, which leaves the file to the line merge, or no item clashes with its namesakes.  A text with a
conflict block always goes out as a success. -/
theorem merge_success_unmarked_iff (merged : merge hasher diff trees baseLeft baseRight = some outcome) :
    ((outcome.result.success = true → outcome.marked = false) ↔
      Misplaced trees (buildClassMapping baseLeft baseRight) ∨
        ∀ left ∈ getTopLevelItems trees.left, ¬ ItemClash hasher diff trees (topLevel trees) left) ∧
    (outcome.marked = true → outcome.result.success = true ∧ HasBlock hasher diff trees outcome.result.content) := by
  unfold merge at merged
  split_ifs at merged with quiet
  · obtain ⟨text, reconciled, rfl⟩ := Option.map_eq_some_iff.mp merged
    have reports := reconstructMerged_reports reconciled
    rw [detectConflicts_eq_nil_iff] at quiet
    refine ⟨?_, fun marked => ⟨rfl, reports.block marked⟩⟩
    rw [or_iff_right quiet, ← Bool.not_eq_true, reports.marked]
    simp [Result.successful]
  · obtain ⟨result, -, rfl⟩ := Option.map_eq_some_iff.mp merged
    rw [detectConflicts_eq_nil_iff, not_not] at quiet
    simp [quiet]

end

/-! ## A constant changed on both sides -/

/-- The tree of `const A: i32 = d;` for a digit. -/
def constTree (digit : String) : Tree where
  source := "const A: i32 = " ++ digit ++ ";"
  rootNode := .node 0 "source_file" 0 17 false [(none, .node 1 "const_item" 0 17 false
    [(none, .node 2 "const" 0 5 false []), (some "name", .node 3 "identifier" 6 7 false []),
      (none, .node 4 ":" 7 8 false []), (some "type", .node 5 "primitive_type" 9 12 false []),
      (none, .node 6 "=" 13 14 false []), (some "value", .node 7 "integer_literal" 15 16 false []),
      (none, .node 8 ";" 16 17 false [])])]

/-- A polynomial hash of the characters written. -/
def polynomialHash : Hasher := fun texts =>
  texts.foldl (fun hash text => text.toList.foldl (fun hash char => hash * 131 + char.toNat) (hash * 131 + 1)) 0

def constTrees : ThreeWayTrees := ⟨constTree "1", constTree "2", constTree "3"⟩

theorem constTrees_merge (baseLeft baseRight : Matching) :
    merge polynomialHash (fun _ _ => []) constTrees baseLeft baseRight =
      some ⟨.successful (conflictText "const A: i32 = 2;" "const A: i32 = 1;" "const A: i32 = 3;" ++ "\n"), true⟩ := by
  have shape : constTrees.triples .left = constTrees.triples .base := by decide +kernel
  have quiet : ¬ Misplaced constTrees (buildClassMapping baseLeft baseRight) := by
    rintro ⟨left, inLeft, -, -, new, -⟩
    exact new (shape ▸ inLeft)
  rw [merge, if_pos ((detectConflicts_eq_nil_iff ..).mpr quiet)]
  decide +kernel

/-- Two sides that set a constant to different values merge with success into a file with a conflict block,
however the trees are matched. -/
theorem constant_changed_twice_succeeds :
    ∃ outcome, outcome.result.success = true ∧ outcome.marked = true ∧
      outcome.result.content = conflictText "const A: i32 = 2;" "const A: i32 = 1;" "const A: i32 = 3;" ++ "\n" ∧
      ∀ baseLeft baseRight, merge polynomialHash (fun _ _ => []) constTrees baseLeft baseRight = some outcome :=
  ⟨_, rfl, rfl, rfl, constTrees_merge⟩

def constOnce : ThreeWayTrees := ⟨constTree "1", constTree "1", constTree "3"⟩

/-- A constant changed on one side merges without a conflict block. -/
theorem constant_changed_once_unmarked :
    merge polynomialHash (fun _ _ => []) constOnce [] [] = some ⟨.successful "const A: i32 = 3;\n", false⟩ ∧
      (Misplaced constOnce (buildClassMapping [] []) ∨
        ∀ left ∈ getTopLevelItems constOnce.left,
          ¬ ItemClash polynomialHash (fun _ _ => []) constOnce (topLevel constOnce) left) :=
  have merged : merge polynomialHash (fun _ _ => []) constOnce [] [] = some ⟨.successful "const A: i32 = 3;\n", false⟩ := by
    decide +kernel
  ⟨merged, (merge_success_unmarked_iff merged).1.mp fun _ => rfl⟩

end Index.AstMerge
