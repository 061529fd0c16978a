import Index.AstMerge.Engine

/-! # Conflict blocks in a successful merge

Whether the structural merge writes a conflict block can be told from the trees: some left item, or child of
one, has its namesakes in the base and in the right side, the three hash differently, and they have no
bodies to merge.  The engine's own test for conflicts looks elsewhere, at the positions of the nodes. -/

namespace Index.AstMerge

open Index.Lib List

variable {hasher : Hasher} {diff : Diff} {trees : ThreeWayTrees}

/-! ## The recursion over nested nodes -/

variable {nodes : ThreeWayNodes}

theorem ThreeWayNodes.bodies_base {bodies : ThreeWayNodes} (found : nodes.bodies = some bodies) :
    nodes.base.childByFieldName "body" = some bodies.base := by
  obtain ⟨base, ofBase, rest⟩ := Option.bind_eq_some_iff.mp found
  obtain ⟨left, -, rest⟩ := Option.bind_eq_some_iff.mp rest
  obtain ⟨right, -, rest⟩ := Option.bind_eq_some_iff.mp rest
  obtain rfl := Option.some.inj rest
  exact ofBase

variable {name : String}

theorem height_of_namesake {bodies : ThreeWayNodes} {entry : IndexedNode} (found : nodes.bodies = some bodies)
    (namesake : buildNameMap trees.base (getMeaningful bodies.base) name = some entry) :
    entry.node.height < nodes.base.height := by
  have child : entry.node ∈ bodies.base.children :=
    mem_of_mem_filter (mem_of_getElem? (mem_of_buildNameMap namesake).1)
  exact (Node.height_child child).trans (Node.height_childByFieldName (ThreeWayNodes.bodies_base found))

variable {single : Single} {children : ThreeWayItems}

theorem reconcileChildren_congr {other : Single}
    (agree : ∀ name entry left right, buildNameMap trees.base children.base name = some entry →
      single ⟨entry.node, left, right⟩ = other ⟨entry.node, left, right⟩) :
    reconcileChildren hasher trees single children = reconcileChildren hasher trees other children := by
  have step : reconcileChild hasher trees single (buildNameMap trees.base children.base)
      (buildNameMap trees.right children.right) children.right =
      reconcileChild hasher trees other (buildNameMap trees.base children.base)
        (buildNameMap trees.right children.right) children.right := by
    funext state leftChild
    unfold reconcileChild
    cases getName trees.left leftChild with
    | none => rfl
    | some name =>
      simp only [reconcileNamedChild]
      cases inBase : buildNameMap trees.base children.base name with
      | none => cases buildNameMap trees.right children.right name <;> rfl
      | some baseEntry =>
        cases buildNameMap trees.right children.right name with
        | none => rfl
        | some rightEntry => simp only [agree name baseEntry leftChild rightEntry.node inBase]
  simp only [reconcileChildren, step]

theorem reconcileSingleWith_congr {other : Single}
    (agree : ∀ nested : ThreeWayNodes, nested.base.height < nodes.base.height → single nested = other nested) :
    reconcileSingleWith hasher diff trees single nodes = reconcileSingleWith hasher diff trees other nodes := by
  have bodies : tryReconcile hasher trees single nodes = tryReconcile hasher trees other nodes := by
    unfold tryReconcile
    cases found : nodes.bodies with
    | none => rfl
    | some bodies =>
      have children : reconcileChildren hasher trees single
            ⟨getMeaningful bodies.base, getMeaningful bodies.left, getMeaningful bodies.right⟩ =
          reconcileChildren hasher trees other
            ⟨getMeaningful bodies.base, getMeaningful bodies.left, getMeaningful bodies.right⟩ :=
        reconcileChildren_congr fun name entry left right namesake => agree _ (height_of_namesake found namesake)
      simp only [children]
  simp only [reconcileSingleWith, tryBodies, bodies]

variable {depth : Nat}

theorem reconcileUpTo_stable (deep : nodes.base.height ≤ depth) :
    reconcileUpTo hasher diff trees (depth + 1) nodes = reconcileUpTo hasher diff trees depth nodes := by
  induction depth generalizing nodes with
  | zero =>
    have positive : 0 < nodes.base.height := by cases nodes.base; simp [Node.height]
    omega
  | succ depth ih =>
    exact reconcileSingleWith_congr fun nested lower => ih (by omega)

theorem reconcileUpTo_eq (deep : nodes.base.height ≤ depth) :
    reconcileUpTo hasher diff trees depth nodes = reconcileSingle hasher diff trees nodes := by
  induction depth, deep using Nat.le_induction with
  | base => rfl
  | succ depth deep ih => rw [reconcileUpTo_stable deep, ih]

/-- `reconcile_single` is the recursion of the source: its bound is never reached. -/
theorem reconcileSingle_eq (nodes : ThreeWayNodes) :
    reconcileSingle hasher diff trees nodes =
      reconcileSingleWith hasher diff trees (reconcileSingle hasher diff trees) nodes := by
  rw [← reconcileUpTo_eq (Nat.le_succ nodes.base.height), reconcileUpTo]
  exact reconcileSingleWith_congr fun nested lower => reconcileUpTo_eq lower.le

/-! ## Clashing nodes -/

section

variable (hasher : Hasher) (diff : Diff) (trees : ThreeWayTrees)

/-- Three nodes that hash differently. -/
structure Differ (nodes : ThreeWayNodes) : Prop where
  sides : trees.left.compute hasher nodes.left ≠ trees.right.compute hasher nodes.right
  left : trees.left.compute hasher nodes.left ≠ trees.base.compute hasher nodes.base
  right : trees.right.compute hasher nodes.right ≠ trees.base.compute hasher nodes.base

/-- Nodes with no bodies to merge: containers and functions that lack one, functions whose lines conflict,
and every other kind of node. -/
def Unmergeable (nodes : ThreeWayNodes) : Prop :=
  if nodes.base.kind ∈ containerKinds then nodes.bodies = none
  else if nodes.base.kind = "function_item" then
    ∀ bodies, nodes.bodies = some bodies → (mergeBodies diff trees bodies).hasConflict = true
  else True

/-- The node and its namesakes in the base and in the right side. -/
structure Namesakes (items : ThreeWayItems) (nodes : ThreeWayNodes) : Prop where
  listed : nodes.left ∈ items.left
  named : ∃ name, getName trees.left nodes.left = some name ∧
    (buildNameMap trees.base items.base name).map IndexedNode.node = some nodes.base ∧
    (buildNameMap trees.right items.right name).map IndexedNode.node = some nodes.right

/-- Nodes that both sides changed and that cannot be merged, or whose children clash. -/
inductive Clash : ThreeWayNodes → Prop
  | unmerged {nodes : ThreeWayNodes} (differ : Differ hasher trees nodes) (unmergeable : Unmergeable diff trees nodes) :
    Clash nodes
  | nested {nodes bodies children : ThreeWayNodes} (differ : Differ hasher trees nodes)
    (container : nodes.base.kind ∈ containerKinds) (found : nodes.bodies = some bodies)
    (namesakes : Namesakes trees ⟨getMeaningful bodies.base, getMeaningful bodies.left, getMeaningful bodies.right⟩ children)
    (clash : Clash children) : Clash nodes

/-- A text that holds the conflict block of clashing nodes. -/
def HasBlock (text : String) : Prop :=
  ∃ nodes, Clash hasher diff trees nodes ∧
    (conflictText (trees.left.nodeText nodes.left) (trees.base.nodeText nodes.base)
      (trees.right.nodeText nodes.right)).toList <:+: text.toList

/-- A merged text is marked exactly if a condition holds, and then it holds a conflict block. -/
structure Reports (clash : Prop) (merged : Merged) : Prop where
  marked : merged.marked = true ↔ clash
  block : merged.marked = true → HasBlock hasher diff trees merged.text

end

theorem Clash.differ (clash : Clash hasher diff trees nodes) : Differ hasher trees nodes := by
  cases clash <;> assumption

variable {text : String}

theorem Reports.plain {clash : Prop} (none : ¬ clash) : Reports hasher diff trees clash (.plain text) :=
  ⟨by simp [Merged.plain, none], by simp [Merged.plain]⟩

/-! ## Blocks survive the rebuilding of a body -/

theorem infix_dropWhile {p : Char → Bool} {block text : List Char} (inside : block <:+: text)
    (keeps : ∀ char ∈ block.head?, p char = false) (nonempty : block ≠ []) : block <:+: text.dropWhile p := by
  obtain ⟨before, after, rfl⟩ := inside
  obtain ⟨first, rest, rfl⟩ := exists_cons_of_ne_nil nonempty
  have kept : p first = false := keeps first rfl
  induction before with
  | nil => exact ⟨[], after, by simp [kept]⟩
  | cons char before ih =>
    by_cases dropped : p char = true
    · simpa [dropped] using ih
    · exact ⟨char :: before, after, by simp [dropped]⟩

theorem infix_trim {block : String} (inside : block.toList <:+: text.toList)
    (first : ∀ char ∈ block.toList.head?, isWhitespace char = false)
    (last : ∀ char ∈ block.toList.getLast?, isWhitespace char = false) (nonempty : block.toList ≠ []) :
    block.toList <:+: (trim text).toList := by
  have front := infix_dropWhile inside first nonempty
  have back := infix_dropWhile ( reverse_infix.mpr front) (by simpa using last) (by simpa using nonempty)
  simpa [trim, trimMatches] using reverse_infix.mpr back

theorem infix_join {block : List Char} {texts : List String} (member : text ∈ texts) (inside : block <:+: text.toList) :
    block <:+: (String.join texts).toList := by
  have whole : text.toList <:+: (texts.map String.toList).flatten :=
    infix_of_mem_flatten (mem_map_of_mem member)
  rw [String.toList_join, flatMap_def]
  exact inside.trans whole

theorem conflictText_ends (left base right : String) :
    ∃ middle, (conflictText left base right).toList = '<' :: middle ++ ['T'] := by
  have opening : "<<<<<<< LEFT\n".toList = '<' :: "<<<<<< LEFT\n".toList := by decide
  have closing : "\n>>>>>>> RIGHT".toList = "\n>>>>>>> RIGH".toList ++ ['T'] := by decide
  unfold conflictText
  simp only [String.toList_append, opening, closing]
  generalize "<<<<<< LEFT\n".toList = opening
  generalize "\n>>>>>>> RIGH".toList = closing
  generalize "\n||||||| BASE\n".toList = ofBase
  generalize "\n=======\n".toList = ofRight
  exact ⟨opening ++ left.toList ++ ofBase ++ base.toList ++ ofRight ++ right.toList ++ closing, by simp⟩

theorem HasBlock.trim (block : HasBlock hasher diff trees text) : HasBlock hasher diff trees (trim text) := by
  obtain ⟨nodes, clash, inside⟩ := block
  obtain ⟨middle, ends⟩ := conflictText_ends (trees.left.nodeText nodes.left) (trees.base.nodeText nodes.base)
    (trees.right.nodeText nodes.right)
  refine ⟨nodes, clash, infix_trim inside ?_ ?_ ?_⟩
  · rw [ends]
    rintro _ ⟨⟩
    decide
  · rw [ends, getLast?_concat]
    rintro _ ⟨⟩
    decide
  · simp [ends]

theorem HasBlock.within {whole : String} (block : HasBlock hasher diff trees text) (inside : text.toList <:+: whole.toList) :
    HasBlock hasher diff trees whole := by
  obtain ⟨nodes, clash, part⟩ := block
  exact ⟨nodes, clash, part.trans inside⟩

theorem reconstructBody_marked {leftNode leftBody baseNode : Node} {children : List Merged} {whole : Merged}
    (rebuilt : reconstructBody trees leftNode leftBody baseNode children = some whole) :
    whole.marked = children.any Merged.marked ∧
      ∀ child ∈ children, (trim child.text).toList <:+: whole.text.toList := by
  obtain ⟨⟨before, after⟩, -, rebuilt⟩ := Option.bind_eq_some_iff.mp rebuilt
  generalize delimiters trees.left leftBody = marks at rebuilt
  generalize needsCommas baseNode = commas at rebuilt
  obtain rfl := Option.some.inj rebuilt
  refine ⟨rfl, fun child member => ?_⟩
  have line : (trim child.text).toList <:+: (childLine commas child.text).toList := by
    rw [childLine, String.toList_append, String.toList_append, String.toList_append, append_assoc]
    exact infix_append ..
  have joined : (trim child.text).toList <:+:
      (String.join (children.map fun child => childLine commas child.text)).toList :=
    infix_join (mem_map.mpr ⟨child, member, rfl⟩) line
  refine joined.trans ?_
  exact ⟨before.toList ++ marks.1.toList ++ "\n".toList, marks.2.toList ++ after.toList, by simp⟩

/-- Outputs that report what became of the items they were pushed for, and others that hold no block. -/
theorem Reports.gather {α : Type*} {clashes : α → Prop} {items : List α} {merged added : List Merged}
    (each : List.Forall₂ (fun item => Reports hasher diff trees (clashes item)) items merged)
    (quiet : ∀ extra ∈ added, extra.marked = false) :
    ((merged ++ added).any Merged.marked = true ↔ ∃ item ∈ items, clashes item) ∧
      ∀ output ∈ merged ++ added, output.marked = true → HasBlock hasher diff trees output.text := by
  have unmarked : added.any Merged.marked = false := by simpa using quiet
  constructor
  · rw [any_append, unmarked, Bool.or_false]
    induction each with
    | nil => simp
    | cons reports _ ih => simp [reports.marked, ih]
  · intro output member marked
    rcases mem_append.mp member with pushed | extra
    · obtain ⟨item, -, reports⟩ := exists_image_of_mem each.flip pushed
      exact reports.block marked
    · simp [quiet output extra] at marked

/-! ## What the merge reports -/

/-- A left node whose namesakes among the items clash with it. -/
def ItemClash (hasher : Hasher) (diff : Diff) (trees : ThreeWayTrees) (items : ThreeWayItems) (left : Node) : Prop :=
  ∃ nodes : ThreeWayNodes, nodes.left = left ∧ Namesakes trees items nodes ∧ Clash hasher diff trees nodes

variable {items : ThreeWayItems} {left : Node}

theorem itemClash_iff {baseEntry rightEntry : IndexedNode} (listed : left ∈ items.left)
    (named : getName trees.left left = some name) (inBase : buildNameMap trees.base items.base name = some baseEntry)
    (inRight : buildNameMap trees.right items.right name = some rightEntry) :
    ItemClash hasher diff trees items left ↔ Clash hasher diff trees ⟨baseEntry.node, left, rightEntry.node⟩ := by
  constructor
  · rintro ⟨⟨base, _, right⟩, rfl, ⟨-, other, same, ofBase, ofRight⟩, clash⟩
    obtain rfl : name = other := Option.some.inj (named.symm.trans same)
    simp only [inBase, inRight, Option.map_some, Option.some.injEq] at ofBase ofRight
    rw [ofBase, ofRight]
    exact clash
  · exact fun clash => ⟨_, rfl, ⟨listed, name, named, by simp [inBase], by simp [inRight]⟩, clash⟩

/-- Without a name, or without both namesakes, nothing can clash. -/
theorem not_itemClash
    (missing : ∀ name baseEntry rightEntry, getName trees.left left = some name →
      buildNameMap trees.base items.base name = some baseEntry → buildNameMap trees.right items.right name ≠ some rightEntry) :
    ¬ ItemClash hasher diff trees items left := by
  rintro ⟨nodes, rfl, ⟨-, name, named, ofBase, ofRight⟩, -⟩
  obtain ⟨baseEntry, inBase, -⟩ := Option.map_eq_some_iff.mp ofBase
  obtain ⟨rightEntry, inRight, -⟩ := Option.map_eq_some_iff.mp ofRight
  exact missing name baseEntry rightEntry named inBase inRight

section Children

variable (reports : ∀ name entry left right, buildNameMap trees.base children.base name = some entry →
  ∀ merged, single ⟨entry.node, left, right⟩ = some merged →
    Reports hasher diff trees (Clash hasher diff trees ⟨entry.node, left, right⟩) merged)
include reports

theorem reconcileChild_reports {leftChild : Node} {state next : ChildState} (listed : leftChild ∈ children.left)
    (stepped : reconcileChild hasher trees single (buildNameMap trees.base children.base)
      (buildNameMap trees.right children.right) children.right state leftChild = some next) :
    ∃ merged, next.mergedChildren = state.mergedChildren ++ [merged] ∧
      Reports hasher diff trees (ItemClash hasher diff trees children leftChild) merged := by
  unfold reconcileChild at stepped
  split at stepped
  next name named =>
    unfold reconcileNamedChild at stepped
    split at stepped
    next baseEntry rightEntry inBase inRight =>
      rw [itemClash_iff listed named inBase inRight]
      simp only at stepped
      split_ifs at stepped with sides left right
      · cases stepped
        exact ⟨_, rfl, .plain fun clash => clash.differ.sides sides⟩
      · cases stepped
        exact ⟨_, rfl, .plain fun clash => clash.differ.left left⟩
      · cases stepped
        exact ⟨_, rfl, .plain fun clash => clash.differ.right right⟩
      · obtain ⟨merged, reconciled, rfl⟩ := Option.map_eq_some_iff.mp stepped
        exact ⟨merged, rfl, reports name baseEntry _ rightEntry.node inBase merged reconciled⟩
    all_goals
      cases stepped
      exact ⟨_, rfl, .plain (not_itemClash (by grind))⟩
  next named =>
    cases stepped
    exact ⟨_, rfl, .plain (not_itemClash (by simp [named]))⟩

theorem reconcileChildren_reports {merged : List Merged}
    (reconciled : reconcileChildren hasher trees single children = some merged) :
    (merged.any Merged.marked = true ↔ ∃ left ∈ children.left, ItemClash hasher diff trees children left) ∧
      ∀ output ∈ merged, output.marked = true → HasBlock hasher diff trees output.text := by
  obtain ⟨state, folded, collected⟩ := Option.bind_eq_some_iff.mp reconciled
  obtain rfl := Option.some.inj collected
  obtain ⟨pushed, appended, each⟩ := foldlM_pushes ChildState.mergedChildren
    (fun left listed state next stepped => reconcileChild_reports reports listed stepped) folded
  rw [appended, nil_append]
  exact Reports.gather each (forall_mem_map.mpr fun _ _ => rfl)

end Children

variable {merged : Merged}

section Bodies

variable (differ : Differ hasher trees nodes)
  (reports : ∀ nested : ThreeWayNodes, nested.base.height < nodes.base.height → ∀ merged, single nested = some merged →
    Reports hasher diff trees (Clash hasher diff trees nested) merged)
include differ reports

theorem tryReconcile_reports (container : nodes.base.kind ∈ containerKinds)
    (reconciled : tryReconcile hasher trees single nodes = some (some merged)) :
    Reports hasher diff trees (Clash hasher diff trees nodes) merged := by
  unfold tryReconcile at reconciled
  split at reconciled
  · cases reconciled
  next bodies found =>
    obtain ⟨children, ofChildren, rest⟩ := Option.bind_eq_some_iff.mp reconciled
    obtain ⟨whole, rebuilt, same⟩ := Option.bind_eq_some_iff.mp rest
    obtain rfl : whole = merged := Option.some.inj (Option.some.inj same)
    obtain ⟨any, blocks⟩ := reconcileChildren_reports
      (fun name entry left right namesake => reports _ (height_of_namesake found namesake)) ofChildren
    obtain ⟨marked, inside⟩ := reconstructBody_marked rebuilt
    rw [← marked] at any
    refine ⟨any.trans ⟨?_, fun clash => ?_⟩, fun isMarked => ?_⟩
    · rintro ⟨left, -, nested, -, namesakes, clash⟩
      exact .nested differ container found namesakes clash
    · cases clash with
      | unmerged _ unmergeable => simp [Unmergeable, container, found] at unmergeable
      | nested _ _ other namesakes clash =>
        obtain rfl := Option.some.inj (found.symm.trans other)
        exact ⟨_, namesakes.listed, _, rfl, namesakes, clash⟩
    · rw [marked] at isMarked
      obtain ⟨child, member, childMarked⟩ := any_eq_true.mp isMarked
      exact (blocks child member childMarked).trim.within (inside child member)

omit differ reports in
theorem tryReconcileFunction_iff {merged : Option String} (reconciled : tryReconcileFunction diff trees nodes = some merged) :
    merged = none ↔ ∀ bodies, nodes.bodies = some bodies → (mergeBodies diff trees bodies).hasConflict = true := by
  unfold tryReconcileFunction at reconciled
  cases found : nodes.bodies with
  | none =>
    rw [found] at reconciled
    simp [← Option.some.inj reconciled]
  | some bodies =>
    simp only [found] at reconciled
    by_cases conflict : (mergeBodies diff trees bodies).hasConflict = true
    · rw [if_pos conflict] at reconciled
      simp [← Option.some.inj reconciled, conflict]
    · rw [if_neg conflict] at reconciled
      obtain ⟨around, -, rest⟩ := Option.bind_eq_some_iff.mp reconciled
      simp [← Option.some.inj rest, conflict]

theorem tryBodies_reports (reconciled : tryBodies hasher diff trees single nodes = some (some merged)) :
    Reports hasher diff trees (Clash hasher diff trees nodes) merged := by
  unfold tryBodies at reconciled
  split_ifs at reconciled with container function
  · exact tryReconcile_reports differ reports container reconciled
  · obtain ⟨result, ofFunction, mapped⟩ := Option.map_eq_some_iff.mp reconciled
    obtain ⟨text, rfl, rfl⟩ := Option.map_eq_some_iff.mp mapped
    refine .plain fun clash => ?_
    cases clash with
    | unmerged _ unmergeable =>
      rw [Unmergeable, if_neg container, if_pos function, ← tryReconcileFunction_iff ofFunction] at unmergeable
      simp at unmergeable
    | nested _ isContainer => exact container isContainer
  · simp at reconciled

end Bodies

theorem tryBodies_unmergeable (reconciled : tryBodies hasher diff trees single nodes = some none) :
    Unmergeable diff trees nodes := by
  unfold tryBodies at reconciled
  unfold Unmergeable
  split_ifs at reconciled ⊢ with container function
  · unfold tryReconcile at reconciled
    cases found : nodes.bodies with
    | none => rfl
    | some bodies =>
      rw [found] at reconciled
      obtain ⟨children, -, rest⟩ := Option.bind_eq_some_iff.mp reconciled
      obtain ⟨whole, -, same⟩ := Option.bind_eq_some_iff.mp rest
      simp at same
  · obtain ⟨result, ofFunction, mapped⟩ := Option.map_eq_some_iff.mp reconciled
    exact (tryReconcileFunction_iff ofFunction).mp (by simpa using mapped)

theorem reconcileSingle_reports (reconciled : reconcileSingle hasher diff trees nodes = some merged) :
    Reports hasher diff trees (Clash hasher diff trees nodes) merged := by
  -- the nested nodes are lower in the base
  induction height : nodes.base.height using Nat.strong_induction_on generalizing nodes merged with
  | _ bound ih =>
  subst height
  rw [reconcileSingle_eq] at reconciled
  unfold reconcileSingleWith at reconciled
  simp only at reconciled
  split_ifs at reconciled with sides left right
  · cases reconciled
    exact .plain fun clash => clash.differ.sides sides
  · cases reconciled
    exact .plain fun clash => clash.differ.left left
  · cases reconciled
    exact .plain fun clash => clash.differ.right right
  have differ : Differ hasher trees nodes := ⟨sides, left, right⟩
  split at reconciled <;> cases reconciled
  next bodies =>
    exact tryBodies_reports differ (fun nested lower merged nestedReconciled => ih _ lower nestedReconciled rfl) bodies
  next bodies =>
    have clash : Clash hasher diff trees nodes := .unmerged differ (tryBodies_unmergeable bodies)
    exact ⟨by simp [clash], fun _ => ⟨nodes, clash, infix_rfl⟩⟩

theorem reconcileItem_reports {leftItem : Node} {state next : ItemState} (listed : leftItem ∈ items.left)
    {baseHashes : Nat → Option Nat}
    (stepped : reconcileItem hasher diff trees (buildNameMap trees.base items.base) (buildNameMap trees.right items.right)
      baseHashes items.right state leftItem = some next) :
    ∃ merged, (next.mergedItems.map Resolved.merged) = state.mergedItems.map Resolved.merged ++ [merged] ∧
      Reports hasher diff trees (ItemClash hasher diff trees items leftItem) merged := by
  unfold reconcileItem at stepped
  split at stepped
  next name named =>
    unfold reconcileNamed at stepped
    split at stepped
    next baseEntry rightEntry inBase inRight =>
      rw [itemClash_iff listed named inBase inRight]
      obtain ⟨merged, reconciled, rfl⟩ := Option.map_eq_some_iff.mp stepped
      exact ⟨merged, map_append .., reconcileSingle_reports reconciled⟩
    all_goals
      cases stepped
      exact ⟨_, map_append .., .plain (not_itemClash (by grind))⟩
  next named =>
    have none : ¬ ItemClash hasher diff trees items leftItem := not_itemClash (by simp [named])
    simp only [reconcileUnnamed, Option.some.injEq] at stepped
    subst stepped
    -- In every case the text of one of the nodes is pushed.
    repeat' split
    all_goals exact ⟨_, map_append .., .plain none⟩

theorem insertNew_perm (merged added : List Resolved) : (insertNew merged added).Perm (merged ++ added) := by
  induction added generalizing merged with
  | nil => simp [insertNew]
  | cons item added ih =>
    have within : insertPos merged item ≤ merged.length := by
      unfold insertPos
      split
      · cases found : merged.findIdx? fun other => other.kind ≠ item.kind with
        | none => simp
        | some index => exact (findIdx?_eq_some_iff_getElem.mp found).1.le
      · split
        · exact le_rfl
        · rename_i found
          exact (findIdx?_eq_some_iff_getElem.mp found).1
    have placed : (merged.insertIdx (insertPos merged item) item).Perm (item :: merged) :=
      perm_insertIdx item merged within
    exact (ih _).trans ((placed.append_right added).trans perm_middle.symm)

theorem newItems_unmarked (hasher : Hasher) (trees : ThreeWayTrees) (items : ThreeWayItems) (handledRight : IndexSet) :
    ∀ extra ∈ (newItems hasher trees items handledRight).map Resolved.merged, extra.marked = false :=
  forall_mem_map.mpr (forall_mem_map.mpr fun _ _ => rfl)

theorem reconcileItems_reports {merged : List Resolved} (reconciled : reconcileItems hasher diff trees items = some merged) :
    (merged.any (fun item => item.merged.marked) = true ↔ ∃ left ∈ items.left, ItemClash hasher diff trees items left) ∧
      ∀ item ∈ merged, item.merged.marked = true → HasBlock hasher diff trees item.merged.text := by
  obtain ⟨state, folded, inserted⟩ := Option.bind_eq_some_iff.mp reconciled
  obtain rfl := Option.some.inj inserted
  obtain ⟨pushed, appended, each⟩ := foldlM_pushes (fun state : ItemState => state.mergedItems.map Resolved.merged)
    (fun left listed state next stepped => reconcileItem_reports listed stepped) folded
  obtain ⟨any, blocks⟩ := Reports.gather each (newItems_unmarked hasher trees items state.handledRight)
  have outputs : pushed ++ (newItems hasher trees items state.handledRight).map Resolved.merged =
      (state.mergedItems ++ newItems hasher trees items state.handledRight).map Resolved.merged := by
    simpa using appended.symm
  rw [outputs] at any blocks
  have same := insertNew_perm state.mergedItems (newItems hasher trees items state.handledRight)
  constructor
  · rw [← any, any_map, any_eq_true, any_eq_true]
    exact exists_congr fun item => and_congr_left' same.mem_iff
  · exact fun item member => blocks item.merged (mem_map_of_mem (same.mem_iff.mp member))

theorem reconstructMerged_reports (reconciled : reconstructMerged hasher diff trees = some merged) :
    Reports hasher diff trees (∃ left ∈ getTopLevelItems trees.left, ItemClash hasher diff trees (topLevel trees) left)
      merged := by
  obtain ⟨items, ofItems, rfl⟩ := Option.map_eq_some_iff.mp reconciled
  obtain ⟨any, blocks⟩ := reconcileItems_reports ofItems
  refine ⟨any, fun marked => ?_⟩
  obtain ⟨item, member, itemMarked⟩ := any_eq_true.mp marked
  refine (blocks item member itemMarked).within (infix_join (mem_map.mpr ⟨item, member, rfl⟩) ?_)
  simp only [String.toList_append]
  exact (prefix_append ..).isInfix

end Index.AstMerge
