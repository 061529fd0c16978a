import Index.AstMerge.Diff3

/-! # The merge of function bodies applies both scripts at once

`inner` deletes every base line that either side deletes and inserts at each base index what either side
inserts there.  Cut along the chunks of the diff3 merge, its text is that of the chunks with both
scripts applied at once. -/

namespace Index.AstMerge

open Index.Lib Function List

/-! ## Whole edit scripts -/

/-- The operations of a diff cover both texts without a gap, and the equal ones pair equal lines. -/
inductive Edits (base side : List String) : Nat → Nat → List DiffOp → Prop
  | done : Edits base side base.length side.length []
  | op {op : DiffOp} {rest : List DiffOp} (baseInside : op.oldRange.stop ≤ base.length)
      (sideInside : op.newRange.stop ≤ side.length)
      (same : op.isEqual = true → (base.drop op.oldRange.start).take (op.oldRange.stop - op.oldRange.start) =
        (side.drop op.newRange.start).take (op.newRange.stop - op.newRange.start))
      (later : Edits base side op.oldRange.stop op.newRange.stop rest) :
      Edits base side op.oldRange.start op.newRange.start (op :: rest)

/-- Decides `Edits`. -/
def checkEdits (base side : List String) : Nat → Nat → List DiffOp → Bool
  | basePos, sidePos, [] => basePos = base.length ∧ sidePos = side.length
  | basePos, sidePos, op :: rest =>
    decide (op.oldRange.start = basePos ∧ op.newRange.start = sidePos ∧ op.oldRange.stop ≤ base.length ∧
      op.newRange.stop ≤ side.length ∧ (op.isEqual = true →
        (base.drop op.oldRange.start).take (op.oldRange.stop - op.oldRange.start) =
          (side.drop op.newRange.start).take (op.newRange.stop - op.newRange.start))) &&
      checkEdits base side op.oldRange.stop op.newRange.stop rest

theorem Edits.of_check {base side : List String} {basePos sidePos : Nat} {ops : List DiffOp}
    (checked : checkEdits base side basePos sidePos ops = true) : Edits base side basePos sidePos ops := by
  induction ops generalizing basePos sidePos with
  | nil =>
    obtain ⟨rfl, rfl⟩ := of_decide_eq_true checked
    exact .done
  | cons op rest ih =>
    rw [checkEdits, Bool.and_eq_true] at checked
    obtain ⟨rfl, rfl, baseInside, sideInside, same⟩ := of_decide_eq_true checked.1
    exact .op baseInside sideInside same (ih checked.2)

def hunksOf (ops : List DiffOp) : List Hunk :=
  (ops.filter fun op => !op.isEqual).map fun op => ⟨op.oldRange, op.newRange⟩

theorem DiffOp.oldRange_ordered (op : DiffOp) : op.oldRange.start ≤ op.oldRange.stop := by
  cases op <;> simp [oldRange]

theorem DiffOp.newRange_ordered (op : DiffOp) : op.newRange.start ≤ op.newRange.stop := by
  cases op <;> simp [newRange]

variable {base side : List String} {basePos sidePos : Nat} {ops : List DiffOp}

/-- Equal lines before a script belong to it. -/
theorem Script.extend {hunks : List Hunk} {length : Nat} (script : Script base side (basePos + length) (sidePos + length) hunks)
    (same : (base.drop basePos).take length = (side.drop sidePos).take length) : Script base side basePos sidePos hunks := by
  cases script with
  | done baseInside sideInside agree =>
    refine .done (by omega) (by omega) ?_
    rw [← drop_eq_skipped base basePos length, ← drop_eq_skipped side sidePos length, same, agree]
  | @edit _ _ hunk rest baseOrder sideOrder agree later =>
    have lengths := congrArg List.length agree
    simp only [length_take, length_drop] at lengths
    have gap : hunk.side.start - (sidePos + length) = hunk.base.start - (basePos + length) := by omega
    rw [gap] at agree
    refine .edit (by omega) (by omega) ?_ later
    rw [show hunk.base.start - basePos = length + (hunk.base.start - (basePos + length)) by omega,
      show hunk.side.start - sidePos = length + (hunk.base.start - (basePos + length)) by omega]
    rw [take_add, take_add, same, drop_drop, drop_drop, agree]

theorem Edits.script (edits : Edits base side basePos sidePos ops) : Script base side basePos sidePos (hunksOf ops) := by
  induction edits with
  | done => exact .done le_rfl le_rfl (by simp)
  | @op op rest baseInside sideInside same later ih =>
    have baseOrder := op.oldRange_ordered
    have sideOrder := op.newRange_ordered
    by_cases equal : op.isEqual = true
    · rw [show hunksOf (op :: rest) = hunksOf rest by simp [hunksOf, equal]]
      cases op with
      | equal oldIndex newIndex len => exact ih.extend (by simpa [DiffOp.oldRange, DiffOp.newRange] using same equal)
      | delete => cases equal
      | insert => cases equal
      | replace => cases equal
    · rw [show hunksOf (op :: rest) = ⟨op.oldRange, op.newRange⟩ :: hunksOf rest by simp [hunksOf, equal]]
      exact .edit ⟨le_rfl, baseOrder, baseInside⟩ ⟨le_rfl, sideOrder, sideInside⟩ (by simp) ih

/-! ## Change maps -/

/-- The lines of the side that a hunk brings in. -/
def Hunk.added (side : List String) (hunk : Hunk) : List String :=
  (side.drop hunk.side.start).take (hunk.side.stop - hunk.side.start)

/-- What the hunks insert at a base index: a hunk inserts after the lines it deletes. -/
def inserted (side : List String) (hunks : List Hunk) (index : Nat) : List String :=
  hunks.flatMap fun hunk => if hunk.base.stop = index then hunk.added side else []

def deleted (hunks : List Hunk) (index : Nat) : Bool :=
  hunks.any fun hunk => decide (hunk.base.start ≤ index ∧ index < hunk.base.stop)

/-- An entry of the insertion map is never empty. -/
def entryOf (lines : List String) : Option (List String) := if lines = [] then none else some lines

def pushEntry (entry : Option (List String)) (lines : List String) : Option (List String) :=
  if lines = [] then entry else some (entry.getD [] ++ lines)

/-- The change maps after more hunks. -/
def ChangeMaps.push (maps : ChangeMaps) (side : List String) (hunks : List Hunk) : ChangeMaps where
  deletions index := maps.deletions index || deleted hunks index
  insertions index := pushEntry (maps.insertions index) (inserted side hunks index)

theorem pushEntry_append (entry : Option (List String)) (first second : List String) :
    pushEntry (pushEntry entry first) second = pushEntry entry (first ++ second) := by
  by_cases firstEmpty : first = []
  · simp [pushEntry, firstEmpty]
  · by_cases secondEmpty : second = [] <;> simp [pushEntry, firstEmpty, secondEmpty]

theorem ChangeMaps.push_append (maps : ChangeMaps) (side : List String) (first second : List Hunk) :
    (maps.push side first).push side second = maps.push side (first ++ second) := by
  simp only [ChangeMaps.push, deleted, inserted, any_append, flatMap_append, Bool.or_assoc, pushEntry_append]

theorem ChangeMaps.push_nil (maps : ChangeMaps) (side : List String) : maps.push side [] = maps := by
  simp [ChangeMaps.push, deleted, inserted, pushEntry]

theorem foldl_equal (maps : ChangeMaps) (index length : Nat) :
    (List.replicate length Change.equal).foldl addChange (maps, index) = (maps, index + length) := by
  induction length generalizing index with
  | zero => rfl
  | succ length ih =>
    rw [replicate_succ, foldl_cons, addChange, ih, Nat.add_assoc, Nat.add_comm 1]

theorem foldl_delete (maps : ChangeMaps) (index length : Nat) :
    (List.replicate length Change.delete).foldl addChange (maps, index) =
      ({ maps with deletions := fun i => maps.deletions i || decide (index ≤ i ∧ i < index + length) }, index + length) := by
  induction length generalizing maps index with
  | zero =>
    have none : ∀ i, decide (index ≤ i ∧ i < index + 0) = false := fun i => decide_eq_false (by omega)
    simp only [none, Bool.or_false]
    rfl
  | succ length ih =>
    rw [replicate_succ, foldl_cons, addChange, ih, Nat.add_assoc, Nat.add_comm 1]
    congr 2
    funext i
    by_cases here : i = index
    · simp [here]
    · dsimp only
      rw [update_of_ne here]
      congr 2
      exact propext (by omega)

theorem foldl_insert (maps : ChangeMaps) (index : Nat) (values : List String) :
    (values.map Change.insert).foldl addChange (maps, index) =
      ({ maps with insertions := update maps.insertions index (pushEntry (maps.insertions index) values) }, index) := by
  induction values generalizing maps with
  | nil => simp [pushEntry]
  | cons value values ih =>
    rw [map_cons, foldl_cons, addChange, ih]
    congr 2
    dsimp only
    rw [update_idem, update_self]
    congr 1
    have single : some ((maps.insertions index).getD [] ++ [value]) = pushEntry (maps.insertions index) [value] := rfl
    rw [single, pushEntry_append]
    rfl

/-- The changes of an operation add its hunk. -/
theorem foldl_changes (maps : ChangeMaps) (op : DiffOp) :
    (op.changes side).foldl addChange (maps, op.oldRange.start) =
      (maps.push side (hunksOf [op]), op.oldRange.stop) := by
  have update : ∀ (entries : Nat → Option (List String)) (index : Nat) (lines : List String),
      update entries index (pushEntry (entries index) lines) =
        fun i => pushEntry (entries i) (if index = i then lines else []) := by
    intro entries index lines
    funext i
    by_cases here : index = i
    · subst here
      simp
    · rw [update_of_ne (Ne.symm here), if_neg here]
      rfl
  cases op with
  | equal oldIndex newIndex len =>
    rw [DiffOp.changes, DiffOp.oldRange, foldl_equal, show hunksOf [.equal oldIndex newIndex len] = [] from rfl,
      ChangeMaps.push_nil]
  | delete oldIndex oldLen newIndex =>
    rw [DiffOp.changes, DiffOp.oldRange, foldl_delete]
    simp [ChangeMaps.push, hunksOf, DiffOp.isEqual, DiffOp.oldRange, DiffOp.newRange, deleted, inserted, Hunk.added, pushEntry]
  | insert oldIndex newIndex newLen =>
    rw [DiffOp.changes, DiffOp.oldRange, foldl_insert, update]
    have none : ∀ i, decide (oldIndex ≤ i ∧ i < oldIndex) = false := fun i => decide_eq_false (by omega)
    simp [ChangeMaps.push, hunksOf, DiffOp.isEqual, DiffOp.oldRange, DiffOp.newRange, deleted, inserted, Hunk.added,
      none, -Bool.decide_and]
  | replace oldIndex oldLen newIndex newLen =>
    rw [DiffOp.changes, DiffOp.oldRange, foldl_append, foldl_delete, foldl_insert, update]
    simp [ChangeMaps.push, hunksOf, DiffOp.isEqual, DiffOp.oldRange, DiffOp.newRange, deleted, inserted, Hunk.added]

/-- The change maps of a whole script: what its hunks delete and insert. -/
theorem Edits.foldl_changes (edits : Edits base side basePos sidePos ops) (maps : ChangeMaps) :
    (ops.flatMap (DiffOp.changes side)).foldl addChange (maps, basePos) = (maps.push side (hunksOf ops), base.length) := by
  induction edits generalizing maps with
  | done => rw [show hunksOf [] = [] from rfl, ChangeMaps.push_nil]; rfl
  | @op op rest _ _ _ later ih =>
    rw [flatMap_cons, foldl_append, AstMerge.foldl_changes, ih, ChangeMaps.push_append]
    congr 2
    simp [hunksOf, filter_cons]
    split <;> rfl

theorem Edits.buildChangeMaps_eq (edits : Edits base side 0 0 ops) :
    buildChangeMaps (ops.flatMap (DiffOp.changes side)) =
      ⟨deleted (hunksOf ops), fun index => entryOf (inserted side (hunksOf ops) index)⟩ := by
  rw [buildChangeMaps, edits.foldl_changes]
  simp [ChangeMaps.push, pushEntry, entryOf]

/-! ## Both scripts at once -/

/-- Insertions of both sides at one index; lines the left inserts too are not inserted twice. -/
def joint (left right : List String) : List String := left ++ right.filter fun line => !left.contains line

def clash (left right : List String) : Bool := left ≠ [] && right ≠ [] && left ≠ right

section

variable (leftLines rightLines : List String) (leftHunks rightHunks : List Hunk)

def jointAt (index : Nat) : List String :=
  joint (inserted leftLines leftHunks index) (inserted rightLines rightHunks index)

/-- The base lines from an index on, with the deletions and insertions of both sides. -/
def jointFrom : List String → Nat → List String
  | [], index => jointAt leftLines rightLines leftHunks rightHunks index
  | line :: segment, index =>
    jointAt leftLines rightLines leftHunks rightHunks index ++
      (if deleted leftHunks index || deleted rightHunks index then [] else [line]) ++ jointFrom segment (index + 1)

/-- Both sides insert different lines at an index of a segment. -/
def clashFrom : List String → Nat → Bool
  | [], index => clash (inserted leftLines leftHunks index) (inserted rightLines rightHunks index)
  | _ :: segment, index =>
    clash (inserted leftLines leftHunks index) (inserted rightLines rightHunks index) || clashFrom segment (index + 1)

end

theorem pushInsertions_eq (left right result : List String) (hasConflict : Bool) :
    pushInsertions (entryOf left) (entryOf right) (result, hasConflict) =
      (result ++ joint left right, hasConflict || clash left right) := by
  by_cases leftEmpty : left = [] <;> by_cases rightEmpty : right = [] <;>
    simp [pushInsertions, entryOf, joint, clash, leftEmpty, rightEmpty]

/-- The loop over the base lines and the insertions after the last one. -/
theorem foldl_mergeLine (leftLines rightLines : List String) (leftHunks rightHunks : List Hunk) (segment result : List String) (index : Nat) (hasConflict : Bool) :
    pushInsertions (entryOf (inserted leftLines leftHunks (index + segment.length)))
        (entryOf (inserted rightLines rightHunks (index + segment.length)))
        ((segment.zipIdx index).foldl
          (mergeLine ⟨deleted leftHunks, fun i => entryOf (inserted leftLines leftHunks i)⟩
            ⟨deleted rightHunks, fun i => entryOf (inserted rightLines rightHunks i)⟩) (result, hasConflict)) =
      (result ++ jointFrom leftLines rightLines leftHunks rightHunks segment index,
        hasConflict || clashFrom leftLines rightLines leftHunks rightHunks segment index) := by
  induction segment generalizing result index hasConflict with
  | nil => simp only [zipIdx_nil, foldl_nil, length_nil, Nat.add_zero, pushInsertions_eq, jointFrom, clashFrom,
      jointAt]
  | cons line segment ih =>
    rw [zipIdx_cons, foldl_cons, length_cons, show index + (segment.length + 1) = index + 1 + segment.length by omega]
    simp only [mergeLine, pushInsertions_eq]
    rw [ih]
    simp only [jointFrom, clashFrom, jointAt, Bool.or_assoc]
    cases deleted leftHunks index <;> cases deleted rightHunks index <;> simp

/-- `inner` on texts whose lines differ: both scripts applied at once, a conflict where both insert
different lines at one index. -/
theorem inner_eq {diff : Diff} {base left right : String} (differ : lines left ≠ lines right)
    (leftEdits : Edits (lines base) (lines left) 0 0 (diff (lines base) (lines left)))
    (rightEdits : Edits (lines base) (lines right) 0 0 (diff (lines base) (lines right))) :
    inner diff base left right =
      ⟨"\n".intercalate (jointFrom (lines left) (lines right) (hunks diff (lines base) (lines left))
          (hunks diff (lines base) (lines right)) (lines base) 0),
        clashFrom (lines left) (lines right) (hunks diff (lines base) (lines left))
          (hunks diff (lines base) (lines right)) (lines base) 0⟩ := by
  have merged := foldl_mergeLine (lines left) (lines right) (hunks diff (lines base) (lines left))
    (hunks diff (lines base) (lines right)) (lines base) [] 0 false
  simp only [nil_append, Bool.false_or, Nat.zero_add] at merged
  simp only [inner, if_neg differ, leftEdits.buildChangeMaps_eq, rightEdits.buildChangeMaps_eq]
  rw [show hunksOf (diff (lines base) (lines left)) = hunks diff (lines base) (lines left) from rfl,
    show hunksOf (diff (lines base) (lines right)) = hunks diff (lines base) (lines right) from rfl, merged]

/-! ## Where hunks act -/

section

variable {index line : Nat} {first second : List Hunk}

theorem inserted_append (side : List String) (first second : List Hunk) (index : Nat) :
    inserted side (first ++ second) index = inserted side first index ++ inserted side second index :=
  flatMap_append

theorem deleted_append (first second : List Hunk) (index : Nat) :
    deleted (first ++ second) index = (deleted first index || deleted second index) := any_append

/-- All hunks start at or after a line, and none ends before it starts. -/
def StartsFrom (line : Nat) (hunks : List Hunk) : Prop :=
  ∀ hunk ∈ hunks, line ≤ hunk.base.start ∧ hunk.base.start ≤ hunk.base.stop

def StopsBy (line : Nat) (hunks : List Hunk) : Prop := ∀ hunk ∈ hunks, hunk.base.stop ≤ line

theorem StartsFrom.inserted (starts : StartsFrom line first) (before : index < line) (side : List String) :
    inserted side first index = [] := by
  refine flatMap_eq_nil_iff.mpr fun hunk member => if_neg ?_
  have := starts hunk member
  omega

theorem StartsFrom.deleted (starts : StartsFrom line first) (before : index < line) : deleted first index = false := by
  refine any_eq_false.mpr fun hunk member => ?_
  have := starts hunk member
  simp only [decide_eq_true_eq]
  omega

theorem StopsBy.inserted (stops : StopsBy line first) (after : line < index) (side : List String) :
    inserted side first index = [] := by
  refine flatMap_eq_nil_iff.mpr fun hunk member => if_neg ?_
  have := stops hunk member
  omega

theorem StopsBy.deleted (stops : StopsBy line first) (after : line ≤ index) : deleted first index = false := by
  refine any_eq_false.mpr fun hunk member => ?_
  have := stops hunk member
  simp only [decide_eq_true_eq]
  omega

end

/-! ## Cutting a joint merge -/

section

variable {leftLines rightLines : List String} {leftHunks rightHunks leftLater rightLater : List Hunk} {index stop : Nat}

/-- Lines before all hunks are copied. -/
theorem jointFrom_stable {segment rest : List String} (leftStarts : StartsFrom (index + segment.length) leftHunks)
    (rightStarts : StartsFrom (index + segment.length) rightHunks) :
    jointFrom leftLines rightLines leftHunks rightHunks (segment ++ rest) index =
      segment ++ jointFrom leftLines rightLines leftHunks rightHunks rest (index + segment.length) := by
  induction segment generalizing index with
  | nil => rfl
  | cons line segment ih =>
    have before : index < index + (line :: segment).length := by simp
    have shift : index + (line :: segment).length = index + 1 + segment.length := by simp only [length_cons]; omega
    rw [cons_append, jointFrom, jointAt, leftStarts.inserted before, rightStarts.inserted before,
      leftStarts.deleted before, rightStarts.deleted before]
    rw [shift] at leftStarts rightStarts ⊢
    rw [ih leftStarts rightStarts]
    simp [joint]

/-- After the hunks of a region only the later ones act. -/
theorem jointFrom_later {segment : List String} (leftStops : StopsBy stop leftHunks) (rightStops : StopsBy stop rightHunks)
    (after : stop < index) :
    jointFrom leftLines rightLines (leftHunks ++ leftLater) (rightHunks ++ rightLater) segment index =
      jointFrom leftLines rightLines leftLater rightLater segment index := by
  induction segment generalizing index with
  | nil =>
    simp only [jointFrom, jointAt, inserted_append, leftStops.inserted after, rightStops.inserted after, nil_append]
  | cons line segment ih =>
    simp only [jointFrom, jointAt, inserted_append, deleted_append, leftStops.inserted after, rightStops.inserted after,
      leftStops.deleted after.le, rightStops.deleted after.le, nil_append, Bool.false_or]
    rw [ih (by omega)]

/-- A region's hunks act within it, the later ones after it. -/
theorem jointFrom_region {segment rest : List String} (region : index + segment.length = stop)
    (leftStops : StopsBy stop leftHunks) (rightStops : StopsBy stop rightHunks)
    (leftStarts : StartsFrom (stop + 1) leftLater) (rightStarts : StartsFrom (stop + 1) rightLater) :
    jointFrom leftLines rightLines (leftHunks ++ leftLater) (rightHunks ++ rightLater) (segment ++ rest) index =
      jointFrom leftLines rightLines leftHunks rightHunks segment index ++
        jointFrom leftLines rightLines leftLater rightLater rest stop := by
  induction segment generalizing index with
  | nil =>
    obtain rfl : index = stop := region
    have here := Nat.lt_succ_self index
    cases rest with
    | nil =>
      simp only [jointFrom, jointAt, inserted_append, leftStarts.inserted here, rightStarts.inserted here, append_nil]
      simp [joint]
    | cons line rest =>
      simp only [nil_append, jointFrom, jointAt, inserted_append, deleted_append, leftStarts.inserted here,
        rightStarts.inserted here, leftStops.deleted le_rfl, rightStops.deleted le_rfl, append_nil, Bool.false_or]
      rw [jointFrom_later leftStops rightStops here]
      simp [joint]
  | cons line segment ih =>
    have within : index < stop + 1 := by simp only [length_cons] at region; omega
    simp only [cons_append, jointFrom, jointAt, inserted_append, deleted_append, leftStarts.inserted within,
      rightStarts.inserted within, leftStarts.deleted within, rightStarts.deleted within, append_nil, Bool.or_false]
    rw [ih (by simp only [length_cons] at region; omega)]
    simp only [append_assoc]

end

/-! ## One script -/

/-- Without edits the lines are copied. -/
theorem jointFrom_nil (leftLines rightLines segment : List String) (index : Nat) :
    jointFrom leftLines rightLines [] [] segment index = segment := by
  induction segment generalizing index with
  | nil => simp [jointFrom, jointAt, inserted, joint]
  | cons line segment ih => simp [jointFrom, jointAt, inserted, joint, deleted, ih]

/-- The right side alone. -/
theorem jointFrom_right (leftLines rightLines : List String) (rightHunks : List Hunk) (segment : List String) (index : Nat) :
    jointFrom leftLines rightLines [] rightHunks segment index = jointFrom rightLines [] rightHunks [] segment index := by
  induction segment generalizing index with
  | nil => simp [jointFrom, jointAt, inserted, joint]
  | cons line segment ih => simp [jointFrom, jointAt, inserted, joint, deleted, ih]

/-- The left side alone. -/
theorem jointFrom_left (leftLines rightLines : List String) (leftHunks : List Hunk) (segment : List String) (index : Nat) :
    jointFrom leftLines rightLines leftHunks [] segment index = jointFrom leftLines [] leftHunks [] segment index := by
  induction segment generalizing index with
  | nil => simp [jointFrom, jointAt, inserted, joint]
  | cons line segment ih => simp [jointFrom, jointAt, inserted, joint, deleted, ih]

/-- The lines a hunk deletes, and what it inserts after them. -/
theorem jointFrom_hunk {side segment rest : List String} {hunk : Hunk} {later : List Hunk} {index : Nat}
    (starts : hunk.base.start ≤ index) (region : index + segment.length = hunk.base.stop)
    (laterStarts : StartsFrom hunk.base.stop later) :
    jointFrom side [] (hunk :: later) [] (segment ++ rest) index =
      hunk.added side ++ jointFrom side [] later [] rest hunk.base.stop := by
  induction segment generalizing index with
  | nil =>
    obtain rfl : index = hunk.base.stop := region
    have stops : StopsBy hunk.base.stop [hunk] := by simp [StopsBy]
    have none : StopsBy hunk.base.stop [] := nofun
    cases rest with
    | nil => simp [jointFrom, jointAt, inserted, joint]
    | cons line rest =>
      have further : jointFrom side [] ([hunk] ++ later) ([] ++ []) rest (hunk.base.stop + 1) =
          jointFrom side [] later [] rest (hunk.base.stop + 1) := jointFrom_later stops none (Nat.lt_succ_self _)
      have kept : deleted (hunk :: later) hunk.base.stop = deleted later hunk.base.stop := by simp [deleted]
      simp only [append_nil, singleton_append] at further
      simp only [nil_append, jointFrom, further, kept]
      simp [jointAt, inserted, joint]
  | cons line segment ih =>
    have inside : index < hunk.base.stop := by simp only [length_cons] at region; omega
    have nothing : inserted side (hunk :: later) index = [] := by
      rw [← singleton_append, inserted_append, laterStarts.inserted inside]
      simp [inserted, inside.ne']
    have gone : deleted (hunk :: later) index = true := by simp [deleted, starts, inside]
    rw [cons_append, jointFrom, jointAt, nothing, gone, ih (by omega) (by simp only [length_cons] at region; omega)]
    simp [joint, inserted]

/-- A script turns the base into the side. -/
theorem Script.side_eq {side : List String} {basePos sidePos : Nat} {hunks : List Hunk}
    (script : Script base side basePos sidePos hunks) :
    side.drop sidePos = jointFrom side [] hunks [] (base.drop basePos) basePos := by
  induction script with
  | done _ _ same => rw [jointFrom_nil, same]
  | @edit basePos sidePos hunk rest baseOrder sideOrder same later ih =>
    have laterStarts : StartsFrom hunk.base.stop rest := fun other member =>
      ⟨(later.ordered other member).1, (later.ordered other member).2.1⟩
    have starts : StartsFrom hunk.base.start (hunk :: rest) := by
      refine forall_mem_cons.mpr ⟨⟨le_rfl, baseOrder.2.1⟩, fun other member => ?_⟩
      have := laterStarts other member
      omega
    have inside : hunk.base.start ≤ base.length := by omega
    have gap := add_length_segment baseOrder.1 inside
    have region := add_length_segment baseOrder.2.1 baseOrder.2.2
    have none : StartsFrom (basePos + ((base.drop basePos).take (hunk.base.start - basePos)).length) [] := nofun
    rw [drop_eq_segment base baseOrder.1, jointFrom_stable (by rw [gap]; exact starts) none, gap,
      drop_eq_segment base baseOrder.2.1, jointFrom_hunk le_rfl region laterStarts, ← ih, same,
      Hunk.added, ← drop_eq_segment side sideOrder.2.1, ← drop_eq_segment side sideOrder.1]

/-! ## Along the chunks -/

/-- A chunk with the edits of both sides at once. -/
def Chunk.joint (leftLines rightLines : List String) (chunk : Chunk) : List String :=
  jointFrom leftLines rightLines chunk.leftHunks chunk.rightHunks chunk.base chunk.start

variable {leftLines rightLines : List String} {walk final : Walk} {chunk : Chunk} {chunks : List Chunk}
  {left right : SideCursor}

/-- A joint merge is cut around a region. -/
theorem jointFrom_cut (leftText rightText rest : List String) {stable segment : List String}
    {leftTaken leftLater rightTaken rightLater : List Hunk} {cursor start stop : Nat}
    (skipped : cursor + stable.length = start) (region : start + segment.length = stop)
    (leftInside : StartsFrom start leftTaken ∧ StopsBy stop leftTaken)
    (rightInside : StartsFrom start rightTaken ∧ StopsBy stop rightTaken)
    (leftBeyond : StartsFrom (stop + 1) leftLater) (rightBeyond : StartsFrom (stop + 1) rightLater) :
    jointFrom leftText rightText (leftTaken ++ leftLater) (rightTaken ++ rightLater) (stable ++ segment ++ rest) cursor =
      stable ++ jointFrom leftText rightText leftTaken rightTaken segment start ++
        jointFrom leftText rightText leftLater rightLater rest stop := by
  subst skipped
  have startsFrom : ∀ {taken later : List Hunk}, StartsFrom (cursor + stable.length) taken → StartsFrom (stop + 1) later →
      StartsFrom (cursor + stable.length) (taken ++ later) := by
    intro taken later inside beyond
    refine forall_mem_append.mpr ⟨inside, fun hunk member => ?_⟩
    have := beyond hunk member
    omega
  rw [append_assoc, jointFrom_stable (startsFrom leftInside.1 leftBeyond) (startsFrom rightInside.1 rightBeyond),
    jointFrom_region region leftInside.2 rightInside.2 leftBeyond rightBeyond, append_assoc]

/-- Where the hunks of an iteration stand. -/
structure Placed (chunk : Chunk) (walk : Walk) : Prop where
  left : StartsFrom chunk.start chunk.leftHunks ∧ StopsBy chunk.stop chunk.leftHunks
  right : StartsFrom chunk.start chunk.rightHunks ∧ StopsBy chunk.stop chunk.rightHunks
  leftLater : StartsFrom (chunk.stop + 1) walk.left.rest
  rightLater : StartsFrom (chunk.stop + 1) walk.right.rest

theorem Settles.placed {walk' : Walk} (settles : Settles base leftLines rightLines walk chunk walk') : Placed chunk walk' := by
  have within := settles.cluster.within
  obtain ⟨leftBeyond, rightBeyond⟩ := forall_mem_append.mp settles.beyond
  have left : ∀ hunk ∈ chunk.leftHunks, hunk ∈ chunk.members := fun _ => mem_append_left _
  have right : ∀ hunk ∈ chunk.rightHunks, hunk ∈ chunk.members := fun _ => mem_append_right _
  refine ⟨⟨?_, ?_⟩, ⟨?_, ?_⟩, ?_, ?_⟩
  · exact fun hunk member => ⟨(within hunk (left hunk member)).1, (within hunk (left hunk member)).2.1⟩
  · exact fun hunk member => (within hunk (left hunk member)).2.2
  · exact fun hunk member => ⟨(within hunk (right hunk member)).1, (within hunk (right hunk member)).2.1⟩
  · exact fun hunk member => (within hunk (right hunk member)).2.2
  · exact fun hunk member => ⟨leftBeyond hunk member, (settles.aligned.left.ordered hunk member).2.1⟩
  · exact fun hunk member => ⟨rightBeyond hunk member, (settles.aligned.right.ordered hunk member).2.1⟩

theorem Forms.skipped (forms : Forms base leftLines rightLines walk chunk left right) : walk.cursor + chunk.stable.length = chunk.start := by
  have stable := forms.stable
  unfold subslice at stable
  split at stable
  next inside =>
    rw [← Option.some.inj stable]
    exact add_length_segment inside.1 inside.2
  next => cases stable

section Segments

variable (aligned : Aligned base leftLines rightLines walk)
  (settles : Settles base leftLines rightLines walk chunk (walk.after chunk left right))
include aligned settles

theorem Settles.left_segment (skipped : walk.cursor + chunk.stable.length = chunk.start) :
    chunk.left = jointFrom leftLines [] chunk.leftHunks [] chunk.base chunk.start := by
  have placed := settles.placed
  have none : ∀ line, StartsFrom line [] := fun _ => nofun
  have whole := aligned.left.side_eq
  rw [settles.left, settles.aligned.left.side_eq, settles.base, settles.leftHunks] at whole
  have cut := jointFrom_cut leftLines [] (base.drop (walk.after chunk left right).cursor) skipped rfl
    placed.left ⟨none _, nofun⟩ placed.leftLater (none _)
  rw [append_nil] at cut
  rw [cut] at whole
  exact append_cancel_left (append_cancel_right whole)

/-- The segments of a chunk are its base segment edited by the hunks of one side. -/
theorem Forms.segments (forms : Forms base leftLines rightLines walk chunk left right) :
    chunk.left = jointFrom leftLines [] chunk.leftHunks [] chunk.base chunk.start ∧
      chunk.right = jointFrom rightLines [] chunk.rightHunks [] chunk.base chunk.start :=
  ⟨settles.left_segment aligned forms.skipped, (settles.swap "" []).left_segment (aligned.swap "" []) forms.skipped⟩

end Segments

/-- Along a run the joint merge is that of the chunks. -/
theorem Runs.jointFrom_eq (runs : Runs base leftLines rightLines walk chunks final) :
    jointFrom leftLines rightLines walk.left.rest walk.right.rest (base.drop walk.cursor) walk.cursor =
      chunks.flatMap (fun chunk => chunk.stable ++ chunk.joint leftLines rightLines) ++ base.drop final.cursor := by
  induction runs with
  | done ended =>
    obtain ⟨leftEmpty, rightEmpty⟩ := nextStart_eq_none ended
    rw [leftEmpty, rightEmpty, jointFrom_nil]
    rfl
  | region _ aligned forms settles _ ih =>
    have placed := settles.placed
    rw [settles.leftHunks, settles.rightHunks, settles.base,
      jointFrom_cut _ _ _ forms.skipped rfl placed.left placed.right placed.leftLater placed.rightLater, flatMap_cons,
      append_assoc, append_assoc, append_assoc, ← ih]
    rfl

end Index.AstMerge
