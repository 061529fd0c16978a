import Index.Sqlmerge.Merge

/-! # The merge as a three-way merge of rows

A row that both sides changed is merged column by column, and incompatible where a column was changed to
different values, where one side deleted what the other changed, or where both inserted different rows.  With
the abort policy the driver merges so, except that it also stops at a column both sides changed to one value. -/

namespace Index.Sqlmerge

open Index.Lib

/-! ## Three versions of a row -/

section

variable {table : Table}

/-- Both sides changed the row, and not to the same. -/
def Incompatible : (base ours theirs : Option table.Row) → Prop
  | none, some ours, some theirs => ours ≠ theirs
  | some base, some ours, none => ours ≠ base
  | some base, none, some theirs => theirs ≠ base
  | some base, some ours, some theirs =>
    ∃ column, theirs column ≠ base column ∧ ours column ≠ base column ∧ ours column ≠ theirs column
  | _, _, _ => False

/-- Both sides changed a column of the row to one value. -/
def SameEdit : (base ours theirs : Option table.Row) → Prop
  | some base, some ours, some theirs => ∃ column, theirs column ≠ base column ∧ ours column = theirs column
  | _, _, _ => False

/-- What theirs changed, and ours elsewhere. -/
def mergeRow : (base ours theirs : Option table.Row) → Option table.Row
  | none, ours, none => ours
  | none, _, some theirs => some theirs
  | some _, _, none => none
  | some _, none, some _ => none
  | some base, some ours, some theirs =>
    some fun column => if theirs column ≠ base column then theirs column else ours column

theorem recordChange_eq_none {base row : Option table.Row} : recordChange base row = none ↔ base = row := by
  cases base <;> cases row <;> simp [recordChange]

theorem mergeRow_self (base ours : Option table.Row) : mergeRow base ours base = ours := by
  cases base <;> cases ours <;> simp [mergeRow]

theorem compatible_self (base ours : Option table.Row) : ¬ Incompatible base ours base ∧ ¬ SameEdit base ours base := by
  cases base <;> cases ours <;> simp [Incompatible, SameEdit]

theorem mergeRow_comm {base ours theirs : Option table.Row}
    (fits : ¬ (Incompatible base ours theirs ∨ SameEdit base ours theirs)) :
    ¬ (Incompatible base theirs ours ∨ SameEdit base theirs ours) ∧
      mergeRow base ours theirs = mergeRow base theirs ours := by
  cases base <;> cases ours <;> cases theirs <;> simp_all [Incompatible, SameEdit, mergeRow]
  grind

end

/-! ## The handler under the abort policy -/

theorem valuesEqual_iff {a b : Value} : valuesEqual a b = true ↔ a = b := by
  cases a <;> cases b <;> simp [valuesEqual]

variable {renderReal : BitVec 64 → String} {place : Location}

theorem isBenignDuplicateInsert_iff {new row : place.table.Row} :
    isBenignDuplicateInsert .conflict ⟨place.table, .insert, none, some new, some row, 0⟩ = true ↔ row = new := by
  have columns : place.table.pk.length ≠ 0 := by
    rw [List.length_eq_zero_iff.ne]
    rintro empty
    simpa [empty] using place.table.keyed
  simp only [isBenignDuplicateInsert, decide_true, Bool.true_and, Bool.and_eq_true, decide_eq_true_eq, List.all_eq_true,
    valuesEqual_iff]
  exact ⟨fun ⟨_, equal⟩ => funext fun column => equal column (List.mem_finRange column), fun same => ⟨columns, by simp [same]⟩⟩

/-- A conflict that is not benign stops the apply. -/
theorem resolveAs_aborts {table : Table} {kind : ConflictType} {item : ChangesetItem}
    (differs : isBenignDuplicateInsert kind item = false) (stays : isConvergentDelete kind item = false)
    (kept forced : Option table.Row) (replaceable : Bool) :
    ∃ captured, resolveAs (conflictHandler renderReal (fun _ => .abort) kind item) kept forced replaceable =
      .error (.aborted (some captured)) := by
  unfold conflictHandler
  simp only [differs, stays, Bool.or_false, Bool.false_eq_true, if_false, resolveConflict]
  split_ifs
  · exact ⟨_, rfl⟩
  · exact ⟨_, rfl⟩

/-- Whether a change meets the row it was made for. -/
theorem update_fits_iff {old new row : place.table.Row} :
    (∀ column, (if old column ≠ new column then some (new column) else none).isSome →
      (if place.table.pk.get column ∨ old column ≠ new column then some (old column) else none) = some (row column)) ↔
      ¬ (Incompatible (some old) (some row) (some new) ∨ SameEdit (some old) (some row) (some new)) := by
  simp only [Incompatible, SameEdit, not_or, not_exists, not_and]
  constructor
  · intro fits
    have kept : ∀ column, new column ≠ old column → row column = old column := by
      intro column changed
      have fit := fits column
      rw [if_pos changed.symm, if_pos (.inr changed.symm)] at fit
      exact (Option.some.inj (fit rfl)).symm
    exact ⟨fun column changed moved => absurd (kept column changed) moved,
      fun column changed same => changed (same.symm.trans (kept column changed))⟩
  · rintro ⟨compatible, apart⟩ column
    by_cases changed : old column = new column
    · simp [changed]
    · have kept : row column = old column := by
        by_contra moved
        exact compatible column (Ne.symm changed) moved (apart column (Ne.symm changed))
      simp [changed, kept]

section

variable {base theirs : Option place.table.Row} {change : Change place.table}

/-- What the abort policy makes of a change: the merged row, or a captured conflict. -/
def Outcome (renderReal : BitVec 64 → String) (place : Location) (change : Change place.table)
    (base ours theirs : Option place.table.Row) : Prop :=
  (¬ (Incompatible base ours theirs ∨ SameEdit base ours theirs) ∧
    applyChange renderReal (fun _ => .abort) place change ours = .ok (mergeRow base ours theirs)) ∨
  ((Incompatible base ours theirs ∨ SameEdit base ours theirs) ∧
    ∃ captured, applyChange renderReal (fun _ => .abort) place change ours = .error (.aborted (some captured)))

theorem outcome_insert (new : place.table.Row) (ours : Option place.table.Row) :
    Outcome renderReal place (.insert new) none ours (some new) := by
  cases ours with
  | none => exact .inl ⟨by simp [Incompatible, SameEdit], rfl⟩
  | some row =>
    by_cases same : row = new
    · have benign := isBenignDuplicateInsert_iff.mpr same
      refine .inl ⟨by simp [Incompatible, SameEdit, same], ?_⟩
      subst same
      simp [applyChange, conflictHandler, benign, resolveAs, mergeRow]
    · have differs := Bool.eq_false_iff.mpr (isBenignDuplicateInsert_iff.not.mpr same)
      exact .inr ⟨.inl same, resolveAs_aborts differs (by simp [isConvergentDelete]) ..⟩

theorem outcome_delete (old : place.table.Row) (ours : Option place.table.Row) :
    Outcome renderReal place (.delete old) (some old) ours none := by
  cases ours with
  | none =>
    refine .inl ⟨by simp [Incompatible, SameEdit], ?_⟩
    simp [applyChange, conflictHandler, isConvergentDelete, resolveAs, mergeRow]
  | some row =>
    by_cases same : row = old
    · exact .inl ⟨by simp [Incompatible, SameEdit, same], by simp [applyChange, same, mergeRow]⟩
    · refine .inr ⟨.inl same, ?_⟩
      simp only [applyChange, if_neg same]
      exact resolveAs_aborts (by simp [isBenignDuplicateInsert]) (by simp [isConvergentDelete]) ..

theorem outcome_update {old new : place.table.Row} (changed : old ≠ new)
    (recorded : recordChange (some old) (some new) = some change) (ours : Option place.table.Row) :
    Outcome renderReal place change (some old) ours (some new) := by
  rw [recordChange, if_neg changed, Option.some.injEq] at recorded
  subst recorded
  cases ours with
  | none =>
    refine .inr ⟨.inl (Ne.symm changed), ?_⟩
    simp only [applyChange]
    exact resolveAs_aborts (by simp [isBenignDuplicateInsert]) (by simp [isConvergentDelete]) ..
  | some row =>
    by_cases fits : ¬ (Incompatible (some old) (some row) (some new) ∨ SameEdit (some old) (some row) (some new))
    · refine .inl ⟨fits, ?_⟩
      simp only [applyChange, if_pos (update_fits_iff.mpr fits), mergeRow, Except.ok.injEq, Option.some.injEq]
      funext column
      by_cases same : old column = new column <;> simp [same, eq_comm]
    · refine .inr ⟨not_not.mp fits, ?_⟩
      simp only [applyChange, if_neg (update_fits_iff.not.mpr fits)]
      exact resolveAs_aborts (by simp [isBenignDuplicateInsert]) (by simp [isConvergentDelete]) ..

theorem outcome_of_recorded (recorded : recordChange base theirs = some change) (ours : Option place.table.Row) :
    Outcome renderReal place change base ours theirs := by
  cases base with
  | none =>
    cases theirs with
    | none => simp [recordChange] at recorded
    | some new =>
      obtain rfl : .insert new = change := by simpa [recordChange] using recorded
      exact outcome_insert new ours
  | some old =>
    cases theirs with
    | none =>
      obtain rfl : .delete old = change := by simpa [recordChange] using recorded
      exact outcome_delete old ours
    | some new =>
      have changed : old ≠ new := by
        rintro rfl
        simp [recordChange] at recorded
      exact outcome_update changed recorded ours

end

/-! ## The merge -/

/-- The session visits every row that differs, and no row twice. -/
structure Visits (visited : List Location) (base side : Rows) : Prop where
  once : visited.Nodup
  differing : ∀ place, base place ≠ side place → place ∈ visited

/-- A result that is a three-way merge: it reports conflicts exactly if some row was changed incompatibly, and
otherwise every row is merged. -/
def IsThreeWay (base ours theirs : Rows) (result : Rows × Except MergeError Unit) : Prop :=
  ((∃ captured, result.2 = .error (.conflicts captured)) ↔
    ∃ place, Incompatible (base place) (ours place) (theirs place)) ∧
  ((∀ place, ¬ Incompatible (base place) (ours place) (theirs place)) →
    ∀ place, result.1 place = mergeRow (base place) (ours place) (theirs place))

section

variable {visited : List Location} {base ours theirs : Rows} {checks : Checks}

theorem changeset_keys_nodup (visits : Visits visited base theirs) :
    ((changeset visited base theirs).map Sigma.fst).Nodup := by
  rw [changeset, List.map_filterMap]
  refine visits.once.filterMap fun place other key ofPlace ofOther => ?_
  simp only [Option.map_map, Option.mem_def, Option.map_eq_some_iff, Function.comp_apply] at ofPlace ofOther
  obtain ⟨-, -, rfl⟩ := ofPlace
  obtain ⟨-, -, rfl⟩ := ofOther
  rfl

theorem mem_changeset {place : Location} {change : Change place.table} (visits : Visits visited base theirs) :
    ⟨place, change⟩ ∈ changeset visited base theirs ↔ recordChange (base place) (theirs place) = some change := by
  rw [changeset, List.mem_filterMap]
  constructor
  · rintro ⟨other, -, recorded⟩
    obtain ⟨found, ofOther, same⟩ := Option.map_eq_some_iff.mp recorded
    cases same
    exact ofOther
  · intro recorded
    refine ⟨place, visits.differing place ?_, by simp [recorded]⟩
    intro same
    cases recorded.symm.trans (recordChange_eq_none.mpr same)

/-- The apply stops with a captured conflict exactly if some row is incompatible or edited to the same value, and
otherwise merges every row. -/
theorem apply_changeset (renderReal : BitVec 64 → String) (ours : Rows) (visits : Visits visited base theirs) :
    ((∃ place, Incompatible (base place) (ours place) (theirs place) ∨ SameEdit (base place) (ours place) (theirs place)) ∧
      ∃ captured, apply renderReal (fun _ => .abort) ours (changeset visited base theirs) =
        .error (.aborted (some captured))) ∨
    ((∀ place, ¬ (Incompatible (base place) (ours place) (theirs place) ∨
        SameEdit (base place) (ours place) (theirs place))) ∧
      ∃ merged, apply renderReal (fun _ => .abort) ours (changeset visited base theirs) = .ok merged ∧
        ∀ place, merged place = mergeRow (base place) (ours place) (theirs place)) := by
  cases ran : apply renderReal (fun _ => .abort) ours (changeset visited base theirs) with
  | error stop =>
    obtain ⟨⟨place, change⟩, member, stopped⟩ := exists_of_foldlM_updateAt_error ran (changeset_keys_nodup visits)
    rcases outcome_of_recorded ((mem_changeset visits).mp member) (ours place) with ⟨-, passed⟩ | ⟨stuck, captured, aborted⟩
    · exact absurd (stopped.symm.trans passed) (by simp)
    · exact .inl ⟨⟨place, stuck⟩, captured, by rw [← Except.error.inj (stopped.symm.trans aborted)]⟩
  | ok merged =>
    have each : ∀ place, ¬ (Incompatible (base place) (ours place) (theirs place) ∨
        SameEdit (base place) (ours place) (theirs place)) ∧
        merged place = mergeRow (base place) (ours place) (theirs place) := by
      intro place
      cases recorded : recordChange (base place) (theirs place) with
      | none =>
        have untouched : place ∉ (changeset visited base theirs).map Sigma.fst := by
          rintro member
          obtain ⟨⟨other, change⟩, listed, rfl⟩ := List.mem_map.mp member
          simp [(mem_changeset visits).mp listed] at recorded
        rw [foldlM_updateAt_of_notMem ran untouched, ← recordChange_eq_none.mp recorded, mergeRow_self]
        exact ⟨not_or.mpr (compatible_self _ _), rfl⟩
      | some change =>
        have stepped := foldlM_updateAt_of_mem ran (changeset_keys_nodup visits) ((mem_changeset visits).mpr recorded)
        rcases outcome_of_recorded recorded (ours place) with ⟨fits, passed⟩ | ⟨-, captured, aborted⟩
        · exact ⟨fits, Except.ok.inj (stepped.symm.trans passed)⟩
        · exact absurd (stepped.symm.trans aborted) (by simp)
    exact .inr ⟨fun place => (each place).1, merged, rfl, fun place => (each place).2⟩

end

/-! ## A row both sides set to one value -/

/-- A table of a key and a value. -/
def pairTable : Table := ⟨"pairs", [true, false], by simp⟩

def pairPlace : Location := ⟨pairTable, [.integer 1]⟩

/-- A database of one row with a value. -/
def oneRow (value : Int) : Rows := fun place =>
  if place = pairPlace then some fun column => .integer (if column.val = 0 then 1 else value) else none

theorem oneRow_visits (old new : Int) : Visits [pairPlace] (oneRow old) (oneRow new) := by
  refine ⟨List.nodup_singleton _, fun place differs => ?_⟩
  by_contra elsewhere
  rw [List.mem_singleton] at elsewhere
  simp [oneRow, elsewhere] at differs

/-- Checks that find nothing. -/
def quietChecks : Checks := ⟨.ok (), fun _ => ["ok"], fun _ => []⟩

/-- A row of another table refers to none, before the merge as after it. -/
def danglingChecks : Checks := ⟨.ok (), fun _ => ["ok"], fun _ => ["table child rowid 1 violates FK #0 -> parent"]⟩

end Index.Sqlmerge
