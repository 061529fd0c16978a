import Index.Delta.Commands

/-! # What reconciling does

The exits of the three ways to reconcile a file, each with what it was taken for. -/

namespace Index.Delta

open Index.Lib

namespace Target

/-- Whether what is written at the path can be read back. -/
def readsBack : Target → Bool
  | file _ readable _ => readable
  | _ => true

theorem write_eq (target : Target) (bytes : Bytes) :
    target.write bytes = if target.isWritable then some (.file bytes target.readsBack true) else none := by
  cases target with
  | absent | link => rfl
  | file old readable permission => cases permission <;> rfl

end Target

section Exits

variable (crates : Crates) (view : View) (data : Meta) (incoming : Bytes)

/-- The view and the record after the incoming base was adopted. -/
abbrev Adopted (target : Target) (events : List Event) (outcome : Outcome) : Effect (Outcome × Meta) :=
  ⟨⟨⟨view.slot.record, some incoming, none⟩, target⟩, events, .ok (outcome, { data with stagedSource := none, snoozed := none })⟩

/-- The exits of the gate. -/
inductive Gated : Effect (Outcome × Meta) → Prop where
  | baseUnreadable (noBase : view.slot.base = none) : Gated (.failed view .baseUnreadable)
  | unwritable {base : Bytes} (based : view.slot.base = some base) (refused : view.target.isWritable = false)
      (writes : view.target.read = none ∨ ∃ upper, view.target.read = some upper ∧
        logicallyEqual crates data.format incoming upper = false ∧ logicallyEqual crates data.format base upper = true) :
      Gated (.failed view .targetUnwritable)
  | seeded {base : Bytes} (based : view.slot.base = some base) (unread : view.target.read = none)
      (writable : view.target.isWritable = true) :
      Gated (Adopted view data incoming (.file incoming view.target.readsBack true) [.seeded] .seeded)
  | matching {base upper : Bytes} (based : view.slot.base = some base) (reads : view.target.read = some upper)
      (same : logicallyEqual crates data.format incoming upper = true) (outcome : Outcome) :
      Gated (Adopted view data incoming view.target [] outcome)
  | fastForwarded {base upper : Bytes} (based : view.slot.base = some base) (reads : view.target.read = some upper)
      (differs : logicallyEqual crates data.format incoming upper = false)
      (clean : logicallyEqual crates data.format base upper = true) (writable : view.target.isWritable = true) :
      Gated (Adopted view data incoming (.file incoming view.target.readsBack true) [.baseUpdated] .fastForwarded)
  | driftKept {base upper : Bytes} (based : view.slot.base = some base) (reads : view.target.read = some upper)
      (differs : logicallyEqual crates data.format incoming upper = false)
      (drifted : logicallyEqual crates data.format base upper = false)
      (unmoved : logicallyEqual crates data.format base incoming = true) : Gated ⟨view, [], .ok (.driftKept, data)⟩
  | staged {base upper : Bytes} (based : view.slot.base = some base) (reads : view.target.read = some upper)
      (differs : logicallyEqual crates data.format incoming upper = false)
      (drifted : logicallyEqual crates data.format base upper = false)
      (moved : logicallyEqual crates data.format base incoming = false) :
      Gated ⟨view.writeStaged incoming, [.staged], .ok (.staged, { data with stagedSource := some data.source })⟩

theorem gate_exits : Gated crates view data incoming (gate crates view data incoming) := by
  unfold gate
  cases based : view.slot.base with
  | none => exact .baseUnreadable based
  | some base =>
    cases reads : view.target.read with
    | none =>
      cases writable : view.target.isWritable with
      | false =>
        simp only [Target.write_eq, writable]
        exact .unwritable based writable (Or.inl reads)
      | true =>
        simp only [Target.write_eq, writable]
        exact .seeded based reads writable
    | some upper =>
      simp only
      split_ifs with same clean clean unmoved
      · exact .matching based reads same _
      · exact .matching based reads same _
      · rw [Bool.not_eq_true] at same
        cases writable : view.target.isWritable with
        | false =>
          simp only [Target.write_eq, writable]
          exact .unwritable based writable (Or.inr ⟨upper, reads, same, clean⟩)
        | true =>
          simp only [Target.write_eq, writable]
          exact .fastForwarded based reads same clean writable
      · rw [Bool.not_eq_true] at same clean
        exact .driftKept based reads same clean unmoved
      · rw [Bool.not_eq_true] at same clean unmoved
        exact .staged based reads same clean unmoved

/-- The exits of a reseed.  A drift that is archived is no longer silenced. -/
inductive Reseeded (cause : String) : Effect (Outcome × Meta) → Prop where
  | baseUnreadable (noBase : view.slot.base = none) : Reseeded cause (.failed view .baseUnreadable)
  | clean {base : Bytes} (based : view.slot.base = some base)
      (undrifted : logicallyEqual crates data.format base (view.target.read.getD []) = true) (unmoved : incoming = base)
      (there : view.target.pathExists = true) : Reseeded cause ⟨view, [], .ok (.alreadyClean, data)⟩
  | unwritable {base : Bytes} (based : view.slot.base = some base) (refused : view.target.isWritable = false)
      (writes : ¬ (logicallyEqual crates data.format base (view.target.read.getD []) = true ∧ incoming = base ∧
        view.target.pathExists = true)) (events : List Event) : Reseeded cause ⟨view, events, .error .targetUnwritable⟩
  | written {base : Bytes} (based : view.slot.base = some base) (writable : view.target.isWritable = true)
      (writes : ¬ (logicallyEqual crates data.format base (view.target.read.getD []) = true ∧ incoming = base ∧
        view.target.pathExists = true)) (events : List Event) (outcome : Outcome) :
      Reseeded cause ⟨⟨⟨view.slot.record, some incoming, none⟩, .file incoming view.target.readsBack true⟩, events, .ok (outcome,
        { data with
          stagedSource := none
          snoozed := if logicallyEqual crates data.format base (view.target.read.getD []) then data.snoozed else none })⟩

theorem reseed_exits (cause : String) : Reseeded crates view data incoming cause (reseed crates view data incoming cause) := by
  unfold reseed
  cases based : view.slot.base with
  | none => exact .baseUnreadable based
  | some base =>
    simp only
    by_cases clean : logicallyEqual crates data.format base (view.target.read.getD []) = true ∧ incoming = base ∧
        view.target.pathExists = true
    · obtain ⟨undrifted, unmoved, there⟩ := clean
      rw [if_pos (by rw [logicallyEqual] at undrifted; simp [undrifted, unmoved, there])]
      exact .clean based undrifted unmoved there
    · rw [if_neg (by simpa [logicallyEqual, and_assoc] using clean)]
      cases writable : view.target.isWritable with
      | false =>
        simp only [Target.write_eq, writable]
        exact .unwritable based writable clean _
      | true =>
        simp only [Target.write_eq, writable]
        have exit : ∀ events outcome, Reseeded crates view data incoming cause _ :=
          fun events outcome => .written based writable clean events outcome
        cases undrifted : logicallyEqual crates data.format base (view.target.read.getD []) with
        | false =>
          simp only [undrifted, Bool.false_eq_true, if_false] at exit
          simp only [show (diffBytes crates data.format base (view.target.read.getD [])).isEmpty = false from undrifted,
            Bool.false_eq_true, if_false]
          exact exit _ _
        | true =>
          simp only [undrifted, if_true] at exit
          simp only [show (diffBytes crates data.format base (view.target.read.getD [])).isEmpty = true from undrifted, if_true]
          exact exit _ _

/-- The exits of the first activation. -/
inductive Seeded : Effect Outcome → Prop where
  | kept {found : Bytes} (durable : data.persistence = .durable) (reads : view.target.read = some found)
      (differs : logicallyEqual crates data.format incoming found = false) (events : List Event) :
      Seeded ⟨⟨⟨view.slot.record, some incoming, view.slot.staged⟩,
        if view.target.isSymlink then .file found true true else view.target⟩, events, .ok .driftKept⟩
  | unwritable (writes : data.persistence = .durable → ∀ found ∈ view.target.read,
        logicallyEqual crates data.format incoming found = true)
      (refused : view.target.isWritable = false) (events : List Event) :
      Seeded ⟨⟨⟨view.slot.record, some incoming, view.slot.staged⟩, view.target⟩, events, .error .targetUnwritable⟩
  | written (writes : data.persistence = .durable → ∀ found ∈ view.target.read,
        logicallyEqual crates data.format incoming found = true)
      (writable : view.target.isWritable = true) (events : List Event) :
      Seeded ⟨⟨⟨view.slot.record, some incoming, view.slot.staged⟩, .file incoming view.target.readsBack true⟩, events,
        .ok .seeded⟩

theorem seedTarget_exits (writes : data.persistence = .durable → ∀ found ∈ view.target.read,
    logicallyEqual crates data.format incoming found = true) (preExisting : Option Bytes) :
    Seeded crates view data incoming (seedTarget crates (view.writeBase incoming) data incoming preExisting) := by
  cases writable : view.target.isWritable with
  | false =>
    simp only [seedTarget, View.writeBase, Target.write_eq, writable]
    exact .unwritable writes writable _
  | true =>
    simp only [seedTarget, View.writeBase, Target.write_eq, writable]
    exact .written writes writable _

theorem keepExisting_exits {found : Bytes} (durable : data.persistence = .durable) (reads : view.target.read = some found)
    (differs : logicallyEqual crates data.format incoming found = false) :
    Seeded crates view data incoming (keepExisting crates (view.writeBase incoming) data incoming found) := by
  have exit : ∀ events, Seeded crates view data incoming _ := fun events => .kept durable reads differs events
  cases target : view.target with
  | link destination | file bytes readable writable =>
    rw [target] at exit
    simp only [keepExisting, View.writeBase, target]
    exact exit _
  | absent =>
    rw [target] at reads
    cases reads

theorem firstSeed_exits : Seeded crates view data incoming (firstSeed crates view data incoming) := by
  unfold firstSeed
  cases durable : data.persistence with
  | ephemeral => exact seedTarget_exits _ _ _ _ (by simp [durable]) _
  | durable =>
    cases reads : view.target.read with
    | none => exact seedTarget_exits _ _ _ _ (by simp [reads]) _
    | some found =>
      simp only
      split_ifs with same
      · exact seedTarget_exits _ _ _ _ (by simpa [reads] using fun _ => same) _
      · exact keepExisting_exits _ _ _ _ durable reads (by simpa using same)

end Exits

end Index.Delta
