import Index.Delta.Reconcile

/-! # One file through two activations

Whether reconciling a file fails, whether it may overwrite a durable file, and whether doing it again changes anything:
each by conditions on the file before. -/

namespace Index.Delta

open Index.Lib

def Record.meta? : Record → Option Meta
  | .present data => some data
  | _ => none

/-- A file that can be written and not read. -/
def Target.Sealed (target : Target) (bytes : Bytes) : Prop := target = .file bytes false true

section Conditions

variable (crates : Crates) (entry : ManifestEntry) (path : String) (incoming : Bytes) (view : View)

/-- Logical equality in the format that the file is reconciled in. -/
def Alike (left right : Bytes) : Prop :=
  logicallyEqual crates (chosenFormat crates entry path view.slot.record.meta? incoming) left right = true

/-- What the code compares the contents of a durable file with before it may overwrite them: the base, or the incoming
content if the file is seen for the first time. -/
def Matches (bytes : Bytes) : Prop :=
  match view.slot.record with
  | .missing => Alike crates entry path incoming view incoming bytes
  | .present _ => ∃ base ∈ view.slot.base, Alike crates entry path incoming view base bytes
  | .damaged => False

/-- A file that is reconciled by being written, given its base. -/
def Rewritten : Prop :=
  match view.slot.record with
  | .damaged => False
  | .missing => entry.persistence = some .durable → ∀ found ∈ view.target.read, Alike crates entry path incoming view incoming found
  | .present _ => ∃ base ∈ view.slot.base,
    if entry.persistence = some .durable then
      ∀ upper ∈ view.target.read, ¬ Alike crates entry path incoming view incoming upper ∧ Alike crates entry path incoming view base upper
    else
      ¬ (Alike crates entry path incoming view base (view.target.read.getD []) ∧ incoming = base ∧ view.target.pathExists = true)

/-- What makes reconciling fail. -/
def Blocked : Prop :=
  view.slot.record = .damaged ∨ (view.slot.record ≠ .missing ∧ view.slot.base = none) ∨
    (view.target.isWritable = false ∧ Rewritten crates entry path incoming view)

/-- A durable file that cannot be read holds what may be overwritten. -/
def SealedMatches : Prop :=
  entry.persistence = some .durable → ∀ bytes, view.target.Sealed bytes → ¬ Blocked crates entry path incoming view →
    bytes = incoming ∨ Matches crates entry path incoming view bytes

/-- A staged base without a record is not there, or the next activation finds no reason to clear it. -/
def NoLeftover : Prop :=
  view.slot.record = .missing → view.slot.staged ≠ none → view.target.isWritable = true →
    if entry.persistence = some .durable then ∃ found ∈ view.target.read, ¬ Alike crates entry path incoming view incoming found
    else ∀ bytes, view.target.Sealed bytes → Alike crates entry path incoming view incoming []

/-- No silenced drift of an ephemeral file that cannot be read comes up with the new base. -/
def StaysSilent : Prop :=
  ∀ data, view.slot.record = .present data → data.snoozed ≠ none → entry.persistence ≠ some .durable →
    ∀ base ∈ view.slot.base, ∀ bytes, view.target.Sealed bytes →
      Alike crates entry path incoming view base [] → Alike crates entry path incoming view incoming []

end Conditions

section Reconciled

variable {crates : Crates} {entry : ManifestEntry} {path : String} {incoming : Bytes} {view : View} {existing : Option Meta}

theorem durable_iff :
    (declaredMeta crates entry path existing incoming).persistence = .durable ↔ entry.persistence = some .durable := by
  rw [declaredMeta]
  cases entry.persistence <;> simp

theorem ephemeral_iff :
    (declaredMeta crates entry path existing incoming).persistence = .ephemeral ↔ entry.persistence ≠ some .durable := by
  rw [declaredMeta]
  cases entry.persistence with
  | none => simp
  | some persistence => cases persistence <;> simp

/-- Declaring an entry over the record that it has made changes nothing but what the verbs keep there. -/
theorem declaredMeta_again {data : Meta} (isDeclared : data = declaredMeta crates entry path existing incoming)
    (stagedSource snoozed : Option String) :
    declaredMeta crates entry path (some { data with stagedSource, snoozed }) incoming = { data with stagedSource, snoozed } := by
  subst isDeclared
  simp only [declaredMeta, chosenFormat, Option.map_some, Option.bind_some]
  cases entry.format <;> rfl

/-! ## Failing -/

section Failing

/-- Reconciling fails, writes the file, or leaves it as it is. -/
inductive Ends (incoming : Bytes) (view : View) (rewritten : Prop) (effect : Effect Outcome) : Prop
  | failed (blocked : view.slot.record = .damaged ∨ (view.slot.record ≠ .missing ∧ view.slot.base = none) ∨
        (view.target.isWritable = false ∧ rewritten)) (fails : effect.result.isOk = false)
      (same : effect.view.target.contents = view.target.contents)
  | written (writes : rewritten) (writable : view.target.isWritable = true) (ends : effect.result.isOk = true)
      (holds : effect.view.target.contents = some incoming)
  | kept (known : view.slot.record ≠ .damaged) (based : view.slot.record = .missing ∨ view.slot.base ≠ none)
      (unwritten : ¬ rewritten) (ends : effect.result.isOk = true) (same : effect.view.target.contents = view.target.contents)

theorem ends_firstSeed (recorded : view.slot.record = .missing) :
    Ends incoming view (Rewritten crates entry path incoming view) (reconcile crates entry path incoming view) := by
  have exits := firstSeed_exits crates view (declaredMeta crates entry path none incoming) incoming
  simp only [reconcile, recorded, Rewritten, Alike, Record.meta?]
  generalize firstSeed crates view _ _ = effect at exits ⊢
  cases exits with
  | kept durable reads differs events =>
    refine .kept (by simp [recorded]) (.inl recorded) (fun writes => ?_) rfl ?_
    · exact absurd (writes (durable_iff.mp durable) _ reads) (Bool.eq_false_iff.mp differs)
    · cases target : view.target with
      | link destination =>
        rw [target] at reads
        exact reads.symm
      | _ => rfl
  | unwritable writes refused events =>
    exact .failed (.inr (.inr ⟨refused, fun durable => writes (durable_iff.mpr durable)⟩)) rfl rfl
  | written writes writable events => exact .written (fun durable => writes (durable_iff.mpr durable)) writable rfl rfl

variable {data : Meta}

theorem ends_gate (recorded : view.slot.record = .present data) (durable : entry.persistence = some .durable) :
    Ends incoming view (Rewritten crates entry path incoming view) (reconcile crates entry path incoming view) := by
  have exits := gate_exits crates view (declaredMeta crates entry path (some data) incoming) incoming
  have known : view.slot.record ≠ .damaged := by simp [recorded]
  simp only [reconcile, recorded, durable_iff.mpr durable, Rewritten, Alike, Record.meta?, durable, if_true]
  generalize gate crates view _ _ = effect at exits ⊢
  cases exits with
  | baseUnreadable noBase => exact .failed (.inr (.inl ⟨by simp [recorded], noBase⟩)) rfl rfl
  | unwritable based refused writes =>
    refine .failed (.inr (.inr ⟨refused, _, based, fun upper read => ?_⟩)) rfl rfl
    rcases writes with unread | ⟨found, reads, differs, clean⟩
    · cases unread.symm.trans read
    · obtain rfl := Option.some.inj (reads.symm.trans read)
      exact ⟨Bool.eq_false_iff.mp differs, clean⟩
  | seeded based unread writable => exact .written ⟨_, based, by simp [unread]⟩ writable rfl rfl
  | fastForwarded based reads differs clean writable =>
    refine .written ⟨_, based, fun upper read => ?_⟩ writable rfl rfl
    obtain rfl := Option.some.inj (reads.symm.trans read)
    exact ⟨Bool.eq_false_iff.mp differs, clean⟩
  | matching based reads same outcome =>
    refine .kept known (.inr (by simp [based])) ?_ rfl rfl
    rintro ⟨_, _, writes⟩
    exact (writes _ reads).1 same
  | driftKept based reads differs drifted unmoved | staged based reads differs drifted moved =>
    refine .kept known (.inr (by simp [based])) ?_ rfl rfl
    rintro ⟨_, isBase, writes⟩
    obtain rfl := Option.some.inj (based.symm.trans isBase)
    exact absurd (writes _ reads).2 (Bool.eq_false_iff.mp drifted)

theorem ends_reseed (recorded : view.slot.record = .present data) (ephemeral : entry.persistence ≠ some .durable) :
    Ends incoming view (Rewritten crates entry path incoming view) (reconcile crates entry path incoming view) := by
  have exits := reseed_exits crates view (declaredMeta crates entry path (some data) incoming) incoming "activate"
  simp only [reconcile, recorded, ephemeral_iff.mpr ephemeral, Rewritten, Alike, Record.meta?, ephemeral, if_false]
  generalize reseed crates view _ _ _ = effect at exits ⊢
  cases exits with
  | baseUnreadable noBase => exact .failed (.inr (.inl ⟨by simp [recorded], noBase⟩)) rfl rfl
  | clean based undrifted unmoved there =>
    refine .kept (by simp [recorded]) (.inr (by simp [based])) ?_ rfl rfl
    rintro ⟨_, isBase, writes⟩
    obtain rfl := Option.some.inj (based.symm.trans isBase)
    exact writes ⟨undrifted, unmoved, there⟩
  | unwritable based refused writes events => exact .failed (.inr (.inr ⟨refused, _, based, writes⟩)) rfl rfl
  | written based writable writes events outcome => exact .written ⟨_, based, writes⟩ writable rfl rfl

theorem ends_reconcile : Ends incoming view (Rewritten crates entry path incoming view) (reconcile crates entry path incoming view) := by
  cases recorded : view.slot.record with
  | damaged =>
    rw [reconcile, recorded]
    exact .failed (.inl recorded) rfl rfl
  | missing => exact ends_firstSeed recorded
  | present data =>
    by_cases durable : entry.persistence = some .durable
    · exact ends_gate recorded durable
    · exact ends_reseed recorded durable

theorem free_of_rewritten (rewritten : Rewritten crates entry path incoming view) (writable : view.target.isWritable = true) :
    ¬ Blocked crates entry path incoming view := by
  rintro (damaged | ⟨present, noBase⟩ | ⟨refused, -⟩)
  · simp [Rewritten, damaged] at rewritten
  · unfold Rewritten at rewritten
    split at rewritten
    next => exact rewritten
    next recorded => exact present recorded
    next => simp [noBase] at rewritten
  · cases refused.symm.trans writable

/-- Reconciling a file fails exactly if it is blocked. -/
theorem isOk_reconcile : (reconcile crates entry path incoming view).result.isOk = true ↔ ¬ Blocked crates entry path incoming view := by
  cases @ends_reconcile crates entry path incoming view with
  | failed blocked fails => exact iff_of_false (by simp [fails]) (not_not.mpr blocked)
  | written rewritten writable ends => simp [ends, free_of_rewritten rewritten writable]
  | kept known based unwritten ends =>
    refine iff_of_true ends ?_
    rintro (damaged | ⟨present, noBase⟩ | ⟨-, rewritten⟩)
    · exact known damaged
    · exact based.elim present fun isBased => isBased noBase
    · exact unwritten rewritten

end Failing

/-! ## Overwriting -/

section Overwriting

variable {target : Target} {bytes : Bytes}

theorem contents_of_read {upper : Bytes} (holds : target.contents = some bytes) (reads : target.read = some upper) :
    upper = bytes := by
  cases target with
  | absent => cases reads
  | link destination => exact Option.some.inj (reads.symm.trans holds)
  | file old readable writable =>
    cases readable with
    | true => exact Option.some.inj (reads.symm.trans holds)
    | false => cases reads

theorem sealed_of_unread (holds : target.contents = some bytes) (unread : target.read = none)
    (writable : target.isWritable = true) : target.Sealed bytes := by
  cases target with
  | absent => cases holds
  | link destination => cases unread.symm.trans holds
  | file old readable permission =>
    cases readable with
    | true => cases unread
    | false =>
      obtain rfl : permission = true := writable
      obtain rfl : old = bytes := Option.some.inj holds
      rfl

theorem matches_of_rewritten (durable : entry.persistence = some .durable) (reads : view.target.read = some bytes)
    (rewritten : Rewritten crates entry path incoming view) : Matches crates entry path incoming view bytes := by
  unfold Rewritten at rewritten
  unfold Matches
  split at rewritten
  next => cases rewritten
  next recorded =>
    simp only [recorded]
    exact rewritten durable bytes reads
  next data recorded =>
    obtain ⟨base, isBase, writes⟩ := rewritten
    rw [if_pos durable] at writes
    simp only [recorded]
    exact ⟨base, isBase, (writes bytes reads).2⟩

theorem rewritten_of_unread (durable : entry.persistence = some .durable) (unread : view.target.read = none)
    (free : ¬ Blocked crates entry path incoming view) : Rewritten crates entry path incoming view := by
  unfold Rewritten
  split
  next recorded => exact absurd (Or.inl recorded) free
  next => simp [unread]
  next data recorded =>
    cases based : view.slot.base with
    | none => exact absurd (Or.inr (Or.inl ⟨by simp [recorded], based⟩)) free
    | some base => exact ⟨base, rfl, by simp [durable, unread]⟩

/-- A durable file is overwritten only if it matches, if this holds of a file that cannot be read. -/
theorem overwrites_iff :
    (entry.persistence = some .durable → ∀ bytes, view.target.contents = some bytes →
        (reconcile crates entry path incoming view).view.target.contents = some bytes ∨
          Matches crates entry path incoming view bytes) ↔
      SealedMatches crates entry path incoming view := by
  constructor
  · intro safe durable bytes isSealed free
    have holds : view.target.contents = some bytes := by rw [isSealed]; rfl
    rcases safe durable bytes holds with kept | same
    · cases @ends_reconcile crates entry path incoming view with
      | failed blocked => exact absurd blocked free
      | written _ _ _ after => exact Or.inl (Option.some.inj (kept.symm.trans after))
      | kept _ _ unwritten => exact absurd (rewritten_of_unread durable (by rw [isSealed]; rfl) free) unwritten
    · exact Or.inr same
  · intro sealedMatches durable bytes holds
    cases @ends_reconcile crates entry path incoming view with
    | failed _ _ same | kept _ _ _ _ same => exact Or.inl (same.trans holds)
    | written rewritten writable _ after =>
      cases reads : view.target.read with
      | some upper =>
        obtain rfl := contents_of_read holds reads
        exact Or.inr (matches_of_rewritten durable reads rewritten)
      | none =>
        rcases sealedMatches durable bytes (sealed_of_unread holds reads writable) (free_of_rewritten rewritten writable) with rfl | same
        · exact Or.inl after
        · exact Or.inr same

end Overwriting

/-! ## Reconciling again -/

section Again

variable {data : Meta} (declared : declaredMeta crates entry path (some data) incoming = data)

include declared

variable {staged : Option Bytes} {target : Target}

omit declared in
/-- Reconciling succeeds and leaves the view. -/
def Leaves (effect : Effect Outcome) (after : View) : Prop := effect.view = after ∧ effect.result.isOk = true

theorem reconcile_gate (durable : entry.persistence = some .durable) {base : Option Bytes} :
    reconcile crates entry path incoming ⟨⟨.present data, base, staged⟩, target⟩ =
      (gate crates ⟨⟨.present data, base, staged⟩, target⟩ data incoming).save := by
  simp only [reconcile]
  rw [durable_iff.mpr durable, declared]

theorem reconcile_reseed (ephemeral : entry.persistence ≠ some .durable) {base : Option Bytes} :
    reconcile crates entry path incoming ⟨⟨.present data, base, staged⟩, target⟩ =
      (reseed crates ⟨⟨.present data, base, staged⟩, target⟩ data incoming "activate").save := by
  simp only [reconcile]
  rw [ephemeral_iff.mpr ephemeral, declared]

/-- A durable file that holds the incoming content goes on holding it. -/
theorem reconcile_adopted (durable : entry.persistence = some .durable) {base : Bytes}
    (holds : target = .file incoming false true ∨
      ∃ upper, target.read = some upper ∧ logicallyEqual crates data.format incoming upper = true) :
    Leaves (reconcile crates entry path incoming ⟨⟨.present data, some base, staged⟩, target⟩)
      ⟨⟨.present { data with stagedSource := none, snoozed := none }, some incoming, none⟩, target⟩ := by
  rw [reconcile_gate declared durable]
  rcases holds with rfl | ⟨upper, reads, same⟩
  · exact ⟨rfl, rfl⟩
  · simp only [gate, reads, same, if_true]
    exact ⟨rfl, rfl⟩

theorem reconcile_drifted (durable : entry.persistence = some .durable) {base upper : Bytes} (reads : target.read = some upper)
    (differs : logicallyEqual crates data.format incoming upper = false)
    (drifted : logicallyEqual crates data.format base upper = false) :
    Leaves (reconcile crates entry path incoming ⟨⟨.present data, some base, staged⟩, target⟩)
      (if logicallyEqual crates data.format base incoming then ⟨⟨.present data, some base, staged⟩, target⟩
      else ⟨⟨.present { data with stagedSource := some data.source }, some base, some incoming⟩, target⟩) := by
  rw [reconcile_gate declared durable]
  simp only [gate, reads, differs, drifted, Bool.false_eq_true, if_false]
  cases logicallyEqual crates data.format base incoming <;> exact ⟨rfl, rfl⟩

theorem reconcile_clean (ephemeral : entry.persistence ≠ some .durable)
    (undrifted : logicallyEqual crates data.format incoming (target.read.getD []) = true) (there : target.pathExists = true) :
    Leaves (reconcile crates entry path incoming ⟨⟨.present data, some incoming, staged⟩, target⟩)
      ⟨⟨.present data, some incoming, staged⟩, target⟩ := by
  rw [reconcile_reseed declared ephemeral]
  have exit : reseed crates ⟨⟨.present data, some incoming, staged⟩, target⟩ data incoming "activate" =
      ⟨⟨⟨.present data, some incoming, staged⟩, target⟩, [], .ok (.alreadyClean, data)⟩ := by
    rw [logicallyEqual] at undrifted
    simp [reseed, undrifted, there]
  rw [exit]
  exact ⟨rfl, rfl⟩

theorem reconcile_sealed (ephemeral : entry.persistence ≠ some .durable)
    (drifted : logicallyEqual crates data.format incoming [] = false) :
    Leaves (reconcile crates entry path incoming ⟨⟨.present data, some incoming, staged⟩, .file incoming false true⟩)
      ⟨⟨.present { data with stagedSource := none, snoozed := none }, some incoming, none⟩, .file incoming false true⟩ := by
  rw [reconcile_reseed declared ephemeral]
  rw [logicallyEqual] at drifted
  simp only [reseed, Target.read, Option.getD_none, drifted]
  exact ⟨rfl, rfl⟩

end Again

section Settles

/-- Reconciling a second time changes nothing exactly under a condition, and ends as the first time. -/
def SettlesIf (crates : Crates) (entry : ManifestEntry) (path : String) (incoming : Bytes) (condition : Prop) (effect : Effect Outcome) :
    Prop :=
  ((reconcile crates entry path incoming effect.view).view = effect.view ↔ condition) ∧
    (reconcile crates entry path incoming effect.view).result.isOk = effect.result.isOk

theorem settlesIf_of {effect : Effect Outcome} {after again : View} {condition : Prop} (view : effect.view = after)
    (second : (reconcile crates entry path incoming after).view = again ∧
      (reconcile crates entry path incoming after).result.isOk = effect.result.isOk)
    (same : again = after ↔ condition) : SettlesIf crates entry path incoming condition effect := by
  subst view
  exact ⟨second.1 ▸ same, second.2⟩

theorem settlesIf_of_same {effect : Effect Outcome} {condition : Prop} (first : reconcile crates entry path incoming view = effect)
    (same : effect.view = view) (holds : condition) : SettlesIf crates entry path incoming condition effect := by
  rw [SettlesIf, same, first]
  exact ⟨iff_of_true same holds, rfl⟩

variable {target : Target}

theorem readsBack_of_sealed {bytes : Bytes} (isSealed : target.Sealed bytes) : target.readsBack = false := by
  rw [isSealed]
  rfl

theorem exists_sealed (unread : target.readsBack = false) (writable : target.isWritable = true) :
    ∃ bytes, target.Sealed bytes := by
  cases target with
  | file bytes readable permission =>
    obtain rfl : readable = false := unread
    obtain rfl : permission = true := writable
    exact ⟨bytes, rfl⟩
  | _ => cases unread

/-- What was written is there, whether it can be read or not. -/
theorem holds_written {format : Format} (readable : Bool) :
    Target.file incoming readable true = .file incoming false true ∨
      ∃ upper, (Target.file incoming readable true).read = some upper ∧ logicallyEqual crates format incoming upper = true := by
  cases readable with
  | false => exact Or.inl rfl
  | true => exact Or.inr ⟨incoming, rfl, logicallyEqual_self⟩

/-- Reconciling a file again changes nothing exactly if no staged base was left over and no silenced drift comes up. -/
def Settles (crates : Crates) (entry : ManifestEntry) (path : String) (incoming : Bytes) (view : View) : Prop :=
  SettlesIf crates entry path incoming (NoLeftover crates entry path incoming view ∧ StaysSilent crates entry path incoming view)
    (reconcile crates entry path incoming view)

theorem settles_firstSeed (recorded : view.slot.record = .missing) : Settles crates entry path incoming view := by
  obtain ⟨⟨record, base, staged⟩, target⟩ := view
  obtain rfl : record = .missing := recorded
  have silent : StaysSilent crates entry path incoming ⟨⟨.missing, base, staged⟩, target⟩ := by
    intro data isPresent
    cases isPresent
  obtain ⟨data, isDeclared⟩ : ∃ data, data = declaredMeta crates entry path none incoming := ⟨_, rfl⟩
  have declared : declaredMeta crates entry path (some data) incoming = data := declaredMeta_again isDeclared _ _
  have unsnoozed : { data with stagedSource := none, snoozed := none } = data := by rw [isDeclared]; rfl
  have alike : ∀ left right, Alike crates entry path incoming ⟨⟨.missing, base, staged⟩, target⟩ left right ↔
      logicallyEqual crates data.format left right = true := fun left right => by rw [isDeclared]; rfl
  have first : ∀ base, reconcile crates entry path incoming ⟨⟨.missing, base, staged⟩, target⟩ =
      ((firstSeed crates ⟨⟨.missing, base, staged⟩, target⟩ data incoming).map (·, data)).save := fun _ => by rw [isDeclared]; rfl
  have exits := firstSeed_exits crates ⟨⟨.missing, base, staged⟩, target⟩ data incoming
  have durably : data.persistence = .durable ↔ entry.persistence = some .durable := by rw [isDeclared, durable_iff]
  simp only [Settles, and_iff_left silent, NoLeftover, alike, first base]
  generalize seeded : firstSeed crates ⟨⟨.missing, base, staged⟩, target⟩ data incoming = effect at exits ⊢
  cases exits with
  | @kept found durable reads differs events =>
    have holds : (if target.isSymlink then Target.file found true true else target).read = some found := by
      split_ifs
      · rfl
      · exact reads
    refine settlesIf_of rfl (reconcile_drifted declared (durably.mp durable) holds differs differs) (iff_of_true ?_ ?_)
    · rw [logicallyEqual_self]
      rfl
    · rw [if_pos (durably.mp durable)]
      exact fun _ _ _ => ⟨found, reads, Bool.eq_false_iff.mp differs⟩
  | unwritable writes refused events =>
    have second : firstSeed crates ⟨⟨.missing, some incoming, staged⟩, target⟩ data incoming = _ := seeded
    have same := first (some incoming)
    rw [second] at same
    refine settlesIf_of rfl ⟨congrArg Effect.view same, congrArg (·.result.isOk) same⟩ (iff_of_true rfl ?_)
    intro _ _ writable
    cases refused.symm.trans writable
  | written writes writable events =>
    have cleared : (⟨⟨.present data, some incoming, none⟩, .file incoming target.readsBack true⟩ : View) =
        ⟨⟨.present data, some incoming, staged⟩, .file incoming target.readsBack true⟩ ↔ staged = none := by
      simp [eq_comm]
    by_cases durable : entry.persistence = some .durable
    · refine settlesIf_of rfl (reconcile_adopted declared durable (holds_written target.readsBack)) ?_
      rw [unsnoozed, if_pos durable]
      refine cleared.trans ⟨fun unstaged _ isStaged => absurd unstaged isStaged, fun leftover => ?_⟩
      by_contra isStaged
      obtain ⟨found, reads, differs⟩ := leftover trivial isStaged writable
      exact differs (writes (durably.mpr durable) found reads)
    · rw [if_neg durable]
      cases readsBack : target.readsBack with
      | true =>
        refine settlesIf_of rfl (reconcile_clean declared durable logicallyEqual_self rfl) (iff_of_true rfl ?_)
        intro _ _ _ bytes isSealed
        cases readsBack.symm.trans (readsBack_of_sealed isSealed)
      | false =>
        rw [readsBack] at cleared
        by_cases undrifted : logicallyEqual crates data.format incoming [] = true
        · exact settlesIf_of rfl (reconcile_clean declared durable undrifted rfl) (iff_of_true rfl fun _ _ _ _ _ => undrifted)
        · obtain ⟨bytes, isSealed⟩ := exists_sealed readsBack writable
          refine settlesIf_of rfl (reconcile_sealed declared durable (Bool.eq_false_iff.mpr undrifted)) ?_
          rw [unsnoozed]
          refine cleared.trans ⟨fun unstaged _ isStaged => absurd unstaged isStaged, fun leftover => ?_⟩
          by_contra isStaged
          exact undrifted (leftover trivial isStaged writable bytes isSealed)

variable {old : Meta}

theorem settles_gate (recorded : view.slot.record = .present old) (durable : entry.persistence = some .durable) :
    Settles crates entry path incoming view := by
  have holds : NoLeftover crates entry path incoming view ∧ StaysSilent crates entry path incoming view :=
    ⟨fun missing => (by cases recorded.symm.trans missing), fun _ _ _ ephemeral => absurd durable ephemeral⟩
  obtain ⟨data, isDeclared⟩ : ∃ data, data = declaredMeta crates entry path (some old) incoming := ⟨_, rfl⟩
  have again := declaredMeta_again isDeclared
  have first : reconcile crates entry path incoming view = (gate crates view data incoming).save := by
    simp only [reconcile, recorded, durable_iff.mpr durable, isDeclared]
  have exits := gate_exits crates view data incoming
  rw [Settles, first]
  generalize gate crates view data incoming = effect at exits first ⊢
  cases exits with
  | baseUnreadable noBase => exact settlesIf_of_same first rfl holds
  | unwritable based refused writes => exact settlesIf_of_same first rfl holds
  | seeded based unread writable | fastForwarded based reads differs clean writable =>
    exact settlesIf_of rfl (reconcile_adopted (again none none) durable (holds_written view.target.readsBack)) (iff_of_true rfl holds)
  | matching based reads same outcome =>
    exact settlesIf_of rfl (reconcile_adopted (again none none) durable (Or.inr ⟨_, reads, same⟩)) (iff_of_true rfl holds)
  | driftKept based reads differs drifted unmoved =>
    obtain ⟨⟨_, base?, _⟩, _⟩ := view
    obtain rfl : base? = _ := based
    refine settlesIf_of rfl (reconcile_drifted (again data.stagedSource data.snoozed) durable reads differs drifted) (iff_of_true ?_ holds)
    rw [if_pos unmoved]
    rfl
  | staged based reads differs drifted moved =>
    obtain ⟨⟨_, base?, _⟩, _⟩ := view
    obtain rfl : base? = _ := based
    refine settlesIf_of rfl (reconcile_drifted (again (some data.source) data.snoozed) durable reads differs drifted)
      (iff_of_true ?_ holds)
    rw [if_neg (Bool.eq_false_iff.mp moved)]
    rfl

theorem settles_reseed (recorded : view.slot.record = .present old) (ephemeral : entry.persistence ≠ some .durable) :
    Settles crates entry path incoming view := by
  have noLeftover : NoLeftover crates entry path incoming view := by
    intro missing
    cases recorded.symm.trans missing
  obtain ⟨data, isDeclared⟩ : ∃ data, data = declaredMeta crates entry path (some old) incoming := ⟨_, rfl⟩
  have again := declaredMeta_again isDeclared
  have alike : ∀ left right, Alike crates entry path incoming view left right ↔
      logicallyEqual crates data.format left right = true := fun left right => by rw [isDeclared, Alike, recorded]; rfl
  have snoozed : data.snoozed = old.snoozed := by rw [isDeclared]; rfl
  have first : reconcile crates entry path incoming view = (reseed crates view data incoming "activate").save := by
    simp only [reconcile, recorded, ephemeral_iff.mpr ephemeral, isDeclared]
  have exits := reseed_exits crates view data incoming "activate"
  rw [Settles, first]
  simp only [and_iff_right noLeftover]
  generalize reseed crates view data incoming "activate" = effect at exits first ⊢
  cases exits with
  | baseUnreadable noBase =>
    refine settlesIf_of_same first rfl fun _ _ _ _ base isBase => ?_
    cases noBase.symm.trans isBase
  | unwritable based refused writes events =>
    refine settlesIf_of_same first rfl fun _ _ _ _ _ _ bytes isSealed => ?_
    rw [isSealed] at refused
    cases refused
  | clean based undrifted unmoved there =>
    obtain ⟨⟨_, base?, _⟩, _⟩ := view
    obtain rfl : base? = _ := based
    subst unmoved
    refine settlesIf_of rfl (reconcile_clean (again data.stagedSource data.snoozed) ephemeral undrifted there) (iff_of_true rfl ?_)
    intro _ _ _ _ base isBase bytes isSealed empty
    obtain rfl := Option.some.inj isBase
    exact empty
  | @written base based writable writes events outcome =>
    cases readsBack : view.target.readsBack with
    | true =>
      refine settlesIf_of rfl (reconcile_clean (again none _) ephemeral logicallyEqual_self rfl) (iff_of_true rfl ?_)
      intro _ _ _ _ _ _ bytes isSealed
      cases readsBack.symm.trans (readsBack_of_sealed isSealed)
    | false =>
      by_cases undrifted : logicallyEqual crates data.format incoming [] = true
      · refine settlesIf_of rfl (reconcile_clean (again none _) ephemeral undrifted rfl) (iff_of_true rfl ?_)
        exact fun _ _ _ _ _ _ _ _ _ => (alike _ _).mpr undrifted
      · obtain ⟨bytes, isSealed⟩ := exists_sealed readsBack writable
        have unread : view.target.read = none := by rw [isSealed]; rfl
        refine settlesIf_of rfl (reconcile_sealed (again none _) ephemeral (Bool.eq_false_iff.mpr undrifted)) ?_
        have silenced : (none = if logicallyEqual crates data.format base [] then data.snoozed else none) ↔
            StaysSilent crates entry path incoming view := by
          constructor
          · intro dropped present isOld isSnoozed _ _ isBase _ _ empty
            obtain rfl := Record.present.inj (recorded.symm.trans isOld)
            obtain rfl := Option.some.inj (based.symm.trans isBase)
            rw [if_pos ((alike _ _).mp empty), snoozed] at dropped
            exact absurd dropped.symm isSnoozed
          · intro silent
            split_ifs with empty
            · by_contra isSnoozed
              rw [snoozed] at isSnoozed
              exact undrifted ((alike _ _).mp
                (silent old recorded (Ne.symm isSnoozed) ephemeral base based bytes isSealed ((alike _ _).mpr empty)))
            · rfl
        rw [← silenced]
        simp [unread, Effect.save, View.saveMeta]

theorem settles_reconcile : Settles crates entry path incoming view := by
  cases recorded : view.slot.record with
  | damaged =>
    have same : reconcile crates entry path incoming view = .failed view .recordDamaged := by rw [reconcile, recorded]
    rw [Settles, same]
    refine settlesIf_of_same same rfl ⟨?_, ?_⟩
    · intro missing
      cases recorded.symm.trans missing
    · intro data isPresent
      cases recorded.symm.trans isPresent
  | missing => exact settles_firstSeed recorded
  | present data =>
    by_cases durable : entry.persistence = some .durable
    · exact settles_gate recorded durable
    · exact settles_reseed recorded durable

end Settles

end Reconciled

end Index.Delta
