import Index.Delta.Reconcile
import Index.Lib.Run

/-! # The staged base over a history

One durable file through activations, edits of the file and the verbs that resolve a conflict.  A staged base should be
the one that the latest activation declared.  The gate leaves a staged base in place when the declared content goes
back to the base while the edits stay, and then it is the content of an earlier activation. -/

namespace Index.Delta

open Index.Lib

/-- What an activation declares of the file.  It is declared durable. -/
structure Declaration where
  source : String
  incoming : Bytes
  format : Option Format
  declaredAt : Option String
  sourceFile : Option String
deriving DecidableEq

inductive Act where
  | activate (declaration : Declaration)
  | edit (target : Target)
  | discard
  | adopt
  | snooze

/-- The file, and what the latest activation that came through declared. -/
structure History where
  view : View
  latest : Option Declaration
deriving DecidableEq

section History

variable (crates : Crates) (fingerprint : List Op → String) (path : String)

def Declaration.entry (declaration : Declaration) : ManifestEntry where
  path := path
  source := declaration.source
  format := declaration.format
  persistence := some .durable
  declaredAt := declaration.declaredAt
  sourceFile := declaration.sourceFile

def History.step (history : History) : Act → Option History
  | .activate declaration =>
    let effect := reconcile crates (declaration.entry path) path declaration.incoming history.view
    some ⟨effect.view, if effect.result.isOk then some declaration else history.latest⟩
  | .edit target => some { history with view := { history.view with target } }
  | .discard => some { history with view := (discard crates history.view).view }
  | .adopt => some { history with view := (adopt history.view).view }
  | .snooze => some { history with view := (snooze crates fingerprint history.view).view }

/-- No state of the file, whatever is at its path. -/
def History.initial (target : Target) : History := ⟨⟨.empty, target⟩, none⟩

/-- A staged base is the one that the latest activation declared, by content and by source. -/
def History.NotStale (history : History) : Prop :=
  ∀ staged ∈ history.view.slot.staged, ∃ declaration ∈ history.latest, staged = declaration.incoming ∧
    ∃ data, history.view.slot.record = .present data ∧ data.stagedSource = some declaration.source

/-- Discarding the edits of a file that can be written leaves what the latest activation declared, or the base that is
logically equal to it. -/
def History.DiscardsToLatest (history : History) : Prop :=
  ∀ declaration ∈ history.latest, history.view.target.isWritable = true →
    ∃ data content, history.view.slot.record = .present data ∧ (discard crates history.view).result.isOk = true ∧
      (discard crates history.view).view.target.contents = some content ∧
      (content = declaration.incoming ∨
        history.view.slot.base = some content ∧ logicallyEqual crates data.format content declaration.incoming = true)

/-- An activation that declares the base again, of a file with edits and with another base staged. -/
def History.RollsBack (history : History) : Act → Prop
  | .activate declaration =>
    ∃ data base upper staged, history.view.slot.record = .present data ∧ history.view.slot.base = some base ∧
      history.view.target.read = some upper ∧ history.view.slot.staged = some staged ∧
      ¬ (staged = declaration.incoming ∧ data.stagedSource = some declaration.source) ∧
      let format := chosenFormat crates (declaration.entry path) path (some data) declaration.incoming
      logicallyEqual crates format declaration.incoming upper = false ∧ logicallyEqual crates format base upper = false ∧
        logicallyEqual crates format base declaration.incoming = true
  | _ => False

/-- The staged base is the latest one, and without it the base is. -/
def History.Tracks (history : History) : Prop :=
  match history.view.slot.record with
  | .damaged => False
  | .missing => history.view.slot.staged = none ∧ history.latest = none
  | .present data => ∃ declaration base, history.latest = some declaration ∧ history.view.slot.base = some base ∧
      (history.view.slot.staged = none ∧ logicallyEqual crates data.format base declaration.incoming = true ∨
        history.view.slot.staged = some declaration.incoming ∧ data.stagedSource = some declaration.source)

variable {crates fingerprint path} {history : History}

theorem History.Tracks.notStale (tracks : history.Tracks crates) : history.NotStale := by
  intro staged found
  unfold History.Tracks at tracks
  split at tracks
  next => cases tracks
  next => simp [tracks.1] at found
  next data recorded =>
    obtain ⟨declaration, base, latest, -, ⟨unstaged, -⟩ | ⟨isStaged, source⟩⟩ := tracks
    · simp [unstaged] at found
    · obtain rfl : staged = declaration.incoming := by simpa [isStaged, eq_comm] using found
      exact ⟨declaration, latest, rfl, data, recorded, source⟩

theorem History.Tracks.discardsToLatest (tracks : history.Tracks crates) : history.DiscardsToLatest crates := by
  intro declaration isLatest writable
  unfold History.Tracks at tracks
  split at tracks
  next => cases tracks
  next => simp [tracks.2] at isLatest
  next data recorded =>
    obtain ⟨_, base, latest, based, kept⟩ := tracks
    obtain rfl : declaration = _ := by simpa [latest, eq_comm] using isLatest
    refine ⟨data, history.view.slot.staged.getD base, recorded, ?_, ?_, ?_⟩
    · simp only [discard, recorded, based, Target.write_eq, writable]
      rfl
    · simp only [discard, recorded, based, Target.write_eq, writable]
      rfl
    · rcases kept with ⟨unstaged, same⟩ | ⟨isStaged, -⟩
      · exact Or.inr ⟨by simp [unstaged, based], by simpa [unstaged] using same⟩
      · exact Or.inl (by simp [isStaged])

theorem reconcile_durable {declaration : Declaration} {data : Meta} {view : View} (recorded : view.slot.record = .present data) :
    reconcile crates (declaration.entry path) path declaration.incoming view =
      (gate crates view (declaredMeta crates (declaration.entry path) path (some data) declaration.incoming)
        declaration.incoming).save := by
  rw [reconcile, recorded]
  rfl

section Activate

variable {declaration : Declaration} (tracks : history.Tracks crates)

include tracks

/-- The first activation that comes through has its content as base and stages nothing. -/
theorem tracks_firstSeed (recorded : history.view.slot.record = .missing) {next : History}
    (stepped : history.step crates fingerprint path (.activate declaration) = some next) : next.Tracks crates := by
  simp only [History.Tracks, recorded] at tracks
  obtain ⟨unstaged, fresh⟩ := tracks
  simp only [History.step, reconcile, recorded, Option.some.injEq] at stepped
  subst stepped
  have exits := firstSeed_exits crates history.view
    (declaredMeta crates (declaration.entry path) path none declaration.incoming) declaration.incoming
  generalize firstSeed crates history.view _ _ = effect at exits ⊢
  cases exits with
  | kept | written => exact ⟨declaration, _, rfl, rfl, Or.inl ⟨unstaged, logicallyEqual_self⟩⟩
  | unwritable =>
    simp only [Effect.map, Effect.save, Except.map, History.Tracks, recorded]
    exact ⟨unstaged, fresh⟩

/-- The gate keeps track unless it leaves an older staged base. -/
theorem tracks_gate {data : Meta} (recorded : history.view.slot.record = .present data)
    (moves : ¬ history.RollsBack crates path (.activate declaration)) {next : History}
    (stepped : history.step crates fingerprint path (.activate declaration) = some next) : next.Tracks crates := by
  obtain ⟨view, latest⟩ := history
  obtain ⟨⟨record, base?, staged?⟩, target⟩ := view
  obtain rfl : record = .present data := recorded
  obtain ⟨earlier, base, rfl, rfl, kept⟩ := tracks
  replace stepped := Option.some.inj stepped
  rw [reconcile_durable rfl] at stepped
  subst stepped
  have exits := gate_exits crates ⟨⟨.present data, some base, staged?⟩, target⟩
    (declaredMeta crates (declaration.entry path) path (some data) declaration.incoming) declaration.incoming
  generalize gate crates _ _ _ = effect at exits ⊢
  cases exits with
  | baseUnreadable noBase => cases noBase
  | unwritable => exact ⟨earlier, base, rfl, rfl, kept⟩
  | seeded | matching | fastForwarded => exact ⟨declaration, _, rfl, rfl, Or.inl ⟨rfl, logicallyEqual_self⟩⟩
  | staged => exact ⟨declaration, base, rfl, rfl, Or.inr ⟨rfl, rfl⟩⟩
  | driftKept based reads differs drifted unmoved =>
    obtain rfl := Option.some.inj based
    refine ⟨declaration, base, rfl, rfl, ?_⟩
    cases staged? with
    | none => exact Or.inl ⟨rfl, unmoved⟩
    | some staged =>
      -- Only a staged base that is the incoming one may stay.
      by_cases same : staged = declaration.incoming ∧ data.stagedSource = some declaration.source
      · obtain ⟨rfl, source⟩ := same
        exact Or.inr ⟨rfl, source⟩
      · exact absurd ⟨data, base, _, staged, rfl, rfl, reads, rfl, same, differs, drifted, unmoved⟩ moves

end Activate

theorem tracks_discard (tracks : history.Tracks crates) : History.Tracks crates { history with view := (discard crates history.view).view } := by
  obtain ⟨⟨⟨record, base?, staged?⟩, target⟩, latest⟩ := history
  cases record with
  | damaged | missing => exact tracks
  | present data =>
    obtain ⟨declaration, base, rfl, rfl, kept⟩ := tracks
    cases writable : target.isWritable with
    | false =>
      simp only [discard, Target.write_eq, writable]
      exact ⟨declaration, base, rfl, rfl, kept⟩
    | true =>
      simp only [discard, Target.write_eq, writable]
      refine ⟨declaration, staged?.getD base, rfl, rfl, Or.inl ⟨rfl, ?_⟩⟩
      rcases kept with ⟨rfl, same⟩ | ⟨rfl, -⟩
      · exact same
      · exact logicallyEqual_self

theorem tracks_adopt (tracks : history.Tracks crates) : History.Tracks crates { history with view := (adopt history.view).view } := by
  obtain ⟨⟨⟨record, base?, staged?⟩, target⟩, latest⟩ := history
  cases record with
  | damaged | missing => exact tracks
  | present data =>
    obtain ⟨declaration, base, rfl, rfl, ⟨rfl, same⟩ | ⟨rfl, -⟩⟩ := tracks
    · exact ⟨declaration, base, rfl, rfl, Or.inl ⟨rfl, same⟩⟩
    · exact ⟨declaration, declaration.incoming, rfl, rfl, Or.inl ⟨rfl, logicallyEqual_self⟩⟩

theorem tracks_snooze (tracks : history.Tracks crates) :
    History.Tracks crates { history with view := (snooze crates fingerprint history.view).view } := by
  obtain ⟨⟨⟨record, base?, staged?⟩, target⟩, latest⟩ := history
  cases record with
  | damaged | missing => exact tracks
  | present data =>
    obtain ⟨declaration, base, rfl, rfl, kept⟩ := tracks
    unfold snooze
    dsimp only
    split_ifs <;> exact ⟨declaration, base, rfl, rfl, kept⟩

theorem tracks_step {act : Act} {next : History} (tracks : history.Tracks crates) (moves : ¬ history.RollsBack crates path act)
    (stepped : history.step crates fingerprint path act = some next) : next.Tracks crates := by
  cases act with
  | activate declaration =>
    cases recorded : history.view.slot.record with
    | damaged => simp [History.Tracks, recorded] at tracks
    | missing => exact tracks_firstSeed tracks recorded stepped
    | present data => exact tracks_gate tracks recorded moves stepped
  | edit target =>
    obtain rfl := Option.some.inj stepped
    exact tracks
  | discard =>
    obtain rfl := Option.some.inj stepped
    exact tracks_discard tracks
  | adopt =>
    obtain rfl := Option.some.inj stepped
    exact tracks_adopt tracks
  | snooze =>
    obtain rfl := Option.some.inj stepped
    exact tracks_snooze tracks

/-- A roll-back leaves the staged base of an earlier activation. -/
theorem stale_of_rollsBack {act : Act} (rollsBack : history.RollsBack crates path act) :
    ∃ next, history.step crates fingerprint path act = some next ∧ ¬ next.NotStale := by
  cases act with
  | activate declaration =>
    obtain ⟨data, base, upper, staged, recorded, based, reads, isStaged, other, differs, drifted, unmoved⟩ := rollsBack
    refine ⟨_, rfl, fun notStale => ?_⟩
    rw [reconcile_durable recorded] at notStale
    let declared := declaredMeta crates (declaration.entry path) path (some data) declaration.incoming
    have kept : gate crates history.view declared declaration.incoming = ⟨history.view, [], .ok (.driftKept, declared)⟩ := by
      simp only [gate, based, reads, declared, declaredMeta, differs, drifted, unmoved, Bool.false_eq_true, if_false, if_true]
    rw [kept] at notStale
    obtain ⟨_, latest, same, _, saved, source⟩ := notStale staged isStaged
    obtain rfl := Option.some.inj latest
    obtain rfl := Record.present.inj saved
    exact other ⟨same, source⟩
  | _ => cases rollsBack

/-- Over a whole history the staged base is the latest one, and discarding leaves what was declared last, exactly if no
activation goes back to the base while edits and another staged base are there. -/
theorem staged_fresh_iff (crates : Crates) (fingerprint : List Op → String) (path : String) (target : Target) (acts : List Act) :
    (∀ before, before <+: acts → ∀ history,
        run (History.step crates fingerprint path) (.initial target) before = some history →
          history.NotStale ∧ history.DiscardsToLatest crates) ↔
      Along (History.step crates fingerprint path) (fun history act => ¬ history.RollsBack crates path act)
        (.initial target) acts := by
  refine forall_prefix_iff_along (History.Tracks crates) (fun history tracks => ⟨tracks.notStale, tracks.discardsToLatest⟩)
    (fun history act next tracks moves stepped => tracks_step tracks moves stepped) (fun history act tracks rollsBack => ?_)
    ⟨rfl, rfl⟩
  obtain ⟨next, stepped, stale⟩ := stale_of_rollsBack (not_not.mp rollsBack)
  exact ⟨next, stepped, fun fresh => stale fresh.1⟩

end History

/-! A drifted file through a new base and back. -/

def declareA : Declaration := ⟨"/nix/store/a", [97], some .text, none, none⟩

def declareB : Declaration := ⟨"/nix/store/b", [98], some .text, none, none⟩

def thereAndBack : List Act :=
  [.activate declareA, .edit (.file [99] true true), .activate declareB, .activate declareA]

/-- After the latest activation declares A again, B is staged, and discarding the edits writes B. -/
theorem rolled_back_stale :
    ∃ history, run (History.step noCrates (fun _ => "") "/home/u/a.txt") (.initial .absent) thereAndBack = some history ∧
      ¬ history.NotStale ∧ history.latest = some declareA ∧
      (discard noCrates history.view).view.target = .file declareB.incoming true true := by
  obtain ⟨history, ran, latest, staged, discarded⟩ := exists_run (History.step noCrates (fun _ => "") "/home/u/a.txt")
    (.initial .absent) thereAndBack (fun history : History => history.latest = some declareA ∧
      history.view.slot.staged = some declareB.incoming ∧
      (discard noCrates history.view).view.target = .file declareB.incoming true true) (by decide +kernel)
  refine ⟨history, ran, fun notStale => ?_, latest, discarded⟩
  obtain ⟨declaration, isLatest, same, -⟩ := notStale _ staged
  obtain rfl := Option.some.inj (latest.symm.trans isLatest)
  exact absurd same (by decide)

end Index.Delta
