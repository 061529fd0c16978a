import Index.Audio.Score

/-! # Edits of the score

The document is a log of operations.  What an edit has written is read at once and goes out with the next export, also
when the edit failed before its commit. -/

namespace Index.Audio

inductive Container where
  | instrument
  | controls
  | event (index : Nat)
deriving DecidableEq

inductive Op where
  /-- A new map at the end of the list of events. -/
  | insertContainer
  | insert (container : Container) (key : String) (value : LoroValue)

structure Doc where
  committed : List Op := []
  pending : List Op := []

inductive EditError where
  | frameExceedsI64 (frame : Nat)
deriving DecidableEq

/-- The lower-case digits of a hash. -/
def BlobHash.toText (hash : BlobHash) : String :=
  .ofList (hash.bytes.flatMap fun byte => [Nat.digitChar (byte.toNat / 16), Nat.digitChar (byte.toNat % 16)])

def frameToI64 (frame : Nat) : Except EditError Int64 :=
  if frame < 2 ^ 63 then .ok (.ofNat frame) else .error (.frameExceedsI64 frame)

namespace Doc

/-- What an export sends: it commits first. -/
def ops (doc : Doc) : List Op := doc.committed ++ doc.pending

def commit (doc : Doc) : Doc := ⟨doc.ops, []⟩

def push (doc : Doc) (op : Op) : Doc := { doc with pending := doc.pending ++ [op] }

/-- The entries of a map: the last value of a key counts. -/
def entries (doc : Doc) (container : Container) : List (String × LoroValue) :=
  doc.ops.foldl (fun entries op =>
    match op with
    | .insert target key value => if target = container then (key, value) :: entries.filter (·.1 ≠ key) else entries
    | .insertContainer => entries) []

/-- The length of the list of events. -/
def length (doc : Doc) : Nat := doc.ops.countP fun op => op matches .insertContainer

/-- The document as it is read. -/
def score (doc : Doc) : Score :=
  ⟨doc.entries .instrument, doc.entries .controls, (List.range doc.length).map fun index => .map (doc.entries (.event index))⟩

end Doc

section Edits

-- the casts between `f32` and `f64`, and equality of `f64`
variable (narrow : F64 → F32) (widen : F32 → F64) (eqF64 : F64 → F64 → Bool)

/-- Equality of the values that an edit inserts. -/
def LoroValue.eqScalar : LoroValue → LoroValue → Bool
  | .string one, .string other => one == other
  | .i64 one, .i64 other => one == other
  | .double one, .double other => eqF64 one other
  | _, _ => false

namespace Doc

/-- `LoroMap::insert` of a value that the key has already is no operation. -/
def insert (doc : Doc) (container : Container) (key : String) (value : LoroValue) : Doc :=
  if ((doc.entries container).lookup key).any (LoroValue.eqScalar eqF64 value) then doc else doc.push (.insert container key value)

def setInstrument (doc : Doc) (hash : BlobHash) (atFrame : Nat) : Doc × Except EditError Unit :=
  let doc := doc.insert eqF64 .instrument "hash" (.string hash.toText)
  match frameToI64 atFrame with
  | .error error => (doc, .error error)
  | .ok frame => ((doc.insert eqF64 .instrument "at_frame" (.i64 frame)).commit, .ok ())

def setControl (doc : Doc) (control : Nat) (value : F32) : Doc × Except EditError Unit :=
  ((doc.insert eqF64 .controls (toString control) (.double (widen value))).commit, .ok ())

def schedule (doc : Doc) (event : Event) : Doc × Except EditError Unit :=
  let map := Container.event doc.length
  let doc := doc.push .insertContainer
  match frameToI64 event.atFrame with
  | .error error => (doc, .error error)
  | .ok frame =>
    let doc := doc.insert eqF64 map "at" (.i64 frame)
    let doc := doc.insert eqF64 map "control" (.i64 (.ofNat event.control))
    ((doc.insert eqF64 map "value" (.double (widen event.value))).commit, .ok ())

end Doc

inductive Edit where
  | setInstrument (hash : BlobHash) (atFrame : Nat)
  | setControl (control : Nat) (value : F32)
  | schedule (event : Event)

def Doc.edit (doc : Doc) : Edit → Doc × Except EditError Unit
  | .setInstrument hash atFrame => doc.setInstrument eqF64 hash atFrame
  | .setControl control value => doc.setControl widen eqF64 control value
  | .schedule event => doc.schedule widen eqF64 event

/-- The document after some edits, whether they succeed or not. -/
def Doc.editAll (doc : Doc) (edits : List Edit) : Doc := edits.foldl (fun doc edit => (doc.edit widen eqF64 edit).1) doc

/-- All that is ever seen of a document: what is read of it and what is exported. -/
def Doc.shows (doc : Doc) : Except ScoreError (Option InstrumentRef) × List ControlValue × List Event × List Op :=
  (doc.score.instrument, doc.score.controls narrow, doc.score.events narrow, doc.ops)

/-- The edit writes nothing before its frame is known to fit. -/
def Edit.Fits (doc : Doc) : Edit → Prop
  | .setInstrument hash atFrame =>
    atFrame < 2 ^ 63 ∨ ((doc.entries .instrument).lookup "hash").any (LoroValue.eqScalar eqF64 (.string hash.toText)) = true
  | .setControl _ _ => True
  | .schedule event => event.atFrame < 2 ^ 63

theorem frameToI64_of_lt {frame : Nat} (fits : frame < 2 ^ 63) : frameToI64 frame = .ok (.ofNat frame) := if_pos fits

theorem frameToI64_of_le {frame : Nat} (exceeds : ¬ frame < 2 ^ 63) : frameToI64 frame = .error (.frameExceedsI64 frame) :=
  if_neg exceeds

/-- Something that was pushed is exported. -/
theorem Doc.shows_push (doc : Doc) (op : Op) : (doc.push op).shows narrow ≠ doc.shows narrow := by
  intro same
  have lengths := congrArg (fun shown => shown.2.2.2.length) same
  simp only [shows, ops, push, List.length_append, List.length_singleton] at lengths
  omega

/-- A failed edit is never noticed, whatever edits follow, if and only if it wrote nothing. -/
theorem failed_edit_unnoticed_iff (doc : Doc) (edit : Edit) :
    ((doc.edit widen eqF64 edit).2 ≠ .ok () → ∀ later,
      ((doc.edit widen eqF64 edit).1.editAll widen eqF64 later).shows narrow = (doc.editAll widen eqF64 later).shows narrow) ↔
      edit.Fits eqF64 doc := by
  cases edit with
  | setInstrument hash atFrame =>
    by_cases fits : atFrame < 2 ^ 63
    · exact iff_of_true (by simp [Doc.edit, Doc.setInstrument, frameToI64_of_lt fits]) (.inl fits)
    · simp only [Doc.edit, Doc.setInstrument, frameToI64_of_le fits, Edit.Fits, fits, false_or, Doc.insert]
      split_ifs with already
      · exact iff_of_true (fun _ _ => rfl) already
      · refine iff_of_false ?_ already
        exact fun unnoticed => Doc.shows_push narrow doc _ (unnoticed (by simp) [])
  | setControl control value => exact iff_of_true (by simp [Doc.edit, Doc.setControl]) trivial
  | schedule event =>
    by_cases fits : event.atFrame < 2 ^ 63
    · exact iff_of_true (by simp [Doc.edit, Doc.schedule, frameToI64_of_lt fits]) fits
    · simp only [Doc.edit, Doc.schedule, frameToI64_of_le fits, Edit.Fits, fits, iff_false]
      exact fun unnoticed => Doc.shows_push narrow doc _ (unnoticed (by simp) [])

end Edits

def oneHash : BlobHash := ⟨List.replicate 32 1, rfl⟩

/-- An empty score has an instrument after an edit that failed. -/
theorem failed_setInstrument_read :
    let failed := ({} : Doc).setInstrument (fun _ _ => false) oneHash (2 ^ 63)
    failed.2 = .error (.frameExceedsI64 (2 ^ 63)) ∧ failed.1.score.instrument = .ok (some ⟨oneHash, 0⟩) ∧
      ({} : Doc).score.instrument = .ok none := by
  decide +kernel

end Index.Audio
