import Index.Delta.Store

/-! # The verbs

Activation reconciles every declared file with what its source holds now.  Ephemeral files are reseeded.  Durable
files are fast-forwarded when they are clean, and when they have drifted the incoming base is staged. -/

namespace Index.Delta

open Index.Lib

inductive Outcome where
  | seeded
  | reseeded
  | fastForwarded
  | alreadyClean
  | driftKept
  | staged
  | adopted
deriving DecidableEq

def Outcome.label : Outcome → String
  | seeded => "seeded"
  | reseeded => "reseeded (drift archived to journal)"
  | fastForwarded => "updated"
  | alreadyClean => "clean"
  | driftKept => "drifted (base unchanged, edits kept)"
  | staged => "conflict (incoming base staged, edits kept)"
  | adopted => "clean (your edits match the incoming base)"

structure ManifestEntry where
  path : String
  source : String
  format : Option Format
  persistence : Option Persistence
  declaredAt : Option String
  sourceFile : Option String

/-! ## One file -/

section File

variable (crates : Crates)

def adoptBase (view : View) (data : Meta) (incoming : Bytes) : View × Meta :=
  ((view.writeBase incoming).clearStaged, { data with stagedSource := none, snoozed := none })

/-- The file is overwritten, what it held archived before. -/
def seedTarget (view : View) (data : Meta) (incoming : Bytes) (preExisting : Option Bytes) : Effect Outcome :=
  let archived := (preExisting.map (diffBytes crates data.format incoming)).getD []
  let events := if archived.isEmpty then [.managed] else [.managed, .reseeded "first-seed" archived]
  match view.target.write incoming with
  | some target => ⟨{ view with target }, events, .ok .seeded⟩
  | none => ⟨view, events, .error .targetUnwritable⟩

/-- The file is kept and counts as drifted.  A link is replaced by a file that holds the same. -/
def keepExisting (view : View) (data : Meta) (incoming found : Bytes) : Effect Outcome :=
  let events := [.managed, .keptExisting (diffBytes crates data.format incoming found)]
  if view.target.isSymlink then
    match view.target.write found with
    | some target => ⟨{ view with target }, events, .ok .driftKept⟩
    | none => ⟨view, events, .error .targetUnwritable⟩
  else ⟨view, events, .ok .driftKept⟩

def firstSeed (view : View) (data : Meta) (incoming : Bytes) : Effect Outcome :=
  let preExisting := view.target.read
  let view := view.writeBase incoming
  match data.persistence, preExisting with
  | .durable, some found =>
    if logicallyEqual crates data.format incoming found then seedTarget crates view data incoming preExisting
    else keepExisting crates view data incoming found
  | _, _ => seedTarget crates view data incoming preExisting

def reseed (view : View) (data : Meta) (incoming : Bytes) (cause : String) : Effect (Outcome × Meta) :=
  match view.slot.base with
  | none => .failed view .baseUnreadable
  | some base =>
    let upper := view.target.read.getD []
    let drift := diffBytes crates data.format base upper
    if drift.isEmpty && incoming = base && view.target.pathExists then ⟨view, [], .ok (.alreadyClean, data)⟩
    else
      let events := if drift.isEmpty then [] else [.reseeded cause drift]
      let data := if drift.isEmpty then data else { data with snoozed := none }
      match view.target.write incoming with
      | none => ⟨view, events, .error .targetUnwritable⟩
      | some target =>
        ⟨({ view with target }.writeBase incoming).clearStaged, events,
          .ok (if drift.isEmpty then .fastForwarded else .reseeded, { data with stagedSource := none })⟩

/-- The gated switch of a durable file. -/
def gate (view : View) (data : Meta) (incoming : Bytes) : Effect (Outcome × Meta) :=
  match view.slot.base with
  | none => .failed view .baseUnreadable
  | some base =>
    match view.target.read with
    | none =>
      match view.target.write incoming with
      | none => .failed view .targetUnwritable
      | some target =>
        let (view, data) := adoptBase { view with target } data incoming
        ⟨view, [.seeded], .ok (.seeded, data)⟩
    | some upper =>
      if logicallyEqual crates data.format incoming upper then
        let outcome := if logicallyEqual crates data.format base upper then .alreadyClean else .adopted
        let (view, data) := adoptBase view data incoming
        ⟨view, [], .ok (outcome, data)⟩
      else if logicallyEqual crates data.format base upper then
        match view.target.write incoming with
        | none => .failed view .targetUnwritable
        | some target =>
          let (view, data) := adoptBase { view with target } data incoming
          ⟨view, [.baseUpdated], .ok (.fastForwarded, data)⟩
      else if logicallyEqual crates data.format base incoming then ⟨view, [], .ok (.driftKept, data)⟩
      else ⟨view.writeStaged incoming, [.staged], .ok (.staged, { data with stagedSource := some data.source })⟩

/-- The format an entry names, or the one recorded, or the one detected now. -/
def chosenFormat (entry : ManifestEntry) (target : String) (existing : Option Meta) (incoming : Bytes) : Format :=
  (entry.format.or (existing.map Meta.format)).getD (detect crates target incoming)

/-- The record that an entry declares, over the one there is. -/
def declaredMeta (entry : ManifestEntry) (target : String) (existing : Option Meta) (incoming : Bytes) : Meta where
  path := target
  source := entry.source
  stagedSource := existing.bind Meta.stagedSource
  sourceFile := entry.sourceFile
  declaredAt := entry.declaredAt
  format := chosenFormat crates entry target existing incoming
  persistence := entry.persistence.getD .ephemeral
  snoozed := existing.bind Meta.snoozed

/-- Saves the record if all went well. -/
def Effect.save (effect : Effect (Outcome × Meta)) : Effect Outcome :=
  match effect.result with
  | .ok (outcome, data) => ⟨effect.view.saveMeta data, effect.events, .ok outcome⟩
  | .error error => ⟨effect.view, effect.events, .error error⟩

/-- Reconciles a file with the contents of its source. -/
def reconcile (entry : ManifestEntry) (target : String) (incoming : Bytes) (view : View) : Effect Outcome :=
  match view.slot.record with
  | .damaged => .failed view .recordDamaged
  | .missing =>
    let data := declaredMeta crates entry target none incoming
    ((firstSeed crates view data incoming).map (·, data)).save
  | .present existing =>
    let data := declaredMeta crates entry target (some existing) incoming
    match data.persistence with
    | .ephemeral => (reseed crates view data incoming "activate").save
    | .durable => (gate crates view data incoming).save

/-- Drops the edits: the staged base wins, or the base if none is staged. -/
def discard (view : View) : Effect Unit :=
  match view.slot.record with
  | .missing => .failed view .notManaged
  | .damaged => .failed view .recordDamaged
  | .present data =>
    match view.slot.base with
    | none => .failed view .baseUnreadable
    | some base =>
      let winning := view.slot.staged.getD base
      let data :=
        if view.slot.staged.isSome then { data with source := data.stagedSource.getD data.source, stagedSource := none } else data
      let dropped := diffBytes crates data.format base (view.target.read.getD [])
      match view.target.write winning with
      | none => ⟨view, [.discarded dropped], .error .targetUnwritable⟩
      | some target =>
        let (view, data) := adoptBase { view with target } data winning
        ⟨view.saveMeta data, [.discarded dropped], .ok ()⟩

/-- Accepts the staged base and keeps the edits. -/
def adopt (view : View) : Effect Unit :=
  match view.slot.record with
  | .missing => .failed view .notManaged
  | .damaged => .failed view .recordDamaged
  | .present data =>
    match view.slot.staged with
    | none => .failed view .notInConflict
    | some staged =>
      let data := { data with source := data.stagedSource.getD data.source, stagedSource := none, snoozed := none }
      ⟨((view.writeBase staged).clearStaged).saveMeta data, [.adopted], .ok ()⟩

/-- Silences a drifted file until its diff changes. -/
def snooze (fingerprint : List Op → String) (view : View) : Effect Unit :=
  match view.slot.record with
  | .missing => .failed view .notManaged
  | .damaged => .failed view .recordDamaged
  | .present data =>
    match view.slot.base with
    | none => .failed view .baseUnreadable
    | some base =>
      let ops := diffBytes crates data.format base (view.target.read.getD [])
      if ops.isEmpty then .failed view .cleanFile
      else if view.slot.staged.isSome then .failed view .inConflict
      else ⟨view.saveMeta { data with snoozed := some (fingerprint ops) }, [.snoozed], .ok ()⟩

end File

/-! ## All files -/

/-- The store, the files and what activation reads besides. -/
structure World where
  home : Option String
  sources : String → Option Bytes
  store : Std.ExtTreeMap String Slot
  targets : String → Target
  journal : List (String × Event)

def expandTilde (home : Option String) (path : String) : Option String :=
  match path.toList with
  | '~' :: '/' :: rest => home.map fun home => home ++ "/" ++ String.ofList rest
  | _ => some path

namespace World

variable (crates : Crates) (dirFor : String → String)

def slot (world : World) (dir : String) : Slot := world.store.getD dir .empty

def view (world : World) (target : String) : View := ⟨world.slot (dirFor target), world.targets target⟩

/-- A file after what was done to it. -/
def put (world : World) (target : String) (view : View) (events : List Event) : World :=
  { world with
    store := world.store.insert (dirFor target) view.slot
    targets := Function.update world.targets target view.target
    journal := world.journal ++ events.map (Prod.mk target) }

def reconcile (world : World) (entry : ManifestEntry) (target : String) : World × Except CmdError Outcome :=
  match world.sources entry.source with
  | none => (world, .error .sourceUnreadable)
  | some incoming =>
    let effect := Delta.reconcile crates entry target incoming (world.view dirFor target)
    (world.put dirFor target effect.view effect.events, effect.result)

/-- Reconciles the entries up to the first failure and returns the declared paths. -/
def reconcileAll : World → List ManifestEntry → World × Except CmdError (List String)
  | world, [] => (world, .ok [])
  | world, entry :: entries =>
    match expandTilde world.home entry.path with
    | none => (world, .error .homeUnset)
    | some target =>
      match world.reconcile crates dirFor entry target with
      | (world, .error error) => (world, .error error)
      | (world, .ok _) =>
        let (world, declared) := reconcileAll world entries
        (world, declared.map (target :: ·))

/-- Every record, by path. -/
def allMetas (world : World) : Option (List Meta) :=
  if world.store.toList.any fun entry => entry.2.record = .damaged then none
  else
    let metas := world.store.toList.filterMap fun entry =>
      match entry.2.record with
      | .present data => some data
      | _ => none
    some (metas.mergeSort fun left right => left.path ≤ right.path)

def forget (world : World) (target : String) : World := { world with store := world.store.erase (dirFor target) }

/-- Forgets a file that is no longer declared and leaves it on disk. -/
def unmanage (declared : List String) (world : World) (data : Meta) : World :=
  if data.path ∈ declared then world
  else
    let world := { world with journal := world.journal ++ [(data.path, Event.unmanaged)] }
    world.forget dirFor data.path

def activate (world : World) (manifest : List ManifestEntry) : World × Except CmdError Unit :=
  match world.reconcileAll crates dirFor manifest with
  | (world, .error error) => (world, .error error)
  | (world, .ok declared) =>
    match world.allMetas with
    | none => (world, .error .recordDamaged)
    | some metas => (metas.foldl (unmanage dirFor declared) world, .ok ())

end World

end Index.Delta
