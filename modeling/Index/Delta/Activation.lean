import Index.Delta.Settled

/-! # Activations

An activation reconciles the declared files one after the other, up to the first that fails, and then forgets the files
that are not declared.  Files with directories of their own do not meet, so an activation does to each of them what
reconciling it does, and activating again settles if it settles for each. -/

namespace Index.Delta

open Index.Lib List

theorem isOk_map {α β : Type} {f : α → β} {result : Except CmdError α} : (result.map f).isOk = result.isOk := by
  cases result <;> rfl

/-! ## The record that is left -/

section Record

variable {crates : Crates} {entry : ManifestEntry} {path : String} {incoming : Bytes} {view : View} {data : Meta}
  {effect : Effect (Outcome × Meta)}

/-- The effect leaves the record alone, and the one to be saved is of the path. -/
structure KeepsRecord (view : View) (path : String) (effect : Effect (Outcome × Meta)) : Prop where
  record : effect.view.slot.record = view.slot.record
  named : ∀ result, effect.result = .ok result → result.2.path = path

theorem Gated.keeps (gated : Gated crates view data incoming effect) : KeepsRecord view data.path effect := by
  cases gated <;> refine ⟨rfl, fun result ok => ?_⟩ <;> cases ok <;> rfl

theorem Reseeded.keeps {cause : String} (reseeded : Reseeded crates view data incoming cause effect) :
    KeepsRecord view data.path effect := by
  cases reseeded <;> refine ⟨rfl, fun result ok => ?_⟩ <;> cases ok <;> rfl

theorem Seeded.keeps {effect : Effect Outcome} (seeded : Seeded crates view data incoming effect) :
    KeepsRecord view data.path (effect.map (·, data)) := by
  cases seeded <;> refine ⟨rfl, fun result ok => ?_⟩ <;> cases ok <;> rfl

variable {saved : Meta}

theorem KeepsRecord.save (keeps : KeepsRecord view path effect) (recorded : effect.save.view.slot.record = .present saved) :
    view.slot.record = .present saved ∨ saved.path = path := by
  unfold Effect.save at recorded
  split at recorded
  next outcome data ok =>
    obtain rfl : data = saved := Record.present.inj recorded
    exact Or.inr (keeps.named _ ok)
  next => exact Or.inl (keeps.record ▸ recorded)

/-- The record of a file is the one there was or one of its path. -/
theorem record_reconcile (recorded : (reconcile crates entry path incoming view).view.slot.record = .present saved) :
    view.slot.record = .present saved ∨ saved.path = path := by
  unfold reconcile at recorded
  split at recorded
  next => exact Or.inl recorded
  next => exact (firstSeed_exits ..).keeps.save recorded
  next existing _ =>
    dsimp only at recorded
    split at recorded
    next => exact (reseed_exits ..).keeps.save recorded
    next => exact (gate_exits ..).keeps.save recorded

end Record

/-! ## Files with directories of their own -/

namespace World

variable {crates : Crates} {dirFor : String → String} {world : World} {path dir : String} {view : View} {events : List Event}

theorem slot_put : (world.put dirFor path view events).slot dir = if dir = dirFor path then view.slot else world.slot dir := by
  simp only [put, slot, Std.ExtTreeMap.getD_insert, Std.LawfulEqCmp.compare_eq_iff_eq]
  by_cases same : dirFor path = dir
  · rw [if_pos same, if_pos same.symm]
  · rw [if_neg same, if_neg (Ne.symm same)]

theorem view_put_self : (world.put dirFor path view events).view dirFor path = view := by
  rw [World.view, slot_put, if_pos rfl]
  simp only [put, Function.update_self]

variable {other : String}

theorem targets_put_of_ne (differ : other ≠ path) :
    (world.put dirFor path view events).targets other = world.targets other := Function.update_of_ne differ ..

theorem view_put_of_ne (differ : other ≠ path) (apart : dirFor other ≠ dirFor path) :
    (world.put dirFor path view events).view dirFor other = world.view dirFor other := by
  rw [World.view, slot_put, if_neg apart, targets_put_of_ne differ, World.view]

/-- The paths that entries declare. -/
def declaredPaths (home : Option String) (entries : List ManifestEntry) : List String :=
  entries.filterMap fun entry => expandTilde home entry.path

/-- A file, the entry that declares it and the content of its source. -/
structure Reconciliation where
  entry : ManifestEntry
  path : String
  incoming : Bytes

/-- What a reconciliation does, by the file before. -/
def Reconciliation.effect (crates : Crates) (r : Reconciliation) (view : View) : Effect Outcome :=
  Delta.reconcile crates r.entry r.path r.incoming view

/-- The reconciliations that an activation comes to: each entry up to the first that fails. -/
inductive ComesTo (crates : Crates) (dirFor : String → String) (world : World) : List ManifestEntry → Reconciliation → Prop where
  | first {entry : ManifestEntry} {entries : List ManifestEntry} {path : String} {incoming : Bytes}
      (expanded : expandTilde world.home entry.path = some path) (source : world.sources entry.source = some incoming) :
      ComesTo crates dirFor world (entry :: entries) ⟨entry, path, incoming⟩
  | later {entry : ManifestEntry} {entries : List ManifestEntry} {path : String} {incoming : Bytes} {r : Reconciliation}
      (expanded : expandTilde world.home entry.path = some path) (source : world.sources entry.source = some incoming)
      (free : ¬ Blocked crates entry path incoming (world.view dirFor path)) (rest : ComesTo crates dirFor world entries r) :
      ComesTo crates dirFor world (entry :: entries) r

variable {entries : List ManifestEntry} {r : Reconciliation}

theorem ComesTo.declared (comes : ComesTo crates dirFor world entries r) :
    r.entry ∈ entries ∧ expandTilde world.home r.entry.path = some r.path ∧ world.sources r.entry.source = some r.incoming := by
  induction comes with
  | first expanded source => exact ⟨mem_cons_self, expanded, source⟩
  | later expanded source free rest ih => exact ⟨mem_cons_of_mem _ ih.1, ih.2⟩

theorem ComesTo.path_mem (comes : ComesTo crates dirFor world entries r) : r.path ∈ declaredPaths world.home entries :=
  mem_filterMap.mpr ⟨r.entry, comes.declared.1, comes.declared.2.1⟩

variable {other : World}

theorem ComesTo.mono (comes : ComesTo crates dirFor world entries r) (home : other.home = world.home)
    (sources : other.sources = world.sources)
    (blocked : ∀ r, ComesTo crates dirFor world entries r → Blocked crates r.entry r.path r.incoming (other.view dirFor r.path) →
      Blocked crates r.entry r.path r.incoming (world.view dirFor r.path)) : ComesTo crates dirFor other entries r := by
  induction comes with
  | first expanded source => exact .first (home ▸ expanded) (sources ▸ source)
  | later expanded source free rest ih =>
    refine .later (home ▸ expanded) (sources ▸ source) (fun again => free (blocked _ (.first expanded source) again)) (ih ?_)
    exact fun r comes => blocked r (.later expanded source free comes)

/-- Two worlds in which an activation comes to the same. -/
structure Agrees (dirFor : String → String) (entries : List ManifestEntry) (world other : World) : Prop where
  home : other.home = world.home
  sources : other.sources = world.sources
  view : ∀ path ∈ declaredPaths world.home entries, other.view dirFor path = world.view dirFor path

theorem Agrees.comesTo (agrees : Agrees dirFor entries world other) (comes : ComesTo crates dirFor world entries r) :
    ComesTo crates dirFor other entries r := by
  refine comes.mono agrees.home agrees.sources fun r comes again => ?_
  rwa [agrees.view _ comes.path_mem] at again

theorem Agrees.symm (agrees : Agrees dirFor entries world other) : Agrees dirFor entries other world :=
  ⟨agrees.home.symm, agrees.sources.symm, fun path member => (agrees.view path (agrees.home ▸ member)).symm⟩

/-! ## The loop -/

section Loop

variable {entry : ManifestEntry}

/-- The world after one reconciliation. -/
def after (crates : Crates) (dirFor : String → String) (world : World) (r : Reconciliation) : World :=
  world.put dirFor r.path (r.effect crates (world.view dirFor r.path)).view (r.effect crates (world.view dirFor r.path)).events

/-- An entry is not come to for want of a path or a source, or its file is reconciled, with or without success. -/
theorem entry_cases (crates : Crates) (dirFor : String → String) (world : World) (entry : ManifestEntry) :
    (expandTilde world.home entry.path = none ∨ world.sources entry.source = none) ∨
      ∃ path incoming, expandTilde world.home entry.path = some path ∧ world.sources entry.source = some incoming ∧
        (Blocked crates entry path incoming (world.view dirFor path) ∨ ¬ Blocked crates entry path incoming (world.view dirFor path)) := by
  cases expanded : expandTilde world.home entry.path with
  | none => exact Or.inl (Or.inl rfl)
  | some path =>
    cases source : world.sources entry.source with
    | none => exact Or.inl (Or.inr rfl)
    | some incoming => exact Or.inr ⟨path, incoming, rfl, rfl, em _⟩

theorem reconcileAll_stops (crates : Crates) (dirFor : String → String) (entries : List ManifestEntry)
    (stops : expandTilde world.home entry.path = none ∨ world.sources entry.source = none) :
    ∃ error, world.reconcileAll crates dirFor (entry :: entries) = (world, .error error) := by
  rw [reconcileAll]
  cases expanded : expandTilde world.home entry.path with
  | none => exact ⟨_, rfl⟩
  | some path =>
    have unread : world.sources entry.source = none := stops.resolve_left (by simp [expanded])
    simp only [reconcile, unread]
    exact ⟨_, rfl⟩

section Comes

variable {incoming : Bytes} (expanded : expandTilde world.home entry.path = some path)
  (source : world.sources entry.source = some incoming)

include expanded source

theorem reconcileAll_fails (entries : List ManifestEntry) (blocked : Blocked crates entry path incoming (world.view dirFor path)) :
    ∃ error, world.reconcileAll crates dirFor (entry :: entries) =
      (world.after crates dirFor ⟨entry, path, incoming⟩, .error error) := by
  simp only [reconcileAll, expanded, reconcile, source]
  cases result : (Delta.reconcile crates entry path incoming (world.view dirFor path)).result with
  | error error => exact ⟨error, rfl⟩
  | ok outcome => exact absurd blocked (isOk_reconcile.mp (by rw [result]; rfl))

theorem reconcileAll_passes (free : ¬ Blocked crates entry path incoming (world.view dirFor path)) :
    world.reconcileAll crates dirFor (entry :: entries) =
      (((world.after crates dirFor ⟨entry, path, incoming⟩).reconcileAll crates dirFor entries).1,
        ((world.after crates dirFor ⟨entry, path, incoming⟩).reconcileAll crates dirFor entries).2.map (path :: ·)) := by
  simp only [reconcileAll, expanded, reconcile, source]
  cases result : (Delta.reconcile crates entry path incoming (world.view dirFor path)).result with
  | error error =>
    have ok := isOk_reconcile.mpr free
    rw [result] at ok
    cases ok
  | ok outcome => rfl

omit source in
theorem declaredPaths_cons : declaredPaths world.home (entry :: entries) = path :: declaredPaths world.home entries := by
  simp [declaredPaths, expanded]

end Comes

theorem slot_after_of_ne (differ : dir ≠ dirFor r.path) : (world.after crates dirFor r).slot dir = world.slot dir := by
  rw [after, slot_put, if_neg differ]

/-- The record of a path is in some directory. -/
def Recorded (world : World) (path : String) : Prop := ∃ dir data, (world.slot dir).record = .present data ∧ data.path = path

theorem recorded_after (recorded : (world.after crates dirFor r).Recorded path) : world.Recorded path ∨ path = r.path := by
  obtain ⟨dir, data, present, rfl⟩ := recorded
  rw [after, slot_put] at present
  split_ifs at present
  · exact (record_reconcile present).imp_left fun old => ⟨_, data, old, rfl⟩
  · exact Or.inl ⟨dir, data, present, rfl⟩

/-- The loop leaves everything alone that is not declared. -/
structure Looped (dirFor : String → String) (entries : List ManifestEntry) (world : World)
    (looped : World × Except CmdError (List String)) : Prop where
  home : looped.1.home = world.home
  sources : looped.1.sources = world.sources
  targets : ∀ other ∉ declaredPaths world.home entries, looped.1.targets other = world.targets other
  slots : ∀ dir ∉ (declaredPaths world.home entries).map dirFor, looped.1.slot dir = world.slot dir
  recorded : ∀ path, looped.1.Recorded path → world.Recorded path ∨ path ∈ declaredPaths world.home entries
  declared : ∀ paths, looped.2 = .ok paths → paths = declaredPaths world.home entries

theorem looped_reconcileAll (crates : Crates) (dirFor : String → String) (world : World) (entries : List ManifestEntry) :
    Looped dirFor entries world (world.reconcileAll crates dirFor entries) := by
  induction entries generalizing world with
  | nil => exact ⟨rfl, rfl, fun _ _ => rfl, fun _ _ => rfl, fun _ => Or.inl, fun _ ok => (Except.ok.inj ok).symm⟩
  | cons entry entries ih =>
    rcases entry_cases crates dirFor world entry with stops | ⟨path, incoming, expanded, source, blocked | free⟩
    · obtain ⟨error, stopped⟩ := reconcileAll_stops crates dirFor entries stops
      rw [stopped]
      exact ⟨rfl, rfl, fun _ _ => rfl, fun _ _ => rfl, fun _ => Or.inl, fun _ ok => by cases ok⟩
    · obtain ⟨error, failed⟩ := reconcileAll_fails expanded source entries blocked
      rw [failed]
      refine ⟨rfl, rfl, ?_, ?_, ?_, fun _ ok => by cases ok⟩ <;> rw [declaredPaths_cons expanded]
      · exact fun other outside => targets_put_of_ne (ne_of_not_mem_cons outside)
      · exact fun dir outside => slot_after_of_ne (ne_of_not_mem_cons outside)
      · intro other recorded
        exact (recorded_after recorded).imp_right (mem_cons.mpr ∘ Or.inl)
    · rw [reconcileAll_passes expanded source free]
      have rest := ih (world.after crates dirFor ⟨entry, path, incoming⟩)
      refine ⟨rest.home, rest.sources, ?_, ?_, ?_, ?_⟩ <;> rw [declaredPaths_cons expanded]
      · intro other outside
        exact (rest.targets other (not_mem_of_not_mem_cons outside)).trans (targets_put_of_ne (ne_of_not_mem_cons outside))
      · intro dir outside
        exact (rest.slots dir (not_mem_of_not_mem_cons outside)).trans (slot_after_of_ne (ne_of_not_mem_cons outside))
      · intro other recorded
        rcases rest.recorded other recorded with here | later
        · exact (recorded_after here).imp_right (mem_cons.mpr ∘ Or.inl)
        · exact Or.inr (mem_cons_of_mem _ later)
      · intro paths ok
        obtain ⟨declared, result, rfl⟩ := map_eq_ok.mp ok
        rw [rest.declared declared result]
        rfl

/-- Neither of the declared files is at the path or in the directory of another. -/
def Apart (dirFor : String → String) (paths : List String) : Prop := (paths.map dirFor).Nodup

variable {paths : List String}

theorem Apart.ne {other : String} (apart : Apart dirFor (path :: paths)) (member : other ∈ paths) :
    other ≠ path ∧ dirFor other ≠ dirFor path := by
  have outside := (nodup_cons.mp apart).1
  refine ⟨fun same => outside (same ▸ mem_map_of_mem member), fun same => outside ?_⟩
  rw [← same]
  exact mem_map_of_mem member

theorem Apart.tail (apart : Apart dirFor (path :: paths)) : Apart dirFor paths := (nodup_cons.mp apart).2

/-- One file is reconciled, and the declared ones after it are not changed. -/
theorem agrees_after (crates : Crates) (r : Reconciliation) (apart : Apart dirFor (r.path :: declaredPaths world.home entries)) :
    Agrees dirFor entries world (world.after crates dirFor r) :=
  ⟨rfl, rfl, fun _ member => view_put_of_ne (apart.ne member).1 (apart.ne member).2⟩

/-- The file that was reconciled first is the same after the others. -/
theorem view_after_rest (crates : Crates) (world : World) (apart : Apart dirFor (path :: declaredPaths world.home entries)) :
    (world.reconcileAll crates dirFor entries).1.view dirFor path = world.view dirFor path := by
  have looped := looped_reconcileAll crates dirFor world entries
  have outside := (nodup_cons.mp apart).1
  rw [World.view, looped.targets path fun member => outside (mem_map_of_mem member), looped.slots _ outside]
  rfl

/-- Every file that the loop comes to is reconciled. -/
theorem view_reconcileAll (apart : Apart dirFor (declaredPaths world.home entries))
    (comes : ComesTo crates dirFor world entries r) :
    (world.reconcileAll crates dirFor entries).1.view dirFor r.path = (r.effect crates (world.view dirFor r.path)).view := by
  induction entries generalizing world with
  | nil => cases comes
  | cons entry entries ih =>
    cases comes with
    | @first _ _ path incoming expanded source =>
      rw [declaredPaths_cons expanded] at apart
      by_cases blocked : Blocked crates entry path incoming (world.view dirFor path)
      · obtain ⟨error, failed⟩ := reconcileAll_fails expanded source entries blocked
        rw [failed]
        exact view_put_self
      · rw [reconcileAll_passes expanded source blocked]
        exact (view_after_rest crates (world.after crates dirFor ⟨entry, path, incoming⟩) apart).trans view_put_self
    | @later _ _ path incoming _ expanded source free rest =>
      rw [declaredPaths_cons expanded] at apart
      have member := rest.path_mem
      have agrees := agrees_after crates ⟨entry, path, incoming⟩ apart
      rw [reconcileAll_passes expanded source free]
      refine (@ih (world.after crates dirFor ⟨entry, path, incoming⟩) apart.tail (agrees.comesTo rest)).trans ?_
      rw [agrees.view _ member]

/-- A file that the loop does not come to is left alone. -/
theorem targets_reconcileAll (elsewhere : ∀ r, ComesTo crates dirFor world entries r → r.path ≠ path)
    (apart : Apart dirFor (declaredPaths world.home entries)) :
    (world.reconcileAll crates dirFor entries).1.targets path = world.targets path := by
  induction entries generalizing world with
  | nil => rfl
  | cons entry entries ih =>
    rcases entry_cases crates dirFor world entry with stops | ⟨target, incoming, expanded, source, blocked | free⟩
    · obtain ⟨error, stopped⟩ := reconcileAll_stops crates dirFor entries stops
      rw [stopped]
    · obtain ⟨error, failed⟩ := reconcileAll_fails expanded source entries blocked
      rw [failed]
      exact targets_put_of_ne (Ne.symm (elsewhere _ (.first expanded source)))
    · rw [declaredPaths_cons expanded] at apart
      have agrees := agrees_after crates ⟨entry, target, incoming⟩ apart
      rw [reconcileAll_passes expanded source free]
      refine (@ih (world.after crates dirFor ⟨entry, target, incoming⟩) (fun r comes => ?_) apart.tail).trans
        (targets_put_of_ne (Ne.symm (elsewhere _ (.first expanded source))))
      exact elsewhere r (.later expanded source free (agrees.symm.comesTo comes))

/-! ## The loop again -/

/-- Whether reconciling a second time changes nothing. -/
def Reconciliation.Settles (crates : Crates) (r : Reconciliation) (view : View) : Prop :=
  (r.effect crates (r.effect crates view).view).view = (r.effect crates view).view

/-- Worlds alike but for the journal. -/
structure Same (world other : World) : Prop where
  home : other.home = world.home
  sources : other.sources = world.sources
  targets : ∀ path, other.targets path = world.targets path
  slot : ∀ dir, other.slot dir = world.slot dir

theorem Same.trans {other last : World} (same : Same world other) (next : Same other last) : Same world last :=
  ⟨next.home.trans same.home, next.sources.trans same.sources, fun path => (next.targets path).trans (same.targets path),
    fun dir => (next.slot dir).trans (same.slot dir)⟩

theorem same_put (unchanged : view = world.view dirFor path) : Same world (world.put dirFor path view events) := by
  subst unchanged
  refine ⟨rfl, rfl, fun other => ?_, fun dir => ?_⟩
  · exact congrFun (Function.update_eq_self path world.targets) other
  · rw [slot_put]
    split_ifs with same
    · rw [same]
      rfl
    · rfl

/-- A world in which the files that an activation came to are as it left them. -/
structure Left (crates : Crates) (dirFor : String → String) (entries : List ManifestEntry) (world left : World) : Prop where
  home : left.home = world.home
  sources : left.sources = world.sources
  files : ∀ r, ComesTo crates dirFor world entries r → left.view dirFor r.path = (r.effect crates (world.view dirFor r.path)).view

variable {incoming : Bytes}

/-- After the first file was reconciled in both worlds, the others are left as before. -/
theorem Left.rest {left : World} (isLeft : Left crates dirFor (entry :: entries) world left)
    (apart : Apart dirFor (path :: declaredPaths world.home entries)) (expanded : expandTilde world.home entry.path = some path)
    (source : world.sources entry.source = some incoming) (free : ¬ Blocked crates entry path incoming (world.view dirFor path)) :
    Left crates dirFor entries (world.after crates dirFor ⟨entry, path, incoming⟩)
      (left.after crates dirFor ⟨entry, path, incoming⟩) := by
  have agrees := agrees_after crates ⟨entry, path, incoming⟩ apart
  refine ⟨isLeft.home, isLeft.sources, fun r comes => ?_⟩
  have comes := agrees.symm.comesTo comes
  have member := comes.path_mem
  rw [agrees.view _ member, ← isLeft.files r (.later expanded source free comes)]
  exact view_put_of_ne (apart.ne member).1 (apart.ne member).2

theorem blocked_again : Blocked crates entry path incoming (Delta.reconcile crates entry path incoming view).view ↔
      Blocked crates entry path incoming view := by
  rw [← not_iff_not, ← isOk_reconcile, ← isOk_reconcile, settles_reconcile.2]

section Again

variable {left : World} (apart : Apart dirFor (declaredPaths world.home entries)) (isLeft : Left crates dirFor entries world left)

include apart isLeft

/-- The loop again changes nothing and ends the same way, if all files settle. -/
theorem reconcileAll_again
    (settle : ∀ r, ComesTo crates dirFor world entries r → r.Settles crates (world.view dirFor r.path)) :
    Same left (left.reconcileAll crates dirFor entries).1 ∧
      (left.reconcileAll crates dirFor entries).2.isOk = (world.reconcileAll crates dirFor entries).2.isOk := by
  induction entries generalizing world left with
  | nil => exact ⟨⟨rfl, rfl, fun _ => rfl, fun _ => rfl⟩, rfl⟩
  | cons entry entries ih =>
    rcases entry_cases crates dirFor world entry with stops | ⟨path, incoming, expanded, source, known⟩
    · obtain ⟨error, stopped⟩ := reconcileAll_stops crates dirFor entries stops
      obtain ⟨error, stoppedAgain⟩ := reconcileAll_stops crates dirFor entries (by rwa [isLeft.home, isLeft.sources])
      rw [stopped, stoppedAgain]
      exact ⟨⟨rfl, rfl, fun _ => rfl, fun _ => rfl⟩, rfl⟩
    · have here := isLeft.files _ (.first expanded source)
      have expandedAgain : expandTilde left.home entry.path = some path := by rwa [isLeft.home]
      have sourceAgain : left.sources entry.source = some incoming := by rwa [isLeft.sources]
      have blockedAgain : Blocked crates entry path incoming (left.view dirFor path) ↔
          Blocked crates entry path incoming (world.view dirFor path) := by
        rw [here]
        exact blocked_again
      have unchanged : Same left (left.after crates dirFor ⟨entry, path, incoming⟩) := by
        refine same_put ?_
        rw [here]
        exact settle _ (.first expanded source)
      rcases known with blocked | free
      · obtain ⟨error, failed⟩ := reconcileAll_fails expanded source entries blocked
        obtain ⟨error, failedAgain⟩ := reconcileAll_fails expandedAgain sourceAgain entries
          (blockedAgain.mpr blocked)
        rw [failed, failedAgain]
        exact ⟨unchanged, rfl⟩
      · rw [declaredPaths_cons expanded] at apart
        rw [reconcileAll_passes expanded source free, reconcileAll_passes expandedAgain sourceAgain (blockedAgain.not.mpr free)]
        have agrees := agrees_after crates ⟨entry, path, incoming⟩ apart
        obtain ⟨same, ends⟩ := @ih (world.after crates dirFor ⟨entry, path, incoming⟩) (left.after crates dirFor ⟨entry, path, incoming⟩)
          apart.tail (isLeft.rest apart expanded source free) (fun r comes => by
            have comes := agrees.symm.comesTo comes
            rw [agrees.view _ comes.path_mem]
            exact settle r (.later expanded source free comes))
        exact ⟨unchanged.trans same, by simp only [isOk_map, ends]⟩

omit apart in
/-- The loop comes to the same files again. -/
theorem Left.comesTo (comes : ComesTo crates dirFor world entries r) : ComesTo crates dirFor left entries r := by
  refine comes.mono isLeft.home isLeft.sources fun r comes again => ?_
  rw [isLeft.files r comes] at again
  exact blocked_again.mp again

/-- A file that does not settle is changed by the loop again. -/
theorem view_reconcileAll_again (comes : ComesTo crates dirFor world entries r) :
    (left.reconcileAll crates dirFor entries).1.view dirFor r.path = left.view dirFor r.path ↔
      r.Settles crates (world.view dirFor r.path) := by
  rw [view_reconcileAll (isLeft.home ▸ apart) (isLeft.comesTo comes), isLeft.files r comes, Reconciliation.Settles]

end Again

end Loop

/-! ## Files that are no longer declared -/

section Forgetting

variable {declared : List String} {metas : List Meta}

theorem slot_eq_of_mem {slot : Slot} (member : (dir, slot) ∈ world.store.toList) : world.slot dir = slot := by
  rw [World.slot, Std.ExtTreeMap.getD_eq_getD_getElem?, Std.ExtTreeMap.mem_toList_iff_getElem?_eq_some.mp member, Option.getD_some]

theorem mem_of_record (there : (world.slot dir).record ≠ .missing) : (dir, world.slot dir) ∈ world.store.toList := by
  rw [Std.ExtTreeMap.mem_toList_iff_getElem?_eq_some]
  rw [World.slot, Std.ExtTreeMap.getD_eq_getD_getElem?] at there ⊢
  cases found : world.store[dir]? with
  | none => simp [found, Slot.empty] at there
  | some slot => rfl

theorem allMetas_eq_none : world.allMetas = none ↔ ∃ dir, (world.slot dir).record = .damaged := by
  rw [allMetas]
  split_ifs with damaged
  · obtain ⟨⟨dir, slot⟩, member, isDamaged⟩ := any_eq_true.mp damaged
    exact iff_of_true rfl ⟨dir, by simpa [slot_eq_of_mem member] using isDamaged⟩
  · refine iff_of_false (by simp) fun ⟨dir, isDamaged⟩ => damaged (any_eq_true.mpr ⟨(dir, world.slot dir), ?_, ?_⟩)
    · exact mem_of_record (by simp [isDamaged])
    · simpa using isDamaged

variable {data : Meta}

theorem mem_allMetas (listed : world.allMetas = some metas) : data ∈ metas ↔ ∃ dir, (world.slot dir).record = .present data := by
  rw [allMetas] at listed
  split_ifs at listed
  rw [← Option.some.inj listed, mem_mergeSort, mem_filterMap]
  constructor
  · rintro ⟨⟨dir, slot⟩, member, found⟩
    refine ⟨dir, ?_⟩
    rw [slot_eq_of_mem member]
    split at found
    next recorded => rw [recorded, Option.some.inj found]
    next => cases found
  · rintro ⟨dir, recorded⟩
    refine ⟨_, mem_of_record (?_ : (world.slot dir).record ≠ .missing), ?_⟩
    · simp [recorded]
    · simp [recorded]

theorem slot_unmanage : (unmanage dirFor declared world data).slot dir =
    if data.path ∉ declared ∧ dirFor data.path = dir then .empty else world.slot dir := by
  unfold unmanage
  by_cases isDeclared : data.path ∈ declared
  · simp [isDeclared]
  · simp [isDeclared, forget, World.slot, Std.ExtTreeMap.getD_erase]

/-- The directories of undeclared files are removed, and others are not. -/
theorem slot_forgotten : (metas.foldl (unmanage dirFor declared) world).slot dir =
    if ∃ data ∈ metas, data.path ∉ declared ∧ dirFor data.path = dir then .empty else world.slot dir := by
  induction metas generalizing world with
  | nil => simp
  | cons data metas ih =>
    rw [foldl_cons, ih, slot_unmanage]
    by_cases here : data.path ∉ declared ∧ dirFor data.path = dir
    · simp [here]
    · simp [here]

theorem forgotten_eq :
    ∃ store journal, metas.foldl (unmanage dirFor declared) world = { world with store := store, journal := journal } := by
  induction metas generalizing world with
  | nil => exact ⟨_, _, rfl⟩
  | cons data metas ih =>
    rw [foldl_cons, unmanage]
    split_ifs
    · exact ih
    · obtain ⟨store, journal, forgotten⟩ := ih
      exact ⟨store, journal, forgotten⟩

/-- Forgets the files that are not declared, if all records can be read. -/
def prune (dirFor : String → String) (declared : List String) (world : World) : World :=
  match world.allMetas with
  | none => world
  | some metas => metas.foldl (unmanage dirFor declared) world

theorem prune_eq : ∃ store journal, prune dirFor declared world = { world with store := store, journal := journal } := by
  unfold prune
  split
  · exact ⟨_, _, rfl⟩
  · exact forgotten_eq

/-- An undeclared file of this directory is recorded, and all records can be read. -/
def Forgets (dirFor : String → String) (declared : List String) (world : World) (dir : String) : Prop :=
  (∀ other, (world.slot other).record ≠ .damaged) ∧
    ∃ other data, (world.slot other).record = .present data ∧ data.path ∉ declared ∧ dirFor data.path = dir

theorem slot_prune (dirFor : String → String) (declared : List String) (world : World) (dir : String) :
    (prune dirFor declared world).slot dir = .empty ∧ Forgets dirFor declared world dir ∨
      (prune dirFor declared world).slot dir = world.slot dir ∧ ¬ Forgets dirFor declared world dir := by
  unfold prune
  split
  next unreadable =>
    obtain ⟨damaged, isDamaged⟩ := allMetas_eq_none.mp unreadable
    exact Or.inr ⟨rfl, fun forgets => forgets.1 damaged isDamaged⟩
  next metas listed =>
    rw [slot_forgotten]
    split_ifs with undeclared
    · obtain ⟨data, member, outside⟩ := undeclared
      obtain ⟨other, recorded⟩ := (mem_allMetas listed).mp member
      refine Or.inl ⟨rfl, fun other isDamaged => ?_, other, data, recorded, outside⟩
      cases listed.symm.trans (allMetas_eq_none.mpr ⟨other, isDamaged⟩)
    · refine Or.inr ⟨rfl, ?_⟩
      rintro ⟨-, other, data, recorded, outside⟩
      exact undeclared ⟨data, (mem_allMetas listed).mpr ⟨other, recorded⟩, outside⟩

/-- A record that there is after forgetting was there before. -/
theorem record_prune (recorded : ((prune dirFor declared world).slot dir).record = .present data) :
    (prune dirFor declared world).slot dir = world.slot dir := by
  rcases slot_prune dirFor declared world dir with ⟨gone, -⟩ | ⟨kept, -⟩
  · rw [gone] at recorded
    cases recorded
  · exact kept

/-- There is nothing to forget a second time. -/
theorem prune_again {again : World} (same : ∀ dir, again.slot dir = (prune dirFor declared world).slot dir) :
    (prune dirFor declared again).slot dir = again.slot dir := by
  rcases slot_prune dirFor declared again dir with ⟨gone, readable, other, data, recorded, outside⟩ | ⟨kept, -⟩
  · -- The record is one of the first time, when the directory was removed already.
    rw [gone, same]
    rw [same] at recorded
    have recordedBefore := recorded
    rw [record_prune recorded] at recordedBefore
    rcases slot_prune dirFor declared world dir with ⟨goneBefore, -⟩ | ⟨-, keeps⟩
    · exact goneBefore.symm
    · refine absurd ⟨fun damaged isDamaged => ?_, other, data, recordedBefore, outside⟩ keeps
      rcases slot_prune dirFor declared world damaged with ⟨-, forgets⟩ | ⟨kept, -⟩
      · exact forgets.1 damaged isDamaged
      · exact readable damaged (by rw [same, kept, isDamaged])
  · exact kept

end Forgetting

/-! ## Whole activations -/

section Activate

variable {manifest : List ManifestEntry}

theorem activate_fst : (world.activate crates dirFor manifest).1 =
    if (world.reconcileAll crates dirFor manifest).2.isOk then
      prune dirFor (declaredPaths world.home manifest) (world.reconcileAll crates dirFor manifest).1
    else (world.reconcileAll crates dirFor manifest).1 := by
  unfold activate
  have declared := (looped_reconcileAll crates dirFor world manifest).declared
  generalize world.reconcileAll crates dirFor manifest = looped at declared ⊢
  obtain ⟨after, result⟩ := looped
  cases result with
  | error error => rfl
  | ok paths =>
    obtain rfl := declared _ rfl
    show _ = prune dirFor _ after
    cases listed : after.allMetas <;> simp [prune, listed]

/-- No declared path shares its directory with another path that is declared or recorded: the hashes do not collide. -/
def Separate (dirFor : String → String) (world : World) (manifest : List ManifestEntry) : Prop :=
  ∀ path ∈ declaredPaths world.home manifest, ∀ other, other ∈ declaredPaths world.home manifest ∨ world.Recorded other →
    dirFor path = dirFor other → path = other

theorem Separate.apart (separate : Separate dirFor world manifest) (distinct : (declaredPaths world.home manifest).Nodup) :
    Apart dirFor (declaredPaths world.home manifest) :=
  List.Nodup.map_on (fun path member other otherMember => separate path member other (Or.inl otherMember)) distinct

theorem fixed_activate : (world.activate crates dirFor manifest).1.home = world.home ∧
    (world.activate crates dirFor manifest).1.sources = world.sources := by
  have looped := looped_reconcileAll crates dirFor world manifest
  rw [activate_fst]
  split_ifs
  · obtain ⟨store, journal, pruned⟩ := @prune_eq dirFor (world.reconcileAll crates dirFor manifest).1 (declaredPaths world.home manifest)
    rw [pruned]
    exact ⟨looped.home, looped.sources⟩
  · exact ⟨looped.home, looped.sources⟩

/-- Forgetting does not touch what is at the paths. -/
theorem targets_activate :
    (world.activate crates dirFor manifest).1.targets = (world.reconcileAll crates dirFor manifest).1.targets := by
  rw [activate_fst]
  split_ifs
  · obtain ⟨store, journal, pruned⟩ := @prune_eq dirFor (world.reconcileAll crates dirFor manifest).1 (declaredPaths world.home manifest)
    rw [pruned]
  · rfl

theorem recorded_activate (recorded : (world.activate crates dirFor manifest).1.Recorded path) :
    world.Recorded path ∨ path ∈ declaredPaths world.home manifest := by
  rw [activate_fst] at recorded
  split_ifs at recorded
  · obtain ⟨dir, data, present, named⟩ := recorded
    have kept := record_prune present
    exact (looped_reconcileAll ..).recorded path ⟨dir, data, kept ▸ present, named⟩
  · exact (looped_reconcileAll ..).recorded path recorded

section Apart

variable (separate : Separate dirFor world manifest)

include separate

theorem Separate.activate : Separate dirFor (world.activate crates dirFor manifest).1 manifest := by
  intro path member other known
  rw [fixed_activate.1] at member known
  refine separate path member other ?_
  rcases known with isDeclared | recorded
  · exact Or.inl isDeclared
  · exact (recorded_activate recorded).symm

/-- Forgetting does not touch the declared files. -/
theorem view_activate (member : path ∈ declaredPaths world.home manifest) :
    (world.activate crates dirFor manifest).1.view dirFor path = (world.reconcileAll crates dirFor manifest).1.view dirFor path := by
  rw [World.view, targets_activate, World.view, activate_fst]
  split_ifs
  · rcases slot_prune dirFor (declaredPaths world.home manifest) (world.reconcileAll crates dirFor manifest).1 (dirFor path) with
      ⟨-, -, dir, data, present, undeclared, same⟩ | ⟨kept, -⟩
    · rcases (looped_reconcileAll crates dirFor world manifest).recorded _ ⟨dir, data, present, rfl⟩ with recorded | isDeclared
      · exact absurd (separate path member data.path (Or.inr recorded) same.symm ▸ member) undeclared
      · exact absurd isDeclared undeclared
    · rw [kept]
  · rfl

theorem left_activate (distinct : (declaredPaths world.home manifest).Nodup) :
    Left crates dirFor manifest world (world.activate crates dirFor manifest).1 := by
  refine ⟨fixed_activate.1, fixed_activate.2, fun r comes => ?_⟩
  rw [view_activate separate comes.path_mem, view_reconcileAll (separate.apart distinct) comes]

end Apart

/-- An activation replaces what a durable file holds only if that is logically equal to the base recorded for the file,
or to the incoming content if the file is seen for the first time. -/
def KeepsEdits (crates : Crates) (dirFor : String → String) (world : World) (manifest : List ManifestEntry) : Prop :=
  ∀ entry ∈ manifest, entry.persistence = some .durable → ∀ path, expandTilde world.home entry.path = some path →
    ∀ bytes, (world.targets path).contents = some bytes →
      ((world.activate crates dirFor manifest).1.targets path).contents = some bytes ∨
        ∃ incoming, world.sources entry.source = some incoming ∧ Matches crates entry path incoming (world.view dirFor path) bytes

/-- Activating again leaves every file and every directory of the store as it is. -/
def Idempotent (crates : Crates) (dirFor : String → String) (world : World) (manifest : List ManifestEntry) : Prop :=
  let once := (world.activate crates dirFor manifest).1
  let twice := (once.activate crates dirFor manifest).1
  (∀ path, twice.targets path = once.targets path) ∧ ∀ dir, twice.slot dir = once.slot dir

/-- A file that is reconciled without loss and the same way again. -/
structure Steady (crates : Crates) (r : Reconciliation) (view : View) : Prop where
  sealedMatches : SealedMatches crates r.entry r.path r.incoming view
  noLeftover : NoLeftover crates r.entry r.path r.incoming view
  staysSilent : StaysSilent crates r.entry r.path r.incoming view

theorem entry_unique {home : Option String} {entry other : ManifestEntry} (distinct : (declaredPaths home manifest).Nodup)
    (member : entry ∈ manifest) (otherMember : other ∈ manifest) (expanded : expandTilde home entry.path = some path)
    (otherExpanded : expandTilde home other.path = some path) : entry = other := by
  induction manifest with
  | nil => cases member
  | cons first rest ih =>
    have listed : ∀ entry ∈ rest, expandTilde home entry.path = some path → path ∈ declaredPaths home rest :=
      fun entry member expanded => mem_filterMap.mpr ⟨entry, member, expanded⟩
    rw [declaredPaths, filterMap_cons] at distinct
    rcases mem_cons.mp member with rfl | later <;> rcases mem_cons.mp otherMember with rfl | otherLater
    · rfl
    · simp only [expanded] at distinct
      exact absurd (listed other otherLater otherExpanded) (nodup_cons.mp distinct).1
    · simp only [otherExpanded] at distinct
      exact absurd (listed entry later expanded) (nodup_cons.mp distinct).1
    · refine ih ?_ later otherLater
      split at distinct
      · exact distinct
      · exact (nodup_cons.mp distinct).2

section Main

variable (separate : Separate dirFor world manifest) (distinct : (declaredPaths world.home manifest).Nodup)

include separate distinct

theorem keepsEdits_iff : KeepsEdits crates dirFor world manifest ↔
    ∀ r, ComesTo crates dirFor world manifest r → SealedMatches crates r.entry r.path r.incoming (world.view dirFor r.path) := by
  have apart := separate.apart distinct
  have reconciled : ∀ {r}, ComesTo crates dirFor world manifest r → (world.activate crates dirFor manifest).1.targets r.path =
      (r.effect crates (world.view dirFor r.path)).view.target := fun comes => by
    rw [← view_reconcileAll apart comes, World.view, targets_activate]
  constructor
  · intro keeps r comes
    refine overwrites_iff.mp fun durable bytes holds => ?_
    obtain ⟨member, expanded, source⟩ := comes.declared
    rcases keeps r.entry member durable r.path expanded bytes holds with kept | ⟨incoming, otherSource, same⟩
    · exact Or.inl (by rwa [reconciled comes] at kept)
    · obtain rfl := Option.some.inj (source.symm.trans otherSource)
      exact Or.inr same
  · intro sealedMatches entry member durable path expanded bytes holds
    by_cases comes : ∃ r, ComesTo crates dirFor world manifest r ∧ r.path = path
    · obtain ⟨r, comes, rfl⟩ := comes
      obtain ⟨rMember, rExpanded, source⟩ := comes.declared
      obtain rfl := entry_unique distinct rMember member rExpanded expanded
      rw [reconciled comes]
      rcases overwrites_iff.mpr (sealedMatches r comes) durable bytes holds with kept | same
      · exact Or.inl kept
      · exact Or.inr ⟨r.incoming, source, same⟩
    · refine Or.inl ?_
      rw [targets_activate, targets_reconcileAll (fun r reached same => comes ⟨r, reached, same⟩) apart]
      exact holds

theorem idempotent_iff : Idempotent crates dirFor world manifest ↔
    ∀ r, ComesTo crates dirFor world manifest r → r.Settles crates (world.view dirFor r.path) := by
  have apart := separate.apart distinct
  have isLeft : Left crates dirFor manifest world _ := left_activate separate distinct
  constructor
  · rintro ⟨targets, slots⟩ r comes
    refine (view_reconcileAll_again apart isLeft comes).mp ?_
    have member := comes.path_mem
    rw [← fixed_activate.1] at member
    rw [← view_activate separate.activate member, World.view, targets, slots]
    rfl
  · intro settle
    obtain ⟨same, ends⟩ := reconcileAll_again apart isLeft settle
    refine ⟨fun path => ?_, fun dir => ?_⟩
    · rw [targets_activate, same.targets]
    · rw [activate_fst, ends, fixed_activate.1]
      split_ifs with ok
      · have forgotten : ∀ dir, ((world.activate crates dirFor manifest).1.reconcileAll crates dirFor manifest).1.slot dir =
            (prune dirFor (declaredPaths world.home manifest) (world.reconcileAll crates dirFor manifest).1).slot dir := by
          intro dir
          rw [same.slot, activate_fst, if_pos ok]
        exact (prune_again forgotten).trans (same.slot dir)
      · exact same.slot dir

/-- An activation keeps durable edits and is idempotent exactly if every file that it comes to is steady. -/
theorem activation_keeps_and_settles_iff :
    KeepsEdits crates dirFor world manifest ∧ Idempotent crates dirFor world manifest ↔
      ∀ r, ComesTo crates dirFor world manifest r → Steady crates r (world.view dirFor r.path) := by
  rw [keepsEdits_iff separate distinct, idempotent_iff separate distinct]
  constructor
  · rintro ⟨sealedMatches, settle⟩ r comes
    obtain ⟨noLeftover, staysSilent⟩ := settles_reconcile.1.mp (settle r comes)
    exact ⟨sealedMatches r comes, noLeftover, staysSilent⟩
  · intro steady
    refine ⟨fun r comes => (steady r comes).sealedMatches, fun r comes => settles_reconcile.1.mpr ?_⟩
    exact ⟨(steady r comes).noLeftover, (steady r comes).staysSilent⟩

end Main

end Activate

/-! A durable text file, declared with the content "a". -/

def declaredText : ManifestEntry := ⟨"/home/u/f", "/nix/store/f", some .text, some .durable, none, none⟩

def textRecord : Meta := ⟨"/home/u/f", "/nix/store/e", none, none, none, .text, .durable, none⟩

/-- The directory holds a staged base and no record. -/
def leftoverWorld : World where
  home := none
  sources _ := some [97]
  store := (∅ : Std.ExtTreeMap String Slot).insert "/home/u/f" ⟨.missing, none, some [98]⟩
  targets _ := .absent
  journal := []

/-- The file was edited and can be written but not read. -/
def sealedWorld : World where
  home := none
  sources _ := some [97]
  store := (∅ : Std.ExtTreeMap String Slot).insert "/home/u/f" ⟨.present textRecord, some [98], none⟩
  targets _ := .file [99] false true
  journal := []

/-- The second activation clears the staged base that the first left, and edits that cannot be read are lost. -/
theorem activation_clears_and_overwrites :
    ¬ Idempotent noCrates id leftoverWorld [declaredText] ∧ ¬ KeepsEdits noCrates id sealedWorld [declaredText] := by
  constructor
  · rintro ⟨-, slots⟩
    exact absurd (slots "/home/u/f") (by decide +kernel)
  · intro keeps
    have outcome := keeps declaredText (by simp) rfl "/home/u/f" rfl [99] rfl
    have overwritten : ((sealedWorld.activate noCrates id [declaredText]).1.targets "/home/u/f").contents = some [97] := by
      decide +kernel
    have differs : logicallyEqual noCrates .text [98] [99] = false := by decide +kernel
    rcases outcome with kept | ⟨incoming, -, base, isBase, same⟩
    · cases overwritten.symm.trans kept
    · obtain rfl : [98] = base := Option.some.inj isBase
      cases differs.symm.trans same

/-- The file is there already and holds what is declared. -/
def cleanWorld : World where
  home := none
  sources _ := some [97]
  store := ∅
  targets _ := .file [97] true true
  journal := []

theorem clean_activation_iff :
    KeepsEdits noCrates id cleanWorld [declaredText] ∧ Idempotent noCrates id cleanWorld [declaredText] ↔
      ∀ r, ComesTo noCrates id cleanWorld [declaredText] r → Steady noCrates r (cleanWorld.view id r.path) :=
  activation_keeps_and_settles_iff (fun _ _ _ _ same => same) (by decide +kernel)

end World

end Index.Delta
