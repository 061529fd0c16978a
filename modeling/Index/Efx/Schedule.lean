import Index.Efx.Settlement

/-! # Processing a plan in batches

A level of `apply` is one batch; the sequential reference processes one effect at a time.  Both give
every effect the settlement it has in the final state, whatever batches the effects come in, as long
as references point to earlier batches. -/

namespace Index.Efx

open Index.Lib List

/-! ## Prepared runs -/

/-- What the diff and the executor check establish before the first effect is processed. -/
structure Prepared (journal : Journal) (registry : Registry) (decisions : BTreeMap String Decision)
    (effects : List Effect) where
  decision : Effect → Decision
  found : ∀ effect ∈ effects, decisions[effect.name]? = some (decision effect)
  cached : ∀ effect ∈ effects, (decision effect).verdict = .cached ↔ journal.isCached (decision effect).id = true
  registered : ∀ effect ∈ effects, (decision effect).verdict = .execute →
    ∃ executor, registry.get effect.executor = some executor

namespace Prepared

variable {journal : Journal} {registry : Registry} {decisions : BTreeMap String Decision} {effects : List Effect}

/-- The settlement of an effect in a run state, cached outputs coming from the journal of the diff. -/
def settle (prepared : Prepared journal registry decisions effects) (host : Host) (state : RunState)
    (effect : Effect) : Settlement :=
  settlement host journal registry (prepared.decision effect) state effect

variable (prepared : Prepared journal registry decisions effects) (host : Host) {state : RunState} {effect : Effect}

theorem settle_congr {other : RunState} (agree : ∀ target ∈ effect.references, state.cell target = other.cell target) :
    prepared.settle host state effect = prepared.settle host other effect :=
  settlement_congr (fun target refers => by rw [agree target refers]) (fun target refers => by rw [agree target refers])

/-- The journal after the settlements of the listed effects in a run state. -/
def writes (state : RunState) (current : Journal) (batch : List Effect) : Journal :=
  batch.foldl (fun journal effect => (prepared.settle host state effect).write journal) current

/-- The calls in the settlements of the listed effects in a run state. -/
def callsOf (state : RunState) (batch : List Effect) : List (String × ExecuteRequest) :=
  batch.flatMap fun effect => (prepared.settle host state effect).calls effect

theorem writes_cons (state : RunState) (current : Journal) (effect : Effect) (batch : List Effect) :
    prepared.writes host state current (effect :: batch) =
      prepared.writes host state ((prepared.settle host state effect).write current) batch := rfl

variable {batch : List Effect}

theorem writes_congr {other : RunState} (current : Journal)
    (same : ∀ effect ∈ batch, prepared.settle host state effect = prepared.settle host other effect) :
    prepared.writes host state current batch = prepared.writes host other current batch := by
  refine foldl_ext _ _ _ fun journal effect member => ?_
  rw [same effect member]

theorem callsOf_congr {other : RunState}
    (same : ∀ effect ∈ batch, prepared.settle host state effect = prepared.settle host other effect) :
    prepared.callsOf host state batch = prepared.callsOf host other batch := by
  refine flatMap_congr fun effect member => ?_
  rw [same effect member]

/-- A batch can be processed: its effects are new, do not reference each other, and the journal still
holds what it held at the diff for the cached ones. -/
structure Ready (progress : Progress) (batch : List Effect) : Prop where
  subset : batch ⊆ effects
  distinct : (batch.map Effect.name).Nodup
  apart : ∀ effect ∈ batch, ∀ target ∈ effect.references, target ∉ batch.map Effect.name
  blank : ∀ effect ∈ batch, progress.state.cell effect.name = {}
  unchanged : ∀ effect ∈ batch, (prepared.decision effect).verdict = .cached →
    progress.journal.entry (prepared.decision effect).id = journal.entry (prepared.decision effect).id

/-- The batch has been processed: every effect has its settlement and nothing else has changed. -/
structure Processes (start final : Progress) (batch : List Effect) : Prop where
  settled : ∀ effect ∈ batch, final.state.cell effect.name = (prepared.settle host start.state effect).cell
  others : ∀ name ∉ batch.map Effect.name, final.state.cell name = start.state.cell name
  journal : final.journal = prepared.writes host start.state start.journal batch
  calls : final.calls = start.calls ++ prepared.callsOf host start.state batch

variable {prepared}

theorem cached_entry (member : effect ∈ effects) (verdict : (prepared.decision effect).verdict = .cached) :
    ∃ entry, journal.entry (prepared.decision effect).id = some entry ∧ entry.status = .succeeded := by
  have isCached := (prepared.cached effect member).mp verdict
  simpa [Journal.isCached, Option.any_eq_true] using isCached

/-! ## One level -/

variable {start : RunState}

/-- The staging loop from `start`, with part of the batch already staged. -/
theorem stageEffects_spec {current : Journal} (subset : batch ⊆ effects) (distinct : (batch.map Effect.name).Nodup)
    (apart : ∀ effect ∈ batch, ∀ target ∈ effect.references, target ∉ batch.map Effect.name)
    (unchanged : ∀ effect ∈ batch, (prepared.decision effect).verdict = .cached →
      current.entry (prepared.decision effect).id = journal.entry (prepared.decision effect).id) (state : RunState)
    (jobs : List Job) (blank : ∀ effect ∈ batch, state.cell effect.name = {})
    (agree : ∀ effect ∈ batch, ∀ target ∈ effect.references, state.cell target = start.cell target) : ∃ final,
      batch.foldlM (stageEffect decisions current registry) (state, jobs) =
        .ok (final, jobs ++ batch.flatMap fun effect =>
          ((prepared.settle host start effect).job registry effect).toList) ∧
      (∀ effect ∈ batch, final.cell effect.name =
        (prepared.settle host start effect).stagedCell (prepared.decision effect) effect) ∧
      ∀ name ∉ batch.map Effect.name, final.cell name = state.cell name := by
  induction batch generalizing state jobs with
  | nil => exact ⟨state, by simp [pure, Except.pure], by simp, fun _ _ => rfl⟩
  | cons effect batch ih =>
    obtain ⟨member, rest⟩ := cons_subset.mp subset
    obtain ⟨fresh, distinct⟩ := nodup_cons.mp distinct
    obtain ⟨apartHere, apart⟩ := forall_mem_cons.mp apart
    obtain ⟨unchangedHere, unchanged⟩ := forall_mem_cons.mp unchanged
    obtain ⟨blankHere, blank⟩ := forall_mem_cons.mp blank
    obtain ⟨agreeHere, agree⟩ := forall_mem_cons.mp agree
    have entries : (prepared.decision effect).verdict = .cached → ∃ entry,
        current.entry (prepared.decision effect).id = some entry ∧
          journal.entry (prepared.decision effect).id = some entry := by
      intro verdict
      obtain ⟨entry, before, -⟩ := cached_entry member verdict
      exact ⟨entry, (unchangedHere verdict).trans before, before⟩
    obtain ⟨next, staged, cells⟩ := stageEffect_spec host jobs (prepared.found effect member) entries
      (prepared.registered effect member) blankHere
    have here : settlement host journal registry (prepared.decision effect) state effect =
        prepared.settle host start effect := prepared.settle_congr host agreeHere
    rw [here] at staged cells
    have elsewhere : ∀ name, name ≠ effect.name → next.cell name = state.cell name := by
      intro name differ
      rw [cells, Function.update_of_ne differ]
    obtain ⟨final, foldStaged, settledCells, otherCells⟩ := ih rest distinct
      (fun other otherMember target refers inside =>
        apart other otherMember target refers (mem_cons_of_mem _ inside))
      unchanged next _
      (fun other otherMember => by
        rw [elsewhere other.name (fun same => fresh (same ▸ mem_map_of_mem otherMember))]
        exact blank other otherMember)
      (fun other otherMember target refers => by
        rw [elsewhere target (fun same => apart other otherMember target refers (same ▸ mem_cons_self))]
        exact agree other otherMember target refers)
    refine ⟨final, ?_, ?_, ?_⟩
    · rw [foldlM_cons, staged, flatMap_cons, ← append_assoc]
      exact foldStaged
    · refine forall_mem_cons.mpr ⟨?_, settledCells⟩
      rw [otherCells effect.name fresh, cells, Function.update_self]
    · intro name outside
      simp only [map_cons, mem_cons, not_or] at outside
      rw [otherCells name outside.2, elsewhere name outside.1]

theorem settles (prepared : Prepared journal registry decisions effects) (member : effect ∈ effects) (state : RunState) :
    Settles host journal registry (prepared.decision effect) state effect (prepared.settle host state effect) :=
  settlement_settles (prepared.registered effect member)

/-- The settling loop over the jobs of a staged batch. -/
theorem settleEffects_spec (subset : batch ⊆ effects) (distinct : (batch.map Effect.name).Nodup) (current : Journal) (state : RunState)
    (staged : ∀ effect ∈ batch, state.cell effect.name =
      (prepared.settle host start effect).stagedCell (prepared.decision effect) effect) : ∃ final,
      settleLevel host (runLevel host (batch.flatMap fun effect =>
          ((prepared.settle host start effect).job registry effect).toList)) current state =
        .ok (prepared.writes host start current batch, final) ∧
      (∀ effect ∈ batch, final.cell effect.name = (prepared.settle host start effect).cell) ∧
      ∀ name ∉ batch.map Effect.name, final.cell name = state.cell name := by
  induction batch generalizing current state with
  | nil => exact ⟨state, rfl, by simp, fun _ _ => rfl⟩
  | cons effect batch ih =>
    obtain ⟨member, rest⟩ := cons_subset.mp subset
    obtain ⟨fresh, distinct⟩ := nodup_cons.mp distinct
    obtain ⟨stagedHere, staged⟩ := forall_mem_cons.mp staged
    have spec := prepared.settles host member start
    cases due : (prepared.settle host start effect).job registry effect with
    | none =>
      obtain ⟨request, entry⟩ := spec.of_no_job due
      obtain ⟨final, settles, settledCells, otherCells⟩ := ih rest distinct current state staged
      refine ⟨final, ?_, forall_mem_cons.mpr ⟨?_, settledCells⟩, ?_⟩
      · rw [flatMap_cons, due, writes, foldl_cons, Settlement.write, entry]
        exact settles
      · rw [otherCells effect.name fresh, stagedHere, Settlement.stagedCell, request]
      · intro name outside
        exact otherCells name fun inside => outside (mem_cons_of_mem _ inside)
    | some job =>
      obtain ⟨next, settlesHere, cells⟩ := spec.settleOutcome current due stagedHere
      have elsewhere : ∀ name, name ≠ effect.name → next.cell name = state.cell name := by
        intro name differ
        rw [cells, Function.update_of_ne differ]
      obtain ⟨final, settles, settledCells, otherCells⟩ := ih rest distinct _ next (by
        intro other otherMember
        rw [elsewhere other.name (fun same => fresh (same ▸ mem_map_of_mem otherMember))]
        exact staged other otherMember)
      refine ⟨final, ?_, forall_mem_cons.mpr ⟨?_, settledCells⟩, ?_⟩
      · rw [flatMap_cons, due, writes, foldl_cons]
        simp only [settleLevel, runLevel, Option.toList_some, cons_append, nil_append, map_cons,
          foldlM_cons, settlesHere]
        exact settles
      · rw [otherCells effect.name fresh, cells, Function.update_self]
      · intro name outside
        simp only [map_cons, mem_cons, not_or] at outside
        rw [otherCells name outside.2, elsewhere name outside.1]

theorem job_calls (member : effect ∈ effects) (state : RunState) :
    ((prepared.settle host state effect).job registry effect).toList.map (fun job => (job.effect.executor, job.request)) =
      (prepared.settle host state effect).calls effect := by
  cases due : (prepared.settle host state effect).job registry effect with
  | none => simp [Settlement.calls, ((prepared.settles host member state).of_no_job due).1]
  | some job =>
    unfold Settlement.job at due
    split at due
    next request executor asked known =>
      cases due
      simp [Settlement.calls, asked]
    next => cases due

variable {progress : Progress}

/-- A level processes its effects. -/
theorem applyLevel_spec (ready : prepared.Ready progress batch) :
    ∃ final, applyLevel host decisions registry progress batch = .ok final ∧
      prepared.Processes host progress final batch := by
  obtain ⟨staged, stages, stagedCells, stagedOthers⟩ := stageEffects_spec host ready.subset ready.distinct
    ready.apart ready.unchanged progress.state [] ready.blank (fun _ _ _ _ => rfl)
  obtain ⟨final, settles, settledCells, settledOthers⟩ := settleEffects_spec host ready.subset ready.distinct
    progress.journal staged stagedCells
  rw [nil_append] at stages
  simp only [applyLevel, stageLevel, stages, settles]
  refine ⟨_, rfl, settledCells, ?_, rfl, ?_⟩
  · intro name outside
    rw [settledOthers name outside, stagedOthers name outside]
  · rw [map_flatMap, callsOf]
    exact congrArg _ (flatMap_congr fun effect member => job_calls host (ready.subset member) progress.state)

/-! ## Whole runs -/

variable (prepared) in
/-- The effects of `done` have been processed: each has the settlement of the present state. -/
structure Complete (progress : Progress) (done : List Effect) : Prop where
  settled : ∀ effect ∈ done, progress.state.cell effect.name = (prepared.settle host progress.state effect).cell
  blank : ∀ name ∉ done.map Effect.name, progress.state.cell name = {}
  journal : progress.journal = prepared.writes host progress.state journal done
  calls : progress.calls = prepared.callsOf host progress.state done

theorem complete_nil : prepared.Complete host { journal } [] :=
  ⟨by simp, fun name _ => by simp [RunState.cell], rfl, rfl⟩

theorem settle_id (prepared : Prepared journal registry decisions effects) (state : RunState) (effect : Effect) :
    (prepared.settle host state effect).record.id = (prepared.decision effect).id :=
  settlement_record_id

variable (prepared) in
/-- The last entry that a batch writes under a key. -/
def lastEntry (state : RunState) (batch : List Effect) (key : String) : Option JournalEntry :=
  (batch.filter fun effect => (prepared.decision effect).id.toHex = key).reverse.findSome? fun effect =>
    (prepared.settle host state effect).entry

theorem lookup_writes (state : RunState) (current : Journal) (batch : List Effect) (key : String) :
    (prepared.writes host state current batch).state.entries[key]? =
      (prepared.lastEntry host state batch key).or current.state.entries[key]? := by
  induction batch generalizing current with
  | nil => rfl
  | cons effect batch ih =>
    rw [writes_cons, ih, Settlement.lookup_write, settle_id, lastEntry, lastEntry, filter_cons]
    by_cases here : (prepared.decision effect).id.toHex = key
    · simp only [here, if_true, decide_true, reverse_cons, findSome?_append, findSome?_singleton, Option.or_assoc]
    · simp only [here, if_false, decide_false, Option.none_or, Bool.false_eq_true]

/-- Writes go to identities that are not cached. -/
theorem writes_entry {done : List Effect} (subset : done ⊆ effects) {id : EffectId} (isCached : journal.isCached id = true)
    (current : Journal) : (prepared.writes host state current done).entry id = current.entry id := by
  have idle : prepared.lastEntry host state done id.toHex = none := by
    refine findSome?_eq_none_iff.mpr fun effect selected => ?_
    obtain ⟨member, named⟩ := mem_filter.mp (mem_reverse.mp selected)
    obtain rfl := EffectId.toHex_injective (of_decide_eq_true named)
    refine Option.eq_none_iff_forall_ne_some.mpr fun entry written => ?_
    have execute := (prepared.settles host (subset member) state).entry_execute written
    simp [(prepared.cached effect (subset member)).mpr isCached] at execute
  rw [Journal.entry, Journal.entry, lookup_writes, idle, Option.none_or]

/-- Processing a batch whose references are done completes the batch too. -/
theorem Complete.processes {start final : Progress} {done : List Effect} (complete : prepared.Complete host start done)
    (processed : prepared.Processes host start final batch)
    (closed : ∀ effect ∈ done ++ batch, ∀ target ∈ effect.references, target ∈ done.map Effect.name)
    (distinct : ((done ++ batch).map Effect.name).Nodup) : prepared.Complete host final (done ++ batch) := by
  rw [map_append] at distinct
  have apart : ∀ name ∈ done.map Effect.name, name ∉ batch.map Effect.name := fun name inside outside =>
    (disjoint_of_nodup_append distinct) inside outside
  have same : ∀ effect ∈ done ++ batch,
      prepared.settle host final.state effect = prepared.settle host start.state effect := by
    intro effect member
    refine settle_congr _ _ fun target refers => ?_
    exact processed.others target (apart target (closed effect member target refers))
  have sameDone : ∀ effect ∈ done, prepared.settle host final.state effect = prepared.settle host start.state effect :=
    fun effect member => same effect (mem_append_left _ member)
  have sameBatch : ∀ effect ∈ batch,
      prepared.settle host final.state effect = prepared.settle host start.state effect :=
    fun effect member => same effect (mem_append_right _ member)
  refine ⟨?_, ?_, ?_, ?_⟩
  · intro effect member
    rw [same effect member]
    rcases mem_append.mp member with member | member
    · rw [processed.others _ (apart _ (mem_map_of_mem member)), complete.settled effect member]
    · exact processed.settled effect member
  · intro name outside
    simp only [map_append, mem_append, not_or] at outside
    rw [processed.others name outside.2, complete.blank name outside.1]
  · rw [processed.journal, complete.journal, ← writes_congr _ _ _ sameDone, ← writes_congr _ _ _ sameBatch]
    exact foldl_append.symm
  · rw [processed.calls, complete.calls, ← callsOf_congr _ _ sameDone, ← callsOf_congr _ _ sameBatch]
    exact flatMap_append.symm

/-- Any loop that processes ready batches completes a plan cut into batches along its references. -/
theorem run_spec {step : Progress → List Effect → Except (Fault EngineError) Progress} {batches : List (List Effect)}
    (done : List Effect)
    (spec : ∀ progress, ∀ batch ∈ batches, prepared.Ready progress batch →
      ∃ final, step progress batch = .ok final ∧ prepared.Processes host progress final batch)
    (subset : done ++ batches.flatten ⊆ effects) (distinct : ((done ++ batches.flatten).map Effect.name).Nodup)
    (batched : BatchedAfter Effect.name Effect.references (done.map Effect.name) batches)
    (closed : ∀ effect ∈ done, ∀ target ∈ effect.references, target ∈ done.map Effect.name)
    (complete : prepared.Complete host progress done) :
    ∃ final, batches.foldlM step progress = .ok final ∧ prepared.Complete host final (done ++ batches.flatten) := by
  induction batches generalizing done progress with
  | nil => exact ⟨progress, rfl, by simpa using complete⟩
  | cons batch batches ih =>
    rw [flatten_cons, ← append_assoc] at subset distinct ⊢
    obtain ⟨references, batched⟩ := batched
    have distinctHere : ((done ++ batch).map Effect.name).Nodup := by
      rw [map_append] at distinct
      exact distinct.of_append_left
    have apart : ∀ name ∈ done.map Effect.name, name ∉ batch.map Effect.name := by
      rw [map_append] at distinctHere
      exact fun name inside outside => (disjoint_of_nodup_append distinctHere) inside outside
    have ready : prepared.Ready progress batch := by
      refine ⟨fun effect member => subset (by simp [member]), ?_, ?_, ?_, ?_⟩
      · rw [map_append] at distinctHere
        exact distinctHere.of_append_right
      · intro effect member target refers
        exact apart target (references effect member target refers)
      · intro effect member
        exact complete.blank _ fun inside => apart _ inside (mem_map_of_mem member)
      · intro effect member verdict
        rw [complete.journal]
        refine writes_entry host (fun other otherMember => subset (by simp [otherMember])) ?_ journal
        exact (prepared.cached effect (subset (by simp [member]))).mp verdict
    obtain ⟨next, steps, processed⟩ := spec progress batch mem_cons_self ready
    have closedNext : ∀ effect ∈ done ++ batch, ∀ target ∈ effect.references, target ∈ done.map Effect.name := by
      intro effect member
      rcases mem_append.mp member with member | member
      · exact closed effect member
      · exact references effect member
    obtain ⟨final, folds, completes⟩ := ih _
      (fun progress other member => spec progress other (mem_cons_of_mem _ member)) subset distinct
      (by rw [map_append]; exact batched)
      (fun effect member target refers => by
        rw [map_append]
        exact mem_append_left _ (closedNext effect member target refers))
      (complete.processes host processed closedNext distinctHere)
    refine ⟨final, ?_, completes⟩
    rw [foldlM_cons, steps]
    exact folds

end Prepared

end Index.Efx
