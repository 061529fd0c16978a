import Index.Efx.SoundRun

/-! # Level-parallel execution refines sequential execution

The reference takes the effects one by one in topological order and settles each at once.  `apply`
agrees with it on every record, every request and, when the hash separates the plan's documents, on
every journal entry, all up to times and durations. -/

namespace Index.Efx

open Index.Lib Function List

/-! ## The sequential reference -/

/-- Settles one effect: its record, outputs, halt, journal entry and call, all at once. -/
def Progress.settle (progress : Progress) (effect : Effect) (settled : Settlement) : Progress :=
  { journal := settled.write progress.journal
    state :=
      { outputs := match settled.outputs with
          | some produced => progress.state.outputs.insert effect.name produced
          | none => progress.state.outputs
        halted := if settled.halts then progress.state.halted.insert effect.name else progress.state.halted
        results := progress.state.results.insert effect.name settled.record }
    calls := progress.calls ++ settled.calls effect }

def sequentialStep (host : Host) (decisions : BTreeMap String Decision) (registry : Registry) (progress : Progress)
    (effect : Effect) : Except (Fault EngineError) Progress :=
  match decisions[effect.name]? with
  | none => .error .panicked
  | some decision =>
    .ok (progress.settle effect (settlement host progress.journal registry decision progress.state effect))

/-- The reference: `apply` with the effects processed one by one in topological order. -/
def applySequential (sha256 : List UInt8 → Digest) (plan : Plan) (journal : Journal) (registry : Registry)
    (host : Host) : Applied :=
  applyWith sha256 plan journal registry host fun decisions order =>
    order.foldlM (sequentialStep host decisions registry) { journal }

theorem Progress.settle_cell {progress : Progress} {effect : Effect} (settled : Settlement)
    (blank : progress.state.cell effect.name = {}) :
    (progress.settle effect settled).state.cell = update progress.state.cell effect.name settled.cell := by
  have outputs : progress.state.outputs[effect.name]? = none := congrArg Cell.outputs blank
  have halted : progress.state.halted.contains effect.name = false := congrArg Cell.halted blank
  funext other
  by_cases same : effect.name = other
  · subst same
    ext1
    · cases produced : settled.outputs <;> simp [Progress.settle, RunState.cell, Settlement.cell, produced, outputs]
    · cases halts : settled.halts <;> simp [Progress.settle, RunState.cell, Settlement.cell, halts, halted]
    · simp [Progress.settle, RunState.cell, Settlement.cell]
  · rw [update_of_ne (Ne.symm same)]
    ext1
    · cases produced : settled.outputs <;>
        simp [Progress.settle, RunState.cell, produced, BTreeMap.getElem?_insert, same]
    · cases halts : settled.halts <;> simp [Progress.settle, RunState.cell, halts, same]
    · simp [Progress.settle, RunState.cell, BTreeMap.getElem?_insert, same]

variable {journal : Journal} {registry : Registry} {decisions : BTreeMap String Decision} {effects : List Effect}
  {prepared : Prepared journal registry decisions effects}

namespace Prepared

/-- A sequential step processes its effect. -/
theorem sequentialStep_spec (host : Host) {progress : Progress} {effect : Effect}
    (ready : prepared.Ready progress [effect]) :
    ∃ final, sequentialStep host decisions registry progress effect = .ok final ∧
      prepared.Processes host progress final [effect] := by
  have here : effect ∈ [effect] := mem_singleton_self effect
  have member := ready.subset here
  have settlementHere : settlement host progress.journal registry (prepared.decision effect) progress.state effect =
      prepared.settle host progress.state effect := settlement_journal_congr (ready.unchanged effect here)
  simp only [sequentialStep, prepared.found effect member, settlementHere]
  have cells := Progress.settle_cell (prepared.settle host progress.state effect) (ready.blank effect here)
  refine ⟨_, rfl, ?_, ?_, rfl, ?_⟩
  · intro other otherMember
    rw [mem_singleton.mp otherMember, cells, update_self]
  · intro name outside
    rw [cells, update_of_ne]
    simpa using outside
  · simp [callsOf, Progress.settle]

/-- The sequential reference completes a dependency order. -/
theorem sequential_complete (prepared : Prepared journal registry decisions effects) (host : Host)
    (ordered : DependencyOrder effects) (unique : (effects.map Effect.name).Nodup) :
    ∃ final, effects.foldlM (sequentialStep host decisions registry) { journal } = .ok final ∧
      prepared.Complete host final effects := by
  have flat : (effects.map fun effect => [effect]).flatten = effects := by
    rw [← flatMap_def, flatMap_singleton']
  have spec : ∀ progress, ∀ batch ∈ effects.map fun effect => [effect], prepared.Ready progress batch →
      ∃ final, batch.foldlM (sequentialStep host decisions registry) progress = .ok final ∧
        prepared.Processes host progress final batch := by
    intro progress batch member ready
    obtain ⟨effect, -, rfl⟩ := mem_map.mp member
    simpa using sequentialStep_spec host ready
  obtain ⟨final, runs, complete⟩ := run_spec host [] spec (by rw [nil_append, flat]; exact List.Subset.refl _)
    (by rw [nil_append, flat]; exact unique) ordered.singletons (by simp) (complete_nil host)
  rw [nil_append, flat] at complete
  refine ⟨final, ?_, complete⟩
  rw [← runs, foldlM_map]
  simp

end Prepared

/-! ## Up to times and durations -/

def RunEffect.untimed (record : RunEffect) : RunEffect := { record with durationMs := 0 }

def JournalEntry.untimed (entry : JournalEntry) : JournalEntry := { entry with recordedAt := 0 }

def RunReport.untimed (report : RunReport) : RunReport :=
  { report with effects := report.effects.map RunEffect.untimed }

def Settlement.untimed (settled : Settlement) : Settlement :=
  { settled with record := settled.record.untimed, entry := settled.entry.map JournalEntry.untimed }

/-- The host only adds times and durations. -/
theorem settlement_untimed (host other : Host) (journal : Journal) (registry : Registry) (decision : Decision)
    (state : RunState) (effect : Effect) :
    (settlement host journal registry decision state effect).untimed =
      (settlement other journal registry decision state effect).untimed := by
  unfold settlement
  cases firstHaltedDependency effect state.halted with
  | some blocker => rfl
  | none =>
    cases decision.verdict with
    | cached => rfl
    | execute =>
      cases resolveInputs effect state.outputs with
      | error message => rfl
      | ok inputs =>
        cases registry.get effect.executor with
        | none => rfl
        | some executor =>
          simp only [runJob]
          cases executor (requestOf effect inputs) with
          | none => rfl
          | some result => cases result <;> rfl

namespace Prepared

variable {host other : Host} {left right : Progress} {done more : List Effect}

/-- Two complete runs of one plan agree on every settlement, whatever order they took. -/
theorem Complete.settlement_unique (leftComplete : prepared.Complete host left done)
    (rightComplete : prepared.Complete other right more) (leftPerm : done.Perm effects)
    (rightPerm : more.Perm effects) (ordered : DependencyOrder effects) (unique : (effects.map Effect.name).Nodup) :
    ∀ effect ∈ effects, (prepared.settle host left.state effect).untimed =
      (prepared.settle other right.state effect).untimed := by
  refine ordered.forall_of_needs unique fun effect member ih => ?_
  have cells : ∀ target ∈ effect.references,
      (left.state.cell target).halted = (right.state.cell target).halted ∧
        (left.state.cell target).outputs = (right.state.cell target).outputs := by
    intro target refers
    obtain ⟨source, sourceMember, rfl, -⟩ := leftComplete.source leftPerm ordered member refers
    have same := ih source sourceMember refers
    rw [leftComplete.settled source (leftPerm.mem_iff.mpr sourceMember),
      rightComplete.settled source (rightPerm.mem_iff.mpr sourceMember)]
    exact ⟨congrArg (fun settled => settled.halts) same, congrArg (fun settled => settled.outputs) same⟩
  have congruent : prepared.settle host left.state effect = prepared.settle host right.state effect :=
    settlement_congr (fun target refers => (cells target refers).1) (fun target refers => (cells target refers).2)
  rw [congruent]
  exact settlement_untimed host other _ _ _ _ _

/-- Writes touch nothing but the entries. -/
theorem writes_frame (state : RunState) (batch : List Effect) (current : Journal) :
    (prepared.writes host state current batch).path = current.path ∧
      (prepared.writes host state current batch).state.runs = current.state.runs := by
  induction batch generalizing current with
  | nil => exact ⟨rfl, rfl⟩
  | cons effect batch ih =>
    rw [writes_cons, (ih _).1, (ih _).2, Settlement.write]
    split <;> exact ⟨rfl, rfl⟩

section

variable (leftComplete : prepared.Complete host left done) (rightComplete : prepared.Complete other right more)
  (leftPerm : done.Perm effects) (rightPerm : more.Perm effects) (ordered : DependencyOrder effects)
  (unique : (effects.map Effect.name).Nodup)
include leftComplete rightComplete leftPerm rightPerm ordered unique

theorem Complete.records_unique : (prepared.records host left.state).map RunEffect.untimed =
      (prepared.records other right.state).map RunEffect.untimed := by
  rw [records, records, map_map, map_map]
  refine map_congr_left fun effect member => ?_
  have same := leftComplete.settlement_unique rightComplete leftPerm rightPerm ordered unique effect member
  exact congrArg (fun settled => settled.record) same

theorem Complete.calls_perm : left.calls.Perm right.calls := by
  have same : prepared.callsOf host left.state effects = prepared.callsOf other right.state effects := by
    refine flatMap_congr fun effect member => ?_
    have same := leftComplete.settlement_unique rightComplete leftPerm rightPerm ordered unique effect member
    exact congrArg (fun settled => settled.calls effect) same
  rw [leftComplete.calls, rightComplete.calls]
  have leftCalls : (prepared.callsOf host left.state done).Perm (prepared.callsOf host left.state effects) :=
    leftPerm.flatMap_right _
  have rightCalls : (prepared.callsOf other right.state more).Perm (prepared.callsOf other right.state effects) :=
    rightPerm.flatMap_right _
  rw [same] at leftCalls
  exact leftCalls.trans rightCalls.symm

/-- Runs that take the effects of one identity in the same order leave the same entries. -/
theorem Complete.entries_unique {key : String}
    (sameOrder : (done.filter fun effect => (prepared.decision effect).id.toHex = key) =
      more.filter fun effect => (prepared.decision effect).id.toHex = key) :
    left.journal.state.entries[key]?.map JournalEntry.untimed =
      right.journal.state.entries[key]?.map JournalEntry.untimed := by
  rw [leftComplete.journal, rightComplete.journal, lookup_writes, lookup_writes, lastEntry, lastEntry, sameOrder,
    Option.map_or, Option.map_or, map_findSome?, map_findSome?]
  congr 1
  refine findSome?_congr fun effect member => ?_
  have inside := rightPerm.mem_iff.mp (mem_of_mem_filter (mem_reverse.mp member))
  have same := leftComplete.settlement_unique rightComplete leftPerm rightPerm ordered unique effect inside
  exact congrArg (fun settled => settled.entry) same

end

end Prepared

/-! ## Equal identities share a level -/

section SameLevel

variable {plan : Plan} {rank : Effect → Nat}
  (grows : ∀ effect ∈ plan.effects, ∀ target ∈ effect.references,
    ∃ source ∈ plan.effects, source.name = target ∧ rank source < rank effect)
  (tight : ∀ effect ∈ plan.effects, rank effect = 0 ∨
    ∃ source ∈ plan.effects, source.name ∈ effect.references ∧ rank effect = rank source + 1)

include grows tight

/-- The longest path below an effect is a property of its Merkle tree. -/
theorem MerkleEq.rank_le {effect other : Effect} (same : MerkleEq plan plan effect other)
    (member : effect ∈ plan.effects) (otherMember : other ∈ plan.effects) : rank effect ≤ rank other := by
  induction same with
  | @node effect other kind executor literals fields referenced ih =>
    rcases tight effect member with zero | ⟨source, sourceMember, refers, higher⟩
    · omega
    · -- The other effect refers, at the same key, to an effect that ranks no lower.
      obtain ⟨key, r, present, name⟩ := Effect.mem_references.mp refers
      obtain ⟨target, otherPresent⟩ := (fields key r.field).mp ⟨r.effect, present⟩
      obtain ⟨source', sourceMember', name', lower⟩ :=
        grows other otherMember target (Effect.mem_references.mpr ⟨key, _, otherPresent, rfl⟩)
      have below := ih key r _ source source' present otherPresent (Plan.get_eq_some.mpr ⟨sourceMember, name.symm⟩)
        (Plan.get_eq_some.mpr ⟨sourceMember', name'⟩) sourceMember sourceMember'
      omega

end SameLevel

/-- Layering keeps the effects of one identity in topological order. -/
theorem filter_levels {sha256 : List UInt8 → Digest} {plan : Plan} {order : List Effect}
    {ids : BTreeMap String EffectId} (valid : plan.Valid) (sorted : plan.topoOrder = .ok order)
    (identified : plan.effectIds sha256 = .ok ids) (identifies : Identifies sha256 ids plan.effects)
    (free : CollisionFree sha256 (plan.hashed sha256)) (key : String) :
    ((levels order).flatten.filter fun effect => (idOf ids effect).toHex = key) =
      order.filter fun effect => (idOf ids effect).toHex = key := by
  obtain ⟨perm, ordered⟩ := Plan.topoOrder_ok sorted
  have unique : (order.map Effect.name).Nodup := (perm.map _).nodup_iff.mpr plan.unique
  obtain ⟨rank, count, levelsEq, bounded, grows, tight⟩ := levels_eq_layers ordered unique
  have rankLe : ∀ effect ∈ order, ∀ other ∈ order, idOf ids effect = idOf ids other → rank effect ≤ rank other := by
    intro effect member other otherMember same
    have tree : MerkleEq plan plan effect other := by
      refine (identifies.same_iff_merkleEq valid valid identifies (free.mono ?_) effect (perm.mem_iff.mp member)
        other (perm.mem_iff.mp otherMember)).mp ?_
      · rw [Plan.hashed_eq identified]
        exact append_subset.mpr ⟨List.Subset.refl _, List.Subset.refl _⟩
      · rw [identifies.idOf_eq (perm.mem_iff.mp member), identifies.idOf_eq (perm.mem_iff.mp otherMember), same]
    refine tree.rank_le ?_ ?_ (perm.mem_iff.mp member) (perm.mem_iff.mp otherMember)
    · intro effect member target refers
      obtain ⟨source, sourceMember, named⟩ := grows effect (perm.mem_iff.mpr member) target refers
      exact ⟨source, perm.mem_iff.mp sourceMember, named⟩
    · intro effect member
      refine (tight effect (perm.mem_iff.mpr member)).imp_right ?_
      rintro ⟨source, sourceMember, higher⟩
      exact ⟨source, perm.mem_iff.mp sourceMember, higher⟩
  rw [levelsEq]
  refine filter_layers_flatten bounded fun effect member other otherMember here there => ?_
  have same : idOf ids effect = idOf ids other :=
    EffectId.toHex_injective ((of_decide_eq_true here).trans (of_decide_eq_true there).symm)
  exact Nat.le_antisymm (rankLe effect member other otherMember same) (rankLe other otherMember effect member same.symm)

/-- `apply` against the sequential reference, and what its run guarantees.  The journal is arbitrary;
that same-identity effects are written in topological order rests on the hash. -/
theorem apply_refines_sequential (sha256 : List UInt8 → Digest) {plan : Plan} (valid : plan.Valid) (journal : Journal)
    (registry : Registry) (host other : Host) (sameSave : host.writeError = other.writeError) :
    (apply sha256 plan journal registry host).outcome.map RunReport.untimed =
        (applySequential sha256 plan journal registry other).outcome.map RunReport.untimed ∧
      (apply sha256 plan journal registry host).calls.Perm (applySequential sha256 plan journal registry other).calls ∧
      (CollisionFree sha256 (plan.hashed sha256) → ∀ key : String,
        (apply sha256 plan journal registry host).journal.state.entries[key]?.map JournalEntry.untimed =
          (applySequential sha256 plan journal registry other).journal.state.entries[key]?.map
            JournalEntry.untimed) ∧
      (∀ report, (apply sha256 plan journal registry host).outcome = .ok report →
        ∃ ids, plan.effectIds sha256 = .ok ids ∧
          SoundRun journal registry ids (apply sha256 plan journal registry host).calls report plan) ∧
      ((∀ effect ∈ plan.effects, (registry.get effect.executor).isSome) → host.writeError = none →
        ∃ report, (apply sha256 plan journal registry host).outcome = .ok report) := by
  obtain ⟨ids, identified, identifies⟩ := valid.effectIds sha256
  obtain ⟨order, sorted⟩ := valid.topoOrder
  obtain ⟨perm, ordered⟩ := Plan.topoOrder_ok sorted
  have unique : (order.map Effect.name).Nodup := (perm.map _).nodup_iff.mpr plan.unique
  rw [apply, applySequential, applyWith_eq _ _ _ identified identifies sorted,
    applyWith_eq _ _ _ identified identifies sorted]
  cases checked : order.findSome? (missingExecutor (decisionMap sha256 journal ids order) registry) with
  | some fault =>
    obtain ⟨effect, member, missing, -, rfl⟩ := missingExecutor_some unique checked
    refine ⟨rfl, .refl _, fun _ _ => rfl, fun _ failed => (nomatch failed), fun registered _ => ?_⟩
    have present := registered effect (perm.mem_iff.mp member)
    rw [Option.isNone_iff_eq_none.mp missing] at present
    cases present
  | none =>
    let prepared := preparedRun unique checked
    obtain ⟨levelsPerm, left, levelsRun, complete⟩ := prepared.levels_complete host ordered unique
    obtain ⟨right, sequentialRun, sequentialComplete⟩ := prepared.sequential_complete other ordered unique
    simp only [levelsRun, sequentialRun, Prepared.finishRun_complete unique levelsPerm complete,
      Prepared.finishRun_complete unique (.refl _) sequentialComplete]
    have records := complete.records_unique sequentialComplete levelsPerm (.refl _) ordered unique
    refine ⟨?_, complete.calls_perm sequentialComplete levelsPerm (.refl _) ordered unique, ?_, ?_, ?_⟩
    · rw [← sameSave]
      cases host.writeError with
      | some source =>
        rw [complete.journal, sequentialComplete.journal, (Prepared.writes_frame ..).1, (Prepared.writes_frame ..).1]
      | none => simp [Except.map, RunReport.untimed, records]
    · intro free key
      exact complete.entries_unique sequentialComplete levelsPerm (.refl _) ordered unique
        (filter_levels valid sorted identified identifies free key)
    · intro report reported
      refine ⟨ids, identified, ?_⟩
      cases saved : host.writeError with
      | some source => simp [saved] at reported
      | none =>
        simp only [saved, Except.ok.injEq] at reported
        exact complete.soundRun levelsPerm ordered unique (by rw [← reported])
          (fun effect member => identifies.idOf_eq (perm.mem_iff.mp member)) perm
    · intro _ saved
      exact ⟨_, by rw [saved]⟩

/-- An executor that always succeeds with one output. -/
def steady : Executor := fun _ => some (.ok (.ofList [("path", Literal.str "p")]))

def steadyRegistry : Registry := ⟨.ofList [("fs", steady)]⟩

theorem writeThenRead_runs :
    ∃ report, (apply Sha256.digest writeThenRead { path := "journal.json" } steadyRegistry {}).outcome = .ok report := by
  obtain ⟨-, -, -, -, runs⟩ := apply_refines_sequential Sha256.digest writeThenRead_valid { path := "journal.json" }
    steadyRegistry {} { recordedAt := 1 } rfl
  exact runs (by decide) rfl

end Index.Efx
