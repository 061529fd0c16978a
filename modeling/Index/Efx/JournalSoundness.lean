import Index.Efx.Sequential

/-! # The journal over many runs

A journal that starts empty and goes through any sequence of plans, each run with executors of its
own.  An identity once recorded as executed should stay cached, and what a cached effect references
should be cached too.  Both hold as long as effects with one identity do not succeed and then fail in
the same run; `settle_level` lets the later outcome overwrite the earlier one. -/

namespace Index.Efx

open Index.Lib List Option

/-- One call of `apply`: the plan, the executors and the machine at that time. -/
structure Run where
  plan : Plan
  registry : Registry
  host : Host := {}

section Histories

variable (sha256 : List UInt8 → Digest)

def Run.step (journal : Journal) (run : Run) : Journal :=
  (apply sha256 run.plan journal run.registry run.host).journal

/-- The journal after a sequence of runs from the empty journal. -/
def journalAfter (path : String) (runs : List Run) : Journal :=
  runs.foldl (Run.step sha256) { path }

/-- When an effect of the plan can succeed, no later effect of the same uncached identity can fail. -/
def TwinsAgree (journal : Journal) (run : Run) : Prop :=
  ∀ ids order, run.plan.effectIds sha256 = .ok ids → run.plan.topoOrder = .ok order →
    ∀ first second : Effect, [first, second].Sublist order →
      ∀ id, ids[first.name]? = some id → ids[second.name]? = some id → journal.isCached id = false →
      (∃ executor request produced, run.registry.get first.executor = some executor ∧
        request.name = first.name ∧ executor request = some (.ok produced)) →
      ∀ executor request, run.registry.get second.executor = some executor → request.name = second.name →
        ∃ produced, executor request = some (.ok produced)

/-- Every run of the history meets `TwinsAgree` in the journal it starts from. -/
def TwinsAgreeThroughout : Journal → List Run → Prop
  | _, [] => True
  | journal, run :: runs =>
    TwinsAgree sha256 journal run ∧ TwinsAgreeThroughout (run.step sha256 journal) runs

/-- Every effect of the plan whose identity is cached references cached effects only. -/
def CachedClosed (plan : Plan) (journal : Journal) : Prop :=
  ∀ ids, plan.effectIds sha256 = .ok ids → ∀ effect ∈ plan.effects, ∀ id, ids[effect.name]? = some id →
    journal.isCached id = true → ∀ target ∈ effect.references,
      ∃ targetId, ids[target]? = some targetId ∧ journal.isCached targetId = true

/-- Every recorded execution is cached. -/
def ExecutedCached (journal : Journal) : Prop :=
  ∀ run ∈ journal.state.runs, ∀ record ∈ run.effects, record.action = .executed → journal.isCached record.id = true

end Histories

/-! ## One run -/

theorem isCached_of_entries {journal other : Journal} {id : EffectId}
    (same : journal.state.entries[id.toHex]? = other.state.entries[id.toHex]?) :
    journal.isCached id = other.isCached id := by
  simp only [Journal.isCached, Journal.entry, same]

/-- A call of `apply` that processed the whole plan. -/
structure CompletedRun (sha256 : List UInt8 → Digest) (journal : Journal) (run : Run) where
  ids : BTreeMap String EffectId
  order : List Effect
  identified : run.plan.effectIds sha256 = .ok ids
  identifies : Identifies sha256 ids run.plan.effects
  sorted : run.plan.topoOrder = .ok order
  unique : (order.map Effect.name).Nodup
  checked : order.findSome? (missingExecutor (decisionMap sha256 journal ids order) run.registry) = none
  final : Progress
  complete : (preparedRun unique checked).Complete run.host final (levels order).flatten
  perm : (levels order).flatten.Perm order
  after : run.step sha256 journal = final.journal.pushRun
    { recordedAt := run.host.recordedAt, effects := (preparedRun unique checked).records run.host final.state
      edges := run.plan.edges }
  calls : (apply sha256 run.plan journal run.registry run.host).calls = final.calls

/-- A call of `apply` leaves the journal alone and calls nothing, or it processed the whole plan. -/
theorem Run.step_cases (sha256 : List UInt8 → Digest) (journal : Journal) (run : Run) :
    (run.step sha256 journal = journal ∧ (apply sha256 run.plan journal run.registry run.host).calls = []) ∨
      Nonempty (CompletedRun sha256 journal run) := by
  cases sorted : run.plan.topoOrder with
  | error error =>
    have failed : diffPlan sha256 run.plan journal = .error (.raised (.plan error)) := by
      simp [diffPlan, Plan.effectIds, sorted]
    exact .inl (by simp [Run.step, apply, applyWith, failed])
  | ok order =>
    have valid := Plan.valid_of_topoOrder sorted
    obtain ⟨ids, identified, identifies⟩ := valid.effectIds sha256
    obtain ⟨perm, ordered⟩ := Plan.topoOrder_ok sorted
    have unique : (order.map Effect.name).Nodup := (perm.map _).nodup_iff.mpr run.plan.unique
    have shape := fun process => applyWith_eq journal run.registry run.host identified identifies sorted process
    cases checked : order.findSome? (missingExecutor (decisionMap sha256 journal ids order) run.registry) with
    | some fault => exact .inl (by simp [Run.step, apply, shape, checked])
    | none =>
      obtain ⟨levelsPerm, final, levelsRun, complete⟩ := (preparedRun unique checked).levels_complete run.host
        ordered unique
      have applied : apply sha256 run.plan journal run.registry run.host = _ :=
        (shape _).trans (by
          simp only [checked, levelsRun]
          exact Prepared.finishRun_complete unique levelsPerm complete)
      exact .inr ⟨{ ids, order, identified, identifies, sorted, unique, checked, final, complete
                    perm := levelsPerm, after := by rw [Run.step, applied], calls := by rw [applied] }⟩

namespace CompletedRun

variable {sha256 : List UInt8 → Digest} {journal : Journal} {run : Run} (completed : CompletedRun sha256 journal run)

/-- What the run made of an effect. -/
def settle (effect : Effect) : Settlement :=
  (preparedRun completed.unique completed.checked).settle run.host completed.final.state effect

variable {effect : Effect}

theorem settles (member : effect ∈ completed.order) :
    Settles run.host journal run.registry (decisionIn sha256 journal completed.ids effect) completed.final.state effect
      (completed.settle effect) :=
  (preparedRun completed.unique completed.checked).settles run.host member completed.final.state

theorem mem_order : effect ∈ completed.order ↔ effect ∈ run.plan.effects :=
  (Plan.topoOrder_ok completed.sorted).1.mem_iff

theorem entries_step (key : String) :
    (run.step sha256 journal).state.entries[key]? =
      ((preparedRun completed.unique completed.checked).writes run.host completed.final.state journal
        (levels completed.order).flatten).state.entries[key]? := by
  rw [completed.after, Journal.pushRun, completed.complete.journal]

include completed in
theorem isCached_mono {id : EffectId} (isCached : journal.isCached id = true) :
    (run.step sha256 journal).isCached id = true := by
  rw [← isCached]
  apply isCached_of_entries
  rw [completed.entries_step]
  exact Prepared.writes_entry run.host completed.perm.subset isCached journal

/-- A newly cached identity is that of an executed effect. -/
theorem isCached_new {id : EffectId} (isCached : (run.step sha256 journal).isCached id = true) :
    journal.isCached id = true ∨
      ∃ effect ∈ completed.order, idOf completed.ids effect = id ∧ (completed.settle effect).record.action = .executed := by
  simp only [Journal.isCached, Journal.entry, completed.entries_step, Prepared.lookup_writes] at isCached
  cases last : Prepared.lastEntry _ _ _ _ _ with
  | none =>
    rw [last, none_or] at isCached
    exact .inl isCached
  | some entry =>
    rw [last, some_or, any_some] at isCached
    obtain ⟨effect, selected, written⟩ := exists_of_findSome?_eq_some last
    obtain ⟨member, named⟩ := mem_filter.mp (mem_reverse.mp selected)
    have inside := completed.perm.mem_iff.mp member
    refine .inr ⟨effect, inside, EffectId.toHex_injective (of_decide_eq_true named), ?_⟩
    have spec := completed.settles inside
    change (completed.settle effect).entry = some entry at written
    generalize completed.settle effect = settled at *
    cases spec with
    | blocked | cached | unresolved => cases written
    | failed =>
      cases written
      simp [journalEntry] at isCached
    | succeeded => rfl

/-- What an executed effect references was executed or cached. -/
theorem executed_references (member : effect ∈ completed.order) (executed : (completed.settle effect).record.action = .executed)
    {target : String} (refers : target ∈ effect.references) : ∃ source ∈ completed.order, source.name = target ∧
      ((completed.settle source).record.action = .executed ∨ journal.isCached (idOf completed.ids source) = true) := by
  have free : ∀ target ∈ effect.references, completed.final.state.halted.contains target = false := by
    have spec := completed.settles member
    generalize completed.settle effect = settled at *
    cases spec with
    | blocked | cached | unresolved | failed => cases executed
    | succeeded free => exact firstHaltedDependency_eq_none.mp free
  obtain ⟨source, sourceMember, name, halts, -⟩ :=
    completed.complete.source completed.perm (Plan.topoOrder_ok completed.sorted).2 member refers
  refine ⟨source, sourceMember, name, ?_⟩
  have running : (completed.settle source).halts = false := halts ▸ free target refers
  have spec := completed.settles sourceMember
  generalize completed.settle source = settled at *
  cases spec with
  | blocked | unresolved | failed => cases running
  | cached free verdict => exact .inr ((decisionIn_cached source).mp verdict)
  | succeeded => exact .inl rfl

/-- What an execution shows about the effect: its executor succeeded, its identity was not cached and
its entry is a success. -/
theorem executed_inv (member : effect ∈ completed.order) (executed : (completed.settle effect).record.action = .executed) :
    journal.isCached (idOf completed.ids effect) = false ∧
      (∃ executor request produced, run.registry.get effect.executor = some executor ∧
        request.name = effect.name ∧ executor request = some (.ok produced)) ∧
      ∃ entry, (completed.settle effect).entry = some entry ∧ entry.status = .succeeded := by
  have spec := completed.settles member
  generalize completed.settle effect = settled at *
  cases spec with
  | blocked | cached | unresolved | failed => cases executed
  | succeeded free verdict resolved known answer =>
    refine ⟨?_, ⟨_, _, _, known, rfl, answer⟩, _, rfl, rfl⟩
    rw [Bool.eq_false_iff]
    intro isCached
    rw [(decisionIn_cached effect).mpr isCached] at verdict
    cases verdict

/-- Under agreement of equal identities, what was executed is cached afterwards. -/
theorem executed_cached (agree : TwinsAgree sha256 journal run) (free : CollisionFree sha256 (run.plan.hashed sha256))
    (member : effect ∈ completed.order) (executed : (completed.settle effect).record.action = .executed) :
    (run.step sha256 journal).isCached (idOf completed.ids effect) = true := by
  have named := fun {other} (member : other ∈ completed.order) =>
    completed.identifies.idOf_eq (completed.mem_order.mp member)
  obtain ⟨fresh, succeeds, entry, written, success⟩ := completed.executed_inv member executed
  -- Only the effects of this identity matter, and they were written in topological order.
  have sameOrder : ((levels completed.order).flatten.filter fun other =>
      (idOf completed.ids other).toHex = (idOf completed.ids effect).toHex) = _ :=
    filter_levels (Plan.valid_of_topoOrder completed.sorted) completed.sorted completed.identified
      completed.identifies free _
  have inside : effect ∈ completed.order.filter fun other =>
      (idOf completed.ids other).toHex = (idOf completed.ids effect).toHex :=
    mem_filter.mpr ⟨member, by simp⟩
  obtain ⟨before, after, split⟩ := append_of_mem inside
  have last : (preparedRun completed.unique completed.checked).lastEntry run.host completed.final.state
      (levels completed.order).flatten (idOf completed.ids effect).toHex =
        (after.reverse.findSome? fun other => (completed.settle other).entry).or (some entry) := by
    refine (congrArg (fun batch => batch.reverse.findSome? fun other => (completed.settle other).entry)
      (sameOrder.trans split)).trans ?_
    rw [reverse_append, reverse_cons, append_assoc, findSome?_append, singleton_append, findSome?_cons, written]
  rw [Journal.isCached, Journal.entry, completed.entries_step, Prepared.lookup_writes, last]
  cases found : after.reverse.findSome? fun other => (completed.settle other).entry with
  | none => simp [success]
  | some later =>
    obtain ⟨other, otherMember, written⟩ := exists_of_findSome?_eq_some found
    rw [mem_reverse] at otherMember
    have sublist : [effect, other].Sublist completed.order := by
      have filtered := filter_sublist (l := completed.order) (p := fun other =>
        (idOf completed.ids other).toHex = (idOf completed.ids effect).toHex)
      rw [split] at filtered
      exact (((singleton_sublist.mpr otherMember).cons_cons effect).trans
        (sublist_append_right _ _)).trans filtered
    have selected : other ∈ completed.order.filter fun other =>
        (idOf completed.ids other).toHex = (idOf completed.ids effect).toHex := by
      rw [split]
      exact mem_append_right _ (mem_cons_of_mem _ otherMember)
    obtain ⟨otherInside, sameKey⟩ := mem_filter.mp selected
    have sameId : idOf completed.ids other = idOf completed.ids effect :=
      EffectId.toHex_injective (by simpa using sameKey)
    have answers := agree completed.ids completed.order completed.identified completed.sorted effect other sublist
      _ (named member) (sameId ▸ named otherInside) fresh succeeds
    have spec := completed.settles otherInside
    generalize completed.settle other = settled at *
    cases spec with
    | blocked | cached | unresolved => cases written
    | succeeded => cases written; rfl
    | failed _ _ _ known answer =>
      obtain ⟨produced, ok⟩ := answers _ (requestOf other _) known rfl
      exact absurd ok (answer produced)

/-- The last entry of an identity is a success, whichever effect wrote it. -/
theorem isCached_of_succeeded (member : effect ∈ completed.order) (succeeded : ∀ other ∈ completed.order,
      (completed.settle other).record.action ∈ [Action.executed, .cached]) :
    (run.step sha256 journal).isCached (idOf completed.ids effect) = true := by
  rw [Journal.isCached, Journal.entry, completed.entries_step, Prepared.lookup_writes]
  cases last : Prepared.lastEntry _ _ _ _ _ with
  | none =>
    have idle : (completed.settle effect).entry = none := findSome?_eq_none_iff.mp last effect
      (mem_reverse.mpr (mem_filter.mpr ⟨completed.perm.mem_iff.mpr member, by simp; rfl⟩))
    have spec := completed.settles member
    specialize succeeded effect member
    generalize completed.settle effect = settled at *
    cases spec with
    | blocked | unresolved => simp [Decision.record] at succeeded
    | cached _ verdict => exact (decisionIn_cached effect).mp verdict
    | succeeded | failed => cases idle
  | some entry =>
    obtain ⟨other, selected, written⟩ := exists_of_findSome?_eq_some last
    change (completed.settle other).entry = some entry at written
    have inside := completed.perm.mem_iff.mp (mem_of_mem_filter (mem_reverse.mp selected))
    have spec := completed.settles inside
    specialize succeeded other inside
    generalize completed.settle other = settled at *
    cases spec with
    | blocked | cached | unresolved => cases written
    | failed => simp at succeeded
    | succeeded => cases written; rfl

end CompletedRun

/-! ## Many runs -/

section Invariants

variable {sha256 : List UInt8 → Digest} {journal : Journal} {run : Run} {id : EffectId}

theorem Run.isCached_step (isCached : journal.isCached id = true) : (run.step sha256 journal).isCached id = true := by
  rcases run.step_cases sha256 journal with ⟨same, -⟩ | ⟨⟨completed⟩⟩
  · rw [same]
    exact isCached
  · exact completed.isCached_mono isCached

theorem ExecutedCached.step (executedCached : ExecutedCached journal) (agree : TwinsAgree sha256 journal run)
    (free : CollisionFree sha256 (run.plan.hashed sha256)) : ExecutedCached (run.step sha256 journal) := by
  rcases run.step_cases sha256 journal with ⟨same, -⟩ | ⟨⟨completed⟩⟩
  · rw [same]
    exact executedCached
  · intro past member record recorded executed
    rw [completed.after, Journal.pushRun] at member
    rcases mem_append.mp member with member | member
    · rw [completed.complete.journal, (Prepared.writes_frame ..).2] at member
      exact Run.isCached_step (executedCached past member record recorded executed)
    · obtain rfl := mem_singleton.mp member
      obtain ⟨effect, effectMember, rfl⟩ := mem_map.mp recorded
      have cached := completed.executed_cached agree free effectMember executed
      exact (Prepared.settle_id run.host _ _ effect) ▸ cached

variable {query : Plan}

/-- Whether an effect is cached decides whether what it references is, also for plans that did not run. -/
theorem CachedClosed.step (closed : CachedClosed sha256 query journal) (agree : TwinsAgree sha256 journal run)
    (free : CollisionFree sha256 (query.hashed sha256 ++ run.plan.hashed sha256)) :
    CachedClosed sha256 query (run.step sha256 journal) := by
  rcases run.step_cases sha256 journal with ⟨same, -⟩ | ⟨⟨completed⟩⟩
  · rw [same]
    exact closed
  · intro ids identified effect member id named isCached target refers
    rcases completed.isCached_new isCached with before | ⟨twin, twinMember, sameId, executed⟩
    · obtain ⟨targetId, found, targetCached⟩ := closed ids identified effect member id named before target refers
      exact ⟨targetId, found, Run.isCached_step targetCached⟩
    · have valid : query.Valid := by
        cases sorted : query.topoOrder with
        | error error => simp [Plan.effectIds, sorted] at identified
        | ok order => exact Plan.valid_of_topoOrder sorted
      obtain ⟨ids', identified', identifies⟩ := valid.effectIds sha256
      obtain rfl : ids = ids' := Except.ok.inj (identified.symm.trans identified')
      have runFree := free.mono (subset_append_right _ _)
      rw [Plan.hashed_eq identified, Plan.hashed_eq completed.identified] at free
      -- The executed effect is the same node, so the two reference equal identities.
      have node := (identifies.same_iff completed.identifies free member (completed.mem_order.mp twinMember)).mp (by
        rw [named, completed.identifies.idOf_eq (completed.mem_order.mp twinMember), sameId])
      obtain ⟨key, r, present, rfl⟩ := Effect.mem_references.mp refers
      have related := node.inputs key
      rw [present] at related
      obtain ⟨s, twinPresent, -, sameTarget⟩ : ∃ s, twin.inputs[key]? = some (.ref s) ∧ r.field = s.field ∧
          ids[r.effect]? = completed.ids[s.effect]? := by
        generalize twin.inputs[key]? = value at related ⊢
        cases related with
        | @some _ value same =>
          cases value with
          | literal content => exact same.elim
          | ref s => exact ⟨s, rfl, same⟩
      obtain ⟨source, sourceMember, name, settled⟩ := completed.executed_references twinMember executed
        (Effect.mem_references.mpr ⟨key, s, twinPresent, rfl⟩)
      refine ⟨idOf completed.ids source, ?_, ?_⟩
      · rw [sameTarget, ← name, completed.identifies.idOf_eq (completed.mem_order.mp sourceMember)]
      · rcases settled with ran | before
        · exact completed.executed_cached agree runFree sourceMember ran
        · exact completed.isCached_mono before

variable {ids : BTreeMap String EffectId}

/-- In a closed journal everything upstream of a cached effect is cached. -/
theorem CachedClosed.upstream (closed : CachedClosed sha256 query journal) (identified : query.effectIds sha256 = .ok ids)
    {effect upstream : Effect} {path : List String} (reaches : Upstream query effect path upstream)
    (member : effect ∈ query.effects) (named : ids[effect.name]? = some id) (isCached : journal.isCached id = true) :
    upstream ∈ query.effects ∧ ∃ upstreamId, ids[upstream.name]? = some upstreamId ∧
      journal.isCached upstreamId = true := by
  induction reaches generalizing id with
  | here => exact ⟨member, id, named, isCached⟩
  | @there effect source upstream key r path present found _ ih =>
    obtain ⟨sourceMember, name⟩ := Plan.get_eq_some.mp found
    obtain ⟨sourceId, sourceNamed, sourceCached⟩ := closed ids identified effect member id named isCached r.effect
      (Effect.mem_references.mpr ⟨key, r, present, rfl⟩)
    exact ih sourceMember (name ▸ sourceNamed) sourceCached

/-- No executor is asked about a cached effect. -/
theorem apply_not_called (sha256 : List UInt8 → Digest) (journal : Journal) (run : Run)
    (identified : run.plan.effectIds sha256 = .ok ids) {effect : Effect} (member : effect ∈ run.plan.effects)
    (named : ids[effect.name]? = some id) (isCached : journal.isCached id = true) :
    ∀ call ∈ (apply sha256 run.plan journal run.registry run.host).calls, call.2.name ≠ effect.name := by
  rcases run.step_cases sha256 journal with ⟨-, none⟩ | ⟨⟨completed⟩⟩
  · simp [none]
  · intro call called name
    rw [completed.calls] at called
    obtain ⟨other, otherMember, request, asked, rfl⟩ := (completed.complete.mem_calls completed.perm).mp called
    obtain ⟨verdict, shape, -⟩ := (completed.settles otherMember).request asked
    rw [shape] at name
    obtain rfl : other = effect :=
      inj_on_of_nodup_map run.plan.unique (completed.mem_order.mp otherMember) member name
    obtain rfl : ids = completed.ids := Except.ok.inj (identified.symm.trans completed.identified)
    have same : idOf completed.ids other = id := by rw [idOf, named, getD_some]
    rw [← same] at isCached
    exact absurd (verdict.symm.trans ((decisionIn_cached other).mpr isCached)) (by simp)

/-- The invariants over a whole history. -/
theorem foldl_step_sound {runs : List Run} (agree : TwinsAgreeThroughout sha256 journal runs)
    (free : CollisionFree sha256 (query.hashed sha256 ++ runs.flatMap fun run => run.plan.hashed sha256))
    (executedCached : ExecutedCached journal) (closed : CachedClosed sha256 query journal) :
    ExecutedCached (runs.foldl (Run.step sha256) journal) ∧
      CachedClosed sha256 query (runs.foldl (Run.step sha256) journal) := by
  induction runs generalizing journal with
  | nil => exact ⟨executedCached, closed⟩
  | cons run runs ih =>
    rw [flatMap_cons] at free
    have here : CollisionFree sha256 (query.hashed sha256 ++ run.plan.hashed sha256) := by
      refine free.mono ?_
      rw [← append_assoc]
      exact subset_append_left _ _
    refine ih agree.2 (free.mono ?_) ?_ ?_
    · exact append_subset.mpr ⟨subset_append_left _ _,
        List.Subset.trans (subset_append_right _ _) (subset_append_right _ _)⟩
    · exact executedCached.step agree.1 (here.mono (subset_append_right _ _))
    · exact closed.step agree.1 here

theorem foldl_step_isCached (runs : List Run) (isCached : journal.isCached id = true) :
    (runs.foldl (Run.step sha256) journal).isCached id = true := by
  induction runs generalizing journal with
  | nil => exact isCached
  | cons run runs ih => exact ih (Run.isCached_step isCached)

end Invariants

/-- Over any history in which equal identities agree: recorded executions stay cached, what is cached
stays cached, cached effects reference cached effects, and the next run asks no executor about anything
upstream of a cached effect. -/
theorem journal_sound (sha256 : List UInt8 → Digest) (path : String) (runs later : List Run) (next : Run)
    (agree : TwinsAgreeThroughout sha256 { path } runs)
    (free : CollisionFree sha256 (next.plan.hashed sha256 ++ runs.flatMap fun run => run.plan.hashed sha256)) :
    ExecutedCached (journalAfter sha256 path runs) ∧
      (∀ id, (journalAfter sha256 path runs).isCached id = true →
        (journalAfter sha256 path (runs ++ later)).isCached id = true) ∧
      CachedClosed sha256 next.plan (journalAfter sha256 path runs) ∧
      ∀ ids, next.plan.effectIds sha256 = .ok ids → ∀ effect ∈ next.plan.effects, ∀ id,
        ids[effect.name]? = some id → (journalAfter sha256 path runs).isCached id = true →
        ∀ path' upstream, Upstream next.plan effect path' upstream →
        ∀ call ∈ (apply sha256 next.plan (journalAfter sha256 path runs) next.registry next.host).calls,
          call.2.name ≠ upstream.name := by
  obtain ⟨executedCached, closed⟩ := foldl_step_sound agree free (by simp [ExecutedCached])
    (by simp [CachedClosed, Journal.isCached, Journal.entry])
  refine ⟨executedCached, ?_, closed, ?_⟩
  · intro id isCached
    rw [journalAfter, foldl_append]
    exact foldl_step_isCached later isCached
  · intro ids identified effect member id named isCached path' upstream reaches
    obtain ⟨upstreamMember, upstreamId, upstreamNamed, upstreamCached⟩ :=
      closed.upstream identified reaches member named isCached
    exact apply_not_called sha256 _ next identified upstreamMember upstreamNamed upstreamCached

theorem writeThenRead_journal_sound :
    ExecutedCached (journalAfter Sha256.digest "journal.json" [{ plan := writeThenRead, registry := steadyRegistry }]) ∧
      CachedClosed Sha256.digest readAfterWrite
        (journalAfter Sha256.digest "journal.json" [{ plan := writeThenRead, registry := steadyRegistry }]) := by
  have agree : TwinsAgree Sha256.digest { path := "journal.json" }
      { plan := writeThenRead, registry := steadyRegistry } := by
    intro ids order _ _ first second _ id _ _ _ _ executor request known _
    simp only [steadyRegistry, Registry.get, Std.ExtTreeMap.ofList_singleton, BTreeMap.getElem?_insert] at known
    split at known
    · cases known
      exact ⟨_, rfl⟩
    · simp at known
  have sound := journal_sound Sha256.digest "journal.json" [{ plan := writeThenRead, registry := steadyRegistry }] []
    { plan := readAfterWrite, registry := steadyRegistry } ⟨agree, trivial⟩
    (writeThenRead_collisionFree.mono (by simp))
  exact ⟨sound.1, sound.2.2.1⟩

/-- After a run in which every effect succeeded, and whatever ran since, its plan asks no executor. -/
theorem rerun_calls_nothing (sha256 : List UInt8 → Digest) (journal : Journal) (run : Run) (later : List Run)
    (registry : Registry) (host : Host) (recorded : (run.step sha256 journal).state.runs ≠ journal.state.runs)
    (succeeded : ∀ record ∈ (run.step sha256 journal).state.runs.getLast?, ∀ effect ∈ record.effects,
      effect.action ∈ [Action.executed, .cached]) :
    (apply sha256 run.plan ((run :: later).foldl (Run.step sha256) journal) registry host).calls = [] := by
  rcases run.step_cases sha256 journal with ⟨same, -⟩ | ⟨⟨first⟩⟩
  · exact absurd (by rw [same]) recorded
  rw [first.after, Journal.pushRun, getLast?_concat] at succeeded
  rcases Run.step_cases sha256 _ { run with registry, host } with ⟨-, idle⟩ | ⟨⟨again⟩⟩
  · exact idle
  refine again.calls.trans (eq_nil_iff_forall_not_mem.mpr fun _ called => ?_)
  obtain ⟨effect, member, _, asked, -⟩ := (again.complete.mem_calls again.perm).mp called
  have cached : Journal.isCached (later.foldl (Run.step sha256) _) _ = true :=
    foldl_step_isCached later (first.isCached_of_succeeded (first.mem_order.mpr (again.mem_order.mp member))
      fun _ inside => succeeded _ rfl _ (mem_map_of_mem inside))
  rw [Except.ok.inj (first.identified.symm.trans again.identified)] at cached
  cases ((again.settles member).request asked).1.symm.trans ((decisionIn_cached effect).mpr cached)

theorem writeThenRead_rerun : (apply Sha256.digest writeThenRead (journalAfter Sha256.digest "journal.json"
    [{ plan := writeThenRead, registry := steadyRegistry }]) ⟨∅⟩ {}).calls = [] :=
  rerun_calls_nothing Sha256.digest _ { plan := writeThenRead, registry := steadyRegistry } [] ⟨∅⟩ {}
    (by decide +kernel) (by decide +kernel)

/-! ## Equal identities that disagree -/

/-- Two effects that are the same tree and a third that reads the first. -/
def twins : Plan :=
  ⟨[{ name := "a", kind := "k", executor := "x" },
    { name := "b", kind := "k", executor := "x" },
    { name := "c", kind := "l", executor := "x", inputs := .ofList [("in", Value.ref ⟨"a", "out"⟩)] }],
   by decide⟩

/-- Fails on the effect named `b` and succeeds otherwise. -/
def flaky : Executor := fun request =>
  if request.name = "b" then some (.error ⟨"no"⟩) else some (.ok (.ofList [("out", Literal.int 1)]))

def flakyRun : Run := { plan := twins, registry := ⟨.ofList [("x", flaky)]⟩ }

/-- The failure of `b` overwrites the success of `a`: the execution of `a` is on record but not cached,
`c` is cached although what it references is not, and the next run executes `a` again. -/
theorem flakyRun_unsound :
    let journal := journalAfter Sha256.digest "journal.json" [flakyRun]
    CollisionFree Sha256.digest (twins.hashed Sha256.digest) ∧
      (journal.state.runs.any fun run => run.effects.any fun record =>
        record.action = .executed && !journal.isCached record.id) = true ∧
      ((twins.effectIds Sha256.digest).toOption.any fun ids =>
        ids["c"]?.any journal.isCached && !ids["a"]?.any journal.isCached) = true ∧
      ((apply Sha256.digest twins journal flakyRun.registry {}).calls.any fun call => call.2.name = "a") = true := by
  decide +kernel

end Index.Efx
