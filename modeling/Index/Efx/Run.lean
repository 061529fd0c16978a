import Index.Efx.Levels
import Index.Efx.Schedule

/-! # Runs of `apply`

For a valid plan the diff succeeds and `apply` either names an executor that is missing or processes
every effect; the run record lists the effects in topological order, each with its settlement. -/

namespace Index.Efx

open Index.Lib

/-! ## The diff of a valid plan -/

/-- The identity of an effect; the default is never read for the effects of an identified plan. -/
def idOf (ids : BTreeMap String EffectId) (effect : Effect) : EffectId :=
  ids[effect.name]?.getD ⟨Vector.replicate 32 0⟩

section Diff

variable (sha256 : List UInt8 → Digest) (journal : Journal) (ids : BTreeMap String EffectId)

def decisionIn (effect : Effect) : Decision := decisionFor sha256 journal ids effect (idOf ids effect)

/-- The decisions by name, as `apply` collects them. -/
def decisionMap (order : List Effect) : BTreeMap String Decision :=
  .ofList ((order.map (decisionIn sha256 journal ids)).map fun decision => (decision.name, decision))

variable {sha256 journal ids}

@[simp]
theorem decisionIn_name (effect : Effect) : (decisionIn sha256 journal ids effect).name = effect.name := rfl

theorem decisionIn_cached (effect : Effect) :
    (decisionIn sha256 journal ids effect).verdict = .cached ↔ journal.isCached (idOf ids effect) = true := by
  unfold decisionIn decisionFor
  cases isCached : journal.isCached (idOf ids effect) <;> simp

variable {order : List Effect} {effect : Effect}

theorem decisionMap_found (unique : (order.map Effect.name).Nodup) (member : effect ∈ order) :
    (decisionMap sha256 journal ids order)[effect.name]? = some (decisionIn sha256 journal ids effect) := by
  have names : (((order.map (decisionIn sha256 journal ids)).map fun decision => (decision.name, decision)).map
      Prod.fst) = order.map Effect.name := by
    simp [Function.comp_def]
  refine (BTreeMap.getElem?_ofList_iff (names ▸ unique)).mpr ?_
  rw [List.map_map]
  exact List.mem_map.mpr ⟨effect, member, rfl⟩

theorem Identifies.idOf_eq {effects : List Effect} (identifies : Identifies sha256 ids effects) (member : effect ∈ effects) :
    ids[effect.name]? = some (idOf ids effect) := by
  obtain ⟨document, -, found⟩ := identifies effect member
  rw [idOf, found, Option.getD_some]

variable {plan : Plan}

theorem diffPlan_eq (identified : plan.effectIds sha256 = .ok ids) (identifies : Identifies sha256 ids plan.effects)
    (sorted : plan.topoOrder = .ok order) : diffPlan sha256 plan journal = .ok
      { decisions := order.map (decisionIn sha256 journal ids)
        orphans := journal.orphans (order.map (decisionIn sha256 journal ids)) } := by
  have perm := (Plan.topoOrder_ok sorted).1
  have collected : tryCollect (decideEffect sha256 journal ids) order =
      .ok (order.map (decisionIn sha256 journal ids)) := by
    refine tryCollect_eq_ok.mpr (List.forall₂_map_right_iff.mpr (List.forall₂_same.mpr fun effect member => ?_))
    rw [decideEffect, identifies.idOf_eq (perm.mem_iff.mp member)]
    rfl
  simp only [diffPlan, identified, sorted, collected]

theorem applyWith_eq (journal : Journal) (registry : Registry) (host : Host) (identified : plan.effectIds sha256 = .ok ids)
    (identifies : Identifies sha256 ids plan.effects) (sorted : plan.topoOrder = .ok order)
    (process : BTreeMap String Decision → List Effect → Except (Fault EngineError) Progress) :
    applyWith sha256 plan journal registry host process =
      match order.findSome? (missingExecutor (decisionMap sha256 journal ids order) registry) with
      | some fault => { journal, calls := [], outcome := .error fault }
      | none => finishRun plan journal host order (journal.orphans (order.map (decisionIn sha256 journal ids)))
          (process (decisionMap sha256 journal ids order) order) := by
  simp only [applyWith, diffPlan_eq identified identifies sorted, sorted]
  rfl

/-- The executor check never panics; what it reports is an effect to execute without an executor. -/
theorem missingExecutor_some {registry : Registry} (unique : (order.map Effect.name).Nodup) {fault : Fault EngineError}
    (missing : order.findSome? (missingExecutor (decisionMap sha256 journal ids order) registry) = some fault) :
    ∃ effect ∈ order, (registry.get effect.executor).isNone ∧
      (decisionIn sha256 journal ids effect).verdict = .execute ∧
      fault = .raised (.unknownExecutor effect.name effect.executor) := by
  obtain ⟨effect, member, found⟩ := List.exists_of_findSome?_eq_some missing
  simp only [missingExecutor, decisionMap_found unique member, Option.ite_none_right_eq_some,
    Option.some.injEq] at found
  exact ⟨effect, member, found.1.2, found.1.1, found.2.symm⟩

/-- A run whose executors are all there is prepared. -/
def preparedRun {order : List Effect} {registry : Registry} (unique : (order.map Effect.name).Nodup)
    (checked : order.findSome? (missingExecutor (decisionMap sha256 journal ids order) registry) = none) :
    Prepared journal registry (decisionMap sha256 journal ids order) order where
  decision := decisionIn sha256 journal ids
  found := fun _ member => decisionMap_found unique member
  cached := fun effect _ => decisionIn_cached effect
  registered := fun effect member execute => by
    have present := List.findSome?_eq_none_iff.mp checked effect member
    simp only [missingExecutor, decisionMap_found unique member, execute, true_and] at present
    cases known : registry.get effect.executor with
    | none => simp [known] at present
    | some executor => exact ⟨executor, rfl⟩

end Diff

/-! ## The end of a run -/

theorem takeResults_eq {order : List Effect} {results : BTreeMap String RunEffect} {record : Effect → RunEffect}
    (unique : (order.map Effect.name).Nodup) (found : ∀ effect ∈ order, results[effect.name]? = some (record effect)) :
    takeResults order results = .ok (order.map record) := by
  induction order generalizing results with
  | nil => rfl
  | cons effect order ih =>
    obtain ⟨fresh, unique⟩ := List.nodup_cons.mp unique
    obtain ⟨foundHere, found⟩ := List.forall_mem_cons.mp found
    have rest : takeResults order (results.erase effect.name) = .ok (order.map record) := by
      refine ih unique fun other member => ?_
      rw [← found other member, Std.ExtTreeMap.getElem?_erase, if_neg]
      simp only [Std.compare_eq_iff_eq]
      intro same
      exact fresh (same ▸ List.mem_map_of_mem member)
    simp only [takeResults, foundHere, rest, List.map_cons]

namespace Prepared

variable {journal : Journal} {registry : Registry} {decisions : BTreeMap String Decision} {effects : List Effect}
  {prepared : Prepared journal registry decisions effects} {host : Host}

/-- The records of a run in a final state, in the order of the effects. -/
def records (prepared : Prepared journal registry decisions effects) (host : Host) (state : RunState) :
    List RunEffect :=
  effects.map fun effect => (prepared.settle host state effect).record

/-- What `apply` leaves behind after a complete run. -/
theorem finishRun_complete {plan : Plan} {orphans : List Orphan} {final : Progress} {done : List Effect}
    (unique : (effects.map Effect.name).Nodup) (perm : done.Perm effects)
    (complete : prepared.Complete host final done) :
    finishRun plan journal host effects orphans (.ok final) =
      { journal := final.journal.pushRun
          { recordedAt := host.recordedAt, effects := prepared.records host final.state, edges := plan.edges }
        calls := final.calls
        outcome := match host.writeError with
          | some source => .error (.raised (.journalWrite final.journal.path source))
          | none => .ok { effects := prepared.records host final.state, orphans } } := by
  have taken : takeResults effects final.state.results = .ok (prepared.records host final.state) := by
    refine takeResults_eq unique fun effect member => ?_
    exact congrArg Cell.result (complete.settled effect (perm.mem_iff.mpr member))
  simp only [finishRun, taken, Journal.save]
  cases host.writeError <;> rfl

/-- The levels of a dependency order complete it. -/
theorem levels_complete (prepared : Prepared journal registry decisions effects) (host : Host)
    (ordered : DependencyOrder effects) (unique : (effects.map Effect.name).Nodup) :
    (levels effects).flatten.Perm effects ∧
    ∃ final, (levels effects).foldlM (applyLevel host decisions registry) { journal } = .ok final ∧
      prepared.Complete host final (levels effects).flatten := by
  obtain ⟨rank, count, levelsEq, bounded, grows, -⟩ := levels_eq_layers ordered unique
  have perm : (levels effects).flatten.Perm effects := levelsEq ▸ layers_flatten_perm bounded
  refine ⟨perm, ?_⟩
  have batched : BatchedAfter Effect.name Effect.references [] (levels effects) := levelsEq ▸ layers_batched count grows
  exact run_spec host [] (fun _ _ _ ready => applyLevel_spec host ready) perm.subset
    ((perm.map _).nodup_iff.mpr unique) batched (by simp) (complete_nil host)

end Prepared

end Index.Efx
