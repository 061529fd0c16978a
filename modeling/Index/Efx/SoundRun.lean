import Index.Efx.Run

/-! # What a run guarantees

The properties of one run that do not mention any order of execution: every effect is reported once,
an executor is asked only after everything referenced succeeded and gets exactly the referenced
outputs, and an effect is skipped exactly when something it references did not succeed. -/

namespace Index.Efx

open Index.Lib List

def RunReport.action (report : RunReport) (name : String) : Option Action :=
  (report.effects.find? fun record => record.name == name).map RunEffect.action

section Statement

variable (journal : Journal) (registry : Registry) (ids : BTreeMap String EffectId)
  (calls : List (String × ExecuteRequest)) (report : RunReport)

/-- Where the outputs of an effect come from: the journal for a cached effect, the executor's answer
for an executed one. -/
inductive HandsOn (source : Effect) (outputs : Outputs) : Prop
  | cached {id : EffectId} {entry : JournalEntry} (action : report.action source.name = some .cached)
      (identity : ids[source.name]? = some id) (found : journal.entry id = some entry)
      (same : entry.outputs = outputs) : HandsOn source outputs
  | executed {request : ExecuteRequest} {executor : Executor} (action : report.action source.name = some .executed)
      (called : (source.executor, request) ∈ calls) (named : request.name = source.name)
      (known : registry.get source.executor = some executor) (answer : executor request = some (.ok outputs)) :
      HandsOn source outputs

/-- `literal` is what the input `value` of an effect stands for. -/
def Resolves (plan : Plan) : Value → Literal → Prop
  | .literal content, literal => literal = content
  | .ref r, literal => ∃ source ∈ plan.effects, source.name = r.effect ∧
      ∃ outputs : Outputs, HandsOn journal registry ids calls report source outputs ∧ outputs[r.field]? = some literal

structure SoundRun (plan : Plan) : Prop where
  once : (report.effects.map RunEffect.name).Perm (plan.effects.map Effect.name)
  calledOnce : (calls.map fun call => call.2.name).Nodup
  called : ∀ call ∈ calls, ∃ effect ∈ plan.effects, call = (effect.executor, requestOf effect call.2.inputs) ∧
    (∀ target ∈ effect.references, report.action target = some .executed ∨ report.action target = some .cached) ∧
    ∀ key : String, Option.Rel (Resolves journal registry ids calls report plan) effect.inputs[key]? call.2.inputs[key]?
  executed : ∀ effect ∈ plan.effects, report.action effect.name = some .executed →
    ∃ call ∈ calls, call.2.name = effect.name
  skipped : ∀ effect ∈ plan.effects, report.action effect.name = some .skipped ↔
    ∃ target ∈ effect.references, report.action target = some .failed ∨ report.action target = some .skipped
  /-- Without a failed ancestor an effect is cached, or its executor is asked, or one of its own inputs
  names a field its source does not have. -/
  runs : ∀ effect ∈ plan.effects,
    (∀ ancestor, Relation.TransGen plan.DependsOn effect.name ancestor → report.action ancestor ≠ some .failed) →
    report.action effect.name = some .cached ∨ (∃ call ∈ calls, call.2.name = effect.name) ∨
    ∃ (key : String) (r : OutputRef), effect.inputs[key]? = some (.ref r) ∧
      ∃ source ∈ plan.effects, source.name = r.effect ∧
      ∃ outputs : Outputs, HandsOn journal registry ids calls report source outputs ∧ outputs[r.field]? = none

end Statement

/-! ## Facts about one settlement -/

section Settles

variable {host : Host} {journal : Journal} {registry : Registry} {decision : Decision} {state : RunState}
  {effect : Effect} {settled : Settlement}

section

variable (settles : Settles host journal registry decision state effect settled)
include settles

theorem Settles.record_name : settled.record.name = effect.name := by
  cases settles <;> rfl

theorem Settles.halts_iff : settled.halts = true ↔ settled.record.action = .failed ∨ settled.record.action = .skipped := by
  cases settles <;> simp [Decision.record]

theorem Settles.not_halts_iff : settled.halts = false ↔ settled.record.action = .executed ∨ settled.record.action = .cached := by
  cases settles <;> simp [Decision.record]

theorem Settles.skipped_iff :
    settled.record.action = .skipped ↔ ∃ target ∈ effect.references, state.halted.contains target = true := by
  cases settles with
  | blocked halted =>
    obtain ⟨refers, inside⟩ := firstHaltedDependency_eq_some halted
    exact iff_of_true rfl ⟨_, refers, inside⟩
  | cached free | unresolved free | succeeded free | failed free =>
    refine iff_of_false (by simp) ?_
    rintro ⟨target, refers, inside⟩
    rw [firstHaltedDependency_eq_none.mp free target refers] at inside
    cases inside

/-- A call resolves every input of its effect and happens only when nothing referenced has halted. -/
theorem Settles.request {request : ExecuteRequest} (asked : settled.request = some request) :
    decision.verdict = .execute ∧ request = requestOf effect request.inputs ∧ resolveInputs effect state.outputs = .ok request.inputs ∧
      ∀ target ∈ effect.references, state.halted.contains target = false := by
  cases settles with
  | blocked | cached | unresolved => cases asked
  | succeeded free verdict resolved | failed free verdict resolved =>
    cases asked
    exact ⟨verdict, rfl, resolved, firstHaltedDependency_eq_none.mp free⟩

end

end Settles

/-! ## Facts about a complete run -/

namespace Prepared

variable {journal : Journal} {registry : Registry} {decisions : BTreeMap String Decision} {order : List Effect}
  {prepared : Prepared journal registry decisions order} {host : Host} {final : Progress} {done : List Effect} {effect : Effect}

theorem records_names (state : RunState) :
    (prepared.records host state).map RunEffect.name = order.map Effect.name := by
  rw [records, map_map]
  exact map_congr_left fun effect member => (prepared.settles host member state).record_name

theorem action_eq (unique : (order.map Effect.name).Nodup) {report : RunReport} {state : RunState}
    (reported : report.effects = prepared.records host state) (member : effect ∈ order) :
    report.action effect.name = some (prepared.settle host state effect).record.action := by
  have inside : (prepared.settle host state effect).record ∈ prepared.records host state :=
    mem_map_of_mem member
  have found := find?_named (by rw [records_names]; exact unique) inside
  rw [RunReport.action, reported, ← (prepared.settles host member state).record_name, found, Option.map_some]

theorem Complete.mem_calls (complete : prepared.Complete host final done) (perm : done.Perm order)
    {call : String × ExecuteRequest} :
    call ∈ final.calls ↔ ∃ effect ∈ order, ∃ request,
      (prepared.settle host final.state effect).request = some request ∧ call = (effect.executor, request) := by
  rw [complete.calls, callsOf, mem_flatMap]
  constructor
  · rintro ⟨effect, member, inside⟩
    obtain ⟨request, asked, rfl⟩ := Option.map_eq_some_iff.mp (Option.mem_toList.mp inside)
    exact ⟨effect, perm.mem_iff.mp member, request, asked, rfl⟩
  · rintro ⟨effect, member, request, asked, rfl⟩
    refine ⟨effect, perm.mem_iff.mpr member, Option.mem_toList.mpr ?_⟩
    simp [asked]

/-- Every effect is asked about at most once. -/
theorem calls_names_sublist (state : RunState) {batch : List Effect} (subset : batch ⊆ order) :
    ((prepared.callsOf host state batch).map fun call => call.2.name).Sublist (batch.map Effect.name) := by
  induction batch with
  | nil => exact List.Sublist.refl _
  | cons effect batch ih =>
    obtain ⟨member, rest⟩ := cons_subset.mp subset
    have tail := ih rest
    rw [callsOf, flatMap_cons, map_append, map_cons]
    cases asked : (prepared.settle host state effect).request with
    | none =>
      simp only [Settlement.calls, asked, Option.map_none, Option.toList_none, map_nil, nil_append]
      exact tail.cons _
    | some request =>
      have name : request.name = effect.name := by
        rw [((prepared.settles host member state).request asked).2.1]
        rfl
      simp only [Settlement.calls, asked, Option.map_some, Option.toList_some, map_cons, map_nil,
        cons_append, nil_append, name]
      exact tail.cons_cons _

/-- What the run state says about a referenced effect is what its settlement says. -/
theorem Complete.source (complete : prepared.Complete host final done) (perm : done.Perm order)
    (ordered : DependencyOrder order) (member : effect ∈ order) {target : String} (refers : target ∈ effect.references) :
    ∃ source ∈ order, source.name = target ∧
      final.state.halted.contains target = (prepared.settle host final.state source).halts ∧
      final.state.outputs[target]? = (prepared.settle host final.state source).outputs := by
  obtain ⟨before, after, split⟩ := append_of_mem member
  have earlier : target ∈ before.map Effect.name :=
    ((split ▸ ordered).needs_before refers).resolve_left (by simp)
  obtain ⟨source, sourceBefore, rfl⟩ := mem_map.mp earlier
  have sourceMember : source ∈ order := by rw [split]; exact mem_append_left _ sourceBefore
  have cell := complete.settled source (perm.mem_iff.mpr sourceMember)
  exact ⟨source, sourceMember, rfl, congrArg Cell.halted cell, congrArg Cell.outputs cell⟩

section Sound

variable {report : RunReport} {ids : BTreeMap String EffectId} (complete : prepared.Complete host final done)
  (perm : done.Perm order) (ordered : DependencyOrder order) (unique : (order.map Effect.name).Nodup)
  (reported : report.effects = prepared.records host final.state)
  (identity : ∀ effect ∈ order, ids[effect.name]? = some (prepared.decision effect).id)

include complete perm unique reported identity

theorem Complete.handsOn {source : Effect} (member : source ∈ order)
    (runs : (prepared.settle host final.state source).halts = false) :
    ∃ outputs, (prepared.settle host final.state source).outputs = some outputs ∧
      HandsOn journal registry ids final.calls report source outputs := by
  have action := action_eq unique reported member
  have called := fun request asked =>
    (complete.mem_calls perm).mpr ⟨source, member, request, asked, rfl⟩
  have spec := prepared.settles host member final.state
  generalize prepared.settle host final.state source = settled at *
  cases spec with
  | blocked | unresolved | failed => cases runs
  | cached free verdict =>
    obtain ⟨entry, found, -⟩ := cached_entry member verdict
    exact ⟨entry.outputs, by simp [found], .cached action (identity source member) found rfl⟩
  | succeeded free verdict resolved known answer =>
    exact ⟨_, rfl, .executed action (called _ rfl) rfl known answer⟩

include ordered

variable {plan : Plan} {effect : Effect}

/-- The inputs of a request are the literals and the outputs handed on. -/
theorem Complete.resolves (planPerm : order.Perm plan.effects) (member : effect ∈ order) {inputs : BTreeMap String Literal}
    (resolved : resolveInputs effect final.state.outputs = .ok inputs)
    (free : ∀ target ∈ effect.references, final.state.halted.contains target = false) (key : String) :
    Option.Rel (Resolves journal registry ids final.calls report plan) effect.inputs[key]? inputs[key]? := by
  have related := BTreeMap.tryMap_ok resolved key
  generalize present : effect.inputs[key]? = value at related ⊢
  generalize inputs[key]? = literal at related ⊢
  cases related with
  | none => exact .none
  | @some value literal resolved =>
    refine .some ?_
    cases value with
    | literal content => exact (Except.ok.inj resolved).symm
    | ref r =>
      have refers : r.effect ∈ effect.references := Effect.mem_references.mpr ⟨key, r, present, rfl⟩
      obtain ⟨source, sourceMember, name, halts, outputs⟩ := complete.source perm ordered member refers
      obtain ⟨produced, hands, handsOn⟩ := complete.handsOn perm unique reported identity sourceMember
        (halts ▸ free r.effect refers)
      refine ⟨source, planPerm.mem_iff.mp sourceMember, name, produced, handsOn, ?_⟩
      simp only [resolveInput, outputs, hands, Option.bind_some] at resolved
      split at resolved
      next found => rw [found, ← Except.ok.inj resolved]
      next => cases resolved

/-- An input that does not resolve names a field that its source does not have. -/
theorem Complete.unresolved (planPerm : order.Perm plan.effects) (member : effect ∈ order) {message : String}
    (failed : resolveInputs effect final.state.outputs = .error message)
    (free : ∀ target ∈ effect.references, final.state.halted.contains target = false) :
    ∃ (key : String) (r : OutputRef), effect.inputs[key]? = some (.ref r) ∧
      ∃ source ∈ plan.effects, source.name = r.effect ∧
      ∃ outputs : Outputs, HandsOn journal registry ids final.calls report source outputs ∧
        outputs[r.field]? = none := by
  obtain ⟨key, value, present, raised⟩ := BTreeMap.tryMap_error failed
  cases value with
  | literal content => cases raised
  | ref r =>
    have refers : r.effect ∈ effect.references := Effect.mem_references.mpr ⟨key, r, present, rfl⟩
    obtain ⟨source, sourceMember, name, halts, outputs⟩ := complete.source perm ordered member refers
    obtain ⟨produced, hands, handsOn⟩ := complete.handsOn perm unique reported identity sourceMember
      (halts ▸ free r.effect refers)
    refine ⟨key, r, present, source, planPerm.mem_iff.mp sourceMember, name, produced, handsOn, ?_⟩
    simp only [resolveInput, outputs, hands, Option.bind_some] at raised
    split at raised
    next => cases raised
    next absent => exact absent

omit identity in
theorem Complete.skipped_iff (member : effect ∈ order) : report.action effect.name = some .skipped ↔
      ∃ target ∈ effect.references, report.action target = some .failed ∨ report.action target = some .skipped := by
  rw [action_eq unique reported member, Option.some.injEq, (prepared.settles host member final.state).skipped_iff]
  refine exists_congr fun target => and_congr_right fun refers => ?_
  obtain ⟨source, sourceMember, rfl, halts, -⟩ := complete.source perm ordered member refers
  rw [halts, (prepared.settles host sourceMember final.state).halts_iff, action_eq unique reported sourceMember]
  simp

omit identity in
/-- An effect that is skipped has a failed ancestor. -/
theorem Complete.skipped_ancestor (planPerm : order.Perm plan.effects) :
    ∀ effect ∈ order, report.action effect.name = some .skipped →
      ∃ ancestor, Relation.TransGen plan.DependsOn effect.name ancestor ∧ report.action ancestor = some .failed := by
  refine ordered.forall_of_needs unique fun effect member ih skipped => ?_
  obtain ⟨target, refers, halted⟩ := (complete.skipped_iff perm ordered unique reported member).mp skipped
  have edge : plan.DependsOn effect.name target := ⟨effect, planPerm.mem_iff.mp member, rfl, refers⟩
  rcases halted with failed | skipped
  · exact ⟨target, .single edge, failed⟩
  · obtain ⟨source, sourceMember, rfl, -⟩ := complete.source perm ordered member refers
    obtain ⟨ancestor, path, failed⟩ := ih source sourceMember refers skipped
    exact ⟨ancestor, .head edge path, failed⟩

/-- A complete run is sound. -/
theorem Complete.soundRun (planPerm : order.Perm plan.effects) : SoundRun journal registry ids final.calls report plan := by
  have settlesAt := fun {effect} (member : effect ∈ order) => prepared.settles host member final.state
  have called := fun {effect} (member : effect ∈ order) request asked =>
    (complete.mem_calls perm).mpr ⟨effect, member, request, asked, rfl⟩
  refine ⟨?_, ?_, ?_, ?_, ?_, ?_⟩
  · rw [reported, records_names]
    exact planPerm.map _
  · rw [complete.calls]
    exact ((perm.map _).nodup_iff.mpr unique).sublist (calls_names_sublist final.state perm.subset)
  · intro call inside
    obtain ⟨effect, member, request, asked, rfl⟩ := (complete.mem_calls perm).mp inside
    obtain ⟨-, shape, resolved, free⟩ := (settlesAt member).request asked
    refine ⟨effect, planPerm.mem_iff.mp member, by rw [← shape], ?_, ?_⟩
    · intro target refers
      obtain ⟨source, sourceMember, rfl, halts, -⟩ := complete.source perm ordered member refers
      have running := (settlesAt sourceMember).not_halts_iff.mp (halts ▸ free _ refers)
      rw [action_eq unique reported sourceMember]
      simpa using running
    · exact complete.resolves perm ordered unique reported identity planPerm member resolved free
  · intro effect member action
    have inside := planPerm.mem_iff.mpr member
    rw [action_eq unique reported inside, Option.some.injEq] at action
    have called := called inside
    have spec := settlesAt inside
    generalize prepared.settle host final.state effect = settled at *
    cases spec with
    | blocked | cached | unresolved | failed => cases action
    | succeeded => exact ⟨_, called _ rfl, rfl⟩
  · intro effect member
    exact complete.skipped_iff perm ordered unique reported (planPerm.mem_iff.mpr member)
  · intro effect member unharmed
    have inside := planPerm.mem_iff.mpr member
    have notSkipped : report.action effect.name ≠ some .skipped := by
      intro skipped
      obtain ⟨ancestor, path, failed⟩ :=
        complete.skipped_ancestor perm ordered unique reported planPerm effect inside skipped
      exact unharmed ancestor path failed
    rw [action_eq unique reported inside] at notSkipped ⊢
    have called := called inside
    have spec := settlesAt inside
    generalize prepared.settle host final.state effect = settled at *
    cases spec with
    | blocked => exact absurd rfl notSkipped
    | cached => exact .inl rfl
    | unresolved free verdict failed =>
      exact .inr (.inr (complete.unresolved perm ordered unique reported identity planPerm inside failed
        (firstHaltedDependency_eq_none.mp free)))
    | succeeded | failed => exact .inr (.inl ⟨_, called _ rfl, rfl⟩)

end Sound

end Prepared

end Index.Efx
