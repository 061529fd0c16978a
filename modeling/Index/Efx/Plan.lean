import Index.Lib.Dependency
import Index.Lib.Rust
import Index.Lib.Termination

/-! # The effect plan

`packages/efx/ir`: a plan is a list of effects with unique names, wired by output references.  This
module embeds the plan's data, its construction and `Plan::topo_order`, and proves that the order is
a dependency order of exactly the plan's effects and exists for every plan without unknown references
and without cycles. -/

namespace Index.Efx

open Index.Lib Relation List

/-- A literal input or output value. -/
inductive Literal where
  | str : String → Literal
  | int : Int64 → Literal
  | bool : Bool → Literal
deriving DecidableEq

/-- A reference to one named output field of another effect. -/
@[ext]
structure OutputRef where
  effect : String
  field : String
deriving DecidableEq

/-- An input value: either a literal or a wire from another effect's output. -/
inductive Value where
  | literal : Literal → Value
  | ref : OutputRef → Value
deriving DecidableEq

/-- Execution metadata carried alongside an effect, not part of its identity. -/
structure EffectMeta where
  idempotent : Bool := true
  rollbackHint : Option String := none
deriving DecidableEq

/-- One node of a plan. -/
structure Effect where
  name : String
  kind : String
  executor : String
  inputs : BTreeMap String Value := ∅
  «meta» : EffectMeta := {}
deriving DecidableEq

inductive PlanError where
  | duplicateName (name : String)
  | unknownReference (source target : String)
  | cycle (name : String)
deriving DecidableEq

/-- A dataflow edge: `source` must run before `target`. -/
structure Edge where
  source : String
  target : String
deriving DecidableEq

/-- An ordered set of effects with unique names. -/
structure Plan where
  effects : List Effect
  unique : (effects.map Effect.name).Nodup

/-! ## Construction -/

namespace Plan

def new : Plan := ⟨[], nodup_nil⟩

def add (plan : Plan) (effect : Effect) : Except PlanError Plan :=
  if taken : effect.name ∈ plan.effects.map Effect.name then .error (.duplicateName effect.name)
  else .ok ⟨plan.effects ++ [effect], by
    rw [map_append]
    exact plan.unique.append (nodup_singleton _) (by simpa using taken)⟩

def fromEffects (effects : List Effect) : Except PlanError Plan :=
  effects.foldlM add new

def get (plan : Plan) (name : String) : Option Effect :=
  plan.effects.find? fun effect => effect.name == name

/-- Dataflow edges derived from reference inputs, deduplicated. -/
def edges (plan : Plan) : List Edge :=
  (plan.effects.flatMap fun effect => (BTreeMap.values effect.inputs).filterMap fun value =>
    match value with
    | .ref r => some ⟨r.effect, effect.name⟩
    | .literal _ => none).foldl (fun seen edge => if edge ∈ seen then seen else seen ++ [edge]) []

end Plan

/-! ## References -/

def Value.reference : Value → Option String
  | .ref r => some r.effect
  | .literal _ => none

/-- The effects an effect's inputs reference. -/
def Effect.references (effect : Effect) : List String :=
  (BTreeMap.values effect.inputs).filterMap Value.reference

theorem Value.reference_eq_some {value : Value} {target : String} :
    value.reference = some target ↔ ∃ r, value = .ref r ∧ r.effect = target := by
  cases value <;> simp [reference]

variable {effect : Effect}

theorem Effect.mem_references {target : String} :
    target ∈ effect.references ↔ ∃ (key : String) (r : OutputRef), effect.inputs[key]? = some (.ref r) ∧ r.effect = target := by
  simp only [references, mem_filterMap, BTreeMap.mem_values, Value.reference_eq_some]
  grind

variable {plan : Plan} {name : String}

theorem Plan.get_eq_some : plan.get name = some effect ↔ effect ∈ plan.effects ∧ effect.name = name := by
  constructor
  · intro found
    exact ⟨mem_of_find?_eq_some found, by simpa using find?_some found⟩
  · rintro ⟨member, rfl⟩
    exact find?_named plan.unique member

/-- The effect called `first` reads an output of the effect called `second`. -/
def Plan.DependsOn (plan : Plan) (first second : String) : Prop :=
  ∃ effect ∈ plan.effects, effect.name = first ∧ second ∈ effect.references

/-- No unknown references and no cycle; the names are unique by construction. -/
structure Plan.Valid (plan : Plan) : Prop where
  known : ∀ effect ∈ plan.effects, ∀ target ∈ effect.references, target ∈ plan.effects.map Effect.name
  acyclic : ∀ name, ¬ TransGen plan.DependsOn name name

/-! ## `Plan::topo_order` -/

structure TopoState where
  done : BTreeSet String
  order : List Effect
  advanced : Bool

def Effect.ready (done : BTreeSet String) (effect : Effect) : Bool :=
  (BTreeMap.values effect.inputs).all fun value =>
    match value with
    | .ref r => done.contains r.effect
    | .literal _ => true

def topoVisit (state : TopoState) (effect : Effect) : TopoState :=
  if state.done.contains effect.name then state
  else if effect.ready state.done then
    { done := state.done.insert effect.name, order := state.order ++ [effect], advanced := true }
  else state

/-- One pass of the `while` loop over the effects in declaration order. -/
def topoPass (effects : List Effect) (done : BTreeSet String) (order : List Effect) : TopoState :=
  effects.foldl topoVisit { done, order, advanced := false }

def stuckEffect (effects : List Effect) (done : BTreeSet String) : PlanError :=
  .cycle (((effects.find? fun effect => !done.contains effect.name).map Effect.name).getD "")

/-- The `while` loop.  Every pass but the last adds an effect, so `fuel` above the number of missing
effects never decides the result (`topoLoop_eq_result`). -/
def topoLoop (effects : List Effect) : Nat → BTreeSet String → List Effect → Except PlanError (List Effect)
  | 0, done, _ => .error (stuckEffect effects done)
  | fuel + 1, done, order =>
    if order.length < effects.length then
      let state := topoPass effects done order
      if state.advanced then topoLoop effects fuel state.done state.order
      else .error (stuckEffect effects state.done)
    else .ok order

/-- The first reference to an absent effect. -/
def Plan.unknownReference (plan : Plan) : Option PlanError :=
  plan.effects.findSome? fun effect => (BTreeMap.values effect.inputs).findSome? fun value =>
    match value with
    | .ref r => if (plan.get r.effect).isNone then some (.unknownReference effect.name r.effect) else none
    | .literal _ => none

def Plan.topoOrder (plan : Plan) : Except PlanError (List Effect) :=
  match plan.unknownReference with
  | some error => .error error
  | none => topoLoop plan.effects (plan.effects.length + 1) ∅ []

/-- The effects of `order` can run in that order. -/
abbrev DependencyOrder (order : List Effect) : Prop :=
  OrderedAfter Effect.name Effect.references [] order

variable {done : BTreeSet String}

theorem Effect.ready_iff : effect.ready done = true ↔ ∀ target ∈ effect.references, target ∈ done := by
  simp only [ready, all_eq_true, references, mem_filterMap, Value.reference_eq_some]
  constructor
  · rintro ready _ ⟨_, member, r, rfl, rfl⟩
    simpa using ready _ member
  · intro known value member
    cases value with
    | literal l => rfl
    | ref r => simpa using known r.effect ⟨_, member, r, rfl, rfl⟩

/-- What holds of `done` and `order` between any two visits. -/
structure TopoInvariant (effects : List Effect) (done : BTreeSet String) (order : List Effect) : Prop where
  done_iff : ∀ name, name ∈ done ↔ name ∈ order.map Effect.name
  nodup : (order.map Effect.name).Nodup
  subset : order ⊆ effects
  ordered : DependencyOrder order

variable {effects : List Effect} {state : TopoState}

theorem topoVisit_cases (state : TopoState) (effect : Effect) :
    topoVisit state effect = state ∧ (effect.name ∈ state.done ∨ effect.ready state.done = false) ∨
      topoVisit state effect = { done := state.done.insert effect.name, order := state.order ++ [effect], advanced := true } ∧
        effect.name ∉ state.done ∧ effect.ready state.done = true := by
  rw [topoVisit]
  split_ifs with done ready
  · exact .inl ⟨rfl, .inl (by simpa using done)⟩
  · exact .inr ⟨rfl, by simpa using done, ready⟩
  · exact .inl ⟨rfl, .inr (by simpa using ready)⟩

theorem TopoInvariant.visit (invariant : TopoInvariant effects state.done state.order) (member : effect ∈ effects) :
    TopoInvariant effects (topoVisit state effect).done (topoVisit state effect).order := by
  rcases topoVisit_cases state effect with ⟨same, -⟩ | ⟨added, fresh, ready⟩
  · rwa [same]
  · rw [invariant.done_iff] at fresh
    rw [added]
    refine ⟨fun name => ?_, ?_, ?_, ?_⟩
    · simp only [Std.ExtTreeSet.mem_insert, Std.compare_eq_iff_eq, invariant.done_iff, map_append,
        map_cons, map_nil, mem_append, mem_singleton]
      exact ⟨fun h => h.symm.imp id Eq.symm, fun h => h.symm.imp Eq.symm id⟩
    · rw [map_append]
      exact invariant.nodup.append (nodup_singleton _) (by simpa using fresh)
    · exact append_subset.mpr ⟨invariant.subset, by simpa using member⟩
    · refine invariant.ordered.snoc fun target refers => .inr ?_
      exact (invariant.done_iff target).mp (Effect.ready_iff.mp ready target refers)

theorem TopoInvariant.visits {part : List Effect} (subset : part ⊆ effects)
    (invariant : TopoInvariant effects state.done state.order) :
    TopoInvariant effects (part.foldl topoVisit state).done (part.foldl topoVisit state).order := by
  induction part generalizing state with
  | nil => exact invariant
  | cons effect part ih =>
    obtain ⟨member, rest⟩ := cons_subset.mp subset
    exact ih rest (invariant.visit member)

variable {order : List Effect}

theorem TopoInvariant.pass (invariant : TopoInvariant effects done order) :
    TopoInvariant effects (topoPass effects done order).done (topoPass effects done order).order := by
  refine TopoInvariant.visits (List.Subset.refl _) ?_
  exact invariant

/-- A pass either adds an effect or leaves the state alone with no effect ready. -/
theorem visits_progress (part : List Effect) (state : TopoState) :
    let final := part.foldl topoVisit state
    state.order.length ≤ final.order.length ∧
      (final.advanced = true → state.advanced = true ∨ state.order.length < final.order.length) ∧
      (final.advanced = false → final = state ∧
        ∀ effect ∈ part, effect.name ∈ state.done ∨ effect.ready state.done = false) := by
  induction part generalizing state with
  | nil => exact ⟨le_rfl, .inl, fun _ => ⟨rfl, by simp⟩⟩
  | cons effect part ih =>
    obtain ⟨grows, adds, stuck⟩ := ih (topoVisit state effect)
    simp only [foldl_cons]
    rcases topoVisit_cases state effect with ⟨same, waits⟩ | ⟨added, -⟩
    · rw [same] at grows adds stuck ⊢
      exact ⟨grows, adds, fun stopped => ⟨(stuck stopped).1, forall_mem_cons.mpr ⟨waits, (stuck stopped).2⟩⟩⟩
    · simp only [added] at grows adds stuck ⊢
      simp only [length_append, length_singleton] at grows
      refine ⟨by omega, fun _ => .inr (by omega), fun stopped => ?_⟩
      have kept := (stuck stopped).1
      rw [kept] at stopped
      cases stopped

variable {fuel : Nat}

/-- The `while` loop goes on with another pass. -/
def TopoContinues (effects : List Effect) (state next : BTreeSet String × List Effect) : Prop :=
  state.2.length < effects.length ∧ (topoPass effects state.1 state.2).advanced = true ∧
    next = ((topoPass effects state.1 state.2).done, (topoPass effects state.1 state.2).order)

/-- What the loop returns when it does not go on. -/
def topoResult (effects : List Effect) (state : BTreeSet String × List Effect) : Except PlanError (List Effect) :=
  if state.2.length < effects.length then .error (stuckEffect effects (topoPass effects state.1 state.2).done) else .ok state.2

theorem TopoContinues.longer {state next : BTreeSet String × List Effect} (continues : TopoContinues effects state next) :
    effects.length - next.2.length < effects.length - state.2.length := by
  obtain ⟨short, advanced, rfl⟩ := continues
  have longer : state.2.length < (topoPass effects state.1 state.2).order.length := by
    simpa [topoPass] using (visits_progress effects { done := state.1, order := state.2, advanced := false }).2.1 advanced
  dsimp only
  omega

/-- The loop stops with the result of the state it comes to. -/
theorem topoLoop_eq_result {start state : BTreeSet String × List Effect}
    (reached : ReflTransGen (TopoContinues effects) start state) (stopped : ∀ next, ¬ TopoContinues effects state next)
    (enough : effects.length - start.2.length < fuel) : topoLoop effects fuel start.1 start.2 = topoResult effects state := by
  induction reached using ReflTransGen.head_induction_on generalizing fuel with
  | refl =>
    cases fuel with
    | zero => omega
    | succ fuel =>
      rw [topoLoop, topoResult]
      split
      next short =>
        have stuck : ¬ (topoPass effects state.1 state.2).advanced = true := fun advanced => stopped _ ⟨short, advanced, rfl⟩
        exact if_neg stuck
      next => rfl
  | head continues _ ih =>
    have longer := continues.longer
    obtain ⟨short, advanced, rfl⟩ := continues
    cases fuel with
    | zero => omega
    | succ fuel =>
      rw [topoLoop, if_pos short]
      rw [if_pos advanced]
      exact ih (by omega)

theorem topoContinues_wellFounded (effects : List Effect) : WellFounded fun next state => TopoContinues effects state next :=
  Subrelation.wf (fun continues => TopoContinues.longer continues)
    (measure fun state : BTreeSet String × List Effect => effects.length - state.2.length).wf

/-- The loop stops, in a state that every pass has led to. -/
theorem topoLoop_stops (effects : List Effect) : ∃ done order, TopoInvariant effects done order ∧
    (∀ next, ¬ TopoContinues effects (done, order) next) ∧
      topoLoop effects (effects.length + 1) ∅ [] = topoResult effects (done, order) := by
  obtain ⟨state, reached, stopped⟩ := exists_stuck (topoContinues_wellFounded effects) (∅, [])
  refine ⟨state.1, state.2, ?_, stopped, topoLoop_eq_result reached stopped (by simp)⟩
  clear stopped
  induction reached with
  | refl => exact ⟨by simp, by simp, by simp, trivial⟩
  | tail _ continues ih =>
    obtain ⟨-, -, rfl⟩ := continues
    exact ih.pass

/-- A returned order lists exactly the plan's effects, each after the effects it references. -/
theorem Plan.topoOrder_ok (sorted : plan.topoOrder = .ok order) : order.Perm plan.effects ∧ DependencyOrder order := by
  unfold topoOrder at sorted
  split at sorted
  · cases sorted
  · obtain ⟨done, final, invariant, -, result⟩ := topoLoop_stops plan.effects
    rw [result, topoResult] at sorted
    split_ifs at sorted with short
    cases sorted
    have subperm := subperm_of_subset (List.Nodup.of_map _ invariant.nodup) invariant.subset
    exact ⟨subperm.perm_of_length_le (Nat.not_lt.mp short), invariant.ordered⟩

/-- Every reference names an effect of the plan. -/
def Plan.Known (plan : Plan) : Prop :=
  ∀ effect ∈ plan.effects, ∀ target ∈ effect.references, target ∈ plan.effects.map Effect.name

/-- An effect that a pass leaves behind without progress depends on a cycle. -/
theorem Plan.leads_to_cycle (known : plan.Known)
    (waiting : ∀ effect ∈ plan.effects, effect.name ∈ done ∨ effect.ready done = false) {start : String}
    (named : start ∈ plan.effects.map Effect.name) (notDone : start ∉ done) :
    ∃ name, ReflTransGen plan.DependsOn start name ∧ TransGen plan.DependsOn name name := by
  -- The names that are not done form a finite set in which every name depends on another.
  refine exists_cycle ((plan.effects.map Effect.name).filter (· ∉ done)) start (mem_filter.mpr ⟨named, by simpa using notDone⟩) ?_
  intro name member
  obtain ⟨named, notDone⟩ := mem_filter.mp member
  obtain ⟨effect, effectMember, rfl⟩ := mem_map.mp named
  have notReady := (waiting effect effectMember).resolve_left (by simpa using notDone)
  have blocked : ¬ ∀ target ∈ effect.references, target ∈ done := by
    rw [← Effect.ready_iff]
    simp [notReady]
  push Not at blocked
  obtain ⟨target, refers, absent⟩ := blocked
  exact ⟨target, mem_filter.mpr ⟨known effect effectMember target refers, by simpa using absent⟩, effect, effectMember, rfl, refers⟩

/-- As long as effects are missing from the order, the error names one of them. -/
theorem TopoInvariant.stuckEffect (invariant : TopoInvariant plan.effects done order)
    (short : order.length < plan.effects.length) :
    ∃ name ∈ plan.effects.map Effect.name, name ∉ done ∧ stuckEffect plan.effects done = .cycle name := by
  cases found : plan.effects.find? fun effect => !done.contains effect.name with
  | some effect =>
    have notDone := find?_some found
    refine ⟨effect.name, mem_map_of_mem (mem_of_find?_eq_some found), fun inside => ?_, ?_⟩
    · rw [Std.ExtTreeSet.contains_iff_mem.mpr inside] at notDone
      cases notDone
    · simp [Efx.stuckEffect, found]
  | none =>
    have covered : plan.effects.map Effect.name ⊆ order.map Effect.name := by
      intro name named
      obtain ⟨effect, member, rfl⟩ := mem_map.mp named
      rw [← invariant.done_iff]
      simpa using find?_eq_none.mp found effect member
    have bound := (subperm_of_subset plan.unique covered).length_le
    simp only [length_map] at bound
    omega

variable {error : PlanError}

/-- The loop fails only on an effect that depends on a cycle. -/
theorem topoLoop_error (known : plan.Known) (failed : topoLoop plan.effects (plan.effects.length + 1) ∅ [] = .error error) :
    ∃ start ∈ plan.effects.map Effect.name, error = .cycle start ∧
      ∃ name, ReflTransGen plan.DependsOn start name ∧ TransGen plan.DependsOn name name := by
  obtain ⟨done, order, invariant, stopped, result⟩ := topoLoop_stops plan.effects
  rw [result, topoResult] at failed
  split_ifs at failed with short
  have stuck : (topoPass plan.effects done order).advanced = false :=
    Bool.eq_false_iff.mpr fun advanced => stopped _ ⟨short, advanced, rfl⟩
  obtain ⟨same, waiting⟩ := (visits_progress plan.effects { done, order, advanced := false }).2.2 stuck
  have unchanged : (topoPass plan.effects done order).done = done := congrArg TopoState.done same
  rw [unchanged] at failed
  obtain ⟨start, named, notDone, here⟩ := invariant.stuckEffect short
  exact ⟨start, named, (Except.error.inj failed).symm.trans here, Plan.leads_to_cycle known waiting named notDone⟩

theorem Plan.get_isNone : (plan.get name).isNone = true ↔ name ∉ plan.effects.map Effect.name := by
  rw [Option.isNone_iff_eq_none, Option.eq_none_iff_forall_ne_some]
  simp only [ne_eq, Plan.get_eq_some, mem_map, not_exists]

theorem Plan.unknownReference_eq_none : plan.unknownReference = none ↔ plan.Known := by
  simp only [Plan.unknownReference, findSome?_eq_none_iff]
  refine forall₂_congr fun effect _ => ⟨fun quiet target refers => ?_, fun known value valueMember => ?_⟩
  · obtain ⟨value, valueMember, refers⟩ := mem_filterMap.mp refers
    obtain ⟨r, rfl, rfl⟩ := Value.reference_eq_some.mp refers
    by_contra absent
    simpa [Plan.get_isNone.mpr absent] using quiet _ valueMember
  · cases value with
    | literal l => rfl
    | ref r =>
      have named := known _ (mem_filterMap.mpr ⟨_, valueMember, rfl⟩)
      exact if_neg fun absent => Plan.get_isNone.mp absent named

theorem Plan.unknownReference_eq_some (found : plan.unknownReference = some error) :
    ∃ source target, error = .unknownReference source target := by
  obtain ⟨effect, -, found⟩ := exists_of_findSome?_eq_some found
  obtain ⟨value, -, found⟩ := exists_of_findSome?_eq_some found
  cases value with
  | literal l => cases found
  | ref r =>
    dsimp only at found
    split at found
    next => exact ⟨_, _, (Option.some.inj found).symm⟩
    next => cases found

/-- Every valid plan has an order. -/
theorem Plan.Valid.topoOrder (valid : plan.Valid) : ∃ order, plan.topoOrder = .ok order := by
  rw [Plan.topoOrder, Plan.unknownReference_eq_none.mpr valid.known]
  cases sorted : topoLoop plan.effects (plan.effects.length + 1) ∅ [] with
  | ok order => exact ⟨order, rfl⟩
  | error error =>
    obtain ⟨-, -, -, name, -, cycle⟩ := topoLoop_error valid.known sorted
    exact absurd cycle (valid.acyclic name)

/-- Only valid plans have an order. -/
theorem Plan.valid_of_topoOrder (sorted : plan.topoOrder = .ok order) : plan.Valid := by
  obtain ⟨perm, ordered⟩ := Plan.topoOrder_ok sorted
  have unique : (order.map Effect.name).Nodup := (perm.map _).nodup_iff.mpr plan.unique
  constructor
  · intro effect member target refers
    obtain ⟨before, after, split⟩ := append_of_mem (perm.mem_iff.mpr member)
    rw [split] at ordered perm
    apply (perm.map Effect.name).mem_iff.mp
    rw [map_append]
    exact mem_append_left _ ((ordered.needs_before refers).resolve_left (by simp))
  · intro name cycle
    apply ordered.acyclic unique name
    refine TransGen.mono ?_ _ _ cycle
    rintro first second ⟨effect, member, named, refers⟩
    exact ⟨effect, perm.mem_iff.mpr member, named, refers⟩

/-- Induction along the references of a valid plan. -/
theorem Plan.Valid.forall_of_references (valid : plan.Valid) {motive : Effect → Prop}
    (step : ∀ effect ∈ plan.effects,
      (∀ source ∈ plan.effects, source.name ∈ effect.references → motive source) → motive effect) :
    ∀ effect ∈ plan.effects, motive effect := by
  obtain ⟨order, sorted⟩ := valid.topoOrder
  obtain ⟨perm, ordered⟩ := Plan.topoOrder_ok sorted
  have along : ∀ effect ∈ order, motive effect := by
    refine ordered.forall_of_needs ((perm.map _).nodup_iff.mpr plan.unique) ?_
    intro effect member ih
    apply step effect (perm.mem_iff.mp member)
    intro source sourceMember
    exact ih source (perm.mem_iff.mpr sourceMember)
  intro effect member
  exact along effect (perm.mem_iff.mpr member)

/-! ## What the order or its absence says of the plan -/

theorem Plan.topoLoop_terminates (plan : Plan) :
    Terminates (TopoContinues plan.effects)
      (fun state => topoLoop plan.effects (plan.effects.length + 1) ∅ [] = topoResult plan.effects state) (∅, []) := by
  refine terminates_of_wellFounded (topoContinues_wellFounded plan.effects) fun state reached unlike => ?_
  by_contra stopped
  exact unlike (topoLoop_eq_result reached (not_exists.mp stopped) (by simp))

/-- The loop of `topo_order` ends whatever the references are.  The result is an unknown reference if and only if there is one;
otherwise a cycle if and only if there is one, named by an effect that depends on a cycle; and otherwise all effects, each after
the effects it references. -/
theorem Plan.topoOrder_spec (plan : Plan) :
    Terminates (TopoContinues plan.effects)
      (fun state => topoLoop plan.effects (plan.effects.length + 1) ∅ [] = topoResult plan.effects state) (∅, []) ∧
    ((∃ source target, plan.topoOrder = .error (.unknownReference source target)) ↔
      ∃ effect ∈ plan.effects, ∃ target ∈ effect.references, target ∉ plan.effects.map Effect.name) ∧
    ((∃ name, plan.topoOrder = .error (.cycle name)) ↔ plan.Known ∧ ∃ name, TransGen plan.DependsOn name name) ∧
    (∀ name, plan.topoOrder = .error (.cycle name) → name ∈ plan.effects.map Effect.name ∧
      ∃ other, ReflTransGen plan.DependsOn name other ∧ TransGen plan.DependsOn other other) ∧
    ((∃ order, plan.topoOrder = .ok order) ↔ plan.Known ∧ ∀ name, ¬ TransGen plan.DependsOn name name) ∧
    ∀ order, plan.topoOrder = .ok order → order.Perm plan.effects ∧
      ∀ before effect after, order = before ++ effect :: after → ∀ target ∈ effect.references, target ∈ before.map Effect.name := by
  have valid_iff : (∃ order, plan.topoOrder = .ok order) ↔ plan.Known ∧ ∀ name, ¬ TransGen plan.DependsOn name name := by
    constructor
    · rintro ⟨order, sorted⟩
      exact ⟨(Plan.valid_of_topoOrder sorted).known, (Plan.valid_of_topoOrder sorted).acyclic⟩
    · rintro ⟨known, acyclic⟩
      exact Plan.Valid.topoOrder ⟨known, acyclic⟩
  have cycle_of_known (known : plan.Known) {error : PlanError} (failed : plan.topoOrder = .error error) :
      ∃ start ∈ plan.effects.map Effect.name, error = .cycle start ∧
        ∃ name, ReflTransGen plan.DependsOn start name ∧ TransGen plan.DependsOn name name := by
    rw [Plan.topoOrder, Plan.unknownReference_eq_none.mpr known] at failed
    exact topoLoop_error known failed
  have unknown_of_not_known (unknown : ¬ plan.Known) :
      ∃ source target, plan.topoOrder = .error (.unknownReference source target) := by
    rw [← Plan.unknownReference_eq_none, ← ne_eq, Option.ne_none_iff_exists'] at unknown
    obtain ⟨error, found⟩ := unknown
    obtain ⟨source, target, rfl⟩ := Plan.unknownReference_eq_some found
    exact ⟨source, target, by rw [Plan.topoOrder, found]⟩
  have known_of_cycle {name : String} (failed : plan.topoOrder = .error (.cycle name)) : plan.Known := by
    by_contra unknown
    obtain ⟨source, target, other⟩ := unknown_of_not_known unknown
    rw [failed] at other
    cases other
  refine ⟨plan.topoLoop_terminates, ?_, ⟨?_, ?_⟩, fun name failed => ?_, valid_iff, fun order sorted => ?_⟩
  · trans ¬ plan.Known
    · refine ⟨?_, unknown_of_not_known⟩
      rintro ⟨source, target, failed⟩ known
      obtain ⟨start, -, other, -⟩ := cycle_of_known known failed
      cases other
    · simp only [Plan.Known]
      push Not
      rfl
  · rintro ⟨name, failed⟩
    obtain ⟨-, -, -, other, -, cycle⟩ := cycle_of_known (known_of_cycle failed) failed
    exact ⟨known_of_cycle failed, other, cycle⟩
  · rintro ⟨known, name, cycle⟩
    cases result : plan.topoOrder with
    | ok order => exact absurd cycle ((valid_iff.mp ⟨order, result⟩).2 name)
    | error error =>
      obtain ⟨start, -, rfl, -⟩ := cycle_of_known known result
      exact ⟨start, rfl⟩
  · obtain ⟨start, named, same, leads⟩ := cycle_of_known (known_of_cycle failed) failed
    cases same
    exact ⟨named, leads⟩
  · obtain ⟨perm, ordered⟩ := Plan.topoOrder_ok sorted
    refine ⟨perm, fun before effect after split target refers => ?_⟩
    rw [split] at ordered
    exact (ordered.needs_before refers).resolve_left (by simp)

end Index.Efx
