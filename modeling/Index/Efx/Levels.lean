import Index.Efx.Engine

/-! # Levels

`levels` cuts a dependency order into the layers of its longest-path depth. -/

namespace Index.Efx

open Index.Lib List

section Level

variable {depth : BTreeMap String Nat} {effect : Effect}

theorem Effect.mem_levelCandidates {candidate : Nat} :
    candidate ∈ effect.levelCandidates depth ↔
      ∃ target ∈ effect.references, ∃ d, depth[target]? = some d ∧ candidate = d + 1 := by
  simp only [Effect.levelCandidates, mem_filterMap, Effect.references]
  constructor
  · rintro ⟨value, member, found⟩
    cases value with
    | literal literal => cases found
    | ref r =>
      obtain ⟨d, known, rfl⟩ := Option.map_eq_some_iff.mp found
      exact ⟨r.effect, ⟨_, member, rfl⟩, d, known, rfl⟩
  · rintro ⟨target, ⟨value, member, refers⟩, d, known, rfl⟩
    refine ⟨value, member, ?_⟩
    cases value with
    | literal literal => cases refers
    | ref r =>
      cases refers
      simp [known]

theorem Effect.lt_level {target : String} (refers : target ∈ effect.references) {d : Nat}
    (known : depth[target]? = some d) : d < effect.level depth := by
  have candidate := Effect.mem_levelCandidates.mpr ⟨target, refers, d, known, rfl⟩
  unfold Effect.level
  cases largest : (effect.levelCandidates depth).max? with
  | none =>
    rw [max?_eq_none_iff.mp largest] at candidate
    cases candidate
  | some m =>
    have bound := (max?_eq_some_iff.mp largest).2 _ candidate
    simp only [Option.getD_some]
    omega

theorem Effect.level_tight : effect.level depth = 0 ∨
    ∃ target ∈ effect.references, ∃ d, depth[target]? = some d ∧ effect.level depth = d + 1 := by
  unfold Effect.level
  cases largest : (effect.levelCandidates depth).max? with
  | none => exact .inl rfl
  | some m => exact .inr (Effect.mem_levelCandidates.mp (max?_eq_some_iff.mp largest).1)

end Level

/-- The depth the loop has recorded for an effect. -/
def LevelState.rank (state : LevelState) (effect : Effect) : Nat := state.depth[effect.name]?.getD 0

/-- The loop invariant: the groups are the layers of the recorded depths, which are longest paths. -/
structure LevelInvariant (seen : List Effect) (state : LevelState) : Prop where
  known : ∀ name, name ∈ seen.map Effect.name ↔ (state.depth[name]?).isSome
  groups : state.groups = layers state.rank state.groups.length seen
  bounded : ∀ effect ∈ seen, state.rank effect < state.groups.length
  above : ∀ effect ∈ seen, ∀ target ∈ effect.references, ∃ d, state.depth[target]? = some d ∧ d < state.rank effect
  tight : ∀ effect ∈ seen, state.rank effect = 0 ∨
    ∃ target ∈ effect.references, ∃ d, state.depth[target]? = some d ∧ state.rank effect = d + 1

theorem LevelInvariant.step {seen : List Effect} {state : LevelState} {effect : Effect}
    (invariant : LevelInvariant seen state) (fresh : effect.name ∉ seen.map Effect.name)
    (references : ∀ target ∈ effect.references, target ∈ seen.map Effect.name) :
    LevelInvariant (seen ++ [effect]) (levelStep state effect) := by
  have keeps : ∀ name ∈ seen.map Effect.name, (levelStep state effect).depth[name]? = state.depth[name]? := by
    intro name member
    simp only [levelStep, BTreeMap.getElem?_insert]
    rw [if_neg]
    rintro rfl
    exact fresh member
  have here : (levelStep state effect).rank effect = effect.level state.depth := by
    simp [LevelState.rank, levelStep]
  have before : ∀ other ∈ seen, (levelStep state effect).rank other = state.rank other := by
    intro other member
    rw [LevelState.rank, keeps _ (mem_map_of_mem member), LevelState.rank]
  have length : (levelStep state effect).groups.length =
      state.groups.length + (effect.level state.depth + 1 - state.groups.length) := by
    simp [levelStep]
  have refersBefore : ∀ other ∈ seen, ∀ target ∈ other.references, target ∈ seen.map Effect.name := by
    intro other member target refers
    obtain ⟨d, found, -⟩ := invariant.above other member target refers
    exact (invariant.known target).mpr (by rw [found]; rfl)
  refine ⟨?_, ?_, ?_, ?_, ?_⟩
  · intro name
    simp only [map_append, map_cons, map_nil, mem_append, mem_singleton, levelStep,
      BTreeMap.getElem?_insert, invariant.known]
    split
    next same => simp [same]
    next differ => simp [Ne.symm differ]
  · rw [layers_snoc, here, length, layers_congr _ before, layers_pad invariant.bounded, ← invariant.groups]
    rfl
  · refine forall_mem_append.mpr ⟨fun other member => ?_, forall_mem_singleton.mpr ?_⟩
    · rw [before other member]
      have := invariant.bounded other member
      omega
    · rw [here]
      omega
  · refine forall_mem_append.mpr ⟨fun other member target refers => ?_, forall_mem_singleton.mpr fun target refers => ?_⟩
    · rw [keeps target (refersBefore other member target refers), before other member]
      exact invariant.above other member target refers
    · have inside := references target refers
      obtain ⟨d, found⟩ := Option.isSome_iff_exists.mp ((invariant.known target).mp inside)
      rw [keeps target inside, here]
      exact ⟨d, found, Effect.lt_level refers found⟩
  · refine forall_mem_append.mpr ⟨fun other member => ?_, forall_mem_singleton.mpr ?_⟩
    · rw [before other member]
      refine (invariant.tight other member).imp_right ?_
      rintro ⟨target, refers, d, found, rank⟩
      exact ⟨target, refers, d, by rw [keeps target (refersBefore other member target refers), found], rank⟩
    · rw [here]
      refine Effect.level_tight.imp_right ?_
      rintro ⟨target, refers, d, found, rank⟩
      exact ⟨target, refers, d, by rw [keeps target (references target refers), found], rank⟩

theorem levels_invariant {order : List Effect} (ordered : DependencyOrder order)
    (unique : (order.map Effect.name).Nodup) : LevelInvariant order (order.foldl levelStep {}) := by
  induction order using List.reverseRecOn with
  | nil => exact ⟨by simp, by simp [layers], by simp, by simp, by simp⟩
  | append_singleton order effect ih =>
    rw [foldl_append]
    rw [map_append, nodup_append] at unique
    refine (ih ordered.of_append_left unique.1).step ?_ ?_
    · intro member
      exact unique.2.2 _ member _ (by simp) rfl
    · intro target refers
      exact (ordered.needs_before refers).resolve_left (by simp)

/-- The levels of a dependency order are the layers of a rank that is one more than the largest rank
referenced, or zero. -/
theorem levels_eq_layers {order : List Effect} (ordered : DependencyOrder order)
    (unique : (order.map Effect.name).Nodup) :
    ∃ (rank : Effect → Nat) (count : Nat), levels order = layers rank count order ∧
      (∀ effect ∈ order, rank effect < count) ∧
      (∀ effect ∈ order, ∀ target ∈ effect.references,
        ∃ source ∈ order, source.name = target ∧ rank source < rank effect) ∧
      ∀ effect ∈ order, rank effect = 0 ∨
        ∃ source ∈ order, source.name ∈ effect.references ∧ rank effect = rank source + 1 := by
  have invariant := levels_invariant ordered unique
  have source : ∀ {target d}, (order.foldl levelStep {}).depth[target]? = some d →
      ∃ source ∈ order, source.name = target ∧ (order.foldl levelStep {}).rank source = d := by
    intro target d found
    obtain ⟨source, member, rfl⟩ := mem_map.mp ((invariant.known target).mpr (by rw [found]; rfl))
    exact ⟨source, member, rfl, by rw [LevelState.rank, found, Option.getD_some]⟩
  refine ⟨_, _, invariant.groups, invariant.bounded, ?_, ?_⟩
  · intro effect member target refers
    obtain ⟨d, found, lower⟩ := invariant.above effect member target refers
    obtain ⟨other, otherMember, name, rank⟩ := source found
    exact ⟨other, otherMember, name, rank ▸ lower⟩
  · intro effect member
    refine (invariant.tight effect member).imp_right ?_
    rintro ⟨target, refers, d, found, rank⟩
    obtain ⟨other, otherMember, rfl, rfl⟩ := source found
    exact ⟨other, otherMember, refers, rank⟩

end Index.Efx
