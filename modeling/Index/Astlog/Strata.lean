import Index.Lib.Dependency
import Index.Lib.Outcome
import Index.Astlog.Program

/-! # Stratification

The relaxation loop of `Program::strata` computes the least levels the references between the
relations allow, and the strata are the rule indices layered by those levels. -/

namespace Index.Astlog

open Index.Lib List

/-- The levels the references ask for: at least that of a relation used, more than that of a relation
negated. -/
def Respects (edges : List Edge) (rank : String → Nat) : Prop :=
  ∀ edge ∈ edges, rank edge.reference + edge.step ≤ rank edge.head

namespace Levels

def rank (level : Levels) (name : String) : Nat := level[name]?.getD 0

theorem rank_eq {level : Levels} {name : String} {value : Nat} (known : level[name]? = some value) :
    level.rank name = value := by
  rw [rank, known, Option.getD_some]

theorem rank_insert (level : Levels) (name other : String) (value : Nat) :
    rank (level.insert name value) other = if name = other then value else level.rank other := by
  rw [rank, BTreeMap.getElem?_insert]
  split <;> rfl

end Levels

section Relaxation

variable {edges : List Edge} {edge : Edge} {level : Levels} {state next : Levels × Option String}

/-- What one iteration does: nothing, when the edge is respected, or else it raises the head. -/
theorem relaxEdge_cases (relaxed : relaxEdge state edge = .ok next) :
    (edge.reference ∈ state.1 ∧ edge.head ∈ state.1) ∧
      ((next = state ∧ state.1.rank edge.reference + edge.step ≤ state.1.rank edge.head) ∨
        (state.1.rank edge.head < state.1.rank edge.reference + edge.step ∧
          next = (state.1.insert edge.head (state.1.rank edge.reference + edge.step), some edge.head))) := by
  obtain ⟨target, reference, relaxed⟩ := bind_eq_ok.mp relaxed
  obtain ⟨current, head, relaxed⟩ := bind_eq_ok.mp relaxed
  rw [orPanic_eq_ok] at reference head
  refine ⟨⟨?_, ?_⟩, ?_⟩
  · exact BTreeMap.mem_iff.mpr ⟨_, reference⟩
  · exact BTreeMap.mem_iff.mpr ⟨_, head⟩
  · rw [Levels.rank_eq reference, Levels.rank_eq head]
    split at relaxed
    next raised => exact .inr ⟨raised, (Except.ok.inj relaxed).symm⟩
    next settled => exact .inl ⟨(Except.ok.inj relaxed).symm, Nat.le_of_not_lt settled⟩

/-- What a pass over the edges does. -/
structure Relaxed (edges : List Edge) (level : Levels) (next : Levels × Option String) : Prop where
  known : ∀ edge ∈ edges, edge.reference ∈ level ∧ edge.head ∈ level
  keys : ∀ name, name ∈ next.1 ↔ name ∈ level
  settled : next.2 = none → next.1 = level ∧ Respects edges level.rank

theorem relaxPass_relaxed (ran : relaxPass edges level = .ok next) : Relaxed edges level next := by
  refine foldlM_invariant (Relaxed · level ·) ran ⟨by simp, fun _ => Iff.rfl, fun _ => ⟨rfl, by simp [Respects]⟩⟩ ?_
  intro done edge state next member before relaxed
  obtain ⟨⟨reference, head⟩, effect⟩ := relaxEdge_cases relaxed
  have known : ∀ other ∈ done ++ [edge], other.reference ∈ level ∧ other.head ∈ level :=
    forall_mem_append.mpr ⟨before.known, forall_mem_singleton.mpr ⟨(before.keys _).mp reference, (before.keys _).mp head⟩⟩
  rcases effect with ⟨rfl, respected⟩ | ⟨-, rfl⟩
  · refine ⟨known, before.keys, fun quiet => ?_⟩
    obtain ⟨unchanged, respects⟩ := before.settled quiet
    refine ⟨unchanged, forall_mem_append.mpr ⟨respects, forall_mem_singleton.mpr ?_⟩⟩
    rw [← unchanged]
    exact respected
  · refine ⟨known, fun name => ?_, fun quiet => nomatch quiet⟩
    rw [← before.keys name, Std.ExtTreeMap.mem_insert]
    constructor
    · rintro (same | present)
      · rw [Std.LawfulEqOrd.compare_eq_iff_eq] at same
        exact same ▸ head
      · exact present
    · exact .inr

/-- No pass rises above levels that respect the edges. -/
theorem relaxPass_le {rank : String → Nat} (respects : Respects edges rank) (below : ∀ name, level.rank name ≤ rank name)
    (ran : relaxPass edges level = .ok next) : ∀ name, next.1.rank name ≤ rank name := by
  refine foldlM_invariant (fun _ state => ∀ name, state.1.rank name ≤ rank name) ran below ?_
  intro done edge state next member before relaxed name
  rcases (relaxEdge_cases relaxed).2 with ⟨rfl, -⟩ | ⟨-, rfl⟩
  · exact before name
  · rw [Levels.rank_insert]
    split
    next same =>
      subst same
      have := before edge.reference
      have := respects edge member
      omega
    next => exact before name

end Relaxation

section Levels

variable {program : Program} {level : Levels}

/-- The least levels that respect the references of a program, on exactly its relations. -/
structure Program.LeastLevels (program : Program) (level : Levels) : Prop where
  keys : ∀ name, name ∈ level ↔ ∃ rule ∈ program.rules, rule.name = name
  known : ∀ edge ∈ program.edges, edge.reference ∈ level
  respects : Respects program.edges level.rank
  least : ∀ rank, Respects program.edges rank → ∀ name, level.rank name ≤ rank name

theorem Program.initialLevels_eq (program : Program) (name : String) :
    program.initialLevels[name]? = if ∃ rule ∈ program.rules, rule.name = name then some 0 else none := by
  unfold Program.initialLevels
  induction program.rules using List.reverseRecOn with
  | nil => simp
  | append_singleton rules rule ih =>
    rw [foldl_append, foldl_cons, foldl_nil, BTreeMap.getElem?_insert, ih]
    by_cases same : rule.name = name
    · simp [same]
    · simp [same]

theorem Program.mem_initialLevels {name : String} :
    name ∈ program.initialLevels ↔ ∃ rule ∈ program.rules, rule.name = name := by
  rw [Std.ExtTreeMap.mem_iff_isSome_getElem?, program.initialLevels_eq]
  split
  next defined => simpa using defined
  next undefined => simpa using undefined

theorem Program.rank_initialLevels (name : String) : program.initialLevels.rank name = 0 := by
  rw [Levels.rank, program.initialLevels_eq]
  split <;> rfl

/-- The loop ends on the least levels, whatever levels below them it starts from. -/
theorem Program.relax_least {left : Nat} {start : Levels} (relaxed : program.relax left start = .ok level)
    (keys : ∀ name, name ∈ start ↔ ∃ rule ∈ program.rules, rule.name = name)
    (least : ∀ rank, Respects program.edges rank → ∀ name, start.rank name ≤ rank name) :
    program.LeastLevels level := by
  -- A pass that changes nothing leaves levels that respect every edge.
  have settles : ∀ {start next : Levels}, Relaxed program.edges start (next, none) →
      (∀ name, name ∈ start ↔ ∃ rule ∈ program.rules, rule.name = name) →
      (∀ rank, Respects program.edges rank → ∀ name, start.rank name ≤ rank name) → program.LeastLevels next := by
    intro start next pass keys least
    obtain ⟨rfl, respects⟩ := pass.settled rfl
    exact ⟨keys, fun edge member => (pass.known edge member).1, respects, least⟩
  induction left generalizing start with
  | zero =>
    obtain ⟨⟨next, grew⟩, ran, relaxed⟩ := bind_eq_ok.mp relaxed
    cases grew with
    | none => exact Except.ok.inj relaxed ▸ settles (relaxPass_relaxed ran) keys least
    | some name => cases relaxed
  | succ left ih =>
    obtain ⟨⟨next, grew⟩, ran, relaxed⟩ := bind_eq_ok.mp relaxed
    have pass := relaxPass_relaxed ran
    cases grew with
    | none => exact Except.ok.inj relaxed ▸ settles pass keys least
    | some name =>
      refine ih relaxed (fun name => (pass.keys name).trans (keys name)) fun rank respects => ?_
      exact relaxPass_le respects (least rank respects) ran

theorem Program.levels_least (computed : program.levels = .ok level) : program.LeastLevels level := by
  refine Program.relax_least computed (fun name => Program.mem_initialLevels) fun rank _ name => ?_
  rw [Program.rank_initialLevels]
  exact Nat.zero_le _

theorem Program.LeastLevels.lookup (least : program.LeastLevels level) {rule : Rule} (member : rule ∈ program.rules) :
    level[rule.name]? = some (level.rank rule.name) := by
  have known := (least.keys rule.name).mpr ⟨rule, member, rfl⟩
  obtain ⟨value, found⟩ := BTreeMap.mem_iff.mp known
  rw [found, Levels.rank_eq found]

/-- Programs with the same references have the same levels. -/
theorem Program.LeastLevels.unique {left right : Program} {leftLevel rightLevel : Levels}
    (leftLeast : left.LeastLevels leftLevel) (rightLeast : right.LeastLevels rightLevel)
    (same : ∀ edge, edge ∈ left.edges ↔ edge ∈ right.edges) (name : String) :
    leftLevel.rank name = rightLevel.rank name := by
  refine Nat.le_antisymm (leftLeast.least _ (fun edge member => ?_) name) (rightLeast.least _ (fun edge member => ?_) name)
  · exact rightLeast.respects edge ((same edge).mp member)
  · exact leftLeast.respects edge ((same edge).mpr member)

end Levels

/-! ## Layers -/

section Strata

variable {program : Program} {strata : List (List Nat)}

/-- The rule indices of one level, in file order. -/
def Program.stratumAt (program : Program) (rank : String → Nat) (height : Nat) : List Nat :=
  (program.rules.zipIdx.filter fun entry => rank entry.1.name = height).map Prod.snd

theorem Program.mem_stratumAt {rank : String → Nat} {height index : Nat} :
    index ∈ program.stratumAt rank height ↔
      ∃ rule, program.rules[index]? = some rule ∧ rank rule.name = height := by
  simp [Program.stratumAt, mem_zipIdx_iff_getElem?]

theorem pushRule_eq {level : Levels} {before after : List (List Nat)} {entry : Rule × Nat}
    (pushed : pushRule level before entry = .ok after) :
    level.rank entry.1.name < before.length ∧ after = before.modify (level.rank entry.1.name) (· ++ [entry.2]) := by
  obtain ⟨stratum, found, pushed⟩ := bind_eq_ok.mp pushed
  rw [Levels.rank_eq (orPanic_eq_ok.mp found)]
  split at pushed
  next inside => exact ⟨inside, (Except.ok.inj pushed).symm⟩
  next => cases pushed

/-- Pushing the rules one by one layers them by level. -/
theorem pushRules_eq {level : Levels} {count : Nat} {entries : List (Rule × Nat)}
    (pushed : entries.foldlM (pushRule level) (List.replicate count []) = .ok strata) :
    strata = (layers (fun entry => level.rank entry.1.name) count entries).map (·.map Prod.snd) ∧
      ∀ entry ∈ entries, level.rank entry.1.name < count := by
  refine foldlM_invariant (fun done state =>
    state = (layers (fun entry => level.rank entry.1.name) count done).map (·.map Prod.snd) ∧
      ∀ entry ∈ done, level.rank entry.1.name < count) pushed ?_ ?_
  · refine ⟨ext_getElem (by simp [layers]) fun i left right => ?_, by simp⟩
    simp [layers]
  · rintro done entry state next member ⟨grouped, bounded⟩ pushed
    obtain ⟨inside, rfl⟩ := pushRule_eq pushed
    have size : state.length = count := by simp [grouped, layers]
    refine ⟨?_, forall_mem_append.mpr ⟨bounded, forall_mem_singleton.mpr (size ▸ inside)⟩⟩
    · rw [layers_snoc, grouped]
      refine ext_getElem (by simp) fun i left right => ?_
      simp only [getElem_modify, getElem_map]
      split
      next same => simp
      next differ => rfl

theorem Program.strata_eq (computed : program.strata = .ok strata) :
    ∃ level, program.levels = .ok level ∧ program.LeastLevels level ∧
      strata = (List.range strata.length).map (program.stratumAt level.rank) ∧
      ∀ rule ∈ program.rules, level.rank rule.name < strata.length := by
  obtain ⟨level, levels, computed⟩ := bind_eq_ok.mp computed
  obtain ⟨grouped, bounded⟩ := pushRules_eq computed
  have size : strata.length = level.values.max?.getD 0 + 1 := by simp [grouped, layers]
  refine ⟨level, levels, Program.levels_least levels, ?_, fun rule member => ?_⟩
  · rw [size, grouped, layers, map_map]
    rfl
  · obtain ⟨index, found⟩ := mem_iff_getElem?.mp member
    exact size ▸ bounded (rule, index) (mem_zipIdx_iff_getElem?.mpr found)

end Strata

end Index.Astlog
