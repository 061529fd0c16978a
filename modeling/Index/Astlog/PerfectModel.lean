import Index.Astlog.Semantics

/-! # The perfect model

The strata are saturated one after another, each over the final relations of the strata below it, so
the finished database is the model that is least in every stratum. -/

namespace Index.Astlog

open Index.Lib

namespace Evaluator

variable {evaluator : Evaluator} {level : Levels} {db : Database}

theorem stratifies (least : evaluator.program.LeastLevels level) : Stratifies level.rank evaluator.clauses := by
  rintro _ ⟨rule, member, rfl⟩
  -- A reference of the body is an edge of the program.
  have edge : ∀ {atom edge}, atom ∈ rule.body → BodyAtom.edge? rule.name atom = some edge →
      level.rank edge.reference + edge.step ≤ level.rank edge.head := by
    intro atom edge inside isEdge
    exact least.respects edge (List.mem_flatMap.mpr ⟨rule, member, List.mem_filterMap.mpr ⟨atom, inside, isEdge⟩⟩)
  constructor
  · rintro _ ⟨app, inside, relational, rfl⟩
    exact edge inside (by simp only [BodyAtom.edge?, if_pos relational]; rfl)
  · rintro _ ⟨neg, inside, rfl⟩
    exact edge inside rfl

theorem clausesOf_stratumAt (evaluator : Evaluator) (rank : String → Nat) (height : Nat) :
    evaluator.clausesOf (evaluator.program.stratumAt rank height) = stratumOf rank evaluator.clauses height := by
  ext clause
  constructor
  · rintro ⟨index, inside, rule, found, rfl⟩
    obtain ⟨same, sameFound, leveled⟩ := Program.mem_stratumAt.mp inside
    rw [found, Option.some.injEq] at sameFound
    subst sameFound
    exact ⟨⟨rule, List.mem_of_getElem? found, rfl⟩, leveled⟩
  · rintro ⟨⟨rule, member, rfl⟩, leveled⟩
    obtain ⟨index, found⟩ := List.mem_iff_getElem?.mp member
    exact ⟨index, Program.mem_stratumAt.mpr ⟨rule, found, leveled⟩, rule, found, rfl⟩

/-- Saturating the strata from a height on: each gets its least model, and nothing below changes. -/
theorem saturateAll_least (least : evaluator.program.LeastLevels level) {fuel first count : Nat} {final : Database}
    (ran : evaluator.saturateAll fuel ((List.range' first count).map (evaluator.program.stratumAt level.rank)) db =
      some (.ok final))
    (fresh : ∀ name ∈ heads evaluator.clauses, first ≤ level.rank name → db.rowsOf name = ∅) :
    (∀ height, first ≤ height → height < first + count →
      LeastModel (stratumOf level.rank evaluator.clauses height) final.rowsOf) ∧
    ∀ name, (name ∉ heads evaluator.clauses ∨ level.rank name < first) → final.rowsOf name = db.rowsOf name := by
  induction count generalizing first db with
  | zero =>
    cases ran
    exact ⟨fun height above below => by omega, fun _ _ => rfl⟩
  | succ count ih =>
    rw [List.range'_succ, List.map_cons, saturateAll] at ran
    split at ran
    next next saturated =>
      obtain ⟨run, closed⟩ := saturate_run saturated
      rw [clausesOf_stratumAt] at run closed
      have stratified := stratifies least
      -- A relation defined in this stratum has this level and no row yet.
      have leveled : ∀ name ∈ heads (stratumOf level.rank evaluator.clauses first),
          name ∈ heads evaluator.clauses ∧ level.rank name = first := by
        rintro _ ⟨clause, ⟨member, leveled⟩, rfl⟩
        exact ⟨⟨clause, member, rfl⟩, leveled⟩
      have reached : LeastModel (stratumOf level.rank evaluator.clauses first) next.rowsOf := by
        refine leastModel_of_iteration run (fun name defined => ?_) closed fun clause member name negated defined => ?_
        · obtain ⟨defined, same⟩ := leveled name defined
          exact fresh name defined (Nat.le_of_eq same.symm)
        · have lower := (stratified clause member.1).2 name negated
          rw [member.2, (leveled name defined).2] at lower
          exact Nat.lt_irrefl first lower
      have unchanged : ∀ name, name ∉ heads (stratumOf level.rank evaluator.clauses first) →
          next.rowsOf name = db.rowsOf name := fun name undefined => iteration_outside run undefined
      obtain ⟨above, kept⟩ := ih ran fun name defined higher => by
        rw [unchanged name fun here => by have := (leveled name here).2; omega]
        exact fresh name defined (by omega)
      constructor
      · intro height lower upper
        rcases Nat.lt_or_eq_of_le lower with later | rfl
        · exact above height later (by omega)
        · refine reached.congr fun name involved => (kept name (.inr ?_)).symm
          rcases involved with defined | ⟨clause, member, used | negated⟩
          · rw [(leveled name defined).2]
            exact Nat.lt_succ_self _
          · have := (stratified clause member.1).1 name used
            have := member.2
            omega
          · have := (stratified clause member.1).2 name negated
            have := member.2
            omega
      · intro name outside
        have elsewhere : name ∉ heads (stratumOf level.rank evaluator.clauses first) := by
          intro here
          obtain ⟨defined, same⟩ := leveled name here
          rcases outside with undefined | lower
          · exact undefined defined
          · omega
        rw [kept name (outside.imp id fun lower => by omega), unchanged name elsewhere]
    next stopped => simp_all

theorem rowsOf_emptyDatabase (program : Program) (name : String) : program.emptyDatabase.rowsOf name = ∅ := by
  ext row
  simp [Database.rowsOf, Program.emptyDatabase_lookup, Relation.new]

/-- A finished database is the perfect model, for the levels of the strata. -/
theorem fixpoint_least {fuel : Nat} (finished : evaluator.fixpoint fuel = some (.ok db)) :
    ∃ strata level, evaluator.program.strata = .ok strata ∧ evaluator.program.LeastLevels level ∧
      strata = (List.range strata.length).map (evaluator.program.stratumAt level.rank) ∧
      (∀ rule ∈ evaluator.program.rules, level.rank rule.name < strata.length) ∧
      (∀ height, LeastModel (stratumOf level.rank evaluator.clauses height) db.rowsOf) ∧
      ∀ name, name ∉ heads evaluator.clauses → db.rowsOf name = ∅ := by
  unfold fixpoint at finished
  split at finished
  next => cases finished
  next strata computed =>
    obtain ⟨level, -, least, layered, bounded⟩ := Program.strata_eq computed
    rw [layered, List.range_eq_range'] at finished
    obtain ⟨models, kept⟩ := saturateAll_least least finished
      (fun name _ _ => rowsOf_emptyDatabase evaluator.program name)
    refine ⟨strata, level, computed, least, layered, bounded, fun height => ?_, fun name undefined => ?_⟩
    · rcases Nat.lt_or_ge height strata.length with inside | beyond
      · exact models height (Nat.zero_le _) (by omega)
      · refine leastModel_of_empty ?_
        rintro _ ⟨⟨rule, member, rfl⟩, leveled⟩
        have lower := bounded rule member
        change level.rank rule.name = height at leveled
        omega
    · rw [kept name (.inl undefined), rowsOf_emptyDatabase]

/-! ## The order of the rules -/

/-- The same evaluation setup for a program with other rules. -/
def withRules (evaluator : Evaluator) (rules : List Rule) : Evaluator :=
  { evaluator with program := { evaluator.program with rules } }

theorem satisfies_withRules (rules : List Rule) (model : String → Set Row) (body : List BodyAtom) (env final : Env) :
    (evaluator.withRules rules).Satisfies model body env final ↔ evaluator.Satisfies model body env final := by
  induction body generalizing env with
  | nil => rfl
  | cons atom rest ih =>
    refine exists_congr fun next => and_congr ?_ (ih next)
    cases atom <;> rfl

theorem clause_withRules (rules : List Rule) (rule : Rule) :
    (evaluator.withRules rules).clause rule = evaluator.clause rule := by
  simp only [clause, satisfies_withRules]

/-- The order of the rules does not change the clauses. -/
theorem clauses_withRules {rules : List Rule} (permutation : rules.Perm evaluator.program.rules) :
    (evaluator.withRules rules).clauses = evaluator.clauses := by
  ext clause
  constructor
  · rintro ⟨rule, member, rfl⟩
    exact ⟨rule, permutation.mem_iff.mp member, (clause_withRules rules rule).symm⟩
  · rintro ⟨rule, member, rfl⟩
    exact ⟨rule, permutation.mem_iff.mpr member, clause_withRules rules rule⟩

/-- Evaluation computes the perfect model.  The strata are the rules layered by heights that put used
relations no higher than the head and negated ones lower; in every stratum the rows of the finished
database are the least ones closed under its rules, given the relations defined elsewhere; no row is
stored twice; and any order of the rules derives the same rows. -/
theorem fixpoint_perfect_model (evaluator : Evaluator) (fuel : Nat) (db : Database)
    (finished : evaluator.fixpoint fuel = some (.ok db)) :
    (∃ strata height, evaluator.program.strata = .ok strata ∧
      strata = (List.range strata.length).map (evaluator.program.stratumAt height) ∧
      (∀ rule ∈ evaluator.program.rules, height rule.name < strata.length) ∧ Stratifies height evaluator.clauses ∧
      ∀ stratum ∈ strata, LeastModel (evaluator.clausesOf stratum) db.rowsOf) ∧
    (∀ (name : String) relation, db.relations[name]? = some relation → relation.rows.Nodup) ∧
    ∀ rules otherFuel other, rules.Perm evaluator.program.rules →
      (evaluator.withRules rules).fixpoint otherFuel = some (.ok other) → other.rowsOf = db.rowsOf := by
  obtain ⟨strata, level, computed, least, layered, bounded, models, undefined⟩ := fixpoint_least finished
  refine ⟨⟨strata, level.rank, computed, layered, bounded, stratifies least, fun stratum member => ?_⟩,
    fun name relation _ => relation.distinct, fun rules otherFuel other permutation otherFinished => ?_⟩
  · rw [layered] at member
    obtain ⟨height, -, rfl⟩ := List.mem_map.mp member
    rw [clausesOf_stratumAt]
    exact models height
  · obtain ⟨-, otherLevel, -, otherLeast, -, -, otherModels, otherUndefined⟩ := fixpoint_least otherFinished
    have sameClauses := clauses_withRules permutation
    have sameEdges : ∀ edge, edge ∈ (evaluator.withRules rules).program.edges ↔ edge ∈ evaluator.program.edges := by
      intro edge
      simp only [Program.edges, List.mem_flatMap]
      exact exists_congr fun rule => and_congr_left fun _ => permutation.mem_iff
    have sameLevels : otherLevel.rank = level.rank := funext (otherLeast.unique least sameEdges)
    rw [sameClauses] at otherModels otherUndefined
    rw [sameLevels] at otherModels
    exact leastModel_unique (stratifies least) otherModels models fun name outside => by
      rw [undefined name outside, otherUndefined name outside]

end Evaluator

/-- Reachability, and the nodes that do not reach themselves. -/
def reachProgram : Program where
  rules := [
    ⟨"reach", ["x", "y"], [.matching ⟨.nix, "edges", 1⟩], 1⟩,
    ⟨"reach", ["x", "z"], [.app ⟨"reach", [.var "x", .var "y"], 2⟩, .app ⟨"reach", [.var "y", .var "z"], 2⟩], 2⟩,
    ⟨"loose", ["x"], [.matching ⟨.nix, "edges", 3⟩, .negation ⟨"reach", [.var "x", .var "x"], 3⟩], 3⟩]
  rewrites := []
  lints := []

def reachEvaluator : Evaluator where
  program := reachProgram
  corpus := ⟨[]⟩
  matchRows key :=
    if key.query = "edges" then
      some [[("x", .text "a"), ("y", .text "b")], [("x", .text "b"), ("y", .text "c")], [("x", .text "c"), ("y", .text "c")]]
    else none
  regexes _ := none

def isFinished : Option (Except (Fault Error) Database) → Bool
  | some (.ok _) => true
  | _ => false

theorem exists_of_isFinished (outcome : Option (Except (Fault Error) Database)) (finished : isFinished outcome = true) :
    ∃ db, outcome = some (.ok db) := by
  match outcome with
  | some (.ok db) => exact ⟨db, rfl⟩

theorem reach_perfect_model : ∃ db, reachEvaluator.fixpoint 3 = some (.ok db) ∧
    ∃ strata height, reachProgram.strata = .ok strata ∧ Stratifies height reachEvaluator.clauses ∧
      ∀ stratum ∈ strata, LeastModel (reachEvaluator.clausesOf stratum) db.rowsOf := by
  obtain ⟨db, finished⟩ := exists_of_isFinished (reachEvaluator.fixpoint 3) (by decide +kernel)
  obtain ⟨⟨strata, height, computed, -, -, stratifies, models⟩, -⟩ :=
    Evaluator.fixpoint_perfect_model reachEvaluator 3 db finished
  exact ⟨db, finished, strata, height, computed, stratifies, models⟩

end Index.Astlog
