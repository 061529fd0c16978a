import Index.Lib.Datalog
import Index.Astlog.Eval
import Index.Astlog.Strata

/-! # What programs mean

A rule is a clause over sets of rows: its body is satisfied by extending the bindings from left to
right, and a negated atom holds when no row unifies.  The evaluator computes the model of the clauses
that is least in every stratum, so the order of the rules does not matter. -/

namespace Index.Astlog

open Index.Lib List

/-- The rows of a relation; an unknown relation has none. -/
def Database.rowsOf (db : Database) (name : String) : Set Row :=
  {row | ∃ relation, db.relations[name]? = some relation ∧ row ∈ relation.rows}

theorem Database.rowsOf_eq {db : Database} {name : String} {relation : Relation}
    (found : db.relations[name]? = some relation) : db.rowsOf name = {row | row ∈ relation.rows} := by
  simp [Database.rowsOf, found]

namespace Evaluator

section Meaning

variable (evaluator : Evaluator) (model : String → Set Row)

/-- `next` is one way in which an atom extends the bindings `env`. -/
def Holds : BodyAtom → Env → Env → Prop
  | .matching atom, env, next =>
    ∃ bindings, evaluator.matchRows atom.key = some bindings ∧ ∃ binding ∈ bindings, unifyBinding env binding = some next
  | .app app, env, next =>
    if (builtinArity app.name).isSome then ∃ nexts, evaluator.builtin app env = .ok nexts ∧ next ∈ nexts
    else ∃ row ∈ model app.name, unifyRow env app.args row = some next
  | .negation neg, env, next => next = env ∧ ∀ row ∈ model neg.name, unifyRow env neg.args row = none

/-- `final` satisfies a body, reached from `env` by extending it atom by atom. -/
def Satisfies : List BodyAtom → Env → Env → Prop
  | [], env, final => final = env
  | atom :: rest, env, final => ∃ next, evaluator.Holds model atom env next ∧ Satisfies rest next final

end Meaning

variable {evaluator : Evaluator} {db : Database}

/-! ## Solving computes satisfaction -/

theorem mem_extend {atom : BodyAtom} {env next : Env} {nexts : List Env}
    (extended : evaluator.extend db atom env = .ok nexts) :
    next ∈ nexts ↔ evaluator.Holds db.rowsOf atom env next := by
  cases atom with
  | matching atom =>
    rw [extend] at extended
    split at extended
    next => cases extended
    next bindings rows =>
      cases extended
      simp [Holds, rows]
  | app app =>
    by_cases isBuiltin : (builtinArity app.name).isSome
    · simp only [extend, if_pos isBuiltin] at extended
      simp only [Holds, if_pos isBuiltin, extended, Except.ok.injEq, exists_eq_left']
    · simp only [extend, if_neg isBuiltin] at extended
      cases found : db.relations[app.name]? with
      | none => simp [found] at extended
      | some relation =>
        simp only [found, Except.ok.injEq] at extended
        simp only [Holds, if_neg isBuiltin, ← extended, mem_filterMap, Database.rowsOf_eq found, Set.mem_ofPred_eq]
  | negation neg =>
    cases found : db.relations[neg.name]? with
    | none => simp [extend, found] at extended
    | some relation =>
      simp only [extend, found] at extended
      simp only [Holds, Database.rowsOf_eq found, Set.mem_ofPred_eq]
      split at extended
      next unifies =>
        obtain ⟨row, member, unified⟩ := any_eq_true.mp unifies
        cases extended
        simp only [not_mem_nil, false_iff, not_and]
        intro _ none
        simp [none row member] at unified
      next apart =>
        cases extended
        have none : ∀ row ∈ relation.rows, unifyRow env neg.args row = none := by
          intro row member
          by_contra unified
          exact apart (any_eq_true.mpr ⟨row, member, Option.isSome_iff_ne_none.mpr unified⟩)
        simp only [mem_singleton, and_iff_left none]

theorem mem_solve {atoms : List BodyAtom} {env final : Env} {envs : List Env}
    (solved : evaluator.solve db atoms env = .ok envs) :
    final ∈ envs ↔ evaluator.Satisfies db.rowsOf atoms env final := by
  induction atoms generalizing env envs with
  | nil =>
    cases solved
    simp [Satisfies]
  | cons atom rest ih =>
    obtain ⟨nexts, extended, solved⟩ := bind_eq_ok.mp solved
    obtain ⟨found, collected, rfl⟩ : ∃ found, tryCollect (evaluator.solve db rest) nexts = .ok found ∧
        found.flatten = envs := by
      obtain ⟨found, collected, returned⟩ := bind_eq_ok.mp solved
      exact ⟨found, collected, Except.ok.inj returned⟩
    have pointwise := tryCollect_eq_ok.mp collected
    simp only [Satisfies, ← mem_extend extended, mem_flatten]
    constructor
    · rintro ⟨envs, member, inside⟩
      obtain ⟨next, nextMember, solvedNext⟩ := exists_image_of_mem pointwise.flip member
      exact ⟨next, nextMember, (ih solvedNext).mp inside⟩
    · rintro ⟨next, member, satisfied⟩
      obtain ⟨envs, envsMember, solvedNext⟩ := exists_image_of_mem pointwise member
      exact ⟨envs, envsMember, (ih solvedNext).mpr satisfied⟩

end Evaluator

/-! ## Rules as clauses -/

/-- The relations a body uses. -/
def usedRelations (body : List BodyAtom) : Set String :=
  {name | ∃ app, .app app ∈ body ∧ (builtinArity app.name).isNone ∧ app.name = name}

def negatedRelations (body : List BodyAtom) : Set String :=
  {name | ∃ neg, .negation neg ∈ body ∧ neg.name = name}

namespace Evaluator

variable (evaluator : Evaluator)

theorem holds_mono {left right : String → Set Row} {atom : BodyAtom} {env next : Env}
    (used : ∀ name ∈ usedRelations [atom], left name ⊆ right name)
    (negated : ∀ name ∈ negatedRelations [atom], right name ⊆ left name) (holds : evaluator.Holds left atom env next) :
    evaluator.Holds right atom env next := by
  cases atom with
  | matching atom => exact holds
  | app app =>
    by_cases isBuiltin : (builtinArity app.name).isSome
    · simpa only [Holds, if_pos isBuiltin] using holds
    · simp only [Holds, if_neg isBuiltin] at holds ⊢
      obtain ⟨row, member, unified⟩ := holds
      exact ⟨row, used app.name ⟨app, by simp, by simpa using isBuiltin, rfl⟩ member, unified⟩
  | negation neg =>
    obtain ⟨rfl, none⟩ := holds
    exact ⟨rfl, fun row member => none row (negated neg.name ⟨neg, by simp, rfl⟩ member)⟩

theorem satisfies_mono {left right : String → Set Row} {body : List BodyAtom} {env final : Env}
    (used : ∀ name ∈ usedRelations body, left name ⊆ right name)
    (negated : ∀ name ∈ negatedRelations body, right name ⊆ left name) (satisfied : evaluator.Satisfies left body env final) :
    evaluator.Satisfies right body env final := by
  induction body generalizing env with
  | nil => exact satisfied
  | cons atom rest ih =>
    obtain ⟨next, holds, satisfied⟩ := satisfied
    refine ⟨next, holds_mono evaluator ?_ ?_ holds, ih ?_ ?_ satisfied⟩
    · rintro name ⟨app, member, known⟩
      exact used name ⟨app, by simp [mem_singleton.mp member], known⟩
    · rintro name ⟨neg, member, known⟩
      exact negated name ⟨neg, by simp [mem_singleton.mp member], known⟩
    · rintro name ⟨app, member, known⟩
      exact used name ⟨app, mem_cons_of_mem _ member, known⟩
    · rintro name ⟨neg, member, known⟩
      exact negated name ⟨neg, mem_cons_of_mem _ member, known⟩

/-- A rule derives the head rows of the bindings that satisfy its body. -/
def clause (rule : Rule) : Clause String Row where
  head := rule.name
  positive := usedRelations rule.body
  negative := negatedRelations rule.body
  derives model := {row | ∃ env, evaluator.Satisfies model rule.body ∅ env ∧ rule.headRow env = .ok row}
  mono left right used negated := by
    rintro row ⟨env, satisfied, heading⟩
    exact ⟨env, evaluator.satisfies_mono used negated satisfied, heading⟩

/-- The clauses of the rules at the given indices. -/
def clausesOf (stratum : List Nat) : Set (Clause String Row) :=
  {clause | ∃ index ∈ stratum, ∃ rule, evaluator.program.rules[index]? = some rule ∧ evaluator.clause rule = clause}

/-- The clauses of the whole program. -/
def clauses : Set (Clause String Row) := {clause | ∃ rule ∈ evaluator.program.rules, evaluator.clause rule = clause}

variable {evaluator} {db : Database} {stratum : List Nat}

/-! ## One iteration -/

theorem mem_stageRule {rule : Rule} {staged : List (String × Row)} (derived : evaluator.stageRule db rule = .ok staged)
    {name : String} {row : Row} :
    (name, row) ∈ staged ↔ rule.name = name ∧ row ∈ (evaluator.clause rule).derives db.rowsOf := by
  obtain ⟨envs, solved, derived⟩ := bind_eq_ok.mp derived
  obtain ⟨rows, collected, derived⟩ := bind_eq_ok.mp derived
  cases derived
  have pointwise := tryCollect_eq_ok.mp (fallible_eq_ok.mp collected)
  simp only [mem_map, Prod.mk.injEq, exists_eq_right_right, clause, Set.mem_ofPred_eq, ← mem_solve solved]
  constructor
  · rintro ⟨member, rfl⟩
    obtain ⟨env, envMember, heading⟩ := exists_image_of_mem pointwise.flip member
    exact ⟨rfl, env, envMember, heading⟩
  · rintro ⟨rfl, env, member, heading⟩
    obtain ⟨image, imageMember, same⟩ := exists_image_of_mem pointwise member
    rw [heading, Except.ok.injEq] at same
    exact ⟨same ▸ imageMember, rfl⟩

theorem mem_stage {staged : List (String × Row)} (derived : evaluator.stage stratum db = .ok staged) {name : String}
    {row : Row} :
    (name, row) ∈ staged ↔ ∃ clause ∈ evaluator.clausesOf stratum, clause.head = name ∧ row ∈ clause.derives db.rowsOf := by
  obtain ⟨perRule, collected, derived⟩ := bind_eq_ok.mp derived
  cases derived
  have pointwise := tryCollect_eq_ok.mp collected
  rw [mem_flatten]
  constructor
  · rintro ⟨staged, member, inside⟩
    obtain ⟨index, indexMember, staging⟩ := exists_image_of_mem pointwise.flip member
    obtain ⟨rule, found, staging⟩ := bind_eq_ok.mp staging
    rw [orPanic_eq_ok] at found
    exact ⟨_, ⟨index, indexMember, rule, found, rfl⟩, (mem_stageRule staging).mp inside⟩
  · rintro ⟨_, ⟨index, indexMember, rule, found, rfl⟩, derives⟩
    obtain ⟨staged, member, staging⟩ := exists_image_of_mem pointwise indexMember
    obtain ⟨same, sameFound, staging⟩ := bind_eq_ok.mp staging
    rw [orPanic_eq_ok, found, Option.some.injEq] at sameFound
    exact ⟨staged, member, (mem_stageRule staging).mpr (sameFound ▸ derives)⟩

end Evaluator

/-- Inserting adds the row to its relation and reports whether it was there. -/
theorem insertStaged_eq {state next : Database × Bool} {staged : String × Row}
    (inserted : insertStaged state staged = .ok next) :
    (∀ name, next.1.rowsOf name = {row | row ∈ state.1.rowsOf name ∨ (name, row) = staged}) ∧
      (next.2 = false ↔ state.2 = false ∧ staged.2 ∈ state.1.rowsOf staged.1) := by
  obtain ⟨target, row⟩ := staged
  unfold insertStaged at inserted
  cases found : state.1.relations[target]? with
  | none => simp [found] at inserted
  | some relation =>
    simp only [found, Except.ok.injEq] at inserted
    subst inserted
    refine ⟨fun name => ?_, ?_⟩
    · ext other
      by_cases same : target = name
      · subst same
        simp [Database.rowsOf, found, Relation.mem_insert]
      · simp [Database.rowsOf, BTreeMap.getElem?_insert, same, Ne.symm same]
    · rw [Bool.or_eq_false_iff, Relation.insert_fresh, Database.rowsOf_eq found]
      rfl

namespace Evaluator

variable {evaluator : Evaluator} {db : Database} {stratum : List Nat}

/-- An iteration is a derivation step, and one that inserts nothing starts from a closed database. -/
theorem iterate_step {next : Database} {grew : Bool} (iterated : evaluator.iterate stratum db = .ok (next, grew)) :
    DerivationStep (evaluator.clausesOf stratum) db.rowsOf next.rowsOf ∧
      (grew = false → next.rowsOf = db.rowsOf ∧ Closed (evaluator.clausesOf stratum) next.rowsOf) := by
  obtain ⟨staged, derived, inserted⟩ := bind_eq_ok.mp iterated
  obtain ⟨rows, quiet⟩ := foldlM_invariant
    (fun done state => (∀ name, state.1.rowsOf name = {row | row ∈ db.rowsOf name ∨ (name, row) ∈ done}) ∧
      (state.2 = false → ∀ entry ∈ done, entry.2 ∈ db.rowsOf entry.1)) inserted
    ⟨fun name => by simp, by simp⟩
    (by
      rintro done entry state next - ⟨rows, quiet⟩ inserted
      obtain ⟨added, fresh⟩ := insertStaged_eq inserted
      refine ⟨fun name => ?_, fun stopped => ?_⟩
      · rw [added, rows]
        ext row
        simp [or_assoc]
      · obtain ⟨before, present⟩ := fresh.mp stopped
        rw [rows] at present
        exact forall_mem_append.mpr ⟨quiet before, forall_mem_singleton.mpr (present.elim id (quiet before entry))⟩)
  refine ⟨⟨fun name row inside => ?_, fun name row inside => ?_⟩, fun stopped => ?_⟩
  · rw [rows]
    exact .inl inside
  · rw [rows] at inside
    exact inside.imp id (mem_stage derived).mp
  · have unchanged : next.rowsOf = db.rowsOf := by
      funext name
      rw [rows]
      ext row
      exact ⟨fun inside => inside.elim id fun staging => quiet stopped (name, row) staging, .inl⟩
    refine ⟨unchanged, fun clause member row derives => ?_⟩
    rw [unchanged] at derives ⊢
    exact quiet stopped (clause.head, row) ((mem_stage derived).mpr ⟨clause, member, rfl, derives⟩)

/-- The loop over a stratum is a run of derivation steps to a closed database. -/
theorem saturate_run {fuel : Nat} {final : Database} (saturated : evaluator.saturate stratum fuel db = some (.ok final)) :
    Relation.ReflTransGen (DerivationStep (evaluator.clausesOf stratum)) db.rowsOf final.rowsOf ∧
      Closed (evaluator.clausesOf stratum) final.rowsOf := by
  induction fuel generalizing db with
  | zero => cases saturated
  | succ fuel ih =>
    rw [saturate] at saturated
    split at saturated
    next => cases saturated
    next next grew iterated =>
      obtain ⟨step, quiet⟩ := iterate_step iterated
      cases grew with
      | false =>
        cases saturated
        exact ⟨.single step, (quiet rfl).2⟩
      | true =>
        obtain ⟨run, closed⟩ := ih saturated
        exact ⟨.head step run, closed⟩

end Evaluator

end Index.Astlog
