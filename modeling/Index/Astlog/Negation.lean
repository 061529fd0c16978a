import Index.Astlog.Safety

/-! # Negation and unbound variables

The checks count every capture a query mentions as bound, but an optional or alternated capture may be
absent from a match.  A negated atom then runs with an unbound variable, which any row unifies with.
When every negated variable is an argument of an earlier atom, or a capture that all rows of an earlier
query bind, no negation sees a hole. -/

namespace Index.Astlog

open Index.Lib List

namespace Evaluator

variable {evaluator : Evaluator} {db : Database}

/-- `Evaluates db atoms env neg reached`: solving the atoms from `env` evaluates the negated atom
`neg` with the bindings `reached`. -/
inductive Evaluates (evaluator : Evaluator) (db : Database) : List BodyAtom → Env → AppAtom → Env → Prop
  | here {neg : AppAtom} {rest : List BodyAtom} {env : Env} : Evaluates evaluator db (.negation neg :: rest) env neg env
  | later {atom : BodyAtom} {rest : List BodyAtom} {env next reached : Env} {nexts : List Env} {neg : AppAtom}
      (extended : evaluator.extend db atom env = .ok nexts) (member : next ∈ nexts)
      (evaluates : Evaluates evaluator db rest next neg reached) : Evaluates evaluator db (atom :: rest) env neg reached

/-- The databases against which the loop over the strata solves rule bodies. -/
inductive Visits (evaluator : Evaluator) : Database → Prop
  | start : Visits evaluator evaluator.program.emptyDatabase
  | round {strata : List (List Nat)} {stratum : List Nat} {db next : Database} {grew : Bool}
      (computed : evaluator.program.strata = .ok strata) (member : stratum ∈ strata) (visited : Visits evaluator db)
      (iterated : evaluator.iterate stratum db = .ok (next, grew)) : Visits evaluator next

theorem saturate_visits {strata : List (List Nat)} {stratum : List Nat} (computed : evaluator.program.strata = .ok strata)
    (member : stratum ∈ strata) {fuel : Nat} {final : Database} (visited : evaluator.Visits db)
    (saturated : evaluator.saturate stratum fuel db = some (.ok final)) : evaluator.Visits final := by
  induction fuel generalizing db with
  | zero => cases saturated
  | succ fuel ih =>
    rw [saturate] at saturated
    split at saturated
    next => cases saturated
    next next grew iterated =>
      have visitedNext := Visits.round computed member visited iterated
      split at saturated
      next => exact ih visitedNext saturated
      next =>
        cases saturated
        exact visitedNext

theorem saturateAll_visits {strata rest : List (List Nat)} (computed : evaluator.program.strata = .ok strata)
    (members : ∀ stratum ∈ rest, stratum ∈ strata) {fuel : Nat} {final : Database} (visited : evaluator.Visits db)
    (saturated : evaluator.saturateAll fuel rest db = some (.ok final)) : evaluator.Visits final := by
  induction rest generalizing db with
  | nil =>
    cases saturated
    exact visited
  | cons stratum rest ih =>
    obtain ⟨here, later⟩ := forall_mem_cons.mp members
    rw [saturateAll] at saturated
    split at saturated
    next next ended => exact ih later (saturate_visits computed here visited ended) saturated
    next unfinished => exact absurd saturated (unfinished final)

/-- The finished database, against which rewrite bodies are solved, is visited too. -/
theorem fixpoint_visits {fuel : Nat} (finished : evaluator.fixpoint fuel = some (.ok db)) : evaluator.Visits db := by
  unfold fixpoint at finished
  split at finished
  next => cases finished
  next strata computed => exact saturateAll_visits computed (fun _ => id) .start finished

theorem Visits.ok (sound : evaluator.Sound) (visited : evaluator.Visits db) : evaluator.DatabaseOk db := by
  induction visited with
  | start => exact evaluator.emptyDatabase_ok
  | round computed member _ iterated ih =>
    exact (iterate_ensures sound ih (strata_indices computed _ member)).of_ok iterated

/-! ## Supplied variables -/

/-- The variables an atom binds in every environment it leaves: its arguments, or the captures all
rows of its query bind. -/
def Supplies (evaluator : Evaluator) : BodyAtom → String → Prop
  | .matching atom, var => ∀ bindings, evaluator.matchRows atom.key = some bindings →
      ∀ binding ∈ bindings, var ∈ binding.map Prod.fst
  | .app app, var => var ∈ app.vars
  | .negation _, _ => False

/-- Every negated variable of a body is supplied by an atom before its negation. -/
def NegationsSupplied (evaluator : Evaluator) (body : List BodyAtom) : Prop :=
  ∀ before neg after, body = before ++ .negation neg :: after → ∀ var ∈ neg.vars,
    ∃ atom ∈ before, evaluator.Supplies atom var

theorem supplies_of_rows {atom : MatchAtom} {var : String} (rowsBind : (evaluator.matchRows atom.key).all
    (fun bindings => bindings.all fun binding => decide (var ∈ binding.map Prod.fst)) = true) :
    evaluator.Supplies (.matching atom) var := by
  intro bindings known binding inside
  rw [known, Option.all_some] at rowsBind
  exact of_decide_eq_true (all_eq_true.mp rowsBind binding inside)

theorem extend_supplies (sound : evaluator.Sound) (ok : evaluator.DatabaseOk db) {atom : BodyAtom} {env next : Env}
    {nexts : List Env} (member : atom ∈ evaluator.program.atoms) (valid : evaluator.corpus.HasEnv env)
    (extended : evaluator.extend db atom env = .ok nexts) (inside : next ∈ nexts) :
    evaluator.corpus.HasEnv next ∧ (∀ var, var ∈ env → var ∈ next) ∧
      ∀ var, evaluator.Supplies atom var → var ∈ next := by
  have extension : Extension evaluator.corpus atom.boundVars env next :=
    (extend_ensures sound ok member valid).of_ok extended next inside
  refine ⟨extension.values, extension.keeps, fun var supplied => ?_⟩
  cases atom with
  | app app => exact extension.binds var supplied
  | negation neg => exact supplied.elim
  | matching atom =>
    obtain ⟨bindings, known⟩ := sound.prepared.materialized atom member
    simp only [extend, known, Except.ok.injEq] at extended
    subst extended
    obtain ⟨binding, bindingMember, unified⟩ := mem_filterMap.mp inside
    exact (unifyBinding_unified unified).mem_iff.mpr (.inr (supplied bindings known binding bindingMember))

/-- Along the evaluation of a body, everything the atoms so far supply is bound. -/
theorem Evaluates.bound (sound : evaluator.Sound) (ok : evaluator.DatabaseOk db) {atoms : List BodyAtom}
    {env reached : Env} {neg : AppAtom} (evaluates : evaluator.Evaluates db atoms env neg reached) (before : List BodyAtom)
    (members : ∀ atom ∈ atoms, atom ∈ evaluator.program.atoms) (supplied : evaluator.NegationsSupplied (before ++ atoms))
    (valid : evaluator.corpus.HasEnv env)
    (bound : ∀ atom ∈ before, ∀ var, evaluator.Supplies atom var → var ∈ env) : ∀ var ∈ neg.vars, var ∈ reached := by
  induction evaluates generalizing before with
  | here =>
    intro var member
    obtain ⟨atom, atomMember, supplies⟩ := supplied before _ _ rfl var member
    exact bound atom atomMember var supplies
  | @later atom rest env next reached nexts neg extended member _ ih =>
    obtain ⟨here, later⟩ := forall_mem_cons.mp members
    obtain ⟨nextValid, keeps, supplies⟩ := extend_supplies sound ok here valid extended member
    refine ih (before ++ [atom]) later (by simpa using supplied) nextValid ?_
    exact forall_mem_append.mpr ⟨fun earlier inBefore var supplied => keeps var (bound earlier inBefore var supplied),
      forall_mem_singleton.mpr supplies⟩

end Evaluator

/-- The bodies of a program. -/
def Program.bodies (program : Program) : List (List BodyAtom) :=
  program.rules.map Rule.body ++ program.rewrites.map Rewrite.body

theorem Program.mem_atoms_of_body {program : Program} {body : List BodyAtom} (member : body ∈ program.bodies)
    {atom : BodyAtom} (inside : atom ∈ body) : atom ∈ program.atoms := by
  rcases mem_append.mp member with ofRule | ofRewrite
  · obtain ⟨rule, ruleMember, rfl⟩ := mem_map.mp ofRule
    exact mem_append_left _ (mem_flatMap.mpr ⟨rule, ruleMember, inside⟩)
  · obtain ⟨rewrite, rewriteMember, rfl⟩ := mem_map.mp ofRewrite
    exact mem_append_right _ (mem_flatMap.mpr ⟨rewrite, rewriteMember, inside⟩)

/-- When the match rows supply the negated variables, no run negates with a hole: whatever rule or
rewrite body is solved, against whatever database the run visits, every variable of a negated atom is
bound when the atom is evaluated. -/
theorem negation_sees_no_hole (unicode : Unicode) (src : String) (program : Program) (engines : Engines)
    (corpus : Corpus) (evaluator : Evaluator) (parsed : Program.parse unicode src = some (.ok program))
    (ready : Evaluator.new engines program corpus = .ok evaluator)
    (supplied : ∀ body ∈ program.bodies, evaluator.NegationsSupplied body) :
    ∀ db, evaluator.Visits db → ∀ body ∈ program.bodies, ∀ neg env, evaluator.Evaluates db body ∅ neg env →
      ∀ var ∈ neg.vars, var ∈ env := by
  have sound := Evaluator.Sound.of_parse parsed ready
  obtain ⟨rfl, rfl, -⟩ := Evaluator.new_prepared ready
  intro db visited body member neg env evaluates
  exact evaluates.bound sound (visited.ok sound) [] (fun atom inside => Program.mem_atoms_of_body member inside)
    (supplied body member) (by simp [Corpus.HasEnv]) nofun

/-- When the only function matched has a modifier, every row of the query binds `v`. -/
theorem visibility_supplied : ∀ body ∈ visibilityProgram.bodies,
    (visibilityEvaluator [[⟨1, 2⟩, ⟨0, 3⟩]]).NegationsSupplied body := by
  have supplies : (visibilityEvaluator [[⟨1, 2⟩, ⟨0, 3⟩]]).Supplies
      (.matching ⟨.rust, "(function_item (visibility_modifier)? @v) @f", 2⟩) "v" :=
    Evaluator.supplies_of_rows (by decide +kernel)
  intro body member before neg after same var varMember
  have cases : body = [.matching ⟨.rust, "(visibility_modifier) @v", 1⟩] ∨ body = hiddenBody ∨
      body = [.app ⟨"hidden", [.var "f"], 3⟩] := by
    simpa [Program.bodies, visibilityProgram] using member
  -- only the second body has a negation, right after its query
  rcases cases with rfl | rfl | rfl
  · simp [cons_eq_append_iff] at same
  · obtain ⟨rfl, rfl, -⟩ : before = [.matching ⟨.rust, "(function_item (visibility_modifier)? @v) @f", 2⟩] ∧
        neg = ⟨"public", [.var "v"], 2⟩ ∧ after = [] := by
      simpa [hiddenBody, cons_eq_append_iff] using same
    obtain rfl : var = "v" := by simpa [AppAtom.vars, Term.vars] using varMember
    exact ⟨_, mem_singleton_self _, supplies⟩
  · simp [cons_eq_append_iff] at same

theorem public_functions_see_no_hole :
    (∀ body ∈ visibilityProgram.bodies, (visibilityEvaluator [[⟨1, 2⟩, ⟨0, 3⟩]]).NegationsSupplied body) ∧
    ∀ db, (visibilityEvaluator [[⟨1, 2⟩, ⟨0, 3⟩]]).Visits db → ∀ body ∈ visibilityProgram.bodies, ∀ neg env,
      (visibilityEvaluator [[⟨1, 2⟩, ⟨0, 3⟩]]).Evaluates db body ∅ neg env → ∀ var ∈ neg.vars, var ∈ env :=
  ⟨visibility_supplied, negation_sees_no_hole Unicode.ascii visibilitySource visibilityProgram
    (visibilityEngines [[⟨1, 2⟩, ⟨0, 3⟩]]) visibilityCorpus _ visibility_parsed
    (visibilityEvaluator_ready (by decide +kernel)) visibility_supplied⟩

/-! ## A hole -/

/-- The modifier is optional, so the first function is matched without `v`. -/
def matchesWithHole : List (List Capture) := [[⟨1, 1⟩], [⟨1, 2⟩, ⟨0, 3⟩]]

def finishedDatabase (evaluator : Evaluator) (fuel : Nat) : Option Database :=
  match evaluator.fixpoint fuel with
  | some (.ok db) => some db
  | _ => none

theorem fixpoint_of_finishedDatabase {evaluator : Evaluator} {fuel : Nat} {db : Database}
    (finished : finishedDatabase evaluator fuel = some db) : evaluator.fixpoint fuel = some (.ok db) := by
  unfold finishedDatabase at finished
  split at finished
  next same => rw [same, Option.some.inj finished]
  next => cases finished

def leavesUnbound (var : String) : Except (Fault Error) (List Env) → Bool
  | .ok nexts => nexts.any fun env => env[var]?.isNone
  | .error _ => false

theorem exists_of_leavesUnbound {var : String} {outcome : Except (Fault Error) (List Env)}
    (leaves : leavesUnbound var outcome = true) : ∃ nexts next, outcome = .ok nexts ∧ next ∈ nexts ∧ var ∉ next := by
  cases outcome with
  | error fault => cases leaves
  | ok nexts =>
    obtain ⟨next, member, unbound⟩ := any_eq_true.mp leaves
    refine ⟨nexts, next, rfl, member, ?_⟩
    rw [Std.ExtTreeMap.mem_iff_isSome_getElem?, Option.isNone_iff_eq_none.mp unbound]
    simp

/-- The program is accepted and runs, but its negation is evaluated with `v` unbound: the row of the
other function's modifier unifies with it, and the function without a modifier is not derived. -/
theorem optional_capture_leaves_hole :
    Program.parse Unicode.ascii visibilitySource = some (.ok visibilityProgram) ∧
    Evaluator.new (visibilityEngines matchesWithHole) visibilityProgram visibilityCorpus =
      .ok (visibilityEvaluator matchesWithHole) ∧
    ∃ db, (visibilityEvaluator matchesWithHole).fixpoint 2 = some (.ok db) ∧
      (visibilityEvaluator matchesWithHole).Visits db ∧ (db.relations["hidden"]?.map Relation.rows) = some [] ∧
      ∃ env, (visibilityEvaluator matchesWithHole).Evaluates db hiddenBody ∅ ⟨"public", [.var "v"], 2⟩ env ∧ "v" ∉ env := by
  refine ⟨visibility_parsed, visibilityEvaluator_ready (by decide +kernel), ?_⟩
  obtain ⟨db, finished, rows, leaves⟩ : ∃ db, finishedDatabase (visibilityEvaluator matchesWithHole) 2 = some db ∧
      (db.relations["hidden"]?.map Relation.rows) = some [] ∧
      leavesUnbound "v" ((visibilityEvaluator matchesWithHole).extend db
        (.matching ⟨.rust, "(function_item (visibility_modifier)? @v) @f", 2⟩) ∅) = true := by
    have checked : (finishedDatabase (visibilityEvaluator matchesWithHole) 2).any (fun db =>
        (db.relations["hidden"]?.map Relation.rows) = some [] &&
          leavesUnbound "v" ((visibilityEvaluator matchesWithHole).extend db
            (.matching ⟨.rust, "(function_item (visibility_modifier)? @v) @f", 2⟩) ∅)) = true := by
      decide +kernel
    obtain ⟨db, finished, both⟩ := (Option.any_eq_true _ _).mp checked
    simp only [Bool.and_eq_true, decide_eq_true_eq] at both
    exact ⟨db, finished, both⟩
  have finished := fixpoint_of_finishedDatabase finished
  obtain ⟨nexts, env, extended, member, unbound⟩ := exists_of_leavesUnbound leaves
  exact ⟨db, finished, Evaluator.fixpoint_visits finished, rows, env, .later extended member .here, unbound⟩

end Index.Astlog
