import Index.Astlog.Binding

/-! # Checked programs

What an accepted program and a finished setup guarantee: applications have their arity, the literal
patterns, query rows and regexes the evaluator looks up are there, and every node reference points
into the corpus. -/

namespace Index.Astlog

open Index.Lib Function List

/-- The shape the checks require of an atom. -/
def Program.AtomChecked (program : Program) : BodyAtom → Prop
  | .matching _ => True
  | .negation neg => program.arities neg.name = some neg.args.length
  | .app app =>
    match builtinArity app.name with
    | none => program.arities app.name = some app.args.length
    | some arity => app.args.length = arity ∧
        (app.name = "text-match" → ∃ pattern, app.args[1]? = some (Term.text pattern))

structure Program.Checked (program : Program) : Prop where
  heads : ∀ rule ∈ program.rules, program.arities rule.name = some rule.headVars.length
  atoms : ∀ atom ∈ program.atoms, program.AtomChecked atom
  lints : ∀ lint ∈ program.lints, ∃ rule, program.rules.find? (fun rule => rule.name = lint.relation) = some rule ∧
    ∀ segment ∈ lint.message.segments, ∀ var, segment.var? = some var → var ∈ rule.headVars
  strata : ∃ strata, program.strata = .ok strata

section Checks

variable {program : Program} {unicode : Unicode}

theorem checkRelation_ok {app : AppAtom} (checked : checkRelation program.arities app = .ok ()) :
    program.arities app.name = some app.args.length := by
  unfold checkRelation at checked
  split at checked
  next => cases checked
  next expected known =>
    split_ifs at checked with same
    rw [known, same]

theorem checkBuiltin_ok {app : AppAtom} {expected : Nat} (checked : checkBuiltin app expected = .ok ()) :
    app.args.length = expected ∧ (app.name = "text-match" → ∃ pattern, app.args[1]? = some (Term.text pattern)) := by
  unfold checkBuiltin at checked
  split_ifs at checked with same isTextMatch
  · refine ⟨not_not.mp same, fun _ => ?_⟩
    split at checked
    next pattern literal => exact ⟨pattern, literal⟩
    next => cases checked
  · exact ⟨not_not.mp same, fun named => absurd named isTextMatch⟩

theorem checkAtom_ok {atom : BodyAtom} (checked : checkAtom program.arities atom = .ok ()) : program.AtomChecked atom := by
  cases atom with
  | matching atom => trivial
  | app app =>
    simp only [checkAtom] at checked
    simp only [Program.AtomChecked]
    cases arity : builtinArity app.name with
    | none =>
      rw [arity] at checked
      exact checkRelation_ok checked
    | some expected =>
      rw [arity] at checked
      exact checkBuiltin_ok checked
  | negation neg =>
    simp only [checkAtom] at checked
    split_ifs at checked
    exact checkRelation_ok checked

theorem Program.checkRule_ok {rule : Rule} (checked : program.checkRule unicode rule = .ok ()) :
    program.arities rule.name = some rule.headVars.length ∧ ∀ atom ∈ rule.body, program.AtomChecked atom := by
  unfold Program.checkRule at checked
  split_ifs at checked with _ same
  obtain ⟨_, atoms, -⟩ := bind_eq_ok.mp checked
  exact ⟨not_not.mp same, fun atom member => checkAtom_ok (tryForEach_eq_ok.mp atoms atom member)⟩

theorem Program.checkLint_ok {lint : Lint} (checked : program.checkLint lint = .ok ()) :
    ∃ rule, program.rules.find? (fun rule => rule.name = lint.relation) = some rule ∧
      ∀ segment ∈ lint.message.segments, ∀ var, segment.var? = some var → var ∈ rule.headVars := by
  unfold Program.checkLint at checked
  split at checked
  next => cases checked
  next rule found =>
    refine ⟨rule, found, fun segment member var isVar => ?_⟩
    split at checked
    next => cases checked
    next noneMissing =>
      have present := find?_eq_none.mp noneMissing var (mem_filterMap.mpr ⟨segment, member, isVar⟩)
      simpa using present

theorem Program.check_ok (checked : program.check unicode = .ok ()) : program.Checked := by
  obtain ⟨_, rules, checked⟩ := bind_eq_ok.mp checked
  obtain ⟨_, rewrites, checked⟩ := bind_eq_ok.mp checked
  obtain ⟨_, lints, checked⟩ := bind_eq_ok.mp checked
  obtain ⟨strata, computed, -⟩ := bind_eq_ok.mp checked
  rw [fallible_eq_ok, tryForEach_eq_ok] at rules rewrites lints
  refine ⟨fun rule member => (Program.checkRule_ok (rules rule member)).1, fun atom member => ?_,
    fun lint member => Program.checkLint_ok (lints lint member), strata, computed⟩
  rcases mem_append.mp member with inRules | inRewrites
  · obtain ⟨rule, ruleMember, inside⟩ := mem_flatMap.mp inRules
    exact (Program.checkRule_ok (rules rule ruleMember)).2 atom inside
  · obtain ⟨rewrite, rewriteMember, inside⟩ := mem_flatMap.mp inRewrites
    obtain ⟨_, atoms, -⟩ := bind_eq_ok.mp (rewrites rewrite rewriteMember)
    exact checkAtom_ok (tryForEach_eq_ok.mp atoms atom inside)

theorem Program.parse_checked {src : String} (parsed : Program.parse unicode src = some (.ok program)) :
    program.check unicode = .ok () := by
  obtain ⟨read, -, parsed⟩ := Option.bind_eq_some_iff.mp parsed
  obtain ⟨forms, -, parsed⟩ := bind_eq_ok.mp (Option.some.inj parsed)
  obtain ⟨lowered, -, parsed⟩ := bind_eq_ok.mp parsed
  obtain ⟨_, checked, returned⟩ := bind_eq_ok.mp parsed
  cases returned
  exact checked

end Checks

/-! ## Setup -/

/-- What the setup loop leaves for the atoms it has seen. -/
structure Evaluator.Prepared (evaluator : Evaluator) (atoms : List BodyAtom) : Prop where
  materialized : ∀ atom, .matching atom ∈ atoms → ∃ bindings, evaluator.matchRows atom.key = some bindings
  compiled : ∀ app, .app app ∈ atoms → app.name = "text-match" →
    ∃ pattern isMatch, app.args[1]? = some (Term.text pattern) ∧ evaluator.regexes pattern = some isMatch
  nodes : ∀ key bindings, evaluator.matchRows key = some bindings → ∀ binding ∈ bindings, ∀ entry ∈ binding,
    evaluator.corpus.HasValue entry.2

theorem bindingOf_hasValue {corpus : Corpus} {file line : Nat} {source : SourceFile} {names : List String}
    {found : List Capture} {binding : Binding} (known : corpus.files[file]? = some source)
    (bound : bindingOf file source names line found = .ok binding) : ∀ entry ∈ binding, corpus.HasValue entry.2 := by
  refine foldlM_invariant (fun _ binding => ∀ entry ∈ binding, corpus.HasValue entry.2) bound (by simp) ?_
  intro done capture before after _ valid bound
  unfold bindCapture at bound
  repeat' split at bound
  all_goals cases bound
  · exact valid
  next indexed =>
    exact forall_mem_append.mpr ⟨valid, forall_mem_singleton.mpr ⟨source, known, SourceFile.nodeIndex_lt indexed⟩⟩

theorem materialize_hasValue {engines : Engines} {corpus : Corpus} {atom : MatchAtom} {bindings : List Binding}
    (ran : materialize engines corpus atom = .ok bindings) : ∀ binding ∈ bindings, ∀ entry ∈ binding,
    corpus.HasValue entry.2 := by
  unfold materialize at ran
  split at ran
  next => cases ran
  split at ran
  next => cases ran
  obtain ⟨perFile, collected, rfl⟩ := map_eq_ok.mp ran
  intro binding member
  obtain ⟨rows, rowsMember, inside⟩ := mem_flatten.mp member
  obtain ⟨⟨file, index⟩, fileMember, ranFile⟩ := exists_image_of_mem (tryCollect_eq_ok.mp collected).flip rowsMember
  unfold materializeFile at ranFile
  split at ranFile
  next =>
    cases ranFile
    cases inside
  next =>
    obtain ⟨found, -, bound⟩ := exists_image_of_mem (tryCollect_eq_ok.mp ranFile).flip inside
    exact bindingOf_hasValue (mem_zipIdx_iff_getElem?.mp fileMember) bound

section Setup

variable {engines : Engines} {evaluator next : Evaluator} {done : List BodyAtom}

theorem Evaluator.Prepared.snoc (prepared : evaluator.Prepared done) {atom : BodyAtom}
    (materialized : ∀ m, atom = .matching m → ∃ bindings, evaluator.matchRows m.key = some bindings)
    (compiled : ∀ app, atom = .app app → app.name = "text-match" →
      ∃ pattern isMatch, app.args[1]? = some (Term.text pattern) ∧ evaluator.regexes pattern = some isMatch) :
    evaluator.Prepared (done ++ [atom]) where
  materialized m member := by
    rcases mem_append.mp member with earlier | last
    · exact prepared.materialized m earlier
    · exact materialized m (mem_singleton.mp last).symm
  compiled app member isTextMatch := by
    rcases mem_append.mp member with earlier | last
    · exact prepared.compiled app earlier isTextMatch
    · exact compiled app (mem_singleton.mp last).symm isTextMatch
  nodes := prepared.nodes

theorem Evaluator.Prepared.addRows (prepared : evaluator.Prepared done) {key : MatchKey} {rows : List Binding}
    (valid : ∀ binding ∈ rows, ∀ entry ∈ binding, evaluator.corpus.HasValue entry.2) :
    { evaluator with matchRows := update evaluator.matchRows key (some rows) : Evaluator }.Prepared done where
  materialized m member := by
    by_cases same : m.key = key
    · exact ⟨rows, by simp [same]⟩
    · simpa [same] using prepared.materialized m member
  compiled := prepared.compiled
  nodes other bindings found := by
    change update evaluator.matchRows key (some rows) other = some bindings at found
    by_cases same : other = key
    · subst same
      rw [update_self, Option.some.injEq] at found
      exact found ▸ valid
    · rw [update_of_ne same] at found
      exact prepared.nodes other bindings found

theorem Evaluator.Prepared.addRegex (prepared : evaluator.Prepared done) {pattern : String} {compiled : String → Bool} :
    { evaluator with regexes := update evaluator.regexes pattern (some compiled) : Evaluator }.Prepared done where
  materialized := prepared.materialized
  compiled app member isTextMatch := by
    obtain ⟨literal, isMatch, found, known⟩ := prepared.compiled app member isTextMatch
    by_cases same : literal = pattern
    · exact ⟨literal, compiled, found, by simp [same]⟩
    · exact ⟨literal, isMatch, found, by simp [same, known]⟩
  nodes := prepared.nodes

theorem Evaluator.prepareAtom_prepared {atom : BodyAtom} (prepared : evaluator.Prepared done)
    (stepped : evaluator.prepareAtom engines atom = .ok next) :
    next.program = evaluator.program ∧ next.corpus = evaluator.corpus ∧ next.Prepared (done ++ [atom]) := by
  cases atom with
  | negation neg =>
    cases stepped
    exact ⟨rfl, rfl, prepared.snoc nofun nofun⟩
  | matching atom =>
    simp only [prepareAtom] at stepped
    split at stepped
    next rows present =>
      cases stepped
      exact ⟨rfl, rfl, prepared.snoc (fun m same => by cases same; exact ⟨rows, present⟩) nofun⟩
    next =>
      obtain ⟨rows, ran, stepped⟩ := bind_eq_ok.mp stepped
      cases stepped
      refine ⟨rfl, rfl, (prepared.addRows (materialize_hasValue ran)).snoc (fun m same => ?_) nofun⟩
      cases same
      exact ⟨rows, by simp⟩
  | app app =>
    simp only [prepareAtom] at stepped
    split at stepped
    next =>
      split at stepped
      next pattern literal =>
        split at stepped
        next isMatch present =>
          cases stepped
          exact ⟨rfl, rfl, prepared.snoc nofun fun other same _ => by
            cases same; exact ⟨pattern, isMatch, literal, present⟩⟩
        next =>
          split at stepped
          next => cases stepped
          next isMatch compiled =>
            cases stepped
            exact ⟨rfl, rfl, prepared.addRegex.snoc nofun fun other same _ => by
              cases same; exact ⟨pattern, isMatch, literal, by simp⟩⟩
      next => cases stepped
    next other =>
      cases stepped
      exact ⟨rfl, rfl, prepared.snoc nofun fun app same isTextMatch => by cases same; exact absurd isTextMatch other⟩

/-- A finished setup has the rows of every query and every regex of the program. -/
theorem Evaluator.new_prepared {program : Program} {corpus : Corpus}
    (ready : Evaluator.new engines program corpus = .ok evaluator) :
    evaluator.program = program ∧ evaluator.corpus = corpus ∧ evaluator.Prepared program.atoms := by
  refine foldlM_invariant
    (fun done state => state.program = program ∧ state.corpus = corpus ∧ state.Prepared done) ready ?_ ?_
  · exact ⟨rfl, rfl, by simp, by simp, by simp⟩
  · rintro done atom state next - ⟨sameProgram, sameCorpus, prepared⟩ stepped
    obtain ⟨keptProgram, keptCorpus, prepared⟩ := prepareAtom_prepared prepared stepped
    exact ⟨keptProgram.trans sameProgram, keptCorpus.trans sameCorpus, prepared⟩

end Setup

/-! ## An accepted program -/

/-- Functions whose visibility modifier, if they have one, is not that of any item. -/
def visibilitySource : String :=
  "(rule (public v) (match rust \"(visibility_modifier) @v\"))
(rule (hidden f) (match rust \"(function_item (visibility_modifier)? @v) @f\") (not (public v)))
(rewrite show (hidden f) (replace f \"pub \x7bf\x7d\"))
(lint hidden error \"\x7bf\x7d is hidden\")"

def hiddenBody : List BodyAtom :=
  [.matching ⟨.rust, "(function_item (visibility_modifier)? @v) @f", 2⟩, .negation ⟨"public", [.var "v"], 2⟩]

def visibilityProgram : Program where
  rules := [
    ⟨"public", ["v"], [.matching ⟨.rust, "(visibility_modifier) @v", 1⟩], 1⟩,
    ⟨"hidden", ["f"], hiddenBody, 2⟩]
  rewrites := [⟨"show", [.app ⟨"hidden", [.var "f"], 3⟩], "f", ⟨[.lit "pub ", .var "f"], 3⟩, 3⟩]
  lints := [⟨"hidden", .error, ⟨[.var "f", .lit " is hidden"], 4⟩, 4⟩]

theorem visibility_parsed : Program.parse Unicode.ascii visibilitySource = some (.ok visibilityProgram) := by
  decide +kernel

/-- `fn f(){}` has no modifier, `pub fn g(){}` has one. -/
def visibilityCorpus : Corpus where
  files := [{
    path := "lib.rs"
    lang := .rust
    text := "fn f()\x7b\x7d pub fn g()\x7b\x7d"
    tree := .node 0 "source_file" 0 21 true [
      .node 1 "function_item" 0 8 true [],
      .node 2 "function_item" 9 21 true [.node 3 "visibility_modifier" 9 12 true []]]
    cuts := by decide +kernel }]

/-- A query engine for the two queries of the program, with the given matches of the second. -/
def visibilityEngines (functions : List (List Capture)) : Engines where
  query _ text :=
    if text = "(visibility_modifier) @v" then some ⟨["v"], fun _ => [[⟨0, 3⟩]]⟩
    else if text = "(function_item (visibility_modifier)? @v) @f" then some ⟨["v", "f"], fun _ => functions⟩
    else none
  regex _ := none

/-- The evaluator of the visibility program for the given function matches. -/
def visibilityEvaluator (functions : List (List Capture)) : Evaluator :=
  match Evaluator.new (visibilityEngines functions) visibilityProgram visibilityCorpus with
  | .ok evaluator => evaluator
  | .error _ => ⟨visibilityProgram, visibilityCorpus, fun _ => none, fun _ => none⟩

def isReady : Except Error Evaluator → Bool
  | .ok _ => true
  | .error _ => false

theorem visibilityEvaluator_ready {functions : List (List Capture)}
    (ready : isReady (Evaluator.new (visibilityEngines functions) visibilityProgram visibilityCorpus) = true) :
    Evaluator.new (visibilityEngines functions) visibilityProgram visibilityCorpus =
      .ok (visibilityEvaluator functions) := by
  unfold visibilityEvaluator
  split
  next evaluator built => exact built
  next error failed => simp [failed, isReady] at ready

end Index.Astlog
