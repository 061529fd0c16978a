import Index.Astlog.Rewrite
import Index.Astlog.Safety
import Index.Astlog.Scan

/-! # Rewrites and findings do not go wrong

Edits and findings are read off a finished database, whose rows point into the corpus and have the
columns their lint messages name. -/

namespace Index.Astlog

open Index.Lib Index.EditApplier List

variable {evaluator : Evaluator} {corpus : Corpus} {db : Database}

/-! ## Rewrites -/

variable {env : Env}

theorem segmentText_ensures (valid : corpus.HasEnv env) (line : Nat) (segment : Segment) :
    Ensures Tolerated (fun _ => True) (corpus.segmentText env line segment) := by
  cases segment with
  | lit text => trivial
  | var var =>
    cases bound : env[var]? with
    | none =>
      simp only [Corpus.segmentText, bound]
      trivial
    | some value =>
      obtain ⟨text, found⟩ := (valid var value bound).valueText
      simp only [Corpus.segmentText, bound, found]
      trivial

theorem editOf_ensures (valid : corpus.HasEnv env) (rewrite : Rewrite) :
    Ensures Tolerated (fun edit => edit.file < corpus.files.length) (editOf corpus rewrite env) := by
  cases target : env[rewrite.target]? with
  | none =>
    simp only [editOf, target]
    trivial
  | some value =>
    cases value with
    | text text =>
      simp only [editOf, target]
      trivial
    | node ref =>
      simp only [editOf, target]
      have present : corpus.HasNode ref := valid _ _ target
      obtain ⟨info, found⟩ := present.nodeInfo
      refine (ensures_tryCollect fun segment _ => segmentText_ensures valid rewrite.template.line segment).bind
        fun parts _ => ?_
      rw [found]
      obtain ⟨file, known, -⟩ := present
      exact (List.getElem?_eq_some_iff.mp known).1

theorem rewriteEdits_ensures (sound : evaluator.Sound) (ok : evaluator.DatabaseOk db) {rewrite : Rewrite}
    (member : rewrite ∈ evaluator.program.rewrites) :
    Ensures Tolerated (fun edits => ∀ edit ∈ edits, edit.file < evaluator.corpus.files.length)
      (evaluator.rewriteEdits db rewrite) := by
  have atoms : ∀ atom ∈ rewrite.body, atom ∈ evaluator.program.atoms := fun atom inside =>
    mem_append_right _ (mem_flatMap.mpr ⟨rewrite, member, inside⟩)
  refine (Evaluator.solve_ensures sound ok atoms (by simp [Corpus.HasEnv])).bind fun envs solved => ?_
  exact ensures_tryCollect fun env inside => editOf_ensures (solved env inside) rewrite

theorem collect_ensures (sound : evaluator.Sound) (ok : evaluator.DatabaseOk db) :
    Ensures Tolerated (fun _ => True) (evaluator.collect db) := by
  refine (ensures_tryCollect fun rewrite member => rewriteEdits_ensures sound ok member).bind fun found inRange => ?_
  have known : ∀ edit ∈ dedupAdjacent (found.flatten.insertionSort (· ≤ ·)),
      edit.file < (evaluator.corpus.files.map SourceFile.path).length := by
    intro edit member
    rw [mem_dedupAdjacent, mem_insertionSort] at member
    obtain ⟨edits, editsMember, inside⟩ := mem_flatten.mp member
    rw [length_map]
    exact inRange edits editsMember edit inside
  have overlaps : Ensures Tolerated (fun _ => True)
      ((checkOverlaps (evaluator.corpus.files.map SourceFile.path)
        (dedupAdjacent (found.flatten.insertionSort (· ≤ ·)))).mapError overlapFault) := by
    cases checked : checkOverlaps (evaluator.corpus.files.map SourceFile.path)
        (dedupAdjacent (found.flatten.insertionSort (· ≤ ·))) with
    | ok => trivial
    | error fault =>
      obtain ⟨error, rfl⟩ := checkOverlaps_raises known checked
      trivial
  exact overlaps.bind fun _ _ => trivial

/-! ## Findings -/

variable {unicode : Unicode}

theorem suppressNode_isSome {file : Nat} {source : SourceFile} (known : corpus.files[file]? = some source) {info : NodeInfo}
    (member : info ∈ source.nodes) (lines : FileSuppressions) :
    ∃ next, suppressNode unicode corpus file source.text lines info = some next := by
  obtain ⟨comment, cut⟩ := source.slice_node member
  obtain ⟨first, firstFound⟩ := Corpus.position_isSome known info.start
  obtain ⟨last, lastFound⟩ := Corpus.position_isSome known (info.stop - 1)
  unfold suppressNode
  split
  next => exact ⟨lines, rfl⟩
  next =>
    rw [cut, Option.bind_eq_bind, Option.bind_some]
    split
    next => exact ⟨lines, rfl⟩
    next => exact ⟨_, by simp [firstFound, lastFound]; rfl⟩

theorem suppressFile_isSome {entry : SourceFile × Nat} (member : entry ∈ corpus.files.zipIdx) :
    ∃ lines, suppressFile unicode corpus entry = some lines := by
  have known := mem_zipIdx_iff_getElem?.mp member
  exact exists_foldlM (fun info inside lines => suppressNode_isSome known inside lines) ∅

theorem collectSuppressions_isSome (unicode : Unicode) (corpus : Corpus) :
    ∃ suppressions, collectSuppressions unicode corpus = some suppressions ∧
      suppressions.length = corpus.files.length := by
  have each : ∀ entry ∈ corpus.files.zipIdx, ∃ lines, suppressFile unicode corpus entry = some lines ∧ True :=
    fun entry member => by simpa using suppressFile_isSome member
  obtain ⟨suppressions, collected, pointwise⟩ := exists_mapM each
  exact ⟨suppressions, collected, by simpa using pointwise.length_eq.symm⟩

variable {lint : Lint} {columns : List String} {row : Row}

theorem messageSegment_ensures (length : columns.length = row.length) (values : ∀ value ∈ row, corpus.HasValue value)
    {segment : Segment} (named : ∀ var, segment.var? = some var → var ∈ columns) :
    Ensures Tolerated (fun _ => True) (messageSegment lint columns row corpus segment) := by
  cases segment with
  | lit text => trivial
  | var var =>
    have column := named var rfl
    have inside : columns.idxOf var < row.length := length ▸ idxOf_lt_length_of_mem column
    obtain ⟨text, found⟩ := (values _ (getElem_mem inside)).valueText
    simp only [messageSegment, if_pos column, getElem?_eq_getElem inside]
    simp only [orPanic, bind, Except.bind, found]
    trivial

theorem candidateOf_ensures (length : columns.length = row.length) (values : ∀ value ∈ row, corpus.HasValue value)
    (named : ∀ segment ∈ lint.message.segments, ∀ var, segment.var? = some var → var ∈ columns) :
    Ensures Tolerated (fun candidate => candidate.file < corpus.files.length) (candidateOf corpus lint columns row) := by
  unfold candidateOf
  split
  next => trivial
  next ref located =>
    obtain ⟨value, member, isNode⟩ := exists_of_findSome?_eq_some located
    obtain rfl : value = .node ref := by
      cases value with
      | node other => exact congrArg Value.node (Option.some.inj isNode)
      | text text => cases isNode
    have present : corpus.HasNode ref := values _ member
    obtain ⟨info, infoFound⟩ := present.nodeInfo
    obtain ⟨text, textFound⟩ := present.nodeText
    obtain ⟨file, known, -⟩ := present
    obtain ⟨start, startFound⟩ := Corpus.position_isSome known info.start
    obtain ⟨stop, stopFound⟩ := Corpus.position_isSome known info.stop
    have message : Ensures Tolerated (fun _ => True) (renderMessage lint columns row corpus) :=
      (ensures_tryCollect fun segment inside => messageSegment_ensures length values (named segment inside)).bind
        fun _ _ => trivial
    refine ensures_orPanic_bind infoFound (ensures_orPanic_bind startFound (ensures_orPanic_bind stopFound ?_))
    refine message.bind fun _ _ => ensures_orPanic_bind known (ensures_orPanic_bind textFound ?_)
    exact (List.getElem?_eq_some_iff.mp known).1

theorem lintCandidates_ensures (sound : evaluator.Sound) (ok : evaluator.DatabaseOk db)
    (member : lint ∈ evaluator.program.lints) :
    Ensures Tolerated (fun candidates => ∀ candidate ∈ candidates, candidate.file < evaluator.corpus.files.length)
      (lintCandidates evaluator.corpus db lint) := by
  obtain ⟨rule, found, named⟩ := sound.checked.lints lint member
  have arity : evaluator.program.arities lint.relation = some rule.headVars.length := by
    rw [Program.arities, found]
    rfl
  obtain ⟨relation, known⟩ := ok.defined lint.relation _ arity
  have columns := ok.columns lint.relation relation known
  rw [found, Option.map_some, Option.some.injEq] at columns
  rw [lintCandidates, known]
  refine ensures_tryCollect fun row inside => ?_
  obtain ⟨length, values⟩ := ok.rows lint.relation relation known row inside
  rw [arity, Option.some.injEq, columns] at length
  exact candidateOf_ensures length values (columns ▸ named)

theorem findings_ensures (sound : evaluator.Sound) (ok : evaluator.DatabaseOk db) (unicode : Unicode) :
    Ensures Tolerated (fun _ => True) (findings unicode evaluator.program evaluator.corpus db) := by
  obtain ⟨suppressions, collected, size⟩ := collectSuppressions_isSome unicode evaluator.corpus
  refine ensures_orPanic_bind collected ?_
  refine Ensures.bind (ensures_tryCollect fun lint member => lintCandidates_ensures sound ok member)
    fun candidates inRange => ?_
  have each : ∀ candidate ∈ candidates.flatten, Ensures Tolerated (fun _ => True) (unsuppressed suppressions candidate) := by
    intro candidate member
    obtain ⟨perLint, perLintMember, inside⟩ := mem_flatten.mp member
    have bounded := inRange perLint perLintMember candidate inside
    refine ensures_orPanic_bind (getElem?_eq_getElem (size ▸ bounded)) ?_
    split <;> trivial
  exact (ensures_tryCollect each).bind fun _ _ => trivial

/-! ## Checked programs do not go wrong -/

/-- Of a program that parses and an evaluator that is set up, neither evaluation nor what is collected
from its result panics or raises an internal error: every failure is a documented user error. -/
theorem checked_program_never_wrong (unicode : Unicode) (src : String) (program : Program) (engines : Engines)
    (corpus : Corpus) (evaluator : Evaluator) (parsed : Program.parse unicode src = some (.ok program))
    (ready : Evaluator.new engines program corpus = .ok evaluator) (fuel : Nat) :
    (∀ fault, evaluator.fixpoint fuel = some (.error fault) → ∃ error, fault = .raised error ∧ error.IsUserError) ∧
    ∀ db, evaluator.fixpoint fuel = some (.ok db) →
      (∀ fault, evaluator.collect db = .error fault → ∃ error, fault = .raised error ∧ error.IsUserError) ∧
      ∀ fault, findings unicode program corpus db = .error fault → ∃ error, fault = .raised error ∧ error.IsUserError := by
  have sound := Evaluator.Sound.of_parse parsed ready
  obtain ⟨rfl, rfl, -⟩ := Evaluator.new_prepared ready
  have user : ∀ {fault}, Tolerated fault → ∃ error, fault = .raised error ∧ error.IsUserError := by
    intro fault tolerated
    cases fault with
    | raised error => exact ⟨error, rfl, tolerated⟩
    | panicked => exact tolerated.elim
  refine ⟨fun fault failed => user (Evaluator.fixpoint_ensures sound failed), fun db finished => ⟨?_, ?_⟩⟩
  · exact fun fault failed => user ((collect_ensures sound (Evaluator.fixpoint_ensures sound finished)).of_error failed)
  · exact fun fault failed =>
      user ((findings_ensures sound (Evaluator.fixpoint_ensures sound finished) unicode).of_error failed)

/-- A program with negation, a rewrite and a lint, on a corpus of two functions. -/
theorem visibility_never_wrong :
    (∀ fault, (visibilityEvaluator [[⟨1, 1⟩], [⟨1, 2⟩, ⟨0, 3⟩]]).fixpoint 2 = some (.error fault) →
      ∃ error, fault = .raised error ∧ error.IsUserError) ∧
    ∀ db, (visibilityEvaluator [[⟨1, 1⟩], [⟨1, 2⟩, ⟨0, 3⟩]]).fixpoint 2 = some (.ok db) →
      (∀ fault, (visibilityEvaluator [[⟨1, 1⟩], [⟨1, 2⟩, ⟨0, 3⟩]]).collect db = .error fault →
        ∃ error, fault = .raised error ∧ error.IsUserError) ∧
      ∀ fault, findings Unicode.ascii visibilityProgram visibilityCorpus db = .error fault →
        ∃ error, fault = .raised error ∧ error.IsUserError :=
  checked_program_never_wrong Unicode.ascii visibilitySource visibilityProgram
    (visibilityEngines [[⟨1, 1⟩], [⟨1, 2⟩, ⟨0, 3⟩]]) visibilityCorpus _ visibility_parsed
    (visibilityEvaluator_ready (by decide +kernel)) 2

end Index.Astlog
