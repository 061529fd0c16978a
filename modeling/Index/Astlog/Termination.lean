import Mathlib
import Index.Astlog.PerfectModel
import Index.Astlog.Regrouping
import Index.Astlog.Safety

/-! # Evaluation ends

All values of a run come from a finite universe: the nodes of the corpus, their texts and kinds, what the queries found, the
texts of the program, and the regrouped forms of these.  A regrouped text is not regrouped again, so the universe is closed under
the builtins, only finitely many rows can be derived, and every loop comes to an iteration that inserts nothing. -/

namespace Index.Astlog

open Index.Lib List

/-- The rows of a database, with their relations. -/
def Database.entries (db : Database) : Set (String × Row) := {entry | entry.2 ∈ db.rowsOf entry.1}

/-! ## The universe -/

def Corpus.refs (corpus : Corpus) : List NodeRef :=
  corpus.files.zipIdx.flatMap fun entry => (List.range entry.1.nodes.length).map fun node => ⟨entry.2, node⟩

variable {corpus : Corpus} {ref : NodeRef}

theorem Corpus.mem_refs : ref ∈ corpus.refs ↔ corpus.HasNode ref := by
  simp only [Corpus.refs, mem_flatMap, mem_map, mem_range, Corpus.HasNode]
  constructor
  · rintro ⟨⟨file, index⟩, member, node, inside, rfl⟩
    exact ⟨file, mem_zipIdx_iff_getElem?.mp member, inside⟩
  · rintro ⟨file, found, inside⟩
    exact ⟨(file, ref.file), mem_zipIdx_iff_getElem?.mpr found, ref.node, inside, rfl⟩

theorem Corpus.hasNode_of_nodeInfo {info : NodeInfo} (found : corpus.nodeInfo ref = some info) : corpus.HasNode ref := by
  obtain ⟨file, known, inside⟩ := Option.bind_eq_some_iff.mp found
  exact ⟨file, known, (List.getElem?_eq_some_iff.mp inside).1⟩

theorem Corpus.hasNode_of_nodeText {text : String} (found : corpus.nodeText ref = some text) : corpus.HasNode ref := by
  obtain ⟨file, known, rest⟩ := Option.bind_eq_some_iff.mp found
  obtain ⟨info, inside, -⟩ := Option.bind_eq_some_iff.mp rest
  exact ⟨file, known, (List.getElem?_eq_some_iff.mp inside).1⟩

theorem Corpus.hasNode_of_ancestors {file steps : Nat} {current : Option Nat} {refs : List NodeRef}
    (walked : corpus.ancestors file steps current = some refs) : ∀ ref ∈ refs, corpus.HasNode ref := by
  fun_induction Corpus.ancestors corpus file steps current generalizing refs with
  | case1 =>
    cases walked
    exact nofun
  | case2 => cases walked
  | case3 steps node ih =>
    obtain ⟨info, found, rest⟩ := Option.bind_eq_some_iff.mp walked
    obtain ⟨outer, above, same⟩ := Option.bind_eq_some_iff.mp rest
    cases same
    exact forall_mem_cons.mpr ⟨Corpus.hasNode_of_nodeInfo found, ih info above⟩

def Term.value? : Term → Option Value
  | .text literal => some (.text literal)
  | .var _ => none

namespace Evaluator

section Universe

variable (evaluator : Evaluator)

/-- The values an atom brings with it. -/
def atomValues : BodyAtom → List Value
  | .matching atom => ((evaluator.matchRows atom.key).getD []).flatMap fun binding => binding.map Prod.snd
  | .app atom | .negation atom => atom.args.filterMap Term.value?

def baseValues : List Value :=
  evaluator.corpus.refs.map .node ++ (evaluator.corpus.refs.filterMap evaluator.corpus.nodeText).map .text ++
    (evaluator.corpus.refs.filterMap evaluator.corpus.nodeInfo).map (fun info => .text info.kind) ++
    evaluator.program.rules.flatMap fun rule => rule.body.flatMap evaluator.atomValues

/-- The regrouped form of a value. -/
def regrouped (value : Value) : Option Value := do
  let text ← evaluator.corpus.valueText value
  let fixed ← regroupDigits text.toList
  return .text (String.ofList fixed)

theorem regrouped_eq_some {evaluator : Evaluator} {value next : Value} : evaluator.regrouped value = some next ↔
    ∃ text fixed, evaluator.corpus.valueText value = some text ∧ regroupDigits text.toList = some fixed ∧
      .text (String.ofList fixed) = next := by
  simp [regrouped, Option.bind_eq_some_iff]

def allValues : List Value := evaluator.baseValues ++ evaluator.baseValues.filterMap evaluator.regrouped

end Universe

variable {evaluator : Evaluator}

theorem mem_allValues {value : Value} (member : value ∈ evaluator.baseValues) : value ∈ evaluator.allValues :=
  mem_append_left _ member

variable {ref : NodeRef}

theorem node_mem (present : evaluator.corpus.HasNode ref) : .node ref ∈ evaluator.allValues := by
  refine mem_allValues ?_
  simp only [baseValues, mem_append]
  exact .inl (.inl (.inl (mem_map_of_mem (Corpus.mem_refs.mpr present))))

theorem nodeText_mem {text : String} (found : evaluator.corpus.nodeText ref = some text) : .text text ∈ evaluator.allValues := by
  refine mem_allValues ?_
  simp only [baseValues, mem_append]
  refine .inl (.inl (.inr (mem_map_of_mem (mem_filterMap.mpr ⟨ref, ?_, found⟩))))
  exact Corpus.mem_refs.mpr (Corpus.hasNode_of_nodeText found)

theorem kind_mem {info : NodeInfo} (found : evaluator.corpus.nodeInfo ref = some info) :
    .text info.kind ∈ evaluator.allValues := by
  refine mem_allValues ?_
  simp only [baseValues, mem_append, mem_map, mem_filterMap]
  exact .inl (.inr ⟨info, ⟨ref, Corpus.mem_refs.mpr (Corpus.hasNode_of_nodeInfo found), found⟩, rfl⟩)

variable {rule : Rule}

theorem atomValues_mem (member : rule ∈ evaluator.program.rules) {atom : BodyAtom} (inside : atom ∈ rule.body) {value : Value}
    (brought : value ∈ evaluator.atomValues atom) : value ∈ evaluator.allValues := by
  refine mem_allValues ?_
  simp only [baseValues, mem_append]
  exact .inr (mem_flatMap.mpr ⟨rule, member, mem_flatMap.mpr ⟨atom, inside, brought⟩⟩)

/-- Regrouping does not leave the universe, since it changes nothing twice. -/
theorem regrouped_mem {value next : Value} (member : value ∈ evaluator.allValues) (regroups : evaluator.regrouped value = some next) :
    next ∈ evaluator.allValues := by
  rcases mem_append.mp member with base | again
  · exact mem_append_right _ (mem_filterMap.mpr ⟨value, base, regroups⟩)
  · obtain ⟨source, -, regroupedOnce⟩ := mem_filterMap.mp again
    obtain ⟨text, fixed, -, once, rfl⟩ := regrouped_eq_some.mp regroupedOnce
    obtain ⟨sameText, again, read, twice, -⟩ := regrouped_eq_some.mp regroups
    cases read
    rw [String.toList_ofList, regroupDigits_regrouped once] at twice
    cases twice

/-! ## Environments over the universe -/

def EnvIn (evaluator : Evaluator) (env : Env) : Prop := ∀ (var : String) value, env[var]? = some value → value ∈ evaluator.allValues

theorem EnvIn.unified {env next : Env} {pairs : List (String × Value)} (known : evaluator.EnvIn env) (unified : Unified env next pairs)
    (added : ∀ pair ∈ pairs, pair.2 ∈ evaluator.allValues) : evaluator.EnvIn next := by
  intro var value bound
  rcases unified.only var value bound with earlier | new
  · exact known var value earlier
  · exact added _ new

section Builtins

variable {app : AppAtom} {env next : Env} {nexts : List Env} {arg : Nat} {value : Value}

/-- Where a run returns, its environments hold values of the universe. -/
def AllIn (evaluator : Evaluator) (run : Except (Fault Error) (List Env)) : Prop :=
  ∀ nexts, run = .ok nexts → ∀ next ∈ nexts, evaluator.EnvIn next

theorem allIn_bind {α : Type} {run : Except (Fault Error) α} {next : α → Except (Fault Error) (List Env)}
    (continues : ∀ value, run = .ok value → evaluator.AllIn (next value)) : evaluator.AllIn (run >>= next) := by
  intro nexts ran
  obtain ⟨value, returned, ran⟩ := bind_eq_ok.mp ran
  exact continues value returned nexts ran

theorem allIn_nil : evaluator.AllIn (.ok []) := by
  rintro _ ⟨⟩
  exact nofun

theorem EnvIn.unifyArg (known : evaluator.EnvIn env) (member : value ∈ evaluator.allValues) :
    evaluator.AllIn (Astlog.unifyArg app env arg value) := by
  refine allIn_bind fun term _ => ?_
  rintro _ ⟨⟩ next inside
  refine known.unified (unifyTerm_unified (Option.mem_toList.mp inside)) fun pair added => ?_
  obtain ⟨var, -, rfl⟩ := mem_map.mp added
  exact member

theorem EnvIn.keepIf (known : evaluator.EnvIn env) (holds : Bool) : evaluator.AllIn (.ok (Astlog.keepIf holds env)) := by
  cases holds with
  | false => exact allIn_nil
  | true =>
    rintro _ ⟨⟩ next inside
    exact mem_singleton.mp inside ▸ known

theorem EnvIn.boundValue (known : evaluator.EnvIn env)
    (texts : ∀ value ∈ app.args.filterMap Term.value?, value ∈ evaluator.allValues)
    (bound : Astlog.boundValue app env arg = .ok value) : value ∈ evaluator.allValues := by
  obtain ⟨term, found, bound⟩ := bind_eq_ok.mp bound
  rw [orPanic_eq_ok] at found
  cases term with
  | text text =>
    cases bound
    exact texts _ (mem_filterMap.mpr ⟨_, mem_of_getElem? found, rfl⟩)
  | var var =>
    dsimp only at bound
    split at bound
    next value here =>
      cases bound
      exact known var value here
    next => cases bound

/-- The environments of a builtin hold values of the universe. -/
theorem EnvIn.builtin (known : evaluator.EnvIn env) (texts : ∀ value ∈ app.args.filterMap Term.value?, value ∈ evaluator.allValues) :
    evaluator.AllIn (evaluator.builtin app env) := by
  unfold Evaluator.builtin
  split
  next => -- parent
    refine allIn_bind fun child _ => allIn_bind fun info found => ?_
    split
    next => exact allIn_nil
    next node isParent => exact known.unifyArg (node_mem (Corpus.HasNode.parent (orPanic_eq_ok.mp found) isParent).1)
  next => -- ancestor
    refine allIn_bind fun descendant _ => allIn_bind fun info _ => allIn_bind fun refs walked => allIn_bind fun perRef collected => ?_
    rintro _ ⟨⟩ next inside
    obtain ⟨envs, envsMember, inside⟩ := mem_flatten.mp inside
    obtain ⟨ref, member, unified⟩ := exists_image_of_mem (tryCollect_eq_ok.mp collected).flip envsMember
    exact known.unifyArg (node_mem (Corpus.hasNode_of_ancestors (orPanic_eq_ok.mp walked) ref member)) _ unified next inside
  next => -- text
    exact allIn_bind fun node _ => allIn_bind fun text found => known.unifyArg (nodeText_mem (orPanic_eq_ok.mp found))
  next => -- kind
    exact allIn_bind fun node _ => allIn_bind fun info found => known.unifyArg (kind_mem (orPanic_eq_ok.mp found))
  next => -- same-text
    exact allIn_bind fun _ _ => allIn_bind fun _ _ => allIn_bind fun _ _ => allIn_bind fun _ _ => known.keepIf _
  next => -- same-file
    exact allIn_bind fun _ _ => allIn_bind fun _ _ => known.keepIf _
  next => -- text-match
    refine allIn_bind fun value _ => allIn_bind fun term _ => ?_
    split
    next => exact nofun
    next =>
      split
      next => exact nofun
      next => exact allIn_bind fun text _ => known.keepIf _
  next => -- misgrouped-digits
    refine allIn_bind fun value bound => allIn_bind fun text read => ?_
    split
    next => exact allIn_nil
    next fixed regroups =>
      refine known.unifyArg (regrouped_mem (known.boundValue texts bound) ?_)
      exact regrouped_eq_some.mpr ⟨text, fixed, orPanic_eq_ok.mp read, regroups, rfl⟩
  next => -- no-descendant
    exact allIn_bind fun args _ => allIn_bind fun found _ => known.keepIf _
  next => -- attached-sibling
    exact allIn_bind fun args _ => allIn_bind fun found _ => known.keepIf _
  next => exact nofun

end Builtins

/-! ## Rows over the universe -/

/-- The rows that the rules can derive at all. -/
def derivable (evaluator : Evaluator) : Set (String × Row) :=
  {entry | ∃ rule ∈ evaluator.program.rules, rule.name = entry.1 ∧ entry.2.length = rule.headVars.length ∧
    ∀ value ∈ entry.2, value ∈ evaluator.allValues}

theorem finite_rows (values : List Value) (length : Nat) : {row : Row | row.length = length ∧ ∀ value ∈ row, value ∈ values}.Finite := by
  induction length with
  | zero =>
    refine (Set.finite_singleton []).subset ?_
    rintro row ⟨empty, -⟩
    exact length_eq_zero_iff.mp empty
  | succ length ih =>
    refine (Set.Finite.image2 List.cons (finite_toSet values) ih).subset ?_
    rintro row ⟨size, inside⟩
    cases row with
    | nil => cases size
    | cons value row =>
      obtain ⟨here, later⟩ := forall_mem_cons.mp inside
      exact ⟨value, here, row, ⟨Nat.succ.inj size, later⟩, rfl⟩

theorem finite_derivable (evaluator : Evaluator) : evaluator.derivable.Finite := by
  refine (Set.Finite.biUnion (finite_toSet evaluator.program.rules) fun rule _ =>
    (finite_rows evaluator.allValues rule.headVars.length).image (Prod.mk rule.name)).subset ?_
  rintro ⟨name, row⟩ ⟨rule, member, rfl, size, inside⟩
  exact Set.mem_biUnion (x := rule) member ⟨row, ⟨size, inside⟩, rfl⟩

variable {db next : Database} {stratum : List Nat}

theorem EnvIn.satisfies (member : rule ∈ evaluator.program.rules) {body : List BodyAtom}
    (part : ∀ atom ∈ body, atom ∈ rule.body) {model : String → Set Row}
    (rows : ∀ name, ∀ row ∈ model name, ∀ value ∈ row, value ∈ evaluator.allValues) {env final : Env}
    (known : evaluator.EnvIn env) (satisfied : evaluator.Satisfies model body env final) : evaluator.EnvIn final := by
  induction body generalizing env with
  | nil => exact satisfied ▸ known
  | cons atom body ih =>
    obtain ⟨here, later⟩ := forall_mem_cons.mp part
    obtain ⟨next, holds, satisfied⟩ := satisfied
    refine ih later ?_ satisfied
    have brought := fun value => @atomValues_mem evaluator rule member atom here value
    cases atom with
    | matching atom =>
      obtain ⟨bindings, found, binding, bindingMember, unified⟩ := holds
      refine known.unified (unifyBinding_unified unified) fun pair inside => brought pair.2 ?_
      simp only [atomValues, found, Option.getD_some]
      exact mem_flatMap.mpr ⟨binding, bindingMember, mem_map_of_mem inside⟩
    | app app =>
      by_cases isBuiltin : (builtinArity app.name).isSome
      · simp only [Holds, if_pos isBuiltin] at holds
        obtain ⟨nexts, ran, inside⟩ := holds
        exact known.builtin brought nexts ran next inside
      · simp only [Holds, if_neg isBuiltin] at holds
        obtain ⟨row, rowMember, unified⟩ := holds
        exact known.unified (unifyRow_unified unified) fun pair inside => rows app.name row rowMember pair.2 (termPairs_values inside)
    | negation neg =>
      obtain ⟨rfl, -⟩ := holds
      exact known

/-- An iteration derives derivable rows only. -/
theorem iterate_derivable (inside : db.entries ⊆ evaluator.derivable) {grew : Bool}
    (iterated : evaluator.iterate stratum db = .ok (next, grew)) : next.entries ⊆ evaluator.derivable := by
  rintro ⟨name, row⟩ member
  rcases (iterate_step iterated).1.2 name row member with earlier | ⟨_, ⟨index, -, rule, found, rfl⟩, rfl, env, satisfied, heading⟩
  · exact inside earlier
  · have ruleMember := mem_of_getElem? found
    have pointwise := tryCollect_eq_ok.mp heading
    have known : evaluator.EnvIn env := by
      refine EnvIn.satisfies ruleMember (fun _ => id) (fun name row rowMember => ?_) (fun var value bound => ?_) satisfied
      · obtain ⟨-, -, -, -, values⟩ := inside (show (name, row) ∈ db.entries from rowMember)
        exact values
      · simp at bound
    refine ⟨rule, ruleMember, rfl, pointwise.length_eq.symm, fun value valueMember => ?_⟩
    obtain ⟨var, -, bound⟩ := exists_image_of_mem pointwise.flip valueMember
    split at bound
    next found =>
      cases bound
      exact known var value found
    next => cases bound

/-- An iteration that reports growth has inserted a row. -/
theorem iterate_grows (iterated : evaluator.iterate stratum db = .ok (next, true)) : db.entries ⊂ next.entries := by
  obtain ⟨staged, -, inserted⟩ := bind_eq_ok.mp iterated
  obtain ⟨grows, fresh⟩ := foldlM_invariant
    (fun _ (state : Database × Bool) => db.entries ⊆ state.1.entries ∧ (state.2 = true → ∃ entry ∈ state.1.entries, entry ∉ db.entries))
    inserted ⟨subset_rfl, nofun⟩ (by
      rintro done entry state next - ⟨grows, fresh⟩ inserted
      obtain ⟨added, quiet⟩ := insertStaged_eq inserted
      have larger : state.1.entries ⊆ next.1.entries := by
        rintro ⟨name, row⟩ member
        simp only [Database.entries, Set.mem_ofPred_eq, added]
        exact .inl member
      refine ⟨grows.trans larger, fun grew => ?_⟩
      cases before : state.2 with
      | true =>
        obtain ⟨other, member, new⟩ := fresh before
        exact ⟨other, larger member, new⟩
      | false =>
        refine ⟨entry, ?_, fun old => ?_⟩
        · simp [Database.entries, added]
        · rw [quiet.mpr ⟨before, grows old⟩] at grew
          cases grew)
  refine ⟨grows, fun same => ?_⟩
  obtain ⟨entry, member, new⟩ := fresh rfl
  exact new (same member)

/-! ## The loops -/

variable {fuel : Nat} {outcome : Except (Fault Error) Database}

/-- More fuel does not change a result. -/
theorem saturate_add (ended : evaluator.saturate stratum fuel db = some outcome) (more : Nat) :
    evaluator.saturate stratum (fuel + more) db = some outcome := by
  induction fuel generalizing db with
  | zero => cases ended
  | succ fuel ih =>
    rw [Nat.succ_add]
    rw [saturate] at ended ⊢
    cases iterated : evaluator.iterate stratum db with
    | error fault => rwa [iterated] at ended
    | ok result =>
      rw [iterated] at ended
      obtain ⟨next, grew⟩ := result
      cases grew with
      | false => exact ended
      | true => exact ih ended

/-- The loop over a stratum comes to an iteration that inserts nothing, or to an error. -/
theorem saturate_terminates (stratum : List Nat) (inside : db.entries ⊆ evaluator.derivable) :
    ∃ fuel outcome, evaluator.saturate stratum fuel db = some outcome ∧ ∀ final, outcome = .ok final → final.entries ⊆ evaluator.derivable := by
  -- Every iteration but the last leaves fewer derivable rows that are missing.
  induction missing : (evaluator.derivable \ db.entries).ncard using Nat.strong_induction_on generalizing db with
  | _ count ih =>
    cases iterated : evaluator.iterate stratum db with
    | error fault => exact ⟨1, .error fault, by simp [saturate, iterated], nofun⟩
    | ok result =>
      obtain ⟨next, grew⟩ := result
      have kept := iterate_derivable inside iterated
      cases grew with
      | false =>
        refine ⟨1, .ok next, by simp [saturate, iterated], fun final same => ?_⟩
        cases same
        exact kept
      | true =>
        obtain ⟨grows, strictly⟩ := iterate_grows iterated
        have fewer : (evaluator.derivable \ next.entries).ncard < count := by
          rw [← missing]
          refine Set.ncard_lt_ncard ⟨Set.sdiff_subset_sdiff_right grows, fun all => strictly fun entry member => ?_⟩ (evaluator.finite_derivable.sdiff)
          by_contra new
          exact (all ⟨kept member, new⟩).2 member
        obtain ⟨fuel, outcome, ended, final⟩ := ih _ fewer kept rfl
        exact ⟨fuel + 1, outcome, by simp [saturate, iterated, ended], final⟩

theorem saturateAll_add {strata : List (List Nat)} (ended : evaluator.saturateAll fuel strata db = some outcome) (more : Nat) :
    evaluator.saturateAll (fuel + more) strata db = some outcome := by
  induction strata generalizing db with
  | nil => exact ended
  | cons stratum strata ih =>
    rw [saturateAll] at ended ⊢
    cases saturated : evaluator.saturate stratum fuel db with
    | none => simp [saturated] at ended
    | some first =>
      rw [saturate_add saturated more]
      rw [saturated] at ended
      cases first with
      | error fault => exact ended
      | ok next => exact ih ended

theorem saturateAll_terminates (strata : List (List Nat)) (inside : db.entries ⊆ evaluator.derivable) :
    ∃ fuel outcome, evaluator.saturateAll fuel strata db = some outcome := by
  induction strata generalizing db with
  | nil => exact ⟨0, .ok db, rfl⟩
  | cons stratum strata ih =>
    obtain ⟨fuel, outcome, ended, kept⟩ := saturate_terminates stratum inside
    cases outcome with
    | error fault => exact ⟨fuel, .error fault, by rw [saturateAll, ended]⟩
    | ok next =>
      obtain ⟨later, outcome, rest⟩ := ih (kept next rfl)
      refine ⟨fuel + later, outcome, ?_⟩
      rw [saturateAll, saturate_add ended later, Nat.add_comm]
      exact saturateAll_add rest fuel

/-- The databases that iterations lead to, whatever rules each of them takes. -/
inductive Reached (evaluator : Evaluator) : Database → Prop
  | start : Reached evaluator evaluator.program.emptyDatabase
  | iterate {db next : Database} {stratum : List Nat} {grew : Bool} (before : Reached evaluator db)
      (iterated : evaluator.iterate stratum db = .ok (next, grew)) : Reached evaluator next

theorem Reached.derivable (reached : evaluator.Reached db) : db.entries ⊆ evaluator.derivable := by
  induction reached with
  | start =>
    rintro ⟨name, row⟩ member
    simp [Database.entries, rowsOf_emptyDatabase] at member
  | iterate _ iterated ih => exact iterate_derivable ih iterated

/-- Evaluation ends for every program and corpus: only finitely many rows can be derived, the loop over a stratum ends from every
database that can be reached, and with enough iterations the result is always the same. -/
theorem fixpoint_terminates (evaluator : Evaluator) :
    (∃ rows : Set (String × Row), rows.Finite ∧ ∀ db, evaluator.Reached db → db.entries ⊆ rows) ∧
    (∀ db stratum, evaluator.Reached db → ∃ fuel outcome, evaluator.saturate stratum fuel db = some outcome) ∧
    ∃ fuel outcome, ∀ more, evaluator.fixpoint (fuel + more) = some outcome := by
  refine ⟨⟨evaluator.derivable, evaluator.finite_derivable, fun db reached => reached.derivable⟩, fun db stratum reached => ?_, ?_⟩
  · obtain ⟨fuel, outcome, ended, -⟩ := saturate_terminates stratum reached.derivable
    exact ⟨fuel, outcome, ended⟩
  · unfold fixpoint
    cases computed : evaluator.program.strata with
    | error fault => exact ⟨0, .error fault, fun _ => rfl⟩
    | ok strata =>
      obtain ⟨fuel, outcome, ended⟩ := saturateAll_terminates strata (@Reached.start evaluator).derivable
      exact ⟨fuel, outcome, saturateAll_add ended⟩

end Evaluator

end Index.Astlog
