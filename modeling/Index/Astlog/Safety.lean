import Mathlib
import Index.Astlog.Checked
import Index.Astlog.Strata

/-! # Evaluation does not go wrong

For a checked program and a finished setup, evaluation never panics and fails with user errors only.
The proofs follow the evaluator from the builtins to the loop over the strata; the invariants are that
environments and rows hold nodes of the corpus, and that rows have the arity of their relation. -/

namespace Index.Astlog

open Index.Lib List Option

/-- The documented user errors. -/
def Error.IsUserError : Error → Prop
  | .unboundHeadVar .. | .unboundBuiltinArg .. | .builtinNotNode .. | .templateVar .. | .replaceNotNode ..
  | .lintNoNode .. | .overlappingEdits .. => True
  | _ => False

def Tolerated : Fault Error → Prop
  | .raised error => error.IsUserError
  | .panicked => False

namespace Corpus

variable {corpus : Corpus}

def HasEnv (corpus : Corpus) (env : Env) : Prop :=
  ∀ (var : String) value, env[var]? = some value → corpus.HasValue value

/-! ## Walks over the node table -/

theorem HasNode.parent {ref : NodeRef} {info : NodeInfo} {node : Nat} (found : corpus.nodeInfo ref = some info)
    (isParent : info.parent = some node) : corpus.HasNode ⟨ref.file, node⟩ ∧ node < ref.node := by
  obtain ⟨file, known, inside⟩ := bind_eq_some_iff.mp found
  have lower := SourceFile.parent_lt inside isParent
  have bound := (List.getElem?_eq_some_iff.mp inside).1
  exact ⟨⟨file, known, by change node < file.nodes.length; omega⟩, lower⟩

theorem ancestors_isSome {file steps : Nat} {current : Option Nat}
    (below : ∀ node, current = some node → corpus.HasNode ⟨file, node⟩ ∧ node < steps) :
    ∃ refs, corpus.ancestors file steps current = some refs ∧ ∀ ref ∈ refs, corpus.HasNode ref := by
  induction steps generalizing current with
  | zero =>
    cases current with
    | none => exact ⟨[], rfl, by simp⟩
    | some node => exact absurd (below node rfl).2 (Nat.not_lt_zero _)
  | succ steps ih =>
    cases current with
    | none => exact ⟨[], rfl, by simp⟩
    | some node =>
      obtain ⟨here, bound⟩ := below node rfl
      obtain ⟨info, found⟩ := here.nodeInfo
      obtain ⟨outer, walked, valid⟩ := ih fun parent isParent => by
        obtain ⟨present, lower⟩ := HasNode.parent found isParent
        exact ⟨present, by change parent < node at lower; omega⟩
      refine ⟨⟨file, node⟩ :: outer, ?_, forall_mem_cons.mpr ⟨here, valid⟩⟩
      simp [Corpus.ancestors, found, walked]

end Corpus

theorem hasDescendantIn_isSome {source : String} (rootEnd : Nat) (kind text : String) {infos : List NodeInfo}
    (cuts : ∀ info ∈ infos, ∃ here, slice source info.start info.stop = some here) :
    ∃ found, hasDescendantIn source rootEnd kind text infos = some found := by
  induction infos with
  | nil => exact ⟨false, rfl⟩
  | cons info infos ih =>
    obtain ⟨⟨here, cut⟩, rest⟩ := forall_mem_cons.mp cuts
    obtain ⟨later, walked⟩ := ih rest
    rw [hasDescendantIn, cut, bind_eq_bind, bind_some]
    split_ifs <;> simp [walked]

variable {file : SourceFile}

theorem SourceFile.hasDescendant_isSome {root : Nat} (inside : root < file.nodes.length) (kind text : String) :
    ∃ found, file.hasDescendant root kind text = some found := by
  have cuts : ∀ info ∈ file.nodes.drop (root + 1), ∃ here, slice file.text info.start info.stop = some here :=
    fun info member => file.slice_node (mem_of_mem_drop member)
  obtain ⟨found, walked⟩ := hasDescendantIn_isSome file.nodes[root].stop kind text cuts
  exact ⟨found, by simp [SourceFile.hasDescendant, inside, walked]⟩

theorem SourceFile.attachedFrom_isSome (parent : Nat) (nodeKind kind text : String) {index : Nat}
    (inside : index ≤ file.nodes.length) : ∃ found, file.attachedFrom parent nodeKind kind text index = some found := by
  induction index with
  | zero => exact ⟨false, rfl⟩
  | succ index ih =>
    obtain ⟨earlier, walked⟩ := ih (by omega)
    obtain ⟨found, searched⟩ := file.hasDescendant_isSome (Nat.lt_of_succ_le inside) kind text
    rw [SourceFile.attachedFrom, getElem?_eq_getElem (Nat.lt_of_succ_le inside), searched]
    simp only [bind_eq_bind, bind_some]
    split_ifs <;> simp [walked]

theorem SourceFile.attachedHasDescendant_isSome {node : Nat} (inside : node < file.nodes.length) (kind text : String) :
    ∃ found, file.attachedHasDescendant node kind text = some found := by
  rw [SourceFile.attachedHasDescendant, getElem?_eq_getElem inside, bind_eq_bind, bind_some]
  split
  next => exact ⟨false, rfl⟩
  next parent _ => exact file.attachedFrom_isSome parent _ kind text (Nat.le_of_lt inside)

/-! ## Builtins -/

/-- `next` keeps the bindings of `env`, binds the given variables and holds nodes of the corpus. -/
structure Extension (corpus : Corpus) (vars : List String) (env next : Env) : Prop where
  keeps : ∀ var, var ∈ env → var ∈ next
  binds : ∀ var ∈ vars, var ∈ next
  values : corpus.HasEnv next

theorem Unified.extension {corpus : Corpus} {env next : Env} {pairs : List (String × Value)} {vars : List String}
    (unified : Unified env next pairs) (valid : corpus.HasEnv env) (added : ∀ pair ∈ pairs, corpus.HasValue pair.2)
    (covered : ∀ var ∈ vars, var ∈ env ∨ var ∈ pairs.map Prod.fst) : Extension corpus vars env next where
  keeps var bound := unified.mem_iff.mpr (.inl bound)
  binds var member := unified.mem_iff.mpr (covered var member)
  values var value bound := by
    rcases unified.only var value bound with earlier | new
    · exact valid var value earlier
    · exact added _ new

/-- What a run of atoms or builtins ensures of the environments it returns. -/
def Extensions (corpus : Corpus) (vars : List String) (env : Env) (nexts : List Env) : Prop :=
  ∀ next ∈ nexts, Extension corpus vars env next

/-- A builtin extends an environment by the variables of its atom. -/
def Evaluator.Binds (evaluator : Evaluator) (app : AppAtom) (env : Env)
    (builtin : AppAtom → Env → Except (Fault Error) (List Env)) : Prop :=
  Ensures Tolerated (Extensions evaluator.corpus app.vars env) (builtin app env)

section Builtins

variable {evaluator : Evaluator} {app : AppAtom} {env : Env}

/-- An argument that is a literal or whose variable is bound. -/
def Term.IsBound (term : Term) (env : Env) : Prop := ∀ var ∈ term.vars, var ∈ env

variable {corpus : Corpus}

theorem keepIf_extensions {vars : List String} (valid : corpus.HasEnv env) (bound : ∀ var ∈ vars, var ∈ env) (holds : Bool) :
    Extensions corpus vars env (keepIf holds env) := by
  cases holds with
  | false => exact nofun
  | true =>
    intro next member
    rw [mem_singleton.mp member]
    exact ⟨fun _ => id, bound, valid⟩

variable {arg : Nat} {term : Term}

section

variable (known : app.args[arg]? = some term) (valid : corpus.HasEnv env)
include known valid

theorem boundValue_ensures :
    Ensures Tolerated (fun value => corpus.HasValue value ∧ term.IsBound env) (boundValue app env arg) := by
  rw [boundValue, known]
  cases term with
  | text text => exact ⟨trivial, nofun⟩
  | var var =>
    cases bound : env[var]? with
    | none =>
      simp only [orPanic, bind, Except.bind, bound]
      trivial
    | some value =>
      simp only [orPanic, bind, Except.bind, bound]
      refine ⟨valid var value bound, fun other member => ?_⟩
      exact mem_singleton.mp member ▸ BTreeMap.mem_iff.mpr ⟨_, bound⟩

theorem boundNode_ensures : Ensures Tolerated (fun ref => corpus.HasNode ref ∧ term.IsBound env) (boundNode app env arg) := by
  refine (boundValue_ensures known valid).bind fun value ⟨present, bound⟩ => ?_
  cases value with
  | node ref => exact ⟨present, bound⟩
  | text text =>
    rw [known]
    trivial

theorem unifyArg_ensures {value : Value} (present : corpus.HasValue value)
    (covered : ∀ var ∈ app.vars, var ∈ env ∨ var ∈ term.vars) :
    Ensures Tolerated (Extensions corpus app.vars env) (unifyArg app env arg value) := by
  refine ensures_orPanic_bind known fun next member => ?_
  have unified := unifyTerm_unified (mem_toList.mp member)
  refine unified.extension valid (fun pair inside => ?_) fun var inside => ?_
  · obtain ⟨_, -, rfl⟩ := mem_map.mp inside
    exact present
  · simpa using covered var inside

end

/-- The two-argument shape most builtins have. -/
structure AppAtom.Binary (app : AppAtom) (first second : Term) : Prop where
  args : app.args = [first, second]

structure AppAtom.Ternary (app : AppAtom) (first second third : Term) : Prop where
  args : app.args = [first, second, third]

section Binary

variable {first second : Term} (binary : app.Binary first second) (valid : evaluator.corpus.HasEnv env)

include binary

theorem AppAtom.Binary.arg0 : app.args[0]? = some first := by rw [binary.args]; rfl

theorem AppAtom.Binary.arg1 : app.args[1]? = some second := by rw [binary.args]; rfl

theorem AppAtom.Binary.mem_vars {var : String} : var ∈ app.vars ↔ var ∈ first.vars ∨ var ∈ second.vars := by
  simp [AppAtom.vars, binary.args]

theorem AppAtom.Binary.covered_first (bound : second.IsBound env) (var : String) (member : var ∈ app.vars) :
    var ∈ env ∨ var ∈ first.vars :=
  (binary.mem_vars.mp member).elim .inr fun inSecond => .inl (bound var inSecond)

theorem AppAtom.Binary.covered_second (bound : first.IsBound env) (var : String) (member : var ∈ app.vars) :
    var ∈ env ∨ var ∈ second.vars :=
  (binary.mem_vars.mp member).elim (fun inFirst => .inl (bound var inFirst)) .inr

theorem AppAtom.Binary.bound (left : first.IsBound env) (right : second.IsBound env) (var : String)
    (member : var ∈ app.vars) : var ∈ env :=
  (binary.mem_vars.mp member).elim (left var) (right var)

include valid

theorem parent_ensures : evaluator.Binds app env evaluator.parent := by
  refine (boundNode_ensures binary.arg1 valid).bind fun child ⟨present, bound⟩ => ?_
  obtain ⟨info, found⟩ := present.nodeInfo
  refine ensures_orPanic_bind found ?_
  cases isParent : info.parent with
  | none => exact fun next inside => absurd inside not_mem_nil
  | some node =>
    exact unifyArg_ensures binary.arg0 valid (Corpus.HasNode.parent found isParent).1 (binary.covered_first bound)

theorem ancestor_ensures : evaluator.Binds app env evaluator.ancestor := by
  refine (boundNode_ensures binary.arg1 valid).bind fun descendant ⟨present, bound⟩ => ?_
  obtain ⟨info, found⟩ := present.nodeInfo
  obtain ⟨refs, walked, nodes⟩ := Corpus.ancestors_isSome fun node (isParent : info.parent = some node) =>
    Corpus.HasNode.parent found isParent
  refine ensures_orPanic_bind found (ensures_orPanic_bind walked (ensures_tryCollect_flatten fun ref member => ?_))
  exact unifyArg_ensures binary.arg0 valid (nodes ref member) (binary.covered_first bound)

theorem text_ensures : evaluator.Binds app env evaluator.text := by
  refine (boundNode_ensures binary.arg0 valid).bind fun node ⟨present, bound⟩ => ?_
  obtain ⟨text, found⟩ := present.nodeText
  rw [found]
  exact unifyArg_ensures binary.arg1 valid trivial (binary.covered_second bound)

theorem kind_ensures : evaluator.Binds app env evaluator.kind := by
  refine (boundNode_ensures binary.arg0 valid).bind fun node ⟨present, bound⟩ => ?_
  obtain ⟨info, found⟩ := present.nodeInfo
  rw [found]
  exact unifyArg_ensures binary.arg1 valid trivial (binary.covered_second bound)

theorem sameText_ensures : evaluator.Binds app env evaluator.sameText := by
  refine (boundValue_ensures binary.arg0 valid).bind fun left ⟨leftPresent, leftBound⟩ => ?_
  refine (boundValue_ensures binary.arg1 valid).bind fun right ⟨rightPresent, rightBound⟩ => ?_
  obtain ⟨leftText, leftFound⟩ := leftPresent.valueText
  obtain ⟨rightText, rightFound⟩ := rightPresent.valueText
  rw [leftFound, rightFound]
  exact keepIf_extensions valid (binary.bound leftBound rightBound) _

theorem sameFile_ensures : evaluator.Binds app env Evaluator.sameFile := by
  refine (boundNode_ensures binary.arg0 valid).bind fun left ⟨_, leftBound⟩ => ?_
  refine (boundNode_ensures binary.arg1 valid).bind fun right ⟨_, rightBound⟩ => ?_
  exact keepIf_extensions valid (binary.bound leftBound rightBound) _

theorem textMatch_ensures {pattern : String} {isMatch : String → Bool} (literal : second = .text pattern)
    (compiled : evaluator.regexes pattern = some isMatch) :
    evaluator.Binds app env evaluator.textMatch := by
  refine (boundValue_ensures binary.arg0 valid).bind fun value ⟨present, bound⟩ => ?_
  obtain ⟨text, found⟩ := present.valueText
  have right : second.IsBound env := by
    rw [literal]
    exact nofun
  rw [binary.arg1, literal]
  simp only [orPanic, bind, Except.bind, compiled, found]
  exact keepIf_extensions valid (binary.bound bound right) _

theorem misgroupedDigits_ensures : evaluator.Binds app env evaluator.misgroupedDigits := by
  refine (boundValue_ensures binary.arg0 valid).bind fun value ⟨present, bound⟩ => ?_
  obtain ⟨text, found⟩ := present.valueText
  refine ensures_orPanic_bind found ?_
  cases regroupDigits text.toList with
  | none => exact fun next inside => absurd inside not_mem_nil
  | some fixed => exact unifyArg_ensures binary.arg1 valid trivial (binary.covered_second bound)

end Binary

section Ternary

variable {first second third : Term} (ternary : app.Ternary first second third) (valid : evaluator.corpus.HasEnv env)

include ternary valid

theorem descendantArgs_ensures :
    Ensures Tolerated (fun args => args.2.1 < args.1.nodes.length ∧ ∀ var ∈ app.vars, var ∈ env)
      (evaluator.descendantArgs app env) := by
  have knownFirst : app.args[0]? = some first := by rw [ternary.args]; rfl
  have knownSecond : app.args[1]? = some second := by rw [ternary.args]; rfl
  have knownThird : app.args[2]? = some third := by rw [ternary.args]; rfl
  refine (boundNode_ensures knownFirst valid).bind fun node ⟨present, nodeBound⟩ => ?_
  refine (boundValue_ensures knownSecond valid).bind fun kind ⟨kindPresent, kindBound⟩ => ?_
  refine (boundValue_ensures knownThird valid).bind fun text ⟨textPresent, textBound⟩ => ?_
  obtain ⟨file, known, inside⟩ := present
  obtain ⟨kindText, kindFound⟩ := kindPresent.valueText
  obtain ⟨wanted, textFound⟩ := textPresent.valueText
  rw [known, kindFound, textFound]
  refine ⟨inside, fun var member => ?_⟩
  simp only [AppAtom.vars, ternary.args, flatMap_cons, flatMap_nil, append_nil, mem_append] at member
  rcases member with inFirst | inSecond | inThird
  · exact nodeBound var inFirst
  · exact kindBound var inSecond
  · exact textBound var inThird

theorem noDescendant_ensures : evaluator.Binds app env evaluator.noDescendant := by
  refine (descendantArgs_ensures ternary valid).bind fun (file, root, kind, text) ⟨inside, bound⟩ => ?_
  obtain ⟨found, searched⟩ := file.hasDescendant_isSome inside kind text
  simp only [searched]
  exact keepIf_extensions valid bound _

theorem attachedSibling_ensures : evaluator.Binds app env evaluator.attachedSibling := by
  refine (descendantArgs_ensures ternary valid).bind fun (file, node, kind, text) ⟨inside, bound⟩ => ?_
  obtain ⟨found, searched⟩ := file.attachedHasDescendant_isSome inside kind text
  simp only [searched]
  exact keepIf_extensions valid bound _

end Ternary

theorem builtin_ensures {arity : Nat} (isBuiltin : builtinArity app.name = some arity) (length : app.args.length = arity)
    (compiled : app.name = "text-match" →
      ∃ pattern isMatch, app.args[1]? = some (Term.text pattern) ∧ evaluator.regexes pattern = some isMatch)
    (valid : evaluator.corpus.HasEnv env) :
    evaluator.Binds app env evaluator.builtin := by
  obtain ⟨name, args, line⟩ := app
  obtain ⟨⟨builtin, known⟩, found, rfl⟩ := map_eq_some_iff.mp isBuiltin
  obtain rfl : builtin = name := by simpa using find?_some found
  have member := mem_of_find?_eq_some found
  simp only [builtins, mem_cons, Prod.mk.injEq, not_mem_nil, or_false] at member
  rcases member with ⟨rfl, rfl⟩ | ⟨rfl, rfl⟩ | ⟨rfl, rfl⟩ | ⟨rfl, rfl⟩ | ⟨rfl, rfl⟩ | ⟨rfl, rfl⟩ | ⟨rfl, rfl⟩ | ⟨rfl, rfl⟩ |
    ⟨rfl, rfl⟩ | ⟨rfl, rfl⟩
  all_goals first
    | obtain ⟨first, second, rfl⟩ := length_eq_two.mp length
    | obtain ⟨first, second, third, rfl⟩ := length_eq_three.mp length
  · exact ancestor_ensures ⟨rfl⟩ valid
  · exact parent_ensures ⟨rfl⟩ valid
  · exact text_ensures ⟨rfl⟩ valid
  · exact kind_ensures ⟨rfl⟩ valid
  · exact sameText_ensures ⟨rfl⟩ valid
  · exact sameFile_ensures ⟨rfl⟩ valid
  · obtain ⟨pattern, isMatch, literal, regex⟩ := compiled rfl
    exact textMatch_ensures ⟨rfl⟩ valid (Option.some.inj literal) regex
  · exact misgroupedDigits_ensures ⟨rfl⟩ valid
  · exact noDescendant_ensures ⟨rfl⟩ valid
  · exact attachedSibling_ensures ⟨rfl⟩ valid

end Builtins

/-! ## Rule bodies -/

/-- The variables an atom binds whatever row it is matched with. -/
def BodyAtom.boundVars : BodyAtom → List String
  | .app atom => atom.vars
  | _ => []

namespace Evaluator

variable {evaluator : Evaluator} {db : Database}

/-- A checked program with a finished setup. -/
structure Sound (evaluator : Evaluator) : Prop where
  checked : evaluator.program.Checked
  prepared : evaluator.Prepared evaluator.program.atoms

/-- Rows have the arity of their relation and hold nodes of the corpus. -/
def RowOk (evaluator : Evaluator) (name : String) (row : Row) : Prop :=
  evaluator.program.arities name = some row.length ∧ ∀ value ∈ row, evaluator.corpus.HasValue value

/-- The invariant of the database: the relations of the program, with the columns of their first rules. -/
structure DatabaseOk (evaluator : Evaluator) (db : Database) : Prop where
  defined : ∀ name arity, evaluator.program.arities name = some arity → ∃ relation, db.relations[name]? = some relation
  rows : ∀ (name : String) relation, db.relations[name]? = some relation → ∀ row ∈ relation.rows, evaluator.RowOk name row
  columns : ∀ (name : String) relation, db.relations[name]? = some relation →
    (evaluator.program.rules.find? fun rule => rule.name = name).map Rule.headVars = some relation.columns

variable {env : Env}

theorem extend_ensures (sound : evaluator.Sound) (ok : evaluator.DatabaseOk db) {atom : BodyAtom}
    (member : atom ∈ evaluator.program.atoms) (valid : evaluator.corpus.HasEnv env) :
    Ensures Tolerated (Extensions evaluator.corpus atom.boundVars env) (evaluator.extend db atom env) := by
  have checked := sound.checked.atoms atom member
  cases atom with
  | matching atom =>
    obtain ⟨bindings, known⟩ := sound.prepared.materialized atom member
    simp only [extend, known]
    intro next inside
    obtain ⟨binding, bindingMember, unified⟩ := mem_filterMap.mp inside
    exact (unifyBinding_unified unified).extension valid
      (sound.prepared.nodes atom.key bindings known binding bindingMember) (by simp [BodyAtom.boundVars])
  | app app =>
    simp only [Program.AtomChecked] at checked
    cases arity : builtinArity app.name with
    | some expected =>
      simp only [arity] at checked
      rw [extend, if_pos (by rw [arity]; rfl)]
      exact builtin_ensures arity checked.1 (sound.prepared.compiled app member) valid
    | none =>
      simp only [arity] at checked
      obtain ⟨relation, found⟩ := ok.defined app.name _ checked
      rw [extend, if_neg (by rw [arity]; exact Bool.false_ne_true)]
      simp only [found]
      intro next inside
      obtain ⟨row, rowMember, unified⟩ := mem_filterMap.mp inside
      obtain ⟨length, values⟩ := ok.rows app.name relation found row rowMember
      rw [checked, Option.some.injEq] at length
      refine (unifyRow_unified unified).extension valid (fun pair pairMember => values _ (termPairs_values pairMember))
        fun var varMember => .inr ?_
      rw [termPairs_names (Nat.le_of_eq length)]
      exact varMember
  | negation neg =>
    obtain ⟨relation, found⟩ := ok.defined neg.name _ checked
    simp only [extend, found]
    split
    next => exact fun next inside => absurd inside not_mem_nil
    next => exact keepIf_extensions valid (by simp [BodyAtom.boundVars]) true

theorem solve_ensures (sound : evaluator.Sound) (ok : evaluator.DatabaseOk db) {atoms : List BodyAtom}
    (members : ∀ atom ∈ atoms, atom ∈ evaluator.program.atoms) (valid : evaluator.corpus.HasEnv env) :
    Ensures Tolerated (fun envs => ∀ final ∈ envs, evaluator.corpus.HasEnv final) (evaluator.solve db atoms env) := by
  induction atoms generalizing env with
  | nil =>
    intro final inside
    rw [mem_singleton.mp inside]
    exact valid
  | cons atom rest ih =>
    obtain ⟨here, later⟩ := forall_mem_cons.mp members
    refine (extend_ensures sound ok here valid).bind fun nexts extended => ?_
    exact ensures_tryCollect_flatten fun next inside => ih later (extended next inside).values

/-! ## Rounds -/

variable {rule : Rule}

theorem headRow_ensures (valid : evaluator.corpus.HasEnv env) : Ensures (fun error => Tolerated (.raised error))
      (fun row => row.length = rule.headVars.length ∧ ∀ value ∈ row, evaluator.corpus.HasValue value)
      (rule.headRow env) := by
  have values : Ensures (fun error => Tolerated (.raised error)) (fun row => ∀ value ∈ row, evaluator.corpus.HasValue value)
      (rule.headRow env) := by
    refine ensures_tryCollect fun var _ => ?_
    cases bound : env[var]? with
    | none => trivial
    | some value => exact valid var value bound
  cases collected : rule.headRow env with
  | error error => exact values.of_error collected
  | ok row => exact ⟨(tryCollect_eq_ok.mp collected).length_eq.symm, values.of_ok collected⟩

theorem stageRule_ensures (sound : evaluator.Sound) (ok : evaluator.DatabaseOk db) (member : rule ∈ evaluator.program.rules) :
    Ensures Tolerated (fun staged => ∀ entry ∈ staged, evaluator.RowOk entry.1 entry.2) (evaluator.stageRule db rule) := by
  have atoms : ∀ atom ∈ rule.body, atom ∈ evaluator.program.atoms := fun atom inside =>
    mem_append_left _ (mem_flatMap.mpr ⟨rule, member, inside⟩)
  refine (solve_ensures sound ok atoms (by simp [Corpus.HasEnv])).bind fun envs solved => ?_
  refine (ensures_fallible (ensures_tryCollect fun env inside => headRow_ensures (solved env inside))).bind
    fun rows heading => ?_
  intro entry inside
  obtain ⟨row, rowMember, rfl⟩ := mem_map.mp inside
  obtain ⟨length, values⟩ := heading row rowMember
  exact ⟨by rw [sound.checked.heads rule member, length], values⟩

variable {stratum : List Nat}

theorem stage_ensures (sound : evaluator.Sound) (ok : evaluator.DatabaseOk db)
    (indices : ∀ index ∈ stratum, ∃ rule, evaluator.program.rules[index]? = some rule) :
    Ensures Tolerated (fun staged => ∀ entry ∈ staged, evaluator.RowOk entry.1 entry.2) (evaluator.stage stratum db) := by
  refine ensures_tryCollect_flatten fun index inside => ?_
  obtain ⟨rule, found⟩ := indices index inside
  exact ensures_orPanic_bind found (stageRule_ensures sound ok (mem_of_getElem? found))

theorem insertStaged_ensures {state : Database × Bool} (ok : evaluator.DatabaseOk state.1) {entry : String × Row}
    (rowOk : evaluator.RowOk entry.1 entry.2) :
    Ensures Tolerated (fun next => evaluator.DatabaseOk next.1) (insertStaged state entry) := by
  obtain ⟨name, row⟩ := entry
  obtain ⟨relation, found⟩ := ok.defined name _ rowOk.1
  simp only [insertStaged, found]
  have lookup : ∀ (other : String) changed,
      (state.1.relations.insert name (relation.insert row).1)[other]? = some changed →
        (other = name ∧ changed = (relation.insert row).1) ∨ state.1.relations[other]? = some changed := by
    intro other changed present
    rw [BTreeMap.getElem?_insert] at present
    split at present
    next same => exact .inl ⟨same.symm, (Option.some.inj present).symm⟩
    next => exact .inr present
  refine ⟨fun other arity known => ?_, fun other changed present => ?_, fun other changed present => ?_⟩
  · simp only [BTreeMap.getElem?_insert]
    split
    next => exact ⟨_, rfl⟩
    next => exact ok.defined other arity known
  · rcases lookup other changed present with ⟨rfl, rfl⟩ | unchanged
    · intro inserted inside
      rcases Relation.mem_insert.mp inside with earlier | rfl
      · exact ok.rows other relation found inserted earlier
      · exact rowOk
    · exact ok.rows other changed unchanged
  · rcases lookup other changed present with ⟨rfl, rfl⟩ | unchanged
    · rw [Relation.columns_insert]
      exact ok.columns other relation found
    · exact ok.columns other changed unchanged

theorem iterate_ensures (sound : evaluator.Sound) (ok : evaluator.DatabaseOk db)
    (indices : ∀ index ∈ stratum, ∃ rule, evaluator.program.rules[index]? = some rule) :
    Ensures Tolerated (fun next => evaluator.DatabaseOk next.1) (evaluator.iterate stratum db) := by
  refine (stage_ensures sound ok indices).bind fun staged rows => ?_
  refine ensures_foldlM (fun _ (state : Database × Bool) => evaluator.DatabaseOk state.1) ok fun done entry left state whole kept => ?_
  exact insertStaged_ensures kept (rows entry (by simp [whole]))

/-! ## Whole runs -/

variable {fuel : Nat} {outcome : Except (Fault Error) Database}

theorem saturate_ensures (sound : evaluator.Sound)
    (indices : ∀ index ∈ stratum, ∃ rule, evaluator.program.rules[index]? = some rule) (ok : evaluator.DatabaseOk db)
    (ended : evaluator.saturate stratum fuel db = some outcome) : Ensures Tolerated evaluator.DatabaseOk outcome := by
  induction fuel generalizing db with
  | zero => cases ended
  | succ fuel ih =>
    have round := iterate_ensures sound ok indices
    rw [saturate] at ended
    split at ended
    next fault failed =>
      cases ended
      exact round.of_error failed
    next next grew iterated =>
      have kept : evaluator.DatabaseOk next := round.of_ok iterated
      split at ended
      next => exact ih kept ended
      next =>
        cases ended
        exact kept

variable {strata : List (List Nat)}

theorem saturateAll_ensures (sound : evaluator.Sound)
    (indices : ∀ stratum ∈ strata, ∀ index ∈ stratum, ∃ rule, evaluator.program.rules[index]? = some rule)
    (ok : evaluator.DatabaseOk db) (ended : evaluator.saturateAll fuel strata db = some outcome) :
    Ensures Tolerated evaluator.DatabaseOk outcome := by
  induction strata generalizing db with
  | nil =>
    cases ended
    exact ok
  | cons stratum strata ih =>
    obtain ⟨here, later⟩ := forall_mem_cons.mp indices
    rw [saturateAll] at ended
    split at ended
    next next saturated => exact ih later (saturate_ensures sound here ok saturated) ended
    next stopped =>
      exact saturate_ensures sound here ok ended

theorem emptyDatabase_ok (evaluator : Evaluator) : evaluator.DatabaseOk evaluator.program.emptyDatabase where
  defined name arity known := by
    obtain ⟨rule, found, -⟩ := map_eq_some_iff.mp known
    exact ⟨Relation.new rule.headVars, by rw [Program.emptyDatabase_lookup, found]; rfl⟩
  rows name relation present := by
    rw [Program.emptyDatabase_lookup] at present
    obtain ⟨rule, -, rfl⟩ := map_eq_some_iff.mp present
    exact nofun
  columns name relation present := by
    rw [Program.emptyDatabase_lookup] at present
    obtain ⟨rule, found, rfl⟩ := map_eq_some_iff.mp present
    rw [found]
    rfl

theorem strata_indices (computed : evaluator.program.strata = .ok strata) :
    ∀ stratum ∈ strata, ∀ index ∈ stratum, ∃ rule, evaluator.program.rules[index]? = some rule := by
  obtain ⟨level, -, -, layered, -⟩ := Program.strata_eq computed
  intro stratum member index inside
  rw [layered] at member
  obtain ⟨height, -, rfl⟩ := mem_map.mp member
  obtain ⟨rule, found, -⟩ := Program.mem_stratumAt.mp inside
  exact ⟨rule, found⟩

theorem fixpoint_ensures (sound : evaluator.Sound) (ended : evaluator.fixpoint fuel = some outcome) :
    Ensures Tolerated evaluator.DatabaseOk outcome := by
  obtain ⟨strata, computed⟩ := sound.checked.strata
  rw [fixpoint, computed] at ended
  exact saturateAll_ensures sound (strata_indices computed) evaluator.emptyDatabase_ok ended

/-- Parsing and the setup establish what evaluation relies on. -/
theorem Sound.of_parse {unicode : Unicode} {src : String} {engines : Engines} {program : Program} {corpus : Corpus}
    (parsed : Program.parse unicode src = some (.ok program)) (ready : Evaluator.new engines program corpus = .ok evaluator) :
    evaluator.Sound := by
  obtain ⟨rfl, rfl, prepared⟩ := Evaluator.new_prepared ready
  exact ⟨Program.check_ok (Program.parse_checked parsed), prepared⟩

end Evaluator

end Index.Astlog
