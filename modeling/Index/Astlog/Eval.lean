import Mathlib.Data.List.Induction
import Index.Astlog.Corpus
import Index.Astlog.Digits
import Index.Astlog.Program

/-! # Evaluation

`match` queries are run once over the corpus; rule bodies are then solved from left to right against
the relations derived so far, stratum by stratum, until nothing new is derived.

Tree-sitter queries and regular expressions stay outside of the model (`Engines`). -/

namespace Index.Astlog

open Index.Lib Index.Langs

abbrev Row := List Value

abbrev Env := BTreeMap String Value

abbrev Binding := List (String × Value)

/-- A derived relation: named columns and distinct rows in derivation order. -/
structure Relation where
  columns : List String
  rows : List Row
  distinct : rows.Nodup

namespace Relation

def new (columns : List String) : Relation := ⟨columns, [], List.nodup_nil⟩

/-- The set `seen` of the source is the set of the rows. -/
def insert (relation : Relation) (row : Row) : Relation × Bool :=
  if seen : row ∈ relation.rows then (relation, false)
  else
    ({ relation with
        rows := relation.rows ++ [row]
        distinct := List.concat_eq_append ▸ relation.distinct.concat seen }, true)

end Relation

structure Database where
  relations : BTreeMap String Relation

structure MatchKey where
  lang : Lang
  query : String
deriving DecidableEq

/-! ## Queries -/

/-- A node captured by a query match: the index of the capture and the id of the node. -/
structure Capture where
  index : Nat
  node : Nat

/-- A compiled query: its capture names and the matches it finds in a file. -/
structure Query where
  captureNames : List String
  run : SourceFile → List (List Capture)

/-- The query compiler and the regex compiler, which reject what they cannot compile. -/
structure Engines where
  query : Lang → String → Option Query
  regex : String → Option (String → Bool)

/-- One capture of a match; of several nodes for one name the first wins. -/
def bindCapture (file : Nat) (source : SourceFile) (names : List String) (line : Nat) (binding : Binding)
    (capture : Capture) : Except Error Binding :=
  match names[capture.index]? with
  | none => .error (.captureIndex line capture.index)
  | some name =>
    if binding.any fun entry => entry.1 = name then .ok binding
    else
      match source.nodeIndex capture.node with
      | none => .error (.internal ("query capture `" ++ name ++ "` missing from the node table"))
      | some node => .ok (binding ++ [(name, .node ⟨file, node⟩)])

def bindingOf (file : Nat) (source : SourceFile) (names : List String) (line : Nat) (found : List Capture) :
    Except Error Binding :=
  found.foldlM (bindCapture file source names line) []

def materializeFile (query : Query) (atom : MatchAtom) (entry : SourceFile × Nat) : Except Error (List Binding) :=
  if entry.1.lang ≠ atom.lang then .ok []
  else tryCollect (bindingOf entry.2 entry.1 query.captureNames atom.line) (query.run entry.1)

/-- Runs one query over every file of its language. -/
def materialize (engines : Engines) (corpus : Corpus) (atom : MatchAtom) : Except Error (List Binding) :=
  if hasPredicate atom.query then .error (.predicateUnsupported atom.line)
  else
    match engines.query atom.lang atom.query with
    | none => .error (.query atom.line)
    | some query => (tryCollect (materializeFile query atom) corpus.files.zipIdx).map List.flatten

structure Evaluator where
  program : Program
  corpus : Corpus
  matchRows : MatchKey → Option (List Binding)
  regexes : String → Option (String → Bool)

def MatchAtom.key (atom : MatchAtom) : MatchKey := ⟨atom.lang, atom.query⟩

/-- One iteration of the setup loop. -/
def Evaluator.prepareAtom (engines : Engines) (evaluator : Evaluator) : BodyAtom → Except Error Evaluator
  | .matching atom =>
    match evaluator.matchRows atom.key with
    | some _ => .ok evaluator
    | none => do
      let rows ← materialize engines evaluator.corpus atom
      return { evaluator with matchRows := Function.update evaluator.matchRows atom.key (some rows) }
  | .app app =>
    if app.name = "text-match" then
      match app.args[1]? with
      | some (Term.text pattern) =>
        match evaluator.regexes pattern with
        | some _ => .ok evaluator
        | none =>
          match engines.regex pattern with
          | none => .error (.regex app.line pattern)
          | some compiled =>
            .ok { evaluator with regexes := Function.update evaluator.regexes pattern (some compiled) }
      | _ =>
        .error (.internal ("text-match at line " ++ toString app.line ++ " survived checking without a literal pattern"))
    else .ok evaluator
  | .negation _ => .ok evaluator

def Program.atoms (program : Program) : List BodyAtom :=
  program.rules.flatMap Rule.body ++ program.rewrites.flatMap Rewrite.body

def Evaluator.new (engines : Engines) (program : Program) (corpus : Corpus) : Except Error Evaluator :=
  program.atoms.foldlM (Evaluator.prepareAtom engines) ⟨program, corpus, fun _ => none, fun _ => none⟩

/-! ## Unification -/

def unifyVar (env : Env) (var : String) (value : Value) : Option Env :=
  match env[var]? with
  | some bound => if bound = value then some env else none
  | none => some (env.insert var value)

def unifyTerm (env : Env) (term : Term) (value : Value) : Option Env :=
  match term with
  | .var var => unifyVar env var value
  | .text lit => if value = .text lit then some env else none

def unifyBinding (env : Env) (binding : Binding) : Option Env :=
  binding.foldlM (fun next entry => unifyVar next entry.1 entry.2) env

/-- The arguments of an atom against a row, column by column. -/
def unifyRow (env : Env) (args : List Term) (row : Row) : Option Env :=
  (args.zip row).foldlM (fun next pair => unifyTerm next pair.1 pair.2) env

/-! ## Builtins -/

def termDisplay : Term → String
  | .var var => var
  | .text text => "\"" ++ text ++ "\""

def boundValue (app : AppAtom) (env : Env) (arg : Nat) : Except (Fault Error) Value := do
  match ← orPanic app.args[arg]? with
  | .text text => return .text text
  | .var var =>
    match env[var]? with
    | some value => return value
    | none => throw (.raised (.unboundBuiltinArg app.line app.name var))

def boundNode (app : AppAtom) (env : Env) (arg : Nat) : Except (Fault Error) NodeRef := do
  match ← boundValue app env arg with
  | .node ref => return ref
  | .text _ =>
    let term ← orPanic app.args[arg]?
    throw (.raised (.builtinNotNode app.line app.name (termDisplay term)))

/-- The loop over the nodes of a subtree, which are the entries up to its end. -/
def hasDescendantIn (source : String) (rootEnd : Nat) (kind text : String) : List NodeInfo → Option Bool
  | [] => some false
  | info :: rest =>
    if rootEnd ≤ info.start then some false
    else if info.kind = kind then do
      let here ← slice source info.start info.stop
      if here = text then some true else hasDescendantIn source rootEnd kind text rest
    else hasDescendantIn source rootEnd kind text rest

def SourceFile.hasDescendant (file : SourceFile) (root : Nat) (kind text : String) : Option Bool := do
  let info ← file.nodes[root]?
  hasDescendantIn file.text info.stop kind text (file.nodes.drop (root + 1))

/-- The backward walk over the earlier children of `parent`. -/
def SourceFile.attachedFrom (file : SourceFile) (parent : Nat) (nodeKind kind text : String) : Nat → Option Bool
  | 0 => some false
  | index + 1 =>
    if parent < index + 1 then do
      let info ← file.nodes[index]?
      if info.parent ≠ some parent then file.attachedFrom parent nodeKind kind text index
      else if info.kind = nodeKind then some false
      else if info.named then
        if ← file.hasDescendant index kind text then some true else file.attachedFrom parent nodeKind kind text index
      else file.attachedFrom parent nodeKind kind text index
    else some false

def SourceFile.attachedHasDescendant (file : SourceFile) (node : Nat) (kind text : String) : Option Bool := do
  let info ← file.nodes[node]?
  match info.parent with
  | none => some false
  | some parent => file.attachedFrom parent info.kind kind text node

/-- The chain of parents, innermost first.  Parents have smaller indices, so an index bounds it. -/
def Corpus.ancestors (corpus : Corpus) (file : Nat) : Nat → Option Nat → Option (List NodeRef)
  | _, none => some []
  | 0, some _ => none
  | steps + 1, some node => do
    let info ← corpus.nodeInfo ⟨file, node⟩
    let outer ← corpus.ancestors file steps info.parent
    return ⟨file, node⟩ :: outer

/-- A filter keeps the environment or nothing. -/
def keepIf (holds : Bool) (env : Env) : List Env := if holds then [env] else []

/-- A generator unifies one argument with a value. -/
def unifyArg (app : AppAtom) (env : Env) (arg : Nat) (value : Value) : Except (Fault Error) (List Env) := do
  let term ← orPanic app.args[arg]?
  return (unifyTerm env term value).toList

namespace Evaluator

variable (evaluator : Evaluator) (app : AppAtom) (env : Env)

def parent : Except (Fault Error) (List Env) := do
  let child ← boundNode app env 1
  let info ← orPanic (evaluator.corpus.nodeInfo child)
  match info.parent with
  | none => return []
  | some node => unifyArg app env 0 (.node ⟨child.file, node⟩)

def ancestor : Except (Fault Error) (List Env) := do
  let descendant ← boundNode app env 1
  let info ← orPanic (evaluator.corpus.nodeInfo descendant)
  let refs ← orPanic (evaluator.corpus.ancestors descendant.file descendant.node info.parent)
  let envs ← tryCollect (fun ref => unifyArg app env 0 (.node ref)) refs
  return envs.flatten

def text : Except (Fault Error) (List Env) := do
  let node ← boundNode app env 0
  let text ← orPanic (evaluator.corpus.nodeText node)
  unifyArg app env 1 (.text text)

def kind : Except (Fault Error) (List Env) := do
  let node ← boundNode app env 0
  let info ← orPanic (evaluator.corpus.nodeInfo node)
  unifyArg app env 1 (.text info.kind)

def sameText : Except (Fault Error) (List Env) := do
  let first ← boundValue app env 0
  let second ← boundValue app env 1
  let left ← orPanic (evaluator.corpus.valueText first)
  let right ← orPanic (evaluator.corpus.valueText second)
  return keepIf (left = right) env

def sameFile : Except (Fault Error) (List Env) := do
  let first ← boundNode app env 0
  let second ← boundNode app env 1
  return keepIf (first.file = second.file) env

def textMatch : Except (Fault Error) (List Env) := do
  let value ← boundValue app env 0
  match ← orPanic app.args[1]? with
  | .var _ => throw (.raised (.internal ("text-match at line " ++ toString app.line ++ " has a non-literal pattern")))
  | .text pattern =>
    match evaluator.regexes pattern with
    | none => throw (.raised (.internal ("regex `" ++ pattern ++ "` was not compiled at setup")))
    | some isMatch =>
      let text ← orPanic (evaluator.corpus.valueText value)
      return keepIf (isMatch text) env

def misgroupedDigits : Except (Fault Error) (List Env) := do
  let value ← boundValue app env 0
  let text ← orPanic (evaluator.corpus.valueText value)
  match regroupDigits text.toList with
  | none => return []
  | some fixed => unifyArg app env 1 (.text (String.ofList fixed))

/-- The node, kind and text arguments of the two builtins that search descendants. -/
def descendantArgs : Except (Fault Error) (SourceFile × Nat × String × String) := do
  let node ← boundNode app env 0
  let kind ← boundValue app env 1
  let text ← boundValue app env 2
  let file ← orPanic evaluator.corpus.files[node.file]?
  let kindText ← orPanic (evaluator.corpus.valueText kind)
  let wanted ← orPanic (evaluator.corpus.valueText text)
  return (file, node.node, kindText, wanted)

def noDescendant : Except (Fault Error) (List Env) := do
  let (file, root, kind, text) ← evaluator.descendantArgs app env
  let found ← orPanic (file.hasDescendant root kind text)
  return keepIf (!found) env

def attachedSibling : Except (Fault Error) (List Env) := do
  let (file, node, kind, text) ← evaluator.descendantArgs app env
  let found ← orPanic (file.attachedHasDescendant node kind text)
  return keepIf found env

/-- The environments in which a builtin holds. -/
def builtin : Except (Fault Error) (List Env) :=
  match app.name with
  | "parent" => evaluator.parent app env
  | "ancestor" => evaluator.ancestor app env
  | "text" => evaluator.text app env
  | "kind" => evaluator.kind app env
  | "same-text" => evaluator.sameText app env
  | "same-file" => sameFile app env
  | "text-match" => evaluator.textMatch app env
  | "misgrouped-digits" => evaluator.misgroupedDigits app env
  | "no-descendant" => evaluator.noDescendant app env
  | "attached-sibling" => evaluator.attachedSibling app env
  | other => .error (.raised (.internal ("builtin `" ++ other ++ "` has no evaluator")))

end Evaluator

namespace Evaluator

variable (evaluator : Evaluator)

/-! ## Rule bodies -/

/-- The environments one atom leaves of an environment. -/
def extend (db : Database) (atom : BodyAtom) (env : Env) : Except (Fault Error) (List Env) :=
  match atom with
  | .matching atom =>
    match evaluator.matchRows atom.key with
    | none => .error (.raised (.internal ("match query at line " ++ toString atom.line ++ " was not materialized")))
    | some bindings => .ok (bindings.filterMap (unifyBinding env))
  | .app app =>
    if (builtinArity app.name).isSome then evaluator.builtin app env
    else
      match db.relations[app.name]? with
      | none => .error (.raised (.unknownRelation app.name app.line))
      | some relation => .ok (relation.rows.filterMap (unifyRow env app.args))
  | .negation neg =>
    match db.relations[neg.name]? with
    | none => .error (.raised (.unknownRelation neg.name neg.line))
    | some relation =>
      if relation.rows.any fun row => (unifyRow env neg.args row).isSome then .ok [] else .ok [env]

/-- The environments that satisfy a body, in the order the nested loops find them. -/
def solve (db : Database) : List BodyAtom → Env → Except (Fault Error) (List Env)
  | [], env => .ok [env]
  | atom :: rest, env => do
    let nexts ← evaluator.extend db atom env
    let found ← tryCollect (solve db rest) nexts
    return found.flatten

/-- All bindings that satisfy a body against a finished database. -/
def bindings (db : Database) (atoms : List BodyAtom) : Except (Fault Error) (List Env) := evaluator.solve db atoms ∅

end Evaluator

/-! ## Fixpoint -/

/-- The row an environment gives the head of a rule. -/
def Rule.headRow (rule : Rule) (env : Env) : Except Error Row :=
  tryCollect (fun var =>
    match env[var]? with
    | some value => .ok value
    | none => .error (.unboundHeadVar rule.line var)) rule.headVars

def declareRelation (relations : BTreeMap String Relation) (rule : Rule) : BTreeMap String Relation :=
  if rule.name ∈ relations then relations else relations.insert rule.name (Relation.new rule.headVars)

/-- Every relation of the program, empty, with the columns of its first rule. -/
def Program.emptyDatabase (program : Program) : Database where
  relations := program.rules.foldl declareRelation ∅

/-- Inserts one staged row; the flag tells whether any row was new. -/
def insertStaged (state : Database × Bool) (staged : String × Row) : Except (Fault Error) (Database × Bool) :=
  match state.1.relations[staged.1]? with
  | none => .error (.raised (.internal ("relation `" ++ staged.1 ++ "` missing from database")))
  | some relation =>
    let (grown, fresh) := relation.insert staged.2
    .ok ({ relations := state.1.relations.insert staged.1 grown }, state.2 || fresh)

namespace Evaluator

variable (evaluator : Evaluator)

/-- The rows one rule derives from a database, with the name of its relation. -/
def stageRule (db : Database) (rule : Rule) : Except (Fault Error) (List (String × Row)) := do
  let envs ← evaluator.solve db rule.body ∅
  let rows ← fallible (tryCollect rule.headRow envs)
  return rows.map fun row => (rule.name, row)

def stageAt (db : Database) (index : Nat) : Except (Fault Error) (List (String × Row)) := do
  let rule ← orPanic evaluator.program.rules[index]?
  evaluator.stageRule db rule

/-- The rows a stratum derives from one database. -/
def stage (stratum : List Nat) (db : Database) : Except (Fault Error) (List (String × Row)) := do
  let staged ← tryCollect (evaluator.stageAt db) stratum
  return staged.flatten

/-- One iteration of the loop over a stratum. -/
def iterate (stratum : List Nat) (db : Database) : Except (Fault Error) (Database × Bool) := do
  let staged ← evaluator.stage stratum db
  staged.foldlM insertStaged (db, false)

/-- Iterates until an iteration inserts nothing; `none` when the fuel is used up. -/
def saturate (stratum : List Nat) : Nat → Database → Option (Except (Fault Error) Database)
  | 0, _ => none
  | fuel + 1, db =>
    match evaluator.iterate stratum db with
    | .error fault => some (.error fault)
    | .ok (next, grew) => if grew then saturate stratum fuel next else some (.ok next)

def saturateAll (fuel : Nat) : List (List Nat) → Database → Option (Except (Fault Error) Database)
  | [], db => some (.ok db)
  | stratum :: strata, db =>
    match evaluator.saturate stratum fuel db with
    | some (.ok next) => saturateAll fuel strata next
    | stopped => stopped

/-- Runs all rules to a fixpoint, with the given number of iterations for each stratum. -/
def fixpoint (fuel : Nat) : Option (Except (Fault Error) Database) :=
  match evaluator.program.strata with
  | .error fault => some (.error fault)
  | .ok strata => evaluator.saturateAll fuel strata evaluator.program.emptyDatabase

end Evaluator

/-! ## Relations -/

theorem Relation.mem_insert {relation : Relation} {row other : Row} :
    other ∈ (relation.insert row).1.rows ↔ other ∈ relation.rows ∨ other = row := by
  unfold Relation.insert
  split
  next seen => exact ⟨.inl, fun inside => inside.elim id fun same => same ▸ seen⟩
  next => simp

theorem Relation.columns_insert (relation : Relation) (row : Row) : (relation.insert row).1.columns = relation.columns := by
  unfold Relation.insert
  split <;> rfl

theorem Relation.insert_fresh {relation : Relation} {row : Row} :
    (relation.insert row).2 = false ↔ row ∈ relation.rows := by
  unfold Relation.insert
  split
  next seen => simp [seen]
  next unseen => simp [unseen]

theorem Program.emptyDatabase_lookup (program : Program) (name : String) :
    program.emptyDatabase.relations[name]? =
      (program.rules.find? fun rule => rule.name = name).map fun rule => Relation.new rule.headVars := by
  unfold Program.emptyDatabase
  induction program.rules using List.reverseRecOn with
  | nil => simp
  | append_singleton rules rule ih =>
    simp only [List.foldl_append, List.foldl_cons, List.foldl_nil, List.find?_append, declareRelation] at *
    split
    next declared =>
      cases earlier : rules.find? fun rule => rule.name = name with
      | some first => simpa [earlier] using ih
      | none =>
        have differs : rule.name ≠ name := by
          rintro rfl
          rw [Std.ExtTreeMap.mem_iff_isSome_getElem?, ih, earlier] at declared
          cases declared
        simpa [earlier, differs] using ih
    next undeclared =>
      rw [BTreeMap.getElem?_insert]
      split
      next same =>
        subst same
        have missing : rules.find? (fun other => other.name = rule.name) = none := by
          rw [Std.ExtTreeMap.mem_iff_isSome_getElem?, ih] at undeclared
          simpa using undeclared
        simp [missing]
      next differs => simp [ih, differs]

end Index.Astlog
