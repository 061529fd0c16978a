import Mathlib.Data.List.Sort
import Mathlib.Data.List.Lex
import Mathlib.Data.Prod.Lex
import Index.Astlog.Eval

/-! # Lint findings

Every row of a relation with a `lint` declaration becomes a located finding, unless an
`astlog-ignore` comment suppresses it. -/

namespace Index.Astlog

open Index.Lib

structure Finding where
  rule : String
  severity : Severity
  message : String
  file : String
  line : Nat
  column : Nat
  endLine : Nat
  endColumn : Nat
  text : String
deriving DecidableEq

/-- A text on one line, cut after 60 characters. -/
def oneLine (text : String) : String :=
  let words := (text.toList.splitOnP isWhitespace).filter fun word => !word.isEmpty
  let flat := (words.intersperse [' ']).flatten
  String.ofList (flat.take 60 ++ if 60 < flat.length then ['…'] else [])

/-! ## Suppressions -/

/-- What follows the first occurrence of a text. -/
def afterText (needle : List Char) : List Char → Option (List Char)
  | [] => if needle.isEmpty then some [] else none
  | char :: chars =>
    if needle.isPrefixOf (char :: chars) then some ((char :: chars).drop needle.length) else afterText needle chars

inductive Directive where
  | all
  | rules (names : List String)
deriving DecidableEq

def trimStart (chars : List Char) : List Char := chars.dropWhile isWhitespace

/-- The rule name a token starts with. -/
def directiveName (unicode : Unicode) (token : List Char) : Option String :=
  let name := (trimStart token).takeWhile fun c => unicode.isAlphanumeric c || c = '-' || c = '_'
  if name.isEmpty then none else some (String.ofList name)

def parseDirective (unicode : Unicode) (comment : String) : Option Directive := do
  let rest ← afterText "astlog-ignore".toList comment.toList
  match trimStart rest with
  | ':' :: names =>
    let rules := (names.splitOn ',').filterMap (directiveName unicode)
    return if rules.isEmpty then .all else .rules rules
  | _ => return .all

/-- The comment behind a suppression: its line and its text on one line. -/
structure CommentSource where
  line : Nat
  text : String
deriving DecidableEq

/-- The suppressions of one line; the first comment wins. -/
structure LineSuppression where
  all : Option CommentSource
  rules : BTreeMap String CommentSource

def LineSuppression.add (entry : LineSuppression) (source : CommentSource) : Directive → LineSuppression
  | .all => { entry with all := entry.all.or (some source) }
  | .rules names =>
    { entry with
      rules := names.foldl (fun rules name => if name ∈ rules then rules else rules.insert name source) entry.rules }

abbrev FileSuppressions := BTreeMap Nat LineSuppression

def suppressLine (directive : Directive) (source : CommentSource) (lines : FileSuppressions) (line : Nat) :
    FileSuppressions :=
  lines.insert line ((lines[line]?.getD ⟨none, ∅⟩).add source directive)

/-- The lines a comment covers and the one below it. -/
def suppressNode (unicode : Unicode) (corpus : Corpus) (file : Nat) (text : String) (lines : FileSuppressions)
    (info : NodeInfo) : Option FileSuppressions :=
  if (afterText "comment".toList info.kind.toList).isNone then some lines
  else do
    let comment ← slice text info.start info.stop
    match parseDirective unicode comment with
    | none => return lines
    | some directive =>
      let first ← corpus.position file info.start
      let last ← corpus.position file (info.stop - 1)
      return (List.range' first.line (last.line + 2 - first.line)).foldl
        (suppressLine directive ⟨first.line, oneLine comment⟩) lines

def suppressFile (unicode : Unicode) (corpus : Corpus) (entry : SourceFile × Nat) : Option FileSuppressions :=
  entry.1.nodes.foldlM (suppressNode unicode corpus entry.2 entry.1.text) ∅

def collectSuppressions (unicode : Unicode) (corpus : Corpus) : Option (List FileSuppressions) :=
  corpus.files.zipIdx.mapM (suppressFile unicode corpus)

/-- The comment that suppresses a rule on a line; a bare directive comes first. -/
def FileSuppressions.source (lines : FileSuppressions) (line : Nat) (rule : String) : Option CommentSource := do
  let entry ← lines[line]?
  entry.all.or entry.rules[rule]?

/-! ## Findings -/

def Value.node? : Value → Option NodeRef
  | .node ref => some ref
  | .text _ => none

/-- The text a message segment contributes, with the row's value on one line. -/
def messageSegment (lint : Lint) (columns : List String) (row : Row) (corpus : Corpus) :
    Segment → Except (Fault Error) String
  | .lit text => .ok text
  | .var var =>
    if var ∈ columns then do
      let value ← orPanic row[columns.idxOf var]?
      return oneLine (← orPanic (corpus.valueText value))
    else
      .error (.raised (.internal ("lint `" ++ lint.relation ++ "` message variable `" ++ var ++
        "` survived checking without a relation column")))

def renderMessage (lint : Lint) (columns : List String) (row : Row) (corpus : Corpus) :
    Except (Fault Error) String := do
  let parts ← tryCollect (messageSegment lint columns row corpus) lint.message.segments
  return String.join parts

/-- A finding before suppression, with the index of its file. -/
structure Candidate where
  finding : Finding
  file : Nat

def candidateOf (corpus : Corpus) (lint : Lint) (columns : List String) (row : Row) : Except (Fault Error) Candidate :=
  match row.findSome? Value.node? with
  | none => .error (.raised (.lintNoNode lint.relation lint.line))
  | some ref => do
    let info ← orPanic (corpus.nodeInfo ref)
    let start ← orPanic (corpus.position ref.file info.start)
    let stop ← orPanic (corpus.position ref.file info.stop)
    let message ← renderMessage lint columns row corpus
    let file ← orPanic corpus.files[ref.file]?
    let text ← orPanic (corpus.nodeText ref)
    return {
      finding := {
        rule := lint.relation, severity := lint.severity, message, file := file.path, line := start.line,
        column := start.column, endLine := stop.line, endColumn := stop.column, text := oneLine text }
      file := ref.file }

def lintCandidates (corpus : Corpus) (db : Database) (lint : Lint) : Except (Fault Error) (List Candidate) :=
  match db.relations[lint.relation]? with
  | none => .error (.raised (.internal ("lint relation `" ++ lint.relation ++ "` missing from database")))
  | some relation => tryCollect (candidateOf corpus lint relation.columns) relation.rows

/-- The components `PathBuf` compares: the root, `.` at the start, `..` and names. -/
def pathKey (path : String) : List (Nat ×ₗ String) :=
  let parts := path.toList.splitOn '/'
  let start := if path.toList.head? = some '/' then [toLex (0, "")]
    else if parts.head? = some ['.'] then [toLex (1, "")] else []
  start ++ parts.filterMap fun part =>
    if part.isEmpty || part = ['.'] then none
    else if part = ['.', '.'] then some (toLex (2, "")) else some (toLex (3, String.ofList part))

def Finding.key (finding : Finding) : List (Nat ×ₗ String) ×ₗ Nat ×ₗ Nat ×ₗ String :=
  toLex (pathKey finding.file, toLex (finding.line, toLex (finding.column, finding.rule)))

/-- Keeps a finding unless a comment suppresses it. -/
def unsuppressed (suppressions : List FileSuppressions) (candidate : Candidate) :
    Except (Fault Error) (Option Finding) := do
  let lines ← orPanic suppressions[candidate.file]?
  match lines.source candidate.finding.line candidate.finding.rule with
  | some _ => return none
  | none => return some candidate.finding

/-- The findings of all lints, sorted by file, line, column and rule. -/
def findings (unicode : Unicode) (program : Program) (corpus : Corpus) (db : Database) :
    Except (Fault Error) (List Finding) := do
  let suppressions ← orPanic (collectSuppressions unicode corpus)
  let candidates ← tryCollect (lintCandidates corpus db) program.lints
  let kept ← tryCollect (unsuppressed suppressions) candidates.flatten
  return (kept.filterMap id).insertionSort fun left right => left.key ≤ right.key

end Index.Astlog
