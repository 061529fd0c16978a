import Index.EditApplier
import Index.Astlog.Eval

/-! # Rewrites

The bindings of a rewrite body, instantiated through its template into byte-range edits. -/

namespace Index.Astlog

open Index.Lib Index.EditApplier

/-- The text a template segment contributes. -/
def Corpus.segmentText (corpus : Corpus) (env : Env) (line : Nat) : Segment → Except (Fault Error) String
  | .lit text => .ok text
  | .var var =>
    match env[var]? with
    | none => .error (.raised (.templateVar var line))
    | some value => orPanic (corpus.valueText value)

def editOf (corpus : Corpus) (rewrite : Rewrite) (env : Env) : Except (Fault Error) Edit :=
  match env[rewrite.target]? with
  | none => .error (.raised (.templateVar rewrite.target rewrite.line))
  | some (.text _) => .error (.raised (.replaceNotNode rewrite.name rewrite.target))
  | some (.node ref) => do
    let parts ← tryCollect (corpus.segmentText env rewrite.template.line) rewrite.template.segments
    let info ← orPanic (corpus.nodeInfo ref)
    return { file := ref.file, start := info.start, stop := info.stop, replacement := String.join parts }

def overlapFault : Fault OverlapError → Fault Error
  | .raised error =>
    .raised (.overlappingEdits error.path error.firstStart error.firstEnd error.secondStart error.secondEnd)
  | .panicked => .panicked

namespace Evaluator

variable (evaluator : Evaluator)

def rewriteEdits (db : Database) (rewrite : Rewrite) : Except (Fault Error) (List Edit) := do
  let envs ← evaluator.bindings db rewrite.body
  tryCollect (editOf evaluator.corpus rewrite) envs

/-- The edits of all rewrites, sorted, without repetitions and checked for overlap. -/
def collect (db : Database) : Except (Fault Error) (List Edit) := do
  let found ← tryCollect (evaluator.rewriteEdits db) evaluator.program.rewrites
  let edits := dedupAdjacent (found.flatten.insertionSort (· ≤ ·))
  ((checkOverlaps (evaluator.corpus.files.map SourceFile.path) edits).mapError overlapFault)
  return edits

end Evaluator

end Index.Astlog
