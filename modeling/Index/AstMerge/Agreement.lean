import Index.AstMerge.Joint

/-! # The two line mergers

`inner` compares only what both sides insert at the same base index, so it accepts groups of touching
edits that `based` reports as conflicts: one side deletes a line that the other edits, or inserts before a
line that the other replaces.  The mergers agree when in every group of touching hunks of both sides the
edits applied at once give the text the group is settled with. -/

namespace Index.AstMerge

open Index.Lib List

variable {base leftLines rightLines : List String} {walk final : Walk} {chunk : Chunk} {chunks : List Chunk}
  {left right : SideCursor}

/-! ## Chunks on which both agree -/

/-- The edits of both sides at once give what the chunk is settled with, unless only one side has any. -/
def Chunk.Compatible (leftLines rightLines : List String) (chunk : Chunk) : Prop :=
  chunk.leftHunks ≠ [] → chunk.rightHunks ≠ [] → chunk.settled = some (chunk.joint leftLines rightLines)

/-- A chunk of one side is settled with that side. -/
theorem Runs.settled_joint (runs : Runs base leftLines rightLines walk chunks final)
    (compatible : ∀ chunk ∈ chunks, chunk.Compatible leftLines rightLines) :
    ∀ chunk ∈ chunks, chunk.settled = some (chunk.joint leftLines rightLines) := by
  induction runs with
  | done => nofun
  | @region walk final chunk chunks left right found aligned forms settles later ih =>
    obtain ⟨here, there⟩ := forall_mem_cons.mp compatible
    refine forall_mem_cons.mpr ⟨?_, ih there⟩
    obtain ⟨leftSegment, rightSegment⟩ := forms.segments aligned settles
    by_cases leftIdle : chunk.leftHunks = []
    · rw [leftIdle, jointFrom_nil] at leftSegment
      rw [Chunk.joint, leftIdle, jointFrom_right, ← rightSegment, Chunk.settled]
      by_cases rightIdle : chunk.left = chunk.right ∨ chunk.right = chunk.base
      · rw [if_pos rightIdle, leftSegment]
        rcases rightIdle with same | same
        · rw [← same, leftSegment]
        · rw [same]
      · rw [if_neg rightIdle, if_pos leftSegment]
    · by_cases rightIdle : chunk.rightHunks = []
      · rw [rightIdle, jointFrom_nil] at rightSegment
        rw [Chunk.joint, rightIdle, jointFrom_left, ← leftSegment, Chunk.settled, if_pos (.inr rightSegment)]
      · exact here leftIdle rightIdle

/-- When both sides are the same text with the same edits, so are their segments. -/
theorem Runs.same_sides (runs : Runs base leftLines leftLines walk chunks final) (same : walk.left = walk.right) :
    ∀ chunk ∈ chunks, chunk.left = chunk.right := by
  induction runs with
  | done => nofun
  | @region walk final chunk chunks left right found aligned forms settles later ih =>
    have grown := forms.grown
    have swapped := (forms.swap "" [] aligned found).grown
    simp only [same] at grown swapped
    obtain ⟨rfl, -⟩ : left = right ∧ _ := by simpa using grown.symm.trans swapped
    have starts : chunk.leftStart = chunk.rightStart := forms.leftStart.symm.trans forms.rightStart
    have ends := forms.leftEnd.symm.trans forms.rightEnd
    rw [Option.some.injEq] at ends
    have segments := forms.left
    rw [ends, starts, forms.right] at segments
    have agree : chunk.left = chunk.right := (Option.some.inj segments).symm
    refine forall_mem_cons.mpr ⟨agree, ih ?_⟩
    simp only [Walk.after, starts, agree]

/-! ## The lines of a merge -/

theorem unlines_append (first second : List String) : unlines (first ++ second) = unlines first ++ unlines second := by
  simp [unlines, String.join_append]

theorem join_outputs {texts : Chunk → List String} (settled : ∀ chunk ∈ chunks, chunk.settled = some (texts chunk)) :
    String.join (chunks.map Chunk.output) = unlines (chunks.flatMap fun chunk => chunk.stable ++ texts chunk) := by
  induction chunks with
  | nil => rfl
  | cons chunk chunks ih =>
    obtain ⟨here, later⟩ := forall_mem_cons.mp settled
    rw [map_cons, String.join_cons, ih later, flatMap_cons, unlines_append, unlines_append,
      Chunk.output, here]

/-- The result of settled chunks: a success with their lines. -/
theorem resultOf_settled {texts : Chunk → List String}
    (settled : ∀ chunk ∈ chunks, chunk.settled = some (texts chunk)) (tail : List String) :
    (resultOf chunks tail).success = true ∧
      (resultOf chunks tail).content = unlines (chunks.flatMap (fun chunk => chunk.stable ++ texts chunk) ++ tail) := by
  refine ⟨all_eq_true.mpr fun chunk member => by rw [settled chunk member]; rfl, ?_⟩
  rw [resultOf, join_outputs settled, unlines_append]

/-! ## Agreement -/

/-- `based` succeeds, with the lines that `inner` merges.  `based` ends every line and `inner` separates
them; either returns a text as it is when that wins outright. -/
def Agree (diff : Diff) (base left right : String) : Prop :=
  ∃ result merged, based diff base left right = some result ∧ result.success = true ∧
    (result.content = unlines merged ∨ lines result.content = merged) ∧
    ((inner diff base left right).content = "\n".intercalate merged ∨ lines (inner diff base left right).content = merged)

section

variable {diff : Diff} {base left right : String}

/-- The walk `based` starts with. -/
def startOf (diff : Diff) (base left right : String) : Walk :=
  ⟨"", [], 0, .new (hunks diff (lines base) (lines left)), .new (hunks diff (lines base) (lines right))⟩

/-- Two sides with the same lines: every chunk is settled with the left side, which is the whole merge. -/
theorem agree_of_same_lines {chunks : List Chunk} {final : Walk} (same : lines left = lines right)
    (runs : Runs (lines base) (lines left) (lines right) (startOf diff base left right) chunks final)
    (short : chunks.length ≤
      (hunks diff (lines base) (lines left)).length + (hunks diff (lines base) (lines right)).length) :
    Agree diff base left right ∧ ∀ chunk ∈ chunks, chunk.settled.isSome := by
  have verbatim : inner diff base left right = ⟨left, false⟩ := by simp only [inner, if_pos same]
  have isDiff3 := runs.isDiff3
  have settled : ∀ chunk ∈ chunks, chunk.settled = some chunk.left := by
    unfold startOf at runs
    rw [← same] at runs
    exact fun chunk member => if_pos (.inl (runs.same_sides rfl chunk member))
  refine ⟨?_, fun chunk member => by rw [settled chunk member]; rfl⟩
  by_cases agree : left = right
  · exact ⟨.successful left, lines left, by rw [based, if_pos agree], rfl, .inr rfl, .inr (by rw [verbatim])⟩
  by_cases leftSame : base = left
  · exact ⟨.successful right, lines left, by rw [based, if_neg agree, if_pos leftSame], rfl, .inr same.symm,
      .inr (by rw [verbatim])⟩
  by_cases rightSame : base = right
  · exact ⟨.successful left, lines left, by rw [based, if_neg agree, if_neg leftSame, if_pos rightSame], rfl, .inr rfl,
      .inr (by rw [verbatim])⟩
  obtain ⟨success, content⟩ := resultOf_settled settled ((lines base).drop final.cursor)
  rw [isDiff3.left_eq] at content
  exact ⟨_, lines left, runs.based_eq agree leftSame rightSame short, success, .inl content, .inr (by rw [verbatim])⟩

end

/-! The left side deletes a line that the right one edits. -/

def deleteDiff : Diff := fun base side =>
  if base = side then [.equal 0 0 base.length]
  else if side = ["a", "c"] then [.equal 0 0 1, .delete 1 1 1, .equal 2 1 1]
  else [.equal 0 0 1, .replace 1 1 1 1, .equal 2 2 1]

/-- Edits on different lines. -/
def disjointDiff : Diff := fun base side =>
  if base = side then [.equal 0 0 base.length]
  else if side = ["A", "b", "c"] then [.replace 0 1 0 1, .equal 1 1 2]
  else [.equal 0 0 2, .replace 2 1 2 1]

end Index.AstMerge
