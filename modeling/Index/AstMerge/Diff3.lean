import Index.AstMerge.Region

/-! # The line merge is a diff3 merge

Every iteration of `based` copies stable lines and settles one region.  The chunks of a run cut the base
and both sides into pieces, their hunks are the classes of touching hunks, and the result is read off the
chunks, so that exchanging the sides exchanges nothing but the sides of conflicts. -/

namespace Index.AstMerge

open Index.Lib List

/-! ## Chunks -/

/-- Stable lines and the region after them: its segment of each text, where that starts, and its hunks. -/
structure Chunk where
  stable : List String
  start : Nat
  base : List String
  leftStart : Nat
  left : List String
  rightStart : Nat
  right : List String
  leftHunks : List Hunk
  rightHunks : List Hunk

def unlines (lines : List String) : String := String.join (lines.map (· ++ "\n"))

/-- The three versions of a region between conflict marks. -/
def conflictBlock (base left right : List String) : String :=
  "<<<<<<< LEFT\n" ++ unlines left ++ "||||||| BASE\n" ++ unlines base ++ "=======\n" ++ unlines right ++
    ">>>>>>> RIGHT\n"

namespace Chunk

def stop (chunk : Chunk) : Nat := chunk.start + chunk.base.length

/-- The hunks of a region, of both sides. -/
def members (chunk : Chunk) : Set Hunk := {hunk | hunk ∈ chunk.leftHunks ++ chunk.rightHunks}

/-- What a region is settled with: the side that changed, or the change both made. -/
def settled (chunk : Chunk) : Option (List String) :=
  if chunk.left = chunk.right ∨ chunk.right = chunk.base then some chunk.left
  else if chunk.left = chunk.base then some chunk.right
  else none

def block (chunk : Chunk) : String := conflictBlock chunk.base chunk.left chunk.right

/-- The text a chunk contributes. -/
def output (chunk : Chunk) : String :=
  unlines chunk.stable ++ match chunk.settled with
    | some lines => unlines lines
    | none => chunk.block

def conflict (chunk : Chunk) : Conflict where
  base := if chunk.base.isEmpty then none else some ⟨chunk.start, chunk.stop, "\n".intercalate chunk.base⟩
  left := ⟨chunk.leftStart, chunk.leftStart + chunk.left.length, "\n".intercalate chunk.left⟩
  right := ⟨chunk.rightStart, chunk.rightStart + chunk.right.length, "\n".intercalate chunk.right⟩

/-- The conflict a chunk reports, if it is not settled. -/
def conflicts (chunk : Chunk) : List Conflict := if chunk.settled.isNone then [chunk.conflict] else []

end Chunk

theorem pushLines_eq (output : String) (lines : List String) : pushLines output lines = output ++ unlines lines := by
  unfold pushLines
  induction lines generalizing output with
  | nil => simp [unlines]
  | cons line lines ih =>
    rw [foldl_cons, ih]
    simp [unlines, String.join_cons, String.append_assoc]

theorem pushConflict_eq (output : String) (base left right : List String) :
    pushConflict output base left right = output ++ conflictBlock base left right := by
  unfold pushConflict conflictBlock
  -- the marks are opaque here: unifying with a long literal is slow
  simp only [pushLines_eq, String.append_assoc]

/-- What a region is settled with, in the order in which the loop asks. -/
theorem Chunk.settled_eq (chunk : Chunk) : chunk.settled =
    if chunk.left = chunk.right then some chunk.left else if chunk.left = chunk.base then some chunk.right
    else if chunk.right = chunk.base then some chunk.left else none := by
  rw [settled]
  split_ifs <;> simp_all

/-- The loop emits the output and the conflict of a chunk. -/
theorem emit_chunk (chunk : Chunk) (output : String) (conflicts : List Conflict) :
    emit (pushLines output chunk.stable) conflicts chunk.start chunk.stop chunk.leftStart
        (chunk.leftStart + chunk.left.length) chunk.rightStart (chunk.rightStart + chunk.right.length)
        chunk.base chunk.left chunk.right =
      (output ++ chunk.output, conflicts ++ chunk.conflicts) := by
  simp only [emit, Chunk.output, Chunk.conflicts, chunk.settled_eq, pushConflict_eq, pushLines_eq, String.append_assoc]
  split_ifs <;> simp_all [Chunk.conflict, Chunk.block]

/-! ## One iteration -/

variable {α : Type*}

theorem drop_eq_segment (items : List α) {start stop : Nat} (ordered : start ≤ stop) :
    items.drop start = (items.drop start).take (stop - start) ++ items.drop stop := by
  conv_lhs => rw [← take_append_drop (stop - start) (items.drop start), drop_drop, Nat.add_sub_cancel' ordered]

theorem drop_eq_skipped (items : List α) (start length : Nat) :
    (items.drop start).take length ++ items.drop (start + length) = items.drop start := by
  rw [← drop_drop, take_append_drop]

theorem add_length_segment {items : List α} {start stop : Nat} (ordered : start ≤ stop) (inside : stop ≤ items.length) :
    start + ((items.drop start).take (stop - start)).length = stop := by
  rw [length_take, length_drop]
  omega

variable {base leftLines rightLines : List String} {next : Nat}

/-- A cursor that has taken its hunks of a region finds its end of it, aligned with the region's end. -/
theorem SideCursor.regionEnd_aligned {side : List String} {stop pos : Nat} {taken rest : List Hunk}
    (script : Script base side next pos (taken ++ rest)) (forward : next ≤ stop) (inside : stop ≤ base.length)
    (within : ∀ hunk ∈ taken, hunk.base.stop ≤ stop) (beyond : StartsAfter stop rest) :
    ∃ sideEnd, SideCursor.regionEnd ⟨rest, taken.getLast?, pos⟩ next stop = some sideEnd ∧ pos ≤ sideEnd ∧
      Script base side stop sideEnd rest := by
  obtain ⟨ran, advanced⟩ := script.run
  have before : ∀ hunk ∈ rest, stop ≤ hunk.base.start := fun hunk member => (beyond hunk member).le
  cases last : taken.getLast? with
  | none =>
    rw [last] at ran
    exact ⟨pos + (stop - next), by simp [regionEnd, checkedSub_of_le forward], by omega, (ran.skip forward inside before).1⟩
  | some hunk =>
    rw [last] at ran advanced
    have reached := within hunk (mem_of_getLast? last)
    exact ⟨hunk.side.stop + (stop - hunk.base.stop), by simp [regionEnd, checkedSub_of_le reached],
      by simp only [Script.after] at advanced; omega, (ran.skip reached inside before).1⟩

/-- A side's part of a region: where it ends, and what it has of the side. -/
theorem SideCursor.region {side : List String} {cursor pos stop : Nat} {hunks taken : List Hunk} {after : SideCursor}
    (script : Script base side cursor pos hunks) (split : hunks = taken ++ after.rest) (forward : cursor ≤ next) (reached : next ≤ base.length)
    (before : ∀ hunk ∈ hunks, next ≤ hunk.base.start) (stands : after.last = taken.getLast? ∧ after.pos = pos + (next - cursor))
    (regionForward : next ≤ stop) (inside : stop ≤ base.length) (within : ∀ hunk ∈ taken, hunk.base.stop ≤ stop)
    (beyond : StartsAfter stop after.rest) :
    ∃ segment, after.regionEnd next stop = some (after.pos + segment.length) ∧
      subslice side after.pos (after.pos + segment.length) = some segment ∧ Script base side stop (after.pos + segment.length) after.rest ∧
      side.drop pos = (base.drop cursor).take (next - cursor) ++ segment ++ side.drop (after.pos + segment.length) := by
  obtain ⟨rest, last, _⟩ := after
  obtain ⟨rfl, rfl⟩ := stands
  subst split
  obtain ⟨script, stable⟩ := script.skip forward reached before
  obtain ⟨sideEnd, isEnd, ordered, later⟩ := regionEnd_aligned script regionForward inside within beyond
  have length := add_length_segment ordered later.side_inside
  refine ⟨(side.drop (pos + (next - cursor))).take (sideEnd - (pos + (next - cursor))), ?_⟩
  simp only [length]
  refine ⟨isEnd, subslice_eq ordered later.side_inside, later, ?_⟩
  rw [append_assoc, ← drop_eq_segment side ordered, stable, drop_eq_skipped]

/-- What the parts of an iteration compute: the stable lines, the grown region and its chunk. -/
structure Forms (base leftLines rightLines : List String) (walk : Walk) (chunk : Chunk) (left right : SideCursor) :
    Prop where
  stable : subslice base walk.cursor chunk.start = some chunk.stable
  forward : walk.cursor ≤ chunk.start
  grown : grow (walk.left.rest.length + walk.right.rest.length + 1)
    ⟨walk.left.rest, none, walk.left.pos + (chunk.start - walk.cursor)⟩
    ⟨walk.right.rest, none, walk.right.pos + (chunk.start - walk.cursor)⟩ chunk.start = some (left, right, chunk.stop)
  leftStart : left.pos = chunk.leftStart
  rightStart : right.pos = chunk.rightStart
  leftEnd : left.regionEnd chunk.start chunk.stop = some (chunk.leftStart + chunk.left.length)
  rightEnd : right.regionEnd chunk.start chunk.stop = some (chunk.rightStart + chunk.right.length)
  base : subslice base chunk.start chunk.stop = some chunk.base
  left : subslice leftLines chunk.leftStart (chunk.leftStart + chunk.left.length) = some chunk.left
  right : subslice rightLines chunk.rightStart (chunk.rightStart + chunk.right.length) = some chunk.right

/-- The walk after a chunk. -/
def Walk.after (walk : Walk) (chunk : Chunk) (left right : SideCursor) : Walk where
  output := walk.output ++ chunk.output
  conflicts := walk.conflicts ++ chunk.conflicts
  cursor := chunk.stop
  left := { left with pos := chunk.leftStart + chunk.left.length }
  right := { right with pos := chunk.rightStart + chunk.right.length }

variable {walk : Walk} {chunk : Chunk} {right : SideCursor}

theorem Forms.mergeRegion_eq {left : SideCursor} (forms : Forms base leftLines rightLines walk chunk left right) :
    mergeRegion base leftLines rightLines walk chunk.start = some (walk.after chunk left right) := by
  simp only [mergeRegion, forms.stable, checkedSub_of_le forms.forward, forms.grown, forms.leftEnd, forms.rightEnd,
    forms.base, forms.leftStart, forms.rightStart, forms.left, forms.right, Option.bind_eq_bind, Option.bind_some,
    emit_chunk, Option.pure_def, Walk.after]

/-- Both cursors stand where the walk stands in the base. -/
structure Aligned (base leftLines rightLines : List String) (walk : Walk) : Prop where
  left : Script base leftLines walk.cursor walk.left.pos walk.left.rest
  right : Script base rightLines walk.cursor walk.right.pos walk.right.rest

/-- What an iteration establishes: a chunk of the three texts and of both scripts, the hunks a cluster
with nothing left to absorb. -/
structure Settles (base leftLines rightLines : List String) (walk : Walk) (chunk : Chunk) (walk' : Walk) : Prop where
  aligned : Aligned base leftLines rightLines walk'
  base : base.drop walk.cursor = chunk.stable ++ chunk.base ++ base.drop walk'.cursor
  left : leftLines.drop walk.left.pos = chunk.stable ++ chunk.left ++ leftLines.drop walk'.left.pos
  right : rightLines.drop walk.right.pos = chunk.stable ++ chunk.right ++ rightLines.drop walk'.right.pos
  leftHunks : walk.left.rest = chunk.leftHunks ++ walk'.left.rest
  rightHunks : walk.right.rest = chunk.rightHunks ++ walk'.right.rest
  cluster : Cluster (fun hunk : Hunk => hunk.base.start) (fun hunk : Hunk => hunk.base.stop) chunk.members chunk.start
    chunk.stop
  beyond : StartsAfter chunk.stop (walk'.left.rest ++ walk'.right.rest)
  nonempty : chunk.leftHunks ++ chunk.rightHunks ≠ []

theorem nextStart_eq_none {left : SideCursor} (ended : nextStart left right = none) : left.rest = [] ∧ right.rest = [] := by
  obtain ⟨leftRest, leftLast, leftPos⟩ := left
  obtain ⟨rightRest, rightLast, rightPos⟩ := right
  cases leftRest <;> cases rightRest <;> simp_all [nextStart, SideCursor.peekStart]

/-- The next region starts at a hunk, and no hunk starts before it. -/
theorem nextStart_eq_some {left : SideCursor} {basePos leftPos rightPos : Nat}
    (leftScript : Script base leftLines basePos leftPos left.rest)
    (rightScript : Script base rightLines basePos rightPos right.rest) (found : nextStart left right = some next) :
    (∃ hunk ∈ left.rest ++ right.rest, hunk.base.start = next) ∧
      (∀ hunk ∈ left.rest, next ≤ hunk.base.start) ∧ ∀ hunk ∈ right.rest, next ≤ hunk.base.start := by
  obtain ⟨leftRest, _, _⟩ := left
  obtain ⟨rightRest, _, _⟩ := right
  -- from its first hunk on, the hunks of a side start no earlier than that
  have sorted : ∀ {side : List String} {sidePos : Nat} {first : Hunk} {rest : List Hunk},
      Script base side basePos sidePos (first :: rest) → ∀ hunk ∈ first :: rest, first.base.start ≤ hunk.base.start := by
    intro side sidePos first rest script hunk member
    cases script with
    | edit baseOrder _ _ later =>
      rcases mem_cons.mp member with rfl | inside
      · exact le_rfl
      · have := later.ordered hunk inside
        omega
  rcases leftRest with _ | ⟨first, rest⟩ <;> rcases rightRest with _ | ⟨other, others⟩ <;> cases found
  · exact ⟨⟨other, by simp, rfl⟩, nofun, sorted rightScript⟩
  · exact ⟨⟨first, by simp, rfl⟩, sorted leftScript, nofun⟩
  · refine ⟨?_, fun hunk member => (min_le_left _ _).trans (sorted leftScript hunk member),
      fun hunk member => (min_le_right _ _).trans (sorted rightScript hunk member)⟩
    rcases min_choice first.base.start other.base.start with earlier | earlier
    · exact ⟨first, by simp, earlier.symm⟩
    · exact ⟨other, by simp, earlier.symm⟩

/-- An iteration from aligned cursors forms a chunk and settles it. -/
theorem Aligned.forms (aligned : Aligned base leftLines rightLines walk) (found : nextStart walk.left walk.right = some next) :
    ∃ chunk left right, chunk.start = next ∧ Forms base leftLines rightLines walk chunk left right ∧
      Settles base leftLines rightLines walk chunk (walk.after chunk left right) := by
  obtain ⟨⟨first, firstMember, firstStart⟩, leftBefore, rightBefore⟩ := nextStart_eq_some aligned.left aligned.right found
  have firstOrdered := starts_ordered aligned.left aligned.right first firstMember
  have forward : walk.cursor ≤ next := by omega
  have reached : next ≤ base.length := by omega
  -- both cursors move over the stable lines
  obtain ⟨left, right, stop, grown⟩ : ∃ left right stop, grow (walk.left.rest.length + walk.right.rest.length + 1)
      ⟨walk.left.rest, none, walk.left.pos + (next - walk.cursor)⟩
      ⟨walk.right.rest, none, walk.right.pos + (next - walk.cursor)⟩ next = some (left, right, stop) :=
    grow_isSome (Nat.lt_succ_self _)
  obtain ⟨leftTaken, rightTaken, leftSplit, rightSplit, leftStands, rightStands, regionForward, regionInside, within, beyond, cluster⟩ :=
    grow_beyond (aligned.left.skip forward reached leftBefore).1 (aligned.right.skip forward reached rightBefore).1 grown
  dsimp only at leftSplit rightSplit
  obtain ⟨leftWithin, rightWithin⟩ := forall_mem_append.mp within
  -- the region's first hunk cannot be left over
  have firstTaken : first ∈ leftTaken ++ rightTaken := by
    simp only [leftSplit, rightSplit, mem_append] at firstMember ⊢
    rcases firstMember with (taken | rest) | (taken | rest)
    · exact .inl taken
    · exact absurd (beyond.1 first rest) (by omega)
    · exact .inr taken
    · exact absurd (beyond.2 first rest) (by omega)
  obtain ⟨leftSegment, leftEnd, leftSlice, leftLater, leftCut⟩ :=
    SideCursor.region aligned.left leftSplit forward reached leftBefore leftStands regionForward regionInside leftWithin beyond.1
  obtain ⟨rightSegment, rightEnd, rightSlice, rightLater, rightCut⟩ :=
    SideCursor.region aligned.right rightSplit forward reached rightBefore rightStands regionForward regionInside rightWithin beyond.2
  obtain ⟨segment, rfl, slice, cut⟩ : ∃ segment : List String, stop = next + segment.length ∧ subslice base next stop = some segment ∧
      base.drop next = segment ++ base.drop stop :=
    ⟨_, (add_length_segment regionForward regionInside).symm, subslice_eq regionForward regionInside, drop_eq_segment base regionForward⟩
  refine ⟨⟨(base.drop walk.cursor).take (next - walk.cursor), next, segment, left.pos, leftSegment, right.pos, rightSegment, leftTaken,
    rightTaken⟩, left, right, rfl, ⟨subslice_eq forward reached, forward, grown, rfl, rfl, leftEnd, rightEnd, slice, leftSlice, rightSlice⟩,
    ⟨⟨leftLater, rightLater⟩, ?_, leftCut, rightCut, leftSplit, rightSplit, cluster.cluster firstTaken, forall_mem_append.mpr beyond,
      ne_nil_of_mem firstTaken⟩⟩
  refine (drop_eq_segment base forward).trans ?_
  rw [cut, append_assoc]
  rfl

/-! ## Runs -/

/-- A run of the loop, with the chunks it forms. -/
inductive Runs (base leftLines rightLines : List String) : Walk → List Chunk → Walk → Prop
  | done {walk : Walk} (ended : nextStart walk.left walk.right = none) (aligned : Aligned base leftLines rightLines walk) :
      Runs base leftLines rightLines walk [] walk
  | region {walk final : Walk} {chunk : Chunk} {chunks : List Chunk} {left right : SideCursor}
      (found : nextStart walk.left walk.right = some chunk.start) (aligned : Aligned base leftLines rightLines walk)
      (forms : Forms base leftLines rightLines walk chunk left right)
      (settles : Settles base leftLines rightLines walk chunk (walk.after chunk left right))
      (later : Runs base leftLines rightLines (walk.after chunk left right) chunks final) :
      Runs base leftLines rightLines walk (chunk :: chunks) final

/-- Every chunk takes a hunk, so the loop ends. -/
theorem Aligned.runs (aligned : Aligned base leftLines rightLines walk) :
    ∃ chunks final, Runs base leftLines rightLines walk chunks final ∧
      chunks.length ≤ walk.left.rest.length + walk.right.rest.length := by
  induction size : walk.left.rest.length + walk.right.rest.length using Nat.strong_induction_on generalizing walk with
  | h size' ih =>
    cases found : nextStart walk.left walk.right with
    | none => exact ⟨[], walk, .done found aligned, Nat.zero_le _⟩
    | some next =>
      obtain ⟨chunk, left, right, rfl, forms, settles⟩ := aligned.forms found
      have leftLength := congrArg List.length settles.leftHunks
      have rightLength := congrArg List.length settles.rightHunks
      have taken := length_pos_iff.mpr settles.nonempty
      rw [length_append] at leftLength rightLength taken
      obtain ⟨chunks, final, later, short⟩ := ih _ (by omega) settles.aligned rfl
      refine ⟨chunk :: chunks, final, .region found aligned forms settles later, ?_⟩
      rw [length_cons]
      omega

variable {walk final : Walk} {chunks : List Chunk}

section

variable (runs : Runs base leftLines rightLines walk chunks final)
include runs

theorem Runs.mergeRegions_eq {fuel : Nat} (enough : chunks.length < fuel) :
    mergeRegions base leftLines rightLines fuel walk = some final := by
  induction runs generalizing fuel with
  | done ended =>
    obtain _ | fuel := fuel
    · omega
    · rw [mergeRegions, ended]
  | region found _ forms _ _ ih =>
    obtain _ | fuel := fuel
    · omega
    · rw [mergeRegions, found]
      simp only [forms.mergeRegion_eq]
      exact ih (by rw [length_cons] at enough; omega)

/-- The text and the conflicts of a run are those of its chunks. -/
theorem Runs.output : final.output = walk.output ++ String.join (chunks.map Chunk.output) ∧
      final.conflicts = walk.conflicts ++ chunks.flatMap Chunk.conflicts := by
  induction runs with
  | done => simp
  | region _ _ _ _ _ ih =>
    obtain ⟨output, conflicts⟩ := ih
    rw [output, conflicts]
    simp only [Walk.after, map_cons, String.join_cons, flatMap_cons, String.append_assoc, append_assoc,
      and_self]

/-- At the end of a run nothing but the same lines is left of all three texts. -/
theorem Runs.final_tail : final.cursor ≤ base.length ∧ base.drop final.cursor = leftLines.drop final.left.pos ∧
      base.drop final.cursor = rightLines.drop final.right.pos ∧ final.left.rest = [] ∧ final.right.rest = [] := by
  induction runs with
  | done ended aligned =>
    obtain ⟨leftEmpty, rightEmpty⟩ := nextStart_eq_none ended
    obtain ⟨inside, -, leftSame⟩ := leftEmpty ▸ aligned.left
    obtain ⟨-, -, rightSame⟩ := rightEmpty ▸ aligned.right
    exact ⟨inside, leftSame, rightSame, leftEmpty, rightEmpty⟩
  | region _ _ _ _ _ ih => exact ih

/-- The chunks of a run cut the texts and the scripts from where it starts to where it ends. -/
theorem Runs.pieces : base.drop walk.cursor = chunks.flatMap (fun chunk => chunk.stable ++ chunk.base) ++ base.drop final.cursor ∧
      leftLines.drop walk.left.pos =
        chunks.flatMap (fun chunk => chunk.stable ++ chunk.left) ++ leftLines.drop final.left.pos ∧
      rightLines.drop walk.right.pos =
        chunks.flatMap (fun chunk => chunk.stable ++ chunk.right) ++ rightLines.drop final.right.pos ∧
      walk.left.rest = chunks.flatMap Chunk.leftHunks ++ final.left.rest ∧
      walk.right.rest = chunks.flatMap Chunk.rightHunks ++ final.right.rest := by
  induction runs with
  | done => simp
  | region _ _ _ settles _ ih =>
    obtain ⟨baseLater, leftLater, rightLater, leftHunks, rightHunks⟩ := ih
    simp only [flatMap_cons, append_assoc]
    refine ⟨?_, ?_, ?_, ?_, ?_⟩
    · rw [settles.base, baseLater, append_assoc]
    · rw [settles.left, leftLater, append_assoc]
    · rw [settles.right, rightLater, append_assoc]
    · rw [settles.leftHunks, leftHunks]
    · rw [settles.rightHunks, rightHunks]

/-- The chunks are separated clusters. -/
theorem Runs.clusters :
    (∀ chunk ∈ chunks, Cluster (fun hunk : Hunk => hunk.base.start) (fun hunk : Hunk => hunk.base.stop) chunk.members
      chunk.start chunk.stop ∧ chunk.leftHunks ++ chunk.rightHunks ≠ []) ∧
      chunks.Pairwise fun earlier later => earlier.stop < later.start := by
  induction runs with
  | done => exact ⟨nofun, .nil⟩
  | @region walk final chunk chunks left right _ _ _ settles later ih =>
    refine ⟨forall_mem_cons.mpr ⟨⟨settles.cluster, settles.nonempty⟩, ih.1⟩,
      pairwise_cons.mpr ⟨fun other member => ?_, ih.2⟩⟩
    -- a later chunk starts with a hunk this one has not absorbed
    obtain ⟨otherCluster, otherNonempty⟩ := ih.1 other member
    obtain ⟨-, -, -, leftHunks, rightHunks⟩ := later.pieces
    obtain ⟨covering, coveringMember, starts, -⟩ := otherCluster.covers other.start le_rfl (Nat.le_add_right _ _)
    refine (settles.beyond covering ?_).trans_le starts
    rw [leftHunks, rightHunks]
    simp only [Chunk.members, Set.mem_ofPred_eq, mem_append, mem_flatMap] at coveringMember ⊢
    exact coveringMember.imp (fun ofLeft => .inl ⟨other, member, ofLeft⟩) fun ofRight => .inl ⟨other, member, ofRight⟩

theorem Runs.located : ∀ chunk ∈ chunks,
    subslice base chunk.start chunk.stop = some chunk.base ∧
      subslice leftLines chunk.leftStart (chunk.leftStart + chunk.left.length) = some chunk.left ∧
      subslice rightLines chunk.rightStart (chunk.rightStart + chunk.right.length) = some chunk.right := by
  induction runs with
  | done => nofun
  | region _ _ forms _ _ ih =>
    exact forall_mem_cons.mpr ⟨⟨forms.base, forms.left, forms.right⟩, ih⟩

end

/-! ## Exchanging the sides -/

/-- The chunk with its sides exchanged. -/
def Chunk.swap (chunk : Chunk) : Chunk :=
  ⟨chunk.stable, chunk.start, chunk.base, chunk.rightStart, chunk.right, chunk.leftStart, chunk.left, chunk.rightHunks,
    chunk.leftHunks⟩

/-- The same place, with the cursors exchanged. -/
structure Swapped (walk walk' : Walk) : Prop where
  cursor : walk'.cursor = walk.cursor
  left : walk'.left = walk.right
  right : walk'.right = walk.left

theorem Chunk.swap_members (chunk : Chunk) : chunk.swap.members = chunk.members := by
  ext hunk
  simp only [Chunk.members, Chunk.swap, mem_append, Set.mem_ofPred_eq]
  exact or_comm

theorem Chunk.swap_settled (chunk : Chunk) : chunk.swap.settled = chunk.settled := by
  rw [settled_eq, settled_eq, swap]
  split_ifs <;> simp_all

theorem Chunk.swap_output (settled : chunk.settled.isSome) : chunk.swap.output = chunk.output := by
  obtain ⟨lines, known⟩ := Option.isSome_iff_exists.mp settled
  simp only [Chunk.output, chunk.swap_settled, known]
  rfl

theorem nextStart_comm (left right : SideCursor) : nextStart left right = nextStart right left := by
  unfold nextStart
  cases left.peekStart <;> cases right.peekStart <;> simp [min_comm]

variable (output : String) (conflicts : List Conflict)

theorem Aligned.swap (aligned : Aligned base leftLines rightLines walk) :
    Aligned base rightLines leftLines ⟨output, conflicts, walk.cursor, walk.right, walk.left⟩ := ⟨aligned.right, aligned.left⟩

theorem Forms.swap {left : SideCursor} (aligned : Aligned base leftLines rightLines walk)
    (found : nextStart walk.left walk.right = some chunk.start) (forms : Forms base leftLines rightLines walk chunk left right) :
    Forms base rightLines leftLines ⟨output, conflicts, walk.cursor, walk.right, walk.left⟩ chunk.swap right left where
  stable := forms.stable
  forward := forms.forward
  grown := by
    obtain ⟨⟨first, firstMember, firstStart⟩, leftBefore, rightBefore⟩ :=
      nextStart_eq_some aligned.left aligned.right found
    have firstOrdered := starts_ordered aligned.left aligned.right first firstMember
    have reached : chunk.start ≤ base.length := by omega
    rw [Nat.add_comm walk.right.rest.length]
    exact grow_swap (aligned.left.skip forms.forward reached leftBefore).1
      (aligned.right.skip forms.forward reached rightBefore).1 (Nat.lt_succ_self _) forms.grown
  leftStart := forms.rightStart
  rightStart := forms.leftStart
  leftEnd := forms.rightEnd
  rightEnd := forms.leftEnd
  base := forms.base
  left := forms.right
  right := forms.left

theorem Settles.swap {left : SideCursor} (settles : Settles base leftLines rightLines walk chunk (walk.after chunk left right)) :
    Settles base rightLines leftLines ⟨output, conflicts, walk.cursor, walk.right, walk.left⟩ chunk.swap
      (Walk.after ⟨output, conflicts, walk.cursor, walk.right, walk.left⟩ chunk.swap right left) where
  aligned := settles.aligned.swap _ _
  base := settles.base
  left := settles.right
  right := settles.left
  leftHunks := settles.rightHunks
  rightHunks := settles.leftHunks
  cluster := by rw [chunk.swap_members]; exact settles.cluster
  beyond hunk member := settles.beyond hunk (mem_append.mpr (mem_append.mp member).symm)
  nonempty := by
    have nonempty := settles.nonempty
    simp only [Chunk.swap, ne_eq, append_eq_nil_iff, not_and] at nonempty ⊢
    tauto

/-- The sides may be exchanged in a whole run. -/
theorem Runs.swap (runs : Runs base leftLines rightLines walk chunks final) :
    ∃ final', Runs base rightLines leftLines ⟨output, conflicts, walk.cursor, walk.right, walk.left⟩ (chunks.map Chunk.swap) final' ∧
      Swapped final final' := by
  induction runs generalizing output conflicts with
  | done ended aligned => exact ⟨_, .done (nextStart_comm _ _ ▸ ended) (aligned.swap _ _), rfl, rfl, rfl⟩
  | region found aligned forms settles _ ih =>
    obtain ⟨final', later, swapped⟩ := ih _ _
    exact ⟨final', .region (nextStart_comm _ _ ▸ found) (aligned.swap _ _) (forms.swap _ _ aligned found) (settles.swap _ _) later, swapped⟩

/-! ## The merge -/

/-- A diff3 merge: the chunks and the tail cut the three texts, the hunks of a chunk are a class of
hunks linked by touching, and every chunk stands where its segments are. -/
structure IsDiff3 (base left right : List String) (leftHunks rightHunks : List Hunk) (chunks : List Chunk)
    (tail : List String) : Prop where
  base_eq : chunks.flatMap (fun chunk => chunk.stable ++ chunk.base) ++ tail = base
  left_eq : chunks.flatMap (fun chunk => chunk.stable ++ chunk.left) ++ tail = left
  right_eq : chunks.flatMap (fun chunk => chunk.stable ++ chunk.right) ++ tail = right
  leftHunks_eq : chunks.flatMap Chunk.leftHunks = leftHunks
  rightHunks_eq : chunks.flatMap Chunk.rightHunks = rightHunks
  nonempty : ∀ chunk ∈ chunks, chunk.leftHunks ++ chunk.rightHunks ≠ []
  located : ∀ chunk ∈ chunks, subslice base chunk.start chunk.stop = some chunk.base ∧
    subslice left chunk.leftStart (chunk.leftStart + chunk.left.length) = some chunk.left ∧
    subslice right chunk.rightStart (chunk.rightStart + chunk.right.length) = some chunk.right
  grouped : ∀ first ∈ leftHunks ++ rightHunks, ∀ second,
    (∃ chunk ∈ chunks, first ∈ chunk.members ∧ second ∈ chunk.members) ↔
      Linked (fun hunk : Hunk => hunk.base.start) (fun hunk : Hunk => hunk.base.stop)
        {hunk | hunk ∈ leftHunks ++ rightHunks} first second

/-- The result read off the chunks and the tail. -/
def resultOf (chunks : List Chunk) (tail : List String) : Result where
  content := String.join (chunks.map Chunk.output) ++ unlines tail
  conflicts := chunks.flatMap Chunk.conflicts
  success := chunks.all fun chunk => chunk.settled.isSome

theorem conflicts_eq_nil_iff (chunks : List Chunk) :
    chunks.flatMap Chunk.conflicts = [] ↔ ∀ chunk ∈ chunks, chunk.settled.isSome := by
  simp only [flatMap_eq_nil_iff, Chunk.conflicts]
  refine forall₂_congr fun chunk _ => ?_
  cases chunk.settled <;> simp

theorem Runs.isDiff3 {leftHunks rightHunks : List Hunk}
    (runs : Runs base leftLines rightLines ⟨"", [], 0, .new leftHunks, .new rightHunks⟩ chunks final) :
    IsDiff3 base leftLines rightLines leftHunks rightHunks chunks (base.drop final.cursor) := by
  obtain ⟨baseEq, leftEq, rightEq, leftHunksEq, rightHunksEq⟩ := runs.pieces
  obtain ⟨-, leftTail, rightTail, leftEnd, rightEnd⟩ := runs.final_tail
  obtain ⟨clusters, apart⟩ := runs.clusters
  simp only [SideCursor.new, drop_zero, leftEnd, rightEnd, append_nil] at baseEq leftEq rightEq leftHunksEq rightHunksEq
  have all : allMembers chunks Chunk.members = {hunk | hunk ∈ leftHunks ++ rightHunks} := by
    ext hunk
    simp only [allMembers, Chunk.members, leftHunksEq, rightHunksEq, Set.mem_ofPred_eq, mem_append, mem_flatMap, and_or_left, exists_or]
  refine ⟨baseEq.symm, ?_, ?_, leftHunksEq.symm, rightHunksEq.symm, fun chunk member => (clusters chunk member).2,
    runs.located, fun first member second => ?_⟩
  · rw [leftTail]
    exact leftEq.symm
  · rw [rightTail]
    exact rightEq.symm
  · rw [← all]
    exact same_cluster_iff (fun chunk inside => (clusters chunk inside).1) apart (all ▸ member)

variable {chunks : List Chunk}

theorem resultOf_swap {tail : List String} (settled : ∀ chunk ∈ chunks, chunk.settled.isSome) :
    resultOf (chunks.map Chunk.swap) tail = resultOf chunks tail := by
  have swappedSettled : ∀ chunk ∈ chunks.map Chunk.swap, chunk.settled.isSome :=
    forall_mem_map.mpr fun chunk member => chunk.swap_settled ▸ settled chunk member
  have outputs : (chunks.map Chunk.swap).map Chunk.output = chunks.map Chunk.output := by
    rw [map_map]
    exact map_congr_left fun chunk member => Chunk.swap_output (settled chunk member)
  simp only [resultOf, outputs, (conflicts_eq_nil_iff _).mpr settled, (conflicts_eq_nil_iff _).mpr swappedSettled,
    all_eq_true.mpr settled, all_eq_true.mpr swappedSettled]

/-- Past its early returns, `based` returns the result of the chunks of a run. -/
theorem Runs.based_eq {diff : Diff} {base left right : String} {final : Walk} (differ : left ≠ right)
    (leftChanged : base ≠ left) (rightChanged : base ≠ right)
    (runs : Runs (lines base) (lines left) (lines right)
      ⟨"", [], 0, .new (hunks diff (lines base) (lines left)), .new (hunks diff (lines base) (lines right))⟩ chunks final)
    (short : chunks.length ≤
      (hunks diff (lines base) (lines left)).length + (hunks diff (lines base) (lines right)).length) :
    based diff base left right = some (resultOf chunks ((lines base).drop final.cursor)) := by
  obtain ⟨output, conflicts⟩ := runs.output
  obtain ⟨inside, -, -, -, -⟩ := runs.final_tail
  simp only [based, if_neg differ, if_neg leftChanged, if_neg rightChanged, runs.mergeRegions_eq (Nat.lt_succ_of_le short),
    Option.bind_eq_bind, Option.bind_some, subslice_eq inside le_rfl, Option.pure_def, output, conflicts, pushLines_eq,
    String.empty_append, nil_append, List.isEmpty_iff, conflicts_eq_nil_iff, resultOf]
  rw [← length_drop, take_length]
  by_cases settled : ∀ chunk ∈ chunks, chunk.settled.isSome
  · rw [if_pos settled, Result.successful, (conflicts_eq_nil_iff chunks).mpr settled, all_eq_true.mpr settled]
  · rw [if_neg settled, Result.withConflicts, Bool.eq_false_iff.mpr (fun all => settled (all_eq_true.mp all))]

def appendDiff : Diff := fun _ side =>
  if side = ["a", "B", "c"] then [.equal 0 0 1, .replace 1 1 1 1, .equal 2 2 1] else [.equal 0 0 3, .insert 3 3 1]

end Index.AstMerge
