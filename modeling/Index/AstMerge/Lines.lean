import Index.Lib.Rust
import Index.Lib.Text

/-! # Line merges

The two line mergers of `ast-merge`: `based`, a diff3 merge of whole files over hunks, and `inner`, which
merges function bodies line by line.  Both diff each side against the base; the diff itself is a
parameter.  `none` stands for a panic, and for a loop that does not end within its bound. -/

namespace Index.AstMerge

open Index.Lib

/-! ## Results -/

structure Region where
  start : Nat
  stop : Nat
  text : String
deriving DecidableEq

structure Conflict where
  base : Option Region
  left : Region
  right : Region
deriving DecidableEq

structure Result where
  content : String
  conflicts : List Conflict
  success : Bool
deriving DecidableEq

def Result.successful (content : String) : Result := ⟨content, [], true⟩

def Result.withConflicts (content : String) (conflicts : List Conflict) : Result := ⟨content, conflicts, false⟩

/-! ## Diffs -/

/-- `std::ops::Range<usize>` -/
structure Range where
  start : Nat
  stop : Nat
deriving DecidableEq

/-- An operation of the edit script from the base to a side. -/
inductive DiffOp where
  | equal (oldIndex newIndex len : Nat)
  | delete (oldIndex oldLen newIndex : Nat)
  | insert (oldIndex newIndex newLen : Nat)
  | replace (oldIndex oldLen newIndex newLen : Nat)
deriving DecidableEq

namespace DiffOp

def isEqual : DiffOp → Bool
  | equal .. => true
  | _ => false

def oldRange : DiffOp → Range
  | equal oldIndex _ len => ⟨oldIndex, oldIndex + len⟩
  | delete oldIndex oldLen _ => ⟨oldIndex, oldIndex + oldLen⟩
  | insert oldIndex _ _ => ⟨oldIndex, oldIndex⟩
  | replace oldIndex oldLen _ _ => ⟨oldIndex, oldIndex + oldLen⟩

def newRange : DiffOp → Range
  | equal _ newIndex len => ⟨newIndex, newIndex + len⟩
  | delete _ _ newIndex => ⟨newIndex, newIndex⟩
  | insert _ newIndex newLen => ⟨newIndex, newIndex + newLen⟩
  | replace _ _ newIndex newLen => ⟨newIndex, newIndex + newLen⟩

end DiffOp

/-- The line diff: from the base and a side to an edit script. -/
abbrev Diff := List String → List String → List DiffOp

/-- One side's edit to the base: the base lines it replaces and the lines of the side that replace them. -/
structure Hunk where
  base : Range
  side : Range
deriving DecidableEq

def hunks (diff : Diff) (base side : List String) : List Hunk :=
  ((diff base side).filter fun op => !op.isEqual).map fun op => ⟨op.oldRange, op.newRange⟩

def pushLines (output : String) (lines : List String) : String :=
  lines.foldl (fun output line => (output ++ line) ++ "\n") output

/-! ## The cursor of a side -/

structure SideCursor where
  /-- `hunks[next..]`: the hunks not consumed yet. -/
  rest : List Hunk
  last : Option Hunk
  pos : Nat

namespace SideCursor

def new (hunks : List Hunk) : SideCursor := ⟨hunks, none, 0⟩

def peekStart (side : SideCursor) : Option Nat := side.rest.head?.map fun hunk => hunk.base.start

/-- The loop of `consume`, with the end of the region and whether it grew. -/
def consumeHunks : List Hunk → Option Hunk → Nat → Bool → List Hunk × Option Hunk × Nat × Bool
  | [], last, stop, grew => ([], last, stop, grew)
  | hunk :: rest, last, stop, grew =>
    if hunk.base.start ≤ stop then consumeHunks rest (some hunk) (max stop hunk.base.stop) true
    else (hunk :: rest, last, stop, grew)

/-- Consumes every hunk that starts at or before the end of the region, growing the region over it. -/
def consume (side : SideCursor) (stop : Nat) : SideCursor × Nat × Bool :=
  match consumeHunks side.rest side.last stop false with
  | (rest, last, stop, grew) => (⟨rest, last, side.pos⟩, stop, grew)

/-- The end of the side's text for a region: the end of its last hunk and what is stable after it. -/
def regionEnd (side : SideCursor) (regionStart stop : Nat) : Option Nat :=
  match side.last with
  | none => (checkedSub stop regionStart).map fun length => side.pos + length
  | some hunk => (checkedSub stop hunk.base.stop).map fun length => hunk.side.stop + length

end SideCursor

/-- Lets both sides consume hunks until neither grows the region. -/
def grow : Nat → SideCursor → SideCursor → Nat → Option (SideCursor × SideCursor × Nat)
  | 0, _, _, _ => none
  | fuel + 1, left, right, stop =>
    match left.consume stop with
    | (left, stop, leftGrew) =>
      match right.consume stop with
      | (right, stop, rightGrew) => if leftGrew || rightGrew then grow fuel left right stop else some (left, right, stop)

/-! ## The merge of files -/

/-- The state of the loop of `based`. -/
structure Walk where
  output : String
  conflicts : List Conflict
  cursor : Nat
  left : SideCursor
  right : SideCursor

/-- The smaller of the starts of the next hunks of both sides. -/
def nextStart (left right : SideCursor) : Option Nat :=
  match left.peekStart, right.peekStart with
  | some left, some right => some (min left right)
  | some left, none => some left
  | none, right => right

/-- The conflict block of a region: the segments between marks. -/
def pushConflict (output : String) (baseSeg leftSeg rightSeg : List String) : String :=
  let output := pushLines (output ++ "<<<<<<< LEFT\n") leftSeg
  let output := pushLines (output ++ "||||||| BASE\n") baseSeg
  let output := pushLines (output ++ "=======\n") rightSeg
  output ++ ">>>>>>> RIGHT\n"

/-- A region with its segments, as the loop emits it. -/
def emit (output : String) (conflicts : List Conflict) (regionStart stop leftPos leftEnd rightPos rightEnd : Nat)
    (baseSeg leftSeg rightSeg : List String) : String × List Conflict :=
  if leftSeg = rightSeg then (pushLines output leftSeg, conflicts)
  else if leftSeg = baseSeg then (pushLines output rightSeg, conflicts)
  else if rightSeg = baseSeg then (pushLines output leftSeg, conflicts)
  else
    (pushConflict output baseSeg leftSeg rightSeg,
      conflicts ++ [{
        base := if baseSeg.isEmpty then none else some ⟨regionStart, stop, "\n".intercalate baseSeg⟩
        left := ⟨leftPos, leftEnd, "\n".intercalate leftSeg⟩
        right := ⟨rightPos, rightEnd, "\n".intercalate rightSeg⟩ }])

/-- The body of the loop of `based`, from the start of the next region on. -/
def mergeRegion (baseLines leftLines rightLines : List String) (walk : Walk) (next : Nat) : Option Walk := do
  let stable ← subslice baseLines walk.cursor next
  let skipped ← checkedSub next walk.cursor
  let left : SideCursor := { walk.left with pos := walk.left.pos + skipped, last := none }
  let right : SideCursor := { walk.right with pos := walk.right.pos + skipped, last := none }
  -- Every round but the last consumes a hunk.
  let (left, right, stop) ← grow (left.rest.length + right.rest.length + 1) left right next
  let leftEnd ← left.regionEnd next stop
  let rightEnd ← right.regionEnd next stop
  let baseSeg ← subslice baseLines next stop
  let leftSeg ← subslice leftLines left.pos leftEnd
  let rightSeg ← subslice rightLines right.pos rightEnd
  let (output, conflicts) := emit (pushLines walk.output stable) walk.conflicts next stop left.pos leftEnd
    right.pos rightEnd baseSeg leftSeg rightSeg
  return ⟨output, conflicts, stop, { left with pos := leftEnd }, { right with pos := rightEnd }⟩

def mergeRegions (baseLines leftLines rightLines : List String) : Nat → Walk → Option Walk
  | 0, _ => none
  | fuel + 1, walk =>
    match nextStart walk.left walk.right with
    | none => some walk
    | some next =>
      match mergeRegion baseLines leftLines rightLines walk next with
      | none => none
      | some walk => mergeRegions baseLines leftLines rightLines fuel walk

/-- Three-way line merge with diff3 alignment. -/
def based (diff : Diff) (base left right : String) : Option Result :=
  if left = right then some (.successful left)
  else if base = left then some (.successful right)
  else if base = right then some (.successful left)
  else do
    let baseLines := lines base
    let leftLines := lines left
    let rightLines := lines right
    let leftHunks := hunks diff baseLines leftLines
    let rightHunks := hunks diff baseLines rightLines
    -- Every iteration but the last consumes a hunk.
    let walk ← mergeRegions baseLines leftLines rightLines (leftHunks.length + rightHunks.length + 1)
      ⟨"", [], 0, .new leftHunks, .new rightHunks⟩
    let tail ← subslice baseLines walk.cursor baseLines.length
    let output := pushLines walk.output tail
    return if walk.conflicts.isEmpty then .successful output else .withConflicts output walk.conflicts

/-! ## The merge of function bodies -/

/-- A line of a diff: kept, deleted from the base or inserted from the side. -/
inductive Change where
  | equal
  | delete
  | insert (value : String)

/-- The lines of an operation, deletions before insertions. -/
def DiffOp.changes (side : List String) : DiffOp → List Change
  | .equal _ _ len => List.replicate len .equal
  | .delete _ oldLen _ => List.replicate oldLen .delete
  | .insert _ newIndex newLen => ((side.drop newIndex).take newLen).map .insert
  | .replace _ oldLen newIndex newLen =>
    List.replicate oldLen .delete ++ ((side.drop newIndex).take newLen).map .insert

structure ChangeMaps where
  deletions : Nat → Bool
  insertions : Nat → Option (List String)

def addChange : ChangeMaps × Nat → Change → ChangeMaps × Nat
  | (maps, baseIdx), .equal => (maps, baseIdx + 1)
  | (maps, baseIdx), .delete => ({ maps with deletions := Function.update maps.deletions baseIdx true }, baseIdx + 1)
  | (maps, baseIdx), .insert value =>
    ({ maps with insertions :=
        Function.update maps.insertions baseIdx (some ((maps.insertions baseIdx).getD [] ++ [value])) }, baseIdx)

def buildChangeMaps (changes : List Change) : ChangeMaps :=
  (changes.foldl addChange (⟨fun _ => false, fun _ => none⟩, 0)).1

structure Outcome where
  content : String
  hasConflict : Bool

/-- Both sides' insertions at a base index: the right ones that the left inserted too are left out. -/
def pushInsertions (left right : Option (List String)) (state : List String × Bool) : List String × Bool :=
  let conflict := match left, right with
    | some li, some ri => li ≠ ri
    | _, _ => false
  let fresh := (right.getD []).filter fun line => left.all fun li => !li.contains line
  (state.1 ++ left.getD [] ++ fresh, state.2 || conflict)

def mergeLine (left right : ChangeMaps) (state : List String × Bool) (line : String × Nat) : List String × Bool :=
  let (result, hasConflict) := pushInsertions (left.insertions line.2) (right.insertions line.2) state
  (if !left.deletions line.2 && !right.deletions line.2 then result ++ [line.1] else result, hasConflict)

def inner (diff : Diff) (base left right : String) : Outcome :=
  let baseLines := lines base
  let leftLines := lines left
  let rightLines := lines right
  if leftLines = rightLines then ⟨left, false⟩
  else
    let leftMaps := buildChangeMaps ((diff baseLines leftLines).flatMap (DiffOp.changes leftLines))
    let rightMaps := buildChangeMaps ((diff baseLines rightLines).flatMap (DiffOp.changes rightLines))
    let state := baseLines.zipIdx.foldl (mergeLine leftMaps rightMaps) ([], false)
    -- the insertions after the last base line
    let (result, hasConflict) :=
      pushInsertions (leftMaps.insertions baseLines.length) (rightMaps.insertions baseLines.length) state
    ⟨"\n".intercalate result, hasConflict⟩

end Index.AstMerge
