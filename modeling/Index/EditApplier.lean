import Mathlib.Data.List.Sort
import Mathlib.Data.Prod.Lex
import Index.Lib.Text
import Index.Lib.Rust
import Index.Lib.Dependency

/-! # Applying byte-range edits

The `edit-applier` crate: edits are checked for overlap between neighbours of the sorted list and
spliced into each file from right to left.  The splice is shown to be the simultaneous substitution
of all ranges of the original text. -/

namespace Index.EditApplier

open Index.Lib List

/-- A source file: its path and its contents. -/
structure Source where
  path : String
  text : String
deriving DecidableEq

/-- A pending replacement of the bytes `start..stop` of a file, which is an index of the sources. -/
structure Edit where
  file : Nat
  start : Nat
  stop : Nat
  replacement : String
deriving DecidableEq

/-- The derived order of the source compares the fields from first to last. -/
def Edit.key (edit : Edit) : Nat ×ₗ Nat ×ₗ Nat ×ₗ String :=
  toLex (edit.file, toLex (edit.start, toLex (edit.stop, edit.replacement)))

theorem Edit.key_injective : Function.Injective Edit.key := by
  rintro ⟨file, start, stop, replacement⟩ ⟨_, _, _, _⟩ same
  obtain ⟨rfl, rfl, rfl, rfl⟩ := same
  rfl

instance : LinearOrder Edit := LinearOrder.lift' Edit.key Edit.key_injective

structure FileRewrite where
  path : String
  content : String
deriving DecidableEq

structure OverlapError where
  path : String
  firstStart : Nat
  firstEnd : Nat
  secondStart : Nat
  secondEnd : Nat
deriving DecidableEq

def OverlapError.message (error : OverlapError) : String :=
  "overlapping edits in " ++ error.path ++ ": [" ++ toString error.firstStart ++ ", " ++ toString error.firstEnd ++
    ") overlaps [" ++ toString error.secondStart ++ ", " ++ toString error.secondEnd ++ ")"

/-- Compares each edit with its successor only: the caller sorts. -/
def checkOverlaps (paths : List String) : List Edit → Except (Fault OverlapError) Unit
  | first :: second :: rest =>
    if first.file = second.file ∧ second.start < first.stop then
      match paths[first.file]? with
      | none => .error .panicked
      | some path => .error (.raised ⟨path, first.start, first.stop, second.start, second.stop⟩)
    else checkOverlaps paths (second :: rest)
  | _ => .ok ()

/-- The loop that pushes each edit onto the list of its file; a file out of range panics. -/
def groupByFile (count : Nat) (edits : List Edit) : Option (List (List Edit)) :=
  edits.foldlM
    (fun byFile edit =>
      if edit.file < byFile.length then some (byFile.modify edit.file (· ++ [edit])) else none)
    (List.replicate count [])

def spliceEdit (content : String) (edit : Edit) : Option String :=
  replaceRange content edit.start edit.stop edit.replacement

/-- Sorts the edits of one file and splices them from the last to the first. -/
def spliceFile (text : String) (fileEdits : List Edit) : Option String :=
  (fileEdits.insertionSort (· ≤ ·)).reverse.foldlM spliceEdit text

def rewriteFile (files : List Source) (entry : List Edit × Nat) : Option FileRewrite := do
  let source ← files[entry.2]?
  let content ← spliceFile source.text entry.1
  some { path := source.path, content }

/-- The rewritten files, in file order and without those that have no edit. -/
def apply (files : List Source) (edits : List Edit) : Option (List FileRewrite) := do
  let byFile ← groupByFile files.length edits
  (byFile.zipIdx.filter fun entry => !entry.1.isEmpty).mapM (rewriteFile files)

/-! ## Simultaneous substitution -/

/-- What stands at one position of the result: the replacements that start there, in the order of
the list, and then the byte of the original unless some range covers it. -/
def emit (bytes : List UInt8) (edits : List Edit) (position : Nat) : List UInt8 :=
  ((edits.filter fun edit => edit.start = position).flatMap fun edit => utf8 edit.replacement) ++
    if ∃ edit ∈ edits, edit.start ≤ position ∧ position < edit.stop then [] else bytes[position]?.toList

/-- All ranges replaced at once.  The position after the last byte takes insertions only. -/
def substitute (bytes : List UInt8) (edits : List Edit) : List UInt8 :=
  (List.range (bytes.length + 1)).flatMap (emit bytes edits)

/-- Two ranges of one file overlap when each starts strictly before the other ends. -/
def Edit.Overlaps (first second : Edit) : Prop :=
  first.file = second.file ∧ first.start < second.stop ∧ second.start < first.stop

instance : DecidableRel Edit.Overlaps := fun _ _ => instDecidableAnd

/-- The range lies in its file and is cut between characters. -/
structure Edit.InRange (files : List Source) (edit : Edit) : Prop where
  ordered : edit.start ≤ edit.stop
  boundaries : ∃ source, files[edit.file]? = some source ∧
    isCharBoundary source.text edit.start = true ∧ isCharBoundary source.text edit.stop = true

/-! ## Overlap -/

section Order

variable {first second third : Edit}

theorem Edit.le_iff : first ≤ second ↔ first.file < second.file ∨ first.file = second.file ∧
    (first.start < second.start ∨ first.start = second.start ∧
      (first.stop < second.stop ∨ first.stop = second.stop ∧ first.replacement ≤ second.replacement)) := by
  change first.key ≤ second.key ↔ _
  simp only [Edit.key, Prod.Lex.toLex_le_toLex]

theorem Edit.start_le_of_le (sorted : first ≤ second) (sameFile : first.file = second.file) :
    first.start ≤ second.start := by
  rcases Edit.le_iff.mp sorted with earlier | ⟨-, earlier | ⟨same, -⟩⟩ <;> omega

/-- What the check establishes between two edits of the sorted list. -/
structure Edit.Precedes (first second : Edit) : Prop where
  sorted : first ≤ second
  apart : first.file = second.file → first.stop ≤ second.start

theorem Edit.Precedes.trans (left : first.Precedes second) (right : second.Precedes third) :
    first.Precedes third := by
  refine ⟨left.sorted.trans right.sorted, fun sameFile => ?_⟩
  -- The files are sorted, so the edit in between is in the same file.
  have middle : first.file = second.file := by
    have below : first.file ≤ second.file := by rcases Edit.le_iff.mp left.sorted with h | ⟨h, -⟩ <;> omega
    have above : second.file ≤ third.file := by rcases Edit.le_iff.mp right.sorted with h | ⟨h, -⟩ <;> omega
    omega
  exact (left.apart middle).trans (Edit.start_le_of_le right.sorted (middle.symm.trans sameFile))

instance : IsTrans Edit Edit.Precedes := ⟨fun _ _ _ => Edit.Precedes.trans⟩

/-- In sorted order the test of the source, second against first, decides the overlap of the pair. -/
theorem Edit.overlaps_iff_of_le (sorted : first ≤ second) (ordered : second.start ≤ second.stop) :
    first.Overlaps second ↔ first.file = second.file ∧ second.start < first.stop := by
  refine ⟨fun overlap => ⟨overlap.1, overlap.2.2⟩, fun ⟨sameFile, starts⟩ => ⟨sameFile, ?_, starts⟩⟩
  rcases Edit.le_iff.mp sorted with earlier | ⟨-, earlier | ⟨same, stops⟩⟩ <;> omega

theorem Edit.precedes_iff_of_le (sorted : first ≤ second) (ordered : second.start ≤ second.stop) :
    first.Precedes second ↔ ¬ first.Overlaps second := by
  rw [Edit.overlaps_iff_of_le sorted ordered]
  refine ⟨fun precedes ⟨sameFile, starts⟩ => ?_, fun apart => ⟨sorted, fun sameFile => ?_⟩⟩
  · have := precedes.apart sameFile
    omega
  · exact Nat.le_of_not_lt fun starts => apart ⟨sameFile, starts⟩

end Order

variable {paths : List String} {edits : List Edit}

theorem checkOverlaps_eq_ok (sorted : edits.Pairwise (· ≤ ·)) :
    checkOverlaps paths edits = .ok () ↔ edits.IsChain Edit.Precedes := by
  fun_induction checkOverlaps paths edits with
  | case1 first second rest overlap unknown | case2 first second rest overlap path known =>
    simp only [reduceCtorEq, isChain_cons_cons, false_iff, not_and]
    intro precedes
    have := precedes.apart overlap.1
    omega
  | case3 first second rest apart ih =>
    obtain ⟨head, tail⟩ := pairwise_cons.mp sorted
    rw [ih tail, isChain_cons_cons]
    refine (and_iff_right ⟨head second mem_cons_self, fun sameFile => ?_⟩).symm
    exact Nat.le_of_not_lt fun starts => apart ⟨sameFile, starts⟩
  | case4 edits short =>
    match edits with
    | [] => simp
    | [edit] => simp
    | first :: second :: rest => exact absurd rfl (short first second rest)

/-- The check looks up the path of an edit only to name it. -/
theorem checkOverlaps_raises (known : ∀ edit ∈ edits, edit.file < paths.length) {fault : Fault OverlapError}
    (failed : checkOverlaps paths edits = .error fault) : ∃ error, fault = .raised error := by
  fun_induction checkOverlaps paths edits with
  | case1 first second rest overlap unknown =>
    have inside := known first mem_cons_self
    simp [inside] at unknown
  | case2 => exact ⟨_, (Except.error.inj failed).symm⟩
  | case3 first second rest apart ih =>
    exact ih (fun edit member => known edit (mem_cons_of_mem _ member)) failed
  | case4 => cases failed

/-- Comparing neighbours is enough. -/
theorem checkOverlaps_iff_pairwise (sorted : edits.Pairwise (· ≤ ·)) (ordered : ∀ edit ∈ edits, edit.start ≤ edit.stop) :
    checkOverlaps paths edits = .ok () ↔ edits.Pairwise fun first second => ¬ first.Overlaps second := by
  rw [checkOverlaps_eq_ok sorted, isChain_iff_pairwise]
  constructor
  · intro precede
    refine precede.imp_of_mem fun _ member precedes => ?_
    exact (Edit.precedes_iff_of_le precedes.sorted (ordered _ member)).mp precedes
  · intro apart
    refine (sorted.and apart).imp_of_mem fun _ member both => ?_
    exact (Edit.precedes_iff_of_le both.1 (ordered _ member)).mpr both.2

/-! ## The substitution from left to right -/

section Substitution

variable {bytes : List UInt8} {edit : Edit} {edits : List Edit}

theorem flatMap_bytes (bytes : List UInt8) (first count : Nat) :
    ((List.range' first count).flatMap fun position => bytes[position]?.toList) = (bytes.drop first).take count := by
  induction count generalizing first with
  | zero => simp
  | succ count ih =>
    rw [List.range'_succ, flatMap_cons, ih]
    cases here : bytes[first]? with
    | none =>
      have short := getElem?_eq_none_iff.mp here
      simp [drop_eq_nil_of_le short, drop_eq_nil_of_le (Nat.le_succ_of_le short)]
    | some byte =>
      obtain ⟨inside, rfl⟩ := List.getElem?_eq_some_iff.mp here
      rw [drop_eq_getElem_cons inside]
      rfl

/-- The part of the substitution from a position on. -/
def substituteFrom (bytes : List UInt8) (edits : List Edit) (first : Nat) : List UInt8 :=
  (List.range' first (bytes.length + 1 - first)).flatMap (emit bytes edits)

theorem substitute_eq (bytes : List UInt8) (edits : List Edit) :
    substitute bytes edits = substituteFrom bytes edits 0 := by
  rw [substitute, substituteFrom, range_eq_range', Nat.sub_zero]

variable {position : Nat}

theorem starting_eq_nil (elsewhere : ∀ edit ∈ edits, edit.start ≠ position) :
    (edits.filter fun edit => edit.start = position) = [] :=
  filter_eq_nil_iff.mpr fun edit member => by simpa using elsewhere edit member

theorem emit_untouched (later : ∀ edit ∈ edits, position < edit.start) : emit bytes edits position = bytes[position]?.toList := by
  have starts := starting_eq_nil fun edit member => Nat.ne_of_gt (later edit member)
  have covers : ¬ ∃ edit ∈ edits, edit.start ≤ position ∧ position < edit.stop := by
    rintro ⟨edit, member, below, -⟩
    exact Nat.not_lt.mpr below (later edit member)
  rw [emit, starts, if_neg covers, flatMap_nil, nil_append]

theorem emit_past (started : edit.start ≠ position) (past : edit.stop ≤ position) :
    emit bytes (edit :: edits) position = emit bytes edits position := by
  have uncovered : ¬ (edit.start ≤ position ∧ position < edit.stop) := by omega
  simp [emit, started, uncovered]

theorem emit_covered (started : edit.start < position) (covered : position < edit.stop)
    (later : ∀ other ∈ edits, edit.stop ≤ other.start) : emit bytes (edit :: edits) position = [] := by
  have elsewhere : ∀ other ∈ edit :: edits, other.start ≠ position :=
    forall_mem_cons.mpr ⟨Nat.ne_of_lt started, fun other member =>
      Nat.ne_of_gt (Nat.lt_of_lt_of_le covered (later other member))⟩
  rw [emit, starting_eq_nil elsewhere, if_pos ⟨edit, mem_cons_self, Nat.le_of_lt started, covered⟩]
  rfl

theorem substituteFrom_nil (bytes : List UInt8) (first : Nat) : substituteFrom bytes [] first = bytes.drop first := by
  have untouched : emit bytes [] = fun position => bytes[position]?.toList :=
    funext fun _ => emit_untouched (by simp)
  rw [substituteFrom, untouched, flatMap_bytes, take_of_length_le (by rw [length_drop]; omega)]

/-- From the start of its first edit on, the text is that edit's replacement and then what the
other edits make of the rest. -/
theorem substituteFrom_start (ordered : edit.start ≤ edit.stop) (inside : edit.stop ≤ bytes.length)
    (later : ∀ other ∈ edits, edit.stop ≤ other.start) :
    substituteFrom bytes (edit :: edits) edit.start =
      utf8 edit.replacement ++ substituteFrom bytes edits edit.stop := by
  have rest : ∀ first count, edit.start < first → edit.stop ≤ first → ∀ position ∈ List.range' first count,
      emit bytes (edit :: edits) position = emit bytes edits position := by
    intro first count started ended position member
    have := mem_range'_1.mp member
    exact emit_past (by omega) (by omega)
  rcases Nat.eq_or_lt_of_le ordered with empty | nonempty
  · -- An insertion: it stands before whatever the other edits put at the same position.
    have size : bytes.length + 1 - edit.start = (bytes.length - edit.start) + 1 := by omega
    have here : emit bytes (edit :: edits) edit.start = utf8 edit.replacement ++ emit bytes edits edit.start := by
      have uncovered : ¬ (edit.start < edit.stop) := by omega
      simp [emit, uncovered]
    rw [← empty, substituteFrom, substituteFrom, size, List.range'_succ, flatMap_cons, flatMap_cons, here,
      flatMap_congr (rest _ _ (by omega) (by omega)), append_assoc]
  · have size : bytes.length + 1 - edit.start =
        (edit.stop - (edit.start + 1) + (bytes.length + 1 - edit.stop)) + 1 := by omega
    have hidden : ∀ position ∈ List.range' (edit.start + 1) (edit.stop - (edit.start + 1)),
        emit bytes (edit :: edits) position = [] := by
      intro position member
      have := mem_range'_1.mp member
      exact emit_covered (by omega) (by omega) later
    have here : emit bytes (edit :: edits) edit.start = utf8 edit.replacement := by
      have alone := starting_eq_nil fun other member =>
        Nat.ne_of_gt (Nat.lt_of_lt_of_le nonempty (later other member))
      simp [emit, alone, nonempty]
    have next : edit.start + 1 + (edit.stop - (edit.start + 1)) = edit.stop := by omega
    rw [substituteFrom, size, List.range'_succ, flatMap_cons, here, ← List.range'_append_1, next,
      flatMap_append, flatMap_eq_nil_iff.mpr hidden, nil_append,
      flatMap_congr (rest _ _ nonempty le_rfl), substituteFrom]

theorem substituteFrom_cons {first : Nat} (starts : first ≤ edit.start) (ordered : edit.start ≤ edit.stop)
    (inside : edit.stop ≤ bytes.length) (later : ∀ other ∈ edits, edit.stop ≤ other.start) :
    substituteFrom bytes (edit :: edits) first =
      (bytes.drop first).take (edit.start - first) ++ utf8 edit.replacement ++ substituteFrom bytes edits edit.stop := by
  have size : bytes.length + 1 - first = (edit.start - first) + (bytes.length + 1 - edit.start) := by omega
  have kept : ∀ position ∈ List.range' first (edit.start - first),
      emit bytes (edit :: edits) position = bytes[position]?.toList := by
    intro position member
    have bounds := mem_range'_1.mp member
    refine emit_untouched fun other member => ?_
    rcases mem_cons.mp member with rfl | member
    · omega
    · have := later other member
      omega
  rw [substituteFrom, size, ← List.range'_append_1, flatMap_append, flatMap_congr kept, flatMap_bytes,
    Nat.add_sub_cancel' starts, append_assoc, ← substituteFrom_start ordered inside later, substituteFrom]

end Substitution

/-! ## Splicing from right to left -/

/-- Splicing the sorted edits of one file: what lies before the first edit is untouched and the rest
is the substitution, so every offset still to come is one of the original text. -/
theorem spliceSorted {text : String} (apart : edits.Pairwise fun first second => first.stop ≤ second.start)
    (cuts : ∀ edit ∈ edits, edit.start ≤ edit.stop ∧ isCharBoundary text edit.start = true ∧
      isCharBoundary text edit.stop = true) {head tail : String} (whole : text = head ++ tail)
    (after : ∀ edit ∈ edits, (utf8 head).length ≤ edit.start) :
    ∃ spliced, edits.reverse.foldlM spliceEdit text = some (head ++ spliced) ∧
      utf8 spliced = substituteFrom (utf8 text) edits (utf8 head).length := by
  induction edits generalizing head tail with
  | nil =>
    refine ⟨tail, by simp [whole], ?_⟩
    rw [substituteFrom_nil, whole, utf8_append, drop_left]
  | cons edit edits ih =>
    obtain ⟨later, apart⟩ := pairwise_cons.mp apart
    obtain ⟨⟨ordered, startCut, stopCut⟩, cuts⟩ := forall_mem_cons.mp cuts
    obtain ⟨beforeStart, afterStart, startWhole, startLength⟩ := isCharBoundary_iff.mp startCut
    obtain ⟨beforeStop, afterStop, stopWhole, stopLength⟩ := isCharBoundary_iff.mp stopCut
    obtain ⟨spliced, folded, bytes⟩ := ih apart cuts stopWhole (by rw [stopLength]; exact later)
    -- The text up to the edit is `head`, what is kept and the replaced range.
    obtain ⟨range, rfl, -⟩ := append_eq_append_of_le (startWhole.symm.trans stopWhole) (by omega)
    obtain ⟨kept, rfl, -⟩ := append_eq_append_of_le (whole.symm.trans startWhole)
      (by rw [startLength]; exact after edit mem_cons_self)
    refine ⟨kept ++ edit.replacement ++ spliced, ?_, ?_⟩
    · rw [reverse_cons, foldlM_append, folded]
      simp only [Option.bind_eq_bind, Option.bind_some, foldlM_cons, foldlM_nil, spliceEdit, ← startLength,
        ← stopLength, replaceRange_append]
      simp [String.append_assoc]
    · have inside : edit.stop ≤ (utf8 text).length := by
        rw [← stopLength, stopWhole]
        simp
      have starts : (utf8 head).length ≤ edit.start := by
        rw [← startLength]
        simp
      have keptBytes : ((utf8 text).drop (utf8 head).length).take (edit.start - (utf8 head).length) = utf8 kept := by
        rw [startWhole, ← startLength]
        simp [append_assoc]
      rw [substituteFrom_cons starts ordered inside later, keptBytes, ← stopLength, ← bytes]
      simp

theorem spliceFile_eq (text : String) (precede : edits.Pairwise Edit.Precedes)
    (oneFile : ∀ first ∈ edits, ∀ second ∈ edits, first.file = second.file)
    (cuts : ∀ edit ∈ edits, edit.start ≤ edit.stop ∧ isCharBoundary text edit.start = true ∧
      isCharBoundary text edit.stop = true) :
    ∃ content, spliceFile text edits = some content ∧ utf8 content = substitute (utf8 text) edits := by
  have sorted : edits.insertionSort (· ≤ ·) = edits :=
    List.Pairwise.insertionSort_eq (precede.imp fun precedes => precedes.sorted)
  have apart : edits.Pairwise fun first second => first.stop ≤ second.start :=
    precede.imp_of_mem fun left right precedes => precedes.apart (oneFile _ left _ right)
  obtain ⟨spliced, folded, bytes⟩ := spliceSorted apart cuts (String.empty_append).symm (by simp)
  refine ⟨spliced, ?_, ?_⟩
  · rw [spliceFile, sorted, folded, String.empty_append]
  · rw [bytes, substitute_eq]
    rfl

/-! ## Whole edit lists -/

theorem groupByFile_eq (count : Nat) (edits : List Edit) :
    groupByFile count edits =
      if ∀ edit ∈ edits, edit.file < count then some (layers Edit.file count edits) else none := by
  unfold groupByFile
  induction edits using List.reverseRecOn with
  | nil =>
    have empty : List.replicate count [] = layers Edit.file count [] := by
      refine ext_getElem (by simp [layers]) fun i left right => ?_
      simp [layers]
    simp [empty]
  | append_singleton edits edit ih =>
    have all : (∀ other ∈ edits ++ [edit], other.file < count) ↔
        (∀ other ∈ edits, other.file < count) ∧ edit.file < count := by
      rw [forall_mem_append, forall_mem_singleton]
    have size : (layers Edit.file count edits).length = count := by simp [layers]
    rw [foldlM_append, ih]
    simp only [all]
    by_cases grouped : ∀ other ∈ edits, other.file < count
    · by_cases inside : edit.file < count
      · rw [if_pos grouped, if_pos ⟨grouped, inside⟩, layers_snoc]
        simp [size, inside]
      · rw [if_pos grouped, if_neg fun both => inside both.2]
        simp [size, inside]
    · rw [if_neg grouped, if_neg fun both => grouped both.1]
      rfl

/-- The files with an edit, in file order. -/
def editedFiles (count : Nat) (edits : List Edit) : List Nat :=
  (List.range count).filter fun file => ∃ edit ∈ edits, edit.file = file

variable {files : List Source}

theorem apply_eq (known : ∀ edit ∈ edits, edit.file < files.length) :
    apply files edits = (editedFiles files.length edits).mapM fun file =>
      rewriteFile files (edits.filter fun edit => edit.file = file, file) := by
  have indexed : (layers Edit.file files.length edits).zipIdx =
      (List.range files.length).map fun file => (edits.filter fun edit => edit.file = file, file) := by
    refine ext_getElem (by simp [layers]) fun i left right => ?_
    simp [layers]
  have touched : ∀ file, (!(edits.filter fun edit => edit.file = file).isEmpty) =
      decide (∃ edit ∈ edits, edit.file = file) := by
    intro file
    rw [Bool.eq_iff_iff]
    simp [filter_eq_nil_iff]
  rw [apply, groupByFile_eq, if_pos known, Option.bind_eq_bind, Option.bind_some, indexed, filter_map,
    mapM_map]
  simp only [editedFiles, Function.comp_def, touched]

theorem spliceFile_perm (text : String) {permuted : List Edit} (permutation : permuted.Perm edits) :
    spliceFile text permuted = spliceFile text edits := by
  have sorted : permuted.insertionSort (· ≤ ·) = edits.insertionSort (· ≤ ·) :=
    (((perm_insertionSort _ permuted).trans permutation).trans (perm_insertionSort _ edits).symm).eq_of_pairwise'
      (pairwise_insertionSort _ _) (pairwise_insertionSort _ _)
  rw [spliceFile, spliceFile, sorted]

/-- The order in which the edits are given does not matter. -/
theorem apply_perm (files : List Source) {permuted : List Edit} (permutation : permuted.Perm edits) :
    apply files permuted = apply files edits := by
  by_cases known : ∀ edit ∈ edits, edit.file < files.length
  · have same : editedFiles files.length permuted = editedFiles files.length edits :=
      filter_congr fun file _ => by simp [permutation.mem_iff]
    rw [apply_eq known, apply_eq fun edit member => known edit (permutation.mem_iff.mp member), same]
    congr 1
    simp only [rewriteFile, spliceFile_perm _ (permutation.filter _)]
  · have unknown : ¬ ∀ edit ∈ permuted, edit.file < files.length :=
      fun all => known fun edit member => all edit (permutation.mem_iff.mpr member)
    simp [apply, groupByFile_eq, known, unknown]

/-- The contents a file is meant to end with. -/
def IsSubstituted (files : List Source) (edits : List Edit) (file : Nat) (rewrite : FileRewrite) : Prop :=
  ∃ source, files[file]? = some source ∧ rewrite.path = source.path ∧
    utf8 rewrite.content = substitute (utf8 source.text) (edits.filter fun edit => edit.file = file)

theorem rewriteFile_substituted (precede : edits.Pairwise Edit.Precedes) (inRange : ∀ edit ∈ edits, edit.InRange files)
    {file : Nat} (inside : file < files.length) :
    ∃ rewrite, rewriteFile files (edits.filter fun edit => edit.file = file, file) = some rewrite ∧
      IsSubstituted files edits file rewrite := by
  have found : files[file]? = some files[file] := getElem?_eq_getElem inside
  have ofFile : ∀ edit ∈ edits.filter fun edit => edit.file = file, edit ∈ edits ∧ edit.file = file := by simp
  obtain ⟨content, spliced, bytes⟩ := spliceFile_eq files[file].text (precede.filter _)
    (fun first left second right => (ofFile first left).2.trans (ofFile second right).2.symm)
    (fun edit member => by
      obtain ⟨inEdits, rfl⟩ := ofFile edit member
      obtain ⟨source, known, cuts⟩ := (inRange edit inEdits).boundaries
      rw [found, Option.some.injEq] at known
      exact ⟨(inRange edit inEdits).ordered, known ▸ cuts⟩)
  refine ⟨⟨files[file].path, content⟩, ?_, files[file], found, rfl, bytes⟩
  simp [rewriteFile, found, spliced]

/-- The splice is a simultaneous substitution.  For sorted edits cut between characters of their
files, the neighbour check accepts exactly the lists without overlapping pairs, and what it accepts
is applied as one substitution per edited file, whatever the order of the list. -/
theorem apply_substitutes (files : List Source) (edits : List Edit) (sorted : edits.Pairwise (· ≤ ·))
    (inRange : ∀ edit ∈ edits, edit.InRange files) :
    (checkOverlaps (files.map Source.path) edits = .ok () ↔
      edits.Pairwise fun first second => ¬ first.Overlaps second) ∧
    (checkOverlaps (files.map Source.path) edits = .ok () →
      ∃ rewrites, List.Forall₂ (IsSubstituted files edits) (editedFiles files.length edits) rewrites ∧
        ∀ permuted, permuted.Perm edits → apply files permuted = some rewrites) := by
  refine ⟨checkOverlaps_iff_pairwise sorted fun edit member => (inRange edit member).ordered, fun accepted => ?_⟩
  have precede : edits.Pairwise Edit.Precedes := isChain_iff_pairwise.mp ((checkOverlaps_eq_ok sorted).mp accepted)
  have known : ∀ edit ∈ edits, edit.file < files.length := by
    intro edit member
    obtain ⟨source, found, -⟩ := (inRange edit member).boundaries
    exact (List.getElem?_eq_some_iff.mp found).1
  have inside : ∀ file ∈ editedFiles files.length edits, file < files.length :=
    fun file member => mem_range.mp (mem_filter.mp member).1
  obtain ⟨rewrites, collected, substituted⟩ := exists_mapM fun file member =>
    rewriteFile_substituted precede inRange (inside file member)
  refine ⟨rewrites, substituted, fun permuted permutation => ?_⟩
  rw [apply_perm files permutation, apply_eq known, collected]

def renameSources : List Source := [⟨"a.rs", "let x = old;"⟩, ⟨"b.rs", "keep"⟩]

/-- An insertion and a replacement in the first of two files. -/
def renameEdits : List Edit := [⟨0, 4, 4, "mut "⟩, ⟨0, 8, 11, "new"⟩]

theorem renameEdits_sorted : renameEdits.Pairwise (· ≤ ·) := by decide

theorem renameEdits_inRange : ∀ edit ∈ renameEdits, edit.InRange renameSources := by
  refine forall_mem_cons.mpr ⟨?_, forall_mem_singleton.mpr ?_⟩
  · exact ⟨by decide, _, rfl, by decide, by decide⟩
  · exact ⟨by decide, _, rfl, by decide, by decide⟩

theorem rename_substitutes :
    checkOverlaps (renameSources.map Source.path) renameEdits = .ok () ∧
      ∃ rewrites, List.Forall₂ (IsSubstituted renameSources renameEdits) [0] rewrites ∧
        apply renameSources renameEdits.reverse = some rewrites := by
  have accepted : checkOverlaps (renameSources.map Source.path) renameEdits = .ok () := by decide
  obtain ⟨rewrites, substituted, applied⟩ :=
    (apply_substitutes renameSources renameEdits renameEdits_sorted renameEdits_inRange).2 accepted
  exact ⟨accepted, rewrites, substituted, applied _ (reverse_perm renameEdits)⟩

example : apply renameSources renameEdits.reverse = some [⟨"a.rs", "let mut x = new;"⟩] := by decide

/-- An edit inside the two bytes of one character is in range and overlaps nothing, but
`replace_range` panics on it. -/
theorem apply_panics_inside_char :
    [(⟨0, 1, 1, "x"⟩ : Edit)].Pairwise (· ≤ ·) ∧ 1 ≤ (utf8 "é").length ∧
      checkOverlaps ["a.rs"] [⟨0, 1, 1, "x"⟩] = .ok () ∧ apply [⟨"a.rs", "é"⟩] [⟨0, 1, 1, "x"⟩] = none := by
  decide

end Index.EditApplier
