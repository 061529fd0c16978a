import Index.Minecraft.SyncManaged

/-! # Managed sets

The managed files of a well-formed source have safe paths, none of which leads through another, and the manifest that
is written of them reads back as their paths. -/

namespace Index.Minecraft

open Index.Lib List

/-! ## Paths -/

theorem joinPath_segments (rel : String) : joinPath (segments rel) = rel := by
  rw [joinPath, segments, map_map]
  have unpack : String.toList ∘ String.ofList = id := funext fun _ => String.toList_ofList
  rw [unpack, map_id, intercalate_splitOn, String.ofList_toList]

theorem segments_injective {left right : String} (same : segments left = segments right) : left = right := by
  rw [← joinPath_segments left, same, joinPath_segments]

variable {path : List String}

theorem segments_joinPath (slashless : ∀ name ∈ path, '/' ∉ name.toList) (nonempty : path ≠ []) :
    segments (joinPath path) = path := by
  rw [segments, joinPath, String.toList_ofList, splitOn_intercalate]
  · simp
  · simpa using slashless
  · simpa using nonempty

/-- A name of a file or a directory that a managed path may have. -/
def SafeName (name : String) : Prop :=
  name ≠ "" ∧ name ≠ "." ∧ name ≠ ".." ∧ ∀ char ∈ name.toList, isSafeChar char = true ∧ char ≠ '/'

instance (name : String) : Decidable (SafeName name) :=
  decidable_of_iff (name ≠ "" ∧ name ≠ "." ∧ name ≠ ".." ∧ name.toList.all (fun char => isSafeChar char && char ≠ '/') = true)
    (by simp [SafeName])

theorem mem_joinPath {char : Char} (member : char ∈ (joinPath path).toList) : char = '/' ∨ ∃ name ∈ path, char ∈ name.toList := by
  rw [joinPath, String.toList_ofList] at member
  induction path with
  | nil => simp at member
  | cons name path ih =>
    cases path with
    | nil => exact Or.inr ⟨name, by simp, by simpa using member⟩
    | cons next path =>
      rw [map_cons, intercalate_cons_of_ne_nil (by simp)] at member
      rcases mem_append.mp member with here | later
      · rcases mem_append.mp here with inName | slash
        · exact Or.inr ⟨name, by simp, inName⟩
        · exact Or.inl (mem_singleton.mp slash)
      · rcases ih later with slash | ⟨other, listed, inOther⟩
        · exact Or.inl slash
        · exact Or.inr ⟨other, mem_cons_of_mem _ listed, inOther⟩

section SafePath

variable {path : List String} (safe : ∀ name ∈ path, SafeName name) (nonempty : path ≠ [])

include safe

theorem segments_of_safe (nonempty : path ≠ []) : segments (joinPath path) = path :=
  segments_joinPath (fun name member slash => ((safe name member).2.2.2 _ slash).2 rfl) nonempty

theorem isSafeChar_of_safe {char : Char} (member : char ∈ (joinPath path).toList) : isSafeChar char = true := by
  rcases mem_joinPath member with rfl | ⟨name, listed, inName⟩
  · decide
  · exact ((safe name listed).2.2.2 char inName).1

include nonempty

theorem validateRelPath_of_safe : validateRelPath (joinPath path) = true := by
  have written : joinPath path ≠ "" := by
    intro empty
    have first := segments_of_safe safe nonempty
    rw [empty] at first
    have name := safe "" (by rw [← first]; decide)
    exact name.1 rfl
  have relative : isAbsolute (joinPath path) = false := by
    have segmented := segments_of_safe safe nonempty
    rw [isAbsolute, decide_eq_false_iff_not]
    intro slash
    obtain ⟨rest, isRest⟩ := head?_eq_some_iff.mp slash
    rw [segments, isRest, List.splitOn, splitOnP_cons_eq_if_modifyHead, if_pos (by simp)] at segmented
    have name := safe "" (by rw [← segmented]; simp)
    exact name.1 rfl
  simp only [validateRelPath, validateRelPathShape, segments_of_safe safe nonempty, Bool.and_eq_true, all_eq_true,
    decide_eq_true_eq, Bool.not_eq_true', ne_eq]
  exact ⟨⟨⟨written, relative⟩, fun name member => ⟨⟨(safe name member).1, (safe name member).2.1⟩, (safe name member).2.2.1⟩⟩,
    fun char member => isSafeChar_of_safe safe member⟩

end SafePath

/-! ## Sources -/

/-- A canonical path without blanks and line breaks. -/
def Plain (canonical : String) : Prop :=
  isAbsolute canonical = true ∧ ∀ char ∈ canonical.toList, char ≠ ' ' ∧ char ≠ '\n' ∧ char ≠ '\r'

instance (canonical : String) : Decidable (Plain canonical) :=
  decidable_of_iff (isAbsolute canonical = true ∧
    canonical.toList.all (fun char => char ≠ ' ' && char ≠ '\n' && char ≠ '\r') = true) (by simp [Plain, and_assoc])

mutual

/-- A file tree: all files resolve, and a directory has one entry of a name. -/
def Source.WellFormed : Source → Prop
  | .file resolved => ∃ bytes canonical, resolved = some (bytes, canonical) ∧ Plain canonical
  | .dir entries => WellFormedEntries entries

def WellFormedEntries : List (String × Source) → Prop
  | [] => True
  | (name, source) :: entries =>
    SafeName name ∧ name ∉ entries.map Prod.fst ∧ source.WellFormed ∧ WellFormedEntries entries

end

variable {entries : List (String × Source)}

theorem distinct_of_wellFormed (formed : WellFormedEntries entries) : IndexMap.Distinct entries := by
  induction entries with
  | nil => exact nodup_nil
  | cons entry entries ih =>
    obtain ⟨-, fresh, -, rest⟩ := formed
    exact nodup_cons.mpr ⟨fresh, ih rest⟩

/-- A path from an entry leads to a file. -/
def Leads (bytes : Bytes) (canonical : String) : Source → List String → Prop
  | .file resolved, path => path = [] ∧ resolved = some (bytes, canonical)
  | .dir entries, path => find entries path = some (.file (some (bytes, canonical)))

variable {canonical : String}

theorem find_cons {name : String} {source : Source} {bytes : Bytes} (found : IndexMap.get entries name = some source)
    (leads : Leads bytes canonical source path) : find entries (name :: path) = some (.file (some (bytes, canonical))) := by
  cases source with
  | file resolved =>
    obtain ⟨rfl, rfl⟩ := leads
    unfold find
    simp only [found]
  | dir inner =>
    unfold find
    simp only [found]
    exact leads

theorem replaced_of_safe (safe : ∀ name ∈ path, SafeName name) :
    String.ofList ((joinPath path).toList.map fun char => if char = '\\' then '/' else char) = joinPath path := by
  have unchanged : (joinPath path).toList.map (fun char => if char = '\\' then '/' else char) = (joinPath path).toList := by
    conv_rhs => rw [← map_id (joinPath path).toList]
    refine map_congr_left fun char member => if_neg ?_
    rintro rfl
    exact absurd (isSafeChar_of_safe safe member) (by decide)
  rw [unchanged, String.ofList_toList]

mutual

variable {rel : String}

/-- A managed file below an entry is one that the source leads to by a safe path. -/
theorem collectEntry_leads (source : Source) {path : List String} (formed : source.WellFormed)
    (pathSafe : ∀ name ∈ path, SafeName name) (member : rel ∈ collectEntry path source) :
    ∃ rest bytes canonical, (∀ name ∈ rest, SafeName name) ∧ rel = joinPath (path ++ rest) ∧ Plain canonical ∧
      Leads bytes canonical source rest := by
  cases source with
  | file resolved =>
    obtain ⟨bytes, canonical, rfl, plain⟩ := formed
    rw [collectEntry, replaced_of_safe pathSafe] at member
    split_ifs at member
    · cases member
    · exact ⟨[], bytes, canonical, by simp, by rw [append_nil]; exact mem_singleton.mp member, plain, rfl, rfl⟩
  | dir entries =>
    obtain ⟨rest, bytes, canonical, safe, written, plain, -, found⟩ := collectManagedFiles_leads entries formed pathSafe member
    exact ⟨rest, bytes, canonical, safe, written, plain, found⟩

theorem collectManagedFiles_leads (entries : List (String × Source)) {path : List String} (formed : WellFormedEntries entries)
    (pathSafe : ∀ name ∈ path, SafeName name) (member : rel ∈ collectManagedFiles path entries) :
    ∃ rest bytes canonical, (∀ name ∈ rest, SafeName name) ∧ rel = joinPath (path ++ rest) ∧ Plain canonical ∧ rest ≠ [] ∧
      find entries rest = some (.file (some (bytes, canonical))) := by
  cases entries with
  | nil => cases member
  | cons entry entries =>
    obtain ⟨name, source⟩ := entry
    have distinct := distinct_of_wellFormed formed
    obtain ⟨nameSafe, fresh, sourceFormed, restFormed⟩ := formed
    rcases mem_append.mp member with here | later
    · have longer : ∀ other ∈ path ++ [name], SafeName other :=
        forall_mem_append.mpr ⟨pathSafe, forall_mem_singleton.mpr nameSafe⟩
      obtain ⟨rest, bytes, canonical, safe, written, plain, leads⟩ := collectEntry_leads source sourceFormed longer here
      refine ⟨name :: rest, bytes, canonical, ?_, by rw [written, append_assoc]; rfl, plain, by simp, ?_⟩
      · exact forall_mem_cons.mpr ⟨nameSafe, safe⟩
      · exact find_cons (IndexMap.get_of_mem distinct mem_cons_self) leads
    · obtain ⟨rest, bytes, canonical, safe, written, plain, nonempty, found⟩ :=
        collectManagedFiles_leads entries restFormed pathSafe later
      refine ⟨rest, bytes, canonical, safe, written, plain, nonempty, ?_⟩
      obtain ⟨first, rest, rfl⟩ := exists_cons_of_ne_nil nonempty
      have listed : first ∈ entries.map Prod.fst := by
        by_contra absent
        unfold find at found
        simp [IndexMap.get_eq_none.mpr absent] at found
      have differ : name ≠ first := by
        rintro rfl
        exact fresh listed
      unfold find at found ⊢
      rw [IndexMap.get, if_neg differ]
      exact found

end

theorem find_below_file {rest : List String} {resolved : Option (Bytes × String)}
    (found : find entries path = some (.file resolved)) (below : rest ≠ []) : find entries (path ++ rest) = none := by
  induction path generalizing entries with
  | nil => cases found
  | cons name path ih =>
    unfold find at found
    rw [cons_append]
    unfold find
    cases here : IndexMap.get entries name with
    | none => simp
    | some source =>
      simp only [here] at found
      cases source with
      | dir inner => exact ih found
      | file other =>
        cases path with
        | nil =>
          obtain ⟨first, rest, rfl⟩ := exists_cons_of_ne_nil below
          rfl
        | cons next path => cases found

/-- No path of a list leads through another. -/
def Apart (rels : List String) : Prop := ∀ rel ∈ rels, ∀ other ∈ rels, segments rel <+: segments other → rel = other

section Managed

variable {entries : List (String × Source)} (formed : WellFormedEntries entries) {rel : String}

include formed

theorem managed_leads (member : rel ∈ managedFiles entries) :
    validateRelPath rel = true ∧ ∃ bytes canonical, find entries (segments rel) = some (.file (some (bytes, canonical))) ∧ Plain canonical := by
  rw [managedFiles, mem_mergeSort] at member
  obtain ⟨path, bytes, canonical, safe, rfl, plain, nonempty, found⟩ :=
    collectManagedFiles_leads entries formed (by simp) member
  rw [nil_append, segments_of_safe safe nonempty]
  exact ⟨validateRelPath_of_safe safe nonempty, bytes, canonical, found, plain⟩

theorem managed_apart : Apart (managedFiles entries) := by
  rintro rel member other otherMember ⟨rest, whole⟩
  obtain ⟨-, bytes, canonical, found, -⟩ := managed_leads formed member
  obtain ⟨-, otherBytes, otherCanonical, otherFound, -⟩ := managed_leads formed otherMember
  by_cases longer : rest = []
  · exact segments_injective (by rw [← whole, longer, append_nil])
  · rw [← whole, find_below_file found longer] at otherFound
    cases otherFound

end Managed

/-! ## The manifest of a source -/

def canonicalOf (entries : List (String × Source)) (rel : String) : String :=
  match find entries (segments rel) with
  | some (.file (some (_, canonical))) => canonical
  | _ => ""

def bytesOf (entries : List (String × Source)) (rel : String) : Bytes :=
  match find entries (segments rel) with
  | some (.file (some (bytes, _))) => bytes
  | _ => []

/-- The manifest that a run with a source writes. -/
def manifestText (entries : List (String × Source)) : String :=
  (managedFiles entries).foldl (fun text rel => text ++ rel ++ " " ++ canonicalOf entries rel ++ "\n") ""

theorem manifestEntry_line {rel : String} (plain : Plain canonical) :
    manifestEntry (rel ++ " " ++ canonical) = ⟨rel, some canonical⟩ := by
  have blankless : ∀ char ∈ canonical.toList.reverse, decide (char ≠ ' ') = true := by
    intro char member
    simpa using (plain.2 char (mem_reverse.mp member)).1
  have split : rsplitOnce ' ' (rel ++ " " ++ canonical) = some (rel, canonical) := by
    have chars : (rel ++ " " ++ canonical).toList.reverse = canonical.toList.reverse ++ ' ' :: rel.toList.reverse := by simp
    rw [rsplitOnce, chars, dropWhile_append_of_pos blankless, takeWhile_append_of_pos blankless]
    simp
  rw [manifestEntry, split]
  simp only [plain.1, if_true]

theorem toList_manifest (rels : List String) (canonicals : String → String) (before : String) :
    (rels.foldl (fun text rel => text ++ rel ++ " " ++ canonicals rel ++ "\n") before).toList =
      before.toList ++ (rels.map fun rel => (rel ++ " " ++ canonicals rel).toList).flatMap fun line => line ++ ['\n'] := by
  induction rels generalizing before with
  | nil => simp
  | cons rel rels ih =>
    rw [foldl_cons, ih]
    simp

/-- The manifest of a well-formed source reads back as the managed paths. -/
theorem entries_of_manifest (formed : WellFormedEntries entries) :
    (lines (manifestText entries)).map (fun line => (manifestEntry line).rel) = managedFiles entries := by
  have plain : ∀ rel ∈ managedFiles entries, Plain (canonicalOf entries rel) := by
    intro rel member
    obtain ⟨-, bytes, canonical, found, plain⟩ := managed_leads formed member
    rwa [canonicalOf, found]
  have breakless : ∀ line ∈ (managedFiles entries).map fun rel => (rel ++ " " ++ canonicalOf entries rel).toList,
      ∀ char ∈ line, char ≠ '\n' ∧ char ≠ '\r' := by
    intro line listed char inLine
    obtain ⟨rel, member, rfl⟩ := mem_map.mp listed
    have safe : ∀ char ∈ rel.toList, isSafeChar char = true := by
      have valid := (managed_leads formed member).1
      simp only [validateRelPath, Bool.and_eq_true, all_eq_true] at valid
      exact valid.2
    simp only [String.toList_append, mem_append] at inLine
    rcases inLine with (inRel | blank) | inCanonical
    · constructor <;> rintro rfl <;> exact absurd (safe _ inRel) (by decide)
    · obtain rfl : char = ' ' := by simpa using blank
      decide
    · exact ((plain rel member).2 char inCanonical).2
  have text : manifestText entries = String.ofList
      (((managedFiles entries).map fun rel => (rel ++ " " ++ canonicalOf entries rel).toList).flatMap fun line => line ++ ['\n']) := by
    rw [← String.ofList_toList (s := manifestText entries), manifestText, toList_manifest]
    simp
  rw [text, lines_flatMap breakless, map_map, map_map]
  conv_rhs => rw [← map_id (managedFiles entries)]
  refine map_congr_left fun rel member => ?_
  simp only [Function.comp_apply, String.ofList_toList, manifestEntry_line (plain rel member), id]

end Index.Minecraft
