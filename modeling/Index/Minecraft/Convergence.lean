import Index.Lib.Outcome
import Index.Minecraft.ManagedSet

/-! # Convergence

A run removes the files of the last generation and puts those of the new one.  Directories stay, and so does what
neither manages, so the run needs the way to be free: no file may be where a managed path needs a directory, and no
directory where it needs a file. -/

namespace Index.Minecraft

open Index.Lib List

/-! ## Removing -/

section Removing

variable {preserve : List String} {tree result : FileTree Content} {rels : List String}

/-- What the tree is without the files of a list of paths that are not preserved. -/
def Removed (preserve rels : List String) (tree result : FileTree Content) : Prop :=
  (∀ place, result.node place = some .dir ↔ tree.node place = some .dir) ∧
    ∀ place content, result.node place = some (.file content) ↔
      tree.node place = some (.file content) ∧ ∀ rel ∈ rels, rel ∉ preserve → segments rel ≠ place

/-- Nothing keeps a file from being removed. -/
def Removable (preserve rels : List String) (tree : FileTree Content) : Prop :=
  ∀ rel ∈ rels, rel ∉ preserve → tree.node (segments rel) ≠ some .dir ∧ tree.blocks (segments rel) = false

def removeRel (preserve : List String) (tree : FileTree Content) (rel : String) : Except SyncError (FileTree Content) :=
  if rel ∈ preserve then .ok tree else forFile rel (tree.removeIfPresent (segments rel))

theorem removeLine_eq {line : String} (valid : validateRelPathShape (manifestEntry line).rel = true) :
    removeLine preserve tree line = removeRel preserve tree (manifestEntry line).rel := by
  have written : (manifestEntry line).rel ≠ "" := by
    intro empty
    rw [empty] at valid
    exact absurd valid (by decide)
  rw [removeLine, removeRel]
  simp only [written, false_or, valid, if_true]

theorem succeedsIff_forFile {α : Type} {fits : Prop} {done : α → Prop} {run : Except FileError α} (rel : String)
    (succeeds : SucceedsIff fits done run) : SucceedsIff fits done (forFile rel run) := by
  cases run <;> exact succeeds

/-- Neither of two paths leads through the other. -/
def Distinct (rel other : String) : Prop := segments rel <+: segments other ∨ segments other <+: segments rel → rel = other

theorem Apart.pairwise (apart : Apart rels) : rels.Pairwise Distinct := by
  refine pairwise_of_forall_mem_list fun rel member other otherMember leads => ?_
  rcases leads with leads | leads
  · exact apart rel member other otherMember leads
  · exact (apart other otherMember rel member leads).symm

/-- Removing a list of paths that do not lead through each other. -/
theorem succeedsIff_removeAll (apart : Apart rels) :
    SucceedsIff (Removable preserve rels tree) (Removed preserve rels tree) (rels.foldlM (removeRel preserve) tree) := by
  refine SucceedsIff.foldlM (fun rel tree => rel ∉ preserve → tree.node (segments rel) ≠ some .dir ∧ tree.blocks (segments rel) = false)
    (Removed preserve) (fun rel _ tree => ?_) ?_ ?_ ?_ apart.pairwise tree
  · rw [removeRel]
    split_ifs with preserved
    · exact ⟨fun unpreserved => absurd preserved unpreserved, fun _ => Iff.rfl, by simp [preserved]⟩
    · refine (succeedsIff_forFile rel FileTree.succeedsIff_removeIfPresent).imp (by simp [preserved]) ?_
      rintro _ ⟨plain, -⟩ rfl
      refine ⟨fun place => ?_, fun place content => ?_⟩
      · rw [FileTree.node_without plain]
        split_ifs with here
        · simpa [here] using plain
        · rfl
      · rw [FileTree.node_without plain]
        split_ifs with here
        · simp [here, preserved]
        · simp [Ne.symm here]
  · rintro rel other tree next distinct - ⟨dirs, files⟩
    refine forall_congr' fun _ => and_congr (not_congr (dirs _)) ?_
    rw [← Bool.not_eq_true, ← Bool.not_eq_true, FileTree.blocks_iff, FileTree.blocks_iff]
    refine not_congr (exists_congr fun place => exists_congr fun content => and_congr_right fun leads => and_congr_right fun differ => ?_)
    rw [files, and_iff_left]
    rintro _ member - rfl
    exact differ (congrArg segments (distinct (Or.inl (mem_singleton.mp member ▸ leads)) ▸ mem_singleton.mp member))
  · exact fun tree => ⟨fun _ => Iff.rfl, by simp⟩
  · rintro rel rels tree next result - first rest
    refine ⟨fun place => (rest.1 place).trans (first.1 place), fun place content => ?_⟩
    rw [rest.2, first.2, forall_mem_singleton, forall_mem_cons, and_assoc]

end Removing

/-! ## Placing -/

section Placing

variable {sourceDir : String} {source : List (String × Source)} {materialize : Materialize} {tree result : FileTree Content}
  {rel text after : String} {rels : List String}

/-- What a managed file is put as. -/
def contentOf (sourceDir : String) (source : List (String × Source)) (materialize : Materialize) (rel : String) : Content :=
  content sourceDir materialize rel (bytesOf source rel)

/-- The line of the manifest for a managed file, after those before it. -/
def addLine (source : List (String × Source)) (text rel : String) : String := text ++ rel ++ " " ++ canonicalOf source rel ++ "\n"

/-- A file of a well-formed source. -/
def Known (source : List (String × Source)) (rel : String) : Prop :=
  validateRelPath rel = true ∧ find source (segments rel) = some (.file (some (bytesOf source rel, canonicalOf source rel)))

/-- The way to a path is free: no file is where it needs a directory, and no directory where it needs a file. -/
def Placeable (rels : List String) (tree : FileTree Content) : Prop :=
  ∀ rel ∈ rels, (∀ place, place <+: segments rel → place ≠ segments rel → ∀ content, tree.node place ≠ some (.file content)) ∧
    tree.node (segments rel) ≠ some .dir

/-- What the tree is with the managed files in it. -/
def Placed (contents : String → Content) (rels : List String) (tree result : FileTree Content) : Prop :=
  (∀ place, result.node place = some .dir ↔
      tree.node place = some .dir ∨ ∃ rel ∈ rels, place <+: segments rel ∧ place ≠ segments rel) ∧
    ∀ place content, result.node place = some (.file content) ↔
      (∃ rel ∈ rels, segments rel = place ∧ content = contents rel) ∨
        (∀ rel ∈ rels, segments rel ≠ place) ∧ tree.node place = some (.file content)

theorem proper_iff {path place : List String} {name : String} :
    place <+: path ++ [name] ∧ place ≠ path ++ [name] ↔ place <+: path := by
  constructor
  · rintro ⟨leads, differ⟩
    exact (prefix_concat_iff.mp leads).resolve_left differ
  · intro leads
    refine ⟨leads.trans (prefix_append ..), ?_⟩
    rintro rfl
    have shorter := leads.length_le
    simp at shorter

/-- What one file needs, and what the tree is with it. -/
def Fits (tree : FileTree Content) (path : List String) (name : String) : Prop :=
  (∀ place, place <+: path → ∀ content, tree.node place ≠ some (.file content)) ∧ tree.node (path ++ [name]) ≠ some .dir

def With (tree : FileTree Content) (path : List String) (name : String) (content : Content) (result : FileTree Content) : Prop :=
  (∀ place, result.node place = some .dir ↔ tree.node place = some .dir ∨ place <+: path) ∧
    ∀ place other, result.node place = some (.file other) ↔
      place = path ++ [name] ∧ other = content ∨ place ≠ path ++ [name] ∧ tree.node place = some (.file other)

section One

variable {path : List String} {name : String} {content : Content}

/-- Making the directories, removing what is there and making the file. -/
theorem with_of_placed {made result : FileTree Content} (fits : Fits tree path name)
    (isMade : ∀ place, made.node place = if place <+: path then some .dir else tree.node place)
    (madePlain : made.node (path ++ [name]) ≠ some .dir)
    (isResult : ∀ place, result.node place =
      if place = path ++ [name] then some (.file content) else (made.without (path ++ [name])).node place) :
    With tree path name content result := by
  obtain ⟨free, plain⟩ := fits
  have nodes : ∀ place, place ≠ path ++ [name] → result.node place = if place <+: path then some .dir else tree.node place := by
    intro place differ
    rw [isResult, if_neg differ, FileTree.node_without madePlain, if_neg differ, isMade]
  refine ⟨fun place => ?_, fun place other => ?_⟩
  · by_cases here : place = path ++ [name]
    · subst here
      rw [isResult, if_pos rfl]
      exact iff_of_false (by simp) fun isDir => isDir.elim plain fun leads => (proper_iff.mpr leads).2 rfl
    · rw [nodes place here]
      by_cases leads : place <+: path <;> simp [leads]
  · by_cases here : place = path ++ [name]
    · subst here
      rw [isResult, if_pos rfl]
      simp [eq_comm]
    · rw [nodes place here]
      by_cases leads : place <+: path
      · simp [here, leads, free place leads other]
      · simp [here, leads]

end One

theorem exists_split (rel : String) : ∃ path name, segments rel = path ++ [name] := by
  rcases eq_nil_or_concat (segments rel) with empty | ⟨path, name, split⟩
  · simp [segments] at empty
  · exact ⟨path, name, by simpa using split⟩

section Split

variable {path : List String} {name : String} (split : segments rel = path ++ [name])

include split

theorem placeable_singleton : Placeable [rel] tree ↔ Fits tree path name := by
  have proper : ∀ place, place <+: path ↔ place <+: path ++ [name] ∧ place ≠ path ++ [name] := fun _ => proper_iff.symm
  simp only [Placeable, forall_mem_singleton, Fits, split, proper, and_imp]

theorem placed_singleton {contents : String → Content} : Placed contents [rel] tree result ↔ With tree path name (contents rel) result := by
  have proper : ∀ place, place <+: path ↔ place <+: path ++ [name] ∧ place ≠ path ++ [name] := fun _ => proper_iff.symm
  simp only [Placed, With, mem_singleton, exists_eq_left, forall_eq, split, proper, eq_comm (a := path ++ [name]), ne_eq]

end Split

/-- A file of the source is placed if it fits. -/
theorem succeedsIff_placeFile (known : Known source rel) (placed : FileTree Content × String) :
    SucceedsIff (Placeable [rel] placed.1)
      (fun after => Placed (contentOf sourceDir source materialize) [rel] placed.1 after.1 ∧ after.2 = addLine source placed.2 rel)
      (placeFile sourceDir source materialize placed rel) := by
  obtain ⟨valid, found⟩ := known
  obtain ⟨path, name, split⟩ := exists_split rel
  simp only [placeable_singleton split, placed_singleton split, placeFile, valid, if_true, found]
  simp only [split, dropLast_concat]
  refine (succeedsIff_forFile rel FileTree.succeedsIff_createDirAll).bind fun made free isMade => ?_
  have unblocked : made.blocks (path ++ [name]) = false := by
    rw [← Bool.not_eq_true, FileTree.blocks_iff]
    rintro ⟨place, other, leads, differ, found⟩
    simp [isMade, proper_iff.mp ⟨leads, differ⟩] at found
  have removable : made.node (path ++ [name]) ≠ some .dir ∧ made.blocks (path ++ [name]) = false ↔
      placed.1.node (path ++ [name]) ≠ some .dir := by
    rw [and_iff_left unblocked, isMade, if_neg fun leads => (proper_iff.mpr leads).2 rfl]
  refine ((succeedsIff_forFile rel FileTree.succeedsIff_removeIfPresent).imp removable fun _ _ => id).bind_ok ?_
  rintro _ plain rfl
  have madePlain := (removable.mpr plain).1
  have creatable : (made.without (path ++ [name])).node (path ++ [name]) = none ∧
      (made.without (path ++ [name])).node (path ++ [name]).dropLast = some .dir := by
    simp [FileTree.node_without madePlain, isMade]
  obtain ⟨result, created, isResult⟩ := (succeedsIff_forFile rel FileTree.succeedsIff_create).exists_ok creatable
  rw [created]
  exact ⟨_, rfl, with_of_placed ⟨free, plain⟩ isMade madePlain isResult, rfl⟩

variable {contents : String → Content} {middle : FileTree Content}

/-- The placing of one file, seen from the placing of the others. -/
theorem placed_cons (placed : Placed contents [rel] tree middle)
    (apart : ∀ other ∈ rels, segments rel <+: segments other ∨ segments other <+: segments rel → rel = other) :
    Placed contents rels middle result ↔ Placed contents (rel :: rels) tree result := by
  obtain ⟨dirs, files⟩ := placed
  simp only [mem_singleton, exists_eq_left, forall_eq] at dirs files
  refine and_congr (forall_congr' fun place => ?_) (forall_congr' fun place => forall_congr' fun content => ?_)
  · rw [dirs]
    simp only [mem_cons, exists_eq_or_imp, or_assoc]
  · rw [files]
    refine iff_congr Iff.rfl ?_
    simp only [mem_cons, exists_eq_or_imp, forall_eq_or_imp]
    by_cases again : ∃ other ∈ rels, segments other = place
    · -- A path that is placed later as well is the same path, with the same content.
      obtain ⟨other, member, here⟩ := again
      have later : ¬ ∀ next ∈ rels, segments next ≠ place := fun absent => absent other member here
      have same : segments rel = place ∧ content = contents rel → ∃ next ∈ rels, segments next = place ∧ content = contents next := by
        rintro ⟨first, isContent⟩
        obtain rfl := apart other member (Or.inl (first.trans here.symm ▸ prefix_rfl))
        exact ⟨rel, member, first, isContent⟩
      simp only [later, false_and, and_false, or_false]
      exact ⟨Or.inr, fun either => either.elim same id⟩
    · have absent : ∀ other ∈ rels, segments other ≠ place := fun other member here => again ⟨other, member, here⟩
      have unplaced : ¬ ∃ other ∈ rels, segments other = place ∧ content = contents other :=
        fun ⟨other, member, here, _⟩ => again ⟨other, member, here⟩
      simp only [unplaced, false_or, or_false, and_true, iff_true_intro absent, true_and]

theorem placeable_after {other : String} (placed : Placed contents [rel] tree middle) (distinct : Distinct rel other) :
    Placeable [other] middle ↔ Placeable [other] tree := by
  obtain ⟨dirs, files⟩ := placed
  simp only [mem_singleton, exists_eq_left, forall_eq] at dirs files
  simp only [Placeable, forall_mem_singleton]
  refine and_congr ?_ (not_congr ?_)
  · refine forall_congr' fun place => forall_congr' fun leads => forall_congr' fun differ => forall_congr' fun content => not_congr ?_
    have elsewhere : segments rel ≠ place := by
      rintro rfl
      exact differ (congrArg segments (distinct (Or.inl leads)))
    simp [files, elsewhere]
  · rw [dirs, or_iff_left]
    rintro ⟨leads, differ⟩
    exact differ (congrArg segments (distinct (Or.inr leads)).symm)

/-- Placing the files of a source. -/
theorem succeedsIff_placeAll (known : ∀ rel ∈ rels, Known source rel) (apart : Apart rels) (placed : FileTree Content × String) :
    SucceedsIff (Placeable rels placed.1)
      (fun after => Placed (contentOf sourceDir source materialize) rels placed.1 after.1 ∧ after.2 = rels.foldl (addLine source) placed.2)
      (rels.foldlM (placeFile sourceDir source materialize) placed) := by
  refine (SucceedsIff.foldlM (fun rel placed => Placeable [rel] placed.1)
    (fun rels placed after => Placed (contentOf sourceDir source materialize) rels placed.1 after.1 ∧ after.2 = rels.foldl (addLine source) placed.2)
    (fun rel member => succeedsIff_placeFile (known rel member)) ?_ ?_ ?_ apart.pairwise placed).imp ?_ fun _ _ => id
  · exact fun rel other placed next distinct _ isNext => placeable_after isNext.1 distinct
  · exact fun placed => ⟨⟨by simp, by simp⟩, rfl⟩
  · rintro rel rels placed next final distinct ⟨first, firstLine⟩ ⟨rest, restLines⟩
    exact ⟨(placed_cons first distinct).mp rest, by rw [restLines, firstLine]; rfl⟩
  · simp only [Placeable, forall_mem_singleton]

end Placing

/-! ## A run -/

section Run

variable {sourceDir : String} {old new : List (String × Source)} {preserve : List String} {materialize : Materialize}
  {target after : Target} {text : String} {rel : String}

theorem known_of_mem (formed : WellFormedEntries new) (member : rel ∈ managedFiles new) : Known new rel := by
  obtain ⟨valid, bytes, canonical, found, -⟩ := managed_leads formed member
  refine ⟨valid, ?_⟩
  simp only [bytesOf, canonicalOf, found]

/-- The manifest names a managed set. -/
def Names (old : List (String × Source)) (manifest : Option String) : Prop :=
  (readManifestLines manifest).map (fun line => (manifestEntry line).rel) = managedFiles old

theorem names_manifestText (formed : WellFormedEntries new) : Names new (some (manifestText new)) :=
  entries_of_manifest formed

/-- The lines of the manifest of a well-formed source are removals of its files. -/
theorem removeLines_eq (formed : WellFormedEntries old) (names : Names old target.manifest) :
    (readManifestLines target.manifest).foldlM (removeLine preserve) target.tree =
      (managedFiles old).foldlM (removeRel preserve) target.tree := by
  have valid : ∀ line ∈ readManifestLines target.manifest, validateRelPathShape (manifestEntry line).rel = true := by
    intro line listed
    have member : (manifestEntry line).rel ∈ managedFiles old := names ▸ mem_map_of_mem listed
    have checked := (managed_leads formed member).1
    rw [validateRelPath, Bool.and_eq_true] at checked
    exact checked.1
  rw [← names, foldlM_map]
  exact foldlM_congr_mem (fun line listed _ => removeLine_eq (valid line listed)) target.tree

/-- The new files have room in the tree without the old ones. -/
def Room (preserve old new : List String) (tree : FileTree Content) : Prop :=
  ∀ rel ∈ new, (∀ place, place <+: segments rel → place ≠ segments rel → ∀ content, tree.node place = some (.file content) →
    ∃ gone ∈ old, gone ∉ preserve ∧ segments gone = place) ∧ tree.node (segments rel) ≠ some .dir

theorem Removed.placeable_iff {old new : List String} {tree cleared : FileTree Content} (removed : Removed preserve old tree cleared) :
    Placeable new cleared ↔ Room preserve old new tree := by
  simp only [Placeable, Room, ne_eq, removed.1, removed.2, not_and, not_forall, not_not, exists_prop]

/-- What a run does: it succeeds if nothing is in its way. -/
theorem succeedsIff_syncTree (oldFormed : WellFormedEntries old) (newFormed : WellFormedEntries new) (names : Names old target.manifest) :
    SucceedsIff (Removable preserve (managedFiles old) target.tree ∧ Room preserve (managedFiles old) (managedFiles new) target.tree)
      (fun after => ∃ cleared, Removed preserve (managedFiles old) target.tree cleared ∧
        Placed (contentOf sourceDir new materialize) (managedFiles new) cleared after.tree ∧ after.manifest = some (manifestText new))
      (syncTree sourceDir new preserve materialize target) := by
  rw [syncTree, removeLines_eq oldFormed names]
  refine (succeedsIff_removeAll (managed_apart oldFormed)).bind fun cleared _ removed => ?_
  rw [← removed.placeable_iff]
  refine (succeedsIff_placeAll (fun _ => known_of_mem newFormed) (managed_apart newFormed) (cleared, "")).bind_ok ?_
  exact fun placed _ isPlaced => ⟨_, rfl, cleared, removed, isPlaced.1, congrArg some isPlaced.2⟩

/-- A run with a source has written the manifest, or the source manages nothing and no run has. -/
def Recorded (old : List (String × Source)) (manifest : Option String) : Prop :=
  (∃ oldDir oldPreserve oldMaterialize before after,
      syncTree oldDir old oldPreserve oldMaterialize before = .ok after ∧ manifest = after.manifest) ∨
    manifest = none ∧ managedFiles old = []

theorem manifest_of_ok (formed : WellFormedEntries new) (ran : syncTree sourceDir new preserve materialize target = .ok after) :
    after.manifest = some (manifestText new) := by
  obtain ⟨cleared, -, finishing⟩ := bind_eq_ok.mp ran
  obtain ⟨placed, placing, done⟩ := bind_eq_ok.mp finishing
  have written := ((succeedsIff_placeAll (fun _ => known_of_mem formed) (managed_apart formed) (cleared, "")).of_ok placing).2.2
  cases done
  exact congrArg some written

theorem Recorded.names {manifest : Option String} (recorded : Recorded old manifest) (formed : WellFormedEntries old) :
    Names old manifest := by
  rcases recorded with ⟨oldDir, oldPreserve, oldMaterialize, before, after, ran, rfl⟩ | ⟨rfl, nothing⟩
  · rw [manifest_of_ok formed ran]
    exact names_manifestText formed
  · exact nothing.symm

/-! ## Room for the new files -/

/-- The run succeeds, leaves the new managed files and those that neither source manages, writes a manifest of the new
ones, and has nothing left to do. -/
def Converges (sourceDir : String) (old new : List (String × Source)) (preserve : List String) (materialize : Materialize)
    (target : Target) : Prop :=
  ∃ after, syncTree sourceDir new preserve materialize target = .ok after ∧
    (∀ place content, after.tree.node place = some (.file content) ↔
      (∃ rel ∈ managedFiles new, segments rel = place ∧ content = contentOf sourceDir new materialize rel) ∨
        (∀ rel ∈ managedFiles old ++ managedFiles new, segments rel ≠ place) ∧ target.tree.node place = some (.file content)) ∧
    Names new after.manifest ∧
    syncTree sourceDir new preserve materialize after = .ok after

/-- The new managed files have room beside what the run does not remove. -/
structure Compatible (old new : List (String × Source)) (preserve : List String) (tree : FileTree Content) : Prop where
  /-- No file has taken the place of a directory that an old file was in. -/
  reachable : ∀ rel ∈ managedFiles old, rel ∉ preserve → tree.blocks (segments rel) = false
  /-- A file where a new one needs a directory is an old one that goes. -/
  openWay : ∀ rel ∈ managedFiles new, ∀ place, place <+: segments rel → place ≠ segments rel → ∀ content,
    tree.node place = some (.file content) → ∃ gone ∈ managedFiles old, gone ∉ preserve ∧ segments gone = place
  /-- No directory is where a new file goes. -/
  vacant : ∀ rel ∈ managedFiles new, tree.node (segments rel) ≠ some .dir
  /-- No old file is preserved that is not a new one too. -/
  superseded : ∀ rel ∈ managedFiles old, rel ∈ preserve → rel ∉ managedFiles new → tree.node (segments rel) = none

section Placed

variable {tree : FileTree Content} {contents : String → Content} {cleared : FileTree Content} {rels : List String}
  {rel : String}

theorem node_of_placed (placed : Placed contents rels cleared tree) (member : rel ∈ rels) :
    tree.node (segments rel) = some (.file (contents rel)) :=
  (placed.2 _ _).mpr (Or.inl ⟨rel, member, rfl, rfl⟩)

theorem dir_of_placed (placed : Placed contents rels cleared tree) (member : rel ∈ rels) {place : List String}
    (leads : place <+: segments rel) (differ : place ≠ segments rel) : tree.node place = some .dir :=
  (placed.1 _).mpr (Or.inr ⟨rel, member, leads, differ⟩)

end Placed

/-- A run whose files are in place already changes nothing. -/
theorem syncTree_again (formed : WellFormedEntries new) (manifest : after.manifest = some (manifestText new)) {cleared : FileTree Content}
    (placed : Placed (contentOf sourceDir new materialize) (managedFiles new) cleared after.tree) :
    syncTree sourceDir new preserve materialize after = .ok after := by
  have names : Names new after.manifest := by
    rw [manifest]
    exact names_manifestText formed
  have removable : Removable preserve (managedFiles new) after.tree := by
    intro rel member _
    have there := node_of_placed placed member
    exact ⟨by simp [there], FileTree.blocks_of_there (by simp [there])⟩
  have room : Room preserve (managedFiles new) (managedFiles new) after.tree := by
    refine fun rel member => ⟨fun place leads differ content found => ?_, by simp [node_of_placed placed member]⟩
    cases found.symm.trans (dir_of_placed placed member leads differ)
  obtain ⟨again, ran, removed, isRemoved, isPlaced, written⟩ := (succeedsIff_syncTree formed formed names).exists_ok ⟨removable, room⟩
  have sameTree : again.tree = after.tree := by
    refine FileTree.eq_of_dirs_files (fun place => ?_) fun place content => ?_
    · rw [isPlaced.1, isRemoved.1, or_iff_left_of_imp]
      rintro ⟨rel, member, leads, differ⟩
      exact dir_of_placed placed member leads differ
    · rw [isPlaced.2, isRemoved.2, placed.2]
      constructor
      · rintro (isNew | ⟨_, there, _⟩)
        · exact Or.inl isNew
        · exact there
      · rintro (isNew | ⟨elsewhere, found⟩)
        · exact Or.inl isNew
        · exact Or.inr ⟨elsewhere, Or.inr ⟨elsewhere, found⟩, fun rel member _ => elsewhere rel member⟩
  cases again
  cases after
  subst sameTree manifest written
  exact ran

section Room

variable (oldFormed : WellFormedEntries old) (newFormed : WellFormedEntries new) (recorded : Recorded old target.manifest)

include oldFormed newFormed recorded

theorem compatible_of_converges (inPlace : ∀ rel ∈ managedFiles old, target.tree.node (segments rel) ≠ some .dir)
    (converges : Converges sourceDir old new preserve materialize target) : Compatible old new preserve target.tree := by
  obtain ⟨after, ran, files, -⟩ := converges
  obtain ⟨⟨removable, room⟩, cleared, removed, placed, -⟩ :=
    (succeedsIff_syncTree oldFormed newFormed (recorded.names oldFormed)).of_ok ran
  refine ⟨fun rel member unpreserved => (removable rel member unpreserved).2, fun rel member => (room rel member).1,
    fun rel member => (room rel member).2, fun rel member preserved dropped => ?_⟩
  cases found : target.tree.node (segments rel) with
  | none => rfl
  | some node =>
    cases node with
    | dir => exact absurd found (inPlace rel member)
    | file content =>
      -- The file is neither removed nor replaced, so it is still there.
      have unremoved : cleared.node (segments rel) = some (.file content) := by
        refine (removed.2 _ _).mpr ⟨found, fun other _ unpreserved same => ?_⟩
        exact unpreserved (segments_injective same ▸ preserved)
      have remains : after.tree.node (segments rel) = some (.file content) := by
        refine (placed.2 _ _).mpr (Or.inr ⟨fun other otherMember same => ?_, unremoved⟩)
        exact dropped (segments_injective same ▸ otherMember)
      rcases (files _ _).mp remains with ⟨other, otherMember, same, -⟩ | ⟨unmanaged, -⟩
      · exact absurd (segments_injective same ▸ otherMember) dropped
      · exact absurd rfl (unmanaged rel (mem_append_left _ member))

theorem converges_of_compatible (inPlace : ∀ rel ∈ managedFiles old, target.tree.node (segments rel) ≠ some .dir)
    (compatible : Compatible old new preserve target.tree) : Converges sourceDir old new preserve materialize target := by
  obtain ⟨reachable, openWay, vacant, superseded⟩ := compatible
  have removable : Removable preserve (managedFiles old) target.tree := fun rel member unpreserved =>
    ⟨inPlace rel member, reachable rel member unpreserved⟩
  obtain ⟨after, ran, cleared, removed, placed, written⟩ :=
    (succeedsIff_syncTree oldFormed newFormed (recorded.names oldFormed)).exists_ok
      ⟨removable, fun rel member => ⟨openWay rel member, vacant rel member⟩⟩
  refine ⟨after, ran, fun place content => ?_, written ▸ names_manifestText newFormed, syncTree_again newFormed written placed⟩
  rw [placed.2, removed.2]
  refine or_congr_right ⟨?_, ?_⟩
  · rintro ⟨notNew, found, notRemoved⟩
    refine ⟨fun rel member here => ?_, found⟩
    rcases mem_append.mp member with isOld | isNew
    · by_cases preserved : rel ∈ preserve
      · have absent := superseded rel isOld preserved fun isNew => notNew rel isNew here
        rw [here, found] at absent
        cases absent
      · exact notRemoved rel isOld preserved here
    · exact notNew rel isNew here
  · rintro ⟨unmanaged, found⟩
    obtain ⟨notOld, notNew⟩ := forall_mem_append.mp unmanaged
    exact ⟨notNew, found, fun rel member _ => notOld rel member⟩

end Room

/-! ## The first run -/

theorem empty_ne_dir : (FileTree.empty : FileTree Content).node (segments rel) ≠ some .dir := by
  obtain ⟨path, name, split⟩ := exists_split rel
  simp [FileTree.empty, split]

theorem empty_ne_file {place : List String} {content : Content} : (FileTree.empty : FileTree Content).node place ≠ some (.file content) := by
  simp only [FileTree.empty]
  split_ifs <;> simp

theorem compatible_empty : Compatible old new preserve FileTree.empty where
  reachable rel _ _ := by
    rw [← Bool.not_eq_true, FileTree.blocks_iff]
    rintro ⟨place, content, -, -, found⟩
    exact empty_ne_file found
  openWay _ _ _ _ _ _ found := absurd found empty_ne_file
  vacant _ _ := empty_ne_dir
  superseded rel _ _ _ := by
    obtain ⟨path, name, split⟩ := exists_split rel
    simp [FileTree.empty, split]

/-- The manifest of a source is what a first run with it writes. -/
theorem recorded_manifestText (formed : WellFormedEntries new) : Recorded new (some (manifestText new)) := by
  have first : Recorded [] (⟨.empty, none⟩ : Target).manifest := Or.inr ⟨rfl, by simp [managedFiles, collectManagedFiles]⟩
  obtain ⟨after, ran, -⟩ := @converges_of_compatible "" [] new [] .symlink ⟨.empty, none⟩ trivial formed first (fun _ _ => empty_ne_dir)
    compatible_empty
  exact Or.inl ⟨_, _, _, _, after, ran, (manifest_of_ok formed ran).symm⟩

/-! ## Convergence -/

end Run

/-! ## Directories that stay -/

def nested : List (String × Source) := [("a", .dir [("b", .file (some ([1], "/store/old/a/b")))])]

def flat : List (String × Source) := [("a", .file (some ([2], "/store/new/a")))]

theorem nested_wellFormed : WellFormedEntries nested :=
  ⟨by decide, by simp, ⟨by decide, by simp, ⟨_, _, rfl, by decide +kernel⟩, trivial⟩, trivial⟩

theorem flat_wellFormed : WellFormedEntries flat :=
  ⟨by decide, by simp, ⟨_, _, rfl, by decide +kernel⟩, trivial⟩

end Index.Minecraft
