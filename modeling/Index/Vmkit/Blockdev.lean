import Mathlib

/-! # Disks with mounted filesystems

A disk must not be attached for writing while a filesystem on it is mounted.  The filesystems of an APFS container are
mounted off a disk of its own, which the container's physical stores link to the disk they lie on. -/

namespace Index.Vmkit

structure SnapshotRef where
  snapshotBsd : Option String
  snapshotMountPoint : Option String

structure VolumeEntry where
  deviceIdentifier : String
  mountPoint : Option String
  mountedSnapshots : List SnapshotRef

structure DiskEntry where
  deviceIdentifier : String
  /-- There if a filesystem is on the whole disk. -/
  mountPoint : Option String
  partitions : List VolumeEntry
  apfsVolumes : List VolumeEntry
  apfsPhysicalStores : List String

def DiskEntry.volumes (disk : DiskEntry) : List VolumeEntry := disk.partitions ++ disk.apfsVolumes

/-- Whether an identifier is one of the roots or a slice of one. -/
def underAny (roots : List String) (id : String) : Bool :=
  roots.any fun root => id = root || (root.toList ++ ['s']).isPrefixOf id.toList

/-- One pass over the disks, and whether it found a new root. -/
def growRoots : List DiskEntry → List String → List String × Bool
  | [], roots => (roots, false)
  | disk :: disks, roots =>
    if disk.apfsPhysicalStores.any (underAny roots) ∧ disk.deviceIdentifier ∉ roots then
      ((growRoots disks (roots ++ [disk.deviceIdentifier])).1, true)
    else growRoots disks roots

variable {disks rest : List DiskEntry} {roots : List String} {disk : DiskEntry} {target id : String}

/-- A pass keeps the roots.  It adds a disk that was none, or all disks on a root are roots already. -/
theorem growRoots_spec (disks : List DiskEntry) (roots : List String) : roots ⊆ (growRoots disks roots).1 ∧
    if (growRoots disks roots).2 then ∃ disk ∈ disks, disk.deviceIdentifier ∉ roots ∧ disk.deviceIdentifier ∈ (growRoots disks roots).1
    else (growRoots disks roots).1 = roots ∧
      ∀ disk ∈ disks, disk.apfsPhysicalStores.any (underAny roots) = true → disk.deviceIdentifier ∈ roots := by
  fun_induction growRoots disks roots with
  | case1 roots => simp
  | case2 disk disks roots joins ih =>
    obtain ⟨kept, added⟩ := List.append_subset.mp ih.1
    exact ⟨kept, disk, List.mem_cons_self, joins.2, added (by simp)⟩
  | case3 disk disks roots stays ih =>
    refine ⟨ih.1, ?_⟩
    split_ifs with grew
    · rw [if_pos grew] at ih
      exact ih.2.imp fun other found => ⟨List.mem_cons_of_mem _ found.1, found.2⟩
    · rw [if_neg grew] at ih
      refine ⟨ih.2.1, List.forall_mem_cons.mpr ⟨fun on => ?_, ih.2.2⟩⟩
      by_contra outside
      exact stays ⟨on, outside⟩

def growUntilStable (disks : List DiskEntry) (roots : List String) : List String :=
  if (growRoots disks roots).2 then growUntilStable disks (growRoots disks roots).1 else (growRoots disks roots).1
termination_by (disks.filter fun disk => disk.deviceIdentifier ∉ roots).length
decreasing_by
  rename_i grew
  obtain ⟨kept, found⟩ := growRoots_spec disks roots
  rw [if_pos grew] at found
  obtain ⟨disk, listed, fresh, added⟩ := found
  have fewer : (disks.filter fun disk => disk.deviceIdentifier ∉ (growRoots disks roots).1).Sublist
      (disks.filter fun disk => disk.deviceIdentifier ∉ roots) :=
    List.monotone_filter_right _ fun disk outside => by simpa using fun inside => (of_decide_eq_true outside) (kept inside)
  refine Nat.lt_of_le_of_ne fewer.length_le fun same => ?_
  have member : disk ∈ disks.filter fun disk => disk.deviceIdentifier ∉ roots := by simp [listed, fresh]
  rw [← fewer.eq_of_length same] at member
  simp [added] at member

def pushMount (roots : List String) (id : String) : Option String → List String
  | some mountPoint => if underAny roots id then [id ++ " at " ++ mountPoint] else []
  | none => []

def pushSnapshot (roots : List String) (volume : VolumeEntry) (snapshot : SnapshotRef) : List String :=
  match snapshot.snapshotMountPoint with
  | some mountPoint =>
    let snapId := snapshot.snapshotBsd.getD volume.deviceIdentifier
    if underAny roots snapId ∨ underAny roots volume.deviceIdentifier then [snapId ++ " (snapshot) at " ++ mountPoint] else []
  | none => []

def mountedIn (disks : List DiskEntry) (target : String) : List String :=
  let roots := growUntilStable disks [target]
  disks.flatMap fun disk => pushMount roots disk.deviceIdentifier disk.mountPoint ++
    disk.volumes.flatMap fun volume => pushMount roots volume.deviceIdentifier volume.mountPoint ++
      volume.mountedSnapshots.flatMap (pushSnapshot roots volume)

/-! ## What a device hosts -/

/-- The device itself, or a slice of it: what follows its identifier begins with an s. -/
def Covers (root id : String) : Prop := id = root ∨ ∃ slice, id.toList = root.toList ++ 's' :: slice

/-- The target, and the disks of which a physical store is on a reached device. -/
inductive Reached (disks : List DiskEntry) (target : String) : String → Prop
  | target : Reached disks target target
  | store {disk : DiskEntry} {root store : String} (listed : disk ∈ disks) (stored : store ∈ disk.apfsPhysicalStores)
      (reached : Reached disks target root) (covers : Covers root store) : Reached disks target disk.deviceIdentifier

/-- The devices that a listed mount point belongs to; a snapshot belongs to its volume as well. -/
inductive Mounted (disks : List DiskEntry) : String → Prop
  | disk {disk : DiskEntry} (listed : disk ∈ disks) (mounted : disk.mountPoint.isSome) : Mounted disks disk.deviceIdentifier
  | volume {disk : DiskEntry} {volume : VolumeEntry} (listed : disk ∈ disks) (inDisk : volume ∈ disk.volumes)
      (mounted : volume.mountPoint.isSome) : Mounted disks volume.deviceIdentifier
  | snapshot {disk : DiskEntry} {volume : VolumeEntry} {snapshot : SnapshotRef} {id : String} (listed : disk ∈ disks)
      (inDisk : volume ∈ disk.volumes) (inVolume : snapshot ∈ volume.mountedSnapshots)
      (mounted : snapshot.snapshotMountPoint.isSome)
      (device : id = volume.deviceIdentifier ∨ id = snapshot.snapshotBsd.getD volume.deviceIdentifier) : Mounted disks id

theorem underAny_iff : underAny roots id = true ↔ ∃ root ∈ roots, Covers root id := by
  simp only [underAny, List.any_eq_true, Bool.or_eq_true, decide_eq_true_eq, List.isPrefixOf_iff_prefix, Covers]
  refine exists_congr fun root => and_congr_right fun _ => or_congr_right (exists_congr fun slice => ?_)
  simp [eq_comm]

theorem reached_growRoots (sub : rest ⊆ disks) (reached : ∀ root ∈ roots, Reached disks target root) :
    ∀ root ∈ (growRoots rest roots).1, Reached disks target root := by
  fun_induction growRoots rest roots with
  | case1 => exact reached
  | case2 disk rest roots joins ih =>
    obtain ⟨listed, sub⟩ := List.cons_subset.mp sub
    refine ih sub (List.forall_mem_append.mpr ⟨reached, List.forall_mem_singleton.mpr ?_⟩)
    obtain ⟨store, stored, under⟩ := List.any_eq_true.mp joins.1
    obtain ⟨root, member, covers⟩ := underAny_iff.mp under
    exact .store listed stored (reached root member) covers
  | case3 disk rest roots stays ih => exact ih (List.cons_subset.mp sub).2 reached

/-- The roots that are found are the reached devices. -/
theorem mem_growUntilStable : id ∈ growUntilStable disks [target] ↔ Reached disks target id := by
  have sound : ∀ roots, (∀ root ∈ roots, Reached disks target root) → ∀ root ∈ growUntilStable disks roots, Reached disks target root := by
    intro roots
    fun_induction growUntilStable disks roots with
    | case1 roots grew ih => exact fun reached => ih (reached_growRoots (List.Subset.refl _) reached)
    | case2 roots stable => exact reached_growRoots (List.Subset.refl _)
  have closed : ∀ roots, roots ⊆ growUntilStable disks roots ∧ ∀ disk ∈ disks,
      disk.apfsPhysicalStores.any (underAny (growUntilStable disks roots)) = true → disk.deviceIdentifier ∈ growUntilStable disks roots := by
    intro roots
    fun_induction growUntilStable disks roots with
    | case1 roots grew ih => exact ⟨List.Subset.trans (growRoots_spec disks roots).1 ih.1, ih.2⟩
    | case2 roots stable =>
      obtain ⟨kept, found⟩ := growRoots_spec disks roots
      rw [if_neg stable] at found
      rw [found.1]
      exact ⟨List.Subset.refl _, found.2⟩
  refine ⟨sound [target] (by simp [Reached.target]) id, fun reached => ?_⟩
  induction reached with
  | target => exact (closed [target]).1 (List.mem_singleton_self _)
  | store listed stored _ covers ih =>
    exact (closed [target]).2 _ listed (List.any_eq_true.mpr ⟨_, stored, underAny_iff.mpr ⟨_, ih, covers⟩⟩)

theorem pushMount_ne_nil {mountPoint : Option String} : pushMount roots id mountPoint ≠ [] ↔ mountPoint.isSome ∧ underAny roots id = true := by
  cases mountPoint <;> simp [pushMount]

theorem pushSnapshot_ne_nil {volume : VolumeEntry} {snapshot : SnapshotRef} : pushSnapshot roots volume snapshot ≠ [] ↔
    snapshot.snapshotMountPoint.isSome ∧ (underAny roots (snapshot.snapshotBsd.getD volume.deviceIdentifier) = true ∨
      underAny roots volume.deviceIdentifier = true) := by
  unfold pushSnapshot
  cases snapshot.snapshotMountPoint with
  | none => simp
  | some mountPoint => simp [or_iff_not_imp_left]

/-- A device is refused if and only if a mount point belongs to a device on it or on a disk that is reached from it. -/
theorem mountedIn_ne_nil_iff (disks : List DiskEntry) (target : String) :
    mountedIn disks target ≠ [] ↔ ∃ root id, Reached disks target root ∧ Mounted disks id ∧ Covers root id := by
  have under : ∀ id, underAny (growUntilStable disks [target]) id = true ↔ ∃ root, Reached disks target root ∧ Covers root id := by
    simp only [underAny_iff, mem_growUntilStable, implies_true]
  simp only [mountedIn, ne_eq, List.flatMap_eq_nil_iff, List.append_eq_nil_iff, not_forall, not_and_or, exists_prop]
  simp only [← ne_eq, pushMount_ne_nil, pushSnapshot_ne_nil, under]
  constructor
  · rintro ⟨disk, listed, ⟨mounted, root, reached, covers⟩ | ⟨volume, inDisk, ⟨mounted, root, reached, covers⟩ |
      ⟨snapshot, inVolume, mounted, ⟨root, reached, covers⟩ | ⟨root, reached, covers⟩⟩⟩⟩
    · exact ⟨root, _, reached, .disk listed mounted, covers⟩
    · exact ⟨root, _, reached, .volume listed inDisk mounted, covers⟩
    · exact ⟨root, _, reached, .snapshot listed inDisk inVolume mounted (.inr rfl), covers⟩
    · exact ⟨root, _, reached, .snapshot listed inDisk inVolume mounted (.inl rfl), covers⟩
  · rintro ⟨root, id, reached, mounted, covers⟩
    cases mounted with
    | disk listed mounted => exact ⟨_, listed, .inl ⟨mounted, root, reached, covers⟩⟩
    | volume listed inDisk mounted => exact ⟨_, listed, .inr ⟨_, inDisk, .inl ⟨mounted, root, reached, covers⟩⟩⟩
    | snapshot listed inDisk inVolume mounted device =>
      refine ⟨_, listed, .inr ⟨_, inDisk, .inr ⟨_, inVolume, mounted, ?_⟩⟩⟩
      rcases device with rfl | rfl
      · exact .inr ⟨root, reached, covers⟩
      · exact .inl ⟨root, reached, covers⟩

end Index.Vmkit
