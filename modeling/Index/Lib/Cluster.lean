import Mathlib.Data.Set.Insert
import Mathlib.Logic.Relation
import Mathlib.Order.Bounds.Basic
import Mathlib.Order.MinMax

/-! # Clusters of closed ranges

Ranges that touch or overlap, directly or through others, form clusters.  A cluster is grown from its
first range by absorbing any range that starts within it.  Clusters that lie apart from each other are
exactly the classes of the transitive closure of touching. -/

namespace Index.Lib

variable {ι α : Type*} [LinearOrder α] (start stop : ι → α)

/-- The closed ranges of two items have a point in common. -/
def Touch (first second : ι) : Prop := start first ≤ stop second ∧ start second ≤ stop first

/-- Items connected by a chain of items of a set, each touching the next. -/
def Linked (members : Set ι) : ι → ι → Prop :=
  Relation.ReflTransGen fun first second => first ∈ members ∧ second ∈ members ∧ Touch start stop first second

variable {start stop} {members : Set ι} {item first second : ι} {low high : α}

theorem Touch.symm (touch : Touch start stop first second) : Touch start stop second first := ⟨touch.2, touch.1⟩

theorem Linked.symm (linked : Linked start stop members first second) : Linked start stop members second first :=
  Relation.ReflTransGen.mono (fun _ _ ⟨here, there, touch⟩ => ⟨there, here, touch.symm⟩) _ _
    (Relation.ReflTransGen.swap _ _ linked)

theorem Linked.mono {larger : Set ι} (subset : members ⊆ larger) (linked : Linked start stop members first second) :
    Linked start stop larger first second :=
  Relation.ReflTransGen.mono (fun _ _ ⟨here, there, touch⟩ => ⟨subset here, subset there, touch⟩) _ _ linked

/-! ## Growing a cluster -/

/-- The members fill the range from `low` to `high` without a gap. -/
structure Cluster (start stop : ι → α) (members : Set ι) (low high : α) : Prop where
  within : ∀ item ∈ members, low ≤ start item ∧ start item ≤ stop item ∧ stop item ≤ high
  covers : ∀ point, low ≤ point → point ≤ high → ∃ item ∈ members, start item ≤ point ∧ point ≤ stop item
  linked : ∀ first ∈ members, ∀ second ∈ members, Linked start stop members first second

theorem Cluster.singleton (ordered : start item ≤ stop item) : Cluster start stop {item} (start item) (stop item) where
  within := by
    rintro other rfl
    exact ⟨le_rfl, ordered, le_rfl⟩
  covers _ above below := ⟨item, rfl, above, below⟩
  linked := by
    rintro first rfl second rfl
    exact .refl

/-- A range that starts within a cluster is absorbed by it. -/
theorem Cluster.absorb (cluster : Cluster start stop members low high) (ordered : start item ≤ stop item)
    (above : low ≤ start item) (below : start item ≤ high) :
    Cluster start stop (insert item members) low (max high (stop item)) where
  within := by
    rintro other (rfl | member)
    · exact ⟨above, ordered, le_max_right _ _⟩
    · obtain ⟨lower, inOrder, upper⟩ := cluster.within other member
      exact ⟨lower, inOrder, upper.trans (le_max_left _ _)⟩
  covers point pointAbove pointBelow := by
    rcases le_or_gt point high with inside | beyond
    · obtain ⟨other, member, around⟩ := cluster.covers point pointAbove inside
      exact ⟨other, .inr member, around⟩
    · exact ⟨item, .inl rfl, below.trans beyond.le, (le_max_iff.mp pointBelow).resolve_left beyond.not_ge⟩
  linked := by
    -- the member that covers the new start touches the new range
    obtain ⟨bridge, bridgeMember, bridgeStart, bridgeStop⟩ := cluster.covers _ above below
    have crossing : Linked start stop (insert item members) item bridge :=
      .single ⟨.inl rfl, .inr bridgeMember, bridgeStop, bridgeStart.trans ordered⟩
    have toItem : ∀ other ∈ insert item members, Linked start stop (insert item members) other item := by
      rintro other (rfl | member)
      · exact .refl
      · exact ((cluster.linked other member bridge bridgeMember).mono (Set.subset_insert _ _)).trans crossing.symm
    intro first firstMember second secondMember
    exact (toItem first firstMember).trans (toItem second secondMember).symm

/-- What growth has reached: nothing yet, or a cluster. -/
def Grown (start stop : ι → α) (members : Set ι) (low high : α) : Prop :=
  members = ∅ ∧ high = low ∨ Cluster start stop members low high

theorem Grown.absorb (grown : Grown start stop members low high) (ordered : start item ≤ stop item)
    (above : low ≤ start item) (below : start item ≤ high) :
    Grown start stop (insert item members) low (max high (stop item)) := by
  rcases grown with ⟨rfl, rfl⟩ | cluster
  · -- the first range starts exactly where the growth does
    obtain rfl : start item = high := le_antisymm below above
    rw [max_eq_right ordered, LawfulSingleton.insert_empty_eq]
    exact .inr (.singleton ordered)
  · exact .inr (cluster.absorb ordered above below)

theorem Grown.cluster (grown : Grown start stop members low high) (member : item ∈ members) :
    Cluster start stop members low high := by
  rcases grown with ⟨rfl, -⟩ | cluster
  · exact absurd member (Set.notMem_empty item)
  · exact cluster

/-! ## Separated clusters -/

variable {κ : Type*} {clusters : List κ} {membersOf : κ → Set ι} {low high : κ → α}

/-- All items of a list of clusters. -/
def allMembers (clusters : List κ) (membersOf : κ → Set ι) : Set ι := {item | ∃ cluster ∈ clusters, item ∈ membersOf cluster}

/-- Clusters with gaps between them are the classes of linked items. -/
theorem same_cluster_iff (each : ∀ cluster ∈ clusters, Cluster start stop (membersOf cluster) (low cluster) (high cluster))
    (apart : clusters.Pairwise fun earlier later => high earlier < low later)
    (member : first ∈ allMembers clusters membersOf) :
    (∃ cluster ∈ clusters, first ∈ membersOf cluster ∧ second ∈ membersOf cluster) ↔
      Linked start stop (allMembers clusters membersOf) first second := by
  constructor
  · rintro ⟨cluster, inside, here, there⟩
    exact ((each cluster inside).linked first here second there).mono fun item itemMember => ⟨cluster, inside, itemMember⟩
  · intro linked
    induction linked with
    | refl =>
      obtain ⟨cluster, inside, here⟩ := member
      exact ⟨cluster, inside, here, here⟩
    | @tail between second _ step ih =>
      obtain ⟨cluster, inside, here, there⟩ := ih
      obtain ⟨-, ⟨other, otherInside, beyond⟩, touch⟩ := step
      obtain ⟨lower, -, upper⟩ := (each cluster inside).within between there
      obtain ⟨otherLower, -, otherUpper⟩ := (each other otherInside).within second beyond
      have separated : cluster = other ∨ high cluster < low other ∨ high other < low cluster :=
        List.Pairwise.forall_of_forall_of_flip (R := fun one two => one = two ∨ high one < low two ∨ high two < low one)
          (fun _ _ => .inl rfl) (apart.imp fun before => .inr (.inl before))
          (apart.imp fun before => .inr (.inr before)) inside otherInside
      rcases separated with rfl | before | after
      · exact ⟨cluster, inside, here, beyond⟩
      · exact absurd (touch.2.trans upper) (before.trans_le otherLower).not_ge
      · exact absurd (touch.1.trans otherUpper) (after.trans_le lower).not_ge

end Index.Lib
