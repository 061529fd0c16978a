import Mathlib

/-! # Overlap of sorted feature lists

The sizes of the multiset intersection and union come from one merge of two sorted lists of hashes, run by run.
A position in a list is what is left of it, and the counters are numbers: they only grow, so none of them wraps when the counts fit. -/

namespace Index.CloneDetect

open List

structure Run where
  value : UInt64
  count : Nat

structure Overlap where
  intersection : Nat
  union : Nat
  lenA : Nat
  lenB : Nat

def runLength : List UInt64 → Run
  | [] => ⟨0, 0⟩
  | value :: rest => ⟨value, 1 + (rest.takeWhile (· == value)).length⟩

theorem runLength_pos (value : UInt64) (rest : List UInt64) : 0 < (runLength (value :: rest)).count :=
  Nat.lt_add_right _ one_pos

/-- The loop over the list that is not exhausted. -/
def drain (union : Nat) : List UInt64 → Nat
  | [] => union
  | value :: rest =>
    drain (union + (runLength (value :: rest)).count) ((value :: rest).drop (runLength (value :: rest)).count)
termination_by list => list.length
decreasing_by grind [runLength_pos]

def mergeLoop (intersection union : Nat) : List UInt64 → List UInt64 → Nat × Nat
  | x :: a, y :: b =>
    let runA := runLength (x :: a)
    let runB := runLength (y :: b)
    if runA.value < runB.value then mergeLoop intersection (union + runA.count) ((x :: a).drop runA.count) (y :: b)
    else if runB.value < runA.value then mergeLoop intersection (union + runB.count) (x :: a) ((y :: b).drop runB.count)
    else
      mergeLoop (intersection + min runA.count runB.count) (union + max runA.count runB.count)
        ((x :: a).drop runA.count) ((y :: b).drop runB.count)
  | a, b => (intersection, drain (drain union a) b)
termination_by a b => a.length + b.length
decreasing_by all_goals grind [runLength_pos]

def mergeSorted (a b : List UInt64) : Overlap :=
  let (intersection, union) := mergeLoop 0 0 a b
  ⟨intersection, union, a.length, b.length⟩

/-- The quotients are exact here. -/
def multisetSorted (a b : List UInt64) : ℚ :=
  if a.isEmpty && b.isEmpty then 0
  else
    let o := mergeSorted a b
    if o.union = 0 then 0 else o.intersection / o.union

def overlapSorted (a b : List UInt64) : ℚ :=
  if a.isEmpty || b.isEmpty then 0
  else
    let o := mergeSorted a b
    let minLen := min o.lenA o.lenB
    if minLen = 0 then 0 else o.intersection / minLen

variable {a b : List UInt64} {x y : UInt64}

/-- A sorted list is the run of its first value, with other values behind it. -/
theorem runLength_sorted {run : Run} (counted : runLength (x :: a) = run) (sorted : (x :: a).Pairwise (· ≤ ·)) :
    x :: a = replicate run.count x ++ (x :: a).drop run.count ∧ x ∉ (x :: a).drop run.count := by
  subst counted
  induction a with
  | nil => exact ⟨rfl, by simp [runLength]⟩
  | cons y a ih =>
    obtain ⟨least, later⟩ := pairwise_cons.mp sorted
    by_cases same : y = x
    · subst same
      have more : (runLength (y :: y :: a)).count = (runLength (y :: a)).count + 1 := by simp [runLength, Nat.add_comm]
      obtain ⟨split, absent⟩ := ih later
      rw [more, replicate_succ, drop_succ_cons, cons_append, ← split]
      exact ⟨rfl, absent⟩
    · have one : (runLength (x :: y :: a)).count = 1 := by simp [runLength, same]
      rw [one, drop_one]
      refine ⟨rfl, fun member => ?_⟩
      obtain rfl | behind := mem_cons.mp member
      · exact same rfl
      · exact same (UInt64.le_antisymm (rel_of_pairwise_cons later behind) (least y mem_cons_self))

theorem drain_eq (union : Nat) (a : List UInt64) : drain union a = union + a.length := by
  fun_induction drain union a with
  | case1 => rfl
  | case2 union value rest ih =>
    have fits : (runLength (value :: rest)).count ≤ (value :: rest).length := by
      simpa [runLength, Nat.add_comm 1] using (takeWhile_sublist _).length_le
    rw [ih, length_drop]
    omega

/-- How many elements two lists share, with multiplicity. -/
abbrev shared (a b : List UInt64) : Nat := ((a : Multiset UInt64) ∩ b).card

theorem shared_comm (a b : List UInt64) : shared a b = shared b a := by rw [shared, Multiset.inter_comm]

theorem shared_le (a b : List UInt64) : shared a b ≤ a.length :=
  Multiset.card_le_card Multiset.inter_le_left

/-- A run is shared with the copies of its value alone, whatever follows them. -/
theorem shared_run {run : Run} (counted : runLength (x :: a) = run) (sorted : (x :: a).Pairwise (· ≤ ·)) (n : Nat)
    (absent : x ∉ b) : shared (x :: a) (replicate n x ++ b) = min run.count n + shared ((x :: a).drop run.count) b := by
  obtain ⟨split, behind⟩ := runLength_sorted counted sorted
  generalize (x :: a).drop run.count = rest at split behind ⊢
  have apart : ((x :: a : List UInt64) : Multiset UInt64) ∩ (replicate n x ++ b : List UInt64) =
      Multiset.replicate (min run.count n) x + (rest : Multiset UInt64) ∩ b := by
    ext other
    by_cases same : other = x
    · simp [split, same, count_eq_zero_of_not_mem absent, count_eq_zero_of_not_mem behind]
    · simp [split, count_replicate, Multiset.count_replicate, Ne.symm same]
  rw [shared, apart, Multiset.card_add, Multiset.card_replicate]

/-- A run whose value is below the other list is not shared. -/
theorem shared_of_lt {run : Run} (counted : runLength (x :: a) = run) (sortedA : (x :: a).Pairwise (· ≤ ·))
    (sortedB : (y :: b).Pairwise (· ≤ ·)) (less : x < y) :
    shared (x :: a) (y :: b) = shared ((x :: a).drop run.count) (y :: b) := by
  have absent : x ∉ y :: b := fun member => by
    obtain rfl | later := mem_cons.mp member
    · exact UInt64.lt_irrefl _ less
    · exact UInt64.not_lt.mpr (rel_of_pairwise_cons sortedB later) less
  simpa using shared_run counted sortedA 0 absent

theorem length_run {run : Run} (counted : runLength (x :: a) = run) (sorted : (x :: a).Pairwise (· ≤ ·)) :
    (x :: a).length = run.count + ((x :: a).drop run.count).length := by
  simpa using congrArg length (runLength_sorted counted sorted).1

theorem mergeLoop_eq (intersection union : Nat) (sortedA : a.Pairwise (· ≤ ·)) (sortedB : b.Pairwise (· ≤ ·)) :
    mergeLoop intersection union a b = (intersection + shared a b, union + (a.length + b.length - shared a b)) := by
  fun_induction mergeLoop intersection union a b with
  | case1 intersection union x a y b runA runB less ih =>
    have bound := shared_le ((x :: a).drop runA.count) (y :: b)
    rw [ih sortedA.drop sortedB, @shared_of_lt _ _ _ _ runA rfl sortedA sortedB less, @length_run _ _ runA rfl sortedA,
      Prod.mk.injEq]
    omega
  | case2 intersection union x a y b runA runB _ less ih =>
    have bound := shared_le (x :: a) ((y :: b).drop runB.count)
    rw [ih sortedA sortedB.drop, shared_comm _ (y :: b), @shared_of_lt _ _ _ _ runB rfl sortedB sortedA less,
      @length_run _ _ runB rfl sortedB, shared_comm _ (x :: a), Prod.mk.injEq]
    omega
  | case3 intersection union x a y b runA runB notLess notGreater ih =>
    obtain rfl : x = y := UInt64.le_antisymm (UInt64.not_lt.mp notGreater) (UInt64.not_lt.mp notLess)
    obtain ⟨split, behind⟩ := @runLength_sorted _ _ runB rfl sortedB
    have apart := @shared_run _ _ _ runA rfl sortedA runB.count behind
    have bound := shared_le ((x :: a).drop runA.count) ((x :: b).drop runB.count)
    rw [← split] at apart
    rw [ih sortedA.drop sortedB.drop, apart, @length_run _ _ runA rfl sortedA, @length_run _ _ runB rfl sortedB, Prod.mk.injEq]
    omega
  | case4 intersection union a b exhausted =>
    have none : shared a b = 0 := by
      cases a with
      | nil => simp
      | cons x a =>
        cases b with
        | nil => simp
        | cons y b => exact absurd rfl (exhausted x a y b rfl)
    rw [drain_eq, drain_eq, none, Nat.sub_zero, Nat.add_assoc]
    rfl

theorem mergeSorted_eq (sortedA : a.Pairwise (· ≤ ·)) (sortedB : b.Pairwise (· ≤ ·)) :
    mergeSorted a b = ⟨shared a b, a.length + b.length - shared a b, a.length, b.length⟩ := by
  rw [mergeSorted, mergeLoop_eq 0 0 sortedA sortedB, Nat.zero_add, Nat.zero_add]

theorem union_eq (a b : List UInt64) : a.length + b.length - shared a b = ((a : Multiset UInt64) ∪ b).card := by
  have sum := congrArg Multiset.card (Multiset.union_add_inter (a : Multiset UInt64) b)
  simp only [Multiset.card_add, Multiset.coe_card] at sum
  exact (Nat.eq_sub_of_add_eq sum).symm

theorem multisetSorted_le (sortedA : a.Pairwise (· ≤ ·)) (sortedB : b.Pairwise (· ≤ ·)) :
    multisetSorted a b ≤ overlapSorted a b := by
  have sharedA := shared_le a b
  have sharedB := shared_comm a b ▸ shared_le b a
  simp only [multisetSorted, overlapSorted, mergeSorted_eq sortedA sortedB]
  by_cases none : shared a b = 0
  · simp [none]
  · have nonemptyA : a.isEmpty = false := by simpa using length_pos_iff.mp ((Nat.pos_of_ne_zero none).trans_le sharedA)
    have nonemptyB : b.isEmpty = false := by simpa using length_pos_iff.mp ((Nat.pos_of_ne_zero none).trans_le sharedB)
    rw [nonemptyA, nonemptyB, Bool.and_self, Bool.or_self, if_neg Bool.false_ne_true, if_neg Bool.false_ne_true,
      if_neg (by omega), if_neg (by omega)]
    gcongr
    · exact_mod_cast (by omega : 0 < min a.length b.length)
    · omega

/-- The merge counts multiplicities: the intersection has the smaller one of each value, the union the larger one. -/
theorem mergeSorted_counts (a b : List UInt64) (sortedA : a.Pairwise (· ≤ ·)) (sortedB : b.Pairwise (· ≤ ·)) :
    (mergeSorted a b).intersection = ((a : Multiset UInt64) ∩ b).card ∧
      (mergeSorted a b).union = ((a : Multiset UInt64) ∪ b).card ∧
      (mergeSorted a b).intersection + (mergeSorted a b).union = a.length + b.length ∧
      (mergeSorted b a).intersection = (mergeSorted a b).intersection ∧ (mergeSorted b a).union = (mergeSorted a b).union ∧
      multisetSorted a b ≤ overlapSorted a b := by
  rw [mergeSorted_eq sortedA sortedB, mergeSorted_eq sortedB sortedA, shared_comm b a, Nat.add_comm b.length]
  exact ⟨rfl, union_eq a b, Nat.add_sub_cancel' ((shared_le a b).trans (Nat.le_add_right ..)), rfl, rfl,
    multisetSorted_le sortedA sortedB⟩

theorem repeated_counts : (mergeSorted [1, 1, 2, 5] [1, 2, 2]).intersection = 2 :=
  (mergeSorted_counts [1, 1, 2, 5] [1, 2, 2] (by decide) (by decide)).1.trans (by decide)

end Index.CloneDetect
