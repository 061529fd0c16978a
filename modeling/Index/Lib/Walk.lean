import Mathlib

/-! # Walks in a weighted graph

A graph is a list of edges; a walk is the list of the edges it takes.  Where no closed walk has a weight, every walk weighs as
much as one without repetitions. -/

namespace Index.Lib

open List

variable {α ν : Type*}

theorem exists_repeat {key : α → ν} {items : List α} (repeats : ¬ (items.map key).Nodup) :
    ∃ before first middle second after, items = before ++ first :: middle ++ second :: after ∧ key first = key second := by
  induction items with
  | nil => simp at repeats
  | cons item items ih =>
    by_cases again : key item ∈ items.map key
    · obtain ⟨second, member, same⟩ := mem_map.mp again
      obtain ⟨middle, after, rfl⟩ := append_of_mem member
      exact ⟨[], item, middle, second, after, rfl, same.symm⟩
    · rw [map_cons, nodup_cons, not_and] at repeats
      obtain ⟨before, first, middle, second, after, rfl, same⟩ := ih (repeats again)
      exact ⟨item :: before, first, middle, second, after, rfl, same⟩

/-- A graph whose edges have a weight. -/
structure Weighted (α ν : Type*) where
  edges : List α
  source : α → ν
  target : α → ν
  weight : α → Nat

namespace Weighted

variable {graph : Weighted α ν} {start middle stop : ν} {first second path : List α}

def IsWalk (graph : Weighted α ν) : ν → List α → ν → Prop
  | start, [], stop => start = stop
  | start, edge :: rest, stop => edge ∈ graph.edges ∧ graph.source edge = start ∧ graph.IsWalk (graph.target edge) rest stop

def total (graph : Weighted α ν) (path : List α) : Nat := (path.map graph.weight).sum

/-- A closed walk that weighs something. -/
def HasLoop (graph : Weighted α ν) (node : ν) : Prop := ∃ path, graph.IsWalk node path node ∧ 0 < graph.total path

@[simp]
theorem total_append (first second : List α) : graph.total (first ++ second) = graph.total first + graph.total second := by
  simp [total]

theorem isWalk_append : graph.IsWalk start (first ++ second) stop ↔ ∃ middle, graph.IsWalk start first middle ∧ graph.IsWalk middle second stop := by
  induction first generalizing start with
  | nil => simp [IsWalk]
  | cons edge first ih =>
    simp only [cons_append, IsWalk, ih, and_assoc, exists_and_left]

theorem IsWalk.append (before : graph.IsWalk start first middle) (after : graph.IsWalk middle second stop) :
    graph.IsWalk start (first ++ second) stop :=
  isWalk_append.mpr ⟨middle, before, after⟩

theorem IsWalk.mem (walk : graph.IsWalk start path stop) : ∀ edge ∈ path, edge ∈ graph.edges := by
  induction path generalizing start with
  | nil => simp
  | cons edge path ih =>
    obtain ⟨member, -, rest⟩ := walk
    exact forall_mem_cons.mpr ⟨member, ih rest⟩

/-- A walk that leads to no loop is as heavy as one with at most as many edges as there are nodes with edges. -/
theorem IsWalk.shorten {nodes : List ν} (inside : ∀ edge ∈ graph.edges, graph.source edge ∈ nodes)
    (flat : ∀ path node, graph.IsWalk start path node → ¬ graph.HasLoop node) (walk : graph.IsWalk start path stop) :
    ∃ short, graph.IsWalk start short stop ∧ short.length ≤ nodes.length ∧ graph.total short = graph.total path := by
  -- A longer walk comes back to a node, and the part between weighs nothing.
  induction length : path.length using Nat.strongRecOn generalizing path with
  | ind length ih =>
    by_cases short : path.length ≤ nodes.length
    · exact ⟨path, walk, short, rfl⟩
    · have repeats : ¬ (path.map graph.source).Nodup := by
        intro distinct
        have subset : path.map graph.source ⊆ nodes := by
          intro node member
          obtain ⟨edge, edgeMember, rfl⟩ := mem_map.mp member
          exact inside edge (walk.mem edge edgeMember)
        have := (subperm_of_subset distinct subset).length_le
        rw [length_map] at this
        omega
      obtain ⟨before, first, middle, second, after, rfl, same⟩ := exists_repeat repeats
      rw [append_assoc, isWalk_append] at walk
      obtain ⟨node, toNode, onward⟩ := walk
      obtain ⟨other, around, rest⟩ := isWalk_append.mp onward
      have here : graph.source first = node := around.2.1
      have again : graph.source second = other := rest.2.1
      obtain rfl : other = node := by rw [← again, ← same, here]
      have weightless : graph.total (first :: middle) = 0 := by
        by_contra heavy
        exact flat before other toNode ⟨_, around, Nat.pos_of_ne_zero heavy⟩
      obtain ⟨cut, cutWalk, cutShort, cutTotal⟩ := ih (before ++ second :: after).length (by subst length; simp only [length_append, length_cons]; omega)
        (toNode.append rest) rfl
      refine ⟨cut, cutWalk, cutShort, ?_⟩
      rw [cutTotal, total_append, total_append, total_append, weightless, Nat.add_zero]

end Weighted

end Index.Lib
