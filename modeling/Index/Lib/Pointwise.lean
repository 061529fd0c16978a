import Mathlib.Data.List.Nodup
import Mathlib.Data.Sigma.Basic
import Index.Lib.Outcome

/-! # Loops that touch each key once

A loop over entries with different keys, each of which replaces the state's value at its own key, works on
every key by itself: it fails exactly if it fails at some key, and otherwise its values can be read off key
by key. -/

namespace Index.Lib

open Function List

variable {κ : Type*} [DecidableEq κ] {ω ν : κ → Type*} {ε : Type*}

/-- Replaces the value at the key of an entry. -/
def updateAt (step : (key : κ) → ω key → ν key → Except ε (ν key)) (state : (key : κ) → ν key) (entry : Sigma ω) :
    Except ε ((key : κ) → ν key) :=
  (step entry.1 entry.2 (state entry.1)).map (update state entry.1)

variable {step : (key : κ) → ω key → ν key → Except ε (ν key)} {entries : List (Sigma ω)} {start final : (key : κ) → ν key}

theorem updateAt_eq_ok {state next : (key : κ) → ν key} {entry : Sigma ω} :
    updateAt step state entry = .ok next ↔
      ∃ value, step entry.1 entry.2 (state entry.1) = .ok value ∧ next = update state entry.1 value := by
  unfold updateAt
  cases step entry.1 entry.2 (state entry.1) <;> simp [Except.map, eq_comm]

/-- A loop that passed leaves the keys without an entry alone. -/
theorem foldlM_updateAt_of_notMem (ran : entries.foldlM (updateAt step) start = .ok final) {key : κ}
    (untouched : key ∉ entries.map Sigma.fst) : final key = start key := by
  induction entries generalizing start with
  | nil =>
    obtain rfl : start = final := Except.ok.inj ran
    rfl
  | cons entry entries ih =>
    rw [map_cons, mem_cons, not_or] at untouched
    obtain ⟨next, stepped, ran⟩ := bind_eq_ok.mp ran
    obtain ⟨value, -, rfl⟩ := updateAt_eq_ok.mp stepped
    rw [ih ran untouched.2, update_of_ne untouched.1]

/-- A loop that passed has stepped once at each of its keys. -/
theorem foldlM_updateAt_of_mem (ran : entries.foldlM (updateAt step) start = .ok final)
    (distinct : (entries.map Sigma.fst).Nodup) {entry : Sigma ω} (member : entry ∈ entries) :
    step entry.1 entry.2 (start entry.1) = .ok (final entry.1) := by
  induction entries generalizing start with
  | nil => cases member
  | cons first entries ih =>
    rw [map_cons, nodup_cons] at distinct
    obtain ⟨next, stepped, ran⟩ := bind_eq_ok.mp ran
    obtain ⟨value, here, rfl⟩ := updateAt_eq_ok.mp stepped
    rcases mem_cons.mp member with rfl | later
    · rw [here, foldlM_updateAt_of_notMem ran distinct.1, update_self]
    · have other : entry.1 ≠ first.1 := fun same => distinct.1 (same ▸ mem_map_of_mem later)
      simpa [update_of_ne other] using ih ran distinct.2 later

/-- A loop that failed has failed at one of its keys, on the value it started with. -/
theorem exists_of_foldlM_updateAt_error {error : ε} (ran : entries.foldlM (updateAt step) start = .error error)
    (distinct : (entries.map Sigma.fst).Nodup) :
    ∃ entry ∈ entries, step entry.1 entry.2 (start entry.1) = .error error := by
  induction entries generalizing start with
  | nil => cases ran
  | cons first entries ih =>
    rw [map_cons, nodup_cons] at distinct
    rw [foldlM_cons] at ran
    cases stepped : updateAt step start first with
    | error other =>
      obtain rfl : other = error := by simpa [stepped, bind, Except.bind] using ran
      unfold updateAt at stepped
      cases here : step first.1 first.2 (start first.1) with
      | error inner =>
        obtain rfl : inner = other := by simpa [here, Except.map] using stepped
        exact ⟨first, mem_cons_self, here⟩
      | ok value => simp [here, Except.map] at stepped
    | ok next =>
      rw [stepped] at ran
      obtain ⟨value, -, rfl⟩ := updateAt_eq_ok.mp stepped
      obtain ⟨entry, member, failed⟩ := ih ran distinct.2
      have other : entry.1 ≠ first.1 := fun same => distinct.1 (same ▸ mem_map_of_mem member)
      exact ⟨entry, mem_cons_of_mem _ member, by simpa [update_of_ne other] using failed⟩

end Index.Lib
