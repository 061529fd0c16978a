import Index.Lib.Outcome
import Index.Astlog.Eval

/-! # Bindings

What unification does to an environment: it keeps every binding, adds the pairs it unified and
nothing else. -/

namespace Index.Astlog

open Index.Lib List

/-- `next` is `env` with the given pairs bound. -/
structure Unified (env next : Env) (pairs : List (String × Value)) : Prop where
  keeps : ∀ (var : String) value, env[var]? = some value → next[var]? = some value
  binds : ∀ pair ∈ pairs, next[pair.1]? = some pair.2
  only : ∀ (var : String) value, next[var]? = some value → env[var]? = some value ∨ (var, value) ∈ pairs

namespace Unified

variable {env middle next : Env} {pairs more : List (String × Value)}

theorem refl (env : Env) : Unified env env [] := ⟨fun _ _ => id, by simp, fun _ _ => .inl⟩

theorem trans (first : Unified env middle pairs) (second : Unified middle next more) :
    Unified env next (pairs ++ more) where
  keeps var value bound := second.keeps var value (first.keeps var value bound)
  binds pair member := by
    rcases mem_append.mp member with earlier | later
    · exact second.keeps _ _ (first.binds pair earlier)
    · exact second.binds pair later
  only var value bound := by
    rcases second.only var value bound with earlier | added
    · exact (first.only var value earlier).imp id fun inside => mem_append_left _ inside
    · exact .inr (mem_append_right _ added)

/-- The variables bound afterwards are those bound before and those of the pairs. -/
theorem mem_iff (unified : Unified env next pairs) {var : String} :
    var ∈ next ↔ var ∈ env ∨ var ∈ pairs.map Prod.fst := by
  simp only [BTreeMap.mem_iff, mem_map]
  constructor
  · rintro ⟨value, bound⟩
    exact (unified.only var value bound).imp (fun earlier => ⟨value, earlier⟩) fun added => ⟨_, added, rfl⟩
  · rintro (⟨value, earlier⟩ | ⟨⟨_, value⟩, member, rfl⟩)
    · exact ⟨value, unified.keeps var value earlier⟩
    · exact ⟨value, unified.binds _ member⟩

end Unified

variable {next : Env} {value : Value}

theorem unifyVar_unified {env : Env} {var : String} (unified : unifyVar env var value = some next) :
    Unified env next [(var, value)] := by
  unfold unifyVar at unified
  split at unified
  next bound found =>
    split at unified
    next same =>
      cases unified
      subst same
      exact ⟨fun _ _ => id, by simpa using found, fun _ _ => .inl⟩
    next => cases unified
  next unbound =>
    cases unified
    refine ⟨fun other old bound => ?_, by simp, fun other new bound => ?_⟩
    · rw [BTreeMap.getElem?_insert, if_neg (by rintro rfl; simp [bound] at unbound)]
      exact bound
    · rw [BTreeMap.getElem?_insert] at bound
      split at bound
      next same =>
        cases bound
        simp [same]
      next => exact .inl bound

/-- The pairs an argument list binds against a row. -/
def termPairs (args : List Term) (row : Row) : List (String × Value) :=
  (args.zip row).flatMap fun pair => pair.1.vars.map fun var => (var, pair.2)

theorem unifyTerm_unified {env : Env} {term : Term} (unified : unifyTerm env term value = some next) :
    Unified env next (term.vars.map fun var => (var, value)) := by
  cases term with
  | var var => exact unifyVar_unified unified
  | text lit =>
    simp only [unifyTerm, Option.ite_none_right_eq_some, Option.some.injEq] at unified
    obtain ⟨-, rfl⟩ := unified
    exact .refl env

theorem foldlM_unified {α : Type} {step : Env → α → Option Env} (pairsOf : α → List (String × Value))
    (each : ∀ env next item, step env item = some next → Unified env next (pairsOf item)) {items : List α} {env : Env}
    (ran : items.foldlM step env = some next) : Unified env next (items.flatMap pairsOf) := by
  induction items generalizing env with
  | nil =>
    cases ran
    exact .refl _
  | cons item items ih =>
    rw [foldlM_cons, Option.bind_eq_bind, Option.bind_eq_some_iff] at ran
    obtain ⟨middle, stepped, ran⟩ := ran
    exact (each env middle item stepped).trans (ih ran)

theorem unifyBinding_unified {env : Env} {binding : Binding} (unified : unifyBinding env binding = some next) :
    Unified env next binding := by
  have folded := foldlM_unified (fun entry => [entry]) (fun _ _ _ stepped => unifyVar_unified stepped) unified
  simpa using folded

variable {args : List Term} {row : Row}

theorem unifyRow_unified {env : Env} (unified : unifyRow env args row = some next) : Unified env next (termPairs args row) :=
  foldlM_unified _ (fun _ _ _ stepped => unifyTerm_unified stepped) unified

theorem termPairs_names (arity : args.length ≤ row.length) : (termPairs args row).map Prod.fst = args.flatMap Term.vars := by
  induction args generalizing row with
  | nil => rfl
  | cons term args ih =>
    cases row with
    | nil => simp at arity
    | cons value row =>
      have rest := ih (Nat.le_of_succ_le_succ arity)
      simp only [termPairs, zip_cons_cons, flatMap_cons, map_append, map_map, Function.comp_def] at rest ⊢
      rw [rest]
      simp

theorem termPairs_values {pair : String × Value} (member : pair ∈ termPairs args row) : pair.2 ∈ row := by
  obtain ⟨⟨term, value⟩, zipped, member⟩ := mem_flatMap.mp member
  obtain ⟨var, -, rfl⟩ := mem_map.mp member
  exact (of_mem_zip zipped).2

end Index.Astlog
