import Index.Lib.Rust

/-! # Outcomes of fallible code

`Ensures raises post run` says how a run may end: with a value that satisfies `post` or with an error
that satisfies `raises`.  There is one rule per way of putting runs together, so that a fact about a
loop or a sequence follows from facts about its parts. -/

namespace Index.Lib

variable {α β σ ε : Type}

/-! ## Values of composed runs -/

theorem bind_eq_ok.{u} {ε : Type*} {α β : Type u} {run : Except ε α} {next : α → Except ε β} {value : β} :
    run >>= next = .ok value ↔ ∃ first, run = .ok first ∧ next first = .ok value := by
  cases run <;> simp [bind, Except.bind]

variable {run : Except ε α} {value : α}

theorem orPanic_eq_ok {found : Option α} : (orPanic found : Except (Fault ε) α) = .ok value ↔ found = some value := by
  cases found <;> simp [orPanic]

theorem fallible_eq_ok : fallible run = .ok value ↔ run = .ok value := by
  cases run <;> simp [fallible]

variable {items : List α}

theorem foldlM_congr_mem {left right : σ → α → Except ε σ} (same : ∀ item ∈ items, ∀ state, left state item = right state item)
    (start : σ) : items.foldlM left start = items.foldlM right start := by
  induction items generalizing start with
  | nil => rfl
  | cons item items ih =>
    obtain ⟨first, rest⟩ := List.forall_mem_cons.mp same
    simp only [List.foldlM_cons, first, ih rest]

theorem forM_eq_ok {check : α → Except ε Unit} : items.forM check = .ok () ↔ ∀ item ∈ items, check item = .ok () := by
  induction items with
  | nil => simp [List.forM, pure, Except.pure]
  | cons item items ih =>
    rw [List.forall_mem_cons, ← ih, List.forM, bind_eq_ok]
    exact Unique.exists_iff

/-! ## Triples -/

def Ensures (raises : ε → Prop) (post : α → Prop) : Except ε α → Prop
  | .ok value => post value
  | .error e => raises e

section Rules

variable {raises : ε → Prop} {post : α → Prop} {run : Except ε α} {value : α}

theorem Ensures.of_ok (ensured : Ensures raises post run) (returned : run = .ok value) : post value := by
  rw [returned] at ensured
  exact ensured

theorem Ensures.of_error (ensured : Ensures raises post run) {e : ε} (failed : run = .error e) : raises e := by
  rw [failed] at ensured
  exact ensured

theorem Ensures.imp (ensured : Ensures raises post run) {weaker : α → Prop} (weaken : ∀ value, post value → weaker value) :
    Ensures raises weaker run := by
  cases run with
  | ok value => exact weaken value ensured
  | error e => exact ensured

variable {target : β → Prop}

theorem Ensures.bind {next : α → Except ε β} (ensured : Ensures raises post run)
    (continues : ∀ value, post value → Ensures raises target (next value)) : Ensures raises target (run >>= next) := by
  cases run with
  | ok value => exact continues value ensured
  | error e => exact ensured

variable {faults : Fault ε → Prop}

theorem ensures_orPanic_bind {found : Option α} (known : found = some value) {next : α → Except (Fault ε) β}
    (continues : Ensures faults target (next value)) : Ensures faults target (orPanic found >>= next) := by
  rw [known]
  exact continues

theorem ensures_fallible (ensured : Ensures (fun e => faults (.raised e)) post run) : Ensures faults post (fallible run) := by
  cases run <;> exact ensured

variable {items : List α}

theorem ensures_tryCollect {f : α → Except ε β} (each : ∀ item ∈ items, Ensures raises target (f item)) :
    Ensures raises (fun images => ∀ image ∈ images, target image) (tryCollect f items) := by
  induction items with
  | nil => simp [tryCollect, Ensures]
  | cons item items ih =>
    obtain ⟨head, tail⟩ := List.forall_mem_cons.mp each
    have rest := ih tail
    rw [tryCollect]
    cases collected : f item with
    | error e => exact head.of_error collected
    | ok image =>
      cases others : tryCollect f items with
      | error e => exact rest.of_error others
      | ok images => exact List.forall_mem_cons.mpr ⟨head.of_ok collected, rest.of_ok others⟩

theorem ensures_tryCollect_flatten {f : α → Except ε (List β)}
    (each : ∀ item ∈ items, Ensures raises (fun images => ∀ image ∈ images, target image) (f item)) :
    Ensures raises (fun images => ∀ image ∈ images, target image) (tryCollect f items >>= fun found => pure found.flatten) := by
  refine (ensures_tryCollect each).bind fun found good image member => ?_
  obtain ⟨images, inside, here⟩ := List.mem_flatten.mp member
  exact good images inside image here

variable {step : σ → α → Except ε σ}

/-- The invariant of a loop may speak of the items done so far. -/
theorem ensures_foldlM (invariant : List α → σ → Prop) {start : σ} (initially : invariant [] start)
    (each : ∀ done item left state, items = done ++ item :: left → invariant done state →
      Ensures raises (invariant (done ++ [item])) (step state item)) :
    Ensures raises (invariant items) (items.foldlM step start) := by
  suffices general : ∀ left done state, items = done ++ left → invariant done state →
      Ensures raises (invariant items) (left.foldlM step state) from general items [] start rfl initially
  intro left
  induction left with
  | nil =>
    intro done state whole holds
    rw [List.append_nil] at whole
    exact whole ▸ holds
  | cons item left ih =>
    intro done state whole holds
    refine (each done item left state whole holds).bind fun next kept => ?_
    exact ih (done ++ [item]) next (by simpa using whole) kept

/-- What every iteration of a loop that returned preserves. -/
theorem foldlM_invariant (invariant : List α → σ → Prop) {start final : σ} (ran : items.foldlM step start = .ok final)
    (initially : invariant [] start)
    (each : ∀ done item state next, item ∈ items → invariant done state → step state item = .ok next →
      invariant (done ++ [item]) next) : invariant items final := by
  have ensured : Ensures (fun _ => True) (invariant items) (items.foldlM step start) := by
    refine ensures_foldlM invariant initially fun done item left state whole holds => ?_
    have member : item ∈ items := by simp [whole]
    cases stepped : step state item with
    | error e => trivial
    | ok next => exact each done item state next member holds stepped
  exact ensured.of_ok ran

/-- Two loops whose iterations agree, as long as what they preserve holds. -/
theorem foldl_agree (f g : σ → α → σ) (items : List α) (start : σ) (invariant : List α → σ → Prop) (initially : invariant [] start)
    (each : ∀ done item state, item ∈ items → invariant done state →
      f state item = g state item ∧ invariant (done ++ [item]) (g state item)) :
    items.foldl f start = items.foldl g start ∧ invariant items (items.foldl g start) := by
  induction items using List.reverseRecOn with
  | nil => exact ⟨rfl, initially⟩
  | append_singleton items item ih =>
    obtain ⟨same, holds⟩ := ih fun done item state member => each done item state (List.mem_append_left _ member)
    rw [List.foldl_concat, List.foldl_concat, same]
    exact each items item _ (by simp) holds

end Rules

/-! ## Runs that succeed whenever they can -/

/-- The run succeeds exactly when its input fits, with a value that is what it is to be. -/
def SucceedsIff (fits : Prop) (done : α → Prop) : Except ε α → Prop := Ensures (fun _ => ¬ fits) fun value => fits ∧ done value

section SucceedsIff

variable {fits further : Prop} {done : α → Prop} {run : Except ε α} (succeeds : SucceedsIff fits done run)

include succeeds

theorem SucceedsIff.of_ok {value : α} (returned : run = .ok value) : fits ∧ done value := by
  rw [returned] at succeeds
  exact succeeds

theorem SucceedsIff.exists_ok (holds : fits) : ∃ value, run = .ok value ∧ done value := by
  cases run with
  | ok value => exact ⟨value, rfl, succeeds.2⟩
  | error e => exact absurd holds succeeds

theorem SucceedsIff.imp {weaker : α → Prop} (same : fits ↔ further) (weaken : ∀ value, fits → done value → weaker value) :
    SucceedsIff further weaker run := by
  cases run with
  | ok value => exact ⟨same.mp succeeds.1, weaken value succeeds.1 succeeds.2⟩
  | error e => exact fun holds => succeeds (same.mpr holds)

theorem SucceedsIff.bind {next : α → Except ε β} {target : β → Prop}
    (continues : ∀ value, fits → done value → SucceedsIff further target (next value)) :
    SucceedsIff (fits ∧ further) target (run >>= next) := by
  cases run with
  | error e => exact fun both => succeeds both.1
  | ok value =>
    obtain ⟨holds, isDone⟩ := succeeds
    exact (continues value holds isDone).imp (and_iff_right holds).symm fun _ _ => id

theorem SucceedsIff.bind_ok {next : α → Except ε β} {target : β → Prop}
    (continues : ∀ value, fits → done value → ∃ final, next value = .ok final ∧ target final) : SucceedsIff fits target (run >>= next) := by
  cases run with
  | error e => exact succeeds
  | ok value =>
    obtain ⟨final, returned, holds⟩ := continues value succeeds.1 succeeds.2
    show SucceedsIff fits target (next value)
    rw [returned]
    exact ⟨succeeds.1, holds⟩

end SucceedsIff

/-- A loop whose steps leave what the others need as it was. -/
theorem SucceedsIff.foldlM {apart : α → α → Prop} (fits : α → σ → Prop) (done : List α → σ → σ → Prop) {step : σ → α → Except ε σ}
    (each : ∀ item ∈ items, ∀ state, SucceedsIff (fits item state) (done [item] state) (step state item))
    (kept : ∀ item other state next, apart item other → fits item state → done [item] state next →
      (fits other next ↔ fits other state))
    (start : ∀ state, done [] state state)
    (composed : ∀ item rest state next final, (∀ other ∈ rest, apart item other) → done [item] state next →
      done rest next final → done (item :: rest) state final) (distinct : items.Pairwise apart) (state : σ) :
    SucceedsIff (∀ item ∈ items, fits item state) (done items state) (items.foldlM step state) := by
  induction items generalizing state with
  | nil => exact ⟨by simp, start state⟩
  | cons item items ih =>
    obtain ⟨here, later⟩ := List.pairwise_cons.mp distinct
    obtain ⟨first, others⟩ := List.forall_mem_cons.mp each
    rw [List.foldlM_cons, List.forall_mem_cons]
    refine (first state).bind fun next fit one => ?_
    exact (ih others later next).imp (forall₂_congr fun other member => kept item other state next (here other member) fit one)
      fun final _ rest => composed item items state next final here one rest

end Index.Lib
