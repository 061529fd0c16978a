import Index.Delta.Edit

/-! # Independent edits

Edits at places apart from each other commute, unless one of them lengthens and the other shortens the same array. -/

namespace Index.Delta

open Index.Lib List

namespace Edit

/-- The outline that an edit puts at its address. -/
def sub : Edit → Outline Step Head
  | add _ _ value => value.outline
  | remove _ _ _ => .absent
  | replace _ _ new => new.outline

/-- The container whose length an edit changes. -/
def resized : Edit → Option (List Step × Head)
  | add parent (.index index) _ => some (parent, .array (index + 1))
  | remove parent (.index index) _ => some (parent, .array index)
  | _ => none

/-- Where it matters for an edit what is there. -/
def reads : Edit → List (List Step)
  | add parent _ _ => [parent]
  | remove parent step _ => [parent, parent ++ [step]]
  | replace path _ _ => [path]

variable {edit other : Edit} {outline : Outline Step Head} {path : List Step} {head : Head}

theorem act_eq : edit.act outline = (outline.graft edit.address edit.sub).relabelAt edit.resized := by
  cases edit with
  | add parent step value => cases step <;> rfl
  | remove parent step value => cases step <;> rfl
  | replace path old new => rfl

theorem resized_cases (resized : edit.resized = some (path, head)) :
    (∃ index value, edit = add path (.index index) value) ∨ ∃ index value, edit = remove path (.index index) value := by
  cases edit with
  | add parent step value =>
    cases step with
    | key key => simp [Edit.resized] at resized
    | index index =>
      obtain ⟨rfl, -⟩ : parent = path ∧ _ := by simpa [Edit.resized] using resized
      exact Or.inl ⟨index, value, rfl⟩
  | remove parent step value =>
    cases step with
    | key key => simp [Edit.resized] at resized
    | index index =>
      obtain ⟨rfl, -⟩ : parent = path ∧ _ := by simpa [Edit.resized] using resized
      exact Or.inr ⟨index, value, rfl⟩
  | replace => simp [Edit.resized] at resized

theorem resized_leads (resized : edit.resized = some (path, head)) : path <+: edit.address := by
  rcases resized_cases resized with ⟨index, value, rfl⟩ | ⟨index, value, rfl⟩ <;> exact prefix_append ..

theorem array_of_resized (resized : edit.resized = some (path, head)) (enabled : edit.Enabled outline) :
    ∃ length, outline path = some (.array length) := by
  rcases resized_cases resized with ⟨index, value, rfl⟩ | ⟨index, value, rfl⟩
  · exact ⟨_, enabled.1⟩
  · exact ⟨_, enabled⟩

theorem reads_leads (read : path ∈ edit.reads) : path <+: edit.address := by
  cases edit with
  | add parent step value =>
    rw [mem_singleton.mp read]
    exact prefix_append ..
  | remove parent step value =>
    rcases mem_pair.mp read with rfl | rfl
    · exact prefix_append ..
    · exact prefix_rfl
  | replace place old new =>
    rw [mem_singleton.mp read]
    exact prefix_rfl

/-- What an edit needs depends on the places it reads. -/
theorem Enabled.congr {changed : Outline Step Head} (enabled : edit.Enabled outline)
    (same : ∀ path ∈ edit.reads, changed path = outline path) : edit.Enabled changed := by
  cases edit with
  | add parent step value =>
    have here := same parent (by simp [reads])
    cases step with
    | key key => exact here.trans enabled
    | index index => exact ⟨here.trans enabled.1, enabled.2⟩
  | remove parent step value =>
    have here := same parent (by simp [reads])
    cases step with
    | key key => exact ⟨here.trans enabled.1, by rw [same _ (by simp [reads])]; exact enabled.2⟩
    | index index => exact here.trans enabled
  | replace place old new =>
    rw [Enabled, same place (by simp [reads])]
    exact enabled

/-- The array that an edit adds an item to. -/
def lengthens : Edit → Option (List Step)
  | add parent (.index _) _ => some parent
  | _ => none

/-- The array that an edit takes an item from. -/
def shortens : Edit → Option (List Step)
  | remove parent (.index _) _ => some parent
  | _ => none

/-- One of two edits lengthens and the other shortens one array. -/
def Opposed (left right : Edit) : Prop :=
  ∃ path, left.lengthens = some path ∧ right.shortens = some path ∨ left.shortens = some path ∧ right.lengthens = some path

/-- Edits whose addresses lead apart and that do not pull one array both ways. -/
def Independent (left right : Edit) : Prop := Outline.Apart left.address right.address ∧ ¬ Opposed left right

theorem Independent.symm (independent : Independent edit other) : Independent other edit := by
  refine ⟨independent.1.symm, ?_⟩
  rintro ⟨path, opposed⟩
  exact independent.2 ⟨path, opposed.symm.imp And.symm And.symm⟩

/-- An independent edit does not resize a container that another edit looks at. -/
theorem Independent.not_resized_read (independent : Independent edit other) (enabled : edit.Enabled outline)
    (otherEnabled : other.Enabled outline) (read : path ∈ other.reads) : edit.resized ≠ some (path, head) := by
  intro resized
  obtain ⟨apart, unopposed⟩ := independent
  have notOther : path ≠ other.address := fun same => apart.2 (same ▸ resized_leads resized)
  have notSame : edit.address ≠ other.address := fun same => apart.1 (same ▸ prefix_rfl)
  have notObject : outline path ≠ some .object := by
    obtain ⟨length, array⟩ := array_of_resized resized enabled
    simp [array]
  -- Only an addition or a removal below the same container is left; by a key it would need an object.
  cases other with
  | replace place old new => exact notOther (mem_singleton.mp read)
  | add parent step value =>
    obtain rfl : path = parent := mem_singleton.mp read
    cases step with
    | key key => exact notObject otherEnabled
    | index otherIndex =>
      rcases resized_cases resized with ⟨index, new, rfl⟩ | ⟨index, old, rfl⟩
      · have same : Head.array index = Head.array otherIndex := Option.some.inj (enabled.1.symm.trans otherEnabled.1)
        rw [Head.array.injEq] at same
        exact notSame (by rw [address, address, same])
      · exact unopposed ⟨path, Or.inr ⟨rfl, rfl⟩⟩
  | remove parent step value =>
    obtain rfl : path = parent := (mem_pair.mp read).resolve_right notOther
    cases step with
    | key key => exact notObject otherEnabled.1
    | index otherIndex =>
      rcases resized_cases resized with ⟨index, new, rfl⟩ | ⟨index, old, rfl⟩
      · exact unopposed ⟨path, Or.inl ⟨rfl, rfl⟩⟩
      · have same : Head.array (index + 1) = Head.array (otherIndex + 1) := Option.some.inj (enabled.symm.trans otherEnabled)
        rw [Head.array.injEq, Nat.add_right_cancel_iff] at same
        exact notSame (by rw [address, address, same])

theorem Independent.enabled_after (independent : Independent edit other) (enabled : edit.Enabled outline)
    (otherEnabled : other.Enabled outline) : other.Enabled (edit.act outline) := by
  refine otherEnabled.congr fun path read => ?_
  rw [act_eq, Outline.relabelAt_of_ne fun head => independent.not_resized_read enabled otherEnabled read,
    Outline.graft_of_apart fun leads => independent.1.1 (leads.trans (reads_leads read))]

theorem resized_mem_reads (resized : edit.resized = some (path, head)) : path ∈ edit.reads := by
  rcases resized_cases resized with ⟨index, value, rfl⟩ | ⟨index, value, rfl⟩ <;> simp [reads]

/-- Independent edits can be made in either order. -/
theorem Independent.commutes (independent : Independent edit other) : Commutes Enabled act edit other := by
  intro outline enabled otherEnabled
  refine ⟨independent.enabled_after enabled otherEnabled, independent.symm.enabled_after otherEnabled enabled, ?_⟩
  rw [act_eq, act_eq, act_eq, act_eq]
  refine Outline.graft_relabelAt_comm independent.1 (fun place head resized leads => ?_) (fun place head resized leads => ?_)
    fun place head otherHead resized otherResized => ?_
  · exact independent.1.2 (leads.trans (resized_leads resized))
  · exact independent.1.1 (leads.trans (resized_leads resized))
  · exact independent.not_resized_read enabled otherEnabled (resized_mem_reads otherResized) resized

end Edit

end Index.Delta
