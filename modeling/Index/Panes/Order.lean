import Index.Panes.Keeping

/-! # The order of the window protocol

A window is announced on a connection before anything else is said of it, and its first frame after that is a full one.
The compositor keeps to this over all connections, but for one way of losing a connection: when it hangs up on a host
that sends a second hello with another version, the panes stay announced. -/

namespace Index.Panes

open Index.Lib List

/-! ## Orders of messages -/

namespace ToHost

def announces (id : WindowId) : ToHost → Bool
  | windowNew other .. => other = id
  | _ => false

def ends (id : WindowId) : ToHost → Bool
  | windowGone other => other = id
  | _ => false

def bounds (id : WindowId) : ToHost → Bool
  | windowMinMax other .. => other = id
  | _ => false

def shows (id : WindowId) : ToHost → Bool
  | windowFrame other .. => other = id
  | _ => false

def full : ToHost → Bool
  | windowFrame _ _ frame => frame.full
  | _ => false

end ToHost

section Messages

variable {id : WindowId} {messages : List ToHost} {message : ToHost}

/-- A window was announced and has not ended since. -/
def Announced (id : WindowId) (messages : List ToHost) : Prop :=
  ∃ before new between, messages = before ++ new :: between ∧ new.announces id = true ∧ ∀ message ∈ between, message.ends id = false

/-- A window was announced and was not shown since. -/
def Unshown (id : WindowId) (messages : List ToHost) : Prop :=
  ∃ before new between, messages = before ++ new :: between ∧ new.announces id = true ∧ ∀ message ∈ between, message.shows id = false

/-- Frames and bounds are of announced windows, and the first frame of a window is full. -/
def InOrder (messages : List ToHost) : Prop :=
  ∀ before message after, messages = before ++ message :: after → ∀ id,
    (message.shows id = true ∨ message.bounds id = true → Announced id before) ∧
      (message.shows id = true → Unshown id before → message.full = true)

theorem announced_concat (announces : message.announces id = true) : Announced id (messages ++ [message]) :=
  ⟨messages, message, [], rfl, announces, by simp⟩

theorem Announced.concat (announced : Announced id messages) (stays : message.ends id = false) : Announced id (messages ++ [message]) := by
  obtain ⟨before, new, between, rfl, announces, unended⟩ := announced
  exact ⟨before, new, between ++ [message], by simp, announces, forall_mem_append.mpr ⟨unended, forall_mem_singleton.mpr stays⟩⟩

theorem not_unshown_concat (shows : message.shows id = true) : ¬ Unshown id (messages ++ [message]) := by
  rintro ⟨before, new, between, same, announces, unshown⟩
  rcases concat_eq_split same with ⟨-, -, rfl⟩ | ⟨shorter, rfl, -⟩
  · cases new <;> simp [ToHost.announces, ToHost.shows] at announces shows
  · cases shows.symm.trans (unshown message (by simp))

theorem unshown_of_concat (other : message.announces id = false) (unshown : Unshown id (messages ++ [message])) : Unshown id messages := by
  obtain ⟨before, new, between, same, announces, unshown⟩ := unshown
  rcases concat_eq_split same with ⟨-, -, rfl⟩ | ⟨shorter, rfl, isMessages⟩
  · cases other.symm.trans announces
  · exact ⟨before, new, shorter, isMessages, announces, fun message member => unshown message (mem_append_left _ member)⟩

theorem InOrder.concat (inOrder : InOrder messages)
    (allowed : ∀ id, (message.shows id = true ∨ message.bounds id = true → Announced id messages) ∧
      (message.shows id = true → Unshown id messages → message.full = true)) : InOrder (messages ++ [message]) := by
  intro before other after same
  rcases concat_eq_split same with ⟨-, rfl, rfl⟩ | ⟨shorter, -, isMessages⟩
  · exact allowed
  · exact inOrder before other shorter isMessages

theorem Announced.append (announced : Announced id messages) {more : List ToHost} (stays : ∀ message ∈ more, message.ends id = false) :
    Announced id (messages ++ more) :=
  append_of_concat (Announced id) announced fun _ message member announced => announced.concat (stays message member)

theorem unshown_of_append {more : List ToHost} (others : ∀ message ∈ more, message.announces id = false)
    (unshown : Unshown id (messages ++ more)) : Unshown id messages :=
  append_of_concat (fun items => Unshown id items → Unshown id messages) (fun same => same)
    (fun _ message member ih unshown => ih (unshown_of_concat (others message member) unshown)) unshown

/-- Messages that neither show nor bound a window are in order anywhere. -/
theorem InOrder.append (inOrder : InOrder messages) {more : List ToHost}
    (free : ∀ message ∈ more, ∀ id, message.shows id = false ∧ message.bounds id = false) : InOrder (messages ++ more) := by
  refine append_of_concat InOrder inOrder fun items message member inOrder => inOrder.concat fun id => ?_
  simp [free message member id]

/-- Bounds of an announced window are in order. -/
theorem InOrder.bounds (inOrder : InOrder messages) (announced : Announced id messages) {more : List ToHost}
    (bounds : ∀ message ∈ more, ∃ min max, message = .windowMinMax id min max) : InOrder (messages ++ more) := by
  refine (append_of_concat (fun items => InOrder items ∧ Announced id items) ⟨inOrder, announced⟩ ?_).1
  rintro items message member ⟨inOrder, announced⟩
  obtain ⟨min, max, rfl⟩ := bounds message member
  refine ⟨inOrder.concat fun other => ⟨?_, by simp [ToHost.shows]⟩, announced.concat rfl⟩
  rintro (shows | bounds)
  · cases shows
  · exact of_decide_eq_true bounds ▸ announced

theorem unconcerned_of_window (other : message.window ≠ some id) : message.announces id = false ∧ message.ends id = false := by
  cases message <;> simp_all [ToHost.window, ToHost.announces, ToHost.ends]

theorem free_of_aside (aside : message.aside = true) (id : WindowId) : message.shows id = false ∧ message.bounds id = false := by
  cases message <;> simp_all [ToHost.aside, ToHost.shows, ToHost.bounds]

end Messages

/-! ## The compositor -/

namespace App

/-- What the current connection was told of an announced pane. -/
def Told (pane : Pane) (log : List Entry) : Prop :=
  Announced pane.id (log.map Prod.fst) ∧ (pane.store.sent.isSome = true → ¬ Unshown pane.id (log.map Prod.fst))

section Kept

variable {lz4 : Lz4} {arrives : Pixels → Prop} {ready : Bool} {pane next : Pane} {entries log : List Entry}

theorem free_goneMessages : ∀ message ∈ (goneMessages pane).map Prod.fst, ∀ id, message.shows id = false ∧ message.bounds id = false := by
  refine forall_mem_map.mpr fun entry member id => ?_
  rw [eq_of_mem_goneMessages member]
  exact ⟨rfl, rfl⟩

theorem told_of_others (others : ∀ entry ∈ entries, entry.1.window ≠ some pane.id) (told : Told pane log) : Told pane (log ++ entries) := by
  have unconcerned : ∀ message ∈ entries.map Prod.fst, message.announces pane.id = false ∧ message.ends pane.id = false :=
    forall_mem_map.mpr fun entry member => unconcerned_of_window (others entry member)
  rw [Told, map_append]
  exact ⟨told.1.append fun message member => (unconcerned message member).2,
    fun sent unshown => told.2 sent (unshown_of_append (fun message member => (unconcerned message member).1) unshown)⟩

theorem Told.of_eq (told : Told pane log) (same : next.id = pane.id) (retained : next.store.sent = pane.store.sent) : Told next log := by
  rw [Told, same, retained]
  exact told

/-- An announced pane has been announced, and shown if the host holds something of it. -/
theorem tells_of_move (move : PaneMove lz4 arrives ready pane next entries) (told : pane.announced = true → Told pane log)
    (announced : next.announced = true) : Told next (log ++ entries) := by
  cases move with
  | quiet same asBefore store _ aside =>
    exact (told_of_others (others_of_aside aside _) (told (asBefore ▸ announced))).of_eq same (congrArg FrameStore.sent store)
  | commit same asBefore store =>
    rw [append_nil]
    exact (told (asBefore ▸ announced)).of_eq same (by rw [store]; rfl)
  | expire same asBefore store =>
    rw [append_nil, Told, same, store]
    exact ⟨(told (asBefore ▸ announced)).1, nofun⟩
  | announce _ same _ store _ bounds =>
    rw [Told, same, store, append_cons, map_append]
    refine ⟨Announced.append ?_ (forall_mem_map.mpr fun entry member => ?_), nofun⟩
    · rw [map_append]
      exact announced_concat (decide_eq_true rfl)
    · obtain ⟨min, max, rfl⟩ := bounds entry member
      rfl
  | bounds asBefore same _ store =>
    obtain ⟨wasAnnounced, shown⟩ := told asBefore
    rw [Told, same, store, map_append]
    exact ⟨wasAnnounced.concat rfl, fun retained unshown => shown retained (unshown_of_concat rfl unshown)⟩
  | frame _ asBefore same =>
    rw [Told, same, map_append]
    exact ⟨(told asBefore).1.concat rfl, fun _ => not_unshown_concat (decide_eq_true rfl)⟩
  | idle _ asBefore same _ takes =>
    rw [append_nil]
    exact (told asBefore).of_eq same takes.sent_eq
  | gone _ gone => cases gone.symm.trans announced

/-- What a pane has said is in order. -/
theorem inOrder_of_move (move : PaneMove lz4 arrives ready pane next entries) (inOrder : InOrder (log.map Prod.fst))
    (told : pane.announced = true → Told pane log) : InOrder ((log ++ entries).map Prod.fst) := by
  cases move with
  | quiet _ _ _ _ aside =>
    rw [map_append]
    exact inOrder.append (forall_mem_map.mpr fun entry member => free_of_aside (aside entry member))
  | commit | expire | idle => rwa [append_nil]
  | @announce title appId width height scale more _ _ _ _ _ bounds =>
    have new : InOrder (log.map Prod.fst ++ [.windowNew pane.id title appId width height scale]) :=
      inOrder.concat fun id => ⟨by rintro (shows | bounds) <;> contradiction, nofun⟩
    have announced : Announced pane.id (log.map Prod.fst ++ [.windowNew pane.id title appId width height scale]) :=
      announced_concat (decide_eq_true rfl)
    rw [map_append, map_cons, append_cons]
    refine new.bounds announced (forall_mem_map.mpr fun entry member => ?_)
    obtain ⟨min, max, rfl⟩ := bounds entry member
    exact ⟨min, max, rfl⟩
  | bounds asBefore =>
    rw [map_append]
    exact inOrder.bounds (told asBefore).1 (by simp)
  | frame _ asBefore _ _ takes =>
    obtain ⟨wasAnnounced, shown⟩ := told asBefore
    rw [map_append]
    refine inOrder.concat fun id => ⟨?_, fun shows unshown => ?_⟩
    · rintro (shows | bounds)
      · exact of_decide_eq_true shows ▸ wasAnnounced
      · cases bounds
    · -- The window was not shown since it was announced, so there is nothing that the frame could add to.
      obtain rfl := of_decide_eq_true shows
      refine takes.full (Option.not_isSome_iff_eq_none.mp fun retained => shown retained unshown)
  | gone =>
    rw [map_append]
    exact inOrder.append free_goneMessages

theorem stable_order : Stable lz4 arrives (fun _ => True) Told fun log => InOrder (log.map Prod.fst) where
  created _ := trivial
  detached _ _ := trivial
  moved _ _ := trivial
  tells move _ _ := tells_of_move move
  speaks move _ := inOrder_of_move move
  others := told_of_others
  aside := by
    intro log message aside inOrder
    rw [map_append]
    exact inOrder.append (forall_mem_singleton.mpr (free_of_aside aside))
  ends := by
    intro log pane inOrder
    rw [map_append]
    exact inOrder.append free_goneMessages
  silent := by
    intro before message after same
    cases before <;> cases same

end Kept

/-- Without a second hello of another version to a host that knows windows, every connection hears of the windows in
order. -/
theorem protocol_inOrder {lz4 : Lz4} {events : List Event} {final : App}
    (heard : Along (next lz4) (fun app event => app.hangsUp event = false) {} events) (ran : run (next lz4) {} events = some final)
    (generation : Nat) : InOrder ((final.log generation).map Prod.fst) := by
  have stable : Stable lz4 (fun _ => True) (fun _ => True) Told fun log => InOrder (log.map Prod.fst) := stable_order
  have keeping : final.Keeping (fun _ => True) Told fun log => InOrder (log.map Prod.fst) := by
    refine invariant_of_along (fun app event next keeping stays stepped => ?_) (Keeping.initial stable) heard ran
    obtain rfl := Option.some.inj stepped
    exact keeping.moves stable (moves_step (fun _ _ => trivial) stays)
  exact keeping.lawful generation

end App

/-! ## Hanging up -/

/-- A window is shown to a first host. -/
def firstHost : List App.Event :=
  [.newToplevel, .connected, .message 1 (.hello 1 3 []), .commit 0 (.shm (some (dot 0))) 1 none none, .message 1 (.ack 1 1)]

/-- The first host says hello once more, of another version, and a second one comes. -/
def secondHost : List App.Event :=
  [.message 1 (.hello 2 0 []), .connected, .message 2 (.hello 1 3 []), .commit 0 (.shm (some (dot 1))) 1 none none]

/-- The second host is shown a part of a window that it was never told of. -/
theorem hangUp_unannounced : ∃ final, run (App.next plainLz4) {} (firstHost ++ secondHost) = some final ∧
    (final.log 2).map Prod.fst = [.hello 1 3, .windowFrame 1 2 ⟨1, 1, false, [⟨⟨0, 0, 1, 1⟩, .raw, [1, 1, 1, 1]⟩]⟩] ∧
    ¬ InOrder ((final.log 2).map Prod.fst) := by
  obtain ⟨final, ran, told⟩ := exists_run (App.next plainLz4) {} (firstHost ++ secondHost)
    (fun final => (final.log 2).map Prod.fst = [.hello 1 3, .windowFrame 1 2 ⟨1, 1, false, [⟨⟨0, 0, 1, 1⟩, .raw, [1, 1, 1, 1]⟩]⟩])
    (by decide +kernel)
  refine ⟨final, ran, told, fun inOrder => ?_⟩
  rw [told] at inOrder
  obtain ⟨before, new, between, same, announces, -⟩ := (inOrder [.hello 1 3] _ [] rfl 1).1 (Or.inl rfl)
  have member : new ∈ [ToHost.hello 1 3] := by simp [same]
  rw [mem_singleton.mp member] at announces
  cases announces

theorem firstHost_inOrder : ∃ final, run (App.next plainLz4) {} firstHost = some final ∧ InOrder ((final.log 1).map Prod.fst) := by
  obtain ⟨final, ran, -⟩ := exists_run (App.next plainLz4) {} firstHost (fun _ => True) (by decide +kernel)
  exact ⟨final, ran, App.protocol_inOrder (by decide +kernel) ran 1⟩

end Index.Panes
