import Index.Audio.Node
import Index.Lib.Run

/-! # Pings and elections

Connections come and go in tasks of their own while one task pings the leader and folds the replies.  Folding a
reply takes three steps: it computes an offset with the lock of the estimator, reads the leader with the lock of
the leader, and publishes a clock with neither, so an election can fall in between.  A reply is folded as it
comes, from whatever address and whoever the node follows by then. -/

namespace Index.Audio

open Index.Lib

variable {Ip : Type}

/-- A ping that was sent, and the peer it asks. -/
structure Request where
  target : PeerId
  sentMicros : Nat
deriving DecidableEq

/-- Where the ping task is: waiting, about to ping a leader, or in the middle of folding a reply.  The estimator an
offset was computed from is remembered for the statements only. -/
inductive Pinger (Ip : Type) where
  | idle
  | sending (leader : Leader Ip)
  | estimated (offset : Option Int) (window : OffsetEstimator)
  | publishing (offset : Int) (leader : Leader Ip) (window : OffsetEstimator)

/-- A fold goes on when there is an offset and a leader. -/
def Pinger.ofLeader (offset : Option Int) (leader : Option (Leader Ip)) (window : OffsetEstimator) : Pinger Ip :=
  match offset, leader with
  | some offset, some leader => .publishing offset leader window
  | _, _ => .idle

/-- A clock that was published, the leader that was followed then, and what the offset was computed from. -/
structure Publication where
  followed : Option PeerId
  clock : SharedClock
  window : OffsetEstimator
deriving DecidableEq

/-- A node with its ping task, and the requests sent and clocks published so far. -/
structure Pinging (Ip : Type) where
  node : Node Ip
  pinger : Pinger Ip
  sent : List Request
  published : List Publication

inductive PingEvent (Ip : Type) where
  | connected (remote : Hello) (ip : Ip)
  | disconnected (remoteId : PeerId)
  | elect (now : Nat)
  | tick
  | send (now : Nat)
  | receive (sample : PingSample)
  | readLeader
  | publish

namespace Pinging

def spawn (peerId : PeerId) (now : Nat) : Pinging Ip := ⟨.spawn peerId now, .idle, [], []⟩

/-- The leader that is followed. -/
def followed (state : Pinging Ip) : Option PeerId := state.node.leader.map Leader.peerId

def step (state : Pinging Ip) (event : PingEvent Ip) : Option (Pinging Ip) :=
  match event, state.pinger with
  -- `peer_connected` and `peer_disconnected` elect after they have let go of the table of peers
  | .connected remote ip, _ => some { state with node := state.node.register remote ip }
  | .disconnected remoteId, _ => some { state with node := state.node.unregister remoteId }
  | .elect now, _ => some { state with node := state.node.elect now }
  | .tick, .idle => some { state with pinger := (state.node.leader.map Pinger.sending).getD .idle }
  | .send now, .sending leader =>
    some { state with pinger := .idle, sent := state.sent ++ [⟨leader.peerId, now⟩] }
  | .receive sample, .idle =>
    let node := state.node.recordSample sample
    some { state with node, pinger := .estimated node.estimator.estimate node.estimator }
  | .readLeader, .estimated offset window =>
    some { state with pinger := .ofLeader offset state.node.leader window }
  | .publish, .publishing offset leader window =>
    let node := state.node.publish offset leader
    some { state with node, pinger := .idle, published := state.published ++ [⟨state.followed, node.clock, window⟩] }
  | _, _ => none

/-- The estimator a fold in progress has computed its offset from. -/
def inHand (state : Pinging Ip) : Option OffsetEstimator :=
  match state.pinger with
  | .estimated _ window => some window
  | .publishing _ _ window => some window
  | _ => none

/-- A sample measured the clock of a peer in answer to a request to it. -/
def Measured (sent : List Request) (peer : PeerId) (sample : PingSample) : Prop :=
  sample.source = peer ∧ ⟨peer, sample.requestSent⟩ ∈ sent

/-- A reply that comes while a leader is followed answers a request to that leader, and no election changes the
leader while a reply is folded. -/
def Timely (state : Pinging Ip) : PingEvent Ip → Prop
  | .receive sample => ∀ leader ∈ state.followed, Measured state.sent leader sample
  | .elect _ => state.inHand = none ∨ state.node.nextLeader.map Leader.peerId = state.followed
  | _ => True

instance (sent : List Request) (peer : PeerId) (sample : PingSample) : Decidable (Measured sent peer sample) :=
  inferInstanceAs (Decidable (_ ∧ _))

instance (state : Pinging Ip) : DecidablePred (Timely state)
  | .receive sample => inferInstanceAs (Decidable (∀ leader ∈ state.followed, Measured state.sent leader sample))
  | .elect _ => inferInstanceAs (Decidable (state.inHand = none ∨ state.node.nextLeader.map Leader.peerId = state.followed))
  | .connected _ _ | .disconnected _ | .tick | .send _ | .readLeader | .publish => inferInstanceAs (Decidable True)

/-- The offset in hand is the estimate of what it was computed from. -/
def OffsetEstimated (state : Pinging Ip) : Prop :=
  match state.pinger with
  | .estimated offset window => window.estimate = offset
  | .publishing offset _ window => window.estimate = some offset
  | _ => True

/-- An offset that was published under a leader was computed from samples of that leader only. -/
def Attributed (sent : List Request) (publication : Publication) : Prop :=
  publication.window.estimate = some publication.clock.offsetMicros ∧
    ∀ leader ∈ publication.followed, ∀ sample ∈ publication.window.samples, Measured sent leader sample

/-- All samples a node has at hand while it follows a leader are that leader's. -/
structure FromLeader (state : Pinging Ip) : Prop where
  recorded : ∀ leader ∈ state.followed, ∀ sample ∈ state.node.estimator.samples, Measured state.sent leader sample
  folded : ∀ window ∈ state.inHand, ∀ leader ∈ state.followed, ∀ sample ∈ window.samples,
    Measured state.sent leader sample
  estimated : state.OffsetEstimated
  published : ∀ publication ∈ state.published, Attributed state.sent publication

theorem spawn_fromLeader (peerId : PeerId) (now : Nat) : FromLeader (spawn peerId now : Pinging Ip) where
  recorded := by simp [followed, spawn, Node.spawn]
  folded := by simp [inHand, spawn]
  estimated := trivial
  published := by simp [spawn]

variable {sample : PingSample}

theorem Measured.of_sent {sent more : List Request} {peer : PeerId} (measured : Measured sent peer sample) :
    Measured (sent ++ more) peer sample :=
  ⟨measured.1, List.mem_append_left more measured.2⟩

theorem Attributed.of_sent {sent more : List Request} {publication : Publication}
    (attributed : Attributed sent publication) : Attributed (sent ++ more) publication :=
  ⟨attributed.1, fun leader followed sample mem => (attributed.2 leader followed sample mem).of_sent⟩

variable {state : Pinging Ip}

theorem FromLeader.elect {now : Nat} (inv : FromLeader state) (timely : Timely state (.elect now)) :
    FromLeader { state with node := state.node.elect now } := by
  obtain ⟨-, unchanged⟩ | ⟨clock, -, changed⟩ := state.node.elect_cases now
  · rw [unchanged]
    exact inv
  · rw [changed]
    constructor
    case recorded => simp [OffsetEstimator.clear]
    case estimated => exact inv.estimated
    case published => exact inv.published
    case folded =>
      intro window inHand next follows
      -- while a fold is in progress the new leader is the old one
      have same : state.node.nextLeader.map Leader.peerId = state.followed := by
        obtain nothing | same := timely
        · have none_window : state.inHand = some window := inHand
          rw [nothing] at none_window
          cases none_window
        · exact same
      apply inv.folded window inHand next
      rw [← same]
      exact follows

theorem FromLeader.receive (inv : FromLeader state) (timely : Timely state (.receive sample)) : FromLeader { state with
      node := state.node.recordSample sample
      pinger := .estimated (state.node.estimator.record sample).estimate (state.node.estimator.record sample) } := by
  have recorded : ∀ leader ∈ state.followed, ∀ other ∈ (state.node.estimator.record sample).samples,
      Measured state.sent leader other := by
    intro leader follows other mem
    obtain kept | rfl := OffsetEstimator.mem_record mem
    · exact inv.recorded leader follows other kept
    · exact timely leader follows
  constructor
  case recorded => exact recorded
  case folded =>
    intro window inHand
    obtain rfl := Option.some.inj inHand
    exact recorded
  case estimated => rfl
  case published => exact inv.published

variable {window : OffsetEstimator}

theorem FromLeader.readLeader {offset : Option Int} (inv : FromLeader state) (folding : state.pinger = .estimated offset window) :
    FromLeader { state with pinger := .ofLeader offset state.node.leader window } := by
  have folded := inv.folded window (by simp [inHand, folding])
  have estimate : window.estimate = offset := by
    have := inv.estimated
    rwa [OffsetEstimated, folding] at this
  unfold Pinger.ofLeader
  split
  case h_1 =>
    exact { inv with
      folded := by
        intro other inHand
        obtain rfl := Option.some.inj inHand
        exact folded
      estimated := estimate }
  case h_2 => exact { inv with folded := by simp [inHand], estimated := trivial }

theorem FromLeader.publish {offset : Int} {leader : Leader Ip} (inv : FromLeader state)
    (folding : state.pinger = .publishing offset leader window) : FromLeader { state with
      node := state.node.publish offset leader
      pinger := .idle
      published := state.published ++ [⟨state.followed, (state.node.publish offset leader).clock, window⟩] } := by
  have estimate : window.estimate = some offset := by
    have := inv.estimated
    rwa [OffsetEstimated, folding] at this
  constructor
  case recorded => exact inv.recorded
  case folded => simp [inHand]
  case estimated => trivial
  case published =>
    exact List.forall_mem_append.mpr
      ⟨inv.published, List.forall_mem_singleton.mpr ⟨estimate, inv.folded window (by simp [inHand, folding])⟩⟩

theorem FromLeader.send {request : Request} (inv : FromLeader state) :
    FromLeader { state with pinger := .idle, sent := state.sent ++ [request] } where
  recorded leader follows sample mem := (inv.recorded leader follows sample mem).of_sent
  folded := by simp [inHand]
  estimated := trivial
  published publication mem := (inv.published publication mem).of_sent

theorem FromLeader.tick (inv : FromLeader state) :
    FromLeader { state with pinger := (state.node.leader.map Pinger.sending).getD .idle } := by
  exact { inv with
    folded := by cases state.node.leader <;> simp [inHand]
    estimated := by cases state.node.leader <;> simp [OffsetEstimated] }

/-- The tables of peers say nothing of the samples. -/
theorem FromLeader.peers {node : Node Ip} (inv : FromLeader state) (leader : node.leader = state.node.leader)
    (estimator : node.estimator = state.node.estimator) : FromLeader { state with node } where
  recorded := by simpa only [followed, leader, estimator] using inv.recorded
  folded := by simpa only [followed, inHand, leader] using inv.folded
  estimated := inv.estimated
  published := inv.published

end Pinging

theorem Node.unregister_leader (node : Node Ip) (remoteId : PeerId) :
    (node.unregister remoteId).leader = node.leader ∧ (node.unregister remoteId).estimator = node.estimator := by
  rw [Node.unregister]
  split
  · exact ⟨rfl, rfl⟩
  · dsimp only
    split <;> exact ⟨rfl, rfl⟩

namespace Pinging

theorem step_fromLeader (state : Pinging Ip) (event : PingEvent Ip) (next : Pinging Ip) (inv : FromLeader state)
    (timely : Timely state event) (stepped : state.step event = some next) : FromLeader next := by
  unfold step at stepped
  split at stepped
  case h_9 => cases stepped
  all_goals obtain rfl := Option.some.inj stepped
  case h_1 => exact inv.peers rfl rfl
  case h_2 remoteId =>
    obtain ⟨leader, estimator⟩ := state.node.unregister_leader remoteId
    exact inv.peers leader estimator
  case h_3 => exact inv.elect timely
  case h_4 => exact inv.tick
  case h_5 => exact inv.send
  case h_6 => exact inv.receive timely
  case h_7 folding => exact inv.readLeader folding
  case h_8 folding => exact inv.publish folding

/-- When replies come while their leader is still followed, every clock that is published under a leader has its
offset from replies of that leader. -/
theorem published_offset_from_leader (peerId : PeerId) (now : Nat) (events : List (PingEvent Ip)) (final : Pinging Ip)
    (ran : run step (spawn peerId now) events = some final) (timely : Along step Timely (spawn peerId now) events)
    (publication : Publication) (mem : publication ∈ final.published) : Attributed final.sent publication :=
  (invariant_of_along step_fromLeader (spawn_fromLeader peerId now) timely ran).published publication mem

/-- Node 9 follows node 5 and asks it for the time. -/
def asksFive : List (PingEvent Unit) :=
  [.connected ⟨5, 7000, 100, 48000⟩ (), .elect 10, .tick, .send 20]

/-- The reply of node 5, whose clock is 1000 ahead. -/
def replyOfFive : List (PingEvent Unit) := [.receive ⟨20, 1021, 1021, 22, 5⟩, .readLeader, .publish]

theorem reply_before_election_attributed :
    ∃ final, run step (spawn 9 0) (asksFive ++ replyOfFive) = some final ∧
      Along step Timely (spawn 9 0) (asksFive ++ replyOfFive) ∧
      ∃ publication ∈ final.published, publication.followed = some 5 ∧ Attributed final.sent publication := by
  obtain ⟨final, ran, mem⟩ := exists_run step (spawn 9 0) (asksFive ++ replyOfFive)
    (fun final => ⟨some 5, ⟨1000, 100⟩, ⟨[⟨20, 1021, 1021, 22, 5⟩], 16⟩⟩ ∈ final.published) (by decide +kernel)
  have timely : Along step Timely (spawn 9 0) (asksFive ++ replyOfFive) := by decide +kernel
  exact ⟨final, ran, timely, _, mem, rfl, published_offset_from_leader 9 0 _ final ran timely _ mem⟩

/-- Node 3 joins and is elected before the reply of node 5 comes: the clock that node 9 publishes while it follows
node 3 has its offset from node 5. -/
theorem late_reply_published_under_new_leader :
    ∃ final, run step (spawn 9 0) (asksFive ++ [.connected ⟨3, 7001, 50, 48000⟩ (), .elect 21] ++ replyOfFive) = some final ∧
      ∃ publication ∈ final.published, publication.followed = some 3 ∧
        ∃ sample ∈ publication.window.samples, sample.source = 5 ∧ ¬ Attributed final.sent publication := by
  obtain ⟨final, ran, mem⟩ := exists_run step (spawn 9 0)
    (asksFive ++ [.connected ⟨3, 7001, 50, 48000⟩ (), .elect 21] ++ replyOfFive)
    (fun final => ⟨some 3, ⟨1000, 50⟩, ⟨[⟨20, 1021, 1021, 22, 5⟩], 16⟩⟩ ∈ final.published) (by decide +kernel)
  have sample : ⟨20, 1021, 1021, 22, 5⟩ ∈ [(⟨20, 1021, 1021, 22, 5⟩ : PingSample)] := List.mem_singleton.mpr rfl
  refine ⟨final, ran, _, mem, rfl, _, sample, rfl, ?_⟩
  intro attributed
  have ofThree : (5 : PeerId) = 3 := (attributed.2 3 rfl _ sample).1
  exact absurd ofThree (by decide)

end Pinging

end Index.Audio
