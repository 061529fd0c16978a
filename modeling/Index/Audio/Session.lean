import Mathlib
import Index.Audio.Node
import Index.Lib.Run

/-! # The timeline of a session

Nodes with clocks of their own meet over connections.  On a connection each side says first where the epoch of its
timeline is on its clock; the other keeps that word as long as the connection lasts and uses it, with the measured
offset, when it follows.  So a timeline is handed on from node to node, and what is handed on is the timeline the
sender had when the connection began. -/

namespace Index.Audio

open Index.Lib List

section Estimate

/-- From exact samples the estimate is the difference of the clocks. -/
theorem OffsetEstimator.estimate_eq_of_exact {estimator : OffsetEstimator} {difference : Int}
    (some_sample : estimator.samples ≠ [])
    (exact_samples : ∀ sample ∈ estimator.samples, sample.rttMicros = 0 ∧ sample.offsetMicros = difference) :
    estimator.estimate = some difference := by
  obtain ⟨minRtt, shortest⟩ : ∃ minRtt, (estimator.samples.map PingSample.rttMicros).min? = some minRtt :=
    Option.isSome_iff_exists.mp (by simp [isSome_min?_iff, some_sample])
  obtain ⟨quickest, member, same⟩ := mem_map.mp (min?_mem shortest)
  rw [(exact_samples quickest member).1] at same
  obtain ⟨offset, estimated⟩ := OffsetEstimator.estimate_isSome shortest (by omega)
  obtain ⟨sample, member, -, rfl⟩ := OffsetEstimator.estimate_mem estimated shortest
  rw [estimated, (exact_samples sample member).2]

end Estimate

section Election

variable {Ip : Type} {node : Node Ip}

theorem Node.of_nextLeader {leader : Leader Ip} (next : node.nextLeader = some leader) :
    leader.peerId < node.peerId ∧
      ∃ entry, node.peers[leader.peerId]? = some entry ∧ leader.epochMicros = entry.epochMicros := by
  rw [Node.nextLeader, Option.map_eq_some_iff] at next
  obtain ⟨⟨id, entry⟩, first, rfl⟩ := next
  obtain ⟨first, smaller⟩ := Option.filter_eq_some_iff.mp first
  have mem : (id, entry) ∈ node.peers.toList := mem_of_mem_head? first
  exact ⟨of_decide_eq_true smaller, entry, Std.ExtTreeMap.mem_toList_iff_getElem?_eq_some.mp mem, rfl⟩

variable {id : PeerId}

/-- The peers come in the order of their ids, so a node with a smaller peer has a leader. -/
theorem Node.nextLeader_isSome (connected : id ∈ node.peers) (smaller : id < node.peerId) : node.nextLeader.isSome := by
  have mem : id ∈ node.peers.keys := Std.ExtTreeMap.mem_keys.mpr connected
  have ordered : node.peers.keys.Pairwise fun one other => compare one other = .lt := Std.ExtTreeMap.ordered_keys
  rw [← Std.ExtTreeMap.map_fst_toList_eq_keys] at mem ordered
  rw [Node.nextLeader]
  cases list : node.peers.toList with
  | nil => simp [list] at mem
  | cons first rest =>
    rw [list, map_cons] at mem ordered
    have least : first.1 ≤ id := by
      obtain rfl | later := mem_cons.mp mem
      · exact le_rfl
      · exact le_of_lt (Nat.compare_eq_lt.mp ((pairwise_cons.mp ordered).1 id later))
    simp [Option.filter, least.trans_lt smaller]

/-- The leader a node follows is the one its table of peers gives. -/
def Node.Elected (node : Node Ip) : Prop := node.leader.map Leader.peerId = node.nextLeader.map Leader.peerId

theorem Node.elect_elected (node : Node Ip) (now : Nat) : (node.elect now).Elected := by
  obtain ⟨same, unchanged⟩ | ⟨clock, -, changed⟩ := node.elect_cases now
  · rw [unchanged]
    exact same
  · rw [changed]
    rfl

theorem Node.Elected.leader_isSome (elected : node.Elected) (connected : id ∈ node.peers) (smaller : id < node.peerId) :
    node.leader.isSome := by
  have ids := congrArg Option.isSome elected
  rw [Option.isSome_map, Option.isSome_map] at ids
  rw [ids]
  exact Node.nextLeader_isSome connected smaller

theorem Node.foldPing_eq (node : Node Ip) (sample : PingSample) :
    ∃ estimator clock, node.foldPing sample = { node with estimator, clock } := by
  unfold Node.foldPing
  dsimp only
  split <;> exact ⟨_, _, rfl⟩

/-- A node keeps its id, its peers and its timeline through an election, whether it goes on to follow or to lead. -/
theorem Node.elect_keeps (node : Node Ip) (now : Nat) :
    (node.elect now).peerId = node.peerId ∧ (node.elect now).peers = node.peers ∧
      (node.elect now).clock.localEpochMicros = node.clock.localEpochMicros := by
  obtain ⟨-, unchanged⟩ | ⟨clock, epoch, changed⟩ := node.elect_cases now
  · rw [unchanged]
    exact ⟨rfl, rfl, rfl⟩
  · rw [changed, epoch]
    exact ⟨rfl, rfl, rfl⟩

theorem Node.mem_register {remote : Hello} {ip : Ip} (mem : id ∈ (node.register remote ip).peers) :
    id = remote.peerId ∨ id ∈ node.peers := by
  rw [Node.register, Std.ExtTreeMap.mem_insert, Nat.compare_eq_eq] at mem
  exact mem.imp_left Eq.symm

end Election

/-- What a node's clock shows at an instant. -/
def reading (skew : PeerId → Int) (peer : PeerId) (instant : Nat) : Nat := (instant + skew peer).toNat

/-- A `Hello` on its way. -/
structure Envelope where
  receiver : PeerId
  hello : Hello
deriving DecidableEq

structure Session where
  nodes : PeerId → Option (Node PeerId)
  inFlight : List Envelope

/-- Connections begin and end at each side in its own time; a ping is exact when it takes no time on the way. -/
inductive SessionEvent where
  | greet (sender receiver : PeerId) (udpPort sampleRate : Nat)
  | deliver (envelope : Envelope) (instant : Nat)
  | disconnect (peer remoteId : PeerId) (instant : Nat)
  | ping (peer : PeerId) (instant : Nat)

namespace Session

/-- Every node of the session leads a timeline that begins when it is spawned. -/
def start (skew : PeerId → Int) (spawned : PeerId → Option Nat) : Session :=
  ⟨fun peer => (spawned peer).map fun instant => .spawn peer (reading skew peer instant), []⟩

def setNode (session : Session) (peer : PeerId) (node : Node PeerId) : Session :=
  { session with nodes := Function.update session.nodes peer (some node) }

/-- The sample of a ping that took no time on the way. -/
def exactSample (skew : PeerId → Int) (peer leader : PeerId) (instant : Nat) : PingSample :=
  ⟨reading skew peer instant, reading skew leader instant, reading skew leader instant, reading skew peer instant, leader⟩

def step (skew : PeerId → Int) (session : Session) : SessionEvent → Option Session
  | .greet sender receiver udpPort sampleRate => do
    let node ← session.nodes sender
    let _ ← session.nodes receiver
    return { session with inFlight := session.inFlight ++ [⟨receiver, node.hello udpPort sampleRate⟩] }
  | .deliver envelope instant => do
    let node ← session.nodes envelope.receiver
    guard (envelope ∈ session.inFlight)
    let connected := node.peerConnected envelope.hello envelope.hello.peerId (reading skew envelope.receiver instant)
    return { session.setNode envelope.receiver connected with inFlight := session.inFlight.erase envelope }
  | .disconnect peer remoteId instant => do
    let node ← session.nodes peer
    return session.setNode peer (node.peerDisconnected remoteId (reading skew peer instant))
  | .ping peer instant => do
    let node ← session.nodes peer
    let leader ← node.leader
    let _ ← session.nodes leader.peerId
    -- both clocks have begun
    guard (0 ≤ instant + skew peer ∧ 0 ≤ instant + skew leader.peerId)
    return session.setNode peer (node.foldPing (exactSample skew peer leader.peerId instant))

end Session

/-- The node has folded a reply of its leader since it was elected. -/
def Node.caughtUp {Ip : Type} (node : Node Ip) : Bool := node.leader.isSome && !node.estimator.samples.isEmpty

namespace Session

/-- No `Hello` is on its way and every follower has measured its leader's clock. -/
structure Settled (session : Session) : Prop where
  quiet : session.inFlight = []
  measured : ∀ peer, ∀ node ∈ session.nodes peer, node.leader.isSome → node.caughtUp

/-- Any two nodes have the same shared time at every instant their clocks show. -/
def Agrees (skew : PeerId → Int) (session : Session) : Prop :=
  ∀ one other, ∀ node ∈ session.nodes one, ∀ node' ∈ session.nodes other, ∀ instant : Nat,
    0 ≤ instant + skew one → 0 ≤ instant + skew other →
      node.clock.sharedMicros (reading skew one instant) = node'.clock.sharedMicros (reading skew other instant)

/-- Two nodes have each other among their peers. -/
def Linked (session : Session) (one other : PeerId) : Prop :=
  ∃ node ∈ session.nodes one, ∃ node' ∈ session.nodes other, other ∈ node.peers ∧ one ∈ node'.peers

/-- Any two nodes are joined by a way over connections. -/
def Connected (session : Session) : Prop :=
  ∀ one other, (session.nodes one).isSome → (session.nodes other).isSome → Relation.ReflTransGen session.Linked one other

/-- Nobody but the session leader introduces itself to a larger node before it has its own leader's time. -/
def Introduced (leader : PeerId) (session : Session) : SessionEvent → Prop
  | .greet sender receiver _ _ => receiver ≤ sender ∨ sender = leader ∨ (session.nodes sender).any Node.caughtUp
  | _ => True

instance (leader : PeerId) (session : Session) : DecidablePred (Introduced leader session)
  | .greet sender receiver _ _ =>
    inferInstanceAs (Decidable (receiver ≤ sender ∨ sender = leader ∨ (session.nodes sender).any Node.caughtUp))
  | .deliver _ _ | .disconnect _ _ _ | .ping _ _ => inferInstanceAs (Decidable True)

end Session

section OnTime

variable {skew : PeerId → Int} {first : PeerId} {origin : Int} {peer : PeerId} {node : Node PeerId}

/-- What a node knows of the timeline that the session leader began at an instant. -/
structure OnTime (skew : PeerId → Int) (first : PeerId) (origin : Int) (peer : PeerId) (node : Node PeerId) : Prop where
  identity : node.peerId = peer
  entries : ∀ id, ∀ entry ∈ node.peers[id]?, id < peer → entry.epochMicros = origin + skew id
  leader : ∀ leader ∈ node.leader, leader.epochMicros = origin + skew leader.peerId
  exact_samples : ∀ leader ∈ node.leader, ∀ sample ∈ node.estimator.samples,
    sample.rttMicros = 0 ∧ sample.offsetMicros = skew leader.peerId - skew peer
  clock : peer = first ∨ node.caughtUp → node.clock.localEpochMicros = origin + skew peer

theorem OnTime.elect (onTime : OnTime skew first origin peer node) (now : Nat) :
    OnTime skew first origin peer (node.elect now) := by
  obtain ⟨-, unchanged⟩ | ⟨clock, epoch, changed⟩ := node.elect_cases now
  · rw [unchanged]
    exact onTime
  · rw [changed]
    constructor
    case identity => exact onTime.identity
    case entries => exact onTime.entries
    case leader =>
      intro leader next
      obtain ⟨smaller, entry, found, same⟩ := Node.of_nextLeader next
      rw [onTime.identity] at smaller
      exact same.trans (onTime.entries leader.peerId entry found smaller)
    case exact_samples => simp [OffsetEstimator.clear]
    case clock =>
      intro known
      -- a node that has just changed its leader has no sample of the new one
      have isFirst : peer = first := by simpa [Node.caughtUp, OffsetEstimator.clear] using known
      rw [epoch]
      exact onTime.clock (Or.inl isFirst)

/-- The table of peers is all that a new connection changes before the election. -/
theorem OnTime.register (onTime : OnTime skew first origin peer node) {remote : Hello} (ip : PeerId)
    (advertised : remote.peerId < peer → remote.epochMicros = origin + skew remote.peerId) :
    OnTime skew first origin peer (node.register remote ip) where
  identity := onTime.identity
  leader := onTime.leader
  exact_samples := onTime.exact_samples
  clock := onTime.clock
  entries := by
    intro id entry found
    rw [Node.register, Option.mem_def, BTreeMap.getElem?_insert] at found
    split at found
    case isFalse => exact onTime.entries id entry found
    case isTrue same =>
      subst same
      obtain rfl := Option.some.inj found
      cases known : node.peers[remote.peerId]? with
      | none => exact advertised
      | some entry => exact onTime.entries remote.peerId entry known

variable {instant : Nat}

theorem exactSample_exact {leader : PeerId} (here : 0 ≤ instant + skew peer) (there : 0 ≤ instant + skew leader) :
    (Session.exactSample skew peer leader instant).rttMicros = 0 ∧
      (Session.exactSample skew peer leader instant).offsetMicros = skew leader - skew peer := by
  have offset : (reading skew leader instant : Int) - reading skew peer instant = skew leader - skew peer := by
    rw [reading, reading, Int.toNat_of_nonneg here, Int.toNat_of_nonneg there]
    omega
  constructor
  · simp [PingSample.rttMicros, Session.exactSample]
  · rw [PingSample.offsetMicros, Session.exactSample]
    rw [offset, ← Int.two_mul, Int.mul_tdiv_cancel_left _ (by decide)]

variable {leader : Leader PeerId} {sample : PingSample}

section

variable (onTime : OnTime skew first origin peer node) (follows : node.leader = some leader)
  (exact_sample : sample.rttMicros = 0 ∧ sample.offsetMicros = skew leader.peerId - skew peer)
include onTime follows exact_sample

/-- Folding an exact ping puts a node on the timeline its leader's word gave. -/
theorem OnTime.foldPing : OnTime skew first origin peer (node.foldPing sample) := by
  have exact_samples : ∀ other ∈ (node.estimator.record sample).samples,
      other.rttMicros = 0 ∧ other.offsetMicros = skew leader.peerId - skew peer := by
    intro other mem
    obtain kept | rfl := OffsetEstimator.mem_record mem
    · exact onTime.exact_samples leader follows other kept
    · exact exact_sample
  have estimate := OffsetEstimator.estimate_eq_of_exact (node.estimator.record_ne_nil sample) exact_samples
  have folded : node.foldPing sample =
      (node.recordSample sample).publish (skew leader.peerId - skew peer) leader := by
    simp only [Node.foldPing, Node.recordSample, estimate, follows]
  rw [folded]
  constructor
  case identity => exact onTime.identity
  case entries => exact onTime.entries
  case leader => exact onTime.leader
  case exact_samples =>
    intro other other_leader
    obtain rfl : leader = other := Option.some.inj (follows.symm.trans other_leader)
    exact exact_samples
  case clock =>
    have advertised := onTime.leader leader follows
    simp only [Node.publish, SharedClock.follow, SharedClock.localEpochMicros, advertised]
    omega

theorem OnTime.localEpochMicros_foldPing : (node.foldPing sample).clock.localEpochMicros = origin + skew peer := by
  apply (onTime.foldPing follows exact_sample).clock
  have recorded := node.estimator.record_ne_nil sample
  apply Or.inr
  unfold Node.foldPing
  dsimp only
  split <;> simp [Node.caughtUp, Node.recordSample, Node.publish, follows, recorded]

end

/-- The shared time of a clock counts from its epoch. -/
theorem sharedMicros_reading {clock : SharedClock} (epoch : clock.localEpochMicros = origin + skew peer)
    (begun : 0 ≤ instant + skew peer) : clock.sharedMicros (reading skew peer instant) = instant - origin := by
  rw [SharedClock.localEpochMicros] at epoch
  rw [SharedClock.sharedMicros, reading, Int.toNat_of_nonneg begun]
  omega

end OnTime

namespace Session

variable {skew : PeerId → Int} {first : PeerId} {origin : Int} {session : Session}

/-- What an event can do. -/
inductive Steps (skew : PeerId → Int) (session : Session) : SessionEvent → Session → Prop
  | greet {sender receiver : PeerId} {udpPort sampleRate : Nat} {node : Node PeerId}
      (found : session.nodes sender = some node) :
      Steps skew session (.greet sender receiver udpPort sampleRate)
        { session with inFlight := session.inFlight ++ [⟨receiver, node.hello udpPort sampleRate⟩] }
  | deliver {envelope : Envelope} {instant : Nat} {node : Node PeerId}
      (found : session.nodes envelope.receiver = some node) (mem : envelope ∈ session.inFlight) :
      Steps skew session (.deliver envelope instant)
        { session.setNode envelope.receiver (node.peerConnected envelope.hello envelope.hello.peerId
            (reading skew envelope.receiver instant)) with inFlight := session.inFlight.erase envelope }
  | disconnect {peer remoteId : PeerId} {instant : Nat} {node : Node PeerId} (found : session.nodes peer = some node) :
      Steps skew session (.disconnect peer remoteId instant)
        (session.setNode peer (node.peerDisconnected remoteId (reading skew peer instant)))
  | ping {peer : PeerId} {instant : Nat} {node : Node PeerId} {leader : Leader PeerId}
      (found : session.nodes peer = some node) (follows : node.leader = some leader)
      (here : 0 ≤ instant + skew peer) (there : 0 ≤ instant + skew leader.peerId) :
      Steps skew session (.ping peer instant)
        (session.setNode peer (node.foldPing (exactSample skew peer leader.peerId instant)))

theorem steps_of_step {event : SessionEvent} {next : Session} (stepped : step skew session event = some next) :
    Steps skew session event next := by
  cases event with
    simp only [step, Option.bind_eq_bind, Option.bind_eq_some_iff, Option.pure_def, Option.some.injEq] at stepped
  | greet sender receiver udpPort sampleRate =>
    obtain ⟨node, found, _, _, rfl⟩ := stepped
    exact .greet found
  | deliver envelope instant =>
    obtain ⟨node, found, _, guarded, rfl⟩ := stepped
    exact .deliver found (by simpa [guard] using guarded)
  | disconnect peer remoteId instant =>
    obtain ⟨node, found, rfl⟩ := stepped
    exact .disconnect found
  | ping peer instant =>
    obtain ⟨node, found, leader, follows, _, _, _, guarded, rfl⟩ := stepped
    obtain ⟨here, there⟩ : 0 ≤ instant + skew peer ∧ 0 ≤ instant + skew leader.peerId := by
      simpa [guard] using guarded
    exact .ping found follows here there

theorem nodes_setNode (session : Session) (peer other : PeerId) (node : Node PeerId) :
    (session.setNode peer node).nodes other = if other = peer then some node else session.nodes other := by
  simp [Session.setNode, Function.update_apply]

theorem of_mem_setNode {peer id : PeerId} {node other : Node PeerId} (mem : other ∈ (session.setNode peer node).nodes id) :
    id = peer ∧ other = node ∨ other ∈ session.nodes id := by
  rw [nodes_setNode, Option.mem_def] at mem
  split_ifs at mem with same
  · exact .inl ⟨same, (Option.some.inj mem).symm⟩
  · exact .inr mem

/-- The clock of a node, if there is one of that id, counts from the instant the session leader began. -/
def Keeps (skew : PeerId → Int) (origin : Int) (session : Session) (peer : PeerId) : Prop :=
  ∀ node ∈ session.nodes peer, node.clock.localEpochMicros = origin + skew peer

/-- Every node, and every `Hello` to a larger node, is on the timeline of the session leader, and whoever said
`Hello` to a larger node stays on it. -/
structure InTime (skew : PeerId → Int) (first : PeerId) (origin : Int) (session : Session) : Prop where
  nodes : ∀ peer, ∀ node ∈ session.nodes peer, OnTime skew first origin peer node ∧ node.Elected
  mail : ∀ envelope ∈ session.inFlight, envelope.hello.peerId < envelope.receiver →
    envelope.hello.epochMicros = origin + skew envelope.hello.peerId ∧ Keeps skew origin session envelope.hello.peerId
  heard : ∀ peer, ∀ node ∈ session.nodes peer, ∀ id ∈ node.peers, id < peer → Keeps skew origin session id

variable {peer : PeerId} {node node' : Node PeerId}

theorem Keeps.setNode {id : PeerId} (keeps : Keeps skew origin session id) (found : session.nodes peer = some node)
    (kept : node.clock.localEpochMicros = origin + skew peer → node'.clock.localEpochMicros = origin + skew peer) :
    Keeps skew origin (session.setNode peer node') id := by
  intro other mem
  obtain ⟨rfl, rfl⟩ | before := of_mem_setNode mem
  · exact kept (keeps node found)
  · exact keeps other before

/-- One node changes: it is still on time, has heard only of nodes that are, and keeps its timeline if it had it. -/
theorem InTime.setNode (inTime : InTime skew first origin session) (found : session.nodes peer = some node)
    (onTime : OnTime skew first origin peer node') (elected : node'.Elected)
    (heard : ∀ id ∈ node'.peers, id < peer → Keeps skew origin session id)
    (kept : node.clock.localEpochMicros = origin + skew peer → node'.clock.localEpochMicros = origin + skew peer) :
    InTime skew first origin (session.setNode peer node') where
  mail := by
    intro envelope mem smaller
    obtain ⟨epoch, keeps⟩ := inTime.mail envelope mem smaller
    exact ⟨epoch, keeps.setNode found kept⟩
  nodes := by
    intro other node'' found'
    obtain ⟨rfl, rfl⟩ | before := of_mem_setNode found'
    · exact ⟨onTime, elected⟩
    · exact inTime.nodes other node'' before
  heard := by
    intro other node'' found' id mem smaller
    obtain ⟨rfl, rfl⟩ | before := of_mem_setNode found'
    · exact (heard id mem smaller).setNode found kept
    · exact (inTime.heard other node'' before id mem smaller).setNode found kept

theorem InTime.greet (inTime : InTime skew first origin session) {sender receiver : PeerId} {udpPort sampleRate : Nat}
    (introduced : Introduced first session (.greet sender receiver udpPort sampleRate))
    (found : session.nodes sender = some node) : InTime skew first origin
      { session with inFlight := session.inFlight ++ [⟨receiver, node.hello udpPort sampleRate⟩] } where
  nodes := inTime.nodes
  heard := inTime.heard
  mail := by
    refine forall_mem_append.mpr ⟨inTime.mail, forall_mem_singleton.mpr ?_⟩
    obtain ⟨onTime, -⟩ := inTime.nodes sender node found
    have identity : (node.hello udpPort sampleRate).peerId = sender := onTime.identity
    rw [identity]
    intro smaller
    have epoch : node.clock.localEpochMicros = origin + skew sender := by
      apply onTime.clock
      obtain larger | isFirst | caughtUp := introduced
      · exact absurd smaller (Nat.not_lt.mpr larger)
      · exact Or.inl isFirst
      · exact Or.inr (by simpa [found] using caughtUp)
    refine ⟨epoch, ?_⟩
    intro other found'
    obtain rfl : node = other := Option.some.inj (found.symm.trans found')
    exact epoch

theorem step_inTime (session : Session) (event : SessionEvent) (next : Session) (inTime : InTime skew first origin session)
    (introduced : Introduced first session event) (stepped : step skew session event = some next) :
    InTime skew first origin next := by
  cases steps_of_step stepped with
  | greet found => exact inTime.greet introduced found
  | @deliver envelope instant node found mem =>
    obtain ⟨onTime, -⟩ := inTime.nodes envelope.receiver node found
    have registered := onTime.register envelope.hello.peerId fun smaller => (inTime.mail envelope mem smaller).1
    obtain ⟨-, peers, epoch⟩ := (node.register envelope.hello envelope.hello.peerId).elect_keeps (reading skew envelope.receiver instant)
    have updated := inTime.setNode found (registered.elect _) (Node.elect_elected _ _) (by
      intro id known smaller
      obtain rfl | before := Node.mem_register (peers ▸ known)
      · exact (inTime.mail envelope mem smaller).2
      · exact inTime.heard envelope.receiver node found id before smaller) epoch.trans
    exact ⟨updated.nodes, fun other other_mem => updated.mail other (mem_of_mem_erase other_mem), updated.heard⟩
  | @disconnect peer remoteId instant node found =>
    obtain ⟨onTime, -⟩ := inTime.nodes peer node found
    obtain ⟨peers, unregistered, known⟩ := node.unregister_eq remoteId
    rw [Node.peerDisconnected, unregistered]
    have left : OnTime skew first origin peer { node with peers } := { onTime with
      entries := fun id entry found smaller => by
        obtain ⟨before, was, same⟩ := known id entry found
        exact same.trans (onTime.entries id before was smaller) }
    obtain ⟨-, same, epoch⟩ := { node with peers }.elect_keeps (reading skew peer instant)
    refine inTime.setNode found (left.elect _) (Node.elect_elected _ _) (fun id mem smaller => ?_) epoch.trans
    obtain ⟨entry, kept⟩ := BTreeMap.mem_iff.mp (same ▸ mem)
    obtain ⟨before, was, -⟩ := known id entry kept
    exact inTime.heard peer node found id (BTreeMap.mem_iff.mpr ⟨before, was⟩) smaller
  | @ping peer instant node leader found follows here there =>
    obtain ⟨onTime, elected⟩ := inTime.nodes peer node found
    have exact_sample := exactSample_exact here there
    have measured := onTime.foldPing follows exact_sample
    have epoch := onTime.localEpochMicros_foldPing follows exact_sample
    obtain ⟨estimator, clock, folded⟩ := node.foldPing_eq (exactSample skew peer leader.peerId instant)
    rw [folded] at measured epoch ⊢
    exact inTime.setNode found measured elected (inTime.heard peer node found) fun _ => epoch

variable {spawned : PeerId → Option Nat}

theorem start_inTime {instant : Nat} (spawn : spawned first = some instant) :
    InTime skew first (reading skew first instant - skew first) (start skew spawned) where
  mail := by simp [start]
  heard := by
    intro peer node found id known
    obtain ⟨began, -, rfl⟩ := Option.map_eq_some_iff.mp found
    simp [Node.spawn] at known
  nodes := by
    intro peer node found
    obtain ⟨began, spawned_peer, rfl⟩ := Option.map_eq_some_iff.mp found
    refine ⟨⟨rfl, ?_, ?_, ?_, ?_⟩, rfl⟩
    · simp [Node.spawn]
    · simp [Node.spawn]
    · simp [Node.spawn]
    · intro known
      -- nobody follows yet
      obtain rfl : peer = first := by simpa [Node.caughtUp, Node.spawn] using known
      obtain rfl : instant = began := Option.some.inj (spawn.symm.trans spawned_peer)
      simp [Node.spawn, SharedClock.lead, SharedClock.localEpochMicros]

/-- No event adds a node to a session or takes one from it. -/
theorem step_isSome (session : Session) (event : SessionEvent) (next : Session)
    (stepped : step skew session event = some next) (peer : PeerId) :
    (next.nodes peer).isSome = (session.nodes peer).isSome := by
  have updated : ∀ changed node node', session.nodes changed = some node →
      ((session.setNode changed node').nodes peer).isSome = (session.nodes peer).isSome := by
    intro changed node node' found
    rw [nodes_setNode]
    split
    case isTrue same => rw [same, found, Option.isSome_some, Option.isSome_some]
    case isFalse => rfl
  cases steps_of_step stepped with
  | greet => rfl
  | deliver found | disconnect found | ping found => exact updated _ _ _ found

theorem run_isSome {events : List SessionEvent} {final : Session}
    (ran : run (step skew) (start skew spawned) events = some final) (peer : PeerId) :
    (final.nodes peer).isSome = (spawned peer).isSome := by
  apply invariant_of_run (fun session => (session.nodes peer).isSome = (spawned peer).isSome) _ _ ran
  · intro session event next kept stepped
    rw [step_isSome session event next stepped peer, kept]
  · simp [start]

/-- A way that leads elsewhere has a first step that does. -/
theorem exists_link_of_ne {one other : PeerId} (way : Relation.ReflTransGen session.Linked one other) (ne : one ≠ other) :
    ∃ neighbour, neighbour ≠ one ∧ session.Linked one neighbour := by
  induction way using Relation.ReflTransGen.head_induction_on with
  | refl => exact absurd rfl ne
  | @head one next linked _ ih =>
    by_cases same : next = one
    · subst same
      exact ih ne
    · exact ⟨next, same, linked⟩

/-- In a settled session every node is on the leader's timeline: it has a smaller peer whose time it has, or was
introduced to a larger one. -/
theorem InTime.keeps (inTime : InTime skew first origin session) (settled : session.Settled)
    (way : Relation.ReflTransGen session.Linked peer first) : Keeps skew origin session peer := by
  intro node found
  obtain ⟨onTime, elected⟩ := inTime.nodes peer node found
  by_cases isFirst : peer = first
  · exact onTime.clock (Or.inl isFirst)
  · obtain ⟨neighbour, ne, one, found_one, other, found_other, mem, mem'⟩ := exists_link_of_ne way isFirst
    obtain rfl : node = one := Option.some.inj (found.symm.trans found_one)
    obtain smaller | larger := Nat.lt_or_gt_of_ne ne
    · apply onTime.clock
      apply Or.inr
      apply settled.measured peer node found
      exact elected.leader_isSome mem (onTime.identity ▸ smaller)
    · exact inTime.heard neighbour other found_other peer mem' larger node found

/-- When nobody but the session leader is introduced to a larger node before it has its own leader's time, a settled
and connected session has one timeline. -/
theorem settled_session_agrees (skew : PeerId → Int) (spawned : PeerId → Option Nat) (first : PeerId)
    (spawn : (spawned first).isSome) (events : List SessionEvent) (final : Session)
    (ran : run (step skew) (start skew spawned) events = some final)
    (introduced : Along (step skew) (Introduced first) (start skew spawned) events) (settled : final.Settled)
    (connected : final.Connected) : Agrees skew final := by
  obtain ⟨began, spawn_eq⟩ := Option.isSome_iff_exists.mp spawn
  have inTime := invariant_of_along step_inTime (start_inTime spawn_eq) introduced ran
  have present : (final.nodes first).isSome := by rw [run_isSome ran first, spawn]
  intro one other node found node' found' instant begun begun'
  have epoch := inTime.keeps settled (connected one first (Option.isSome_of_mem found) present) node found
  have epoch' := inTime.keeps settled (connected other first (Option.isSome_of_mem found') present) node' found'
  rw [sharedMicros_reading epoch begun, sharedMicros_reading epoch' begun']

section Peers

variable {peers : List PeerId} (only : ∀ peer, (session.nodes peer).isSome → peer ∈ peers)

include only in
theorem forall_nodes {holds : PeerId → Node PeerId → Prop}
    (all : ∀ peer ∈ peers, ∀ node ∈ session.nodes peer, holds peer node) :
    ∀ peer, ∀ node ∈ session.nodes peer, holds peer node := by
  intro peer node found
  exact all peer (only peer (Option.isSome_of_mem found)) node found

/-- A session is settled if it is at its nodes. -/
def SettledAt (peers : List PeerId) (session : Session) : Prop :=
  session.inFlight = [] ∧ ∀ peer ∈ peers, ∀ node ∈ session.nodes peer, node.leader.isSome → node.caughtUp

instance (peers : List PeerId) (session : Session) : Decidable (SettledAt peers session) :=
  inferInstanceAs (Decidable (_ ∧ _))

include only in
theorem SettledAt.settled (settled : SettledAt peers session) : session.Settled :=
  ⟨settled.1, forall_nodes only settled.2⟩

theorem Linked.symm {one other : PeerId} (linked : session.Linked one other) : session.Linked other one := by
  obtain ⟨node, found, node', found', mem, mem'⟩ := linked
  exact ⟨node', found', node, found, mem', mem⟩

/-- All nodes but one have a connection to that one. -/
def StarAt (hub : PeerId) (peers : List PeerId) (session : Session) : Prop :=
  ∀ peer ∈ peers, peer = hub ∨ session.Linked peer hub

instance (one other : PeerId) : Decidable (session.Linked one other) :=
  inferInstanceAs (Decidable (∃ node ∈ session.nodes one, ∃ node' ∈ session.nodes other, other ∈ node.peers ∧ one ∈ node'.peers))

instance (hub : PeerId) (peers : List PeerId) (session : Session) : Decidable (StarAt hub peers session) :=
  inferInstanceAs (Decidable (∀ _ ∈ _, _))

include only in
/-- A session in which all have a connection to one node is connected. -/
theorem StarAt.connected {hub : PeerId} (star : StarAt hub peers session) : session.Connected := by
  intro one other present present'
  trans hub
  · obtain rfl | linked := star one (only one present)
    · exact .refl
    · exact .single linked
  · obtain rfl | linked := star other (only other present')
    · exact .refl
    · exact .single linked.symm

end Peers

/-- Nodes 1, 2 and 3 are spawned at 0, 10 and 20. -/
def threeNodes : PeerId → Option Nat
  | 1 => some 0
  | 2 => some 10
  | 3 => some 20
  | _ => none

theorem only_threeNodes {events : List SessionEvent} {final : Session}
    (ran : run (step skew) (start skew threeNodes) events = some final) (peer : PeerId) (present : (final.nodes peer).isSome) :
    peer ∈ [1, 2, 3] := by
  rw [run_isSome ran peer] at present
  unfold threeNodes at present
  split at present <;> simp_all

/-- Two nodes open a connection, with the epochs they have then. -/
def meet (one other : PeerId) (epoch epoch' : Int) : List SessionEvent :=
  [.greet one other 7000 48000, .greet other one 7000 48000,
    .deliver ⟨other, ⟨one, 7000, epoch, 48000⟩⟩ 25, .deliver ⟨one, ⟨other, 7000, epoch', 48000⟩⟩ 25]

/-- Node 3 meets node 2 after node 2 has the time of node 1. -/
def outward : List SessionEvent := meet 1 2 0 10 ++ [.ping 2 30] ++ meet 2 3 0 20 ++ [.ping 3 30]

/-- Node 3 meets node 2 before node 2 meets node 1. -/
def inward : List SessionEvent := meet 2 3 10 20 ++ meet 1 2 0 10 ++ [.ping 2 30, .ping 3 30]

theorem outward_session_agrees :
    ∃ final, run (step 0) (start 0 threeNodes) outward = some final ∧
      Along (step 0) (Introduced 1) (start 0 threeNodes) outward ∧ final.Settled ∧ final.Connected ∧ Agrees 0 final := by
  obtain ⟨final, ran, settledAt, star⟩ := exists_run (step 0) (start 0 threeNodes) outward
    (fun final => SettledAt [1, 2, 3] final ∧ StarAt 2 [1, 2, 3] final) (by decide +kernel)
  have only := only_threeNodes ran
  have introduced : Along (step 0) (Introduced 1) (start 0 threeNodes) outward := by decide +kernel
  have settled := settledAt.settled only
  have connected := star.connected only
  exact ⟨final, ran, introduced, settled, connected,
    settled_session_agrees 0 threeNodes 1 rfl outward final ran introduced settled connected⟩

/-- Node 3 keeps the epoch node 2 had when they met, and is 10 behind once node 2 follows node 1. -/
theorem inward_session_disagrees :
    ∃ final, run (step 0) (start 0 threeNodes) inward = some final ∧ final.Settled ∧ final.Connected ∧ ¬ Agrees 0 final := by
  obtain ⟨final, ran, settledAt, star, first, third⟩ := exists_run (step 0) (start 0 threeNodes) inward
    (fun final => SettledAt [1, 2, 3] final ∧ StarAt 2 [1, 2, 3] final ∧
      (final.nodes 1).map Node.clock = some ⟨0, 0⟩ ∧ (final.nodes 3).map Node.clock = some ⟨0, 10⟩) (by decide +kernel)
  have only := only_threeNodes ran
  refine ⟨final, ran, settledAt.settled only, star.connected only, ?_⟩
  intro agrees
  obtain ⟨node, found, clock⟩ := Option.map_eq_some_iff.mp first
  obtain ⟨node', found', clock'⟩ := Option.map_eq_some_iff.mp third
  have same := agrees 1 3 node found node' found' 40 (by decide) (by decide)
  rw [clock, clock'] at same
  exact absurd same (by decide)

end Session

end Index.Audio
