import Mathlib
import Index.Audio.Session

/-! # The election over the connections of a node

Connections come and go, several to one peer at a time, and pings are folded in between.  The table of peers counts the
connections that are open, and the node follows the smallest peer it has one to, if that peer is smaller than itself. -/

namespace Index.Audio

open Index.Lib

variable {Ip : Type} {node : Node Ip}

/-- A node, and the peers at the other ends of its open connections. -/
structure Links (Ip : Type) where
  node : Node Ip
  live : List PeerId

inductive PeerEvent (Ip : Type) where
  | connect (remote : Hello) (ip : Ip) (now : Nat)
  | disconnect (remoteId : PeerId) (now : Nat)
  | ping (sample : PingSample)

namespace Links

def spawn (peerId : PeerId) (now : Nat) : Links Ip := ⟨.spawn peerId now, []⟩

/-- Only an open connection ends. -/
def step (links : Links Ip) : PeerEvent Ip → Option (Links Ip)
  | .connect remote ip now => some ⟨links.node.peerConnected remote ip now, remote.peerId :: links.live⟩
  | .disconnect remoteId now =>
    if remoteId ∈ links.live then some ⟨links.node.peerDisconnected remoteId now, links.live.erase remoteId⟩ else none
  | .ping sample => some ⟨links.node.foldPing sample, links.live⟩

/-- The table has the peers with an open connection, each with their number. -/
def Counts (live : List PeerId) (node : Node Ip) : Prop :=
  ∀ id, (node.peers[id]?).map PeerEntry.connections = if live.count id = 0 then none else some (live.count id)

end Links

open Links

theorem Links.Counts.register {live : List PeerId} (counts : Counts live node) (remote : Hello) (ip : Ip) :
    Counts (remote.peerId :: live) (node.register remote ip) := by
  intro id
  rw [Node.register, Std.ExtTreeMap.getElem?_insert, List.count_cons]
  have before := counts id
  by_cases same : remote.peerId = id
  · subst same
    cases known : node.peers[remote.peerId]? <;> simp_all
  · simp [same, before]

theorem Links.Counts.unregister {live : List PeerId} {remoteId : PeerId} (counts : Counts live node) (member : remoteId ∈ live) :
    Counts (live.erase remoteId) (node.unregister remoteId) := by
  have before := counts remoteId
  rw [if_neg (List.count_pos_iff.mpr member).ne', Option.map_eq_some_iff] at before
  obtain ⟨entry, known, connections⟩ := before
  intro id
  have others := counts id
  simp only [Node.unregister, known, List.count_erase]
  by_cases same : remoteId = id
  · subst same
    split_ifs <;> simp_all
  · split_ifs <;> simp_all [Std.ExtTreeMap.getElem?_erase, Std.ExtTreeMap.getElem?_insert]

/-- The smallest key of the table is the smallest peer. -/
theorem Node.Elected.leader_eq {live : List PeerId} (elected : node.Elected) (counts : Counts live node) :
    node.leader.map Leader.peerId = live.min?.filter (· < node.peerId) := by
  have members : ∀ id, id ∈ node.peers ↔ id ∈ live := by
    intro id
    rw [Std.ExtTreeMap.mem_iff_isSome_getElem?, ← Option.isSome_map, counts id, ← List.count_pos_iff, Nat.pos_iff_ne_zero]
    split_ifs with absent <;> simp [absent]
  have least : node.peers.minKey? = live.min? := by
    ext id
    rw [Std.ExtTreeMap.minKey?_eq_some_iff_mem_and_forall, List.min?_eq_some_iff]
    simp [members, Nat.isLE_compare]
  rw [elected, Node.nextLeader, ← least, Std.ExtTreeMap.minKey?_eq_head?_keys, ← Std.ExtTreeMap.map_fst_toList_eq_keys]
  cases node.peers.toList with
  | nil => rfl
  | cons first rest => by_cases smaller : first.1 < node.peerId <;> simp [Option.filter, smaller]

namespace Links

/-- Connections change the table of peers, and the leader and what hangs on it by an election. -/
inductive Moves (links : Links Ip) : Links Ip → Prop
  | elected (now : Nat) {live : List PeerId} (peers : BTreeMap PeerId (PeerEntry Ip))
      (counts : Counts links.live links.node → Counts live { links.node with peers }) :
      Moves links ⟨Node.elect { links.node with peers } now, live⟩
  | folded (estimator : OffsetEstimator) (clock : SharedClock) : Moves links ⟨{ links.node with estimator, clock }, links.live⟩

theorem moves_of_step {links next : Links Ip} {event : PeerEvent Ip} (stepped : links.step event = some next) :
    Moves links next := by
  cases event with
  | connect remote ip now =>
    obtain rfl := Option.some.inj stepped
    exact .elected now _ fun counts => counts.register remote ip
  | disconnect remoteId now =>
    rw [step] at stepped
    split_ifs at stepped with member
    obtain rfl := Option.some.inj stepped
    obtain ⟨peers, unregistered, -⟩ := links.node.unregister_eq remoteId
    rw [Node.peerDisconnected, unregistered]
    exact .elected now peers fun counts => unregistered ▸ counts.unregister member
  | ping sample =>
    obtain rfl := Option.some.inj stepped
    rw [Node.foldPing]
    split
    · exact .folded _ _
    · exact .folded _ _

/-- A node that was spawned keeps count of its connections, follows the smallest of its peers if that is smaller than
itself, and keeps its timeline when it comes to lead. -/
theorem election_of_run {peerId : PeerId} {now : Nat} {events : List (PeerEvent Ip)} {links : Links Ip}
    (ran : run step (spawn peerId now) events = some links) :
    Counts links.live links.node ∧ links.node.leader.map Leader.peerId = links.live.min?.filter (· < peerId) ∧
      ∀ event next, links.step event = some next → links.node.leader.isSome → next.node.leader = none →
        ∀ instant, next.node.clock.sharedMicros instant = links.node.clock.sharedMicros instant := by
  have kept : links.node.peerId = peerId ∧ Counts links.live links.node ∧ links.node.Elected := by
    refine invariant_of_run (fun links => links.node.peerId = peerId ∧ Counts links.live links.node ∧ links.node.Elected) ?_
      ⟨rfl, fun id => by simp [spawn, Node.spawn], rfl⟩ ran
    rintro links event next ⟨own, counts, elected⟩ stepped
    cases moves_of_step stepped with
    | elected now peers counted =>
      obtain ⟨same, kept, -⟩ := Node.elect_keeps { links.node with peers } now
      refine ⟨same.trans own, fun id => ?_, Node.elect_elected _ now⟩
      rw [kept]
      exact counted counts id
    | folded estimator clock => exact ⟨own, counts, elected⟩
  obtain ⟨rfl, counts, elected⟩ := kept
  refine ⟨counts, elected.leader_eq counts, fun event next stepped follows leads instant => ?_⟩
  cases moves_of_step stepped with
  | elected now peers counted =>
    obtain ⟨-, -, epoch⟩ := Node.elect_keeps { links.node with peers } now
    simp only [SharedClock.localEpochMicros] at epoch
    simp only [SharedClock.sharedMicros]
    omega
  | folded estimator clock =>
    rw [leads] at follows
    cases follows

/-- Two connections to one peer, of which one ends. -/
def rejoined : List (PeerEvent Unit) :=
  [.connect ⟨3, 9000, 0, 48000⟩ () 10, .connect ⟨3, 9000, 0, 48000⟩ () 20, .connect ⟨7, 9000, 0, 48000⟩ () 30, .disconnect 3 40]

theorem rejoined_elects : ∃ links, run step (spawn 5 0) rejoined = some links ∧
    links.node.leader.map Leader.peerId = links.live.min?.filter (· < 5) := by
  obtain ⟨links, ran, -⟩ := exists_run step (spawn 5 0) rejoined (fun _ => True) (by decide +kernel)
  exact ⟨links, ran, (election_of_run ran).2.1⟩

end Links

end Index.Audio
