import Mathlib

/-! # The shared clock

Peers agree on one timeline, counted in microseconds since the epoch of a session.  A peer measures how far
the clock of its leader is ahead of its own with pings that carry four times, and reads the shared time off
its own clock with that offset.  Microseconds of a live clock fit an `i64`, as the source notes at each cast, so
times are natural numbers and their differences integers. -/

namespace Index.Audio

open List

/-- `PeerId(u64)`: the smallest one leads. -/
abbrev PeerId := Nat

/-- A measurement of a peer's clock, and whose clock it measured, which no packet says. -/
structure PingSample where
  requestSent : Nat
  peerReceived : Nat
  peerReplied : Nat
  responseReceived : Nat
  source : PeerId
deriving DecidableEq

namespace PingSample

/-- How far the peer's clock is ahead if the ways to it and back took the same time. -/
def offsetMicros (sample : PingSample) : Int :=
  let outbound : Int := sample.peerReceived - sample.requestSent
  let inbound : Int := sample.peerReplied - sample.responseReceived
  -- `i128::midpoint` rounds towards zero
  (outbound + inbound).tdiv 2

def rttMicros (sample : PingSample) : Nat :=
  (sample.responseReceived - sample.requestSent) - (sample.peerReplied - sample.peerReceived)

end PingSample

/-- The most recent samples, the oldest first. -/
structure OffsetEstimator where
  samples : List PingSample
  capacity : Nat
deriving DecidableEq

namespace OffsetEstimator

def new (capacity : Nat) : OffsetEstimator := ⟨[], capacity⟩

def clear (estimator : OffsetEstimator) : OffsetEstimator := { estimator with samples := [] }

def record (estimator : OffsetEstimator) (sample : PingSample) : OffsetEstimator :=
  let kept := if estimator.samples.length = estimator.capacity then estimator.samples.tail else estimator.samples
  { estimator with samples := kept ++ [sample] }

/-- The upper median of the offsets of those samples whose round trip is not much longer than the shortest. -/
def estimate (estimator : OffsetEstimator) : Option Int :=
  match (estimator.samples.map PingSample.rttMicros).min? with
  | none => none
  | some minRtt =>
    let cutoff := min (minRtt * 3) (2 ^ 64 - 1) / 2 + 500
    let crisp := estimator.samples.filter fun sample => sample.rttMicros ≤ cutoff
    let offsets := (crisp.map PingSample.offsetMicros).mergeSort
    offsets[offsets.length / 2]?

theorem mem_record {estimator : OffsetEstimator} {sample recorded : PingSample}
    (mem : sample ∈ (estimator.record recorded).samples) : sample ∈ estimator.samples ∨ sample = recorded := by
  rw [record, mem_append, mem_singleton] at mem
  apply mem.imp_left
  intro kept
  split at kept
  · exact mem_of_mem_tail kept
  · exact kept

theorem record_ne_nil (estimator : OffsetEstimator) (sample : PingSample) : (estimator.record sample).samples ≠ [] := by
  simp [record]

/-! ## How far an estimate is off -/

section Error

variable {estimator : OffsetEstimator} {sample : PingSample} {ahead : Int} {minRtt : Nat}

/-- The sample was taken of a clock that is `ahead` of the own one, after `outbound` and `inbound` on the way. -/
def Measures (ahead : Int) (sample : PingSample) : Prop :=
  ∃ outbound processing inbound : Nat, sample.peerReceived = sample.requestSent + outbound + ahead ∧
    sample.peerReplied = sample.peerReceived + processing ∧
    sample.responseReceived = sample.requestSent + outbound + processing + inbound

/-- The times fit an `i64`, as the casts of the source take for granted. -/
def Fits (sample : PingSample) : Prop := sample.peerReplied < 2 ^ 63 ∧ sample.responseReceived < 2 ^ 63

/-- The ways there and back differ by the round trip at most, of which the midpoint takes half. -/
theorem Measures.offset_near (measures : Measures ahead sample) :
    2 * |sample.offsetMicros - ahead| ≤ sample.rttMicros + 1 := by
  obtain ⟨outbound, processing, inbound, received, replied, responded⟩ := measures
  have sum : (sample.peerReceived - sample.requestSent + (sample.peerReplied - sample.responseReceived) : Int) =
      2 * ahead + outbound - inbound := by omega
  have halved := Int.mul_tdiv_add_tmod (2 * ahead + outbound - inbound) 2
  have lower := Int.lt_tmod_of_pos (2 * ahead + outbound - inbound) two_pos
  have upper := Int.tmod_lt_of_pos (2 * ahead + outbound - inbound) two_pos
  rw [PingSample.offsetMicros, PingSample.rttMicros, sum]
  rcases abs_cases ((2 * ahead + outbound - inbound).tdiv 2 - ahead) with size | size <;> omega

theorem estimate_mem {offset : Int} (estimated : estimator.estimate = some offset)
    (shortest : (estimator.samples.map PingSample.rttMicros).min? = some minRtt) :
    ∃ sample ∈ estimator.samples, sample.rttMicros ≤ minRtt * 3 / 2 + 500 ∧ sample.offsetMicros = offset := by
  simp only [estimate, shortest] at estimated
  have member := mem_of_getElem? estimated
  rw [mem_mergeSort, mem_map] at member
  obtain ⟨sample, crisp, same⟩ := member
  simp only [mem_filter, decide_eq_true_eq] at crisp
  exact ⟨sample, crisp.1, by omega, same⟩

/-- The quickest sample is never cut off, so that there is a median. -/
theorem estimate_isSome (shortest : (estimator.samples.map PingSample.rttMicros).min? = some minRtt) (short : minRtt < 2 ^ 63) :
    ∃ offset, estimator.estimate = some offset := by
  obtain ⟨sample, member, quickest⟩ := mem_map.mp (min?_mem shortest)
  simp only [estimate, shortest]
  refine ⟨_, getElem?_eq_getElem (Nat.div_lt_self (length_pos_of_mem (a := sample.offsetMicros) ?_) Nat.one_lt_two)⟩
  rw [mem_mergeSort]
  refine mem_map_of_mem (mem_filter.mpr ⟨member, ?_⟩)
  rw [decide_eq_true_eq]
  omega

theorem estimate_near (measured : ∀ sample ∈ estimator.samples, Measures ahead sample)
    (fits : ∀ sample ∈ estimator.samples, Fits sample)
    (shortest : (estimator.samples.map PingSample.rttMicros).min? = some minRtt) :
    ∃ offset, estimator.estimate = some offset ∧ 2 * |offset - ahead| ≤ minRtt * 3 / 2 + 501 := by
  obtain ⟨quickest, member, same⟩ := mem_map.mp (min?_mem shortest)
  have short : minRtt < 2 ^ 63 := by
    have := (fits quickest member).2
    rw [PingSample.rttMicros] at same
    omega
  obtain ⟨offset, estimated⟩ := estimate_isSome shortest short
  obtain ⟨sample, member, crisp, rfl⟩ := estimate_mem estimated shortest
  have near := (measured sample member).offset_near
  exact ⟨_, estimated, by omega⟩

/-- Two pings of a clock that is five seconds ahead, one of them held up on its way back. -/
def pinged : OffsetEstimator := ⟨[⟨0, 5000400, 5000500, 900, 1⟩, ⟨1000, 5001400, 5001500, 90000, 1⟩], 8⟩

theorem pinged_near : ∃ offset, pinged.estimate = some offset ∧ 2 * |offset - 5000000| ≤ 800 * 3 / 2 + 501 :=
  estimate_near
    (forall_mem_cons.mpr ⟨⟨400, 100, 400, by decide⟩, forall_mem_singleton.mpr ⟨400, 100, 88500, by decide⟩⟩)
    (by simp [pinged, Fits]) (by decide)

/-- A round trip that does not fit is longer than the cutoff, which saturates, and is all there is to take the median of. -/
theorem estimate_eq_none : ∃ sample, Measures 0 sample ∧ estimate ⟨[sample], 8⟩ = none :=
  ⟨⟨0, 2 ^ 63 + 1000, 2 ^ 63 + 1000, 2 ^ 63 + 1000, 1⟩, ⟨2 ^ 63 + 1000, 0, 0, by decide⟩, by simp [estimate, PingSample.rttMicros]⟩

end Error

end OffsetEstimator

/-- `shared = local + offset - epoch`: the offset leads from the own clock to the leader's. -/
structure SharedClock where
  offsetMicros : Int
  epochMicros : Int
deriving DecidableEq

namespace SharedClock

def lead (now : Nat) : SharedClock := ⟨0, now⟩

def follow (offsetMicros epochMicros : Int) : SharedClock := ⟨offsetMicros, epochMicros⟩

/-- The epoch on the peer's own clock, which is what it tells others. -/
def localEpochMicros (clock : SharedClock) : Int := clock.epochMicros - clock.offsetMicros

def sharedMicros (clock : SharedClock) (now : Nat) : Int := now + clock.offsetMicros - clock.epochMicros

/-- The clock of a peer that goes on leading the timeline it has. -/
def adoptLead (clock : SharedClock) (now : Nat) : SharedClock := ⟨0, now - clock.sharedMicros now⟩

/-- Taking the lead keeps the timeline. -/
theorem localEpochMicros_adoptLead (clock : SharedClock) (now : Nat) :
    (clock.adoptLead now).localEpochMicros = clock.localEpochMicros := by
  simp only [localEpochMicros, adoptLead, sharedMicros]
  omega

end SharedClock

end Index.Audio
