import OpenCbdc.Coordinator.Failover
import OpenCbdc.LockingShard.LateRequests

/-! Requests that reach a shard late: those of a deposed leader, and those that
the shard client sends again after a timeout. A shard forgets a dtx when it is
discarded, so a request that comes after that is taken for a new one. -/
namespace OpenCbdc

open TransitionSystem

namespace LockingShard

instance (crypto : Crypto) (shard : LockingShard) (request : Request) :
    Decidable (shard.Harmless crypto request) :=
  match hProcess : shard.processRequest crypto request with
  | .error fatal => isFalse (by
      rintro ⟨next, reply, hOk, _⟩
      rw [hProcess] at hOk
      cases hOk)
  | .ok (next, reply) =>
      decidable_of_iff (next.uhs = shard.uhs ∧ next.locked = shard.locked) (by
        constructor
        · exact fun hSame => ⟨next, reply, hProcess, hSame⟩
        · rintro ⟨other, answer, hOk, hSame⟩
          rw [hProcess] at hOk
          cases hOk
          exact hSame)

end LockingShard

namespace Cluster

/-- A request of this kind is delivered to the shard. -/
def Delivers (place : Nat) (kind : LockingShard.Request → Prop) (_ : Cluster) : Event → Prop
  | .deliver message _ => message.rpc.shard = place ∧ kind message.rpc.request
  | _ => False

/-- The dtx was locked on the shard, and has not been applied since. -/
def LockedSinceApply (crypto : Crypto) (configs : List ShardConfig) (events : List Event)
    (place : Nat) (dtxId : Hash) : Prop :=
  Since (step crypto) (initial configs) events (Delivers place (LockingShard.Locks dtxId))
    fun cluster event => ¬Delivers place (LockingShard.Applies dtxId) cluster event

/-- The dtx was applied on the shard, and has not been discarded since. -/
def AppliedSinceDiscard (crypto : Crypto) (configs : List ShardConfig) (events : List Event)
    (place : Nat) (dtxId : Hash) : Prop :=
  Since (step crypto) (initial configs) events (Delivers place (LockingShard.Applies dtxId))
    fun cluster event => ¬Delivers place (· = ⟨dtxId, .discard⟩) cluster event

/-- An event either reaches the shard with a request, or leaves it as it is. -/
theorem shard_of_step {crypto : Crypto} {cluster next : Cluster} {event : Event} {place : Nat}
    {shard : LockingShard} (hStep : step crypto cluster event = some next)
    (hShard : next.shards[place]? = some shard) :
    (cluster.shards[place]? = some shard ∧ ∀ kind, ¬Delivers place kind cluster event) ∨
      ∃ message respond before reply, event = .deliver message respond ∧
        message.rpc.shard = place ∧ cluster.shards[place]? = some before ∧
        before.processRequest crypto message.rpc.request = .ok (shard, reply) := by
  cases step_effect hStep with
  | @deliver message respond before after executor reply sent reached found processed =>
      by_cases hPlace : message.rpc.shard = place
      · subst hPlace
        have hLength := (List.getElem?_eq_some_iff.mp reached).1
        rw [List.getElem?_set_self hLength] at hShard
        cases hShard
        exact .inr ⟨message, respond, before, reply, rfl, rfl, reached, processed⟩
      · rw [List.getElem?_set_ne hPlace] at hShard
        exact .inl ⟨hShard, fun _ hDelivers => hPlace hDelivers.1⟩
  | _ => exact .inl ⟨hShard, fun _ hDelivers => hDelivers⟩

/-- What a shard remembers of a dtx is what the run has last delivered of it. -/
theorem remembered_iff {crypto : Crypto} {configs : List ShardConfig} {events : List Event}
    {cluster : Cluster} (hRun : run (step crypto) (initial configs) events = some cluster)
    (place : Nat) (dtxId : Hash) (shard : LockingShard)
    (hShard : cluster.shards[place]? = some shard) :
    (dtxId ∈ shard.preparedDtxs ↔ LockedSinceApply crypto configs events place dtxId) ∧
      (dtxId ∈ shard.appliedDtxs ↔ AppliedSinceDiscard crypto configs events place dtxId) := by
  refine run_induction (motive := fun events cluster => ∀ shard,
    cluster.shards[place]? = some shard →
      (dtxId ∈ shard.preparedDtxs ↔ LockedSinceApply crypto configs events place dtxId) ∧
      (dtxId ∈ shard.appliedDtxs ↔ AppliedSinceDiscard crypto configs events place dtxId))
    ?_ ?_ hRun shard hShard
  · intro shard hShard
    obtain ⟨config, _, rfl⟩ := List.mem_map.mp (List.mem_of_getElem? hShard)
    exact ⟨iff_of_false Finmap.notMem_empty (since_nil _ _ _ _),
      iff_of_false (Finset.notMem_empty _) (since_nil _ _ _ _)⟩
  · intro events middle event next hMiddle ih hStep shard hShard
    rw [LockedSinceApply, AppliedSinceDiscard, since_concat hMiddle, since_concat hMiddle]
    rcases shard_of_step hStep hShard with ⟨hSame, hOther⟩ |
        ⟨message, respond, before, reply, rfl, hPlace, hBefore, hProcess⟩
    · simp only [hOther, not_false_iff, true_and, false_or]
      exact ih shard hSame
    · obtain ⟨hPrepared, hApplied⟩ := ih before hBefore
      have hRunning := (decided hMiddle).running before (List.mem_of_getElem? hBefore)
      obtain ⟨hLocked, hMarked⟩ :=
        LockingShard.remembered_of_processRequest hRunning hProcess dtxId
      rw [hLocked, hMarked, hPrepared, hApplied]
      simp only [Delivers, hPlace, true_and]
      exact ⟨Iff.rfl, Iff.rfl⟩

/-- In every state that a cluster can reach, a request that is delivered leaves
the UHS and the lock set of a shard alone, and does not end its process, exactly
if the shard can absorb it. Which case applies is said by the run: a dtx is
prepared if it was locked and not applied since, and counts as applied until it is
discarded. -/
theorem late_rpc_harmless_iff (crypto : Crypto) (configs : List ShardConfig)
    (events : List Event) (cluster : Cluster)
    (hRun : run (step crypto) (initial configs) events = some cluster)
    (place : Nat) (shard : LockingShard) (hShard : cluster.shards[place]? = some shard)
    (request : LockingShard.Request) :
    (shard.Harmless crypto request ↔ shard.AbsorbsLate crypto request) ∧
      (request.dtxId ∈ shard.preparedDtxs ↔
        LockedSinceApply crypto configs events place request.dtxId) ∧
      (request.dtxId ∈ shard.appliedDtxs ↔
        AppliedSinceDiscard crypto configs events place request.dtxId) :=
  ⟨LockingShard.harmless_iff_absorbsLate
    ((decided hRun).running shard (List.mem_of_getElem? hShard)),
    remembered_iff hRun place request.dtxId shard hShard⟩

section LateDelivery

/-- Two shards that share the hashes; only the first one holds a coin. -/
def twoShards : List ShardConfig :=
  [⟨(0, 127), 4, .noAttestations, {.ofByte 1}⟩, ⟨(128, 255), 4, .noAttestations, ∅⟩]

/-- A transaction that spends the coin and one that does not exist. -/
def abortedTx : CompactTx := .unattested (.ofByte 9) [.ofByte 1, .ofByte 200] [.ofByte 2]

/-- Node 0 prepares the dtx and asks for the locks, but its requests are slow.
Node 1 takes over, and the shards abort, apply and discard the dtx. -/
def slowRequests : List Event :=
  [.submit 0 (.ofByte 7) [abortedTx], .append 0, .commitNext true,
    .elect 1, .appendGet 1, .commitNext true, .recover 1 (.ofByte 7),
    .deliver ⟨1, ⟨0, ⟨.ofByte 7, .lock [abortedTx]⟩⟩⟩ true,
    .deliver ⟨1, ⟨1, ⟨.ofByte 7, .lock [abortedTx]⟩⟩⟩ true, .finishRpc 1, .append 1,
    .commitNext true,
    .deliver ⟨1, ⟨0, ⟨.ofByte 7, .apply [false]⟩⟩⟩ true,
    .deliver ⟨1, ⟨1, ⟨.ofByte 7, .apply [false]⟩⟩⟩ true, .finishRpc 1, .append 1,
    .commitNext true,
    .deliver ⟨1, ⟨0, ⟨.ofByte 7, .discard⟩⟩⟩ true,
    .deliver ⟨1, ⟨1, ⟨.ofByte 7, .discard⟩⟩⟩ true]

def slowLock : Message := ⟨0, ⟨0, ⟨.ofByte 7, .lock [abortedTx]⟩⟩⟩

def repeatedApply : Message := ⟨1, ⟨0, ⟨.ofByte 7, .apply [false]⟩⟩⟩

/-- While the first shard still remembers the dtx, which was applied and not
discarded since, its apply request may come again. -/
theorem late_rpc_harmless_iff_remembered :
    AppliedSinceDiscard .unused twoShards (slowRequests.take 13) 0 (.ofByte 7) ∧
      ∃ cluster, run (step .unused) (initial twoShards) (slowRequests.take 13) = some cluster ∧
        ∃ shard ∈ cluster.shards[0]?, shard.Harmless .unused repeatedApply.rpc.request := by
  have hTest : (run (step .unused) (initial twoShards) (slowRequests.take 13)).any (fun cluster =>
      decide (∃ shard ∈ cluster.shards[0]?,
        shard.preparedDtxs.lookup (.ofByte 7) = none ∧
          (.ofByte 7) ∈ shard.appliedDtxs)) = true := by
    decide +kernel
  obtain ⟨cluster, hRun, hHolds⟩ := exists_run_of_test hTest
  obtain ⟨shard, hShard, hUnprepared, hApplied⟩ := of_decide_eq_true hHolds
  obtain ⟨hHarmless, _, hSince⟩ := late_rpc_harmless_iff .unused twoShards _ cluster hRun 0 shard
    hShard repeatedApply.rpc.request
  refine ⟨hSince.mp hApplied, cluster, hRun, shard, hShard, hHarmless.mpr ?_⟩
  simpa [LockingShard.AbsorbsLate, repeatedApply, hUnprepared] using hApplied

/-- After the discard the slow lock request takes the coin that the abort gave
back, and the repeated apply request ends the process. -/
theorem late_lock_and_apply_harmful :
    ∃ cluster, run (step .unused) (initial twoShards) slowRequests = some cluster ∧
      Passed (step .unused) (initial twoShards) slowRequests (fun earlier =>
        ∃ shard ∈ earlier.shards[0]?, (.ofByte 7) ∈ shard.appliedDtxs) ∧
      slowLock ∈ cluster.sent ∧ repeatedApply ∈ cluster.sent ∧
      ∃ shard ∈ cluster.shards[0]?, ¬shard.Harmless .unused slowLock.rpc.request ∧
        ¬shard.Harmless .unused repeatedApply.rpc.request := by
  have hEarlier : (run (step .unused) (initial twoShards) (slowRequests.take 13)).any
      (fun earlier => decide (∃ shard ∈ earlier.shards[0]?,
        (.ofByte 7) ∈ shard.appliedDtxs)) = true := by
    decide +kernel
  have hTest : (run (step .unused) (initial twoShards) slowRequests).any (fun cluster =>
      decide (slowLock ∈ cluster.sent ∧ repeatedApply ∈ cluster.sent ∧
        ∃ shard ∈ cluster.shards[0]?, ¬shard.Harmless .unused slowLock.rpc.request ∧
          ¬shard.Harmless .unused repeatedApply.rpc.request)) = true := by
    decide +kernel
  obtain ⟨earlier, hBefore, hApplied⟩ := exists_run_of_test hEarlier
  obtain ⟨cluster, hRun, hHarm⟩ := exists_run_of_test hTest
  exact ⟨cluster, hRun,
    ⟨_, _, earlier, (List.take_append_drop 13 slowRequests).symm, hBefore,
      of_decide_eq_true hApplied⟩,
    of_decide_eq_true hHarm⟩

end LateDelivery

end Cluster
end OpenCbdc
