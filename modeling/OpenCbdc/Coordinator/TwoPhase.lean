import OpenCbdc.Coordinator.Commitment
import OpenCbdc.Library.Slots
import OpenCbdc.LockingShard.Ownership

/-! What two-phase commit over the locking shards is for: no coin is spent
twice. This system knows the shards, the batches and the decisions only. A
decision may complete a transaction once every shard that takes part in it has
granted it; how the coordinators reach the decision is left open. -/
namespace OpenCbdc

open DistributedTx

/-- The shards, the batches under their dtx IDs, and what was decided. -/
structure TwoPhase where
  shards : List LockingShard
  batches : Finmap fun _ : Hash => List CompactTx
  decisions : List (Hash × List Bool)

namespace TwoPhase

/-- The decisions of a batch as one shard gets them. -/
def shardFlags (range : ShardRange) (batch : List CompactTx) (decision : List Bool) : List Bool :=
  (relevantIdxs range batch).map fun idx => decision.getD idx false

def Undecided (system : TwoPhase) (dtxId : Hash) : Prop :=
  ∀ decision, (dtxId, decision) ∉ system.decisions

/-- A shard is asked to lock before the decision and to apply the decision
after it. -/
def Allowed (system : TwoPhase) (shard : LockingShard) (request : LockingShard.Request) : Prop :=
  match request.params with
  | .lock txs => system.Undecided request.dtxId ∧ ∃ batch,
      system.batches.lookup request.dtxId = some batch ∧
        txs = relevantTxs shard.outputRange batch
  | .apply completeTxs => ∃ batch decision, system.batches.lookup request.dtxId = some batch ∧
      (request.dtxId, decision) ∈ system.decisions ∧
        completeTxs = shardFlags shard.outputRange batch decision
  | .discard => True

/-- Every shard that takes part in a transaction which is to be completed has
granted it and holds its record. -/
def Granted (system : TwoPhase) (dtxId : Hash) (batch : List CompactTx) (decision : List Bool) :
    Prop :=
  ∀ (idx : Nat) (tx : CompactTx), batch[idx]? = some tx → decision[idx]? = some true →
    ∀ shard ∈ system.shards, active shard.outputRange tx = true →
      ∃ dtx, shard.preparedDtxs.lookup dtxId = some dtx ∧
        dtx.results[position shard.outputRange batch idx]? = some true

/-- The moves of the system. A shard gives back only locks of its own batch. -/
inductive Move (crypto : Crypto) (system : TwoPhase) : TwoPhase → Prop where
  | submit {dtxId : Hash} (batch : List CompactTx) (unused : dtxId ∉ system.batches) :
      Move crypto system { system with batches := system.batches.insert dtxId batch }
  | decide {dtxId : Hash} {batch : List CompactTx} {decision : List Bool}
      (known : system.batches.lookup dtxId = some batch) (undecided : system.Undecided dtxId)
      (granted : system.Granted dtxId batch decision) :
      Move crypto system { system with decisions := system.decisions ++ [(dtxId, decision)] }
  | process {place : Nat} {shard after : LockingShard} {request : LockingShard.Request}
      {reply : LockingShard.Reply} (reached : system.shards[place]? = some shard)
      (allowed : system.Allowed shard request) (own : shard.ReleasesOwn request)
      (processed : LockingShard.Effect crypto shard request after reply) :
      Move crypto system { system with shards := system.shards.set place after }

def Completed (system : TwoPhase) (dtxId : Hash) (idx : Nat) (tx : CompactTx) : Prop :=
  ∃ batch decision, system.batches.lookup dtxId = some batch ∧
    (dtxId, decision) ∈ system.decisions ∧ batch[idx]? = some tx ∧ decision[idx]? = some true

/-- The ID was in the first UHS of the shard, or a completed transaction that
the shard has applied created it. -/
def Known (seed : Finset Hash) (system : TwoPhase) (shard : LockingShard) (uhsId : Hash) : Prop :=
  uhsId ∈ seed ∨ ∃ dtxId idx tx, system.Completed dtxId idx tx ∧
    uhsId ∈ shard.relevantOutputs tx ∧ dtxId ∉ shard.preparedDtxs

/-- Every output is new, and only one batch entry creates it. -/
structure FreshOutputs (seeds : Nat → Finset Hash)
    (batches : Finmap fun _ : Hash => List CompactTx) : Prop where
  unseeded : ∀ dtxId batch, batches.lookup dtxId = some batch → ∀ tx ∈ batch,
    ∀ uhsId ∈ tx.uhsOutputs, ∀ place, uhsId ∉ seeds place
  once : ∀ firstId first secondId second (firstIdx secondIdx : Nat) (firstTx secondTx : CompactTx),
    batches.lookup firstId = some first → batches.lookup secondId = some second →
    first[firstIdx]? = some firstTx → second[secondIdx]? = some secondTx →
    ∀ uhsId, uhsId ∈ firstTx.uhsOutputs → uhsId ∈ secondTx.uhsOutputs →
      firstId = secondId ∧ firstIdx = secondIdx

/-- Fewer batches create fewer outputs. -/
theorem FreshOutputs.anti {seeds : Nat → Finset Hash}
    {batches larger : Finmap fun _ : Hash => List CompactTx} (h : FreshOutputs seeds larger)
    (hBatches : ∀ dtxId batch, batches.lookup dtxId = some batch →
      larger.lookup dtxId = some batch) : FreshOutputs seeds batches where
  unseeded := fun dtxId batch hBatch => h.unseeded dtxId batch (hBatches dtxId batch hBatch)
  once := fun firstId first secondId second firstIdx secondIdx firstTx secondTx hFirst hSecond =>
    h.once firstId first secondId second firstIdx secondIdx firstTx secondTx
      (hBatches firstId first hFirst) (hBatches secondId second hSecond)

/-- The inputs of completed entries are held by them alone, until they are
spent for good. -/
structure Sound (seeds : Nat → Finset Hash) (system : TwoPhase) : Prop where
  batched : ∀ dtxId decision, (dtxId, decision) ∈ system.decisions → dtxId ∈ system.batches
  decidedOnce : ∀ dtxId first second, (dtxId, first) ∈ system.decisions →
    (dtxId, second) ∈ system.decisions → first = second
  stored : ∀ shard ∈ system.shards, ∀ dtxId dtx, shard.preparedDtxs.lookup dtxId = some dtx →
    ∃ batch, system.batches.lookup dtxId = some batch ∧
      dtx.txs = relevantTxs shard.outputRange batch
  owned : ∀ shard ∈ system.shards, shard.Owned
  granted : ∀ dtxId batch decision, system.batches.lookup dtxId = some batch →
    (dtxId, decision) ∈ system.decisions →
    ∀ (idx : Nat) (tx : CompactTx), batch[idx]? = some tx → decision[idx]? = some true →
      ∀ shard ∈ system.shards, active shard.outputRange tx = true →
        ∀ dtx, shard.preparedDtxs.lookup dtxId = some dtx →
          dtx.results[position shard.outputRange batch idx]? = some true
  spent : ∀ dtxId idx tx, system.Completed dtxId idx tx → ∀ shard ∈ system.shards,
    dtxId ∉ shard.preparedDtxs → ∀ uhsId ∈ shard.relevantInputs tx,
      uhsId ∉ shard.uhs ∧ uhsId ∉ shard.locked
  single : ∀ firstId first firstTx secondId second secondTx,
    system.Completed firstId first firstTx → system.Completed secondId second secondTx →
      ∀ shard ∈ system.shards, ∀ uhsId, uhsId ∈ shard.relevantInputs firstTx →
        uhsId ∈ shard.relevantInputs secondTx → firstId = secondId ∧ first = second
  known : ∀ (place : Nat) (shard : LockingShard), system.shards[place]? = some shard →
    ∀ uhsId ∈ shard.uhs ∪ shard.locked, Known (seeds place) system shard uhsId
  knownInputs : ∀ dtxId idx tx, system.Completed dtxId idx tx →
    ∀ (place : Nat) (shard : LockingShard), system.shards[place]? = some shard →
      ∀ uhsId ∈ shard.relevantInputs tx, Known (seeds place) system shard uhsId

section Facts

variable {seeds : Nat → Finset Hash} {system : TwoPhase}

theorem active_of_mem_relevantInputs {shard : LockingShard} {tx : CompactTx} {uhsId : Hash}
    (h : uhsId ∈ shard.relevantInputs tx) : active shard.outputRange tx = true := by
  rw [LockingShard.relevantInputs, mem_inRange] at h
  exact (active_iff _ _).mpr (Or.inr (Or.inl ⟨uhsId, h.1, h.2⟩))

theorem position_injective {range : ShardRange} {batch : List CompactTx} {first second : Nat}
    {firstTx secondTx : CompactTx} (hFirst : batch[first]? = some firstTx)
    (hFirstActive : active range firstTx = true) (hSecond : batch[second]? = some secondTx)
    (hSecondActive : active range secondTx = true)
    (hSame : position range batch first = position range batch second) : first = second := by
  have hFirstIdx := (getElem?_position hFirst hFirstActive).1
  have hSecondIdx := (getElem?_position hSecond hSecondActive).1
  rw [hSame] at hFirstIdx
  exact Option.some.inj (hFirstIdx.symm.trans hSecondIdx)

/-- A completed entry of a dtx that is still prepared holds its inputs. -/
theorem Sound.holds (h : Sound seeds system) {dtxId : Hash} {idx : Nat} {tx : CompactTx}
    (hCompleted : system.Completed dtxId idx tx) {shard : LockingShard}
    (hShard : shard ∈ system.shards) (hPrepared : dtxId ∈ shard.preparedDtxs) {uhsId : Hash}
    (hListed : uhsId ∈ shard.relevantInputs tx) :
    ∃ batch, system.batches.lookup dtxId = some batch ∧ batch[idx]? = some tx ∧
      shard.Holds dtxId (position shard.outputRange batch idx) uhsId := by
  obtain ⟨batch, decision, hBatch, hDecided, hTx, hFlag⟩ := hCompleted
  obtain ⟨dtx, hDtx⟩ := Finmap.mem_iff.mp hPrepared
  obtain ⟨other, hOther, hTxs⟩ := h.stored shard hShard dtxId dtx hDtx
  obtain rfl : other = batch := Option.some.inj (hOther.symm.trans hBatch)
  have hActive := active_of_mem_relevantInputs hListed
  refine ⟨other, hBatch, hTx, dtx, tx, hDtx, ?_, ?_, hListed⟩
  · rw [hTxs]
    exact (getElem?_position hTx hActive).2
  · exact h.granted dtxId other decision hBatch hDecided idx tx hTx hFlag shard hShard hActive
      dtx hDtx

/-- What is known of a UHS ID stays known when more is completed. -/
theorem Known.mono {seed : Finset Hash} {next : TwoPhase} {shard after : LockingShard}
    {uhsId : Hash} (h : Known seed system shard uhsId)
    (hCompleted : ∀ dtxId idx tx, system.Completed dtxId idx tx → next.Completed dtxId idx tx)
    (hOutputs : ∀ tx, after.relevantOutputs tx = shard.relevantOutputs tx)
    (hPrepared : ∀ dtxId idx tx, system.Completed dtxId idx tx → dtxId ∈ after.preparedDtxs →
      dtxId ∈ shard.preparedDtxs) :
    Known seed next after uhsId := by
  rcases h with hSeed | ⟨dtxId, idx, tx, hTx, hOutput, hApplied⟩
  · exact Or.inl hSeed
  · refine Or.inr ⟨dtxId, idx, tx, hCompleted dtxId idx tx hTx, ?_,
      fun hAfter => hApplied (hPrepared dtxId idx tx hTx hAfter)⟩
    rw [hOutputs]
    exact hOutput

end Facts

section Submit

variable {seeds : Nat → Finset Hash} {system : TwoPhase} {dtxId : Hash}

/-- A batch under a new ID changes nothing for the dtxs of before, which have other IDs. -/
theorem Sound.submit (h : Sound seeds system) (batch : List CompactTx)
    (hUnused : dtxId ∉ system.batches) :
    Sound seeds { system with batches := system.batches.insert dtxId batch } := by
  have hLookup : ∀ {other decision}, (other, decision) ∈ system.decisions →
      (system.batches.insert dtxId batch).lookup other = system.batches.lookup other := by
    intro other decision hDecided
    obtain ⟨found, hFound⟩ := Finmap.mem_iff.mp (h.batched other decision hDecided)
    rw [Table.lookup_insert_of_lookup hUnused batch hFound, hFound]
  have hCompleted : ∀ other idx tx,
      Completed { system with batches := system.batches.insert dtxId batch } other idx tx ↔
        system.Completed other idx tx := by
    intro other idx tx
    constructor
    · rintro ⟨found, decision, hFound, hDecided, hRest⟩
      exact ⟨found, decision, (hLookup hDecided).symm.trans hFound, hDecided, hRest⟩
    · rintro ⟨found, decision, hFound, hDecided, hRest⟩
      exact ⟨found, decision, (hLookup hDecided).trans hFound, hDecided, hRest⟩
  have hKnown : ∀ place shard uhsId, Known (seeds place) system shard uhsId →
      Known (seeds place) { system with batches := system.batches.insert dtxId batch } shard
        uhsId :=
    fun _ _ _ hOld => hOld.mono (fun other idx tx => (hCompleted other idx tx).mpr)
      (fun _ => rfl) (fun _ _ _ _ hPrepared => hPrepared)
  constructor
  · intro other decision hDecided
    exact Finmap.mem_insert.mpr (Or.inr (h.batched other decision hDecided))
  · exact h.decidedOnce
  · intro shard hShard other dtx hDtx
    obtain ⟨found, hFound, hTxs⟩ := h.stored shard hShard other dtx hDtx
    exact ⟨found, Table.lookup_insert_of_lookup hUnused batch hFound, hTxs⟩
  · exact h.owned
  · intro other found decision hFound hDecided
    exact h.granted other found decision ((hLookup hDecided).symm.trans hFound) hDecided
  · exact fun other idx tx hTx => h.spent other idx tx ((hCompleted other idx tx).mp hTx)
  · exact fun firstId first firstTx secondId second secondTx hFirst hSecond =>
      h.single firstId first firstTx secondId second secondTx ((hCompleted _ _ _).mp hFirst)
        ((hCompleted _ _ _).mp hSecond)
  · exact fun place shard hShard uhsId hIn =>
      hKnown place shard uhsId (h.known place shard hShard uhsId hIn)
  · exact fun other idx tx hTx place shard hShard uhsId hIn => hKnown place shard uhsId
      (h.knownInputs other idx tx ((hCompleted other idx tx).mp hTx) place shard hShard uhsId hIn)

end Submit

section Decide

variable {seeds : Nat → Finset Hash} {system : TwoPhase} {dtxId : Hash}
variable {batch : List CompactTx} {decision : List Bool}
variable (hBatch : system.batches.lookup dtxId = some batch)

/-- What a decision adds to the completed entries. -/
theorem completed_decide_iff {other : Hash} {idx : Nat} {tx : CompactTx} :
    Completed { system with decisions := system.decisions ++ [(dtxId, decision)] } other idx tx ↔
      system.Completed other idx tx ∨ other = dtxId ∧
        ∃ found, system.batches.lookup dtxId = some found ∧ found[idx]? = some tx ∧
          decision[idx]? = some true := by
  constructor
  · rintro ⟨found, other, hFound, hDecided, hTx, hFlag⟩
    rcases List.mem_append.mp hDecided with hOld | hNew
    · exact Or.inl ⟨found, other, hFound, hOld, hTx, hFlag⟩
    · cases List.mem_singleton.mp hNew
      exact Or.inr ⟨rfl, found, hFound, hTx, hFlag⟩
  · rintro (⟨found, other, hFound, hOld, hTx, hFlag⟩ | ⟨rfl, found, hFound, hTx, hFlag⟩)
    · exact ⟨found, other, hFound, List.mem_append_left _ hOld, hTx, hFlag⟩
    · exact ⟨found, decision, hFound, List.mem_append_right _ (List.mem_singleton_self _), hTx,
        hFlag⟩

include hBatch

theorem completed_of_decide {other : Hash} {idx : Nat} {tx : CompactTx}
    (h : Completed { system with decisions := system.decisions ++ [(dtxId, decision)] }
      other idx tx) :
    system.Completed other idx tx ∨
      other = dtxId ∧ batch[idx]? = some tx ∧ decision[idx]? = some true := by
  rcases completed_decide_iff.mp h with hOld | ⟨hId, found, hFound, hTx, hFlag⟩
  · exact Or.inl hOld
  · obtain rfl : found = batch := Option.some.inj (hFound.symm.trans hBatch)
    exact Or.inr ⟨hId, hTx, hFlag⟩

/-- Entries of the decided dtx hold their inputs. -/
theorem Sound.holds_of_granted (h : Sound seeds system)
    (hGranted : system.Granted dtxId batch decision) {idx : Nat} {tx : CompactTx}
    (hTx : batch[idx]? = some tx) (hFlag : decision[idx]? = some true) {shard : LockingShard}
    (hShard : shard ∈ system.shards) {uhsId : Hash} (hListed : uhsId ∈ shard.relevantInputs tx) :
    dtxId ∈ shard.preparedDtxs ∧
      shard.Holds dtxId (position shard.outputRange batch idx) uhsId := by
  have hActive := active_of_mem_relevantInputs hListed
  obtain ⟨dtx, hDtx, hResult⟩ := hGranted idx tx hTx hFlag shard hShard hActive
  obtain ⟨other, hOther, hTxs⟩ := h.stored shard hShard dtxId dtx hDtx
  obtain rfl : other = batch := Option.some.inj (hOther.symm.trans hBatch)
  refine ⟨Finmap.mem_iff.mpr ⟨dtx, hDtx⟩, dtx, tx, hDtx, ?_, hResult, hListed⟩
  rw [hTxs]
  exact (getElem?_position hTx hActive).2

/-- An old completed entry shares no input with the dtx that is decided. -/
theorem Sound.apart_of_granted (h : Sound seeds system)
    (hGranted : system.Granted dtxId batch decision) (hUndecided : system.Undecided dtxId)
    {other : Hash} {otherIdx idx : Nat} {otherTx tx : CompactTx}
    (hOther : system.Completed other otherIdx otherTx) (hTx : batch[idx]? = some tx)
    (hFlag : decision[idx]? = some true) {shard : LockingShard} (hShard : shard ∈ system.shards)
    {uhsId : Hash} (hOtherListed : uhsId ∈ shard.relevantInputs otherTx) :
    uhsId ∉ shard.relevantInputs tx := by
  intro hListed
  obtain ⟨_, hHolds⟩ := h.holds_of_granted hBatch hGranted hTx hFlag hShard hListed
  by_cases hPrepared : other ∈ shard.preparedDtxs
  · obtain ⟨found, _, _, hOtherHolds⟩ := h.holds hOther hShard hPrepared hOtherListed
    obtain ⟨rfl, _⟩ := (h.owned shard hShard).unique uhsId _ _ _ _ hOtherHolds hHolds
    obtain ⟨_, decided, _, hDecided, _⟩ := hOther
    exact hUndecided decided hDecided
  · exact (h.spent other otherIdx otherTx hOther shard hShard hPrepared uhsId hOtherListed).2
      ((h.owned shard hShard).held _ _ _ hHolds)

omit hBatch in
/-- A decision is new to its dtx. -/
theorem Sound.decidedOnce_decide (h : Sound seeds system) (hUndecided : system.Undecided dtxId)
    {other : Hash} {first second : List Bool}
    (hFirst : (other, first) ∈ system.decisions ++ [(dtxId, decision)])
    (hSecond : (other, second) ∈ system.decisions ++ [(dtxId, decision)]) : first = second := by
  rcases List.mem_append.mp hFirst with hFirst | hFirst
  · rcases List.mem_append.mp hSecond with hSecond | hSecond
    · exact h.decidedOnce other first second hFirst hSecond
    · cases List.mem_singleton.mp hSecond
      exact (hUndecided first hFirst).elim
  · cases List.mem_singleton.mp hFirst
    rcases List.mem_append.mp hSecond with hSecond | hSecond
    · exact (hUndecided second hSecond).elim
    · cases List.mem_singleton.mp hSecond
      rfl

/-- Two entries that are completed after a decision share no input. -/
theorem Sound.single_decide (h : Sound seeds system) (hUndecided : system.Undecided dtxId)
    (hGranted : system.Granted dtxId batch decision) {firstId secondId : Hash}
    {first second : Nat} {firstTx secondTx : CompactTx}
    (hFirst : Completed { system with decisions := system.decisions ++ [(dtxId, decision)] }
      firstId first firstTx)
    (hSecond : Completed { system with decisions := system.decisions ++ [(dtxId, decision)] }
      secondId second secondTx)
    {shard : LockingShard} (hShard : shard ∈ system.shards) {uhsId : Hash}
    (hFirstListed : uhsId ∈ shard.relevantInputs firstTx)
    (hSecondListed : uhsId ∈ shard.relevantInputs secondTx) :
    firstId = secondId ∧ first = second := by
  rcases completed_of_decide hBatch hFirst with hFirstOld | ⟨rfl, hFirstTx, hFirstFlag⟩
  · rcases completed_of_decide hBatch hSecond with hSecondOld | ⟨rfl, hSecondTx, hSecondFlag⟩
    · exact h.single _ _ _ _ _ _ hFirstOld hSecondOld shard hShard uhsId hFirstListed
        hSecondListed
    · exact (h.apart_of_granted hBatch hGranted hUndecided hFirstOld hSecondTx hSecondFlag hShard
        hFirstListed hSecondListed).elim
  · rcases completed_of_decide hBatch hSecond with hSecondOld | ⟨rfl, hSecondTx, hSecondFlag⟩
    · exact (h.apart_of_granted hBatch hGranted hUndecided hSecondOld hFirstTx hFirstFlag hShard
        hSecondListed hFirstListed).elim
    · have hFirstHolds := h.holds_of_granted hBatch hGranted hFirstTx hFirstFlag hShard hFirstListed
      have hSecondHolds :=
        h.holds_of_granted hBatch hGranted hSecondTx hSecondFlag hShard hSecondListed
      refine ⟨rfl, position_injective hFirstTx (active_of_mem_relevantInputs hFirstListed)
        hSecondTx (active_of_mem_relevantInputs hSecondListed) ?_⟩
      exact ((h.owned shard hShard).unique uhsId _ _ _ _ hFirstHolds.2 hSecondHolds.2).2

/-- A decision that all shards have granted completes only entries whose inputs are locked
for it, so no other completed entry has them. -/
theorem Sound.decide (h : Sound seeds system) (hUndecided : system.Undecided dtxId)
    (hGranted : system.Granted dtxId batch decision) :
    Sound seeds { system with decisions := system.decisions ++ [(dtxId, decision)] } := by
  have hKnown : ∀ place shard uhsId, Known (seeds place) system shard uhsId →
      Known (seeds place) { system with decisions := system.decisions ++ [(dtxId, decision)] }
        shard uhsId :=
    fun _ _ _ hOld => hOld.mono (fun _ _ _ hTx => completed_decide_iff.mpr (Or.inl hTx))
      (fun _ => rfl) (fun _ _ _ _ hPrepared => hPrepared)
  constructor
  case batched =>
      intro other decided hIn
      rcases List.mem_append.mp hIn with hOld | hNew
      · exact h.batched other decided hOld
      · cases List.mem_singleton.mp hNew
        exact Finmap.mem_iff.mpr ⟨batch, hBatch⟩
  case decidedOnce =>
      intro other first second hFirst hSecond
      exact h.decidedOnce_decide hUndecided hFirst hSecond
  case stored => exact h.stored
  case owned => exact h.owned
  case granted =>
      intro other found decided hFound hIn idx tx hTx hFlag shard hShard hActive dtx hDtx
      rcases List.mem_append.mp hIn with hOld | hNew
      · exact h.granted other found decided hFound hOld idx tx hTx hFlag shard hShard hActive dtx
          hDtx
      · cases List.mem_singleton.mp hNew
        obtain rfl : found = batch := Option.some.inj (hFound.symm.trans hBatch)
        obtain ⟨held, hHeld, hResult⟩ := hGranted idx tx hTx hFlag shard hShard hActive
        obtain rfl : held = dtx := Option.some.inj (hHeld.symm.trans hDtx)
        exact hResult
  case spent =>
      intro other idx tx hTx shard hShard hApplied uhsId hListed
      rcases completed_of_decide hBatch hTx with hOld | ⟨rfl, hTx, hFlag⟩
      · exact h.spent other idx tx hOld shard hShard hApplied uhsId hListed
      · exact (hApplied
          (h.holds_of_granted hBatch hGranted hTx hFlag hShard hListed).1).elim
  case single =>
      intro firstId first firstTx secondId second secondTx hFirst hSecond shard hShard uhsId
        hFirstListed hSecondListed
      exact h.single_decide hBatch hUndecided hGranted hFirst hSecond hShard hFirstListed
        hSecondListed
  case known =>
      intro place shard hShard uhsId hIn
      exact hKnown place shard uhsId (h.known place shard hShard uhsId hIn)
  case knownInputs =>
      intro other idx tx hTx place shard hShard uhsId hListed
      apply hKnown
      rcases completed_of_decide hBatch hTx with hOld | ⟨rfl, hTx, hFlag⟩
      · exact h.knownInputs other idx tx hOld place shard hShard uhsId hListed
      · have hIn := List.mem_of_getElem? hShard
        have hHolds := (h.holds_of_granted hBatch hGranted hTx hFlag hIn hListed).2
        exact h.known place shard hShard uhsId
          (Finset.mem_union_right _ ((h.owned shard hIn).held _ _ _ hHolds))

end Decide

section Process

variable {seeds : Nat → Finset Hash} {system : TwoPhase} {crypto : Crypto}
variable {shard after : LockingShard} {request : LockingShard.Request}
variable {reply : LockingShard.Reply} {completeTxs : List Bool}

/-- A true flag in an apply request belongs to a completed entry of the batch. -/
theorem completed_of_flag (hAllowed : system.Allowed shard request)
    (hParams : request.params = .apply completeTxs) {place : Nat}
    (hFlag : completeTxs[place]? = some true) :
    ∃ batch decision idx tx, system.batches.lookup request.dtxId = some batch ∧
      (request.dtxId, decision) ∈ system.decisions ∧ batch[idx]? = some tx ∧
      decision[idx]? = some true ∧ active shard.outputRange tx = true ∧
      place = position shard.outputRange batch idx := by
  rw [Allowed, hParams] at hAllowed
  obtain ⟨batch, decision, hBatch, hDecided, rfl⟩ := hAllowed
  rw [shardFlags, List.getElem?_map, Option.map_eq_some_iff] at hFlag
  obtain ⟨idx, hIdx, hTrue⟩ := hFlag
  obtain ⟨tx, hTx, hActive, hPlace⟩ := position_unique hIdx
  refine ⟨batch, decision, idx, tx, hBatch, hDecided, hTx, ?_, hActive, hPlace⟩
  cases hValue : decision[idx]? with
  | none => simp [List.getD, hValue] at hTrue
  | some flag => simpa [List.getD, hValue] using hTrue

/-- The flag that an apply request has for a completed entry. -/
theorem Sound.flag_of_completed (h : Sound seeds system) (hAllowed : system.Allowed shard request)
    (hParams : request.params = .apply completeTxs) {idx : Nat} {tx : CompactTx}
    (hCompleted : system.Completed request.dtxId idx tx)
    (hActive : active shard.outputRange tx = true) {batch : List CompactTx}
    (hBatch : system.batches.lookup request.dtxId = some batch) :
    completeTxs[position shard.outputRange batch idx]? = some true := by
  rw [Allowed, hParams] at hAllowed
  obtain ⟨found, decision, hFound, hDecided, rfl⟩ := hAllowed
  obtain rfl : found = batch := Option.some.inj (hFound.symm.trans hBatch)
  obtain ⟨other, decided, hOther, hIn, hTx, hFlag⟩ := hCompleted
  obtain rfl : other = found := Option.some.inj (hOther.symm.trans hFound)
  obtain rfl := h.decidedOnce request.dtxId decided decision hIn hDecided
  rw [shardFlags, List.getElem?_map, (getElem?_position hTx hActive).1]
  simp [List.getD, hFlag]

variable (h : Sound seeds system) (hShard : shard ∈ system.shards)
variable (hAllowed : system.Allowed shard request)

include h hShard hAllowed

theorem Sound.completesGranted : shard.CompletesGranted request := by
  intro completeTxs dtx hParams hDtx place hFlag
  obtain ⟨batch, decision, idx, tx, hBatch, hDecided, hTx, hTrue, hActive, rfl⟩ :=
    completed_of_flag hAllowed hParams hFlag
  exact h.granted request.dtxId batch decision hBatch hDecided idx tx hTx hTrue shard hShard
    hActive dtx hDtx

/-- What a request creates are outputs of a completed entry whose dtx it applies. -/
theorem Sound.created {uhsId : Hash} (hCreates : shard.CreatesOutput uhsId request) :
    (∃ idx tx, system.Completed request.dtxId idx tx ∧ uhsId ∈ shard.relevantOutputs tx) ∧
      request.dtxId ∈ shard.preparedDtxs ∧ ∃ completeTxs, request.params = .apply completeTxs := by
  obtain ⟨entry, hEntry, hFlag, hOutput⟩ := hCreates
  unfold LockingShard.settled at hEntry
  split at hEntry
  case h_2 => cases hEntry
  case h_1 completeTxs dtx hParams hDtx =>
      obtain ⟨place, hPlace⟩ := List.mem_iff_getElem?.mp hEntry
      obtain ⟨hTx, hTrue⟩ := List.getElem?_zip_eq_some.mp hPlace
      rw [hFlag] at hTrue
      obtain ⟨batch, decision, idx, tx, hBatch, hDecided, hBatchTx, hBatchFlag, hActive, rfl⟩ :=
        completed_of_flag hAllowed hParams hTrue
      obtain ⟨other, hOther, hTxs⟩ := h.stored shard hShard request.dtxId dtx hDtx
      obtain rfl : other = batch := Option.some.inj (hOther.symm.trans hBatch)
      rw [hTxs, (getElem?_position hBatchTx hActive).2] at hTx
      obtain rfl := Option.some.inj hTx
      exact ⟨⟨idx, _, ⟨other, decision, hBatch, hDecided, hBatchTx, hBatchFlag⟩, hOutput⟩,
        Finmap.mem_iff.mpr ⟨dtx, hDtx⟩, completeTxs, hParams⟩

/-- What a request creates has never been there before. -/
theorem Sound.unknown_of_created (hFresh : FreshOutputs seeds system.batches) {uhsId : Hash}
    (hCreates : shard.CreatesOutput uhsId request) (place : Nat) :
    ¬Known (seeds place) system shard uhsId := by
  obtain ⟨⟨idx, tx, ⟨batch, decision, hBatch, _, hTx, _⟩, hOutput⟩, hPrepared, _⟩ :=
    h.created hShard hAllowed hCreates
  rw [LockingShard.relevantOutputs, mem_inRange] at hOutput
  rintro (hSeed | ⟨other, otherIdx, otherTx, ⟨found, _, hFound, _, hOtherTx, _⟩, hOther, hApplied⟩)
  · exact hFresh.unseeded request.dtxId batch hBatch tx (List.mem_of_getElem? hTx) uhsId hOutput.1
      place hSeed
  · rw [LockingShard.relevantOutputs, mem_inRange] at hOther
    obtain ⟨rfl, _⟩ := hFresh.once other found request.dtxId batch otherIdx idx otherTx tx hFound
      hBatch hOtherTx hTx uhsId hOther.1 hOutput.1
    exact hApplied hPrepared

omit h hShard in
/-- A decided dtx is not locked again. -/
theorem prepared_of_decided (hEffect : LockingShard.Effect crypto shard request after reply)
    {dtxId : Hash} {decision : List Bool} (hDecided : (dtxId, decision) ∈ system.decisions)
    {dtx : PreparedDtx} (hDtx : after.preparedDtxs.lookup dtxId = some dtx) :
    shard.preparedDtxs.lookup dtxId = some dtx := by
  rcases hEffect.prepared_of hDtx with hOld | rfl
  · exact hOld
  · exact (hAllowed.1 decision hDecided).elim

variable (hFresh : FreshOutputs seeds system.batches)

include hFresh

theorem Sound.fresh_unlocked {place : Nat} (hReached : system.shards[place]? = some shard)
    {uhsId : Hash} (hCreates : shard.CreatesOutput uhsId request) : uhsId ∉ shard.locked :=
  fun hLocked => h.unknown_of_created hShard hAllowed hFresh hCreates place
    (h.known place shard hReached uhsId (Finset.mem_union_right _ hLocked))

variable (hOwn : shard.ReleasesOwn request)
variable (hEffect : LockingShard.Effect crypto shard request after reply)

include hOwn hEffect

/-- After a request the inputs of a completed entry are gone if its dtx is. -/
theorem Sound.spent_process {place : Nat} (hReached : system.shards[place]? = some shard)
    {dtxId : Hash} {idx : Nat} {tx : CompactTx} (hCompleted : system.Completed dtxId idx tx)
    (hApplied : dtxId ∉ after.preparedDtxs) {uhsId : Hash}
    (hListed : uhsId ∈ shard.relevantInputs tx) :
    uhsId ∉ after.uhs ∧ uhsId ∉ after.locked := by
  by_cases hPrepared : dtxId ∈ shard.preparedDtxs
  · obtain ⟨dtx, hDtx⟩ := Finmap.mem_iff.mp hPrepared
    obtain ⟨completeTxs, rfl, rfl⟩ := (hEffect.kept_or_applied hDtx).resolve_left
      fun hKept => hApplied (Finmap.mem_iff.mpr ⟨dtx, hKept⟩)
    have hActive := active_of_mem_relevantInputs hListed
    obtain ⟨batch, hBatch, hTxs⟩ := h.stored shard hShard dtxId dtx hDtx
    have hFlag := h.flag_of_completed hAllowed rfl hCompleted hActive hBatch
    obtain ⟨other, _, hOther, _, hTx, _⟩ := hCompleted
    obtain rfl : other = batch := Option.some.inj (hOther.symm.trans hBatch)
    have hPlace : dtx.txs[position shard.outputRange other idx]? = some tx := by
      rw [hTxs]
      exact (getElem?_position hTx hActive).2
    exact (h.owned shard hShard).spent_afterApply hDtx (h.completesGranted hShard hAllowed) hOwn
      (fun _ hCreates => h.fresh_unlocked hShard hAllowed hFresh hReached hCreates)
      hPlace hFlag hListed
  · obtain ⟨hUhs, hLocked⟩ := h.spent dtxId idx tx hCompleted shard hShard hPrepared uhsId hListed
    have hGone : uhsId ∉ after.uhs ∪ after.locked := by
      intro hIn
      rcases hEffect.mem_of_mem_next hIn with hOld | hCreates
      · rcases Finset.mem_union.mp hOld with hOld | hOld
        · exact hUhs hOld
        · exact hLocked hOld
      · exact h.unknown_of_created hShard hAllowed hFresh hCreates place
          (h.knownInputs dtxId idx tx hCompleted place shard hReached uhsId hListed)
    rw [Finset.mem_union, not_or] at hGone
    exact hGone

omit hShard in
theorem Sound.process {place : Nat} (hReached : system.shards[place]? = some shard) :
    Sound seeds { system with shards := system.shards.set place after } := by
  have hShard := List.mem_of_getElem? hReached
  have hInputs := hEffect.relevantInputs
  have hOutputs := hEffect.relevantOutputs
  have hKnown : ∀ uhsId, Known (seeds place) system shard uhsId →
      Known (seeds place) { system with shards := system.shards.set place after } after uhsId := by
    intro uhsId hOld
    refine hOld.mono (fun _ _ _ hTx => hTx) hOutputs ?_
    rintro dtxId idx tx ⟨_, _, _, hDecided, _⟩ hPrepared
    obtain ⟨dtx, hDtx⟩ := Finmap.mem_iff.mp hPrepared
    exact Finmap.mem_iff.mpr ⟨dtx, prepared_of_decided hAllowed hEffect hDecided hDtx⟩
  constructor
  · exact h.batched
  · exact h.decidedOnce
  · refine Slots.forall_mem_set h.stored fun dtxId dtx hDtx => ?_
    rw [hEffect.outputRange]
    rcases hEffect.prepared_of hDtx with hOld | rfl
    · exact h.stored shard hShard dtxId dtx hOld
    · exact hAllowed.2
  · exact Slots.forall_mem_set h.owned (hEffect.owned (h.owned shard hShard)
      (h.completesGranted hShard hAllowed) hOwn fun _ hCreates =>
        h.fresh_unlocked hShard hAllowed hFresh hReached hCreates)
  · intro dtxId batch decision hBatch hDecided idx tx hTx hFlag
    refine Slots.forall_mem_set
      (h.granted dtxId batch decision hBatch hDecided idx tx hTx hFlag) fun hActive dtx hDtx => ?_
    rw [hEffect.outputRange] at hActive ⊢
    exact h.granted dtxId batch decision hBatch hDecided idx tx hTx hFlag shard hShard hActive dtx
      (prepared_of_decided hAllowed hEffect hDecided hDtx)
  · intro dtxId idx tx hTx
    refine Slots.forall_mem_set (h.spent dtxId idx tx hTx) fun hApplied uhsId hListed => ?_
    rw [hInputs] at hListed
    exact h.spent_process hShard hAllowed hFresh hOwn hEffect hReached hTx hApplied hListed
  · intro firstId first firstTx secondId second secondTx hFirst hSecond
    refine Slots.forall_mem_set
      (h.single firstId first firstTx secondId second secondTx hFirst hSecond) ?_
    intro uhsId hFirstListed hSecondListed
    rw [hInputs] at hFirstListed hSecondListed
    exact h.single firstId first firstTx secondId second secondTx hFirst hSecond shard hShard uhsId
      hFirstListed hSecondListed
  · intro other found hFound uhsId hIn
    rcases Slots.of_set hFound with ⟨rfl, rfl⟩ | ⟨_, hOld⟩
    · rcases hEffect.mem_of_mem_next hIn with hBefore | hCreates
      · exact hKnown uhsId (h.known other shard hReached uhsId hBefore)
      · obtain ⟨⟨idx, tx, hTx, hOutput⟩, _, completeTxs, hParams⟩ :=
          h.created hShard hAllowed hCreates
        refine Or.inr ⟨request.dtxId, idx, tx, hTx, ?_, ?_⟩
        · rw [hOutputs]
          exact hOutput
        · have hAbsorbs := hEffect.absorbs
          rw [LockingShard.Absorbs, hParams] at hAbsorbs
          exact Finmap.lookup_eq_none.mp hAbsorbs.1
    · exact h.known other found hOld uhsId hIn
  · intro dtxId idx tx hTx other found hFound uhsId hListed
    rcases Slots.of_set hFound with ⟨rfl, rfl⟩ | ⟨_, hOld⟩
    · rw [hInputs] at hListed
      exact hKnown uhsId (h.knownInputs dtxId idx tx hTx other shard hReached uhsId hListed)
    · exact h.knownInputs dtxId idx tx hTx other found hOld uhsId hListed

end Process

/-- One move keeps the system sound. -/
theorem Sound.move {crypto : Crypto} {seeds : Nat → Finset Hash} {system next : TwoPhase}
    (h : Sound seeds system) (hFresh : FreshOutputs seeds system.batches)
    (hMove : Move crypto system next) : Sound seeds next := by
  cases hMove with
  | submit batch unused => exact h.submit batch unused
  | decide known undecided granted => exact h.decide known undecided granted
  | process reached allowed own processed => exact h.process allowed hFresh own processed reached

section Spending

variable {seeds : Nat → Finset Hash} {system : TwoPhase}

/-- Wherever the ID belongs, two completed entries that spend it are one. -/
theorem Sound.spent_once (h : Sound seeds system) {uhsId : Hash} {shard : LockingShard}
    (hShard : shard ∈ system.shards) (hRange : hashInShardRange shard.outputRange uhsId = true)
    {firstId secondId : Hash} {first second : Nat} {firstTx secondTx : CompactTx}
    (hFirst : system.Completed firstId first firstTx) (hFirstIn : uhsId ∈ firstTx.inputs)
    (hSecond : system.Completed secondId second secondTx) (hSecondIn : uhsId ∈ secondTx.inputs) :
    firstId = secondId ∧ first = second :=
  h.single firstId first firstTx secondId second secondTx hFirst hSecond shard hShard uhsId
    (mem_inRange.mpr ⟨hFirstIn, hRange⟩) (mem_inRange.mpr ⟨hSecondIn, hRange⟩)

/-- A shard knows IDs of its own range only. -/
theorem Sound.in_range (h : Sound seeds system) {place : Nat} {shard : LockingShard}
    (hShard : system.shards[place]? = some shard)
    (hSeed : ∀ uhsId ∈ seeds place, hashInShardRange shard.outputRange uhsId = true)
    {uhsId : Hash} (hIn : uhsId ∈ shard.uhs ∪ shard.locked) :
    hashInShardRange shard.outputRange uhsId = true := by
  rcases h.known place shard hShard uhsId hIn with hFirst | ⟨_, _, tx, _, hOutput, _⟩
  · exact hSeed uhsId hFirst
  · exact (mem_inRange.mp hOutput).2

/-- Once all shards have applied a completed entry, its inputs are nowhere. -/
theorem Sound.gone (h : Sound seeds system)
    (hSeeds : ∀ (place : Nat) (shard : LockingShard), system.shards[place]? = some shard →
      ∀ uhsId ∈ seeds place, hashInShardRange shard.outputRange uhsId = true)
    {dtxId : Hash} {idx : Nat} {tx : CompactTx} (hTx : system.Completed dtxId idx tx)
    (hApplied : ∀ shard ∈ system.shards, active shard.outputRange tx = true →
      dtxId ∉ shard.preparedDtxs)
    {uhsId : Hash} (hIn : uhsId ∈ tx.inputs) :
    ∀ shard ∈ system.shards, uhsId ∉ shard.uhs ∧ uhsId ∉ shard.locked := by
  intro shard hShard
  obtain ⟨place, hPlace⟩ := List.mem_iff_getElem?.mp hShard
  by_cases hRange : hashInShardRange shard.outputRange uhsId = true
  · have hListed : uhsId ∈ shard.relevantInputs tx := mem_inRange.mpr ⟨hIn, hRange⟩
    exact h.spent dtxId idx tx hTx shard hShard
      (hApplied shard hShard (active_of_mem_relevantInputs hListed)) uhsId hListed
  · rw [← not_or, ← Finset.mem_union]
    exact fun hKnown => hRange (h.in_range hPlace (hSeeds place shard hPlace) hKnown)

end Spending

end TwoPhase
end OpenCbdc
