import OpenCbdc.Coordinator.DistributedTx

/-! Atomic commitment. The per-shard lists and index lists that `add_tx` builds
are given in closed form. From there the decision of a whole execution and
the requests each shard receives can be read off the batch alone. -/
namespace OpenCbdc.DistributedTx

/-- The range contains the transaction ID, an input or an output. -/
def Participates (range : ShardRange) (tx : CompactTx) : Prop :=
  hashInShardRange range tx.id = true ∨ (∃ uhsId ∈ tx.inputs, hashInShardRange range uhsId = true) ∨
    ∃ uhsId ∈ tx.uhsOutputs, hashInShardRange range uhsId = true

theorem active_iff (range : ShardRange) (tx : CompactTx) :
    active range tx = true ↔ Participates range tx := by
  simp [active, Participates, or_assoc]

instance (range : ShardRange) (tx : CompactTx) : Decidable (Participates range tx) :=
  decidable_of_iff _ (active_iff range tx)

section Batch

def relevantTxs (range : ShardRange) (batch : List CompactTx) : List CompactTx :=
  batch.filter (active range)

def relevantIdxs (range : ShardRange) (batch : List CompactTx) : List Nat :=
  (batch.zipIdx.filter fun entry => active range entry.1).map Prod.snd

/-- The place of a transaction in the list of a shard that takes part in it. -/
def position (range : ShardRange) (batch : List CompactTx) (idx : Nat) : Nat :=
  (relevantTxs range (batch.take idx)).length

theorem relevantTxs_concat (range : ShardRange) (batch : List CompactTx) (tx : CompactTx) :
    relevantTxs range (batch ++ [tx]) =
      if active range tx then relevantTxs range batch ++ [tx] else relevantTxs range batch := by
  by_cases hActive : active range tx = true <;> simp [relevantTxs, hActive]

theorem relevantIdxs_concat (range : ShardRange) (batch : List CompactTx) (tx : CompactTx) :
    relevantIdxs range (batch ++ [tx]) =
      if active range tx then relevantIdxs range batch ++ [batch.length]
      else relevantIdxs range batch := by
  by_cases hActive : active range tx = true <;>
    simp [relevantIdxs, List.zipIdx_append, hActive]

theorem relevantIdxs_length (range : ShardRange) (batch : List CompactTx) :
    (relevantIdxs range batch).length = (relevantTxs range batch).length := by
  induction batch using List.reverseRecOn with
  | nil => rfl
  | append_singleton batch tx ih =>
      rw [relevantIdxs_concat, relevantTxs_concat]
      split
      case isTrue => simp [ih]
      case isFalse => exact ih

theorem addTxs_concat (dtx : DistributedTx) (batch : List CompactTx) (tx : CompactTx) :
    dtx.addTxs (batch ++ [tx]) =
      (((dtx.addTxs batch).1.addTx tx).1,
        (dtx.addTxs batch).2 ++ [((dtx.addTxs batch).1.addTx tx).2]) := by
  simp [addTxs]

/-- Adding a batch to a new dtx gives every shard its own part of it. -/
theorem addTxs_new (dtxId : Hash) (shardRanges : List ShardRange) (batch : List CompactTx) :
    (new dtxId shardRanges).addTxs batch =
      ({ new dtxId shardRanges with
          txs := shardRanges.map fun range => relevantTxs range batch
          txIdxs := shardRanges.map fun range => relevantIdxs range batch
          fullTxs := batch }, List.range batch.length) := by
  induction batch using List.reverseRecOn with
  | nil => rfl
  | append_singleton batch tx ih =>
      rw [addTxs_concat, ih]
      simp only [addTx, new, List.zipWith_map_right, List.zipWith_self, relevantTxs_concat,
        relevantIdxs_concat, List.length_append, List.length_singleton, List.range_succ]

theorem relevantIdxs_nodup (range : ShardRange) (batch : List CompactTx) :
    (relevantIdxs range batch).Nodup := by
  have hSublist : (relevantIdxs range batch).Sublist (batch.zipIdx.map Prod.snd) :=
    List.filter_sublist.map Prod.snd
  have hNodup : (batch.zipIdx.map Prod.snd).Nodup := by
    rw [List.zipIdx_map_snd]
    exact List.nodup_range'
  exact hNodup.sublist hSublist

theorem mem_relevantIdxs {range : ShardRange} {batch : List CompactTx} {idx : Nat} :
    idx ∈ relevantIdxs range batch ↔ ∃ tx, batch[idx]? = some tx ∧ active range tx = true := by
  simp only [relevantIdxs, List.mem_map, List.mem_filter, Prod.exists,
    List.mem_zipIdx_iff_getElem?]
  constructor
  · rintro ⟨tx, _, ⟨hTx, hActive⟩, rfl⟩
    exact ⟨tx, hTx, hActive⟩
  · rintro ⟨tx, hTx, hActive⟩
    exact ⟨tx, idx, ⟨hTx, hActive⟩, rfl⟩

theorem relevant_append_cons (range : ShardRange) (before after : List CompactTx)
    {tx : CompactTx} (hActive : active range tx = true) :
    (∃ later, relevantIdxs range (before ++ tx :: after) =
      relevantIdxs range before ++ before.length :: later) ∧
    ∃ later, relevantTxs range (before ++ tx :: after) =
      relevantTxs range before ++ tx :: later := by
  constructor
  · exact ⟨_, by simp [relevantIdxs, List.zipIdx_append, List.zipIdx_cons, hActive]; rfl⟩
  · exact ⟨_, by simp [relevantTxs, hActive]; rfl⟩

/-- Both lists of a shard hold a relevant transaction at its position. -/
theorem getElem?_position {range : ShardRange} {batch : List CompactTx} {idx : Nat}
    {tx : CompactTx} (hTx : batch[idx]? = some tx) (hActive : active range tx = true) :
    (relevantIdxs range batch)[position range batch idx]? = some idx ∧
      (relevantTxs range batch)[position range batch idx]? = some tx := by
  obtain ⟨hLt, rfl⟩ := List.getElem?_eq_some_iff.mp hTx
  have hSplit : batch.take idx ++ batch[idx] :: batch.drop (idx + 1) = batch := by simp
  have hTake : (batch.take idx).length = idx := by
    rw [List.length_take]
    omega
  obtain ⟨⟨laterIdxs, hIdxs⟩, laterTxs, hTxs⟩ :=
    relevant_append_cons range (batch.take idx) (batch.drop (idx + 1)) hActive
  rw [hSplit] at hIdxs hTxs
  constructor
  · simp [hIdxs, position, ← relevantIdxs_length, hTake]
  · simp [hTxs, position]

theorem position_unique {range : ShardRange} {batch : List CompactTx} {idx place : Nat}
    (h : (relevantIdxs range batch)[place]? = some idx) :
    ∃ tx, batch[idx]? = some tx ∧ active range tx = true ∧ place = position range batch idx := by
  obtain ⟨tx, hTx, hActive⟩ := mem_relevantIdxs.mp (List.mem_of_getElem? h)
  refine ⟨tx, hTx, hActive, ?_⟩
  obtain ⟨hPlace, hIdx⟩ := List.getElem?_eq_some_iff.mp h
  obtain ⟨hPosition, hSame⟩ := List.getElem?_eq_some_iff.mp (getElem?_position hTx hActive).1
  exact (relevantIdxs_nodup range batch).getElem_inj_iff.mp (hIdx.trans hSame.symm)

end Batch

section Decision

theorem tally_length (ret : List Bool) (idxs : List Nat) (statuses : List Bool) :
    (tally ret idxs statuses).length = ret.length := by
  unfold tally
  induction idxs.zip statuses generalizing ret with
  | nil => rfl
  | cons entry rest ih =>
      rw [List.foldl_cons, ih]
      split
      case isTrue => rfl
      case isFalse => exact List.length_set ..

/-- One answer clears exactly the decisions whose status is false. -/
theorem getElem?_tally (ret : List Bool) (idxs : List Nat) (statuses : List Bool) (idx : Nat) :
    (tally ret idxs statuses)[idx]? = some true ↔
      ret[idx]? = some true ∧ ∀ entry ∈ idxs.zip statuses, entry.1 = idx → entry.2 = true := by
  unfold tally
  induction idxs.zip statuses generalizing ret with
  | nil => simp
  | cons entry rest ih =>
      obtain ⟨first, status⟩ := entry
      rw [List.foldl_cons, ih, List.forall_mem_cons]
      cases status with
      | true => simp
      | false =>
          by_cases hIdx : first = idx
          · subst hIdx
            simp [List.getElem?_set]
          · simp [List.getElem?_set_ne hIdx, hIdx]

/-- The gathered decision is true where no answer is false. -/
theorem gather_eq_some {dtxId : Hash} {ret decision : List Bool}
    {answers : List (List Nat × Option (List Bool))}
    (h : gather dtxId ret answers = .ok (some decision)) :
    decision.length = ret.length ∧ (∀ answer ∈ answers, ∃ statuses, answer.2 = some statuses ∧
        statuses.length = answer.1.length) ∧
      ∀ idx, decision[idx]? = some true ↔ ret[idx]? = some true ∧
        ∀ answer ∈ answers, ∀ statuses, answer.2 = some statuses →
          ∀ entry ∈ answer.1.zip statuses, entry.1 = idx → entry.2 = true := by
  induction answers generalizing ret with
  | nil =>
      cases h
      simp
  | cons answer rest ih =>
      obtain ⟨idxs, result⟩ := answer
      cases result with
      | none => cases h
      | some statuses =>
          rw [gather] at h
          split at h
          case isFalse hLength => cases h
          case isTrue hLength =>
              obtain ⟨hCount, hAnswers, hDecision⟩ := ih h
              refine ⟨hCount.trans (tally_length ..), ?_, fun idx => ?_⟩
              · rw [List.forall_mem_cons]
                exact ⟨⟨statuses, rfl, hLength⟩, hAnswers⟩
              · rw [hDecision, getElem?_tally, List.forall_mem_cons, and_assoc]
                simp

end Decision

section Execution

variable {env : Env} {dtx : DistributedTx}

/-- If the prepare phase succeeds, the answers of all shards have been combined to the
decision that the dtx goes on with. -/
theorem executePrepare_eq_ok {out : Outcome Bool}
    (hState : dtx.state = .prepare ∨ dtx.state = .start)
    (h : dtx.executePrepare env = .ok out) (hResult : out.result = true) :
    ∃ decision, dtx.combine (fun shard =>
        env.lockOutputs shard (dtx.txs.getD shard []) dtx.dtxId) = .ok (some decision) ∧
      out.dtx = { dtx with state := .commit, completeTxs := decision } ∧
      out.sent = dtx.participants.map dtx.lockRpc := by
  rw [executePrepare, if_pos hState, prepare] at h
  split at h
  case h_1 fatal hPrepare => cases h
  case h_2 after sent hPrepare =>
      cases h
      cases hResult
  case h_3 after sent ret hPrepare =>
      split at h
      case isFalse hCount => cases h
      case isTrue hCount =>
          cases h
          split at hPrepare
          case isFalse hCallback => cases hPrepare
          case isTrue hCallback =>
              split at hPrepare
              case h_1 fatal hCombine => cases hPrepare
              case h_2 hCombine => cases hPrepare
              case h_3 decision hCombine =>
                  cases hPrepare
                  exact ⟨ret, hCombine, rfl, rfl⟩

theorem executeCommit_eq_true (hState : dtx.state = .commit)
    (hResult : (dtx.executeCommit env).result = true) :
    (dtx.executeCommit env).dtx = { dtx with state := .discard } ∧
      (dtx.executeCommit env).sent = dtx.participants.map (dtx.applyRpc dtx.completeTxs) := by
  rw [executeCommit, if_pos hState, commit] at hResult ⊢
  split at hResult
  case isFalse hCallback => cases hResult
  case isTrue hCallback =>
      split at hResult
      case isFalse hAnswers => cases hResult
      case isTrue hAnswers => simp [hCallback, hAnswers]

theorem executeDiscard_eq_true (hState : dtx.state = .discard)
    (hResult : (dtx.executeDiscard env).result = true) :
    (dtx.executeDiscard env).dtx = { dtx with state := .done } ∧
      (dtx.executeDiscard env).sent = dtx.participants.map dtx.discardRpc := by
  rw [executeDiscard, if_pos hState, discard] at hResult ⊢
  split at hResult
  case isFalse hCallback => cases hResult
  case isTrue hCallback =>
      split at hResult
      case isFalse hAnswers => cases hResult
      case isTrue hAnswers => simp [hCallback, hAnswers]

/-- An execution that runs to completion has gathered its decision from the
answers to its lock requests, and has sent the requests of all three phases. -/
theorem execute_eq_some {out : Outcome (Option (List Bool))} {decision : List Bool}
    (hState : dtx.state = .prepare ∨ dtx.state = .start)
    (h : dtx.execute env = .ok out) (hResult : out.result = some decision) :
    dtx.combine (fun shard =>
        env.lockOutputs shard (dtx.txs.getD shard []) dtx.dtxId) = .ok (some decision) ∧
      out.sent = dtx.participants.map dtx.lockRpc ++
        dtx.participants.map (dtx.applyRpc decision) ++ dtx.participants.map dtx.discardRpc := by
  rw [execute] at h
  split at h
  case h_1 fatal hPrepare => cases h
  case h_2 prepared locks hPrepare =>
      cases h
      cases hResult
  case h_3 prepared locks hPrepare =>
      obtain ⟨ret, hCombine, hPrepared, hLocks⟩ := executePrepare_eq_ok hState hPrepare rfl
      dsimp only at hPrepared hLocks
      subst hPrepared hLocks
      split at h
      case h_1 committed applies hCommit =>
          cases h
          cases hResult
      case h_2 committed applies hCommit =>
          obtain ⟨hCommitted, hApplies⟩ := executeCommit_eq_true rfl (by rw [hCommit])
          rw [hCommit] at hCommitted hApplies
          dsimp only at hCommitted hApplies
          subst hCommitted hApplies
          split at h
          case h_1 discarded discards hDiscard =>
              cases h
              cases hResult
          case h_2 discarded discards hDiscard =>
              obtain ⟨hDiscarded, hDiscards⟩ := executeDiscard_eq_true rfl (by rw [hDiscard])
              rw [hDiscard] at hDiscarded hDiscards
              dsimp only at hDiscarded hDiscards
              subst hDiscarded hDiscards
              cases h
              cases hResult
              exact ⟨hCombine, rfl⟩

end Execution

section Atomicity

/-- The dtx after `add_tx` was called for every transaction of the batch. -/
def built (dtxId : Hash) (shardRanges : List ShardRange) (batch : List CompactTx) :
    DistributedTx := ((new dtxId shardRanges).addTxs batch).1

def sentTo (sent : List Rpc) (shard : Nat) : List LockingShard.Request :=
  (sent.filter fun rpc => rpc.shard == shard).map Rpc.request

/-- The answer of a shard to its lock list is true for the transaction that
was added to the batch at this place. -/
def ReportedTrue (env : Env) (dtxId : Hash) (shard : Nat) (range : ShardRange)
    (batch : List CompactTx) (place : Nat) : Prop :=
  ∃ statuses, env.lockOutputs shard (relevantTxs range batch) dtxId = some statuses ∧
    statuses[position range batch place]? = some true

def shardEntries (range : ShardRange) (batch : List CompactTx) (decision : List Bool) :
    List (CompactTx × Bool) :=
  (batch.zip decision).filter fun entry => active range entry.1

variable {dtxId : Hash} {shardRanges : List ShardRange} {batch : List CompactTx}
variable {shard : Nat} {range : ShardRange}

theorem built_eq : built dtxId shardRanges batch =
    { dtxId := dtxId
      shardRanges := shardRanges
      txs := shardRanges.map fun range => relevantTxs range batch
      fullTxs := batch
      txIdxs := shardRanges.map fun range => relevantIdxs range batch
      state := .start
      completeTxs := [] } := by
  rw [built, addTxs_new]
  rfl

theorem addTxs_state (dtx : DistributedTx) (state : DtxState) (batch : List CompactTx) :
    ({ dtx with state := state }.addTxs batch).1 =
      { (dtx.addTxs batch).1 with state := state } := by
  induction batch using List.reverseRecOn with
  | nil => rfl
  | append_singleton batch tx ih =>
      rw [addTxs_concat, addTxs_concat, ih]
      rfl

/-- Recovery in the first phase builds the batch again. -/
theorem recoverPrepare_new (dtxId : Hash) (shardRanges : List ShardRange)
    (batch : List CompactTx) :
    (new dtxId shardRanges).recoverPrepare batch =
      { built dtxId shardRanges batch with state := .prepare } :=
  addTxs_state _ _ _

theorem built_txs (h : shardRanges[shard]? = some range) :
    (built dtxId shardRanges batch).txs.getD shard [] = relevantTxs range batch := by
  simp [built_eq, h]

theorem built_txIdxs (h : shardRanges[shard]? = some range) :
    (built dtxId shardRanges batch).txIdxs.getD shard [] = relevantIdxs range batch := by
  simp [built_eq, h]

theorem relevantIdxs_eq_nil : relevantIdxs range batch = [] ↔ ∀ tx ∈ batch, ¬active range tx := by
  rw [← List.length_eq_zero_iff, relevantIdxs_length, List.length_eq_zero_iff, relevantTxs,
    List.filter_eq_nil_iff]

/-- A shard takes part in a batch exactly if some transaction of the batch is active on its
range. -/
theorem mem_participants_built :
    shard ∈ (built dtxId shardRanges batch).participants ↔
      ∃ range, shardRanges[shard]? = some range ∧ ∃ tx ∈ batch, active range tx = true := by
  rw [participants, List.mem_filter, List.mem_range]
  have hRanges : (built dtxId shardRanges batch).shardRanges = shardRanges := by rw [built_eq]
  rw [hRanges]
  constructor
  · rintro ⟨hLt, hSome⟩
    have hRange : shardRanges[shard]? = some shardRanges[shard] := List.getElem?_eq_getElem hLt
    rw [built_txIdxs hRange, Bool.not_eq_true', List.isEmpty_eq_false_iff, Ne,
      relevantIdxs_eq_nil] at hSome
    push Not at hSome
    exact ⟨shardRanges[shard], hRange, hSome⟩
  · rintro ⟨range, hRange, tx, hTx, hActive⟩
    refine ⟨(List.getElem?_eq_some_iff.mp hRange).1, ?_⟩
    rw [built_txIdxs hRange, Bool.not_eq_true', List.isEmpty_eq_false_iff, Ne,
      relevantIdxs_eq_nil]
    exact fun hNone => hNone tx hTx hActive

theorem zip_eq_map_zipIdx {decision : List Bool} (hLength : decision.length = batch.length) :
    batch.zip decision = batch.zipIdx.map fun entry => (entry.1, decision.getD entry.2 false) := by
  apply List.ext_getElem
  · simp [hLength]
  · intro idx hLeft hRight
    have hIdx : idx < decision.length := by
      rw [List.length_zip] at hLeft
      omega
    simp [List.getElem?_eq_getElem hIdx]

theorem shardEntries_fst {decision : List Bool} (hLength : decision.length = batch.length) :
    (shardEntries range batch decision).map Prod.fst = relevantTxs range batch := by
  have hBatch : (batch.zip decision).map Prod.fst = batch := List.map_fst_zip hLength.ge
  conv_rhs => rw [relevantTxs, ← hBatch, List.filter_map]
  rfl

theorem shardEntries_snd {decision : List Bool} (hLength : decision.length = batch.length) :
    (shardEntries range batch decision).map Prod.snd =
      (relevantIdxs range batch).map fun idx => decision.getD idx false := by
  rw [shardEntries, zip_eq_map_zipIdx hLength, List.filter_map, List.map_map, relevantIdxs,
    List.map_map]
  rfl

/-- A request list with one request for every participant reaches each of them
once. -/
theorem sentTo_map {participants : List Nat} {rpc : Nat → Rpc} (hShard : ∀ i, (rpc i).shard = i)
    (hNodup : participants.Nodup) (shard : Nat) :
    sentTo (participants.map rpc) shard =
      if shard ∈ participants then [(rpc shard).request] else [] := by
  have hFilter : (participants.map rpc).filter (fun rpc => rpc.shard == shard) =
      (participants.filter fun i => i == shard).map rpc := by
    rw [List.filter_map]
    congr 2
    funext i
    simp [hShard]
  rw [sentTo, hFilter]
  split
  case isTrue hIn => simp [List.filter_beq, List.count_eq_one_of_mem hNodup hIn]
  case isFalse hNot => simp [List.filter_beq, List.count_eq_zero_of_not_mem hNot]

/-- The decision of a completed execution at one place of the batch. -/
theorem combine_built_iff {answers : Nat → Option (List Bool)} {decision : List Bool}
    (h : (built dtxId shardRanges batch).combine answers = .ok (some decision))
    {place : Nat} {tx : CompactTx} (hTx : batch[place]? = some tx) :
    decision[place]? = some true ↔
      ∀ shard range, shardRanges[shard]? = some range → active range tx = true →
        ∃ statuses, answers shard = some statuses ∧
          statuses[position range batch place]? = some true := by
  obtain ⟨_, hAnswered, hDecision⟩ := gather_eq_some h
  have hStart : (List.replicate (built dtxId shardRanges batch).fullTxs.length true)[place]? =
      some true := by
    have hLt := (List.getElem?_eq_some_iff.mp hTx).1
    simp [built_eq, hLt]
  rw [hDecision, and_iff_right hStart]
  constructor
  · intro hTrue shard range hRange hActive
    have hIn : shard ∈ (built dtxId shardRanges batch).participants :=
      mem_participants_built.mpr ⟨range, hRange, tx, List.mem_of_getElem? hTx, hActive⟩
    have hAnswer := List.mem_map_of_mem (f := fun shard =>
      ((built dtxId shardRanges batch).txIdxs.getD shard [], answers shard)) hIn
    obtain ⟨statuses, hStatuses, hLength⟩ := hAnswered _ hAnswer
    refine ⟨statuses, hStatuses, ?_⟩
    rw [built_txIdxs hRange] at hAnswer hLength
    have hIdx := (getElem?_position hTx hActive).1
    have hPlace : position range batch place < statuses.length := by
      rw [hLength]
      exact (List.getElem?_eq_some_iff.mp hIdx).1
    have hEntry : (place, statuses[position range batch place]) ∈
        (relevantIdxs range batch).zip statuses := by
      apply List.mem_of_getElem? (i := position range batch place)
      rw [List.getElem?_zip_eq_some]
      exact ⟨hIdx, List.getElem?_eq_getElem hPlace⟩
    rw [List.getElem?_eq_getElem hPlace]
    exact congrArg some (hTrue _ hAnswer statuses hStatuses _ hEntry rfl)
  · intro hReported answer hAnswer statuses hStatuses entry hEntry hPlace
    obtain ⟨shard, hIn, rfl⟩ := List.mem_map.mp hAnswer
    obtain ⟨range, hRange, _⟩ := mem_participants_built.mp hIn
    dsimp only at hEntry hStatuses
    rw [built_txIdxs hRange] at hEntry
    obtain ⟨idx, hLt, hIdx⟩ := List.mem_iff_getElem.mp hEntry
    have hZip : ((relevantIdxs range batch).zip statuses)[idx]? = some (place, entry.2) := by
      rw [List.getElem?_eq_getElem hLt, hIdx, ← hPlace]
    obtain ⟨hLeft, hRight⟩ := List.getElem?_zip_eq_some.mp hZip
    obtain ⟨other, hOther, hActive, rfl⟩ := position_unique hLeft
    obtain rfl : other = tx := Option.some.inj (hOther.symm.trans hTx)
    obtain ⟨same, hSame, hTrue⟩ := hReported shard range hRange hActive
    obtain rfl : same = statuses := Option.some.inj (hSame.symm.trans hStatuses)
    exact Option.some.inj (hRight.symm.trans hTrue)

theorem participants_nodup (dtx : DistributedTx) : dtx.participants.Nodup :=
  List.nodup_range.filter _

theorem sentTo_append (first second : List Rpc) (shard : Nat) :
    sentTo (first ++ second) shard = sentTo first shard ++ sentTo second shard := by
  simp [sentTo]

/-- The requests of the three phases as one shard sees them. -/
theorem sentTo_built {decision : List Bool} (hLength : decision.length = batch.length)
    (hRange : shardRanges[shard]? = some range) :
    let dtx := built dtxId shardRanges batch
    sentTo (dtx.participants.map dtx.lockRpc ++ dtx.participants.map (dtx.applyRpc decision) ++
        dtx.participants.map dtx.discardRpc) shard =
      if ∃ tx ∈ batch, Participates range tx then
        [⟨dtxId, .lock ((shardEntries range batch decision).map Prod.fst)⟩,
          ⟨dtxId, .apply ((shardEntries range batch decision).map Prod.snd)⟩,
          ⟨dtxId, .discard⟩]
      else [] := by
  intro dtx
  have hIn : shard ∈ dtx.participants ↔ ∃ tx ∈ batch, Participates range tx := by
    rw [mem_participants_built]
    simp [hRange, active_iff]
  have hId : dtx.dtxId = dtxId := by rw [show dtx = built _ _ _ from rfl, built_eq]
  rw [sentTo_append, sentTo_append, sentTo_map (fun _ => rfl) dtx.participants_nodup,
    sentTo_map (fun _ => rfl) dtx.participants_nodup,
    sentTo_map (fun _ => rfl) dtx.participants_nodup]
  by_cases hTakesPart : ∃ tx ∈ batch, Participates range tx
  · simp only [hIn, if_pos hTakesPart, lockRpc, applyRpc, discardRpc, shardCompleteTxs, hId,
      built_txs hRange, built_txIdxs hRange, shardEntries_fst hLength, shardEntries_snd hLength,
      dtx]
    rfl
  · simp only [hIn, if_neg hTakesPart]
    rfl

/-- A completed execution decides a transaction positively exactly if all
shards that take part in it reported true, and tells every one of them the
same. A shard without a relevant transaction is sent nothing. -/
theorem execute_commits_atomically (env : Env) (dtxId : Hash) (shardRanges : List ShardRange)
    (batch : List CompactTx) (out : Outcome (Option (List Bool))) (decision : List Bool)
    (hDone : ((new dtxId shardRanges).addTxs batch).1.execute env = .ok out)
    (hResult : out.result = some decision) :
    (∀ (place : Nat) (tx : CompactTx), batch[place]? = some tx →
      ∃ idx flag, ((new dtxId shardRanges).addTxs batch).2[place]? = some idx ∧
        decision[idx]? = some flag ∧
        (flag = true ↔ ∀ (shard : Nat) (range : ShardRange), shardRanges[shard]? = some range →
          Participates range tx → ReportedTrue env dtxId shard range batch place)) ∧
    (∀ (shard : Nat) (range : ShardRange), shardRanges[shard]? = some range →
      sentTo out.sent shard =
        if ∃ tx ∈ batch, Participates range tx then
          [⟨dtxId, .lock ((shardEntries range batch decision).map Prod.fst)⟩,
            ⟨dtxId, .apply ((shardEntries range batch decision).map Prod.snd)⟩,
            ⟨dtxId, .discard⟩]
        else []) ∧
    ∀ rpc ∈ out.sent, rpc.shard < shardRanges.length := by
  have hStart : (built dtxId shardRanges batch).state = .start := by rw [built_eq]
  obtain ⟨hCombine, hSent⟩ := execute_eq_some (Or.inr hStart) hDone hResult
  have hLength : decision.length = batch.length := by
    have hCount := (gather_eq_some hCombine).1
    rw [built_eq] at hCount
    simpa using hCount
  refine ⟨fun place tx hTx => ?_, fun shard range hRange => ?_, fun rpc hRpc => ?_⟩
  · have hPlace : place < batch.length := (List.getElem?_eq_some_iff.mp hTx).1
    have hIdx : ((new dtxId shardRanges).addTxs batch).2[place]? = some place := by
      rw [addTxs_new]
      simp [hPlace]
    have hFlag : decision[place]? = some (decision[place]) := List.getElem?_eq_getElem _
    refine ⟨place, decision[place], hIdx, hFlag, ?_⟩
    have hIff := combine_built_iff hCombine hTx
    rw [hFlag, Option.some_inj] at hIff
    rw [hIff]
    apply forall₂_congr
    intro shard range
    apply imp_congr_right
    intro hRange
    rw [active_iff, ReportedTrue, built_txs hRange, built_eq]
  · rw [hSent]
    exact sentTo_built hLength hRange
  · have hShard : rpc.shard ∈ (built dtxId shardRanges batch).participants := by
      rw [hSent, List.mem_append, List.mem_append] at hRpc
      rcases hRpc with (hLock | hApply) | hDiscard
      · obtain ⟨shard, hIn, rfl⟩ := List.mem_map.mp hLock
        exact hIn
      · obtain ⟨shard, hIn, rfl⟩ := List.mem_map.mp hApply
        exact hIn
      · obtain ⟨shard, hIn, rfl⟩ := List.mem_map.mp hDiscard
        exact hIn
    obtain ⟨range, hRange, _⟩ := mem_participants_built.mp hShard
    exact (List.getElem?_eq_some_iff.mp hRange).1

/-- Two transactions that both shards take part in; the second shard refuses
one of them. -/
theorem execute_commits_atomically_refusal :
    let first := CompactTx.unattested (.ofByte 9) [.ofByte 1] [.ofByte 200]
    let second := CompactTx.unattested (.ofByte 8) [.ofByte 2] [.ofByte 201]
    let env : Env :=
      { prepareCb := some fun _ _ => true
        commitCb := some fun _ _ _ => true
        discardCb := some fun _ => true
        doneCb := some fun _ => true
        lockOutputs := fun shard txs _ => some (txs.map fun tx => shard == 0 || tx == first)
        applyOutputs := fun _ _ _ => true
        discardDtx := fun _ _ => true }
    ∃ out, ((new (.ofByte 7) [(0, 127), (128, 255)]).addTxs [first, second]).1.execute env =
        .ok out ∧
      out.result = some [true, false] ∧
      sentTo out.sent 1 = [⟨.ofByte 7, .lock [first, second]⟩,
        ⟨.ofByte 7, .apply [true, false]⟩, ⟨.ofByte 7, .discard⟩] := by
  intro first second env
  have hDone : ∃ out,
      ((new (.ofByte 7) [(0, 127), (128, 255)]).addTxs [first, second]).1.execute env = .ok out ∧
        out.result = some [true, false] := ⟨_, rfl, rfl⟩
  obtain ⟨out, hOut, hResult⟩ := hDone
  have hMain := execute_commits_atomically env (.ofByte 7) [(0, 127), (128, 255)] [first, second]
    out [true, false] hOut hResult
  refine ⟨out, hOut, hResult, (hMain.2.1 1 (128, 255) rfl).trans ?_⟩
  rw [if_pos (by decide)]
  rfl

end Atomicity

end OpenCbdc.DistributedTx
