import OpenCbdc.Atomizer.Messages

/-! What an atomizer node does before anything is replicated: it gathers the
attestations of each transaction until all inputs are covered. -/
namespace OpenCbdc

/-- `atomizer_raft::attestation_set`: pairs of an input index and a block
height that are hashed and compared by the index alone. -/
abbrev AttestationSet := AList fun _ : Nat => Nat

namespace AttestationSet

/-- `std::unordered_set::insert` keeps the pair that is already there. -/
def insertPair (attestations : AttestationSet) (blockHeight index : Nat) : AttestationSet :=
  if index ∈ attestations then attestations else attestations.insert index blockHeight

/-- The body of the loop of `tx_notify` for a transaction that is known. -/
def merge (blockHeight : Nat) (attestations : AttestationSet) (index : Nat) : AttestationSet :=
  match attestations.lookup index with
  | some height =>
      if height < blockHeight then attestations.insertPair blockHeight index else attestations
  | none => attestations.insertPair blockHeight index

/-- The body of the loop of `tx_notify` over the heights. The initial 0 stands
for no height. -/
def older (oldest height : Nat) : Nat :=
  if oldest = 0 ∨ height < oldest then height else oldest

/-- `m_oldest_attestation` of an aggregate. -/
def oldest (attestations : AttestationSet) : Nat :=
  (attestations.entries.map Sigma.snd).foldl older 0

end AttestationSet

/-- A transaction with the attestations so far. -/
structure PendingTx where
  tx : CompactTx
  attestations : AttestationSet

/-- `atomizer_raft`: the state of a node beside the replicated state machine. -/
structure AtomizerRaft where
  txs : Finmap fun _ : Hash => PendingTx
  completeTxs : List AggregateTxNotification

namespace AtomizerRaft

def initial : AtomizerRaft := { txs := ∅, completeTxs := [] }

/-- The entry of `m_txs` for a notification, its attestations included. The
transaction of the first notification stays the key. -/
def pending (node : AtomizerRaft) (notif : TxNotifyRequest) : PendingTx :=
  match node.txs.lookup notif.tx.id with
  | some known =>
      { known with
        attestations := notif.attestations.foldl (.merge notif.blockHeight) known.attestations }
  | none =>
      { tx := notif.tx
        attestations :=
          notif.attestations.foldl (fun set index => set.insertPair notif.blockHeight index) ∅ }

def txNotify (crypto : Crypto) (opts : Options) (node : AtomizerRaft) (notif : TxNotifyRequest) :
    AtomizerRaft :=
  if checkAttestations crypto notif.tx opts then
    let entry := node.pending notif
    if entry.attestations.entries.length = entry.tx.inputs.length then
      { txs := node.txs.erase notif.tx.id
        completeTxs := node.completeTxs ++ [⟨entry.tx, entry.attestations.oldest⟩] }
    else { node with txs := node.txs.insert notif.tx.id entry }
  else node

/-- `atomizer_raft::send_complete_txs`: the notifications that are handed to
the log, unless there are none. -/
def sendCompleteTxs (node : AtomizerRaft) :
    AtomizerRaft × Option (List AggregateTxNotification) :=
  ({ node with completeTxs := [] },
    if node.completeTxs = [] then none else some node.completeTxs)

theorem eq_completeTxs_of_sent {node : AtomizerRaft} {aggTxs : List AggregateTxNotification}
    (h : aggTxs ∈ node.sendCompleteTxs.2.toList) : aggTxs = node.completeTxs := by
  rw [sendCompleteTxs] at h
  split at h
  · cases h
  · exact List.mem_singleton.mp h

end AtomizerRaft

namespace AttestationSet

section Heights

variable {attestations : AttestationSet} {blockHeight index : Nat}

/-- A pair of the set after a loop is new or was there before. -/
theorem of_lookup_insertPair {other height : Nat}
    (h : (attestations.insertPair blockHeight index).lookup other = some height) :
    other = index ∧ height = blockHeight ∨ attestations.lookup other = some height := by
  rw [insertPair] at h
  split at h
  · exact Or.inr h
  · by_cases hOther : other = index
    · subst hOther
      rw [AList.lookup_insert] at h
      exact Or.inl ⟨rfl, (Option.some.inj h).symm⟩
    · rw [AList.lookup_insert_ne hOther] at h
      exact Or.inr h

/-- The set never learns a newer height for an index, since `insert` does not
replace an equal element. -/
theorem merge_eq_insertPair : merge blockHeight attestations index =
    attestations.insertPair blockHeight index := by
  rw [merge]
  split
  case h_1 height hFound =>
      have hMem : index ∈ attestations := by
        rw [← AList.lookup_isSome, hFound]
        rfl
      simp [insertPair, hMem]
  case h_2 => rfl

/-- What holds of the pairs of a set and of all new pairs holds after the
loop. -/
theorem foldl_insertPair {property : Nat → Nat → Prop} {indices : List Nat}
    (hSet : ∀ index height, attestations.lookup index = some height → property index height)
    (hNew : ∀ index ∈ indices, property index blockHeight) :
    ∀ index height, (indices.foldl (fun set index => set.insertPair blockHeight index)
      attestations).lookup index = some height → property index height := by
  induction indices generalizing attestations with
  | nil => exact hSet
  | cons first rest ih =>
      refine ih ?_ fun index hIndex => hNew index (List.mem_cons_of_mem _ hIndex)
      intro index height hLookup
      rcases of_lookup_insertPair hLookup with ⟨rfl, rfl⟩ | hOld
      · exact hNew index List.mem_cons_self
      · exact hSet index height hOld

/-- The loop over heights that are all positive ends with a lower bound. -/
theorem foldl_older_le {heights : List Nat} {start : Nat}
    (hPositive : ∀ height ∈ heights, 0 < height) :
    (0 < start → heights.foldl older start ≤ start) ∧
      ∀ height ∈ heights, heights.foldl older start ≤ height := by
  induction heights generalizing start with
  | nil => simp
  | cons first rest ih =>
      have hFirst : 0 < first := hPositive first List.mem_cons_self
      obtain ⟨hBest, hRest⟩ := @ih (older start first)
        fun height hHeight => hPositive height (List.mem_cons_of_mem _ hHeight)
      have hOlder : 0 < older start first ∧ older start first ≤ first ∧
          (0 < start → older start first ≤ start) := by
        unfold older
        split <;> omega
      refine ⟨fun hStart => (hBest hOlder.1).trans (hOlder.2.2 hStart), ?_⟩
      intro height hHeight
      rcases List.mem_cons.mp hHeight with rfl | hLater
      · exact (hBest hOlder.1).trans hOlder.2.1
      · exact hRest height hLater

theorem oldest_le (hPositive : ∀ index height, attestations.lookup index = some height → 0 < height)
    {height : Nat} (h : attestations.lookup index = some height) :
    attestations.oldest ≤ height := by
  refine (foldl_older_le ?_).2 height (List.mem_map_of_mem (AList.mem_lookup_iff.mp h))
  intro other hOther
  obtain ⟨pair, hPair, rfl⟩ := List.mem_map.mp hOther
  exact hPositive pair.1 pair.2 (AList.mem_lookup_iff.mpr hPair)

/-- A set with as many pairs as there are inputs, all of them about inputs,
covers every input. -/
theorem exists_lookup_of_full {count : Nat} (hSize : attestations.entries.length = count)
    (hRange : ∀ index height, attestations.lookup index = some height → index < count) :
    ∀ index < count, ∃ height, attestations.lookup index = some height := by
  have hSubset : attestations.keys.toFinset ⊆ Finset.range count := by
    intro index hIndex
    rw [List.mem_toFinset, ← AList.mem_keys, ← AList.lookup_isSome] at hIndex
    obtain ⟨height, hHeight⟩ := Option.isSome_iff_exists.mp hIndex
    exact Finset.mem_range.mpr (hRange index height hHeight)
  have hCard : attestations.keys.toFinset.card = count := by
    rw [List.toFinset_card_of_nodup attestations.keys_nodup, ← hSize]
    exact List.length_map _
  have hAll := Finset.eq_of_subset_of_card_le hSubset (by rw [hCard, Finset.card_range])
  intro index hIndex
  have hKey := hAll.symm ▸ Finset.mem_range.mpr hIndex
  rw [List.mem_toFinset, ← AList.mem_keys, ← AList.lookup_isSome] at hKey
  exact Option.isSome_iff_exists.mp hKey

end Heights

end AttestationSet
end OpenCbdc
