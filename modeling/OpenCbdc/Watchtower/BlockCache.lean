import OpenCbdc.Atomizer.Messages
import OpenCbdc.Library.Window

/-! The last blocks that a watchtower has seen, with the UHS IDs that their
transactions have spent and created. -/
namespace OpenCbdc

/-- `watchtower::block_cache`. The queue has its oldest block first. A result is
the height of a block and the ID of a transaction in it. -/
structure BlockCache where
  kBlks : Nat
  blks : List Block
  bestBlkHeight : Nat
  unspentIds : Finmap fun _ : Hash => Nat × Hash
  spentIds : Finmap fun _ : Hash => Nat × Hash

namespace BlockCache

def new (k : Nat) : BlockCache :=
  { kBlks := k, blks := [], bestBlkHeight := 0, unspentIds := ∅, spentIds := ∅ }

/-- What is erased for a transaction of the oldest block. -/
def forgetTx (cache : BlockCache) (tx : CompactTx) : BlockCache :=
  { cache with
    spentIds := Table.eraseAll cache.spentIds tx.inputs
    unspentIds := Table.eraseAll cache.unspentIds tx.uhsOutputs }

/-- The oldest block is erased from both tables and leaves the queue. -/
def evict (cache : BlockCache) : BlockCache :=
  match cache.blks with
  | [] => cache
  | oldBlk :: rest => { oldBlk.transactions.foldl forgetTx cache with blks := rest }

/-- What is recorded for a transaction of a new block. -/
def recordTx (blkHeight : Nat) (cache : BlockCache) (tx : CompactTx) : BlockCache :=
  { cache with
    unspentIds := Table.emplaceAll (Table.eraseAll cache.unspentIds tx.inputs) tx.uhsOutputs
      (blkHeight, tx.id)
    spentIds := Table.emplaceAll cache.spentIds tx.inputs (blkHeight, tx.id) }

def pushBlock (cache : BlockCache) (blk : Block) : BlockCache :=
  let room := if cache.kBlks ≠ 0 ∧ cache.blks.length = cache.kBlks then cache.evict else cache
  let recorded := blk.transactions.foldl (recordTx blk.height)
    { room with blks := room.blks ++ [blk] }
  { recorded with bestBlkHeight := max recorded.bestBlkHeight blk.height }

def checkUnspent (cache : BlockCache) (uhsId : Hash) : Option (Nat × Hash) :=
  cache.unspentIds.lookup uhsId

def checkSpent (cache : BlockCache) (uhsId : Hash) : Option (Nat × Hash) :=
  cache.spentIds.lookup uhsId

def entries (blks : List Block) : List (Nat × CompactTx) :=
  blks.flatMap fun blk => blk.transactions.map fun tx => (blk.height, tx)

def result (entry : Nat × CompactTx) : Nat × Hash := (entry.1, entry.2.id)

/-- In a row of transactions every ID is created once and spent once, and spent
only by a transaction that comes after the one that creates it. -/
structure SingleUse (txs : List CompactTx) : Prop where
  created : (txs.flatMap CompactTx.uhsOutputs).Nodup
  spent : (txs.flatMap CompactTx.inputs).Nodup
  inOrder : ∀ (creator spender : Nat) (first second : CompactTx) (uhsId : Hash),
    txs[creator]? = some first → txs[spender]? = some second → uhsId ∈ first.uhsOutputs →
      uhsId ∈ second.inputs → creator < spender

section SingleUse

variable {first second : List CompactTx} {earlier later : CompactTx} {uhsId : Hash}

theorem SingleUse.left (h : SingleUse (first ++ second)) : SingleUse first where
  created := by
    have hCreated := h.created
    rw [List.flatMap_append] at hCreated
    exact hCreated.of_append_left
  spent := by
    have hSpent := h.spent
    rw [List.flatMap_append] at hSpent
    exact hSpent.of_append_left
  inOrder creator spender one other id hCreator hSpender := by
    have hFirst := (List.getElem?_eq_some_iff.mp hCreator).1
    have hSecond := (List.getElem?_eq_some_iff.mp hSpender).1
    exact h.inOrder creator spender one other id (by rwa [List.getElem?_append_left hFirst])
      (by rwa [List.getElem?_append_left hSecond])

theorem SingleUse.right (h : SingleUse (first ++ second)) : SingleUse second where
  created := by
    have hCreated := h.created
    rw [List.flatMap_append] at hCreated
    exact hCreated.of_append_right
  spent := by
    have hSpent := h.spent
    rw [List.flatMap_append] at hSpent
    exact hSpent.of_append_right
  inOrder creator spender one other id hCreator hSpender hOut hIn := by
    have hAfter := h.inOrder (first.length + creator) (first.length + spender) one other id
      (by rwa [List.getElem?_append_right (by omega), Nat.add_sub_cancel_left])
      (by rwa [List.getElem?_append_right (by omega), Nat.add_sub_cancel_left]) hOut hIn
    omega

theorem SingleUse.notMem_inputs (h : SingleUse (first ++ second)) (hEarlier : earlier ∈ first)
    (hLater : later ∈ second) (hSpent : uhsId ∈ earlier.inputs) : uhsId ∉ later.inputs := by
  have hNodup := h.spent
  rw [List.flatMap_append] at hNodup
  intro hAgain
  exact (List.disjoint_of_nodup_append hNodup) (List.mem_flatMap.mpr ⟨earlier, hEarlier, hSpent⟩)
    (List.mem_flatMap.mpr ⟨later, hLater, hAgain⟩)

theorem SingleUse.notMem_uhsOutputs (h : SingleUse (first ++ second)) (hEarlier : earlier ∈ first)
    (hLater : later ∈ second) (hCreated : uhsId ∈ earlier.uhsOutputs) :
    uhsId ∉ later.uhsOutputs := by
  have hNodup := h.created
  rw [List.flatMap_append] at hNodup
  intro hAgain
  exact (List.disjoint_of_nodup_append hNodup)
    (List.mem_flatMap.mpr ⟨earlier, hEarlier, hCreated⟩)
    (List.mem_flatMap.mpr ⟨later, hLater, hAgain⟩)

/-- What the last transaction creates is not spent yet. -/
theorem SingleUse.notMem_of_last {tx spender : CompactTx} (h : SingleUse (first ++ [tx]))
    (hCreated : uhsId ∈ tx.uhsOutputs) (hSpender : spender ∈ first ++ [tx]) :
    uhsId ∉ spender.inputs := by
  intro hSpent
  obtain ⟨place, hPlace⟩ := List.mem_iff_getElem?.mp hSpender
  have hLt := (List.getElem?_eq_some_iff.mp hPlace).1
  have hAfter := h.inOrder first.length place tx spender uhsId List.getElem?_concat_length hPlace
    hCreated hSpent
  simp at hLt
  omega

end SingleUse

/-- The tables hold what the logged transactions have spent and created, as far as
it is not spent by any transaction so far. -/
structure Records (txs : List CompactTx) (log : List (Nat × CompactTx)) (cache : BlockCache) :
    Prop where
  spent : ∀ uhsId found, cache.spentIds.lookup uhsId = some found ↔
    ∃ entry ∈ log, uhsId ∈ entry.2.inputs ∧ result entry = found
  unspent : ∀ uhsId found, cache.unspentIds.lookup uhsId = some found ↔
    (∃ entry ∈ log, uhsId ∈ entry.2.uhsOutputs ∧ result entry = found) ∧
      ∀ tx ∈ txs, uhsId ∉ tx.inputs

section Tables

variable {txs : List CompactTx} {log : List (Nat × CompactTx)} {cache : BlockCache}

/-- Recording a transaction marks its inputs as spent and its outputs as unspent, in that
order. -/
theorem Records.recordTx (h : Records txs log cache) (hLog : ∀ entry ∈ log, entry.2 ∈ txs)
    {tx : CompactTx} (hUse : SingleUse (txs ++ [tx])) (blkHeight : Nat) :
    Records (txs ++ [tx]) (log ++ [(blkHeight, tx)]) (cache.recordTx blkHeight tx) where
  spent uhsId found := by
    simp only [BlockCache.recordTx, Table.lookup_emplaceAll, Multiset.mem_coe, List.mem_append,
      List.mem_singleton, or_and_right, exists_or, exists_eq_left]
    by_cases hIn : uhsId ∈ tx.inputs
    · -- The transaction is the first to spend the ID.
      have hNew : cache.spentIds.lookup uhsId = none := by
        rw [Option.eq_none_iff_forall_ne_some]
        intro other hOther
        obtain ⟨entry, hEntry, hSpent, _⟩ := (h.spent uhsId other).mp hOther
        exact hUse.notMem_inputs (hLog entry hEntry) (List.mem_singleton_self tx) hSpent hIn
      rw [← h.spent, hNew]
      simp [hIn, result]
    · simp [hIn, h.spent uhsId found]
  unspent uhsId found := by
    simp only [BlockCache.recordTx, Table.lookup_emplaceAll, Table.lookup_eraseAll,
      Multiset.mem_coe]
    by_cases hOut : uhsId ∈ tx.uhsOutputs
    · have hUnspent : ∀ spender ∈ txs ++ [tx], uhsId ∉ spender.inputs :=
        fun spender hSpender => hUse.notMem_of_last hOut hSpender
      have hNotIn := hUnspent tx (by simp)
      have hOnce : ∀ entry ∈ log, uhsId ∉ entry.2.uhsOutputs := fun entry hEntry hCreated =>
        hUse.notMem_uhsOutputs (hLog entry hEntry) (List.mem_singleton_self tx) hCreated hOut
      have hNew : cache.unspentIds.lookup uhsId = none := by
        rw [Option.eq_none_iff_forall_ne_some]
        intro other hOther
        obtain ⟨⟨entry, hEntry, hCreated, _⟩, _⟩ := (h.unspent uhsId other).mp hOther
        exact hOnce entry hEntry hCreated
      simp only [hNew, hNotIn, hOut, if_true, if_false, Option.none_or, Option.some.injEq]
      constructor
      · rintro rfl
        exact ⟨⟨(blkHeight, tx), by simp, hOut, rfl⟩, hUnspent⟩
      · rintro ⟨⟨entry, hEntry, hCreated, rfl⟩, _⟩
        rcases List.mem_append.mp hEntry with hOld | hLast
        · exact absurd hCreated (hOnce entry hOld)
        · rw [List.mem_singleton.mp hLast]
          rfl
    · by_cases hIn : uhsId ∈ tx.inputs
      · simp [hIn, hOut]
      · have hEntries : (∃ entry ∈ log ++ [(blkHeight, tx)], uhsId ∈ entry.2.uhsOutputs ∧
            result entry = found) ↔
              ∃ entry ∈ log, uhsId ∈ entry.2.uhsOutputs ∧ result entry = found := by
          simp [or_and_right, exists_or, hOut]
        simp only [hIn, hOut, if_false, Option.or_none, h.unspent, hEntries]
        simp [or_imp, forall_and, hIn]

theorem Records.recordTxs (h : Records txs log cache) (hLog : ∀ entry ∈ log, entry.2 ∈ txs)
    {more : List CompactTx} (hUse : SingleUse (txs ++ more)) (blkHeight : Nat) :
    Records (txs ++ more) (log ++ more.map fun tx => (blkHeight, tx))
      (more.foldl (BlockCache.recordTx blkHeight) cache) := by
  induction more generalizing txs log cache with
  | nil => simpa using h
  | cons tx more ih =>
      rw [← List.singleton_append, ← List.append_assoc] at hUse
      have hNext := ih (h.recordTx hLog hUse.left blkHeight) (by
        intro entry hEntry
        rcases List.mem_append.mp hEntry with hOld | hLast
        · exact List.mem_append_left _ (hLog entry hOld)
        · rw [List.mem_singleton.mp hLast]
          exact List.mem_append_right _ (List.mem_singleton_self tx)) hUse
      simpa using hNext

/-- Forgetting the oldest transaction removes what it has spent and created, and nothing of
the others. -/
theorem Records.forgetTx {entry : Nat × CompactTx} (h : Records txs (entry :: log) cache)
    (hUse : SingleUse ([entry.2] ++ log.map Prod.snd)) :
    Records txs log (cache.forgetTx entry.2) where
  spent uhsId found := by
    have hOnce : uhsId ∈ entry.2.inputs → ∀ other ∈ log, uhsId ∉ other.2.inputs :=
      fun hSpent other hOther => hUse.notMem_inputs (List.mem_singleton_self _)
        (List.mem_map_of_mem hOther) hSpent
    simp only [BlockCache.forgetTx, Table.lookup_eraseAll, Multiset.mem_coe]
    by_cases hIn : uhsId ∈ entry.2.inputs
    · simp only [hIn, if_true, reduceCtorEq, false_iff]
      rintro ⟨other, hOther, hSpent, _⟩
      exact hOnce hIn other hOther hSpent
    · simp [hIn, h.spent uhsId found]
  unspent uhsId found := by
    have hOnce : uhsId ∈ entry.2.uhsOutputs → ∀ other ∈ log, uhsId ∉ other.2.uhsOutputs :=
      fun hCreated other hOther => hUse.notMem_uhsOutputs (List.mem_singleton_self _)
        (List.mem_map_of_mem hOther) hCreated
    simp only [BlockCache.forgetTx, Table.lookup_eraseAll, Multiset.mem_coe]
    by_cases hOut : uhsId ∈ entry.2.uhsOutputs
    · simp only [hOut, if_true, reduceCtorEq, false_iff]
      rintro ⟨⟨other, hOther, hCreated, _⟩, _⟩
      exact hOnce hOut other hOther hCreated
    · simp [hOut, h.unspent uhsId found]

/-- The transactions of a block that leaves are erased one after another. -/
theorem Records.forgetTxs {gone : List CompactTx} {blkHeight : Nat}
    (h : Records txs ((gone.map fun tx => (blkHeight, tx)) ++ log) cache)
    (hUse : SingleUse (gone ++ log.map Prod.snd)) :
    Records txs log (gone.foldl BlockCache.forgetTx cache) := by
  induction gone generalizing cache with
  | nil => exact h
  | cons tx gone ih =>
      have hLog : ((gone.map fun tx => (blkHeight, tx)) ++ log).map Prod.snd =
          gone ++ log.map Prod.snd := by
        simp [Function.comp_def]
      have hSplit : SingleUse ([tx] ++ (gone ++ log.map Prod.snd)) := hUse
      have hKept : SingleUse
          ([tx] ++ ((gone.map fun tx => (blkHeight, tx)) ++ log).map Prod.snd) := by
        rwa [hLog]
      exact ih (Records.forgetTx h hKept) hSplit.right

end Tables

/-- The cache is the one that was filled by these blocks. -/
structure FilledBy (k : Nat) (pushed : List Block) (cache : BlockCache) : Prop where
  kBlks : cache.kBlks = k
  blks : cache.blks = Window.latest k pushed
  records : Records (pushed.flatMap Block.transactions) (entries (Window.latest k pushed)) cache

theorem entries_snd (blks : List Block) :
    (entries blks).map Prod.snd = blks.flatMap Block.transactions := by
  simp [entries, List.map_flatMap, Function.comp_def]

theorem mem_of_mem_entries {blks : List Block} {entry : Nat × CompactTx}
    (h : entry ∈ entries blks) : entry.2 ∈ blks.flatMap Block.transactions := by
  rw [← entries_snd]
  exact List.mem_map_of_mem h

theorem exists_entry_iff {blks : List Block} {height : Nat} {txId : Hash}
    (p : CompactTx → Prop) :
    (∃ entry ∈ entries blks, p entry.2 ∧ result entry = (height, txId)) ↔
      ∃ blk ∈ blks, blk.height = height ∧ ∃ tx ∈ blk.transactions, tx.id = txId ∧ p tx := by
  constructor
  · rintro ⟨entry, hEntry, hTx, hResult⟩
    obtain ⟨blk, hBlk, hMem⟩ := List.mem_flatMap.mp hEntry
    obtain ⟨tx, hIn, rfl⟩ := List.mem_map.mp hMem
    obtain ⟨hHeight, hId⟩ := Prod.mk.inj hResult
    exact ⟨blk, hBlk, hHeight, tx, hIn, hId, hTx⟩
  · rintro ⟨blk, hBlk, rfl, tx, hIn, rfl, hTx⟩
    exact ⟨(blk.height, tx), List.mem_flatMap.mpr ⟨blk, hBlk, List.mem_map_of_mem hIn⟩, hTx, rfl⟩

section Push

variable {k : Nat} {pushed : List Block} {cache : BlockCache}

theorem queue_forgetTxs (cache : BlockCache) (txs : List CompactTx) :
    (txs.foldl forgetTx cache).kBlks = cache.kBlks ∧
      (txs.foldl forgetTx cache).bestBlkHeight = cache.bestBlkHeight := by
  induction txs generalizing cache with
  | nil => exact ⟨rfl, rfl⟩
  | cons tx txs ih => exact ih (cache.forgetTx tx)

theorem queue_recordTxs (blkHeight : Nat) (cache : BlockCache) (txs : List CompactTx) :
    (txs.foldl (recordTx blkHeight) cache).kBlks = cache.kBlks ∧
      (txs.foldl (recordTx blkHeight) cache).blks = cache.blks ∧
      (txs.foldl (recordTx blkHeight) cache).bestBlkHeight = cache.bestBlkHeight := by
  induction txs generalizing cache with
  | nil => exact ⟨rfl, rfl, rfl⟩
  | cons tx txs ih => exact ih (cache.recordTx blkHeight tx)

theorem bestBlkHeight_pushBlock (cache : BlockCache) (blk : Block) :
    (cache.pushBlock blk).bestBlkHeight = max cache.bestBlkHeight blk.height := by
  have hEvict : cache.evict.bestBlkHeight = cache.bestBlkHeight := by
    unfold BlockCache.evict
    split
    · rfl
    case h_2 oldBlk _ _ => exact (queue_forgetTxs cache oldBlk.transactions).2
  simp only [BlockCache.pushBlock, (queue_recordTxs _ _ _).2.2]
  split
  · rw [hEvict]
  · rfl

/-- The oldest block of a full queue leaves with the rows of its transactions. -/
theorem FilledBy.evict (h : FilledBy k pushed cache)
    (hUse : SingleUse (pushed.flatMap Block.transactions))
    (hFull : Window.Full k (Window.latest k pushed)) :
    cache.evict.kBlks = k ∧ cache.evict.blks = (Window.latest k pushed).tail ∧
      Records (pushed.flatMap Block.transactions) (entries (Window.latest k pushed).tail)
        cache.evict := by
  obtain ⟨gone, old, rest, hPushed, hLatest, _⟩ := Window.exists_of_full hFull
  have hBlks : cache.blks = old :: rest := h.blks.trans hLatest
  have hRecords := h.records
  rw [hLatest] at hRecords
  rw [hLatest, List.tail_cons, BlockCache.evict, hBlks]
  have hKept : SingleUse (old.transactions ++ (entries rest).map Prod.snd) := by
    rw [hPushed, List.flatMap_append] at hUse
    rw [entries_snd]
    exact hUse.right
  have hForgot := hRecords.forgetTxs hKept
  exact ⟨(queue_forgetTxs cache old.transactions).1.trans h.kBlks, rfl,
    ⟨hForgot.spent, hForgot.unspent⟩⟩

/-- A new block is recorded after the oldest one is forgotten, if the cache is full. -/
theorem FilledBy.pushBlock (h : FilledBy k pushed cache) {blk : Block}
    (hUse : SingleUse ((pushed ++ [blk]).flatMap Block.transactions)) :
    FilledBy k (pushed ++ [blk]) (cache.pushBlock blk) := by
  have hTxs : (pushed ++ [blk]).flatMap Block.transactions =
      pushed.flatMap Block.transactions ++ blk.transactions := by
    simp
  rw [hTxs] at hUse
  -- The state after the eviction, if there was one.
  obtain ⟨room, hRoom, hSize, hBlks, hOld, hRecords⟩ : ∃ room,
      room = (if cache.kBlks ≠ 0 ∧ cache.blks.length = cache.kBlks then cache.evict else cache) ∧
      room.kBlks = k ∧ Window.latest k (pushed ++ [blk]) = room.blks ++ [blk] ∧
      room.blks ⊆ pushed ∧
      Records (pushed.flatMap Block.transactions) (entries room.blks) room := by
    refine ⟨_, rfl, ?_⟩
    rw [← Window.push_latest, Window.push, h.kBlks, h.blks]
    split
    case isTrue hFull =>
        obtain ⟨hSize, hBlks, hRecords⟩ := h.evict hUse.left hFull
        rw [if_pos (show Window.Full _ _ from hFull), hBlks]
        exact ⟨hSize, rfl,
          List.Subset.trans (List.tail_subset _) (Window.latest_subset k pushed), hRecords⟩
    case isFalse hFree =>
        rw [if_neg (show ¬Window.Full _ _ from hFree), h.blks]
        exact ⟨h.kBlks, rfl, Window.latest_subset k pushed, h.records⟩
  have hInside : ∀ entry ∈ entries room.blks, entry.2 ∈ pushed.flatMap Block.transactions := by
    intro entry hEntry
    obtain ⟨holder, hHolder, hTx⟩ := List.mem_flatMap.mp (mem_of_mem_entries hEntry)
    exact List.mem_flatMap.mpr ⟨holder, hOld hHolder, hTx⟩
  have hPushed : Records (pushed.flatMap Block.transactions) (entries room.blks)
      { room with blks := room.blks ++ [blk] } := ⟨hRecords.spent, hRecords.unspent⟩
  have hRecorded := hPushed.recordTxs hInside hUse blk.height
  rw [BlockCache.pushBlock, ← hRoom]
  obtain ⟨hSame, hQueue, _⟩ := queue_recordTxs blk.height { room with blks := room.blks ++ [blk] }
    blk.transactions
  refine ⟨hSame.trans hSize, hQueue.trans hBlks.symm, ?_⟩
  have hEntries : entries (room.blks ++ [blk]) =
      entries room.blks ++ blk.transactions.map fun tx => (blk.height, tx) := by
    simp [entries]
  rw [hTxs, hBlks, hEntries]
  exact ⟨hRecorded.spent, hRecorded.unspent⟩

theorem filledBy_of_pushed (k : Nat) (hUse : SingleUse (pushed.flatMap Block.transactions)) :
    FilledBy k pushed (pushed.foldl BlockCache.pushBlock (new k)) := by
  induction pushed using List.reverseRecOn with
  | nil =>
      have hNone : entries (Window.latest k []) = [] := by simp [entries, Window.latest]
      refine ⟨rfl, by simp [new, Window.latest], ?_, ?_⟩ <;> simp [hNone, new]
  | append_singleton pushed blk ih =>
      rw [List.foldl_concat]
      rw [List.flatMap_append] at hUse
      exact (ih hUse.left).pushBlock (by rwa [List.flatMap_append])

end Push

/-- The cache reports exactly what its window says: an ID is spent if a transaction
of the last blocks spends it, and unspent if a transaction of the last blocks
creates it and none spends it. -/
theorem block_cache_exact (k : Nat) (pushed : List Block)
    (hUse : SingleUse (pushed.flatMap Block.transactions)) (uhsId : Hash) (height : Nat)
    (txId : Hash) :
    let cache := pushed.foldl BlockCache.pushBlock (new k)
    (cache.checkSpent uhsId = some (height, txId) ↔
      ∃ blk ∈ Window.latest k pushed, blk.height = height ∧
        ∃ tx ∈ blk.transactions, tx.id = txId ∧ uhsId ∈ tx.inputs) ∧
    (cache.checkUnspent uhsId = some (height, txId) ↔
      (∃ blk ∈ Window.latest k pushed, blk.height = height ∧
        ∃ tx ∈ blk.transactions, tx.id = txId ∧ uhsId ∈ tx.uhsOutputs) ∧
      ∀ blk ∈ pushed, ∀ tx ∈ blk.transactions, uhsId ∉ tx.inputs) := by
  have hRecords := (filledBy_of_pushed k hUse).records
  refine ⟨(hRecords.spent uhsId (height, txId)).trans ?_,
    (hRecords.unspent uhsId (height, txId)).trans (and_congr ?_ ?_)⟩
  · exact exists_entry_iff fun tx => uhsId ∈ tx.inputs
  · exact exists_entry_iff fun tx => uhsId ∈ tx.uhsOutputs
  · simp only [List.mem_flatMap]
    grind

/-- An ID is created in one block, spent in the next, and what is created there
is spent in the same block. -/
def spentOn : List Block :=
  [⟨1, [.unattested (.ofByte 1) [] [.ofByte 11, .ofByte 12]]⟩,
    ⟨2, [.unattested (.ofByte 2) [.ofByte 11] [.ofByte 21],
      .unattested (.ofByte 3) [.ofByte 21] [.ofByte 31]]⟩]

theorem spentOn_singleUse : SingleUse (spentOn.flatMap Block.transactions) where
  created := by decide
  spent := by decide
  inOrder creator spender first second id hCreator hSpender hOut hIn := by
    have hOrder : ∀ creator < 3, ∀ spender < 3,
        ∀ first ∈ (spentOn.flatMap Block.transactions)[creator]?,
        ∀ second ∈ (spentOn.flatMap Block.transactions)[spender]?,
        ∀ id ∈ first.uhsOutputs, id ∈ second.inputs → creator < spender := by
      decide
    exact hOrder creator (List.getElem?_eq_some_iff.mp hCreator).1 spender
      (List.getElem?_eq_some_iff.mp hSpender).1 first hCreator second hSpender id hOut hIn

/-- A cache of one block knows the spender of the first ID, and has forgotten the
creator of the second. -/
theorem block_cache_exact_spentOn :
    (spentOn.foldl BlockCache.pushBlock (new 1)).checkSpent (.ofByte 11) = some (2, .ofByte 2) ∧
      ¬(spentOn.foldl BlockCache.pushBlock (new 1)).checkUnspent (.ofByte 12) =
        some (1, .ofByte 1) := by
  constructor
  · exact (block_cache_exact 1 spentOn spentOn_singleUse (.ofByte 11) 2 (.ofByte 2)).1.mpr
      (by decide)
  · rw [(block_cache_exact 1 spentOn spentOn_singleUse (.ofByte 12) 1 (.ofByte 1)).2]
    decide

end BlockCache
end OpenCbdc
