import OpenCbdc.Atomizer.Messages
import OpenCbdc.Library.Window

/-! The errors that a watchtower remembers. They are found by the ID of their
transaction and by the UHS IDs of the inputs they name. -/
namespace OpenCbdc

/-- `input_uhs_ids` of the errors that name inputs. -/
def TxErrorInfo.inputUhsIds : TxErrorInfo → Multiset Hash
  | .sync => 0
  | .inputsDne inputUhsIds => inputUhsIds
  | .stxoRange => 0
  | .incomplete => 0
  | .inputsSpent inputUhsIds => inputUhsIds.val

/-- `watchtower::error_cache`. The queue has its oldest error first. -/
structure ErrorCache where
  kErrs : Nat
  errs : List TxError
  uhsErrs : Finmap fun _ : Hash => TxError
  txIdErrs : Finmap fun _ : Hash => TxError

namespace ErrorCache

def new (k : Nat) : ErrorCache := { kErrs := k, errs := [], uhsErrs := ∅, txIdErrs := ∅ }

/-- The oldest error is erased from both tables and leaves the queue. -/
def evict (cache : ErrorCache) : ErrorCache :=
  match cache.errs with
  | [] => cache
  | oldErr :: rest =>
      { cache with
        errs := rest
        txIdErrs := cache.txIdErrs.erase oldErr.txId
        uhsErrs := Table.eraseAll cache.uhsErrs oldErr.info.inputUhsIds }

/-- A round of the loop in `push_errors`. -/
def pushError (cache : ErrorCache) (err : TxError) : ErrorCache :=
  let room := if cache.kErrs ≠ 0 ∧ cache.errs.length = cache.kErrs then cache.evict else cache
  { room with
    errs := room.errs ++ [err]
    txIdErrs := Table.emplace room.txIdErrs err.txId err
    uhsErrs := Table.emplaceAll room.uhsErrs err.info.inputUhsIds err }

def pushErrors (cache : ErrorCache) (errs : List TxError) : ErrorCache :=
  errs.foldl pushError cache

def checkTxId (cache : ErrorCache) (txId : Hash) : Option TxError := cache.txIdErrs.lookup txId

def checkUhsId (cache : ErrorCache) (uhsId : Hash) : Option TxError := cache.uhsErrs.lookup uhsId

def txIdKeys (err : TxError) : Multiset Hash := {err.txId}

def uhsIdKeys (err : TxError) : Multiset Hash := err.info.inputUhsIds

section Window

open Window

/-- Both tables are kept as tables of one queue. -/
structure Indexes (k : Nat) (pushed : List TxError) (cache : ErrorCache) : Prop where
  kErrs : cache.kErrs = k
  txIds : (cache.errs, cache.txIdErrs) = indexed k txIdKeys pushed
  uhsIds : (cache.errs, cache.uhsErrs) = indexed k uhsIdKeys pushed

theorem indexes_new (k : Nat) : Indexes k [] (new k) where
  kErrs := rfl
  txIds := rfl
  uhsIds := rfl

variable {k : Nat} {pushed : List TxError} {cache : ErrorCache}

/-- A new error pushes out the oldest one and is indexed under its IDs. -/
theorem Indexes.pushError (h : Indexes k pushed cache) (err : TxError) :
    Indexes k (pushed ++ [err]) (cache.pushError err) := by
  have hK := h.kErrs
  have hEmplace : ∀ table : Finmap fun _ : Hash => TxError,
      Table.emplaceAll table (txIdKeys err) err = Table.emplace table err.txId err :=
    fun _ => rfl
  have hErase : ∀ (table : Finmap fun _ : Hash => TxError) (old : TxError),
      Table.eraseAll table (txIdKeys old) = table.erase old.txId := fun _ _ => rfl
  rw [ErrorCache.pushError]
  split
  case isTrue hFull =>
      have hWindow : Full k cache.errs := hK ▸ hFull
      cases hErrs : cache.errs with
      | nil =>
          rw [hErrs] at hFull
          exact absurd hFull.2.symm hFull.1
      | cons oldErr rest =>
          rw [hErrs] at hWindow
          constructor
          · simp [evict, hErrs, hK]
          · rw [indexed_concat, ← h.txIds, pushIndexed, hErrs]
            simp [hWindow, push, evict, hErrs, hEmplace, hErase]
          · rw [indexed_concat, ← h.uhsIds, pushIndexed, hErrs]
            simp [hWindow, push, evict, hErrs, uhsIdKeys]
  case isFalse hRoom =>
      have hWindow : ¬Full k cache.errs := hK ▸ hRoom
      constructor
      · exact hK
      · rw [indexed_concat, ← h.txIds, pushIndexed]
        simp [hWindow, push, hEmplace]
      · rw [indexed_concat, ← h.uhsIds, pushIndexed]
        simp [hWindow, push, uhsIdKeys]

theorem Indexes.pushErrors (h : Indexes k pushed cache) (errs : List TxError) :
    Indexes k (pushed ++ errs) (cache.pushErrors errs) := by
  induction errs generalizing pushed cache with
  | nil => simpa [ErrorCache.pushErrors] using h
  | cons err errs ih =>
      have hNext := ih (h.pushError err)
      rwa [List.append_assoc, List.singleton_append] at hNext

theorem indexes_of_calls (k : Nat) (calls : List (List TxError)) :
    Indexes k calls.flatten (calls.foldl ErrorCache.pushErrors (new k)) := by
  induction calls using List.reverseRecOn with
  | nil => exact indexes_new k
  | append_singleton calls errs ih =>
      rw [List.foldl_append, List.flatten_append, List.flatten_singleton]
      exact ih.pushErrors errs

/-- The cache finds an error under a transaction ID or a UHS ID exactly for the
last errors, if and only if every ID that went with an older error and is named by
one of the last was named again when the older one left, or later. -/
theorem error_cache_exact_iff_renewed (k : Nat) (calls : List (List TxError)) :
    ((∀ txId, (((calls.foldl ErrorCache.pushErrors (new k)).checkTxId txId).isSome ↔
        ∃ err ∈ latest k calls.flatten, err.txId = txId)) ∧
      ∀ uhsId, (((calls.foldl ErrorCache.pushErrors (new k)).checkUhsId uhsId).isSome ↔
        ∃ err ∈ latest k calls.flatten, uhsId ∈ err.info.inputUhsIds)) ↔
    Renewed k txIdKeys calls.flatten ∧ Renewed k uhsIdKeys calls.flatten := by
  have hIndexes := indexes_of_calls k calls
  have hTxIds : (calls.foldl ErrorCache.pushErrors (new k)).txIdErrs =
      (indexed k txIdKeys calls.flatten).2 := congrArg Prod.snd hIndexes.txIds
  have hUhsIds : (calls.foldl ErrorCache.pushErrors (new k)).uhsErrs =
      (indexed k uhsIdKeys calls.flatten).2 := congrArg Prod.snd hIndexes.uhsIds
  rw [← mem_indexed_iff_latest, ← mem_indexed_iff_latest, ← hTxIds, ← hUhsIds]
  simp only [checkTxId, checkUhsId, Finmap.lookup_isSome, txIdKeys, Multiset.mem_singleton,
    uhsIdKeys]
  refine and_congr_left' (forall_congr' fun txId => ?_)
  simp only [eq_comm]

/-- Two shards report the same transaction, and a third error follows. -/
def reportedTwice : List (List TxError) :=
  [[⟨.ofByte 1, .inputsDne [.ofByte 9]⟩], [⟨.ofByte 1, .inputsDne [.ofByte 9]⟩],
    [⟨.ofByte 2, .incomplete⟩]]

/-- A cache with room for two errors forgets the second report with the first. -/
theorem younger_error_forgotten :
    (∃ err ∈ latest 2 reportedTwice.flatten,
      err.txId = .ofByte 1 ∧ .ofByte 9 ∈ err.info.inputUhsIds) ∧
    ((reportedTwice.foldl ErrorCache.pushErrors (new 2)).checkTxId (.ofByte 1)).isSome = false ∧
      ((reportedTwice.foldl ErrorCache.pushErrors (new 2)).checkUhsId (.ofByte 9)).isSome =
        false := by
  decide +kernel

end Window

end ErrorCache
end OpenCbdc
