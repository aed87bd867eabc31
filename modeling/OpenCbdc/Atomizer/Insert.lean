import OpenCbdc.Atomizer.Atomizer

/-! What a notification does to the atomizer that receives it, and when the
insertions are safe. -/
namespace OpenCbdc.Atomizer

section Pending

variable {atomizer : Atomizer} {txId : Hash}

theorem le_of_pendingAt {offset : Nat} {entry : CompactTx × Finset Nat}
    (h : atomizer.pendingAt offset txId = some entry) : offset ≤ atomizer.spentCacheDepth := by
  obtain ⟨slot, hSlot, _⟩ := Option.bind_eq_some_iff.mp h
  have hLt := (List.getElem?_eq_some_iff.mp hSlot).1
  rw [atomizer.txs_length] at hLt
  omega

theorem exists_slot {offset : Nat} (h : offset ≤ atomizer.spentCacheDepth) :
    ∃ slot, atomizer.txs[offset]? = some slot :=
  ⟨_, List.getElem?_eq_getElem (by rw [atomizer.txs_length]; omega)⟩

/-- The state after a notification has been filed under an offset. -/
def notify (atomizer : Atomizer) (offset : Nat) (tx : CompactTx) (attestations : Finset Nat) :
    Atomizer :=
  match atomizer.txs[offset]? with
  | none => atomizer
  | some slot =>
      atomizer.putEntry offset slot tx.id (mergeEntry (slot.lookup tx.id) tx attestations)

theorem notify_frame (offset : Nat) (tx : CompactTx) (attestations : Finset Nat) :
    (atomizer.notify offset tx attestations).completeTxs = atomizer.completeTxs ∧
      (atomizer.notify offset tx attestations).spent = atomizer.spent ∧
      (atomizer.notify offset tx attestations).bestHeight = atomizer.bestHeight ∧
      (atomizer.notify offset tx attestations).spentCacheDepth = atomizer.spentCacheDepth := by
  unfold notify
  split <;> exact ⟨rfl, rfl, rfl, rfl⟩

/-- A notification changes the entry of its own transaction in its own slot, and no other.
-/
theorem pendingAt_notify {offset : Nat} (h : offset ≤ atomizer.spentCacheDepth) (tx : CompactTx)
    (attestations : Finset Nat) (other : Nat) (otherId : Hash) :
    (atomizer.notify offset tx attestations).pendingAt other otherId =
      if other = offset ∧ otherId = tx.id then
        some (mergeEntry (atomizer.pendingAt offset tx.id) tx attestations)
      else atomizer.pendingAt other otherId := by
  obtain ⟨slot, hSlot⟩ := exists_slot h
  have hLt := (List.getElem?_eq_some_iff.mp hSlot).1
  simp only [notify, hSlot, putEntry, pendingAt, Option.bind_some]
  by_cases hOffset : other = offset
  · subst hOffset
    rw [List.getElem?_set_self hLt, hSlot, Option.bind_some, Option.bind_some]
    by_cases hId : otherId = tx.id
    · rw [if_pos ⟨rfl, hId⟩, hId, Finmap.lookup_insert]
    · rw [if_neg (fun hBoth => hId hBoth.2), Finmap.lookup_insert_of_ne _ hId]
  · rw [if_neg (fun hBoth => hOffset hBoth.1), List.getElem?_set_ne (Ne.symm hOffset)]

/-- What the loop over the offsets below a bound has gathered. -/
structure Gathers (atomizer : Atomizer) (txId : Hash) (bound : Nat) (gathered : Gathered) :
    Prop where
  total : ∀ index, index ∈ gathered.totalAttestations ↔
    ∃ offset entry, offset < bound ∧ atomizer.pendingAt offset txId = some entry ∧ index ∈ entry.2
  txIts : ∀ offset, offset ∈ gathered.txIts ↔
    offset < bound ∧ ∃ entry, atomizer.pendingAt offset txId = some entry
  nodup : gathered.txIts.Nodup
  oldest : ∀ offset ∈ gathered.txIts,
    offset ≤ gathered.oldestAttestation ∧ gathered.oldestAttestation ∈ gathered.txIts

/-- One round of the loop looks at one offset more, and takes the entry there if there is
one. -/
theorem Gathers.gatherAt {bound : Nat} {gathered : Gathered}
    (h : Gathers atomizer txId bound gathered) :
    Gathers atomizer txId (bound + 1) (atomizer.gatherAt txId gathered bound) := by
  rw [Atomizer.gatherAt]
  cases hEntry : atomizer.pendingAt bound txId with
  | none =>
      have hBound : ∀ offset entry, atomizer.pendingAt offset txId = some entry →
          (offset < bound + 1 ↔ offset < bound) := by
        intro offset entry hSome
        have hNe : offset ≠ bound := by
          rintro rfl
          rw [hEntry] at hSome
          cases hSome
        omega
      refine ⟨fun index => ?_, fun offset => ?_, h.nodup, h.oldest⟩
      · rw [h.total]
        constructor
        · rintro ⟨offset, entry, hLt, hSome, hIndex⟩
          exact ⟨offset, entry, (hBound offset entry hSome).mpr hLt, hSome, hIndex⟩
        · rintro ⟨offset, entry, hLt, hSome, hIndex⟩
          exact ⟨offset, entry, (hBound offset entry hSome).mp hLt, hSome, hIndex⟩
      · rw [h.txIts]
        constructor
        · rintro ⟨hLt, entry, hSome⟩
          exact ⟨(hBound offset entry hSome).mpr hLt, entry, hSome⟩
        · rintro ⟨hLt, entry, hSome⟩
          exact ⟨(hBound offset entry hSome).mp hLt, entry, hSome⟩
  | some entry =>
      have hNew : bound ∉ gathered.txIts := fun hMem => Nat.lt_irrefl _ ((h.txIts bound).mp hMem).1
      refine ⟨fun index => ?_, fun offset => ?_, ?_, ?_⟩
      · rw [Finset.mem_union, h.total]
        constructor
        · rintro (⟨offset, other, hLt, hSome, hIndex⟩ | hIndex)
          · exact ⟨offset, other, by omega, hSome, hIndex⟩
          · exact ⟨bound, entry, by omega, hEntry, hIndex⟩
        · rintro ⟨offset, other, hLt, hSome, hIndex⟩
          rcases Nat.lt_succ_iff_lt_or_eq.mp hLt with hBelow | rfl
          · exact Or.inl ⟨offset, other, hBelow, hSome, hIndex⟩
          · rw [hEntry] at hSome
            exact Or.inr (Option.some.inj hSome ▸ hIndex)
      · rw [List.mem_append, List.mem_singleton, h.txIts]
        constructor
        · rintro (⟨hLt, hSome⟩ | rfl)
          · exact ⟨by omega, hSome⟩
          · exact ⟨by omega, entry, hEntry⟩
        · rintro ⟨hLt, hSome⟩
          rcases Nat.lt_succ_iff_lt_or_eq.mp hLt with hBelow | rfl
          · exact Or.inl ⟨hBelow, hSome⟩
          · exact Or.inr rfl
      · exact List.nodup_append.mpr ⟨h.nodup, List.nodup_singleton _, fun offset hOffset other
          hOther hSame => hNew (List.mem_singleton.mp hOther ▸ hSame ▸ hOffset)⟩
      · intro offset hOffset
        refine ⟨?_, List.mem_append_right _ (List.mem_singleton_self _)⟩
        rcases List.mem_append.mp hOffset with hOld | hLast
        · exact Nat.le_of_lt ((h.txIts offset).mp hOld).1
        · exact Nat.le_of_eq (List.mem_singleton.mp hLast)

theorem gathers_gather (atomizer : Atomizer) (txId : Hash) :
    Gathers atomizer txId (atomizer.spentCacheDepth + 1) (atomizer.gather txId) := by
  have hBelow : ∀ bound, Gathers atomizer txId bound
      ((List.range bound).foldl (atomizer.gatherAt txId) ⟨∅, 0, []⟩) := by
    intro bound
    induction bound with
    | zero => exact ⟨by simp, by simp, List.nodup_nil, by simp⟩
    | succ bound ih =>
        rw [List.range_succ, List.foldl_append]
        exact ih.gatherAt
  exact hBelow _

end Pending

section Take

variable {txId : Hash} {oldestAttestation : Nat}

theorem takePending_frame (atomizer : Atomizer) (offset : Nat) :
    (takePending txId oldestAttestation atomizer offset).spent = atomizer.spent ∧
      (takePending txId oldestAttestation atomizer offset).bestHeight = atomizer.bestHeight ∧
      (takePending txId oldestAttestation atomizer offset).spentCacheDepth =
        atomizer.spentCacheDepth ∧
      (takePending txId oldestAttestation atomizer offset).txs =
        atomizer.txs.modify offset fun slot => slot.erase txId := by
  unfold takePending
  dsimp only
  split
  · split <;> exact ⟨rfl, rfl, rfl, rfl⟩
  · exact ⟨rfl, rfl, rfl, rfl⟩

theorem pendingAt_takePending (atomizer : Atomizer) (offset other : Nat) (otherId : Hash) :
    (takePending txId oldestAttestation atomizer offset).pendingAt other otherId =
      if other = offset ∧ otherId = txId then none else atomizer.pendingAt other otherId := by
  rw [pendingAt, (takePending_frame atomizer offset).2.2.2, List.getElem?_modify]
  by_cases hOffset : offset = other
  · subst hOffset
    rw [pendingAt]
    cases atomizer.txs[offset]? with
    | none => simp
    | some slot =>
        by_cases hId : otherId = txId
        · subst hId
          simp [Finmap.lookup_erase]
        · simp [hId, Finmap.lookup_erase_ne hId]
  · rw [if_neg (fun hBoth => hOffset hBoth.1.symm), pendingAt]
    simp [hOffset]

theorem completeTxs_takePending (atomizer : Atomizer) (offset : Nat) :
    (takePending txId oldestAttestation atomizer offset).completeTxs =
      atomizer.completeTxs ++ if offset = oldestAttestation then
        ((atomizer.pendingAt offset txId).map Prod.fst).toList else [] := by
  unfold takePending
  dsimp only
  split
  · cases atomizer.pendingAt offset txId <;> simp [pushComplete]
  · simp

/-- The loop clears the entries of one transaction, and takes the key of one. -/
theorem foldl_takePending {offsets : List Nat} (hNodup : offsets.Nodup) (atomizer : Atomizer) :
    (∀ other otherId, (offsets.foldl (takePending txId oldestAttestation) atomizer).pendingAt
      other otherId = if other ∈ offsets ∧ otherId = txId then none
        else atomizer.pendingAt other otherId) ∧
    (offsets.foldl (takePending txId oldestAttestation) atomizer).completeTxs =
      atomizer.completeTxs ++ (if oldestAttestation ∈ offsets then
        ((atomizer.pendingAt oldestAttestation txId).map Prod.fst).toList else []) ∧
    (offsets.foldl (takePending txId oldestAttestation) atomizer).spent = atomizer.spent ∧
    (offsets.foldl (takePending txId oldestAttestation) atomizer).bestHeight =
      atomizer.bestHeight ∧
    (offsets.foldl (takePending txId oldestAttestation) atomizer).spentCacheDepth =
      atomizer.spentCacheDepth := by
  induction offsets generalizing atomizer with
  | nil => simp
  | cons offset rest ih =>
      obtain ⟨hNotMem, hRest⟩ := List.nodup_cons.mp hNodup
      obtain ⟨hPending, hComplete, hSpent, hHeight, hDepth⟩ :=
        ih hRest (takePending txId oldestAttestation atomizer offset)
      obtain ⟨hSpentHere, hHeightHere, hDepthHere, _⟩ :=
        @takePending_frame txId oldestAttestation atomizer offset
      rw [List.foldl_cons]
      refine ⟨fun other otherId => ?_, ?_, hSpent.trans hSpentHere, hHeight.trans hHeightHere,
        hDepth.trans hDepthHere⟩
      · rw [hPending, pendingAt_takePending]
        by_cases hId : otherId = txId
        · by_cases hOther : other = offset <;> simp [hId, hOther]
        · simp [hId]
      · rw [hComplete, completeTxs_takePending, pendingAt_takePending, List.append_assoc]
        congr 1
        by_cases hOldest : oldestAttestation = offset
        · subst hOldest
          simp [hNotMem]
        · simp [hOldest, Ne.symm hOldest]

end Take

section Safety

variable {atomizer : Atomizer} {tx : CompactTx}

theorem checkSlot_isOk {slot : Option (Finset Hash)} {inputs : List Hash}
    (h : inputs = [] ∨ ∃ spent, slot = some spent) (errSet : Finset Hash) :
    ∃ found, checkSlot slot inputs errSet = .ok found := by
  induction inputs generalizing errSet with
  | nil => exact ⟨errSet, rfl⟩
  | cons inp rest ih =>
      obtain hNil | ⟨spent, rfl⟩ := h
      · cases hNil
      · exact ih (Or.inr ⟨spent, rfl⟩) _

theorem checkSlots_isOk {offsets : List Nat}
    (h : tx.inputs = [] ∨ ∀ offset ∈ offsets, offset ≤ atomizer.spentCacheDepth)
    (errSet : Finset Hash) : ∃ found, atomizer.checkSlots tx offsets errSet = .ok found := by
  induction offsets generalizing errSet with
  | nil => exact ⟨errSet, rfl⟩
  | cons offset rest ih =>
      have hSlot : tx.inputs = [] ∨ ∃ spent, atomizer.spent[offset]? = some spent := by
        refine h.imp_right fun hAll => ⟨_, List.getElem?_eq_getElem ?_⟩
        rw [atomizer.spent_length]
        exact Nat.lt_succ_of_le (hAll offset List.mem_cons_self)
      obtain ⟨found, hFound⟩ := checkSlot_isOk hSlot errSet
      rw [checkSlots, hFound]
      exact ih (h.imp_right fun hAll later hLater => hAll later (List.mem_cons_of_mem _ hLater)) _

/-- The search of the spent cache ends inside the cache exactly under these
conditions on the last offset it searches. -/
theorem checkStxoCache_isOk_iff (tx : CompactTx) (cacheCheckRange : Nat) :
    (∃ result, atomizer.checkStxoCache tx cacheCheckRange = .ok result) ↔
      (tx.inputs = [] → cacheCheckRange + 1 < 2 ^ 64) ∧
        (tx.inputs ≠ [] → cacheCheckRange ≤ atomizer.spentCacheDepth) := by
  constructor
  · rintro ⟨result, h⟩
    rw [checkStxoCache] at h
    split at h
    · cases h
    case isFalse hEnds =>
        refine ⟨fun hNil => Nat.lt_of_not_le fun hLe => hEnds ⟨hNil, hLe⟩, fun hInputs => ?_⟩
        split at h
        · cases h
        case h_2 found hFound =>
            obtain ⟨inp, hInp⟩ := List.exists_mem_of_ne_nil _ hInputs
            obtain ⟨spent, hSpent, _⟩ := (checkSlots_ok hFound).2 cacheCheckRange
              (List.mem_range.mpr (Nat.lt_succ_self _)) inp hInp
            have hLt := (List.getElem?_eq_some_iff.mp hSpent).1
            rw [atomizer.spent_length] at hLt
            omega
  · rintro ⟨hEnds, hSlots⟩
    rw [checkStxoCache, if_neg (fun hBoth => by have := hEnds hBoth.1; omega)]
    have hCovered : tx.inputs = [] ∨
        ∀ offset ∈ List.range (cacheCheckRange + 1), offset ≤ atomizer.spentCacheDepth := by
      by_cases hNil : tx.inputs = []
      · exact Or.inl hNil
      · refine Or.inr fun offset hOffset => ?_
        have hLast := hSlots hNil
        have hLt := List.mem_range.mp hOffset
        omega
    obtain ⟨found, hFound⟩ := checkSlots_isOk hCovered ∅
    rw [hFound]
    exact ⟨_, rfl⟩

theorem checkNotificationOffset_eq_some {heightOffset : Nat} {err : TxError} :
    atomizer.checkNotificationOffset heightOffset tx = some err ↔
      (atomizer.spentCacheDepth < heightOffset ∧ tx.inputs ≠ []) ∧ err = ⟨tx.id, .stxoRange⟩ := by
  rw [checkNotificationOffset]
  split
  case isTrue h => simp [h, eq_comm]
  case isFalse h => simp [h]

theorem checkNotificationOffset_of_le {heightOffset : Nat}
    (h : heightOffset ≤ atomizer.spentCacheDepth) :
    atomizer.checkNotificationOffset heightOffset tx = none :=
  if_neg fun hBeyond => by omega

/-- A notification without inputs is not refused for its height. -/
theorem checkNotificationOffset_of_nil {heightOffset : Nat} (h : tx.inputs = []) :
    atomizer.checkNotificationOffset heightOffset tx = none :=
  if_neg fun hBeyond => hBeyond.2 h

variable {blockHeight : Nat} {attestations : Finset Nat}

/-- `insert` for a height whose slot is in the cache. -/
theorem insert_eq_of_le
    (h : atomizer.getNotificationOffset blockHeight ≤ atomizer.spentCacheDepth) :
    atomizer.insert blockHeight tx attestations =
      (atomizer.notify (atomizer.getNotificationOffset blockHeight) tx attestations).completePending
        (mergeEntry (atomizer.pendingAt (atomizer.getNotificationOffset blockHeight) tx.id) tx
          attestations).1 tx.id := by
  obtain ⟨slot, hSlot⟩ := exists_slot h
  simp only [Atomizer.insert, checkNotificationOffset_of_le h, hSlot, notify, pendingAt,
    Option.bind_some]

/-- A search that `insert` makes stays inside the cache, since it goes no
further than the oldest slot with an entry. -/
theorem gather_oldest_le (atomizer : Atomizer) {offset : Nat} {txId : Hash}
    {entry : CompactTx × Finset Nat} (h : atomizer.pendingAt offset txId = some entry) :
    (atomizer.gather txId).oldestAttestation ≤ atomizer.spentCacheDepth := by
  have hGathers := gathers_gather atomizer txId
  have hWithin := le_of_pendingAt h
  have hMem := (hGathers.txIts offset).mpr ⟨by omega, entry, h⟩
  obtain ⟨hLt, _⟩ := (hGathers.txIts _).mp (hGathers.oldest offset hMem).2
  omega

theorem completePending_isOk {offset : Nat} {txId : Hash} {entry : CompactTx × Finset Nat}
    (hDepth : atomizer.spentCacheDepth + 1 < 2 ^ 64)
    (h : atomizer.pendingAt offset txId = some entry) (tx : CompactTx) :
    ∃ result, atomizer.completePending tx txId = .ok result := by
  have hOldest := gather_oldest_le atomizer h
  obtain ⟨result, hResult⟩ := (checkStxoCache_isOk_iff tx _).mpr
    ⟨fun _ => Nat.lt_of_le_of_lt (Nat.succ_le_succ hOldest) hDepth, fun _ => hOldest⟩
  rw [completePending]
  split
  · rw [hResult]
    cases result <;> exact ⟨_, rfl⟩
  · exact ⟨_, rfl⟩

theorem insert_isOk_of_le (hDepth : atomizer.spentCacheDepth + 1 < 2 ^ 64)
    (h : atomizer.getNotificationOffset blockHeight ≤ atomizer.spentCacheDepth) :
    ∃ result, atomizer.insert blockHeight tx attestations = .ok result := by
  have hEntry := pendingAt_notify h tx attestations
    (atomizer.getNotificationOffset blockHeight) tx.id
  rw [if_pos ⟨rfl, rfl⟩] at hEntry
  rw [insert_eq_of_le h]
  refine completePending_isOk ?_ hEntry _
  rwa [(notify_frame _ tx attestations).2.2.2]

/-- `insert` returns unless a transaction without inputs is filed at an offset that no slot
has. -/
theorem insert_isOk_iff (hDepth : atomizer.spentCacheDepth + 1 < 2 ^ 64) :
    (∃ result, atomizer.insert blockHeight tx attestations = .ok result) ↔
      (tx.inputs = [] →
        atomizer.getNotificationOffset blockHeight ≤ atomizer.spentCacheDepth) := by
  by_cases hWithin : atomizer.getNotificationOffset blockHeight ≤ atomizer.spentCacheDepth
  · exact iff_of_true (insert_isOk_of_le hDepth hWithin) fun _ => hWithin
  · by_cases hNil : tx.inputs = []
    · have hSlot : atomizer.txs[atomizer.getNotificationOffset blockHeight]? = none :=
        List.getElem?_eq_none_iff.mpr (by rw [atomizer.txs_length]; omega)
      refine iff_of_false ?_ fun h => hWithin (h hNil)
      simp [Atomizer.insert, checkNotificationOffset_of_nil hNil, hSlot]
    · have hErr := checkNotificationOffset_eq_some.mpr
        ⟨⟨Nat.lt_of_not_le hWithin, hNil⟩, Eq.refl (⟨tx.id, .stxoRange⟩ : TxError)⟩
      refine iff_of_true ⟨(atomizer, some ⟨tx.id, .stxoRange⟩), ?_⟩ fun h => absurd h hNil
      simp only [Atomizer.insert, hErr]

/-- `insert_complete` returns unless its loop over the offsets has no end, for which the
transaction must have no inputs. -/
theorem insertComplete_isOk_iff {oldestAttestation : Nat} :
    (∃ result, atomizer.insertComplete oldestAttestation tx = .ok result) ↔
      (tx.inputs = [] → atomizer.getNotificationOffset oldestAttestation + 1 < 2 ^ 64) := by
  rw [insertComplete]
  cases hCheck : atomizer.checkNotificationOffset
      (atomizer.getNotificationOffset oldestAttestation) tx with
  | some err =>
      have hInputs := (checkNotificationOffset_eq_some.mp hCheck).1.2
      exact iff_of_true ⟨_, rfl⟩ fun hNil => absurd hNil hInputs
  | none =>
      have hWithin : tx.inputs ≠ [] →
          atomizer.getNotificationOffset oldestAttestation ≤ atomizer.spentCacheDepth := by
        intro hInputs
        by_contra hBeyond
        rw [checkNotificationOffset_eq_some.mpr ⟨⟨Nat.lt_of_not_le hBeyond, hInputs⟩, rfl⟩]
          at hCheck
        cases hCheck
      have hCache := @checkStxoCache_isOk_iff atomizer tx
        (atomizer.getNotificationOffset oldestAttestation)
      rw [and_iff_left hWithin] at hCache
      rw [← hCache]
      cases atomizer.checkStxoCache tx (atomizer.getNotificationOffset oldestAttestation) with
      | error fault => simp
      | ok result => cases result <;> simp

/-- Both insertions end inside the caches unless the transaction has no inputs.
Then `insert` needs a height that the cache reaches, and `insert_complete` one
that is not the next height, for which the offset is the last 64-bit integer. -/
theorem insertion_safe_iff (hDepth : atomizer.spentCacheDepth + 1 < 2 ^ 64)
    (hHeight : atomizer.bestHeight < 2 ^ 64) (hBlock : blockHeight < 2 ^ 64) :
    ((∃ result, atomizer.insert blockHeight tx attestations = .ok result) ↔
      (tx.inputs = [] →
        atomizer.getNotificationOffset blockHeight ≤ atomizer.spentCacheDepth)) ∧
    ((∃ result, atomizer.insertComplete blockHeight tx = .ok result) ↔
      (tx.inputs = [] → blockHeight ≠ (atomizer.bestHeight + 1) % 2 ^ 64)) := by
  refine ⟨insert_isOk_iff hDepth, insertComplete_isOk_iff.trans (imp_congr_right fun _ => ?_)⟩
  rw [getNotificationOffset]
  split <;> omega

/-- A mint transaction with the height of an early block, and one with the next
height. -/
theorem insertion_unsafe_without_inputs :
    (Atomizer.new 5 2).insert 1 (.unattested (.ofByte 1) [] [.ofByte 2]) ∅ =
        .error .outOfBounds ∧
      (Atomizer.new 5 2).insertComplete 6 (.unattested (.ofByte 1) [] [.ofByte 2]) =
        .error .endlessLoop :=
  ⟨rfl, rfl⟩

theorem insertion_safe_iff_spend :
    (∃ result, (Atomizer.new 5 2).insert 1 (.unattested (.ofByte 1) [.ofByte 3] []) {0} =
        .ok result) ∧
      ∃ result, (Atomizer.new 5 2).insertComplete 6 (.unattested (.ofByte 1) [.ofByte 3] []) =
        .ok result :=
  ⟨(insertion_safe_iff (by decide) (by decide) (by decide)).1.mpr (by simp [CompactTx.unattested]),
    (@insertion_safe_iff (.new 5 2) (.unattested (.ofByte 1) [.ofByte 3] []) 6 ∅ (by decide)
      (by decide) (by decide)).2.mpr (by simp [CompactTx.unattested])⟩

end Safety

section Effect

variable {atomizer next : Atomizer} {tx checked : CompactTx} {txId : Hash}

/-- A pending transaction has been moved to the complete ones. The one that was
checked and the one that was moved are keys of different slots. -/
structure Completes (atomizer : Atomizer) (checked : CompactTx) (txId : Hash) (next : Atomizer)
    (moved : CompactTx) : Prop where
  full : (atomizer.gather txId).totalAttestations.card = checked.inputs.length
  unspent : ∀ offset ≤ (atomizer.gather txId).oldestAttestation, ∀ inp ∈ checked.inputs,
    ∃ spent, atomizer.spent[offset]? = some spent ∧ inp ∉ spent
  oldest : ∃ attested, atomizer.pendingAt (atomizer.gather txId).oldestAttestation txId =
    some (moved, attested)
  pendingAt : ∀ offset otherId, next.pendingAt offset otherId =
    if otherId = txId then none else atomizer.pendingAt offset otherId
  completeTxs : next.completeTxs = atomizer.completeTxs ++ [moved]
  spent : next.spent = atomizer.spent.modify 0 (· ∪ checked.inputs.toFinset)
  bestHeight : next.bestHeight = atomizer.bestHeight
  spentCacheDepth : next.spentCacheDepth = atomizer.spentCacheDepth

/-- The loop that clears the entries, after the checks have been passed. -/
theorem completes_takeAll {offset : Nat} {entry : CompactTx × Finset Nat}
    (hEntry : atomizer.pendingAt offset txId = some entry)
    (hFull : (atomizer.gather txId).totalAttestations.card = checked.inputs.length)
    (hCache : atomizer.checkStxoCache checked (atomizer.gather txId).oldestAttestation = .ok none) :
    ∃ moved, Completes atomizer checked txId ((atomizer.gather txId).txIts.foldl
      (takePending txId (atomizer.gather txId).oldestAttestation)
        (atomizer.addTxToStxoCache checked)) moved := by
  have hGathers := gathers_gather atomizer txId
  have hBound := le_of_pendingAt hEntry
  have hMem := (hGathers.txIts offset).mpr ⟨by omega, entry, hEntry⟩
  have hOldest := (hGathers.oldest offset hMem).2
  obtain ⟨_, ⟨moved, attested⟩, hMoved⟩ := (hGathers.txIts _).mp hOldest
  obtain ⟨hPending, hComplete, hSpent, hHeight, hDepth⟩ :=
    @foldl_takePending txId (atomizer.gather txId).oldestAttestation _ hGathers.nodup
      (atomizer.addTxToStxoCache checked)
  -- The spent cache is no part of the pending entries.
  have hSame : ∀ other otherId, (atomizer.addTxToStxoCache checked).pendingAt other otherId =
      atomizer.pendingAt other otherId := fun _ _ => rfl
  refine ⟨moved, hFull, unspent_of_checkStxoCache hCache, ⟨attested, hMoved⟩,
    fun other otherId => ?_, ?_, hSpent, hHeight, hDepth⟩
  · rw [hPending, hSame]
    by_cases hId : otherId = txId
    · rw [if_pos hId]
      split
      · rfl
      case isFalse hNot =>
          cases hOther : atomizer.pendingAt other otherId with
          | none => rfl
          | some found =>
              have hWithin := le_of_pendingAt hOther
              rw [hId] at hOther
              exact absurd ⟨(hGathers.txIts other).mpr ⟨by omega, found, hOther⟩, hId⟩ hNot
    · rw [if_neg hId, if_neg fun hBoth => hId hBoth.2]
  · rw [hComplete, if_pos hOldest, hSame, hMoved]
    rfl

/-- A pending transaction either waits for more attestations or is completed. -/
theorem completePending_cases {offset : Nat} {entry : CompactTx × Finset Nat}
    {err : Option TxError} (hEntry : atomizer.pendingAt offset txId = some entry)
    (h : atomizer.completePending checked txId = .ok (next, err)) :
    next = atomizer ∨ ∃ moved, Completes atomizer checked txId next moved := by
  rw [completePending] at h
  split at h
  case isTrue hFull =>
      split at h
      · cases h
      · exact Or.inl (Prod.mk.inj (Except.ok.inj h)).1.symm
      case h_3 hCache =>
          rw [← (Prod.mk.inj (Except.ok.inj h)).1]
          exact Or.inr (completes_takeAll hEntry hFull hCache)
  case isFalse => exact Or.inl (Prod.mk.inj (Except.ok.inj h)).1.symm

/-- The key under which the transaction of a notification is filed and checked. -/
def filedAs (atomizer : Atomizer) (blockHeight : Nat) (tx : CompactTx) : CompactTx :=
  ((atomizer.pendingAt (atomizer.getNotificationOffset blockHeight) tx.id).map Prod.fst).getD tx

theorem mergeEntry_fst (known : Option (CompactTx × Finset Nat)) (tx : CompactTx)
    (attestations : Finset Nat) :
    (mergeEntry known tx attestations).1 = (known.map Prod.fst).getD tx := by
  cases known <;> rfl

/-- All that a notification can do: it is refused for its height, or it is
filed, and then the transaction may be complete. -/
theorem insert_cases {blockHeight : Nat} {attestations : Finset Nat} {err : Option TxError}
    (h : atomizer.insert blockHeight tx attestations = .ok (next, err)) :
    (atomizer.spentCacheDepth < atomizer.getNotificationOffset blockHeight ∧ next = atomizer) ∨
    (atomizer.getNotificationOffset blockHeight ≤ atomizer.spentCacheDepth ∧
      (next = atomizer.notify (atomizer.getNotificationOffset blockHeight) tx attestations ∨
      ∃ moved, Completes
        (atomizer.notify (atomizer.getNotificationOffset blockHeight) tx attestations)
        (atomizer.filedAs blockHeight tx) tx.id next moved)) := by
  by_cases hWithin : atomizer.getNotificationOffset blockHeight ≤ atomizer.spentCacheDepth
  · have hEntry := pendingAt_notify hWithin tx attestations
      (atomizer.getNotificationOffset blockHeight) tx.id
    rw [if_pos ⟨rfl, rfl⟩] at hEntry
    rw [insert_eq_of_le hWithin, mergeEntry_fst] at h
    exact Or.inr ⟨hWithin, completePending_cases hEntry h⟩
  · refine Or.inl ⟨Nat.lt_of_not_le hWithin, ?_⟩
    rw [Atomizer.insert] at h
    split at h
    · exact (Prod.mk.inj (Except.ok.inj h)).1.symm
    · have hSlot : atomizer.txs[atomizer.getNotificationOffset blockHeight]? = none :=
        List.getElem?_eq_none_iff.mpr (by rw [atomizer.txs_length]; omega)
      rw [hSlot] at h
      cases h

end Effect

end OpenCbdc.Atomizer
