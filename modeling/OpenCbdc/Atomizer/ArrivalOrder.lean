import OpenCbdc.Atomizer.Archiver

/-! Blocks that reach the archiver in any order, several times or not at all.
There is one block for each height; what the archiver holds in the end depends
only on the heights that it has received. -/
namespace OpenCbdc.Archiver

/-- `digest_block` returns with this result. There is one constructor for each
way through the function, and no bound on the recursion. -/
inductive Returns : Archiver → Block → Archiver × List AtomizerStateMachine.Request → Prop where
  | duplicate {archiver : Archiver} {blk : Block}
      (old : blk.height ≤ archiver.readBestHeight.bestHeight) :
      Returns archiver blk (archiver.readBestHeight, [])
  | early {archiver : Archiver} {blk : Block}
      (gap : archiver.readBestHeight.bestHeight + 1 < blk.height) :
      Returns archiver blk (archiver.readBestHeight.defer blk,
        if blk.height - 1 ∈ archiver.readBestHeight.deferred then []
        else [.getBlock (blk.height - 1)])
  | last {archiver : Archiver} {blk : Block}
      (fits : blk.height = archiver.readBestHeight.bestHeight + 1)
      (none : archiver.readBestHeight.deferred.lookup (blk.height + 1) = none) :
      Returns archiver blk (archiver.readBestHeight.store blk,
        [.prune (archiver.readBestHeight.bestHeight + 1)])
  | further {archiver : Archiver} {blk next : Block}
      {result : Archiver × List AtomizerStateMachine.Request}
      (fits : blk.height = archiver.readBestHeight.bestHeight + 1)
      (some : archiver.readBestHeight.deferred.lookup (blk.height + 1) = some next)
      (returns : Returns (archiver.readBestHeight.store blk) next result) :
      Returns archiver blk (result.1,
        .prune (archiver.readBestHeight.bestHeight + 1) :: result.2)

/-- An archiver that was opened with the blocks up to some height. The height in
memory is read from the database now or with the first block. -/
structure Opened (archiver : Archiver) : Prop where
  stored : ∀ height, height ∈ archiver.db ↔ 1 ≤ height ∧ height ≤ archiver.dbBestHeight
  best : archiver.bestHeight = 0 ∨ archiver.bestHeight = archiver.dbBestHeight
  deferred : archiver.deferred = ∅

def digestBlocks (archiver : Archiver) (blks : List Block) : Archiver :=
  blks.foldl (fun archiver blk => (archiver.digestBlock blk).1) archiver

theorem digestBlocks_concat (archiver : Archiver) (blks : List Block) (blk : Block) :
    archiver.digestBlocks (blks ++ [blk]) = ((archiver.digestBlocks blks).digestBlock blk).1 := by
  rw [digestBlocks, List.foldl_append]
  rfl

section Invariant

variable {chain : Nat → Block} {opened archiver : Archiver} {received : List Nat} {blk : Block}

structure Stores (chain : Nat → Block) (opened : Archiver) (received : List Nat)
    (archiver : Archiver) : Prop where
  best : archiver.bestHeight = archiver.dbBestHeight
  grown : opened.dbBestHeight ≤ archiver.bestHeight
  covered : ∀ height, opened.dbBestHeight < height → height ≤ archiver.bestHeight →
    height ∈ received
  db : ∀ height, archiver.db.lookup height =
    if height ≤ opened.dbBestHeight then opened.db.lookup height
    else if height ≤ archiver.bestHeight then some (chain height) else none

/-- The state between two calls, from the heights that were received. -/
structure Settles (chain : Nat → Block) (opened : Archiver) (received : List Nat)
    (archiver : Archiver) : Prop extends Stores chain opened received archiver where
  next : archiver.bestHeight + 1 ∉ received
  deferred : ∀ height blk, archiver.deferred.lookup height = some blk ↔
    blk = chain height ∧ archiver.bestHeight + 1 < height ∧ height ∈ received

/-- The state during a call. The block in hand may be deferred already, and no
other block fits. -/
structure Handles (chain : Nat → Block) (opened : Archiver) (received : List Nat)
    (archiver : Archiver) (blk : Block) : Prop extends Stores chain opened received archiver where
  block : blk = chain blk.height
  hand : blk.height ∈ received
  fits : archiver.bestHeight + 1 ∈ received → blk.height = archiver.bestHeight + 1
  known : ∀ height other, archiver.deferred.lookup height = some other →
    other = chain height ∧ archiver.bestHeight < height ∧ height ∈ received
  others : ∀ height ∈ received, archiver.bestHeight < height → height ≠ blk.height →
    archiver.deferred.lookup height = some (chain height)

theorem readBestHeight_deferred (archiver : Archiver) :
    archiver.readBestHeight.deferred = archiver.deferred := by
  unfold readBestHeight
  split <;> rfl

/-- An archiver that was just opened has received nothing, and nothing is deferred. -/
theorem Opened.settles (h : Opened opened) : Settles chain opened [] opened.readBestHeight := by
  have hBest : opened.readBestHeight.bestHeight = opened.dbBestHeight := by
    unfold readBestHeight
    split
    · rfl
    case isFalse hSet => exact h.best.resolve_left hSet
  have hFrame : opened.readBestHeight.dbBestHeight = opened.dbBestHeight ∧
      opened.readBestHeight.db = opened.db := by
    unfold readBestHeight
    split <;> exact ⟨rfl, rfl⟩
  refine ⟨⟨hBest.trans hFrame.1.symm, hBest.symm.le, fun height hLow hHigh => ?_, fun height => ?_⟩,
    by simp, fun height blk => ?_⟩
  · omega
  · rw [hFrame.2, hBest]
    by_cases hHeight : height ≤ opened.dbBestHeight
    · rw [if_pos hHeight]
    · rw [if_neg hHeight, if_neg hHeight, Finmap.lookup_eq_none, h.stored]
      omega
  · rw [readBestHeight_deferred, h.deferred]
    simp

/-- A new block is taken in hand. -/
theorem Settles.handles (h : Settles chain opened received archiver)
    (hBlk : blk = chain blk.height) :
    Handles chain opened (received ++ [blk.height]) archiver blk where
  best := h.best
  grown := h.grown
  covered height hLow hHigh := List.mem_append_left _ (h.covered height hLow hHigh)
  db := h.db
  block := hBlk
  hand := List.mem_append_right _ (List.mem_singleton_self _)
  fits hNext := by
    rcases List.mem_append.mp hNext with hOld | hNew
    · exact absurd hOld h.next
    · exact (List.mem_singleton.mp hNew).symm
  known height other hLookup := by
    obtain ⟨hOther, hAbove, hMem⟩ := (h.deferred height other).mp hLookup
    exact ⟨hOther, by omega, List.mem_append_left _ hMem⟩
  others height hMem hAbove hNe := by
    have hOld : height ∈ received := (List.mem_append.mp hMem).resolve_right
      fun hNew => hNe (List.mem_singleton.mp hNew)
    have hNext : height ≠ archiver.bestHeight + 1 := fun hSame => h.next (hSame ▸ hOld)
    exact (h.deferred height _).mpr ⟨rfl, by omega, hOld⟩

/-- No received block but the one in hand fits. -/
theorem Handles.ne_next (h : Handles chain opened received archiver blk)
    (hHand : blk.height ≠ archiver.bestHeight + 1) {height : Nat} (hMem : height ∈ received) :
    height ≠ archiver.bestHeight + 1 := by
  rintro rfl
  exact hHand (h.fits hMem)

/-- A block that is stored already changes nothing. -/
theorem Handles.duplicate (h : Handles chain opened received archiver blk)
    (hOld : blk.height ≤ archiver.bestHeight) : Settles chain opened received archiver where
  toStores := h.toStores
  next hNext := h.ne_next (by omega) hNext rfl
  deferred height other := by
    constructor
    · intro hLookup
      obtain ⟨hOther, hAbove, hMem⟩ := h.known height other hLookup
      have hNext := h.ne_next (by omega) hMem
      exact ⟨hOther, by omega, hMem⟩
    · rintro ⟨rfl, hAbove, hMem⟩
      exact h.others height hMem (by omega) (by omega)

/-- A block that comes too early joins the deferred ones. -/
theorem Handles.defer (h : Handles chain opened received archiver blk)
    (hGap : archiver.bestHeight + 1 < blk.height) :
    Settles chain opened received (archiver.defer blk) where
  best := h.best
  grown := h.grown
  covered := h.covered
  db := h.db
  next hNext := h.ne_next (by omega) hNext rfl
  deferred height other := by
    constructor
    · intro hLookup
      rcases Table.of_lookup_emplace hLookup with ⟨rfl, rfl⟩ | hKnown
      · exact ⟨h.block, hGap, h.hand⟩
      · obtain ⟨hOther, hAbove, hMem⟩ := h.known height other hKnown
        have hNext := h.ne_next (by omega) hMem
        exact ⟨hOther, by simp only [Archiver.defer]; omega, hMem⟩
    · rintro ⟨rfl, hAbove, hMem⟩
      simp only [Archiver.defer] at hAbove
      by_cases hHand : height = blk.height
      · cases hKnown : archiver.deferred.lookup height with
        | none =>
            rw [hHand] at hKnown
            rw [Archiver.defer, hHand, Table.lookup_emplace_self blk hKnown, ← h.block]
        | some other =>
            rw [Archiver.defer, Table.lookup_emplace_of_lookup _ _ hKnown,
              (h.known height other hKnown).1]
      · rw [Archiver.defer, Table.lookup_emplace_of_ne _ _ hHand]
        exact h.others height hMem (by omega) hHand

/-- The block that follows the best height extends the stored chain by one. -/
theorem Stores.store (h : Stores chain opened received archiver) (hBlk : blk = chain blk.height)
    (hMem : blk.height ∈ received) (hFits : blk.height = archiver.bestHeight + 1) :
    Stores chain opened received (archiver.store blk) where
  best := hFits.symm
  grown := h.grown.trans (Nat.le_succ _)
  covered height hLow hHigh := by
    simp only [Archiver.store] at hHigh
    rcases Nat.lt_or_eq_of_le hHigh with hBelow | hSame
    · exact h.covered height hLow (Nat.le_of_lt_succ hBelow)
    · rw [hSame, ← hFits]
      exact hMem
  db height := by
    have hGrown := h.grown
    show (archiver.db.insert blk.height blk).lookup height =
      if height ≤ opened.dbBestHeight then opened.db.lookup height
      else if height ≤ archiver.bestHeight + 1 then some (chain height) else none
    by_cases hSame : height = blk.height
    · have hAbove : ¬blk.height ≤ opened.dbBestHeight := by omega
      rw [hSame, Finmap.lookup_insert, if_neg hAbove, if_pos hFits.le, ← hBlk]
    · rw [Finmap.lookup_insert_of_ne _ hSame, h.db]
      have hBound : height ≤ archiver.bestHeight + 1 ↔ height ≤ archiver.bestHeight := by omega
      simp only [hBound]

/-- The block after the stored one was deferred and is taken in hand. -/
theorem Handles.store (h : Handles chain opened received archiver blk)
    (hHeights : ∀ height, (chain height).height = height)
    (hFits : blk.height = archiver.bestHeight + 1) {next : Block}
    (hNext : archiver.deferred.lookup (blk.height + 1) = some next) :
    Handles chain opened received (archiver.store blk) next := by
  obtain ⟨rfl, _, hMem⟩ := h.known _ next hNext
  have hKey : (chain (blk.height + 1)).height = blk.height + 1 := hHeights _
  refine ⟨h.toStores.store h.block h.hand hFits, by rw [hKey], by rwa [hKey], fun _ => ?_, ?_, ?_⟩
  · rw [hKey, hFits]
    rfl
  · intro height other hLookup
    obtain ⟨hNe, hBefore⟩ := Table.of_lookup_erase hLookup
    obtain ⟨hOther, hAbove, hReceived⟩ := h.known height other hBefore
    refine ⟨hOther, ?_, hReceived⟩
    simp only [Archiver.store]
    omega
  · intro height hReceived hAbove hNe
    simp only [Archiver.store] at hAbove ⊢
    have hOther : height ≠ blk.height := by omega
    rw [Finmap.lookup_erase_ne hOther]
    exact h.others height hReceived (by omega) hOther

/-- No deferred block fits any more. -/
theorem Handles.store_last (h : Handles chain opened received archiver blk)
    (hFits : blk.height = archiver.bestHeight + 1)
    (hNone : archiver.deferred.lookup (blk.height + 1) = none) :
    Settles chain opened received (archiver.store blk) := by
  have hNext : blk.height + 1 ∉ received := by
    intro hMem
    rw [h.others _ hMem (by omega) (by omega)] at hNone
    cases hNone
  refine ⟨h.toStores.store h.block h.hand hFits, ?_, fun height other => ?_⟩
  · rw [hFits] at hNext
    exact hNext
  · simp only [Archiver.store]
    constructor
    · intro hLookup
      obtain ⟨hNe, hBefore⟩ := Table.of_lookup_erase hLookup
      obtain ⟨hOther, hAbove, hMem⟩ := h.known height other hBefore
      have hGap : height ≠ blk.height + 1 := fun hSame => hNext (hSame ▸ hMem)
      exact ⟨hOther, by omega, hMem⟩
    · rintro ⟨rfl, hAbove, hMem⟩
      have hOther : height ≠ blk.height := by omega
      rw [Finmap.lookup_erase_ne hOther]
      exact h.others height hMem (by omega) hOther

end Invariant

section Calls

variable {chain : Nat → Block} {opened archiver : Archiver} {received : List Nat} {blk : Block}

/-- Every call returns, and settles what can be settled. Each further call takes
up a deferred block, so their number bounds the recursion. -/
theorem Handles.digestBlockWithin (hHeights : ∀ height, (chain height).height = height)
    (h : Handles chain opened received archiver.readBestHeight blk) {depth : Nat}
    (hDepth : (archiver.readBestHeight.deferred.keys.erase blk.height).card < depth) :
    Settles chain opened received (digestBlockWithin depth archiver blk).1 ∧
      Returns archiver blk (digestBlockWithin depth archiver blk) := by
  induction depth generalizing archiver blk with
  | zero => omega
  | succ depth ih =>
      rw [Archiver.digestBlockWithin]
      dsimp only
      split
      case isTrue hOld => exact ⟨h.duplicate hOld, .duplicate hOld⟩
      case isFalse hNew =>
          split
          case isTrue hFits =>
              split
              case h_1 hNone => exact ⟨h.store_last hFits hNone, .last hFits hNone⟩
              case h_2 next hSome =>
                  have hStore := h.store hHeights hFits hSome
                  have hRead := readBestHeight_eq hStore.best
                  have hKey : next.height = blk.height + 1 := by
                    rw [(h.known _ next hSome).1, hHeights]
                  have hDeferred : next.height ∈
                      archiver.readBestHeight.deferred.keys.erase blk.height := by
                    rw [hKey, Finset.mem_erase]
                    exact ⟨by omega, Finmap.mem_keys.mpr (Finmap.mem_iff.mpr ⟨next, hSome⟩)⟩
                  have hCard := Finset.card_erase_lt_of_mem hDeferred
                  obtain ⟨hSettles, hReturns⟩ := ih (hRead.symm ▸ hStore) (by
                    rw [hRead, Archiver.store, Finmap.keys_erase]
                    omega)
                  exact ⟨hSettles, .further hFits hSome hReturns⟩
          case isFalse hGap =>
              have hEarly : archiver.readBestHeight.bestHeight + 1 < blk.height := by omega
              exact ⟨h.defer hEarly, .early hEarly⟩

theorem Settles.digestBlock (hHeights : ∀ height, (chain height).height = height)
    (h : Settles chain opened received archiver.readBestHeight) (hBlk : blk = chain blk.height) :
    Settles chain opened (received ++ [blk.height]) (archiver.digestBlock blk).1 ∧
      Returns archiver blk (archiver.digestBlock blk) := by
  refine (h.handles hBlk).digestBlockWithin hHeights (Nat.lt_succ_of_le ?_)
  rw [readBestHeight_deferred]
  exact Finset.card_le_card (Finset.erase_subset _ _)

/-- What is known before the next block of any sequence. -/
theorem settles_digestBlocks (hHeights : ∀ height, (chain height).height = height)
    (hOpened : Opened opened) {blks : List Block} (hBlks : ∀ blk ∈ blks, blk = chain blk.height) :
    Settles chain opened (blks.map Block.height) (opened.digestBlocks blks).readBestHeight := by
  induction blks using List.reverseRecOn with
  | nil => exact hOpened.settles
  | append_singleton before blk ih =>
      have hBefore := ih fun other hOther => hBlks other (List.mem_append_left _ hOther)
      have hLast := (hBefore.digestBlock hHeights (hBlks blk (by simp))).1
      rw [digestBlocks_concat, List.map_append, readBestHeight_eq hLast.best]
      exact hLast

theorem settles_after (hHeights : ∀ height, (chain height).height = height)
    (hOpened : Opened opened) {blks : List Block} (hBlks : ∀ blk ∈ blks, blk = chain blk.height)
    (hSome : blks ≠ []) :
    Settles chain opened (blks.map Block.height) (opened.digestBlocks blks) := by
  obtain ⟨before, blk, rfl⟩ := (List.eq_nil_or_concat blks).resolve_left hSome
  rw [List.concat_eq_append] at hBlks ⊢
  have hBefore := settles_digestBlocks hHeights hOpened fun other hOther =>
    hBlks other (List.mem_append_left _ hOther)
  rw [digestBlocks_concat, List.map_append]
  exact (hBefore.digestBlock hHeights (hBlks blk (by simp))).1

theorem Settles.bestHeight_le {other : Archiver} {others : List Nat}
    (h : Settles chain opened received archiver) (hOther : Settles chain opened others other)
    (hSame : ∀ height, height ∈ received → height ∈ others) :
    archiver.bestHeight ≤ other.bestHeight := by
  by_contra hAbove
  have hGrown := hOther.grown
  exact hOther.next (hSame _ (h.covered _ (by omega) (by omega)))

/-- The state is known from the set of the heights that were received. -/
theorem Settles.unique {other : Archiver} {others : List Nat}
    (h : Settles chain opened received archiver) (hOther : Settles chain opened others other)
    (hSame : ∀ height, height ∈ received ↔ height ∈ others) : archiver = other := by
  have hBest : archiver.bestHeight = other.bestHeight :=
    Nat.le_antisymm (h.bestHeight_le hOther fun height => (hSame height).mp)
      (hOther.bestHeight_le h fun height => (hSame height).mpr)
  have hDb : archiver.db = other.db := by
    refine Finmap.ext_lookup fun height => ?_
    rw [h.db, hOther.db, hBest]
  have hDeferred : archiver.deferred = other.deferred := by
    refine Finmap.ext_lookup fun height => Option.ext fun blk => ?_
    rw [h.deferred, hOther.deferred, hBest, hSame]
  have hStored : archiver.dbBestHeight = other.dbBestHeight := by
    rw [← h.best, ← hOther.best, hBest]
  obtain ⟨db, dbBestHeight, bestHeight, deferred⟩ := archiver
  cases hBest
  cases hDb
  cases hDeferred
  cases hStored
  rfl

/-- What the archiver holds, from the heights that were received. -/
structure Archives (chain : Nat → Block) (opened : Archiver) (received : List Nat)
    (archiver : Archiver) : Prop where
  heights : ∀ height, height ∈ archiver.db ↔ 1 ≤ height ∧ height ≤ archiver.bestHeight
  blocks : ∀ height ≤ archiver.bestHeight, archiver.db.lookup height =
    if height ≤ opened.dbBestHeight then opened.db.lookup height else some (chain height)
  deferred : ∀ height ∈ archiver.deferred, archiver.bestHeight + 1 < height
  best : IsGreatest {height | opened.dbBestHeight ≤ height ∧
    ∀ other, opened.dbBestHeight < other → other ≤ height → other ∈ received} archiver.bestHeight

/-- Between two calls the archiver has stored as much as the received heights allow. -/
theorem Settles.archives (h : Settles chain opened received archiver) (hOpened : Opened opened) :
    Archives chain opened received archiver where
  heights height := by
    have hGrown := h.grown
    rw [Finmap.mem_iff, h.db]
    by_cases hLow : height ≤ opened.dbBestHeight
    · rw [if_pos hLow]
      refine (Finmap.mem_iff.symm.trans (hOpened.stored height)).trans ?_
      omega
    · rw [if_neg hLow]
      by_cases hHigh : height ≤ archiver.bestHeight
      · rw [if_pos hHigh]
        exact iff_of_true ⟨_, rfl⟩ ⟨by omega, hHigh⟩
      · rw [if_neg hHigh]
        exact iff_of_false (by simp) fun hBounds => hHigh hBounds.2
  blocks height hHeight := by rw [h.db, if_pos hHeight]
  deferred height hMem := by
    obtain ⟨blk, hLookup⟩ := Finmap.mem_iff.mp hMem
    exact ((h.deferred height blk).mp hLookup).2.1
  best := by
    refine ⟨⟨h.grown, h.covered⟩, ?_⟩
    rintro height ⟨_, hCovered⟩
    by_contra hAbove
    have hGrown := h.grown
    exact h.next (hCovered _ (by omega) (by omega))

/-- From any stored height on, and for any order of arrival: after every call the
database holds the blocks up to the best height, the deferred blocks are beyond
the next one, and the best height is as great as the received blocks allow. The
state depends only on which blocks were received, and every call returns. -/
theorem archiver_order_independent (hHeights : ∀ height, (chain height).height = height)
    (hOpened : Opened opened) {blks : List Block} (hBlks : ∀ blk ∈ blks, blk = chain blk.height)
    (hSome : blks ≠ []) :
    Archives chain opened (blks.map Block.height) (opened.digestBlocks blks) ∧
    (∀ others : List Block, (∀ blk, blk ∈ others ↔ blk ∈ blks) →
      opened.digestBlocks others = opened.digestBlocks blks) ∧
    ∀ before blk after, blks = before ++ blk :: after →
      Returns (opened.digestBlocks before) blk ((opened.digestBlocks before).digestBlock blk) := by
  refine ⟨?_, ?_, ?_⟩
  · exact (settles_after hHeights hOpened hBlks hSome).archives hOpened
  · intro others hSame
    have hOthers : others ≠ [] := by
      obtain ⟨blk, hBlk⟩ := List.exists_mem_of_ne_nil _ hSome
      exact List.ne_nil_of_mem ((hSame blk).mpr hBlk)
    refine (settles_after hHeights hOpened (fun blk hBlk => hBlks blk ((hSame blk).mp hBlk))
      hOthers).unique (settles_after hHeights hOpened hBlks hSome) fun height => ?_
    simp only [List.mem_map, hSame]
  · rintro before blk after rfl
    exact ((settles_digestBlocks hHeights hOpened fun other hOther =>
      hBlks other (List.mem_append_left _ hOther)).digestBlock hHeights (hBlks blk (by simp))).2

/-- The blocks of two heights in both orders, the first of them twice. -/
theorem archiver_order_independent_twoBlocks :
    initial.digestBlocks [⟨2, []⟩, ⟨1, []⟩, ⟨2, []⟩] = initial.digestBlocks [⟨1, []⟩, ⟨2, []⟩] := by
  have hOpened : Opened initial :=
    ⟨fun height => iff_of_false Finmap.notMem_empty fun hBounds =>
      Nat.not_succ_le_zero 0 (hBounds.1.trans hBounds.2), Or.inl rfl, rfl⟩
  refine (@archiver_order_independent (fun height => ⟨height, []⟩) initial (fun _ => rfl) hOpened
    [⟨1, []⟩, ⟨2, []⟩] (by simp) (by simp)).2.1 _ ?_
  intro blk
  simp only [List.mem_cons, List.not_mem_nil, or_false]
  tauto

end Calls

end OpenCbdc.Archiver
