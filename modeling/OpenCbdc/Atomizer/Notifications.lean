import OpenCbdc.Atomizer.AtomizerRaft
import OpenCbdc.Atomizer.Calls

/-! Which heights a node keeps for the inputs of a transaction, and when a
transaction is completed: by a node that aggregates notifications, and by the
atomizer that takes them one by one. -/
namespace OpenCbdc

namespace AttestationSet

variable {attestations : AttestationSet} {blockHeight : Nat}

/-- The first height that attests an index is the one that stays. -/
theorem lookup_insertPair (index other : Nat) :
    (attestations.insertPair blockHeight index).lookup other =
      (attestations.lookup other).or (if other = index then some blockHeight else none) := by
  rw [insertPair]
  by_cases hOther : other = index
  · subst hOther
    rw [if_pos rfl]
    by_cases hMem : other ∈ attestations
    · rw [if_pos hMem]
      obtain ⟨height, hHeight⟩ := Option.isSome_iff_exists.mp (AList.lookup_isSome.mpr hMem)
      rw [hHeight]
      rfl
    · rw [if_neg hMem, AList.lookup_insert, AList.lookup_eq_none.mpr hMem]
      rfl
  · rw [if_neg hOther, Option.or_none]
    split
    · rfl
    · exact AList.lookup_insert_ne hOther

/-- A notification is a loop over its indices. -/
def addAll (attestations : AttestationSet) (notif : TxNotifyRequest) : AttestationSet :=
  notif.attestations.foldl (fun set index => set.insertPair notif.blockHeight index) attestations

theorem lookup_addAll (attestations : AttestationSet) (notif : TxNotifyRequest) (index : Nat) :
    (attestations.addAll notif).lookup index = (attestations.lookup index).or
      (if index ∈ notif.attestations then some notif.blockHeight else none) := by
  rw [addAll]
  induction notif.attestations generalizing attestations with
  | nil => simp
  | cons first rest ih =>
      rw [List.foldl_cons, ih, lookup_insertPair, Option.or_assoc]
      congr 1
      by_cases hFirst : index = first <;> simp [hFirst]

/-- The height of the first notification that attests the index. -/
def firstHeight (notifs : List TxNotifyRequest) (index : Nat) : Option Nat :=
  (notifs.find? fun notif => index ∈ notif.attestations).map TxNotifyRequest.blockHeight

/-- The heights of all notifications that attest the index. -/
def heightsFor (notifs : List TxNotifyRequest) (index : Nat) : Set Nat :=
  {height | ∃ notif ∈ notifs, index ∈ notif.attestations ∧ notif.blockHeight = height}

/-- No notification attests an index at a greater height than the first one. -/
def FirstIsNewest (notifs : List TxNotifyRequest) : Prop :=
  ∀ index height, firstHeight notifs index = some height →
    ∀ notif ∈ notifs, index ∈ notif.attestations → notif.blockHeight ≤ height

theorem mem_heightsFor_of_firstHeight {notifs : List TxNotifyRequest} {index height : Nat}
    (h : firstHeight notifs index = some height) : height ∈ heightsFor notifs index := by
  obtain ⟨notif, hFound, hHeight⟩ := Option.map_eq_some_iff.mp h
  have hIndex := List.find?_some hFound
  exact ⟨notif, List.mem_of_find?_eq_some hFound, of_decide_eq_true hIndex, hHeight⟩

theorem exists_firstHeight {notifs : List TxNotifyRequest} {index : Nat} {notif : TxNotifyRequest}
    (hMem : notif ∈ notifs) (hIndex : index ∈ notif.attestations) :
    ∃ height, firstHeight notifs index = some height := by
  have hSome : (notifs.find? fun notif => index ∈ notif.attestations).isSome :=
    List.find?_isSome.mpr ⟨notif, hMem, decide_eq_true hIndex⟩
  obtain ⟨found, hFound⟩ := Option.isSome_iff_exists.mp hSome
  exact ⟨found.blockHeight, by rw [firstHeight, hFound, Option.map_some]⟩

/-- The first height is the greatest one under exactly this condition. -/
theorem firstHeight_greatest_iff (notifs : List TxNotifyRequest) :
    (∀ index height, firstHeight notifs index = some height ↔
      IsGreatest (heightsFor notifs index) height) ↔ FirstIsNewest notifs := by
  constructor
  · intro h index height hFirst notif hMem hIndex
    exact ((h index height).mp hFirst).2 ⟨notif, hMem, hIndex, rfl⟩
  · intro h index height
    have hGreatest : ∀ found, firstHeight notifs index = some found →
        IsGreatest (heightsFor notifs index) found := by
      intro found hFound
      refine ⟨mem_heightsFor_of_firstHeight hFound, ?_⟩
      rintro _ ⟨notif, hMem, hIndex, rfl⟩
      exact h index found hFound notif hMem hIndex
    constructor
    · exact hGreatest height
    · intro hTop
      obtain ⟨notif, hMem, hIndex, _⟩ := hTop.1
      obtain ⟨found, hFound⟩ := exists_firstHeight hMem hIndex
      rw [hFound, (hGreatest found hFound).unique hTop]

/-- Of several notifications for an index the first one stays. -/
theorem lookup_foldl_addAll (attestations : AttestationSet) (notifs : List TxNotifyRequest)
    (index : Nat) : (notifs.foldl addAll attestations).lookup index =
      (attestations.lookup index).or (firstHeight notifs index) := by
  induction notifs generalizing attestations with
  | nil => simp [firstHeight]
  | cons notif rest ih =>
      rw [List.foldl_cons, ih, lookup_addAll, Option.or_assoc, firstHeight, firstHeight]
      congr 1
      by_cases hIndex : index ∈ notif.attestations <;> simp [hIndex]

/-- The loop over the heights ends with one of them. -/
theorem foldl_older_mem (heights : List Nat) (start : Nat) :
    heights.foldl older start ∈ start :: heights := by
  induction heights generalizing start with
  | nil => exact List.mem_cons_self
  | cons first rest ih =>
      have hOlder : older start first = first ∨ older start first = start := by
        unfold older
        split <;> simp
      rw [List.foldl_cons]
      rcases List.mem_cons.mp (ih (older start first)) with hSame | hLater
      · rw [hSame]
        rcases hOlder with hFirst | hStart
        · simp [hFirst]
        · simp [hStart]
      · exact List.mem_cons_of_mem _ (List.mem_cons_of_mem _ hLater)

/-- For positive heights the result is the least of them. -/
theorem isLeast_oldest (hPositive : ∀ index height, attestations.lookup index = some height →
      0 < height) (hNonempty : attestations.entries ≠ []) :
    IsLeast {height | ∃ index, attestations.lookup index = some height} attestations.oldest := by
  have hMem : attestations.oldest ∈ attestations.entries.map Sigma.snd := by
    rw [oldest]
    cases hHeights : attestations.entries.map Sigma.snd with
    | nil => exact absurd (List.map_eq_nil_iff.mp hHeights) hNonempty
    | cons first rest => exact foldl_older_mem rest first
  obtain ⟨pair, hPair, hHeight⟩ := List.mem_map.mp hMem
  constructor
  · exact ⟨pair.1, hHeight ▸ AList.mem_lookup_iff.mpr hPair⟩
  · rintro height ⟨index, hLookup⟩
    exact oldest_le hPositive hLookup

end AttestationSet

namespace AtomizerRaft

open AttestationSet

variable {crypto : Crypto} {opts : Options} {node : AtomizerRaft} {txId : Hash}
  {notif last : TxNotifyRequest} {notifs : List TxNotifyRequest} {agg : AggregateTxNotification}

def receive (crypto : Crypto) (opts : Options) (node : AtomizerRaft)
    (notifs : List TxNotifyRequest) : AtomizerRaft :=
  notifs.foldl (txNotify crypto opts) node

/-- The notifications of a transaction that are not dropped as invalid. -/
def received (crypto : Crypto) (opts : Options) (txId : Hash) (notifs : List TxNotifyRequest) :
    List TxNotifyRequest :=
  notifs.filter fun notif => notif.tx.id = txId && checkAttestations crypto notif.tx opts

/-- The notification completes a transaction. -/
def Emits (crypto : Crypto) (opts : Options) (node : AtomizerRaft) (notif : TxNotifyRequest)
    (agg : AggregateTxNotification) : Prop :=
  (node.txNotify crypto opts notif).completeTxs = node.completeTxs ++ [agg]

section Step

theorem emits_iff : Emits crypto opts node notif agg ↔
    checkAttestations crypto notif.tx opts = true ∧
      (node.pending notif).attestations.entries.length = (node.pending notif).tx.inputs.length ∧
      agg = ⟨(node.pending notif).tx, (node.pending notif).attestations.oldest⟩ := by
  rw [Emits, txNotify]
  dsimp only
  split
  case isTrue hValid =>
      split
      case isTrue hFull => simp [hValid, hFull, eq_comm]
      case isFalse hShort => simp [hShort]
  case isFalse hInvalid => simp [hInvalid]

/-- The entry after a notification, whether the transaction was known or not. -/
theorem pending_eq : node.pending notif =
    ⟨((node.txs.lookup notif.tx.id).map PendingTx.tx).getD notif.tx,
      (((node.txs.lookup notif.tx.id).map PendingTx.attestations).getD ∅).addAll notif⟩ := by
  have hMerge : AttestationSet.merge notif.blockHeight =
      fun set index => set.insertPair notif.blockHeight index := by
    funext set index
    exact merge_eq_insertPair
  rw [pending]
  cases node.txs.lookup notif.tx.id with
  | none => rfl
  | some known =>
      rw [hMerge]
      rfl

/-- A notification that is let in updates the entry of its transaction, or takes it out when
the set of attestations is complete. -/
theorem lookup_txNotify (txId : Hash) : (node.txNotify crypto opts notif).txs.lookup txId =
    if notif.tx.id = txId ∧ checkAttestations crypto notif.tx opts = true then
      if (node.pending notif).attestations.entries.length =
          (node.pending notif).tx.inputs.length then none else some (node.pending notif)
    else node.txs.lookup txId := by
  rw [txNotify]
  by_cases hValid : checkAttestations crypto notif.tx opts = true
  · by_cases hFull : (node.pending notif).attestations.entries.length =
        (node.pending notif).tx.inputs.length
    · by_cases hId : notif.tx.id = txId
      · subst hId
        simp [hValid, hFull, Finmap.lookup_erase]
      · simp [hValid, hFull, hId, Finmap.lookup_erase_ne (Ne.symm hId)]
    · by_cases hId : notif.tx.id = txId
      · subst hId
        simp [hValid, hFull]
      · simp [hValid, hFull, hId, Finmap.lookup_insert_of_ne _ (Ne.symm hId)]
  · simp [hValid]

theorem received_concat : received crypto opts txId (notifs ++ [notif]) =
    received crypto opts txId notifs ++
      if notif.tx.id = txId ∧ checkAttestations crypto notif.tx opts = true then [notif]
      else [] := by
  rw [received, received, List.filter_append, List.filter_singleton]
  simp

end Step

section Heights

/-- No notification of the sequence completes the transaction. -/
def Unfinished (crypto : Crypto) (opts : Options) (txId : Hash) (node : AtomizerRaft)
    (notifs : List TxNotifyRequest) : Prop :=
  ∀ before notif after agg, notifs = before ++ notif :: after →
    Emits crypto opts (node.receive crypto opts before) notif agg → notif.tx.id ≠ txId

/-- The entry of a transaction that a node has not known before: it stands under
the first notification, with the height of the first one for each index. -/
def entryOf (notifs : List TxNotifyRequest) : Option PendingTx :=
  notifs.head?.map fun first => ⟨first.tx, notifs.foldl addAll ∅⟩

theorem pending_of_lookup (hNode : node.txs.lookup notif.tx.id = entryOf notifs) :
    some (node.pending notif) = entryOf (notifs ++ [notif]) := by
  rw [pending_eq, hNode, entryOf, entryOf]
  cases notifs with
  | nil => rfl
  | cons first rest => simp [List.foldl_append]

/-- What a node holds of an unfinished transaction is determined by the notifications it has
let in. -/
theorem lookup_receive (hFresh : node.txs.lookup txId = none)
    (h : Unfinished crypto opts txId node notifs) :
    (node.receive crypto opts notifs).txs.lookup txId =
      entryOf (received crypto opts txId notifs) := by
  induction notifs using List.reverseRecOn with
  | nil => exact hFresh
  | append_singleton before notif ih =>
      have hBefore := ih fun first other rest agg hSplit =>
        h first other (rest ++ [notif]) agg (by simp [hSplit])
      rw [receive, List.foldl_append, List.foldl_cons, List.foldl_nil, ← receive, lookup_txNotify,
        received_concat]
      by_cases hHere : notif.tx.id = txId ∧ checkAttestations crypto notif.tx opts = true
      · rw [if_pos hHere, if_pos hHere]
        rw [← hHere.1] at hBefore
        rw [if_neg fun hFull =>
            h before notif [] _ rfl (emits_iff.mpr ⟨hHere.2, hFull, rfl⟩) hHere.1,
          pending_of_lookup hBefore, hHere.1]
      · rw [if_neg hHere, if_neg hHere, List.append_nil, hBefore]

theorem pending_receive (hFresh : node.txs.lookup txId = none)
    (h : Unfinished crypto opts txId node notifs) (hLast : last.tx.id = txId)
    (hValid : checkAttestations crypto last.tx opts = true) :
    some ((node.receive crypto opts notifs).pending last) =
      entryOf (received crypto opts txId (notifs ++ [last])) := by
  subst hLast
  rw [received_concat, if_pos ⟨rfl, hValid⟩]
  exact pending_of_lookup (lookup_receive hFresh h)

/-- The heights that are retained for a transaction are those of the first
notifications. -/
theorem lookup_pending (hFresh : node.txs.lookup txId = none)
    (h : Unfinished crypto opts txId node notifs) (hLast : last.tx.id = txId)
    (hValid : checkAttestations crypto last.tx opts = true) (index : Nat) :
    ((node.receive crypto opts notifs).pending last).attestations.lookup index =
      firstHeight (received crypto opts txId (notifs ++ [last])) index := by
  have hEntry := pending_receive hFresh h hLast hValid
  rw [eq_comm, entryOf] at hEntry
  obtain ⟨first, _, hPending⟩ := Option.map_eq_some_iff.mp hEntry
  rw [← hPending, lookup_foldl_addAll]
  rfl

/-- From the time at which a transaction is unknown to a node until it is
completed: the heights that are retained are the newest ones exactly if no
notification is newer than the first one for its index. When the transaction is
completed, the aggregate has the least of the retained heights. -/
theorem newest_retained_iff (hFresh : node.txs.lookup txId = none)
    (hUnfinished : Unfinished crypto opts txId node notifs) (hLast : last.tx.id = txId)
    (hValid : checkAttestations crypto last.tx opts = true)
    (hHeights : ∀ notif ∈ received crypto opts txId (notifs ++ [last]), 1 ≤ notif.blockHeight) :
    ((∀ index height,
      ((node.receive crypto opts notifs).pending last).attestations.lookup index = some height ↔
        IsGreatest (heightsFor (received crypto opts txId (notifs ++ [last])) index) height) ↔
      FirstIsNewest (received crypto opts txId (notifs ++ [last]))) ∧
    ∀ agg, Emits crypto opts (node.receive crypto opts notifs) last agg → agg.tx.inputs ≠ [] →
      (∀ notif ∈ received crypto opts txId (notifs ++ [last]), ∀ index ∈ notif.attestations,
        index < agg.tx.inputs.length) →
      (∀ index < agg.tx.inputs.length, ∃ height,
        ((node.receive crypto opts notifs).pending last).attestations.lookup index = some height) ∧
      IsLeast {height | ∃ index < agg.tx.inputs.length,
        ((node.receive crypto opts notifs).pending last).attestations.lookup index = some height}
        agg.oldestAttestation := by
  have hLookup := lookup_pending hFresh hUnfinished hLast hValid
  constructor
  · simp only [hLookup]
    exact firstHeight_greatest_iff _
  · intro agg hEmits hInputs hRange
    obtain ⟨_, hFull, rfl⟩ := emits_iff.mp hEmits
    have hSource : ∀ index height,
        ((node.receive crypto opts notifs).pending last).attestations.lookup index = some height →
        0 < height ∧ index < ((node.receive crypto opts notifs).pending last).tx.inputs.length := by
      intro index height hFound
      rw [hLookup] at hFound
      obtain ⟨notif, hMem, hIndex, rfl⟩ := mem_heightsFor_of_firstHeight hFound
      exact ⟨hHeights notif hMem, hRange notif hMem index hIndex⟩
    have hNonempty :
        ((node.receive crypto opts notifs).pending last).attestations.entries ≠ [] := by
      intro hNil
      rw [hNil] at hFull
      exact hInputs (List.length_eq_zero_iff.mp hFull.symm)
    refine ⟨exists_lookup_of_full hFull fun index height hFound =>
      (hSource index height hFound).2, ?_⟩
    obtain ⟨⟨index, hOldest⟩, hLeast⟩ :=
      isLeast_oldest (fun index height hFound => (hSource index height hFound).1) hNonempty
    refine ⟨⟨index, (hSource index _ hOldest).2, hOldest⟩, ?_⟩
    rintro height ⟨other, _, hOther⟩
    exact hLeast ⟨other, hOther⟩

def pairTx : CompactTx := .unattested (.ofByte 1) [.ofByte 2, .ofByte 3] []

/-- The first input is attested again at a newer height, and the older height is
the one that the aggregate has. -/
theorem older_height_retained :
    Emits .unused .noAttestations
      (initial.receive .unused .noAttestations [⟨pairTx, [0], 1⟩, ⟨pairTx, [0], 2⟩])
      ⟨pairTx, [1], 2⟩ ⟨pairTx, 1⟩ ∧
    ((initial.receive .unused .noAttestations [⟨pairTx, [0], 1⟩, ⟨pairTx, [0], 2⟩]).pending
      ⟨pairTx, [1], 2⟩).attestations.lookup 0 = some 1 := by
  refine ⟨?_, by decide +kernel⟩
  rw [Emits]
  decide +kernel

theorem newest_retained_iff_twoInputs :
    IsLeast {height | ∃ index < pairTx.inputs.length,
      ((initial.receive .unused .noAttestations [⟨pairTx, [0], 1⟩]).pending
        ⟨pairTx, [1], 2⟩).attestations.lookup index = some height} 1 := by
  have hUnfinished : Unfinished .unused .noAttestations pairTx.id initial
      [⟨pairTx, [0], 1⟩] := by
    intro before notif after agg hSplit hEmits
    cases before with
    | nil =>
        obtain ⟨rfl, _⟩ := List.cons.inj hSplit
        exact absurd (emits_iff.mp hEmits).2.1 (by decide +kernel)
    | cons _ _ => simp at hSplit
  have hEmits : Emits .unused .noAttestations
      (initial.receive .unused .noAttestations [⟨pairTx, [0], 1⟩]) ⟨pairTx, [1], 2⟩
      ⟨pairTx, 1⟩ := by
    rw [Emits]
    decide +kernel
  exact ((newest_retained_iff rfl hUnfinished rfl (by decide +kernel) (by decide +kernel)).2 _
    hEmits (by decide) (by decide +kernel)).2

end Heights

section Sources

/-- An entry holds a transaction and indices from notifications for its ID. -/
structure FromNotifs (crypto : Crypto) (opts : Options) (txId : Hash)
    (notifs : List TxNotifyRequest) (entry : PendingTx) : Prop where
  key : ∃ notif ∈ received crypto opts txId notifs, notif.tx = entry.tx
  attested : ∀ index height, entry.attestations.lookup index = some height →
    ∃ notif ∈ received crypto opts txId notifs, index ∈ notif.attestations

theorem mem_received : last ∈ received crypto opts txId notifs ↔
    last ∈ notifs ∧ last.tx.id = txId ∧ checkAttestations crypto last.tx opts = true := by
  simp [received]

theorem FromNotifs.later {entry : PendingTx} (h : FromNotifs crypto opts txId notifs entry)
    (more : List TxNotifyRequest) : FromNotifs crypto opts txId (notifs ++ more) entry := by
  have hKept : ∀ notif ∈ received crypto opts txId notifs,
      notif ∈ received crypto opts txId (notifs ++ more) := by
    intro notif hNotif
    rw [received, List.filter_append]
    exact List.mem_append_left _ hNotif
  constructor
  · obtain ⟨notif, hNotif, hTx⟩ := h.key
    exact ⟨notif, hKept notif hNotif, hTx⟩
  · intro index height hLookup
    obtain ⟨notif, hNotif, hIndex⟩ := h.attested index height hLookup
    exact ⟨notif, hKept notif hNotif, hIndex⟩

/-- The entry that a notification updates comes from it and from those before. -/
theorem fromNotifs_pending (hValid : checkAttestations crypto last.tx opts = true)
    (h : ∀ entry, node.txs.lookup last.tx.id = some entry →
      FromNotifs crypto opts last.tx.id notifs entry) :
    FromNotifs crypto opts last.tx.id (notifs ++ [last]) (node.pending last) := by
  have hLast : last ∈ received crypto opts last.tx.id (notifs ++ [last]) :=
    mem_received.mpr ⟨by simp, rfl, hValid⟩
  -- An index is known from before or comes with this notification.
  have hIndices : ∀ (attestations : AttestationSet) (index height : Nat),
      (attestations.addAll last).lookup index = some height →
        attestations.lookup index = some height ∨ index ∈ last.attestations := by
    intro attestations index height hLookup
    rw [lookup_addAll] at hLookup
    rcases Option.or_eq_some_iff.mp hLookup with hOld | ⟨_, hNew⟩
    · exact Or.inl hOld
    · exact Or.inr (by_contra fun hNot => by simp [hNot] at hNew)
  rw [pending_eq]
  cases hKnown : node.txs.lookup last.tx.id with
  | none =>
      refine ⟨⟨last, hLast, rfl⟩, fun index height hLookup => ⟨last, hLast, ?_⟩⟩
      rcases hIndices _ index height hLookup with hOld | hNew
      · cases hOld
      · exact hNew
  | some known =>
      have hBefore := (h known hKnown).later [last]
      refine ⟨hBefore.key, fun index height hLookup => ?_⟩
      rcases hIndices _ index height hLookup with hOld | hNew
      · exact hBefore.attested index height hOld
      · exact ⟨last, hLast, hNew⟩

/-- A node holds nothing that no notification has brought. -/
theorem fromNotifs_receive (notifs : List TxNotifyRequest) (txId : Hash) {entry : PendingTx}
    (h : (initial.receive crypto opts notifs).txs.lookup txId = some entry) :
    FromNotifs crypto opts txId notifs entry := by
  induction notifs using List.reverseRecOn generalizing txId entry with
  | nil =>
      have hNone : initial.txs.lookup txId = none := Finmap.lookup_empty txId
      rw [receive, List.foldl_nil, hNone] at h
      cases h
  | append_singleton before notif ih =>
      rw [receive, List.foldl_append, List.foldl_cons, List.foldl_nil, ← receive,
        lookup_txNotify] at h
      split at h
      case isTrue hHere =>
          split at h
          · cases h
          · rw [← Option.some.inj h, ← hHere.1]
            exact fromNotifs_pending hHere.2 fun entry hEntry => ih notif.tx.id hEntry
      case isFalse => exact (ih txId h).later [notif]

end Sources

end AtomizerRaft

section Completion

open TransitionSystem

/-- Only inputs are attested, and the number of inputs is known from the ID. -/
structure InRange (notified : List (CompactTx × Finset Nat)) : Prop where
  inputs : ∀ first ∈ notified, ∀ second ∈ notified, first.1.id = second.1.id →
    first.1.inputs.length = second.1.inputs.length
  indices : ∀ notification ∈ notified, ∀ index ∈ notification.2,
    index < notification.1.inputs.length

/-- An index that is attested for an ID belongs to every transaction with the ID. -/
theorem InRange.lt {notified : List (CompactTx × Finset Nat)} (h : InRange notified)
    {first second : CompactTx × Finset Nat} (hFirst : first ∈ notified)
    (hSecond : second ∈ notified) (hId : first.1.id = second.1.id) {index : Nat}
    (hIndex : index ∈ first.2) :
    index < second.1.inputs.length :=
  h.inputs first hFirst second hSecond hId ▸ h.indices first hFirst index hIndex

def TxNotifyRequest.notified (notif : TxNotifyRequest) : CompactTx × Finset Nat :=
  (notif.tx, notif.attestations.toFinset)

namespace AtomizerRaft

variable {crypto : Crypto} {opts : Options} {notifs : List TxNotifyRequest}
  {last : TxNotifyRequest} {agg : AggregateTxNotification}

/-- A transaction is passed on only when each of its inputs has been attested in some
notification for its ID. -/
theorem attested_of_emits
    (hRange : InRange ((notifs ++ [last]).map TxNotifyRequest.notified))
    (hEmits : Emits crypto opts (initial.receive crypto opts notifs) last agg) :
    ∀ index < agg.tx.inputs.length,
      ∃ notif ∈ received crypto opts agg.tx.id (notifs ++ [last]), index ∈ notif.attestations := by
  obtain ⟨hValid, hFull, rfl⟩ := emits_iff.mp hEmits
  have hSource := fromNotifs_pending hValid fun entry hEntry =>
    fromNotifs_receive notifs last.tx.id hEntry
  obtain ⟨keyNotif, hKey, hKeyTx⟩ := hSource.key
  obtain ⟨hKeyMem, hKeyId, _⟩ := mem_received.mp hKey
  have hBelow : ∀ index height,
      ((initial.receive crypto opts notifs).pending last).attestations.lookup index = some height →
        index < ((initial.receive crypto opts notifs).pending last).tx.inputs.length := by
    intro index height hLookup
    obtain ⟨notif, hNotif, hIndex⟩ := hSource.attested index height hLookup
    obtain ⟨hMem, hId, _⟩ := mem_received.mp hNotif
    rw [← hKeyTx]
    exact hRange.lt (List.mem_map_of_mem hMem) (List.mem_map_of_mem hKeyMem)
      (hId.trans hKeyId.symm) (List.mem_toFinset.mpr hIndex)
  intro index hIndex
  obtain ⟨height, hLookup⟩ := AttestationSet.exists_lookup_of_full hFull hBelow index hIndex
  rw [← hKeyTx, hKeyId]
  exact hSource.attested index height hLookup

end AtomizerRaft

namespace Atomizer

variable {bestHeight stxoCacheDepth blockHeight : Nat} {calls : List Call} {state : Atomizer}
  {tx moved : CompactTx} {attestations : Finset Nat}

def Call.notified : Call → Option (CompactTx × Finset Nat)
  | .insert _ tx attestations => some (tx, attestations)
  | .insertComplete _ _ | .makeBlock => none

theorem mem_notified_of_attests {calls : List Call} {txId : Hash} {index : Nat} {start : Atomizer}
    (h : Happened step start calls (Attests txId index)) :
    ∃ notification ∈ calls.filterMap Call.notified,
      notification.1.id = txId ∧ index ∈ notification.2 := by
  obtain ⟨before, call, after, _, rfl, _, _, tx, attestations, rfl, _, hId, hIndex⟩ := h
  exact ⟨(tx, attestations), List.mem_filterMap.mpr ⟨_, List.mem_append_right _ List.mem_cons_self,
    rfl⟩, hId, hIndex⟩

theorem FromCalls.mem_notified {start : Atomizer} {txId : Hash} {entry : CompactTx × Finset Nat}
    (h : FromCalls start calls txId entry) :
    ∃ attestations, (entry.1, attestations) ∈ calls.filterMap Call.notified := by
  obtain ⟨_, attestations, hMem⟩ := h.key
  exact ⟨attestations, List.mem_filterMap.mpr ⟨_, hMem, rfl⟩⟩

/-- The same of the atomizer, where the attestations are gathered over several slots. -/
theorem attested_of_accepts
    (hRange : InRange
      ((calls ++ [Call.insert blockHeight tx attestations]).filterMap Call.notified))
    (hRun : run step (new bestHeight stxoCacheDepth) calls = some state)
    (hAccepts : state.Accepts (.insert blockHeight tx attestations) moved) :
    ∀ index < moved.inputs.length, Happened step (new bestHeight stxoCacheDepth)
      (calls ++ [.insert blockHeight tx attestations]) (Attests moved.id index) := by
  obtain ⟨next, hStep, hComplete⟩ := hAccepts
  rcases (effect_of_step hStep).accepts_cases hComplete with
    ⟨_, _, _, hCall, hWithin, hCompletes⟩ | ⟨_, hCall, _⟩
  · cases hCall
    have hSourced := (sourced_of_run hRun).notify hRun hWithin tx attestations
    obtain ⟨_, hFiled⟩ := (sourced_of_run hRun).filedAs hRun hWithin tx attestations
    obtain ⟨_, hOldest⟩ := hCompletes.oldest
    have hMoved := hSourced _ _ _ hOldest
    obtain ⟨_, hFiledMem⟩ := hFiled.mem_notified
    obtain ⟨_, hMovedMem⟩ := hMoved.mem_notified
    have hSubset : ((state.notify (state.getNotificationOffset blockHeight) tx
        attestations).gather tx.id).totalAttestations ⊆
          Finset.range (state.filedAs blockHeight tx).inputs.length := by
      intro index hIndex
      obtain ⟨notification, hMem, hId, hAttested⟩ :=
        mem_notified_of_attests (hSourced.attests_of_gathered hIndex)
      exact Finset.mem_range.mpr
        (hRange.lt hMem hFiledMem (hId.trans hFiled.id.symm) hAttested)
    -- As many indices as there are inputs, all of them in range, are all inputs.
    have hAll := Finset.eq_of_subset_of_card_le hSubset
      (by rw [hCompletes.full, Finset.card_range])
    have hLength := hRange.inputs _ hMovedMem _ hFiledMem (hMoved.id.trans hFiled.id.symm)
    intro index hIndex
    rw [hMoved.id]
    exact hSourced.attests_of_gathered (hAll ▸ Finset.mem_range.mpr (hLength ▸ hIndex))
  · cases hCall

end Atomizer

open AtomizerRaft Atomizer

/-- A node emits an aggregate, and the atomizer moves a transaction, only if each
of its inputs is attested by a notification that was received for it. Both
count indices, so this is known for indices in range. -/
theorem completed_only_if_attested (crypto : Crypto) (opts : Options)
    (notifs : List TxNotifyRequest) (last : TxNotifyRequest) (agg : AggregateTxNotification)
    (bestHeight stxoCacheDepth : Nat) (calls : List Call) (state : Atomizer) (blockHeight : Nat)
    (tx : CompactTx) (attestations : Finset Nat) (moved : CompactTx) :
    (InRange ((notifs ++ [last]).map TxNotifyRequest.notified) →
      Emits crypto opts (initial.receive crypto opts notifs) last agg →
      ∀ index < agg.tx.inputs.length,
        ∃ notif ∈ received crypto opts agg.tx.id (notifs ++ [last]), index ∈ notif.attestations) ∧
    (InRange ((calls ++ [Call.insert blockHeight tx attestations]).filterMap Call.notified) →
      run step (new bestHeight stxoCacheDepth) calls = some state →
      state.Accepts (.insert blockHeight tx attestations) moved →
      ∀ index < moved.inputs.length, Happened step (new bestHeight stxoCacheDepth)
        (calls ++ [.insert blockHeight tx attestations]) (Attests moved.id index)) :=
  ⟨attested_of_emits, attested_of_accepts⟩

/-- A transaction with one input is completed by an attestation of index 5. -/
theorem completed_by_other_index :
    AtomizerRaft.Emits .unused .noAttestations .initial
        ⟨.unattested (.ofByte 1) [.ofByte 2] [], [5], 1⟩
        ⟨.unattested (.ofByte 1) [.ofByte 2] [], 1⟩ ∧
      (Atomizer.new 0 1).Accepts (.insert 0 (.unattested (.ofByte 1) [.ofByte 2] []) {5})
        (.unattested (.ofByte 1) [.ofByte 2] []) := by
  refine ⟨?_, by decide +kernel⟩
  rw [AtomizerRaft.Emits]
  decide +kernel

def twoInputs : CompactTx := .unattested (.ofByte 1) [.ofByte 2, .ofByte 3] [.ofByte 4]

/-- Its inputs are attested one by one, and the second notification completes it. -/
theorem completed_only_if_attested_twoInputs :
    (∀ index < 2, ∃ notif ∈ received .unused .noAttestations (.ofByte 1)
      [⟨twoInputs, [0], 1⟩, ⟨twoInputs, [1], 2⟩], index ∈ notif.attestations) ∧
    ∀ index < 2, Happened step (new 0 1) [.insert 0 twoInputs {0}, .insert 0 twoInputs {1}]
      (Attests (.ofByte 1) index) := by
  have hEmits : Emits .unused .noAttestations
      (initial.receive .unused .noAttestations [⟨twoInputs, [0], 1⟩])
      ⟨twoInputs, [1], 2⟩ ⟨twoInputs, 1⟩ := by
    rw [Emits]
    decide +kernel
  have hTest : (run step (new 0 1) [.insert 0 twoInputs {0}]).any (fun state =>
      decide (state.Accepts (.insert 0 twoInputs {1}) twoInputs)) = true := by
    decide +kernel
  obtain ⟨state, hRun, hAccepts⟩ := exists_run_of_test hTest
  have h := completed_only_if_attested .unused .noAttestations [⟨twoInputs, [0], 1⟩]
    ⟨twoInputs, [1], 2⟩ ⟨twoInputs, 1⟩ 0 1 [.insert 0 twoInputs {0}] state 0 twoInputs {1} twoInputs
  exact ⟨h.1 ⟨by decide +kernel, by decide +kernel⟩ hEmits,
    h.2 ⟨by decide +kernel, by decide +kernel⟩ hRun (of_decide_eq_true hAccepts)⟩

end Completion

end OpenCbdc
