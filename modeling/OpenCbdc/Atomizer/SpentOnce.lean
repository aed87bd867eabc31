import OpenCbdc.Atomizer.System

/-! No UHS ID is spent by two transactions of the blocks. The blocks and the
transactions of the next one are a ledger: each accepted transaction is attested
by shards that may be far behind, and looked up in the spent cache back to the
oldest attestation. -/
namespace OpenCbdc

open TransitionSystem

/-- Each pair of an attestation set tells the truth about the ledger. For a
transaction without inputs anything may be attested. -/
def Vouched (genesis : Finset Hash) (ledger : Ledger CompactTx) (inputs : List Hash)
    (index height : Nat) : Prop :=
  inputs ≠ [] → 0 < height ∧ height ≤ ledger.blocks.length ∧
    ∃ inp ∈ ledger.asOf CompactTx.moves genesis height, inputs[index]? = some inp

def SameInputs (txs : List CompactTx) : Prop :=
  ∀ first ∈ txs, ∀ second ∈ txs, first.id = second.id → first.inputs = second.inputs

instance (txs : List CompactTx) : Decidable (SameInputs txs) :=
  inferInstanceAs (Decidable (∀ first ∈ txs, ∀ second ∈ txs,
    first.id = second.id → first.inputs = second.inputs))

variable {genesis : Finset Hash} {txs : List CompactTx}

section Attestations

variable {ledger longer : Ledger CompactTx}

theorem Vouched.later (hPrefix : ledger.blocks <+: longer.blocks) {inputs : List Hash}
    {index height : Nat} (h : Vouched genesis ledger inputs index height) :
    Vouched genesis longer inputs index height := by
  intro hInputs
  obtain ⟨hPositive, hHeight, inp, hInp, hIndex⟩ := h hInputs
  rw [← Ledger.asOf_eq_of_prefix hPrefix hHeight] at hInp
  exact ⟨hPositive, hHeight.trans hPrefix.length_le, inp, hInp, hIndex⟩

/-- A set that vouches for as many indices as there are inputs attests the
transaction as of its oldest height. -/
theorem attested_of_vouched {tx : CompactTx} {attestations : AttestationSet}
    (hSize : attestations.entries.length = tx.inputs.length)
    (hVouched : ∀ index height, attestations.lookup index = some height →
      Vouched genesis ledger tx.inputs index height) :
    ledger.Attested CompactTx.moves genesis tx attestations.oldest := by
  intro inp hInp
  have hInputs : tx.inputs ≠ [] := List.ne_nil_of_mem hInp
  have hRange : ∀ index height, attestations.lookup index = some height →
      index < tx.inputs.length := by
    intro index height hLookup
    obtain ⟨_, _, found, _, hFound⟩ := hVouched index height hLookup hInputs
    exact (List.getElem?_eq_some_iff.mp hFound).1
  obtain ⟨index, hIndex⟩ := List.mem_iff_getElem?.mp hInp
  have hLt : index < tx.inputs.length := (List.getElem?_eq_some_iff.mp hIndex).1
  obtain ⟨height, hLookup⟩ :=
    AttestationSet.exists_lookup_of_full hSize hRange index hLt
  obtain ⟨_, hHeight, found, hUnspent, hFound⟩ := hVouched index height hLookup hInputs
  obtain rfl : found = inp := Option.some.inj (hFound.symm.trans hIndex)
  refine ⟨height, ?_, hHeight, hUnspent⟩
  exact AttestationSet.oldest_le (fun other _ h => (hVouched other _ h hInputs).1) hLookup

namespace AtomizerRaft

/-- A node only holds what shards have vouched for. -/
structure Gathers (txs : List CompactTx) (genesis : Finset Hash) (ledger : Ledger CompactTx)
    (node : AtomizerRaft) : Prop where
  known : ∀ txId entry, node.txs.lookup txId = some entry → entry.tx.id = txId ∧ entry.tx ∈ txs
  vouched : ∀ txId entry, node.txs.lookup txId = some entry → ∀ index height,
    entry.attestations.lookup index = some height →
      Vouched genesis ledger entry.tx.inputs index height
  complete : ∀ msg ∈ node.completeTxs, msg.tx ∈ txs ∧
    ledger.Attested CompactTx.moves genesis msg.tx msg.oldestAttestation

theorem Gathers.initial : Gathers txs genesis ledger .initial where
  known txId entry hEntry := by simp [AtomizerRaft.initial] at hEntry
  vouched txId entry hEntry := by simp [AtomizerRaft.initial] at hEntry
  complete := by simp [AtomizerRaft.initial]

variable {node : AtomizerRaft}

theorem Gathers.later (hPrefix : ledger.blocks <+: longer.blocks)
    (h : Gathers txs genesis ledger node) : Gathers txs genesis longer node where
  known := h.known
  vouched txId entry hEntry index height hLookup :=
    (h.vouched txId entry hEntry index height hLookup).later hPrefix
  complete msg hMsg := ⟨(h.complete msg hMsg).1, (h.complete msg hMsg).2.later hPrefix⟩

theorem Gathers.sendCompleteTxs (h : Gathers txs genesis ledger node) :
    Gathers txs genesis ledger node.sendCompleteTxs.1 where
  known := h.known
  vouched := h.vouched
  complete := by simp [AtomizerRaft.sendCompleteTxs]

/-- The entry for a notification that tells the truth. -/
theorem Gathers.pending (h : Gathers txs genesis ledger node) (hSame : SameInputs txs)
    {notif : TxNotifyRequest} (hTx : notif.tx ∈ txs)
    (hNotif : ∀ index ∈ notif.attestations,
      Vouched genesis ledger notif.tx.inputs index notif.blockHeight) :
    ((node.pending notif).tx.id = notif.tx.id ∧ (node.pending notif).tx ∈ txs) ∧
      ∀ index height, (node.pending notif).attestations.lookup index = some height →
        Vouched genesis ledger (node.pending notif).tx.inputs index height := by
  have hMerge : AttestationSet.merge notif.blockHeight =
      fun set index => set.insertPair notif.blockHeight index := by
    funext set index
    exact AttestationSet.merge_eq_insertPair
  rw [AtomizerRaft.pending]
  split
  case h_1 known hKnown =>
      have hEntry := h.known notif.tx.id known hKnown
      have hInputs : known.tx.inputs = notif.tx.inputs :=
        hSame known.tx hEntry.2 notif.tx hTx hEntry.1
      refine ⟨hEntry, ?_⟩
      rw [hMerge]
      exact AttestationSet.foldl_insertPair (h.vouched notif.tx.id known hKnown)
        fun index hIndex => hInputs ▸ hNotif index hIndex
  case h_2 =>
      exact ⟨⟨rfl, hTx⟩, AttestationSet.foldl_insertPair (by simp) hNotif⟩

/-- A node adds attestations that a shard has vouched for. It passes on a transaction when
all of its inputs are vouched for. -/
theorem Gathers.txNotify (h : Gathers txs genesis ledger node) (hSame : SameInputs txs)
    {notif : TxNotifyRequest} (hTx : notif.tx ∈ txs)
    (hNotif : ∀ index ∈ notif.attestations,
      Vouched genesis ledger notif.tx.inputs index notif.blockHeight)
    (crypto : Crypto) (opts : Options) :
    Gathers txs genesis ledger (node.txNotify crypto opts notif) := by
  obtain ⟨hKnown, hVouched⟩ := h.pending hSame hTx hNotif
  simp only [AtomizerRaft.txNotify]
  split
  case isFalse => exact h
  case isTrue =>
      split
      case isTrue hSize =>
          exact
            { known := fun txId entry hEntry =>
                h.known txId entry (Table.of_lookup_erase hEntry).2
              vouched := fun txId entry hEntry =>
                h.vouched txId entry (Table.of_lookup_erase hEntry).2
              complete := Slots.forall_mem_concat h.complete
                ⟨hKnown.2, attested_of_vouched hSize hVouched⟩ }
      case isFalse =>
          constructor
          case known =>
              intro txId entry hEntry
              rcases Table.of_lookup_insert hEntry with ⟨rfl, rfl⟩ | ⟨_, hOld⟩
              · exact hKnown
              · exact h.known txId entry hOld
          case vouched =>
              intro txId entry hEntry
              rcases Table.of_lookup_insert hEntry with ⟨rfl, rfl⟩ | ⟨_, hOld⟩
              · exact hVouched
              · exact h.vouched txId entry hOld
          case complete => exact h.complete

end AtomizerRaft

end Attestations

namespace Atomizer

/-- The blocks made so far together with the transactions of the next one. -/
def ledger (blocks : List (List CompactTx)) (atomizer : Atomizer) : Ledger CompactTx :=
  { blocks := blocks, pending := atomizer.completeTxs }

def inputsOf (txs : List CompactTx) : Finset Hash := (txs.flatMap CompactTx.inputs).toFinset

theorem mem_inputsOf {txs : List CompactTx} {inp : Hash} :
    inp ∈ inputsOf txs ↔ ∃ tx ∈ txs, inp ∈ tx.inputs := by
  simp [inputsOf]

/-- The state of the atomizer on top of its blocks: slot by slot, the cache
holds the inputs of the last blocks. -/
structure Records (txs : List CompactTx) (genesis : Finset Hash) (blocks : List (List CompactTx))
    (atomizer : Atomizer) : Prop where
  height : atomizer.bestHeight = blocks.length
  cached : ∀ age ≤ atomizer.spentCacheDepth,
    atomizer.spent[age]? = some (inputsOf ((atomizer.ledger blocks).recent age))
  known : ∀ tx ∈ (atomizer.ledger blocks).entries, tx ∈ txs
  sound : Ledger.CreatedOnce CompactTx.moves genesis blocks.flatten →
    Ledger.Sound CompactTx.moves genesis (atomizer.ledger blocks)

theorem Records.new (stxoCacheDepth : Nat) :
    Records txs genesis [] (Atomizer.new 0 stxoCacheDepth) where
  height := rfl
  cached age hAge := by
    have hEmpty : ((Atomizer.new 0 stxoCacheDepth).ledger []).recent age = [] := by
      cases age <;> rfl
    rw [hEmpty]
    exact List.getElem?_replicate_of_lt (Nat.lt_succ_of_le hAge)
  known := by simp [ledger, Ledger.entries, Atomizer.new]
  sound _ := Ledger.sound_empty

variable {blocks : List (List CompactTx)} {atomizer : Atomizer} {tx : CompactTx}
  {oldestAttestation : Nat}

/-- The searched slots cover everything since the oldest attestation. -/
theorem Records.unseen (h : Records txs genesis blocks atomizer)
    (hAttested : (atomizer.ledger blocks).Attested CompactTx.moves genesis tx oldestAttestation)
    (hSearched : ∀ offset ≤ atomizer.getNotificationOffset oldestAttestation,
      ∀ inp ∈ tx.inputs, ∃ spent, atomizer.spent[offset]? = some spent ∧ inp ∉ spent) :
    (atomizer.ledger blocks).Unseen CompactTx.moves tx oldestAttestation := by
  intro age hAge other hOther inp hInp hSpent
  obtain ⟨height, hOldest, hHeight, _⟩ := hAttested inp hInp
  have hOffset : atomizer.getNotificationOffset oldestAttestation =
      blocks.length - oldestAttestation := by
    have hAhead : oldestAttestation ≤ blocks.length := hOldest.trans hHeight
    rw [getNotificationOffset, h.height, if_pos hAhead]
  obtain ⟨spent, hSlot, hNot⟩ := hSearched age (hOffset ▸ hAge) inp hInp
  have hDepth : age ≤ atomizer.spentCacheDepth := by
    have hLt := (List.getElem?_eq_some_iff.mp hSlot).1
    rw [atomizer.spent_length] at hLt
    omega
  rw [h.cached age hDepth, Option.some.injEq] at hSlot
  rw [← hSlot, mem_inputsOf] at hNot
  exact hNot ⟨other, hOther, hSpent⟩

/-- A transaction that is attested and passes the cache extends the ledger. -/
theorem Records.accept (h : Records txs genesis blocks atomizer) (hTx : tx ∈ txs)
    (hAttested : (atomizer.ledger blocks).Attested CompactTx.moves genesis tx oldestAttestation)
    (hUnseen : (atomizer.ledger blocks).Unseen CompactTx.moves tx oldestAttestation) :
    Records txs genesis blocks ((atomizer.addTxToStxoCache tx).pushComplete tx) where
  height := h.height
  cached age hAge := by
    have hSlot := h.cached age hAge
    show (atomizer.spent.modify 0 (· ∪ tx.inputs.toFinset))[age]? =
      some (inputsOf (Ledger.recent ⟨blocks, atomizer.completeTxs ++ [tx]⟩ age))
    cases age with
    | zero =>
        rw [List.getElem?_modify_eq, hSlot]
        simp [ledger, Ledger.recent, inputsOf]
    | succ age =>
        rw [List.getElem?_modify_ne _ _ (Nat.succ_ne_zero age).symm, hSlot]
        rfl
  known := by
    show ∀ found ∈ blocks.flatten ++ (atomizer.completeTxs ++ [tx]), found ∈ txs
    rw [← List.append_assoc]
    exact Slots.forall_mem_concat h.known hTx
  sound hCreated :=
    (h.sound hCreated).move hCreated (.accept tx oldestAttestation hAttested hUnseen)

/-- One insertion, accepted or refused. -/
theorem Records.insertComplete (h : Records txs genesis blocks atomizer) (hTx : tx ∈ txs)
    (hAttested : (atomizer.ledger blocks).Attested CompactTx.moves genesis tx oldestAttestation)
    {next : Atomizer} {err : Option TxError}
    (hInsert : atomizer.insertComplete oldestAttestation tx = .ok (next, err)) :
    Records txs genesis blocks next := by
  cases err with
  | some err => rwa [insertComplete_refused hInsert]
  | none =>
      obtain ⟨rfl, hSearched⟩ := insertComplete_accepted hInsert
      exact h.accept hTx hAttested (h.unseen hAttested hSearched)

/-- Making a block closes it in the ledger and ages every slot by one. -/
theorem Records.makeBlock (h : Records txs genesis blocks atomizer) :
    Records txs genesis (blocks ++ [atomizer.completeTxs]) atomizer.makeBlock.1 where
  height := by simp [Atomizer.makeBlock, h.height]
  cached age hAge := by
    have hLedger : atomizer.makeBlock.1.ledger (blocks ++ [atomizer.completeTxs]) =
        { blocks := (atomizer.ledger blocks).blocks ++ [(atomizer.ledger blocks).pending]
          pending := [] } := rfl
    rw [makeBlock_spent, hLedger]
    cases age with
    | zero => rfl
    | succ age =>
        have hOlder : age + 1 ≤ atomizer.spentCacheDepth := hAge
        rw [List.getElem?_cons_succ, List.getElem?_take_of_lt hOlder, h.cached age (by omega),
          Ledger.recent_close_succ]
  known := by
    have hOld := h.known
    simpa [ledger, Ledger.entries, Atomizer.makeBlock] using hOld
  sound hCreated := by
    have hPrefix : blocks.flatten <+: (blocks ++ [atomizer.completeTxs]).flatten := by
      rw [List.flatten_append]
      exact List.prefix_append _ _
    have hBefore := hCreated.of_prefix hPrefix
    exact (h.sound hBefore).move hBefore .close

end Atomizer

namespace AtomizerSystem

def ledger (system : AtomizerSystem) : Ledger CompactTx :=
  system.sm.atomizer.ledger (system.published.map Block.transactions)

/-- What the parts of the system know of a ledger is true of it. -/
structure Informed (txs : List CompactTx) (genesis : Finset Hash) (ledger : Ledger CompactTx)
    (system : AtomizerSystem) : Prop where
  follows : ∀ shard ∈ system.shards, shard.Follows genesis ledger
  notified : ∀ notif ∈ system.notifications, ∀ index ∈ notif.attestations,
    Vouched genesis ledger notif.tx.inputs index notif.blockHeight
  gathers : ∀ node ∈ system.nodes, node.Gathers txs genesis ledger
  requested : ∀ request ∈ system.requests, ∀ msg ∈ request, msg.tx ∈ txs ∧
    ledger.Attested CompactTx.moves genesis msg.tx msg.oldestAttestation

structure Inv (txs : List CompactTx) (genesis : Finset Hash) (system : AtomizerSystem) : Prop where
  numbered : ∀ (place : Nat) (blk : Block), system.published[place]? = some blk →
    blk.height = place + 1
  records : system.sm.atomizer.Records txs genesis (system.published.map Block.transactions)
  informed : Informed txs genesis system.ledger system

theorem inv_initial (stxoCacheDepth : Nat) (ranges : List ShardRange) (nodeCount : Nat) :
    Inv txs genesis (initial stxoCacheDepth ranges nodeCount genesis) where
  numbered place blk hBlk := by simp [initial] at hBlk
  records := Atomizer.Records.new stxoCacheDepth
  informed :=
    { follows := by
        intro shard hShard
        obtain ⟨range, _, rfl⟩ := List.mem_map.mp hShard
        exact Shard.Follows.openDb range
      notified := by simp [initial]
      gathers := by
        intro node hNode
        rw [List.eq_of_mem_replicate hNode]
        exact AtomizerRaft.Gathers.initial
      requested := by simp [initial] }

section Step

variable {system next : AtomizerSystem} {crypto : Crypto} {opts : Options}

theorem Informed.later {ledger longer : Ledger CompactTx}
    (hPrefix : ledger.blocks <+: longer.blocks) (h : Informed txs genesis ledger system) :
    Informed txs genesis longer system where
  follows shard hShard := (h.follows shard hShard).later hPrefix
  notified notif hNotif index hIndex := (h.notified notif hNotif index hIndex).later hPrefix
  gathers node hNode := (h.gathers node hNode).later hPrefix
  requested request hRequest msg hMsg :=
    (h.requested request hRequest msg hMsg).imp_right fun hAttested => hAttested.later hPrefix

/-- The state machine moves on and no one else notices. -/
theorem Informed.commit (h : Informed txs genesis system.ledger system)
    (sm : AtomizerStateMachine) {published : List Block}
    (hPublished : system.published <+: published) :
    Informed txs genesis (ledger { system with sm := sm, published := published })
      { system with sm := sm, published := published } :=
  have hPrefix : system.ledger.blocks <+:
      (ledger { system with sm := sm, published := published }).blocks := hPublished.map _
  { h.later hPrefix with }

/-- A published block stands in the ledger at its height. -/
theorem Inv.block_of_published (h : Inv txs genesis system) {blk : Block}
    (hBlk : blk ∈ system.published) :
    system.ledger.blocks[blk.height - 1]? = some blk.transactions := by
  obtain ⟨place, hPlace⟩ := List.mem_iff_getElem?.mp hBlk
  rw [h.numbered place blk hPlace, Nat.add_sub_cancel]
  simp [ledger, Atomizer.ledger, hPlace]

/-- What a shard attests is true of the ledger. -/
theorem Informed.vouched_of_digestTransaction {ledger : Ledger CompactTx} {shard : Shard}
    (h : shard.Follows genesis ledger) {tx : CompactTx} {notif : TxNotifyRequest}
    (hNotif : shard.digestTransaction tx = .ok notif) :
    ∀ index ∈ notif.attestations,
      Vouched genesis ledger notif.tx.inputs index notif.blockHeight := by
  obtain ⟨hTx, hPositive, hHeight, hIndices⟩ := Shard.digestTransaction_ok hNotif
  intro index hIndex _
  obtain ⟨inp, hInp, hPlace⟩ := hIndices index hIndex
  rw [hTx, hHeight]
  rw [h.snpHeight] at hPositive ⊢
  rw [h.snp, h.db] at hInp
  exact ⟨hPositive, h.height_le, inp, (Finset.mem_filter.mp hInp).1, hPlace⟩

/-- A block is made with the next height. -/
theorem Inv.makeBlock (h : Inv txs genesis system) {sm : AtomizerStateMachine}
    (hMade : sm.atomizer = system.sm.atomizer.makeBlock.1) :
    Inv txs genesis { system with
      sm := sm
      published := system.published ++ [system.sm.atomizer.makeBlock.2.1] } := by
  refine ⟨?_, ?_, h.informed.commit sm (List.prefix_append _ _)⟩
  · intro place blk hBlk
    rcases Slots.of_concat hBlk with ⟨rfl, rfl⟩ | ⟨_, hOld⟩
    · have hHeight := h.records.height
      rw [List.length_map] at hHeight
      exact congrArg (· + 1) hHeight
    · exact h.numbered place blk hOld
  · show sm.atomizer.Records txs genesis _
    rw [hMade, List.map_append]
    exact h.records.makeBlock

/-- The invariant survives every event whose transaction is among the ones
considered. -/
theorem Inv.effect (h : Inv txs genesis system) (hSame : SameInputs txs) {event : Event}
    (hTx : ∀ tx ∈ event.tx?, tx ∈ txs) (hEffect : Effect crypto opts system event next) :
    Inv txs genesis next := by
  have hInformed := h.informed
  cases hEffect with
  | digestBlock found sent =>
      refine ⟨h.numbered, h.records, { hInformed with follows := ?_ }⟩
      exact Slots.forall_mem_set hInformed.follows
        ((hInformed.follows _ (List.mem_of_getElem? found)).digestBlock
          (h.block_of_published sent))
  | attest found attested =>
      refine ⟨h.numbered, h.records, { hInformed with notified := ?_ }⟩
      exact Slots.forall_mem_concat hInformed.notified
        (Informed.vouched_of_digestTransaction
          (hInformed.follows _ (List.mem_of_getElem? found)) attested)
  | refuse => exact h
  | @txNotify id notif node found source =>
      refine ⟨h.numbered, h.records, { hInformed with gathers := ?_ }⟩
      have hNotif : ∀ index ∈ notif.attestations,
          Vouched genesis system.ledger notif.tx.inputs index notif.blockHeight := by
        rcases source with hSent | hMint
        · exact hInformed.notified notif hSent
        · exact fun _ _ hInputs => absurd hMint hInputs
      exact Slots.forall_mem_set hInformed.gathers
        ((hInformed.gathers node (List.mem_of_getElem? found)).txNotify hSame
          (hTx notif.tx rfl) hNotif crypto opts)
  | @sendCompleteTxs id node found =>
      have hNode := hInformed.gathers node (List.mem_of_getElem? found)
      refine ⟨h.numbered, h.records,
        { hInformed with
          gathers := Slots.forall_mem_set hInformed.gathers hNode.sendCompleteTxs
          requested := ?_ }⟩
      intro request hRequest
      rcases List.mem_append.mp hRequest with hOld | hNew
      · exact hInformed.requested request hOld
      · rw [AtomizerRaft.eq_completeTxs_of_sent hNew]
        exact hNode.complete
  | @insertAll aggTxs sm errs sent inserted =>
      refine ⟨h.numbered, ?_, hInformed.commit sm List.prefix_rfl⟩
      refine AtomizerStateMachine.insertAll_invariant ?_ inserted h.records
      intro msg hMsg atomizer after err hRecords hInsert
      obtain ⟨hKnown, hAttested⟩ := hInformed.requested aggTxs sent msg hMsg
      exact hRecords.insertComplete hKnown (hAttested.later List.prefix_rfl) hInsert
  | makeBlock made => exact h.makeBlock made
  | @store request sm kept =>
      refine ⟨h.numbered, ?_, hInformed.commit sm List.prefix_rfl⟩
      show sm.atomizer.Records txs genesis _
      rw [kept]
      exact h.records

end Step

/-- The transactions that the events of a run bring into the system. -/
def broughtIn (events : List Event) : List CompactTx :=
  events.filterMap Event.tx?

/-- The transactions of all blocks that were ever made, in their order. -/
def confirmed (system : AtomizerSystem) : List CompactTx :=
  system.published.flatMap Block.transactions

/-- A UHS ID is created at most once. The output of a transaction is not there
at the start and no output of another transaction, and a transaction without
inputs is not confirmed twice. That one with inputs is not confirmed twice is
not assumed. -/
structure CreatedOnce (genesis : Finset Hash) (confirmed : List CompactTx) : Prop where
  fresh : ∀ tx ∈ confirmed, ∀ uhsId ∈ tx.uhsOutputs, uhsId ∉ genesis
  once : confirmed.Pairwise fun first second => ∀ uhsId ∈ first.uhsOutputs,
    uhsId ∈ second.uhsOutputs → first.id = second.id ∧ first.inputs ≠ []

theorem CreatedOnce.ledger {confirmed : List CompactTx} (h : CreatedOnce genesis confirmed)
    (hSame : SameInputs txs) (hKnown : ∀ tx ∈ confirmed, tx ∈ txs) :
    Ledger.CreatedOnce CompactTx.moves genesis confirmed where
  fresh := h.fresh
  once := by
    refine h.once.imp_of_mem ?_
    intro first second hFirst hSecond hShared uhsId hMade hAgain
    obtain ⟨hId, hInputs⟩ := hShared uhsId hMade hAgain
    exact ⟨hSame first (hKnown first hFirst) second (hKnown second hSecond) hId, hInputs⟩

/-- The invariant holds after every run in which one ID means one list of inputs. -/
theorem inv_of_run {crypto : Crypto} {opts : Options} {stxoCacheDepth : Nat}
    {ranges : List ShardRange} {nodeCount : Nat} {events : List Event} {finish : AtomizerSystem}
    (hRun : run (step crypto opts)
      (initial stxoCacheDepth ranges nodeCount genesis) events = some finish)
    (hSame : SameInputs (broughtIn events)) : Inv (broughtIn events) genesis finish := by
  have hGuarded : Guarded (step crypto opts)
      (initial stxoCacheDepth ranges nodeCount genesis)
      (fun _ event => ∀ tx ∈ event.tx?, tx ∈ broughtIn events) events := by
    intro before event after state hEvents _ tx hTx
    exact List.mem_filterMap.mpr ⟨event, by simp [hEvents], hTx⟩
  refine guarded_invariant (inv_initial stxoCacheDepth ranges nodeCount) ?_
    hRun hGuarded
  intro system event next hInv hTx hStep
  exact hInv.effect hSame hTx (effect_of_step hStep)

/-- Over every run of shards, nodes and the state machine, no UHS ID is an input of two
entries of the blocks, if one ID means one list of inputs and a UHS ID is created once. -/
theorem inputs_spent_once {crypto : Crypto} {opts : Options} {stxoCacheDepth : Nat}
    {ranges : List ShardRange} {nodeCount : Nat} {events : List Event} {finish : AtomizerSystem}
    (hRun : run (step crypto opts)
      (initial stxoCacheDepth ranges nodeCount genesis) events = some finish)
    (hSame : SameInputs (broughtIn events))
    (hCreated : CreatedOnce genesis finish.confirmed) :
    finish.confirmed.Pairwise fun first second =>
      ∀ uhsId ∈ first.inputs, uhsId ∉ second.inputs := by
  have hInv := inv_of_run hRun hSame
  have hKnown : ∀ tx ∈ finish.confirmed, tx ∈ broughtIn events := by
    intro tx hTx
    exact hInv.records.known tx (List.mem_append_left _ (List.flatMap_def ▸ hTx))
  have hSound := hInv.records.sound (List.flatMap_def ▸ hCreated.ledger hSame hKnown)
  rw [confirmed, List.flatMap_def]
  exact (List.pairwise_append.mp hSound.spentOnce).1

/-- A transaction that spends a coin of the start, another one that spends the
same coin, and one that spends what the first has created. -/
def spendTx : CompactTx := .unattested (.ofByte 1) [.ofByte 10] [.ofByte 20]
def rivalTx : CompactTx := .unattested (.ofByte 2) [.ofByte 10] [.ofByte 30]
def followTx : CompactTx := .unattested (.ofByte 3) [.ofByte 20] [.ofByte 40]

/-- A shard attests two transactions with the same input before it sees a block
with either of them, and two nodes complete them. -/
def rivalEvents : List Event :=
  [.commit .makeBlock, .digestBlock 0 ⟨1, []⟩,
   .digestTransaction 0 spendTx, .digestTransaction 0 rivalTx,
   .txNotify 0 ⟨spendTx, [0], 1⟩, .txNotify 1 ⟨rivalTx, [0], 1⟩,
   .sendCompleteTxs 0, .sendCompleteTxs 1,
   .commit (.aggregateTxNotify [⟨spendTx, 1⟩]), .commit .makeBlock,
   .commit (.aggregateTxNotify [⟨rivalTx, 1⟩]),
   .digestBlock 1 ⟨1, []⟩, .digestBlock 1 ⟨2, [spendTx]⟩, .digestTransaction 1 followTx,
   .txNotify 1 ⟨followTx, [0], 2⟩, .sendCompleteTxs 1,
   .commit (.aggregateTxNotify [⟨followTx, 2⟩]), .commit .makeBlock]

theorem inputs_spent_once_rival :
    ∃ finish, run (step .unused .noAttestations)
        (initial 1 [(0, 255), (15, 25)] 2 {.ofByte 10}) rivalEvents = some finish ∧
      finish.confirmed = [spendTx, followTx] ∧
      finish.confirmed.Pairwise fun first second =>
        ∀ uhsId ∈ first.inputs, uhsId ∉ second.inputs := by
  have hTest : (run (step .unused .noAttestations)
      (initial 1 [(0, 255), (15, 25)] 2 {.ofByte 10}) rivalEvents).any
        (fun finish => decide (finish.confirmed = [spendTx, followTx])) = true := by
    decide +kernel
  obtain ⟨finish, hRun, hFinish⟩ := exists_run_of_test hTest
  have hConfirmed := of_decide_eq_true hFinish
  refine ⟨finish, hRun, hConfirmed, inputs_spent_once hRun (by decide) ?_⟩
  rw [hConfirmed]
  exact ⟨by decide, by decide⟩

end AtomizerSystem
end OpenCbdc
