import OpenCbdc.Atomizer.SpentOnce
import OpenCbdc.Library.Conservation
import OpenCbdc.Transaction.Worth

/-! The money supply of the atomizer architecture. What the shards hold is worth
what it was at the start, plus what was minted, at every height and however far
the shards are apart. The nodes accept only what the sentinels have signed, so
the values behind the hashes balance, and no coin is spent twice. -/
namespace OpenCbdc.AtomizerSystem

open TransitionSystem

variable {genesis : Finset Hash} {crypto : Crypto} {opts : Options}

/-- The transactions of a run that pass the check of the nodes. -/
def attested (crypto : Crypto) (opts : Options) (events : List Event) : List CompactTx :=
  (broughtIn events).filter fun tx => checkAttestations crypto tx opts

section Step

variable {txs : List CompactTx} {system next : AtomizerSystem}

/-- A notification that does not pass the check changes nothing, so only the
attested transactions have to be among the ones considered. -/
theorem Inv.effect_of_attested (h : Inv txs genesis system) (hSame : SameInputs txs) {event : Event}
    (hTx : ∀ tx ∈ event.tx?, checkAttestations crypto tx opts = true → tx ∈ txs)
    (hEffect : Effect crypto opts system event next) : Inv txs genesis next := by
  have hKnown : (∀ tx ∈ event.tx?, tx ∈ txs) → Inv txs genesis next :=
    fun hAll => h.effect hSame hAll hEffect
  cases hEffect with
  | attest found attested =>
      refine ⟨h.numbered, h.records, { h.informed with notified := ?_ }⟩
      exact Slots.forall_mem_concat h.informed.notified
        (Informed.vouched_of_digestTransaction
          (h.informed.follows _ (List.mem_of_getElem? found)) attested)
  | refuse => exact h
  | @txNotify id notif node found source =>
      by_cases hChecked : checkAttestations crypto notif.tx opts = true
      · refine hKnown ?_
        rintro _ ⟨⟩
        exact hTx notif.tx rfl hChecked
      · have hNode : node.txNotify crypto opts notif = node := if_neg hChecked
        obtain ⟨hLt, rfl⟩ := List.getElem?_eq_some_iff.mp found
        rw [hNode, List.set_getElem_self hLt]
        exact h
  | digestBlock | sendCompleteTxs | insertAll | makeBlock | store =>
      exact hKnown (by simp [Event.tx?])

end Step

section Run

variable {stxoCacheDepth : Nat} {ranges : List ShardRange} {nodeCount : Nat}
  {events : List Event} {finish : AtomizerSystem} {signed : List FullTx} {worth : Hash → Nat}

theorem inv_of_attested_run
    (hRun : run (step crypto opts)
      (initial stxoCacheDepth ranges nodeCount genesis) events = some finish)
    (hSame : SameInputs (attested crypto opts events)) :
    Inv (attested crypto opts events) genesis finish := by
  have hGuarded : Guarded (step crypto opts)
      (initial stxoCacheDepth ranges nodeCount genesis)
      (fun _ event => ∀ tx ∈ event.tx?, checkAttestations crypto tx opts = true →
        tx ∈ attested crypto opts events) events := by
    intro before event after state hEvents _ tx hTx hChecked
    exact List.mem_filter.mpr
      ⟨List.mem_filterMap.mpr ⟨event, by simp [hEvents], hTx⟩, hChecked⟩
  refine guarded_invariant (inv_initial stxoCacheDepth ranges nodeCount) ?_
    hRun hGuarded
  intro system event next hInv hTx hStep
  exact hInv.effect_of_attested hSame hTx (effect_of_step hStep)

/-- Behind an attested transaction stands a signed one. -/
theorem exists_signed_of_attested (hEndorsed : Endorsed crypto opts signed (broughtIn events))
    {ctx : CompactTx} (h : ctx ∈ attested crypto opts events) :
    ∃ tx ∈ signed, ctx.Stands crypto tx := by
  obtain ⟨hBrought, hChecked⟩ := List.mem_filter.mp h
  exact hEndorsed.exists_signed hBrought hChecked

theorem sameInputs_attested (hEndorsed : Endorsed crypto opts signed (broughtIn events)) :
    SameInputs (attested crypto opts events) := by
  intro first hFirst second hSecond hId
  obtain ⟨tx, hTx, hStands⟩ := exists_signed_of_attested hEndorsed hFirst
  obtain ⟨other, hOther, hOtherStands⟩ := exists_signed_of_attested hEndorsed hSecond
  exact hEndorsed.inputs_eq_of_id_eq hTx hOther hStands hOtherStands hId

/-- IDs are created once, if no transaction that mints is confirmed twice. -/
theorem createdOnce_of_endorsed (hEndorsed : Endorsed crypto opts signed (broughtIn events))
    (hFresh : ∀ tx ∈ signed, ∀ uhsId ∈ (CompactTx.ofFullTx crypto tx).uhsOutputs, uhsId ∉ genesis)
    {confirmed : List CompactTx} (hKnown : ∀ tx ∈ confirmed, tx ∈ attested crypto opts events)
    (hMints : confirmed.Pairwise fun first second => first.id = second.id → first.inputs ≠ []) :
    CreatedOnce genesis confirmed where
  fresh ctx hCtx uhsId hMade := by
    obtain ⟨tx, hTx, hStands⟩ := exists_signed_of_attested hEndorsed (hKnown ctx hCtx)
    exact hFresh tx hTx uhsId (hStands.uhsOutputs ▸ hMade)
  once := by
    refine hMints.imp_of_mem ?_
    intro first second hFirst hSecond hMint uhsId hMade hAgain
    obtain ⟨tx, hTx, hStands⟩ := exists_signed_of_attested hEndorsed (hKnown first hFirst)
    obtain ⟨other, hOther, hOtherStands⟩ :=
      exists_signed_of_attested hEndorsed (hKnown second hSecond)
    have hId := hEndorsed.id_eq_of_shared_output hTx hOther hStands hOtherStands hMade hAgain
    exact ⟨hId, hMint hId⟩

/-- What is left after the first blocks. -/
theorem total_unspent_blocks (hInv : Inv (attested crypto opts events) genesis finish)
    (hEndorsed : Endorsed crypto opts signed (broughtIn events))
    (hWorth : Appraises crypto worth signed)
    (hFresh : ∀ tx ∈ signed, ∀ uhsId ∈ (CompactTx.ofFullTx crypto tx).uhsOutputs, uhsId ∉ genesis)
    (hMints : finish.confirmed.Pairwise fun first second =>
      first.id = second.id → first.inputs ≠ [])
    {txs : List CompactTx} (hPrefix : txs <+: finish.confirmed) :
    Ledger.total worth (CompactTx.moves.unspent genesis txs) =
      Ledger.total worth genesis +
        CompactTx.moves.createdWorth worth (CompactTx.moves.issues txs) := by
  have hSame := sameInputs_attested hEndorsed
  have hKnown : ∀ tx ∈ finish.confirmed, tx ∈ attested crypto opts events := by
    intro tx hTx
    exact hInv.records.known tx (List.mem_append_left _ (List.flatMap_def ▸ hTx))
  have hCreated := (createdOnce_of_endorsed hEndorsed hFresh hKnown hMints).ledger hSame hKnown
  have hSound := hInv.records.sound (List.flatMap_def ▸ hCreated)
  refine hSound.total_unspent (List.flatMap_def ▸ hCreated) (List.flatMap_def ▸ hPrefix) ?_ ?_ ?_
  all_goals
    intro ctx hCtx
    obtain ⟨tx, hTx, hStands⟩ := exists_signed_of_attested hEndorsed
      (hKnown ctx (hPrefix.subset hCtx))
  · exact hEndorsed.nodup_inputs hTx hStands
  · exact hEndorsed.nodup_outputs hTx hStands
  · exact hEndorsed.balanced hWorth hTx hStands

/-- Shards of one height that divide the hashes between them hold what there was
at the start and what the blocks up to this height have minted. -/
theorem supply_conserved
    (hRun : run (step crypto opts)
      (initial stxoCacheDepth ranges nodeCount genesis) events = some finish)
    (hEndorsed : Endorsed crypto opts signed (broughtIn events))
    (hWorth : Appraises crypto worth signed)
    (hFresh : ∀ tx ∈ signed, ∀ uhsId ∈ (CompactTx.ofFullTx crypto tx).uhsOutputs, uhsId ∉ genesis)
    (hMints : finish.confirmed.Pairwise fun first second =>
      first.id = second.id → first.inputs ≠ [])
    {height : Nat} {shards : List Shard}
    (hShards : ∀ shard ∈ shards, shard ∈ finish.shards ∧ shard.bestBlockHeight = height)
    (hDivided : ∀ uhsId, shards.countP (fun shard => shard.isOutputOnShard uhsId) = 1) :
    (shards.map fun shard => Ledger.total worth shard.db).sum =
      Ledger.total worth genesis +
        CompactTx.moves.createdWorth worth (CompactTx.moves.issues
          ((finish.published.take height).flatMap Block.transactions)) := by
  have hPrefix : (finish.published.take height).flatMap Block.transactions <+:
      finish.confirmed := by
    refine ⟨(finish.published.drop height).flatMap Block.transactions, ?_⟩
    rw [← List.flatMap_append, List.take_append_drop, confirmed]
  have hInv := inv_of_attested_run hRun (sameInputs_attested hEndorsed)
  have hTotal := total_unspent_blocks hInv hEndorsed hWorth hFresh hMints hPrefix
  -- Each shard holds its part of what is left after the blocks up to the height.
  have hParts : ∀ shard ∈ shards, Ledger.total worth shard.db =
      Ledger.total worth ((CompactTx.moves.unspent genesis
        ((finish.published.take height).flatMap Block.transactions)).filter
          fun uhsId => shard.isOutputOnShard uhsId) := by
    intro shard hShard
    obtain ⟨hMem, hHeight⟩ := hShards shard hShard
    rw [(hInv.informed.follows shard hMem).db, hHeight, Ledger.asOf, ledger, Atomizer.ledger,
      ← List.map_take, ← List.flatMap_def]
    rfl
  rw [List.map_congr_left hParts, Ledger.sum_total_filter fun uhsId _ => hDivided uhsId, hTotal]

end Run

/-- A shard attests the payment, a node completes it, and the block with it
reaches the shard. -/
def paymentEvents : List Event :=
  [.commit .makeBlock, .digestBlock 0 ⟨1, []⟩, .digestTransaction 0 signedPayment,
   .txNotify 0 ⟨signedPayment, [0], 1⟩, .sendCompleteTxs 0,
   .commit (.aggregateTxNotify [⟨signedPayment, 1⟩]), .commit .makeBlock,
   .digestBlock 0 ⟨2, [signedPayment]⟩]

/-- The shard holds the new coin after block 2, and it is worth 5 as the old one
was. -/
theorem supply_conserved_payment :
    ∃ finish, run (step shownCrypto oneSentinel)
        (initial 1 [(0, 255)] 1 {paidCoin.hash shownCrypto}) paymentEvents = some finish ∧
      finish.confirmed = [signedPayment] ∧
      (finish.shards.map fun shard => Ledger.total paymentWorth shard.db).sum = 5 := by
  have hTest : (run (step shownCrypto oneSentinel)
      (initial 1 [(0, 255)] 1 {paidCoin.hash shownCrypto}) paymentEvents).any
        (fun finish => decide (finish.published = [⟨1, []⟩, ⟨2, [signedPayment]⟩] ∧
          finish.shards.map (fun shard => (shard.prefixRange, shard.bestBlockHeight)) =
            [((0, 255), 2)])) = true := by
    decide +kernel
  obtain ⟨finish, hRun, hFinish⟩ := exists_run_of_test hTest
  obtain ⟨hPublished, hShards⟩ := of_decide_eq_true hFinish
  have hConfirmed : finish.confirmed = [signedPayment] := by
    rw [confirmed, hPublished]
    rfl
  obtain ⟨shard, hShard, hRange⟩ := List.map_eq_singleton_iff.mp hShards
  obtain ⟨hPrefixRange, hHeight⟩ := Prod.mk.inj hRange
  have hSupply : (finish.shards.map fun shard => Ledger.total paymentWorth shard.db).sum =
      Ledger.total paymentWorth {paidCoin.hash shownCrypto} +
        CompactTx.moves.createdWorth paymentWorth (CompactTx.moves.issues
          ((finish.published.take 2).flatMap Block.transactions)) := by
    refine supply_conserved hRun (endorsed_payment (by decide +kernel)) appraises_payment
      ?_ ?_ ?_ ?_
    · intro tx hTx
      obtain rfl := List.mem_singleton.mp hTx
      decide +kernel
    · simp [hConfirmed]
    · rw [hShard]
      simpa using hHeight
    · intro uhsId
      rw [hShard]
      simp [Shard.isOutputOnShard, hPrefixRange, hashInShardRange_all]
  refine ⟨finish, hRun, hConfirmed, ?_⟩
  rw [hSupply, hPublished]
  decide +kernel

end OpenCbdc.AtomizerSystem
