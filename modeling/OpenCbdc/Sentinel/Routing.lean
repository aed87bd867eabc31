import OpenCbdc.Common.Bounds
import OpenCbdc.Transaction.CompactTx

/-! How the sentinel of the atomizer architecture chooses the shards that a
compact transaction is sent to. The inner loop goes through the inputs `j`, but
it looks at the input with the number `i` of the shard in the rotation. -/
namespace OpenCbdc.ShardRouting

structure ShardInfo where
  range : ShardRange
  peerId : Nat
deriving DecidableEq

/-- The inner loop of `send_compact_tx`, with the inputs that are taken to be
sent and whether this shard gets the transaction. -/
def coverInputs (range : ShardRange) (inputs : List Hash) (i : Nat) :
    List Nat → Finset Nat → Bool → Except OutOfBounds (Finset Nat × Bool)
  | [], inputsSent, shouldSend => .ok (inputsSent, shouldSend)
  | j :: rest, inputsSent, shouldSend =>
      if j ∈ inputsSent then coverInputs range inputs i rest inputsSent shouldSend
      else
        match readAt inputs i with
        | .error fault => .error fault
        | .ok inp =>
            if hashInShardRange range inp then
              coverInputs range inputs i rest (insert j inputsSent) true
            else coverInputs range inputs i rest inputsSent shouldSend

/-- The outer loop of `send_compact_tx`: the shards that the transaction is sent
to in the rounds `i` of the list. -/
def sendRounds (connected : Nat → Bool) (shardData : List ShardInfo) (offset : Nat)
    (inputs : List Hash) : List Nat → Finset Nat → Except OutOfBounds (List ShardInfo)
  | [], _ => .ok []
  | i :: rest, inputsSent =>
      match readAt shardData ((i + offset) % shardData.length) with
      | .error fault => .error fault
      | .ok shard =>
          if inputsSent.card = inputs.length then .ok []
          else if connected shard.peerId then
            match coverInputs shard.range inputs i (List.range inputs.length) inputsSent false with
            | .error fault => .error fault
            | .ok (covered, shouldSend) =>
                match sendRounds connected shardData offset inputs rest covered with
                | .error fault => .error fault
                | .ok later => .ok (if shouldSend then shard :: later else later)
          else sendRounds connected shardData offset inputs rest inputsSent

/-- `controller::send_compact_tx` with the offset that was drawn. -/
def sendCompactTx (connected : Nat → Bool) (shardData : List ShardInfo) (offset : Nat)
    (ctx : CompactTx) : Except OutOfBounds (List ShardInfo) :=
  sendRounds connected shardData offset ctx.inputs (List.range shardData.length) ∅

/-- The transaction reaches, for each of its inputs, a shard that is responsible
for it, and nothing but its inputs is read. -/
def Reaches (connected : Nat → Bool) (shardData : List ShardInfo) (offset : Nat)
    (ctx : CompactTx) : Prop :=
  ∃ sentTo, sendCompactTx connected shardData offset ctx = .ok sentTo ∧
    ∀ inp ∈ ctx.inputs, ∃ shard ∈ sentTo, hashInShardRange shard.range inp = true

section Rounds

variable {shardData : List ShardInfo} {offset : Nat} {inputs : List Hash}

/-- The shard of a round has the input of the same number in its range. -/
def Hits (shardData : List ShardInfo) (offset : Nat) (inputs : List Hash) (i : Nat)
    (shard : ShardInfo) : Prop :=
  shardData[(i + offset) % shardData.length]? = some shard ∧
    ∃ inp, inputs[i]? = some inp ∧ hashInShardRange shard.range inp = true

/-- There is an input of the number of the round, but not in the range of its
shard. -/
def Misses (shardData : List ShardInfo) (offset : Nat) (inputs : List Hash) (i : Nat) : Prop :=
  ∃ shard inp, shardData[(i + offset) % shardData.length]? = some shard ∧
    inputs[i]? = some inp ∧ hashInShardRange shard.range inp = false

/-- A shard with this input covers all the places, and is sent the transaction if one of
them was not covered before. -/
theorem coverInputs_of_inRange {range : ShardRange} {i : Nat} {inp : Hash}
    (hInp : inputs[i]? = some inp) (hRange : hashInShardRange range inp = true)
    (places : List Nat) (inputsSent : Finset Nat) (shouldSend : Bool) :
    ∃ sends, coverInputs range inputs i places inputsSent shouldSend =
        .ok (inputsSent ∪ places.toFinset, sends) ∧
      (sends = true ↔ shouldSend = true ∨ ∃ j ∈ places, j ∉ inputsSent) := by
  induction places generalizing inputsSent shouldSend with
  | nil => exact ⟨shouldSend, by simp [coverInputs], by simp⟩
  | cons j rest ih =>
      rw [coverInputs]
      split
      case isTrue hSent =>
          obtain ⟨sends, hRest, hSends⟩ := ih inputsSent shouldSend
          refine ⟨sends, ?_, ?_⟩
          · rw [hRest, List.toFinset_cons, Finset.union_insert,
              Finset.insert_eq_of_mem (Finset.mem_union_left _ hSent)]
          · simp [hSends, hSent]
      case isFalse hNew =>
          obtain ⟨sends, hRest, hSends⟩ := ih (insert j inputsSent) true
          rw [readAt_eq_ok.mpr hInp]
          refine ⟨sends, ?_, ?_⟩
          · simp only [hRange, ↓reduceIte]
            rw [hRest, List.toFinset_cons, Finset.union_insert, Finset.insert_union]
          · simp [hSends, hNew]

theorem coverInputs_of_not_inRange {range : ShardRange} {i : Nat} {inp : Hash}
    (hInp : inputs[i]? = some inp) (hRange : hashInShardRange range inp = false)
    (places : List Nat) (inputsSent : Finset Nat) (shouldSend : Bool) :
    coverInputs range inputs i places inputsSent shouldSend = .ok (inputsSent, shouldSend) := by
  induction places with
  | nil => rfl
  | cons j rest ih =>
      rw [coverInputs, readAt_eq_ok.mpr hInp]
      simp [hRange, ih]

/-- The first input that is not sent yet makes the loop read out of bounds. -/
theorem coverInputs_of_length_le {range : ShardRange} {i : Nat} (h : inputs.length ≤ i)
    (hInputs : inputs ≠ []) :
    coverInputs range inputs i (List.range inputs.length) ∅ false = .error {} := by
  obtain ⟨first, rest, rfl⟩ := List.exists_cons_of_ne_nil hInputs
  have hRead : readAt (first :: rest) i = .error {} := readAt_eq_error.mpr h
  rw [List.length_cons, List.range_succ_eq_map, coverInputs, hRead]
  simp

variable {connected : Nat → Bool}

/-- Once all inputs are taken to be sent, no further shard gets the
transaction. -/
theorem sendRounds_of_covered {inputsSent : Finset Nat} (hCovered : inputsSent.card = inputs.length)
    (hShards : shardData ≠ []) (rounds : List Nat) :
    sendRounds connected shardData offset inputs rounds inputsSent = .ok [] := by
  cases rounds with
  | nil => rfl
  | cons i rest =>
      have hLt := Nat.mod_lt (i + offset) (List.length_pos_of_ne_nil hShards)
      rw [sendRounds, readAt_eq_ok.mpr (List.getElem?_eq_getElem hLt)]
      simp [hCovered]

/-- The round of a shard that has the input of its number: the transaction is
sent there and nowhere else. -/
theorem sendRounds_of_hit (hConnected : ∀ shard ∈ shardData, connected shard.peerId = true)
    (hInputs : inputs ≠ []) {i : Nat} {shard : ShardInfo}
    (hHit : Hits shardData offset inputs i shard) (rest : List Nat) :
    sendRounds connected shardData offset inputs (i :: rest) ∅ = .ok [shard] := by
  obtain ⟨hShard, inp, hInp, hRange⟩ := hHit
  have hMem := List.mem_of_getElem? hShard
  have hLength := List.length_pos_of_ne_nil hInputs
  obtain ⟨sends, hCover, hSends⟩ :=
    coverInputs_of_inRange hInp hRange (List.range inputs.length) ∅ false
  obtain rfl : sends = true := hSends.mpr (Or.inr ⟨0, List.mem_range.mpr hLength, by simp⟩)
  have hCovered : (∅ ∪ (List.range inputs.length).toFinset).card = inputs.length := by
    rw [Finset.empty_union, List.toFinset_card_of_nodup List.nodup_range, List.length_range]
  rw [sendRounds, readAt_eq_ok.mpr hShard]
  dsimp only
  rw [if_neg (by rw [Finset.card_empty]; omega), if_pos (hConnected shard hMem), hCover]
  dsimp only
  rw [sendRounds_of_covered hCovered (List.ne_nil_of_mem hMem)]
  rfl

/-- A round that misses changes nothing. -/
theorem sendRounds_of_miss (hConnected : ∀ shard ∈ shardData, connected shard.peerId = true)
    (hInputs : inputs ≠ []) {i : Nat} (hMiss : Misses shardData offset inputs i)
    (rest : List Nat) :
    sendRounds connected shardData offset inputs (i :: rest) ∅ =
      sendRounds connected shardData offset inputs rest ∅ := by
  obtain ⟨shard, inp, hShard, hInp, hRange⟩ := hMiss
  have hLength := List.length_pos_of_ne_nil hInputs
  rw [sendRounds, readAt_eq_ok.mpr hShard]
  dsimp only
  rw [if_neg (by rw [Finset.card_empty]; omega),
    if_pos (hConnected shard (List.mem_of_getElem? hShard)),
    coverInputs_of_not_inRange hInp hRange]
  dsimp only
  cases sendRounds connected shardData offset inputs rest ∅ <;> rfl

/-- A round whose number is beyond the inputs reads out of bounds. -/
theorem sendRounds_of_length_le (hConnected : ∀ shard ∈ shardData, connected shard.peerId = true)
    (hInputs : inputs ≠ []) (hShards : shardData ≠ []) {i : Nat} (h : inputs.length ≤ i)
    (rest : List Nat) :
    sendRounds connected shardData offset inputs (i :: rest) ∅ = .error {} := by
  have hLength := List.length_pos_of_ne_nil hInputs
  have hLt := Nat.mod_lt (i + offset) (List.length_pos_of_ne_nil hShards)
  have hShard := List.getElem?_eq_getElem hLt
  rw [sendRounds, readAt_eq_ok.mpr hShard]
  dsimp only
  rw [if_neg (by rw [Finset.card_empty]; omega),
    if_pos (hConnected _ (List.mem_of_getElem? hShard)), coverInputs_of_length_le h hInputs]

theorem Hits.lt_length {i : Nat} {shard : ShardInfo} (h : Hits shardData offset inputs i shard) :
    i < inputs.length := by
  obtain ⟨_, inp, hInp, _⟩ := h
  exact (List.getElem?_eq_some_iff.mp hInp).1

theorem Misses.lt_length {i : Nat} (h : Misses shardData offset inputs i) : i < inputs.length := by
  obtain ⟨shard, inp, _, hInp, _⟩ := h
  exact (List.getElem?_eq_some_iff.mp hInp).1

theorem Hits.not_misses {i : Nat} {shard : ShardInfo} (h : Hits shardData offset inputs i shard) :
    ¬Misses shardData offset inputs i := by
  obtain ⟨hShard, inp, hInp, hRange⟩ := h
  rintro ⟨other, otherInp, hOther, hOtherInp, hOut⟩
  rw [hShard] at hOther
  rw [hInp] at hOtherInp
  cases hOther
  cases hOtherInp
  rw [hRange] at hOut
  cases hOut

/-- Each round hits, misses or reads out of bounds. -/
theorem hits_or_misses (hShards : shardData ≠ []) (offset : Nat) {i : Nat}
    (hBound : i < inputs.length) :
    (∃ shard, Hits shardData offset inputs i shard) ∨ Misses shardData offset inputs i := by
  have hLt := Nat.mod_lt (i + offset) (List.length_pos_of_ne_nil hShards)
  have hShard := List.getElem?_eq_getElem hLt
  have hInp := List.getElem?_eq_getElem hBound
  cases hRange : hashInShardRange (shardData[(i + offset) % shardData.length]).range inputs[i] with
  | true => exact Or.inl ⟨_, hShard, _, hInp, hRange⟩
  | false => exact Or.inr ⟨_, _, hShard, hInp, hRange⟩

/-- The transaction is sent to the shard of the first round that hits, and to
none if all rounds miss. -/
theorem sendRounds_eq_ok (hConnected : ∀ shard ∈ shardData, connected shard.peerId = true)
    (hInputs : inputs ≠ []) (hShards : shardData ≠ []) (start count : Nat)
    (sentTo : List ShardInfo) :
    sendRounds connected shardData offset inputs (List.range' start count) ∅ = .ok sentTo ↔
      (∃ i shard, start ≤ i ∧ i < start + count ∧ Hits shardData offset inputs i shard ∧
        (∀ k, start ≤ k → k < i → Misses shardData offset inputs k) ∧ sentTo = [shard]) ∨
      (∀ k, start ≤ k → k < start + count → Misses shardData offset inputs k) ∧ sentTo = [] := by
  induction count generalizing start with
  | zero =>
      rw [List.range'_zero, sendRounds, Except.ok.injEq, eq_comm]
      constructor
      · intro hNone
        exact Or.inr ⟨fun k hLow hHigh => by omega, hNone⟩
      · rintro (⟨i, shard, hLow, hHigh, _⟩ | ⟨_, hNone⟩)
        · omega
        · exact hNone
  | succ count ih =>
      rw [List.range'_succ]
      -- The first round decides, unless it misses.
      by_cases hBound : start < inputs.length
      · rcases hits_or_misses hShards offset hBound with ⟨shard, hHit⟩ | hMiss
        · rw [sendRounds_of_hit hConnected hInputs hHit, Except.ok.injEq, eq_comm]
          constructor
          · intro hSent
            exact Or.inl ⟨start, shard, Nat.le_refl _, by omega, hHit,
              fun k hLow hHigh => by omega, hSent⟩
          · rintro (⟨i, other, hLow, _, hOther, hBefore, hSent⟩ | ⟨hAll, _⟩)
            · rcases Nat.eq_or_lt_of_le hLow with rfl | hLater
              · rw [hSent, Option.some.inj (hHit.1.symm.trans hOther.1)]
              · exact absurd (hBefore start (Nat.le_refl _) hLater) hHit.not_misses
            · exact absurd (hAll start (Nat.le_refl _) (by omega)) hHit.not_misses
        · rw [sendRounds_of_miss hConnected hInputs hMiss, ih]
          have hFrom : ∀ k, start ≤ k → (start + 1 ≤ k → Misses shardData offset inputs k) →
              Misses shardData offset inputs k := by
            intro k hLow hNext
            rcases Nat.eq_or_lt_of_le hLow with rfl | hLater
            · exact hMiss
            · exact hNext hLater
          constructor
          · rintro (⟨i, shard, hLow, hHigh, hHit, hBefore, hSent⟩ | ⟨hAll, hSent⟩)
            · exact Or.inl ⟨i, shard, by omega, by omega, hHit,
                fun k hK hLt => hFrom k hK fun hNext => hBefore k hNext hLt, hSent⟩
            · exact Or.inr ⟨fun k hK hLt => hFrom k hK fun hNext => hAll k hNext (by omega), hSent⟩
          · rintro (⟨i, shard, hLow, hHigh, hHit, hBefore, hSent⟩ | ⟨hAll, hSent⟩)
            · have hNe : start ≠ i := by
                rintro rfl
                exact hHit.not_misses hMiss
              exact Or.inl ⟨i, shard, by omega, by omega, hHit,
                fun k hK hLt => hBefore k (by omega) hLt, hSent⟩
            · exact Or.inr ⟨fun k hK hLt => hAll k (by omega) (by omega), hSent⟩
      · rw [sendRounds_of_length_le hConnected hInputs hShards (Nat.le_of_not_lt hBound)]
        refine iff_of_false (fun hError => by cases hError) ?_
        rintro (⟨i, shard, hLow, _, hHit, _⟩ | ⟨hAll, _⟩)
        · have hLt := hHit.lt_length
          omega
        · exact hBound (hAll start (Nat.le_refl _) (by omega)).lt_length

end Rounds

/-- The first shard of the rotation that has the input of its own number in its
range has all inputs in it. -/
def FirstHitCovers (shardData : List ShardInfo) (offset : Nat) (ctx : CompactTx) : Prop :=
  ∃ i shard, i < shardData.length ∧ Hits shardData offset ctx.inputs i shard ∧
    (∀ k, k < i → Misses shardData offset ctx.inputs k) ∧
    ∀ inp ∈ ctx.inputs, hashInShardRange shard.range inp = true

/-- A transaction with inputs reaches the shards of all of them exactly if the
first hit covers them. That the ranges of all shards together do is not enough. -/
theorem reaches_iff_firstHitCovers {connected : Nat → Bool} {shardData : List ShardInfo}
    {ctx : CompactTx} (hInputs : ctx.inputs ≠ []) (hShards : shardData ≠ [])
    (hConnected : ∀ shard ∈ shardData, connected shard.peerId = true) (offset : Nat) :
    Reaches connected shardData offset ctx ↔ FirstHitCovers shardData offset ctx := by
  have hSend := @sendRounds_eq_ok shardData offset ctx.inputs connected hConnected hInputs hShards
    0 shardData.length
  obtain ⟨first, hFirst⟩ := List.exists_mem_of_ne_nil _ hInputs
  rw [Reaches, sendCompactTx, List.range_eq_range']
  constructor
  · rintro ⟨sentTo, hSent, hAll⟩
    rcases (hSend sentTo).mp hSent with ⟨i, shard, _, hBound, hHit, hBefore, rfl⟩ | ⟨_, rfl⟩
    · refine ⟨i, shard, by omega, hHit, fun k hK => hBefore k (Nat.zero_le _) hK, ?_⟩
      intro inp hInp
      obtain ⟨other, hOther, hRange⟩ := hAll inp hInp
      rwa [List.mem_singleton.mp hOther] at hRange
    · obtain ⟨shard, hShard, _⟩ := hAll first hFirst
      cases hShard
  · rintro ⟨i, shard, hBound, hHit, hBefore, hAll⟩
    refine ⟨[shard], (hSend [shard]).mpr (Or.inl ?_), ?_⟩
    · exact ⟨i, shard, Nat.zero_le _, by omega, hHit, fun k _ hK => hBefore k hK, rfl⟩
    · exact fun inp hInp => ⟨shard, List.mem_singleton_self _, hAll inp hInp⟩

def halves : List ShardInfo := [⟨(0, 127), 0⟩, ⟨(128, 255), 1⟩]

theorem reaches_iff_firstHitCovers_upperHalf :
    Reaches (fun _ => true) halves 1 (.unattested (.ofByte 1) [.ofByte 200, .ofByte 130] []) :=
  (reaches_iff_firstHitCovers (by decide) (by decide) (by decide) 1).mpr
    ⟨0, ⟨(128, 255), 1⟩, by decide, ⟨rfl, .ofByte 200, rfl, by decide⟩,
      fun k hK => absurd hK (Nat.not_lt_zero k), by decide⟩

/-- One input: the second round reads behind it. Two inputs: the transaction is
sent to no shard at all. Both shards together have every hash in their ranges. -/
theorem not_reaches_lowerHalfFirst :
    (∀ val : Hash, ∃ shard ∈ halves, hashInShardRange shard.range val = true) ∧
      sendCompactTx (fun _ => true) halves 0 (.unattested (.ofByte 1) [.ofByte 200] []) =
        .error {} ∧
      sendCompactTx (fun _ => true) halves 0
        (.unattested (.ofByte 1) [.ofByte 200, .ofByte 10] []) = .ok [] := by
  refine ⟨fun val => ?_, by decide, by decide⟩
  simp only [halves, List.mem_cons, List.not_mem_nil, or_false, exists_eq_or_imp,
    exists_eq_left, hashInShardRange, Bool.and_eq_true, decide_eq_true_eq]
  have hLow : (0 : UInt8) ≤ val[0] := UInt8.le_iff_toNat_le.mpr (Nat.zero_le _)
  have hHigh : val[0] ≤ (255 : UInt8) :=
    UInt8.le_iff_toNat_le.mpr (Nat.le_of_lt_succ val[0].toNat_lt)
  rcases Nat.lt_or_ge val[0].toNat 128 with hLt | hGe
  · exact Or.inl ⟨hLow, UInt8.le_iff_toNat_le.mpr (Nat.le_of_lt_succ hLt)⟩
  · exact Or.inr ⟨UInt8.le_iff_toNat_le.mpr hGe, hHigh⟩

end OpenCbdc.ShardRouting
