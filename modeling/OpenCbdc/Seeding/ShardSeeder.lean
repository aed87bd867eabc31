import OpenCbdc.Seeding.SeedRange
import OpenCbdc.Serialization.Serializers
import OpenCbdc.Serialization.Transactions

/-! The program `shard-seeder`. It writes the UHS IDs of the issued coins to one database
or file for each shard, before any wallet makes up the coins from their indices. -/
namespace OpenCbdc

open Serialization

/-- What a shard is started with: a database whose keys are UHS IDs, or a file. -/
inductive Preseed where
  | database (keys : Finset Hash)
  | file (bytes : List UInt8)
deriving DecidableEq

/-- The UHS ID is in the pre-seed. A file holds the number of the IDs and then the IDs. -/
def Preseed.Holds : Preseed → Hash → Prop
  | .database keys, uhsId => uhsId ∈ keys
  | .file bytes, uhsId => ∃ uhsIds, bytes = putVector putArray uhsIds ∧ uhsId ∈ uhsIds

namespace ShardSeeder

def writeBatchSize : Nat := 450000

/-- The database, the open batch and the count of its entries. -/
structure DatabaseWriter where
  db : Finset Hash
  batch : List Hash
  batchSize : Nat

namespace DatabaseWriter

def start : DatabaseWriter := ⟨∅, [], 0⟩

/-- `db->Write`. It is taken to succeed. -/
def write (writer : DatabaseWriter) : Finset Hash := writer.db ∪ writer.batch.toFinset

/-- What the loop does with a UHS ID of the shard. -/
def put (writer : DatabaseWriter) (uhsId : Hash) : DatabaseWriter :=
  let next : DatabaseWriter := ⟨writer.db, writer.batch ++ [uhsId], writer.batchSize + 1⟩
  if writeBatchSize ≤ next.batchSize then ⟨next.write, [], 0⟩ else next

/-- What follows the loop. -/
def finish (writer : DatabaseWriter) : Finset Hash :=
  if 0 < writer.batchSize then writer.write else writer.db

end DatabaseWriter

/-- The file behind `ostream_serializer`, the position in it, and the count. -/
structure FileWriter where
  bytes : List UInt8
  position : Nat
  count : UInt64

namespace FileWriter

/-- `ostream_serializer::write`. It is taken to succeed. -/
def write (writer : FileWriter) (data : List UInt8) : FileWriter :=
  { writer with
    bytes := written writer.bytes writer.position data
    position := writer.position + data.length }

/-- The size is not known yet. -/
def start : FileWriter := write ⟨[], 0, 0⟩ (putUInt64 0)

/-- What the loop does with a UHS ID of the shard. -/
def put (writer : FileWriter) (uhsId : Hash) : FileWriter :=
  let next := writer.write (putArray uhsId)
  { next with count := next.count + 1 }

/-- What follows the loop: `reset` and the size. -/
def finish (writer : FileWriter) : List UInt8 :=
  (write { writer with position := 0 } (putUInt64 writer.count.toNat)).bytes

end FileWriter

/-- The first and the last prefix of a shard. The IDs are divided into equal parts,
whatever ranges are configured, and the last shard also gets the rest. -/
def prefixes (numShards shardIdx : Nat) : Nat × Nat :=
  let shardRange := 256 / numShards
  let shardStart := shardIdx * shardRange
  let shardEnd := if shardIdx = numShards - 1 then 255
    else ((shardIdx + 1) * shardRange + 2 ^ 64 - 1) % 2 ^ 64
  (shardStart, shardEnd)

/-- The test of the loop. -/
def inPrefixes (range : Nat × Nat) (outputHash : Hash) : Bool :=
  decide (range.1 ≤ outputHash.firstByte.toNat) && decide (outputHash.firstByte.toNat ≤ range.2)

/-- The transaction of the loop, with another index in its input. -/
def setIndex (tx : FullTx) (txIdx : UInt64) : FullTx :=
  { tx with
    inputs := tx.inputs.modify 0 fun inp =>
      { inp with prevout := { inp.prevout with index := txIdx } } }

/-- The loop over the indices, for both kinds of shards. -/
def seedLoop {Writer : Type} (crypto : Crypto) (tx : FullTx) (range : Nat × Nat)
    (put : Writer → Hash → Writer) (start : Writer) (numUtxos : UInt64) : Option Writer :=
  (List.range numUtxos.toNat).foldlM (fun writer txIdx =>
    (CompactTx.ofFullTx crypto (setIndex tx (UInt64.ofNat txIdx))).uhsOutputs[0]?.map
      fun outputHash => if inPrefixes range outputHash then put writer outputHash else writer)
    start

def numUtxos (opts : SeedOptions) : UInt64 := opts.seedTo - opts.seedFrom

/-- The wallet of the seeder. Its indices start at 0. -/
def seederCoins (crypto : Crypto) (signing : Signing) (opts : SeedOptions) (privkey : PrivKey) :
    Coins :=
  Coins.empty.seedReadonly
    (Validation.getP2pkWitnessCommitment crypto (signing.pubkeyFromPrivkey privkey))
    opts.seedValue.toUInt32 0 (numUtxos opts)

/-- The thread of a shard. -/
def seedShard (crypto : Crypto) (signing : Signing) (opts : SeedOptions) (shardIdx : Nat) :
    Option Preseed := do
  let privkey ← opts.seedPrivkey
  let tx ← (seederCoins crypto signing opts privkey).createSeededTransaction 0
  let range := prefixes opts.shardRanges.length shardIdx
  if opts.twophaseMode then
    let writer ← seedLoop crypto tx range FileWriter.put .start (numUtxos opts)
    pure (.file writer.finish)
  else
    let writer ← seedLoop crypto tx range DatabaseWriter.put .start (numUtxos opts)
    pure (.database writer.finish)

section Writers

variable (uhsIds : List Hash)

/-- The batches have the effect of the single writes, and the count of the open batch
is right, so that none is forgotten. -/
theorem foldl_databasePut (writer : DatabaseWriter) (h : writer.batchSize = writer.batch.length) :
    let last := uhsIds.foldl DatabaseWriter.put writer
    last.batchSize = last.batch.length ∧ last.write = writer.write ∪ uhsIds.toFinset := by
  induction uhsIds generalizing writer with
  | nil => simpa using h
  | cons uhsId uhsIds ih =>
      have hPut : (writer.put uhsId).batchSize = (writer.put uhsId).batch.length ∧
          (writer.put uhsId).write = writer.write ∪ {uhsId} := by
        rw [DatabaseWriter.put]
        dsimp only
        split <;> simp [DatabaseWriter.write, h, Finset.union_assoc]
      obtain ⟨hSize, hWrite⟩ := ih (writer.put uhsId) hPut.1
      refine ⟨hSize, ?_⟩
      rw [List.foldl_cons, hWrite, hPut.2, List.toFinset_cons, Finset.union_assoc]
      rfl

theorem finish_databasePut :
    (uhsIds.foldl DatabaseWriter.put .start).finish = uhsIds.toFinset := by
  obtain ⟨hSize, hWrite⟩ := foldl_databasePut uhsIds .start rfl
  have hAll : (uhsIds.foldl DatabaseWriter.put .start).write = uhsIds.toFinset := by
    rw [hWrite]
    simp [DatabaseWriter.start, DatabaseWriter.write]
  rw [DatabaseWriter.finish]
  split
  case isTrue => exact hAll
  case isFalse hNone =>
      have hBatch : (uhsIds.foldl DatabaseWriter.put .start).batch = [] :=
        List.eq_nil_of_length_eq_zero (by omega)
      rw [← hAll, DatabaseWriter.write, hBatch]
      simp

/-- Each ID is appended. -/
theorem foldl_filePut (writer : FileWriter) (h : writer.position = writer.bytes.length) :
    let last := uhsIds.foldl FileWriter.put writer
    last.bytes = writer.bytes ++ uhsIds.flatMap putArray ∧
      last.count = writer.count + UInt64.ofNat uhsIds.length := by
  induction uhsIds generalizing writer with
  | nil => simp
  | cons uhsId uhsIds ih =>
      have hBytes : (writer.put uhsId).bytes = writer.bytes ++ putArray uhsId := by
        show written writer.bytes writer.position (putArray uhsId) = _
        simp [written, h]
      have hPosition : (writer.put uhsId).position = (writer.put uhsId).bytes.length := by
        rw [hBytes, List.length_append, ← h]
        rfl
      obtain ⟨hAll, hCount⟩ := ih (writer.put uhsId) hPosition
      refine ⟨?_, ?_⟩
      · rw [List.foldl_cons, hAll, hBytes, List.append_assoc, List.flatMap_cons]
      · rw [List.foldl_cons, hCount, List.length_cons, Coins.add_ofNat_succ]
        rfl

theorem finish_filePut (h : uhsIds.length < 2 ^ 64) :
    (uhsIds.foldl FileWriter.put .start).finish = putVector putArray uhsIds := by
  obtain ⟨hBytes, hCount⟩ := foldl_filePut uhsIds .start rfl
  have hNumber : (uhsIds.foldl FileWriter.put .start).count.toNat = uhsIds.length := by
    rw [hCount]
    show ((0 : UInt64) + UInt64.ofNat uhsIds.length).toNat = _
    rw [UInt64.zero_add, UInt64.toNat_ofNat_of_lt' h]
  rw [FileWriter.finish]
  show written _ 0 _ = _
  rw [hNumber, hBytes]
  show written (putUInt64 0 ++ _) 0 _ = _
  simp [written, putVector]

/-- The elements of a file can be cut apart in one way. -/
theorem holds_putVector {uhsIds : List Hash} (h : uhsIds.length < 2 ^ 64) (uhsId : Hash) :
    (Preseed.file (putVector putArray uhsIds)).Holds uhsId ↔ uhsId ∈ uhsIds := by
  constructor
  · rintro ⟨others, hBytes, hMem⟩
    have hLength : others.length = uhsIds.length := by
      have hSame := congrArg List.length hBytes
      simp [putVector] at hSame
      omega
    have hEqual := putVector_append_inj (@length_putArray 32) (putArray_injective 32) h
      (hLength ▸ h) (congrArg (· ++ []) hBytes)
    rw [hEqual.1]
    exact hMem
  · exact fun hMem => ⟨uhsIds, rfl, hMem⟩

end Writers

section Loop

variable {crypto : Crypto} {coins : Coins} {Writer : Type} {range : Nat × Nat}
  {put : Writer → Hash → Writer}

def coinId (crypto : Crypto) (coins : Coins) (index : UInt64) : Hash :=
  (coins.seededInput crypto index).hash crypto

def writtenIds (crypto : Crypto) (coins : Coins) (range : Nat × Nat) (numUtxos : Nat) : List Hash :=
  ((List.range numUtxos).map fun txIdx => coinId crypto coins (UInt64.ofNat txIdx)).filter
    (inPrefixes range)

theorem outputHash_seeded (txIdx : UInt64) :
    (CompactTx.ofFullTx crypto (setIndex (coins.seededTransaction 0) txIdx)).uhsOutputs[0]? =
      some (coinId crypto coins txIdx) := by
  rw [getElem?_uhsOutputs]
  rfl

/-- The loop writes the IDs of the coins in the range of the shard, in their order. -/
theorem seedLoop_seeded (start : Writer) (numUtxos : UInt64) :
    seedLoop crypto (coins.seededTransaction 0) range put start numUtxos =
      some ((writtenIds crypto coins range numUtxos.toNat).foldl put start) := by
  have hLoop : ∀ (indices : List Nat) (writer : Writer),
      indices.foldlM (fun writer txIdx => (CompactTx.ofFullTx crypto
        (setIndex (coins.seededTransaction 0) (UInt64.ofNat txIdx))).uhsOutputs[0]?.map
          fun outputHash => if inPrefixes range outputHash then put writer outputHash else writer)
        writer =
      some (((indices.map fun txIdx => coinId crypto coins (UInt64.ofNat txIdx)).filter
        (inPrefixes range)).foldl put writer) := by
    intro indices
    induction indices with
    | nil => exact fun writer => rfl
    | cons txIdx indices ih =>
        intro writer
        rw [List.foldlM_cons, outputHash_seeded, Option.map_some, List.map_cons, List.filter_cons]
        show List.foldlM _ _ indices = _
        rw [ih]
        split <;> rfl
  exact hLoop _ start

theorem length_writtenIds_le (crypto : Crypto) (coins : Coins) (range : Nat × Nat)
    (numUtxos : Nat) : (writtenIds crypto coins range numUtxos).length ≤ numUtxos :=
  (List.length_filter_le _ _).trans (by simp)

theorem mem_writtenIds {numUtxos : UInt64} {uhsId : Hash} :
    uhsId ∈ writtenIds crypto coins range numUtxos.toNat ↔
      (∃ index < numUtxos, coinId crypto coins index = uhsId) ∧ inPrefixes range uhsId = true := by
  simp only [writtenIds, List.mem_filter, List.mem_map, List.mem_range]
  refine and_congr_left fun _ => ⟨?_, ?_⟩
  · rintro ⟨txIdx, hLt, hId⟩
    have hWord : txIdx < 2 ^ 64 := hLt.trans numUtxos.toNat_lt
    refine ⟨UInt64.ofNat txIdx, ?_, hId⟩
    rwa [UInt64.lt_iff_toNat_lt, UInt64.toNat_ofNat_of_lt' hWord]
  · rintro ⟨index, hLt, hId⟩
    exact ⟨index.toNat, UInt64.lt_iff_toNat_lt.mp hLt, by rwa [UInt64.ofNat_toNat]⟩

end Loop

section Split

variable {numShards shardIdx : Nat}

/-- The shard that gets the IDs of a prefix. -/
def shardOf (numShards : Nat) (uhsId : Hash) : Nat :=
  min (uhsId.firstByte.toNat / (256 / numShards)) (numShards - 1)

theorem inPrefixes_iff (uhsId : Hash) (range : Nat × Nat) :
    inPrefixes range uhsId = true ↔
      range.1 ≤ uhsId.firstByte.toNat ∧ uhsId.firstByte.toNat ≤ range.2 := by
  simp [inPrefixes]

/-- Up to 256 shards get parts that do not overlap. -/
theorem inPrefixes_iff_shardOf (hMax : numShards ≤ 256) (hIdx : shardIdx < numShards)
    (uhsId : Hash) :
    inPrefixes (prefixes numShards shardIdx) uhsId = true ↔ shardIdx = shardOf numShards uhsId := by
  have hPart : 0 < 256 / numShards := Nat.div_pos hMax (by omega)
  have hByte : uhsId.firstByte.toNat < 256 := uhsId.firstByte.toNat_lt
  have hParts : numShards * (256 / numShards) ≤ 256 := Nat.mul_div_le 256 numShards
  have hFrom : shardIdx * (256 / numShards) ≤ uhsId.firstByte.toNat ↔
      shardIdx ≤ uhsId.firstByte.toNat / (256 / numShards) := (Nat.le_div_iff_mul_le hPart).symm
  have hTo : uhsId.firstByte.toNat < (shardIdx + 1) * (256 / numShards) ↔
      uhsId.firstByte.toNat / (256 / numShards) < shardIdx + 1 := (Nat.div_lt_iff_lt_mul hPart).symm
  rw [inPrefixes_iff, shardOf, prefixes]
  dsimp only
  split
  case isTrue hLast =>
      rw [hFrom]
      omega
  case isFalse hNotLast =>
      have hStop : (shardIdx + 1) * (256 / numShards) ≤ numShards * (256 / numShards) :=
        Nat.mul_le_mul_right _ (by omega)
      have hSome : 0 < (shardIdx + 1) * (256 / numShards) := Nat.mul_pos (by omega) hPart
      rw [hFrom]
      omega

/-- With more shards than prefixes each shard gets all IDs. -/
theorem inPrefixes_of_many (hMany : 256 < numShards) (uhsId : Hash) :
    inPrefixes (prefixes numShards shardIdx) uhsId = true := by
  have hPart : 256 / numShards = 0 := Nat.div_eq_of_lt hMany
  have hByte : uhsId.firstByte.toNat < 256 := uhsId.firstByte.toNat_lt
  rw [inPrefixes_iff, prefixes, hPart]
  dsimp only
  split <;> omega

end Split

section Placement

variable {crypto : Crypto} {signing : Signing} {opts : SeedOptions} {privkey : PrivKey}

theorem toNat_numUtxos (h : opts.seedFrom < opts.seedTo) :
    (numUtxos opts).toNat = opts.seedTo.toNat - opts.seedFrom.toNat :=
  UInt64.toNat_sub_of_le _ _ (UInt64.le_of_lt h)

theorem numUtxos_ne_zero (h : opts.seedFrom < opts.seedTo) : 0 ≠ numUtxos opts := by
  intro hNone
  have hLess := UInt64.lt_iff_toNat_lt.mp h
  have hNumber := toNat_numUtxos h
  rw [← hNone, UInt64.toNat_zero] at hNumber
  omega

/-- Each thread writes a pre-seed, with the coins of the first indices in its part. -/
theorem exists_seedShard (hKey : opts.seedPrivkey = some privkey)
    (hRange : opts.seedFrom < opts.seedTo) (shardIdx : Nat) :
    ∃ preseed, seedShard crypto signing opts shardIdx = some preseed ∧
      ∀ uhsId, preseed.Holds uhsId ↔
        uhsId ∈ writtenIds crypto (seederCoins crypto signing opts privkey)
          (prefixes opts.shardRanges.length shardIdx) (numUtxos opts).toNat := by
  have hTx : (seederCoins crypto signing opts privkey).createSeededTransaction 0 =
      some ((seederCoins crypto signing opts privkey).seededTransaction 0) :=
    if_neg (numUtxos_ne_zero hRange)
  have hLength := (length_writtenIds_le crypto (seederCoins crypto signing opts privkey)
    (prefixes opts.shardRanges.length shardIdx) (numUtxos opts).toNat).trans_lt
    (numUtxos opts).toNat_lt
  cases hMode : opts.twophaseMode with
  | true =>
      refine ⟨.file (putVector putArray _), ?_, fun uhsId => holds_putVector hLength uhsId⟩
      rw [← finish_filePut _ hLength]
      simp [seedShard, hKey, hTx, seedLoop_seeded, hMode]
  | false =>
      refine ⟨.database (List.toFinset _), ?_, fun uhsId => List.mem_toFinset⟩
      rw [← finish_databasePut]
      simp [seedShard, hKey, hTx, seedLoop_seeded, hMode]

variable (crypto signing opts privkey)

def PreseedHolds (shardIdx : Nat) (uhsId : Hash) : Prop :=
  ∃ preseed, seedShard crypto signing opts shardIdx = some preseed ∧ preseed.Holds uhsId

/-- The configured ranges are disjoint and contain every prefix. -/
structure Divided (ranges : List ShardRange) : Prop where
  apart : ∀ {i j : Nat} {first second uhsId}, ranges[i]? = some first → ranges[j]? = some second →
    hashInShardRange first uhsId = true → hashInShardRange second uhsId = true → i = j
  covers : ∀ uhsId, ∃ range ∈ ranges, hashInShardRange range uhsId = true

/-- The UHS ID is written for one shard, the one whose configured range contains it. -/
def PlacedOnce (uhsId : Hash) : Prop :=
  ∃ shardIdx < opts.shardRanges.length,
    (∀ other range, opts.shardRanges[other]? = some range →
      (hashInShardRange range uhsId = true ↔ other = shardIdx)) ∧
    ∀ other < opts.shardRanges.length,
      PreseedHolds crypto signing opts other uhsId ↔ other = shardIdx

/-- The seeder places every coin that a wallet with the seeded range makes up. -/
def SeededAlike : Prop :=
  ∀ before wallet : Wallet crypto,
    before.seed signing privkey opts.seedValue.toUInt32 opts.seedFrom opts.seedTo =
      (wallet, true) →
    ∀ index, opts.seedFrom ≤ index → index < opts.seedTo →
      ∃ inp, wallet.coins.createSeededInput crypto index = some inp ∧
        PlacedOnce crypto signing opts (inp.hash crypto)

/-- The coins of the seeded range are those of the first indices, from 0 on. -/
def Issued : Prop :=
  ∀ index, opts.seedFrom ≤ index → index < opts.seedTo → ∃ first < numUtxos opts,
    coinId crypto (seederCoins crypto signing opts privkey) first =
      coinId crypto (seederCoins crypto signing opts privkey) index

/-- The shard that gets a coin of the seeded range in equal parts is the one whose
configured range contains it. -/
def Routed : Prop :=
  ∀ index, opts.seedFrom ≤ index → index < opts.seedTo →
    ∃ range, opts.shardRanges[shardOf opts.shardRanges.length
        (coinId crypto (seederCoins crypto signing opts privkey) index)]? = some range ∧
      hashInShardRange range (coinId crypto (seederCoins crypto signing opts privkey) index) = true

/-- What is hashed for the coins with indices below the end of the range. -/
def issuedBytes : Set (List UInt8) :=
  {bytes | ∃ index < opts.seedTo, bytes ∈
    hashed crypto ((seederCoins crypto signing opts privkey).seededTransaction index)}

variable {crypto signing opts privkey}

theorem preseedHolds_iff (hKey : opts.seedPrivkey = some privkey)
    (hRange : opts.seedFrom < opts.seedTo) (shardIdx : Nat) (uhsId : Hash) :
    PreseedHolds crypto signing opts shardIdx uhsId ↔
      (∃ index < numUtxos opts,
        coinId crypto (seederCoins crypto signing opts privkey) index = uhsId) ∧
      inPrefixes (prefixes opts.shardRanges.length shardIdx) uhsId = true := by
  obtain ⟨preseed, hPreseed, hHolds⟩ := exists_seedShard hKey hRange shardIdx
  rw [← mem_writtenIds, ← hHolds, PreseedHolds, hPreseed]
  simp

/-- The wallets make up the coins of the seeder. -/
theorem seededAlike_iff_placed (hRange : opts.seedFrom < opts.seedTo) :
    SeededAlike crypto signing opts privkey ↔
      ∀ index, opts.seedFrom ≤ index → index < opts.seedTo → PlacedOnce crypto signing opts
        (coinId crypto (seederCoins crypto signing opts privkey) index) := by
  have hInput : ∀ coins : Coins, ∀ index,
      (coins.seedReadonly (Validation.getP2pkWitnessCommitment crypto
        (signing.pubkeyFromPrivkey privkey)) opts.seedValue.toUInt32 opts.seedFrom
        opts.seedTo).createSeededInput crypto index =
      some ((seederCoins crypto signing opts privkey).seededInput crypto index) :=
    fun coins index => Coins.createSeededInput_eq crypto (UInt64.ne_of_lt hRange) index
  constructor
  · intro h index hFrom hTo
    obtain ⟨wallet, hSeed⟩ := exists_seed_new crypto signing privkey opts.seedValue.toUInt32 hRange
    obtain ⟨inp, hInp, hPlaced⟩ := h _ wallet hSeed index hFrom hTo
    rw [(coins_of_seed hSeed).2, hInput] at hInp
    cases hInp
    exact hPlaced
  · intro h before wallet hSeed index hFrom hTo
    refine ⟨_, ?_, h index hFrom hTo⟩
    rw [(coins_of_seed hSeed).2, hInput]

/-- The shard that is written for is the only one with the ID, up to 256 shards. -/
theorem placedOnce_iff (hKey : opts.seedPrivkey = some privkey)
    (hRange : opts.seedFrom < opts.seedTo) (hDivided : Divided opts.shardRanges) (uhsId : Hash) :
    PlacedOnce crypto signing opts uhsId ↔
      (∃ index < numUtxos opts,
        coinId crypto (seederCoins crypto signing opts privkey) index = uhsId) ∧
      opts.shardRanges.length ≤ 256 ∧
      ∃ range, opts.shardRanges[shardOf opts.shardRanges.length uhsId]? = some range ∧
        hashInShardRange range uhsId = true := by
  constructor
  · rintro ⟨shardIdx, hIdx, hConfigured, hWritten⟩
    obtain ⟨hIssued, hPart⟩ :=
      (preseedHolds_iff hKey hRange shardIdx uhsId).mp ((hWritten shardIdx hIdx).mpr rfl)
    have hFew : opts.shardRanges.length ≤ 256 := by
      by_contra hMany
      -- All shards have the ID, so the first and the second do.
      have hAll : ∀ other < opts.shardRanges.length, other = shardIdx := fun other hOther =>
        (hWritten other hOther).mp ((preseedHolds_iff hKey hRange other uhsId).mpr
          ⟨hIssued, inPrefixes_of_many (Nat.lt_of_not_le hMany) uhsId⟩)
      have hFirst := hAll 0 (by omega)
      have hSecond := hAll 1 (by omega)
      omega
    have hShard := (inPrefixes_iff_shardOf hFew hIdx uhsId).mp hPart
    refine ⟨hIssued, hFew, opts.shardRanges[shardIdx], ?_, ?_⟩
    · rw [← hShard, List.getElem?_eq_getElem hIdx]
    · exact (hConfigured shardIdx _ (List.getElem?_eq_getElem hIdx)).mpr rfl
  · rintro ⟨hIssued, hFew, range, hShard, hIn⟩
    refine ⟨_, (List.getElem?_eq_some_iff.mp hShard).1, ?_, ?_⟩
    · intro other range' hOther
      constructor
      · exact fun hBoth => hDivided.apart hOther hShard hBoth hIn
      · rintro rfl
        cases hOther.symm.trans hShard
        exact hIn
    · intro other hOther
      rw [preseedHolds_iff hKey hRange, inPrefixes_iff_shardOf hFew hOther]
      exact and_iff_right hIssued

/-- Seeded coins with different indices have different IDs, if the hash does not collide on
what is issued. -/
theorem coinId_inj {first second : UInt64} (hFirst : first < opts.seedTo)
    (hSecond : second < opts.seedTo)
    (hFree : Set.InjOn crypto.sha256 (issuedBytes crypto signing opts privkey))
    (h : coinId crypto (seederCoins crypto signing opts privkey) first =
      coinId crypto (seederCoins crypto signing opts privkey) second) : first = second := by
  have hSized := Wallet.sized_seededTransaction (seederCoins crypto signing opts privkey)
  have hId : ∀ index, (CompactTx.ofFullTx crypto
      ((seederCoins crypto signing opts privkey).seededTransaction index)).uhsOutputs[0]? =
        some (coinId crypto (seederCoins crypto signing opts privkey) index) :=
    fun index => outputHash_seeded index
  have hUnion : hashed crypto ((seederCoins crypto signing opts privkey).seededTransaction first) ∪
      hashed crypto ((seederCoins crypto signing opts privkey).seededTransaction second) ⊆
        issuedBytes crypto signing opts privkey := by
    rintro bytes (hBytes | hBytes)
    · exact ⟨first, hFirst, hBytes⟩
    · exact ⟨second, hSecond, hBytes⟩
  have hTxId := (output_unique (hSized first) (hSized second) (hFree.mono hUnion) (hId first)
    (h ▸ hId second)).2
  exact Wallet.seedIdx_inj (hFree ⟨first, hFirst, .inl rfl⟩ ⟨second, hSecond, .inl rfl⟩ hTxId)

theorem issued_of_zero (h : opts.seedFrom = 0) : Issued crypto signing opts privkey := by
  intro index _ hTo
  refine ⟨index, ?_, rfl⟩
  rwa [numUtxos, h, UInt64.sub_zero]

/-- The last coin of a range that does not start at 0 is not among the first ones. -/
theorem issued_iff (hRange : opts.seedFrom < opts.seedTo)
    (hFree : Set.InjOn crypto.sha256 (issuedBytes crypto signing opts privkey)) :
    Issued crypto signing opts privkey ↔ opts.seedFrom = 0 := by
  refine ⟨fun h => ?_, issued_of_zero⟩
  have hLess := UInt64.lt_iff_toNat_lt.mp hRange
  have hOne : (1 : UInt64) ≤ opts.seedTo := UInt64.le_iff_toNat_le.mpr (by
    rw [UInt64.toNat_one]
    omega)
  have hLast : (opts.seedTo - 1).toNat = opts.seedTo.toNat - 1 :=
    UInt64.toNat_sub_of_le _ _ hOne
  have hNumber := toNat_numUtxos hRange
  obtain ⟨first, hFirst, hSame⟩ := h (opts.seedTo - 1)
    (UInt64.le_iff_toNat_le.mpr (by omega)) (UInt64.lt_iff_toNat_lt.mpr (by omega))
  have hFirst := UInt64.lt_iff_toNat_lt.mp hFirst
  have hEqual := congrArg UInt64.toNat (coinId_inj (UInt64.lt_iff_toNat_lt.mpr (by omega))
    (UInt64.lt_iff_toNat_lt.mpr (by omega)) hFree hSame)
  exact UInt64.toNat_inj.mp (by
    rw [UInt64.toNat_zero]
    omega)

end Placement

/-- The seeder and the wallets agree if the seeded range starts at 0, there are not more
shards than prefixes, and the configured ranges divide the coins into the equal parts
that the seeder uses. If no two coins have the same ID, a range that starts elsewhere is
not issued. -/
theorem seeded_alike_iff (crypto : Crypto) (signing : Signing) (opts : SeedOptions)
    {privkey : PrivKey} (hKey : opts.seedPrivkey = some privkey)
    (hRange : opts.seedFrom < opts.seedTo) (hDivided : Divided opts.shardRanges) :
    (SeededAlike crypto signing opts privkey ↔
      Issued crypto signing opts privkey ∧ opts.shardRanges.length ≤ 256 ∧
        Routed crypto signing opts privkey) ∧
      (Set.InjOn crypto.sha256 (issuedBytes crypto signing opts privkey) →
        (Issued crypto signing opts privkey ↔ opts.seedFrom = 0)) := by
  refine ⟨?_, issued_iff hRange⟩
  rw [seededAlike_iff_placed hRange]
  constructor
  · intro h
    have hPlaced := fun index hFrom hTo => (placedOnce_iff hKey hRange hDivided _).mp
      (h index hFrom hTo)
    exact ⟨fun index hFrom hTo => (hPlaced index hFrom hTo).1,
      (hPlaced opts.seedFrom (UInt64.le_refl _) hRange).2.1,
      fun index hFrom hTo => (hPlaced index hFrom hTo).2.2⟩
  · rintro ⟨hIssued, hFew, hRouted⟩ index hFrom hTo
    exact (placedOnce_iff hKey hRange hDivided _).mpr
      ⟨hIssued index hFrom hTo, hFew, hRouted index hFrom hTo⟩

def rangeOptions (shardRanges : List ShardRange) (seedFrom seedTo : UInt64) : SeedOptions :=
  { twophaseMode := false
    shardRanges
    seedPrivkey := some (Hash.ofByte 3)
    seedValue := 5
    seedFrom
    seedTo
    loadgenCount := 1 }

theorem toNat_add_one {byte : UInt8} (h : byte.toNat < 255) :
    (byte + 1).toNat = byte.toNat + 1 := by
  rw [UInt8.toNat_add]
  exact Nat.mod_eq_of_lt (by simpa using Nat.succ_lt_succ h)

theorem divided_oneShard : Divided [(0, 255)] where
  apart hFirst hSecond _ _ := by
    have hI := (List.getElem?_eq_some_iff.mp hFirst).1
    have hJ := (List.getElem?_eq_some_iff.mp hSecond).1
    simp only [List.length_singleton] at hI hJ
    omega
  covers uhsId := ⟨(0, 255), List.mem_singleton_self _, hashInShardRange_all uhsId⟩

/-- Two ranges that meet divide the prefixes. -/
theorem divided_twoShards {last : UInt8} (hLast : last.toNat < 255) :
    Divided [(0, last), (last + 1, 255)] where
  apart {i j first second uhsId} hFirst hSecond hIn hAlso := by
    have hNext := toNat_add_one hLast
    rw [hashInShardRange_iff] at hIn hAlso
    match i, j with
    | 0, 0 => rfl
    | 1, 1 => rfl
    | 0, 1 =>
        cases hFirst
        cases hSecond
        have hBoth : (last + 1).toNat ≤ last.toNat := hAlso.1.trans hIn.2
        omega
    | 1, 0 =>
        cases hFirst
        cases hSecond
        have hBoth : (last + 1).toNat ≤ last.toNat := hIn.1.trans hAlso.2
        omega
  covers uhsId := by
    have hByte : uhsId.firstByte.toNat < 256 := uhsId.firstByte.toNat_lt
    by_cases hFirst : uhsId.firstByte.toNat ≤ last.toNat
    · exact ⟨(0, last), by simp, (hashInShardRange_iff _ _).mpr ⟨Nat.zero_le _, hFirst⟩⟩
    · refine ⟨(last + 1, 255), by simp, (hashInShardRange_iff _ _).mpr ⟨?_, ?_⟩⟩
      · rw [toNat_add_one hLast]
        exact Nat.lt_of_not_le hFirst
      · exact Nat.le_of_lt_succ hByte

/-- Two equal ranges are the parts that the seeder uses. -/
theorem routed_halves (crypto : Crypto) (signing : Signing) (seedFrom seedTo : UInt64)
    (privkey : PrivKey) :
    Routed crypto signing (rangeOptions [(0, 127), (128, 255)] seedFrom seedTo) privkey := by
  intro index _ _
  let uhsId := coinId crypto (seederCoins crypto signing
    (rangeOptions [(0, 127), (128, 255)] seedFrom seedTo) privkey) index
  have hByte : uhsId.firstByte.toNat < 256 := uhsId.firstByte.toNat_lt
  by_cases hFirst : uhsId.firstByte.toNat ≤ 127
  · have hShard : shardOf 2 uhsId = 0 := by
      rw [shardOf]
      omega
    exact ⟨(0, 127), congrArg ([(0, 127), (128, 255)][·]?) hShard,
      (hashInShardRange_iff _ _).mpr ⟨Nat.zero_le _, hFirst⟩⟩
  · have hShard : shardOf 2 uhsId = 1 := by
      rw [shardOf]
      omega
    exact ⟨(128, 255), congrArg ([(0, 127), (128, 255)][·]?) hShard,
      (hashInShardRange_iff _ _).mpr ⟨Nat.lt_of_not_le hFirst, Nat.le_of_lt_succ hByte⟩⟩

/-- Eight coins with different IDs, four in the range of each of two shards. -/
theorem seeded_alike_halves :
    SeededAlike byteSum Wallet.unusedSigning (rangeOptions [(0, 127), (128, 255)] 0 8)
        (Hash.ofByte 3) ∧
      ([0, 1, 2, 3, 4, 5, 6, 7].map fun index =>
        (coinId byteSum (seederCoins byteSum Wallet.unusedSigning
          (rangeOptions [(0, 127), (128, 255)] 0 8) (Hash.ofByte 3)) index).firstByte) =
        [133, 165, 197, 229, 5, 37, 69, 101] := by
  have hIff := seeded_alike_iff byteSum Wallet.unusedSigning
    (rangeOptions [(0, 127), (128, 255)] 0 8) rfl (by decide)
    (divided_twoShards (show (127 : UInt8).toNat < 255 by decide))
  exact ⟨hIff.1.mpr ⟨issued_of_zero rfl, by decide, routed_halves _ _ _ _ _⟩, by decide +kernel⟩

/-- The coin with index 0 has an ID that starts with 133. It is the one that is issued
for the range from 1 to 2, where the wallet makes up another. And with two shards it is
written for the second, also if it is in the range of the first. -/
theorem coins_seeded_elsewhere :
    ¬SeededAlike byteSum Wallet.unusedSigning (rangeOptions [(0, 255)] 1 2) (Hash.ofByte 3) ∧
      ¬SeededAlike byteSum Wallet.unusedSigning (rangeOptions [(0, 199), (200, 255)] 0 1)
        (Hash.ofByte 3) := by
  constructor
  · intro h
    have hPlaced := (seededAlike_iff_placed (by decide)).mp h 1 (by decide) (by decide)
    obtain ⟨⟨index, hIndex, hSame⟩, _⟩ :=
      (placedOnce_iff rfl (by decide) divided_oneShard _).mp hPlaced
    have hZero : index = 0 := UInt64.toNat_inj.mp (Nat.lt_one_iff.mp
      (UInt64.lt_iff_toNat_lt.mp hIndex))
    rw [hZero] at hSame
    exact absurd hSame (by decide +kernel)
  · intro h
    have hPlaced := (seededAlike_iff_placed (by decide)).mp h 0 (by decide) (by decide)
    obtain ⟨_, _, range, hShard, hIn⟩ :=
      (placedOnce_iff rfl (by decide)
        (divided_twoShards (show (199 : UInt8).toNat < 255 by decide)) _).mp hPlaced
    have hSecond : some range = some (200, 255) := hShard.symm.trans (by decide +kernel)
    rw [Option.some.inj hSecond] at hIn
    exact absurd hIn (by decide +kernel)

end ShardSeeder
end OpenCbdc
