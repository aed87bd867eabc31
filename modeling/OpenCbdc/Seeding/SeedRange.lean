import Mathlib.Data.Set.Disjoint
import Mathlib.Order.CompletePartialOrder
import Mathlib.Order.Interval.Set.Basic
import OpenCbdc.Wallet.Holdings

/-! The coins that are issued before a system starts, and how they are divided among
the load generators. A generator seeds its wallet with a range of indices and spends
the coins that belong to them. -/
namespace OpenCbdc

open TransitionSystem

/-- The part of `config::options` that the seeding programs read. -/
structure SeedOptions where
  twophaseMode : Bool
  shardRanges : List ShardRange
  seedPrivkey : Option PrivKey
  seedValue : UInt64
  seedFrom : UInt64
  seedTo : UInt64
  loadgenCount : UInt64

/-- `config::loadgen_seed_range`. It asserts that the ID is less than the count. -/
def loadgenSeedRange (opts : SeedOptions) (genId : UInt64) : UInt64 × UInt64 :=
  let totalSeedRange := opts.seedTo - opts.seedFrom
  let seedRangeSz := totalSeedRange / opts.loadgenCount
  let ourRangeStart := opts.seedFrom + genId * seedRangeSz
  let ourRangeEnd := ourRangeStart + seedRangeSz - 1
  (ourRangeStart, ourRangeEnd)

/-- The wallet that a load generator starts with. Without a private key, or when
`wallet::seed` fails, the generator ends. -/
def seedGenerator (crypto : Crypto) (signing : Signing) (opts : SeedOptions) (genId : UInt64) :
    Option (Wallet crypto) :=
  if opts.seedFrom ≠ opts.seedTo then
    match opts.seedPrivkey with
    | none => none
    | some privkey =>
        let (rangeStart, rangeEnd) := loadgenSeedRange opts genId
        match (Wallet.new crypto).seed signing privkey opts.seedValue.toUInt32 rangeStart
          rangeEnd with
        | (wallet, true) => some wallet
        | (_, false) => none
  else some (.new crypto)

/-- The indices of the half-open range that a generator passes to `wallet::seed`. -/
def generatorRange (opts : SeedOptions) (genId : UInt64) : Set Nat :=
  Set.Ico (loadgenSeedRange opts genId).1.toNat (loadgenSeedRange opts genId).2.toNat

def seededRange (opts : SeedOptions) : Set Nat := Set.Ico opts.seedFrom.toNat opts.seedTo.toNat

namespace Wallet

variable {crypto : Crypto}

/-- A call takes the seeded coin with this index. -/
def Takes (signing : Signing) (wallet : Wallet crypto) (call : SpendCall) (index : Nat) : Prop :=
  ∃ i < ((wallet.spend signing call).1.coins.seedFrom - wallet.coins.seedFrom).toNat,
    index = (wallet.coins.seedFrom + UInt64.ofNat i).toNat

/-- Any operation but `seed`. -/
def Operation.NoSeed : Operation → Prop
  | .seed _ _ _ _ => False
  | _ => True

end Wallet

/-- The generator spends the coin with this index at some time, whatever its wallet
has done before. -/
def GeneratorSpends (crypto : Crypto) (signing : Signing) (opts : SeedOptions) (genId : UInt64)
    (index : Nat) : Prop :=
  ∃ start ops wallet call, seedGenerator crypto signing opts genId = some start ∧
    (∀ op ∈ ops, Wallet.Operation.NoSeed op) ∧
    run (Wallet.apply signing) start ops = some wallet ∧ wallet.Takes signing call index

/-- The ranges of the generators do not meet and lie in the seeded range, so that no
coin is spent by two generators, and none that was not issued. -/
structure GeneratorsApart (crypto : Crypto) (signing : Signing) (opts : SeedOptions) : Prop where
  disjoint : ∀ i j, i < opts.loadgenCount → j < opts.loadgenCount → i ≠ j →
    Disjoint (generatorRange opts i) (generatorRange opts j)
  contained : ∀ i < opts.loadgenCount, generatorRange opts i ⊆ seededRange opts
  spentOnce : ∀ i j, i < opts.loadgenCount → j < opts.loadgenCount → i ≠ j → ∀ index,
    GeneratorSpends crypto signing opts i index → ¬GeneratorSpends crypto signing opts j index
  spentSeeded : ∀ i < opts.loadgenCount, ∀ index,
    GeneratorSpends crypto signing opts i index → index ∈ seededRange opts

section Ranges

variable {opts : SeedOptions} {genId : UInt64}

def rangeSize (opts : SeedOptions) : Nat :=
  (opts.seedTo.toNat - opts.seedFrom.toNat) / opts.loadgenCount.toNat

/-- The coins of a generator are issued ones. -/
theorem rangeSize_mul_le (hOrder : opts.seedFrom ≤ opts.seedTo) (hId : genId < opts.loadgenCount) :
    opts.seedFrom.toNat + genId.toNat * rangeSize opts + rangeSize opts ≤ opts.seedTo.toNat := by
  have hFrom : opts.seedFrom.toNat ≤ opts.seedTo.toNat := UInt64.le_iff_toNat_le.mp hOrder
  have hAll : opts.loadgenCount.toNat * rangeSize opts ≤ opts.seedTo.toNat - opts.seedFrom.toNat :=
    Nat.mul_div_le _ _
  have hNext : (genId.toNat + 1) * rangeSize opts ≤ opts.loadgenCount.toNat * rangeSize opts :=
    Nat.mul_le_mul_right _ (UInt64.lt_iff_toNat_lt.mp hId)
  rw [Nat.succ_mul] at hNext
  omega

theorem toNat_seedRangeSz (hOrder : opts.seedFrom ≤ opts.seedTo) :
    ((opts.seedTo - opts.seedFrom) / opts.loadgenCount).toNat = rangeSize opts := by
  rw [UInt64.toNat_div, UInt64.toNat_sub_of_le _ _ hOrder, rangeSize]

theorem toNat_rangeStart (hOrder : opts.seedFrom ≤ opts.seedTo) (hId : genId < opts.loadgenCount) :
    (loadgenSeedRange opts genId).1.toNat =
      opts.seedFrom.toNat + genId.toNat * rangeSize opts := by
  have hBound := rangeSize_mul_le hOrder hId
  have hTo := opts.seedTo.toNat_lt
  have hSize := toNat_seedRangeSz hOrder
  show (opts.seedFrom + genId * ((opts.seedTo - opts.seedFrom) / opts.loadgenCount)).toNat = _
  rw [UInt64.toNat_add, UInt64.toNat_mul, hSize]
  rw [Nat.mod_eq_of_lt (a := genId.toNat * rangeSize opts) (by omega), Nat.mod_eq_of_lt (by omega)]

theorem toNat_rangeEnd (hOrder : opts.seedFrom ≤ opts.seedTo) (hId : genId < opts.loadgenCount) :
    (loadgenSeedRange opts genId).2.toNat =
      (2 ^ 64 - 1 + (opts.seedFrom.toNat + genId.toNat * rangeSize opts + rangeSize opts)) %
        2 ^ 64 := by
  have hBound := rangeSize_mul_le hOrder hId
  have hTo := opts.seedTo.toNat_lt
  show ((loadgenSeedRange opts genId).1 +
    (opts.seedTo - opts.seedFrom) / opts.loadgenCount - 1).toNat = _
  rw [UInt64.toNat_sub, UInt64.toNat_add, toNat_rangeStart hOrder hId, toNat_seedRangeSz hOrder,
    UInt64.toNat_one, Nat.mod_eq_of_lt
      (a := opts.seedFrom.toNat + genId.toNat * rangeSize opts + rangeSize opts) (by omega)]

/-- The range of a generator, unless it starts at 0 and has no coin: then the end wraps
around. The last coin of each generator is not used. -/
theorem generatorRange_eq (hOrder : opts.seedFrom ≤ opts.seedTo) (hId : genId < opts.loadgenCount)
    (hSome : 0 < opts.seedFrom.toNat + rangeSize opts) :
    generatorRange opts genId = Set.Ico (opts.seedFrom.toNat + genId.toNat * rangeSize opts)
      (opts.seedFrom.toNat + genId.toNat * rangeSize opts + rangeSize opts - 1) := by
  have hBound := rangeSize_mul_le hOrder hId
  have hTo := opts.seedTo.toNat_lt
  rw [generatorRange, toNat_rangeStart hOrder hId, toNat_rangeEnd hOrder hId]
  congr 1
  omega

theorem generatorRange_of_wrap (hOrder : opts.seedFrom ≤ opts.seedTo)
    (hId : genId < opts.loadgenCount) (hNone : opts.seedFrom.toNat + rangeSize opts = 0) :
    generatorRange opts genId = Set.Ico 0 (2 ^ 64 - 1) := by
  obtain ⟨hFrom, hSize⟩ := Nat.add_eq_zero_iff.mp hNone
  rw [generatorRange, toNat_rangeStart hOrder hId, toNat_rangeEnd hOrder hId, hFrom, hSize]
  rfl

/-- There is a coin for each generator, or the indices do not start at 0. -/
theorem ends_iff (hCount : 1 ≤ opts.loadgenCount) :
    0 < opts.seedFrom.toNat + rangeSize opts ↔
      opts.seedFrom ≠ 0 ∨ opts.loadgenCount ≤ opts.seedTo := by
  have hPositive : 1 ≤ opts.loadgenCount.toNat := UInt64.le_iff_toNat_le.mp hCount
  have hFrom : opts.seedFrom = 0 ↔ opts.seedFrom.toNat = 0 := UInt64.toNat_inj.symm
  have hSize : 0 < rangeSize opts ↔
      opts.loadgenCount.toNat ≤ opts.seedTo.toNat - opts.seedFrom.toNat := Nat.div_pos_iff.trans
    (and_iff_right hPositive)
  rw [Ne, hFrom, UInt64.le_iff_toNat_le]
  omega

theorem contained_of_ends (hOrder : opts.seedFrom ≤ opts.seedTo)
    (hSome : 0 < opts.seedFrom.toNat + rangeSize opts) (hId : genId < opts.loadgenCount) :
    generatorRange opts genId ⊆ seededRange opts := by
  have hBound := rangeSize_mul_le hOrder hId
  rw [generatorRange_eq hOrder hId hSome, seededRange]
  intro index hIndex
  rw [Set.mem_Ico] at hIndex ⊢
  omega

theorem disjoint_of_lt {other : UInt64} (hOrder : opts.seedFrom ≤ opts.seedTo)
    (hSome : 0 < opts.seedFrom.toNat + rangeSize opts) (hOther : other < opts.loadgenCount)
    (hLess : genId < other) : Disjoint (generatorRange opts genId) (generatorRange opts other) := by
  have hId : genId < opts.loadgenCount := UInt64.lt_trans hLess hOther
  have hNext := Nat.mul_le_mul_right (rangeSize opts)
    (Nat.succ_le_of_lt (UInt64.lt_iff_toNat_lt.mp hLess))
  rw [Nat.succ_mul] at hNext
  rw [generatorRange_eq hOrder hId hSome, generatorRange_eq hOrder hOther hSome,
    Set.disjoint_left]
  intro index hFirst hSecond
  rw [Set.mem_Ico] at hFirst hSecond
  omega

theorem disjoint_of_ends (hOrder : opts.seedFrom ≤ opts.seedTo)
    (hSome : 0 < opts.seedFrom.toNat + rangeSize opts) {i j : UInt64} (hI : i < opts.loadgenCount)
    (hJ : j < opts.loadgenCount) (hNe : i ≠ j) :
    Disjoint (generatorRange opts i) (generatorRange opts j) := by
  rcases Nat.lt_or_gt_of_ne fun hSame => hNe (UInt64.toNat_inj.mp hSame) with hLess | hGreater
  · exact disjoint_of_lt hOrder hSome hJ (UInt64.lt_iff_toNat_lt.mpr hLess)
  · exact (disjoint_of_lt hOrder hSome hI (UInt64.lt_iff_toNat_lt.mpr hGreater)).symm

end Ranges

section Spending

variable {crypto : Crypto} {signing : Signing}

/-- The seeded coins that are left are the last ones of a range. -/
structure SeedsWithin (first last : UInt64) (coins : Coins) : Prop where
  seedTo : coins.seedTo = last
  first_le : first ≤ coins.seedFrom
  le_last : coins.seedFrom ≤ last

variable {first last : UInt64} {wallet next : Wallet crypto}

theorem SeedsWithin.seedsLeft {coins : Coins} (h : SeedsWithin first last coins) :
    coins.seedFrom.toNat + coins.seedsLeft = last.toNat := by
  have hLe := UInt64.le_iff_toNat_le.mp h.le_last
  rw [Coins.seedsLeft, h.seedTo, UInt64.toNat_sub_of_le _ _ h.le_last]
  omega

theorem toNat_seedFrom_add {coins : Coins} (h : SeedsWithin first last coins) {seeds : Nat}
    (hSeeds : seeds ≤ coins.seedsLeft) :
    (coins.seedFrom + UInt64.ofNat seeds).toNat = coins.seedFrom.toNat + seeds := by
  have hLeft := h.seedsLeft
  have hLast := last.toNat_lt
  rw [UInt64.toNat_add, UInt64.toNat_ofNat_of_lt' (by simp [UInt64.size]; omega)]
  exact Nat.mod_eq_of_lt (by omega)

/-- A call takes seeded coins of the range, and leaves the ones behind them. -/
theorem SeedsWithin.spend (h : SeedsWithin first last wallet.coins) (call : Wallet.SpendCall) :
    SeedsWithin first last (wallet.spend signing call).1.coins ∧
      ∀ index, wallet.Takes signing call index → index ∈ Set.Ico first.toNat last.toNat := by
  have hFirst := UInt64.le_iff_toNat_le.mp h.first_le
  have hLeft := h.seedsLeft
  rcases wallet.spend_cases signing call with
    hNone | ⟨seeds, queued, witness, hAvailable, _, hSome⟩
  · refine ⟨by rwa [hNone], ?_⟩
    rintro index ⟨i, hi, _⟩
    simp [hNone] at hi
  · have hFrom : (wallet.spend signing call).1.coins.seedFrom =
        wallet.coins.seedFrom + UInt64.ofNat seeds := by
      rw [hSome]
      rfl
    have hTo : (wallet.spend signing call).1.coins.seedTo = wallet.coins.seedTo := by
      rw [hSome]
      rfl
    have hAfter := toNat_seedFrom_add h hAvailable.seeds
    have hSeeds := hAvailable.seeds
    refine ⟨⟨hTo.trans h.seedTo, ?_, ?_⟩, ?_⟩
    · rw [hFrom, UInt64.le_iff_toNat_le, hAfter]
      omega
    · rw [hFrom, UInt64.le_iff_toNat_le, hAfter]
      omega
    · rintro index ⟨i, hi, rfl⟩
      rw [hFrom, add_sub_cancel_left, hAvailable.toNat_seeds] at hi
      rw [toNat_seedFrom_add h (by omega), Set.mem_Ico]
      omega

/-- No operation but seeding leaves the range: spending only moves its start. -/
theorem SeedsWithin.apply (h : SeedsWithin first last wallet.coins) {op : Wallet.Operation}
    (hOp : op.NoSeed) (hStep : wallet.apply signing op = some next) :
    SeedsWithin first last next.coins := by
  have hFrame : ∀ credits debits,
      SeedsWithin first last (wallet.coins.updateBalance credits debits) := by
    intro credits debits
    obtain ⟨balance, utxos, queue, hSame⟩ := wallet.coins.updateBalance_frame credits debits
    rw [hSame]
    exact ⟨h.seedTo, h.first_le, h.le_last⟩
  cases op with
  | confirmTransaction tx =>
      simp only [Wallet.apply, Wallet.confirmTransaction, Option.ite_none_left_eq_some,
        Option.some.injEq] at hStep
      obtain ⟨_, rfl⟩ := hStep
      exact hFrame _ _
  | confirmInputs credits =>
      obtain rfl := Option.some.inj hStep
      exact hFrame _ _
  | spend call =>
      obtain rfl := Option.some.inj hStep
      exact (h.spend call).1
  | seed privkey value beginSeed endSeed => exact hOp.elim
  | generateKey draw =>
      obtain rfl := Option.some.inj hStep
      exact h
  | load file keyOrder utxoOrder =>
      simp only [Wallet.apply, Option.ite_none_right_eq_some, Option.some.injEq] at hStep
      obtain ⟨_, rfl⟩ := hStep
      exact ⟨h.seedTo, h.first_le, h.le_last⟩

theorem SeedsWithin.run {start : Wallet crypto} (h : SeedsWithin first last start.coins)
    {ops : List Wallet.Operation} (hOps : ∀ op ∈ ops, op.NoSeed)
    (hRun : run (Wallet.apply signing) start ops = some wallet) :
    SeedsWithin first last wallet.coins := by
  refine run_induction (motive := fun ops wallet => (∀ op ∈ ops, op.NoSeed) →
    SeedsWithin first last wallet.coins) (fun _ => h) ?_ hRun hOps
  intro before state op next _ ih hStep hAll
  exact (ih fun other hOther => hAll other (List.mem_append_left _ hOther)).apply
    (hAll op (List.mem_append_right _ (List.mem_singleton_self op))) hStep

/-- What a wallet has when `wallet::seed` succeeds. -/
theorem coins_of_seed {privkey : PrivKey} {value : UInt32}
    (h : wallet.seed signing privkey value first last = (next, true)) :
    first < last ∧ next.coins = wallet.coins.seedReadonly
      (Validation.getP2pkWitnessCommitment crypto (signing.pubkeyFromPrivkey privkey)) value first
      last := by
  rw [Wallet.seed] at h
  split at h
  case isTrue => cases h
  case isFalse hLess =>
    split at h
    · cases h
    · cases h
      exact ⟨UInt64.not_le.mp hLess, rfl⟩

/-- A new wallet has no keys, so it can be seeded. -/
theorem exists_seed_new (crypto : Crypto) (signing : Signing) (privkey : PrivKey) (value : UInt32)
    (h : first < last) :
    ∃ next, (Wallet.new crypto).seed signing privkey value first last = (next, true) := by
  have hKeys : ¬(Wallet.new crypto).keys.keys ≠ ∅ := not_not.mpr rfl
  rw [Wallet.seed, if_neg (UInt64.not_le.mpr h), if_neg hKeys]
  exact ⟨_, rfl⟩

theorem seedsWithin_of_seed {privkey : PrivKey} {value : UInt32}
    (h : wallet.seed signing privkey value first last = (next, true)) :
    SeedsWithin first last next.coins := by
  obtain ⟨hLess, hCoins⟩ := coins_of_seed h
  rw [hCoins]
  exact ⟨rfl, UInt64.le_refl first, UInt64.le_of_lt hLess⟩

/-- A wallet that is not seeded has no seeded coins. -/
theorem seedsWithin_seedGenerator {opts : SeedOptions} {genId : UInt64}
    (h : seedGenerator crypto signing opts genId = some wallet) :
    SeedsWithin (loadgenSeedRange opts genId).1 (loadgenSeedRange opts genId).2 wallet.coins ∨
      SeedsWithin 0 0 wallet.coins := by
  rw [seedGenerator] at h
  split at h
  · split at h
    · cases h
    · dsimp only at h
      split at h
      case h_1 hSeed =>
        cases h
        exact .inl (seedsWithin_of_seed hSeed)
      case h_2 => cases h
  · cases h
    exact .inr ⟨rfl, UInt64.le_refl 0, UInt64.le_refl 0⟩

/-- A generator only spends coins of its range. -/
theorem mem_generatorRange_of_spends {opts : SeedOptions} {genId : UInt64} {index : Nat}
    (h : GeneratorSpends crypto signing opts genId index) : index ∈ generatorRange opts genId := by
  obtain ⟨start, ops, wallet, call, hStart, hOps, hRun, hTakes⟩ := h
  rcases seedsWithin_seedGenerator hStart with hRange | hNone
  · exact ((hRange.run hOps hRun).spend call).2 index hTakes
  · have hIndex := ((hNone.run hOps hRun).spend call).2 index hTakes
    simp at hIndex

end Spending

/-- The ranges of the load generators are apart, unless the indices start at 0 and there
are more generators than coins. Then each generator gets all indices but the largest. -/
theorem generators_apart_iff (crypto : Crypto) (signing : Signing) {opts : SeedOptions}
    (hOrder : opts.seedFrom ≤ opts.seedTo) (hCount : 1 ≤ opts.loadgenCount) :
    GeneratorsApart crypto signing opts ↔
      opts.seedFrom ≠ 0 ∨ opts.loadgenCount ≤ opts.seedTo := by
  rw [← ends_iff hCount]
  constructor
  · intro h
    by_contra hWrap
    have hZero : (0 : UInt64) < opts.loadgenCount :=
      UInt64.lt_iff_toNat_lt.mpr (UInt64.le_iff_toNat_le.mp hCount)
    have hContained := h.contained 0 hZero
    rw [generatorRange_of_wrap hOrder hZero (by omega), seededRange] at hContained
    -- The index behind the last coin is in the range of the first generator.
    have hTo : opts.seedTo.toNat < 2 ^ 64 - 1 := by
      have hFew : opts.seedTo.toNat < opts.loadgenCount.toNat := by
        refine Nat.lt_of_not_le fun hMany => hWrap ((ends_iff hCount).mpr (.inr ?_))
        exact UInt64.le_iff_toNat_le.mpr hMany
      have hSmall := opts.loadgenCount.toNat_lt
      omega
    exact (Set.mem_Ico.mp (hContained (Set.mem_Ico.mpr ⟨Nat.zero_le _, hTo⟩))).2.false
  · intro hSome
    have hDisjoint : ∀ i j, i < opts.loadgenCount → j < opts.loadgenCount → i ≠ j →
        Disjoint (generatorRange opts i) (generatorRange opts j) :=
      fun i j hI hJ hNe => disjoint_of_ends hOrder hSome hI hJ hNe
    have hContained : ∀ i < opts.loadgenCount, generatorRange opts i ⊆ seededRange opts :=
      fun i hI => contained_of_ends hOrder hSome hI
    refine ⟨hDisjoint, hContained, ?_, ?_⟩
    · intro i j hI hJ hNe index hFirst hSecond
      exact Set.disjoint_left.mp (hDisjoint i j hI hJ hNe) (mem_generatorRange_of_spends hFirst)
        (mem_generatorRange_of_spends hSecond)
    · intro i hI index hSpends
      exact hContained i hI (mem_generatorRange_of_spends hSpends)

def countedOptions (seedTo loadgenCount : UInt64) : SeedOptions :=
  { twophaseMode := true
    shardRanges := [(0, 255)]
    seedPrivkey := some (Hash.ofByte 3)
    seedValue := 5
    seedFrom := 0
    seedTo
    loadgenCount }

theorem generators_apart_two :
    GeneratorsApart .unused Wallet.unusedSigning (countedOptions 4 2) :=
  (generators_apart_iff .unused Wallet.unusedSigning (by decide) (by decide)).mpr
    (.inr (by decide))

/-- A call of a wallet that is seeded from 0 on takes the first two coins. -/
def takesTwo (signing : Signing) (call : Wallet.SpendCall) (wallet : Wallet .unused) : Bool :=
  decide (wallet.coins.seedFrom = 0 ∧ (wallet.spend signing call).1.coins.seedFrom = 2)

theorem spends_of_takesTwo {signing : Signing} {opts : SeedOptions} {genId : UInt64}
    {call : Wallet.SpendCall} {index : Nat} (hIndex : index < 2)
    (hTest : (seedGenerator .unused signing opts genId).any (takesTwo signing call) = true) :
    GeneratorSpends .unused signing opts genId index := by
  obtain ⟨wallet, hStart, hWallet⟩ := (Option.any_eq_true _ _).mp hTest
  obtain ⟨hFrom, hTaken⟩ := of_decide_eq_true hWallet
  refine ⟨wallet, [], wallet, call, hStart, nofun, rfl, index, ?_, ?_⟩
  · rwa [hFrom, hTaken]
  · rw [hFrom, UInt64.zero_add, UInt64.toNat_ofNat_of_lt' (by simp [UInt64.size]; omega)]

/-- There is one coin for two generators. Both can spend it, and also the next one,
which was not issued. -/
theorem one_coin_spent_twice :
    GeneratorSpends .unused Wallet.unusedSigning (countedOptions 1 2) 0 0 ∧
      GeneratorSpends .unused Wallet.unusedSigning (countedOptions 1 2) 1 0 ∧
      GeneratorSpends .unused Wallet.unusedSigning (countedOptions 1 2) 1 1 ∧
      1 ∉ seededRange (countedOptions 1 2) := by
  have hFirst : (seedGenerator .unused Wallet.unusedSigning (countedOptions 1 2) 0).any
      (takesTwo Wallet.unusedSigning (.sendToCounts 2 1 (Hash.ofByte 4) false)) = true := by
    decide +kernel
  have hSecond : (seedGenerator .unused Wallet.unusedSigning (countedOptions 1 2) 1).any
      (takesTwo Wallet.unusedSigning (.sendToCounts 2 1 (Hash.ofByte 4) false)) = true := by
    decide +kernel
  refine ⟨spends_of_takesTwo (by decide) hFirst, spends_of_takesTwo (by decide) hSecond,
    spends_of_takesTwo (by decide) hSecond, ?_⟩
  simp [seededRange, countedOptions]

end OpenCbdc
