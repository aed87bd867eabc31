import OpenCbdc.Serialization.MessageTypes
import OpenCbdc.Wallet.Bookkeeping

/-! Saving a wallet and loading the file into a new one. The file has the keys and the
set of coins; the queue and the total are made again from the set, and the range of
seeded coins is not written. -/
namespace OpenCbdc

open Decoder Serialization Validation

variable {crypto : Crypto}

namespace KeyStore

/-- The keys that are read are the keys of the wallet. -/
theorem keys_ofKeys {keys : Finmap fun _ : PubKey => PrivKey} {order : List (PubKey × PrivKey)}
    (h : (Collection.table id).Order keys order) : (ofKeys crypto order).keys = keys := by
  rw [← (Collection.table id).foldl_add keys order h]
  exact (List.foldl_hom KeyStore.keys fun _ _ => rfl).symm

end KeyStore

namespace Coins

variable {coins : Coins}

theorem balance_of_seeds_spent (h : coins.seedFrom = coins.seedTo) :
    coins.balance = coins.mBalance :=
  if_neg (not_not.mpr h)

/-- A wallet counts its coins without the seeded ones exactly if there are none left. -/
theorem count_eq_card_iff :
    coins.count = UInt64.ofNat coins.utxosSet.entries.card ↔ coins.seedFrom = coins.seedTo := by
  unfold count
  split
  case isTrue hSeeds => rw [add_eq_left, sub_eq_zero, eq_comm]
  case isFalse hNone => exact iff_of_true rfl (not_not.mp hNone)

theorem Agrees.mBalance_eq (h : Agrees coins) : coins.mBalance = UInt64.ofNat coins.setTotal := by
  rw [h.toListed.setTotal, h.balanced]
  exact UInt64.toNat_inj.mp (by rw [toNat_sumValues, UInt64.toNat_ofNat'])

end Coins

namespace Wallet

/-- A coin that a call can take, and that the wallet can sign for. -/
def CanSpend (wallet : Wallet crypto) (inp : Input) : Prop :=
  inp ∈ wallet.coins.spendable crypto ∧ wallet.keys.isSpendable inp = true

/-- The second wallet shows the same as the first, and spends what the first spends. -/
structure Preserved (wallet loaded : Wallet crypto) : Prop where
  balance : loaded.coins.balance = wallet.coins.balance
  count : loaded.coins.count = wallet.coins.count
  utxos : loaded.coins.utxosSet = wallet.coins.utxosSet
  keys : loaded.keys.keys = wallet.keys.keys
  spendable : ∀ inp, wallet.CanSpend inp → loaded.CanSpend inp

/-- All that the wallet has is in its set of coins. -/
structure AllStored (wallet : Wallet crypto) : Prop where
  seeds : wallet.coins.seedFrom = wallet.coins.seedTo
  balance : wallet.coins.mBalance = UInt64.ofNat wallet.coins.setTotal
  queue : ∀ inp ∈ wallet.coins.spendQueue, wallet.keys.isSpendable inp = true →
    wallet.coins.utxosSet.lookup inp.prevout = some inp.prevoutData

/-- A wallet can be written and read, whatever it holds. -/
theorem fits_save (wallet : Wallet crypto) : (MessageType.codec .walletFile).Fits wallet.save :=
  ⟨⟨Collection.proper_table_id _, fun _ _ => ⟨trivial, trivial⟩⟩,
    fun outPoint out _ => ⟨⟨outPoint, out⟩, rfl⟩, fun _ _ => trivial⟩

section Loaded

variable {wallet : Wallet crypto} {keyOrder : List (PubKey × PrivKey)} {utxoOrder : List Input}

theorem isSpendable_load (hKeys : (Collection.table id).Order wallet.save.keys keyOrder)
    (inp : Input) : ((Wallet.new crypto).load wallet.save keyOrder utxoOrder).keys.isSpendable inp =
      wallet.keys.isSpendable inp := by
  have hSame : (KeyStore.ofKeys crypto keyOrder).keys = wallet.keys.keys :=
    KeyStore.keys_ofKeys hKeys
  refine decide_eq_decide.mpr ?_
  rw [KeyStore.mem_witnessPrograms, KeyStore.mem_witnessPrograms]
  simp only [load, hSame]

theorem canSpend_iff_of_seeds_spent (h : wallet.coins.seedFrom = wallet.coins.seedTo)
    {inp : Input} : wallet.CanSpend inp ↔
      inp ∈ wallet.coins.spendQueue ∧ wallet.keys.isSpendable inp = true := by
  rw [CanSpend, Coins.spendable, Coins.seedsLeft_eq_zero_iff.mpr h]
  exact Iff.rfl

/-- The loaded wallet spends the coins of the set. -/
theorem canSpend_load (hKeys : (Collection.table id).Order wallet.save.keys keyOrder)
    (hUtxos : (Collection.table Coins.coinRow).Order wallet.save.utxos utxoOrder) (inp : Input) :
    ((Wallet.new crypto).load wallet.save keyOrder utxoOrder).CanSpend inp ↔
      wallet.coins.utxosSet.lookup inp.prevout = some inp.prevoutData ∧
        wallet.keys.isSpendable inp = true := by
  have hListed : Coins.Listed ((Wallet.new crypto).coins.ofUtxos wallet.save.utxos utxoOrder) :=
    Coins.listed_iff_order.mpr hUtxos
  rw [canSpend_iff_of_seeds_spent rfl, isSpendable_load hKeys]
  exact and_congr_left' (hListed.mem inp)

/-- In whatever order the tables are read, loading restores the wallet exactly if all of it
was stored. -/
theorem preserved_load_iff (hKeys : (Collection.table id).Order wallet.save.keys keyOrder)
    (hUtxos : (Collection.table Coins.coinRow).Order wallet.save.utxos utxoOrder) :
    wallet.Preserved ((Wallet.new crypto).load wallet.save keyOrder utxoOrder) ↔
      wallet.AllStored := by
  have hBalance : ((Wallet.new crypto).load wallet.save keyOrder utxoOrder).coins.balance =
      UInt64.ofNat wallet.coins.setTotal :=
    (Coins.balance_of_seeds_spent rfl).trans (Coins.agrees_ofUtxos hUtxos).mBalance_eq
  have hCount : ((Wallet.new crypto).load wallet.save keyOrder utxoOrder).coins.count =
      UInt64.ofNat wallet.coins.utxosSet.entries.card := Coins.count_eq_card_iff.mpr rfl
  constructor
  · intro h
    have hSeeds : wallet.coins.seedFrom = wallet.coins.seedTo :=
      Coins.count_eq_card_iff.mp (h.count.symm.trans hCount)
    refine ⟨hSeeds, ?_, ?_⟩
    · rw [← Coins.balance_of_seeds_spent hSeeds, ← h.balance, hBalance]
    · intro inp hIn hOwned
      exact ((canSpend_load hKeys hUtxos inp).mp
        (h.spendable inp ⟨List.mem_append_right _ hIn, hOwned⟩)).1
  · intro h
    refine ⟨?_, ?_, rfl, KeyStore.keys_ofKeys hKeys, ?_⟩
    · rw [hBalance, Coins.balance_of_seeds_spent h.seeds, h.balance]
    · rw [hCount, Coins.count_eq_card_iff.mpr h.seeds]
    · intro inp hSpend
      obtain ⟨hIn, hOwned⟩ := (canSpend_iff_of_seeds_spent h.seeds).mp hSpend
      exact (canSpend_load hKeys hUtxos inp).mpr ⟨h.queue inp hIn hOwned, hOwned⟩

end Loaded

/-- As long as no confirmed transaction spends a coin that is held, only seeded coins
are lost. -/
theorem allStored_iff_of_run {signing : Signing} {ops : List Operation} {wallet : Wallet crypto}
    (hRun : TransitionSystem.run (apply signing) (.new crypto) ops = some wallet)
    (hGuard : TransitionSystem.Guarded (apply signing) (.new crypto) DebitsNothing ops) :
    wallet.AllStored ↔ wallet.coins.seedFrom = wallet.coins.seedTo := by
  have hAgrees := agrees_of_run hRun hGuard
  refine ⟨AllStored.seeds, fun hSeeds => ⟨hSeeds, hAgrees.mBalance_eq, ?_⟩⟩
  intro inp hIn _
  exact (hAgrees.mem inp).mp hIn

/-- What a wallet saves is read, and loading it gives the wallet back if and only if
all that it has is in its set of coins. -/
theorem save_load_preserves_iff (wallet : Wallet crypto) (file : Buffer)
    (hFile : file.bytes ∈ (MessageType.codec .walletFile).put wallet.save) :
    ∃ saved : Wire.WalletFile, fromBuffer .walletFile file = .ok (some saved) ∧
      ∀ keyOrder utxoOrder, (Collection.table id).Order saved.keys keyOrder →
        (Collection.table Coins.coinRow).Order saved.utxos utxoOrder →
        (wallet.Preserved ((Wallet.new crypto).load saved keyOrder utxoOrder) ↔
          wallet.AllStored) := by
  have hRead := (fromBuffer_of_mem wallet.fits_save hFile (List.append_nil _).symm).1
  exact ⟨wallet.save, hRead, fun _ _ hKeys hUtxos => preserved_load_iff hKeys hUtxos⟩

def oneKeyBytes : List UInt8 :=
  putUInt64 1 ++ (putArray (Hash.ofByte 3) ++ putArray (Hash.ofByte 3))

theorem oneKeyBytes_mem {keys : Finmap fun _ : PubKey => PrivKey}
    (h : (Collection.table id).Order keys [(Hash.ofByte 3, Hash.ofByte 3)]) :
    oneKeyBytes ∈ Codec.walletKeys.put keys :=
  mem_putContainer_singleton h (Language.append_mem_mul rfl rfl)

def oneCoin : Input := ⟨⟨.ofByte 9, 0⟩, payTo .unused (Hash.ofByte 3) 5⟩

def oneCoinWallet : Wallet .unused :=
  ((Wallet.new .unused).generateKey unusedSigning ⟨Hash.ofByte 3, 0⟩).1.confirmInputs [oneCoin]

theorem oneCoinWallet_keys :
    (Collection.table id).Order oneCoinWallet.save.keys [(Hash.ofByte 3, Hash.ofByte 3)] := by
  decide +kernel

theorem oneCoinWallet_utxos :
    (Collection.table Coins.coinRow).Order oneCoinWallet.save.utxos [oneCoin] := by
  decide +kernel

def oneCoinFile : Buffer := ⟨oneKeyBytes ++ (putUInt64 1 ++ putInput oneCoin), by decide +kernel⟩

theorem save_load_preserves_oneCoin :
    oneCoinWallet.CanSpend oneCoin ∧ ∃ saved : Wire.WalletFile,
      fromBuffer .walletFile oneCoinFile = .ok (some saved) ∧
        ((Wallet.new .unused).load saved [(Hash.ofByte 3, Hash.ofByte 3)] [oneCoin]).CanSpend
          oneCoin := by
  have hSpend : oneCoinWallet.CanSpend oneCoin :=
    (canSpend_iff_of_seeds_spent rfl).mpr (by decide +kernel)
  have hStored : oneCoinWallet.AllStored :=
    ⟨rfl, by decide +kernel, by decide +kernel⟩
  have hFile : oneCoinFile.bytes ∈ (MessageType.codec .walletFile).put oneCoinWallet.save :=
    Language.append_mem_mul (oneKeyBytes_mem oneCoinWallet_keys)
      (mem_putContainer_singleton oneCoinWallet_utxos rfl)
  obtain ⟨saved, hRead, hPreserved⟩ := save_load_preserves_iff oneCoinWallet oneCoinFile hFile
  have hSaved : saved = oneCoinWallet.save := by
    have hSame := (fromBuffer_of_mem oneCoinWallet.fits_save hFile (List.append_nil _).symm).1
    rw [hRead] at hSame
    exact Option.some.inj (Except.ok.inj hSame)
  subst hSaved
  exact ⟨hSpend, _, hRead,
    ((hPreserved _ _ oneCoinWallet_keys oneCoinWallet_utxos).mpr hStored).spendable _ hSpend⟩

def seededWallet : Wallet .unused :=
  ((Wallet.new .unused).seed unusedSigning (Hash.ofByte 3) 5 0 1).1

def seededFile : Buffer := ⟨oneKeyBytes ++ putUInt64 0, by decide +kernel⟩

/-- The coin is not in the file, and the loaded wallet is empty. -/
theorem seeded_coin_not_saved :
    seededFile.bytes ∈ (MessageType.codec .walletFile).put seededWallet.save ∧
      fromBuffer .walletFile seededFile = .ok (some seededWallet.save) ∧
      seededWallet.coins.balance = 5 ∧ seededWallet.coins.count = 1 ∧
      ((Wallet.new .unused).load seededWallet.save [(Hash.ofByte 3, Hash.ofByte 3)]
        []).coins.balance = 0 ∧
      ((Wallet.new .unused).load seededWallet.save [(Hash.ofByte 3, Hash.ofByte 3)]
        []).coins.count = 0 := by
  have hKeys : (Collection.table id).Order seededWallet.save.keys
      [(Hash.ofByte 3, Hash.ofByte 3)] := by
    decide +kernel
  have hUtxos : (Collection.table Coins.coinRow).Order seededWallet.save.utxos [] := by
    decide +kernel
  have hFile : seededFile.bytes ∈ (MessageType.codec .walletFile).put seededWallet.save :=
    Language.append_mem_mul (oneKeyBytes_mem hKeys) (mem_putContainer_nil hUtxos)
  refine ⟨hFile, (fromBuffer_of_mem seededWallet.fits_save hFile (List.append_nil _).symm).1, ?_⟩
  decide +kernel

end Wallet
end OpenCbdc
