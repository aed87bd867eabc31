import Mathlib.Data.UInt
import OpenCbdc.Wallet.KeyStore

/-! A wallet: the coins it holds and the transactions it makes of them. Coins that
were issued before the system has started are not stored; they are made up from
their index when they are spent. -/
namespace OpenCbdc

open Validation

/-- The members of `wallet` behind `m_utxos_mut`. The set of inputs is ordered and
compared by out point. -/
structure Coins where
  mBalance : UInt64
  utxosSet : Finmap fun _ : OutPoint => Output
  seedFrom : UInt64
  seedTo : UInt64
  seedValue : UInt32
  seedWitnessCommitment : Hash
  spendQueue : List Input
deriving DecidableEq

namespace Coins

def empty : Coins :=
  { mBalance := 0
    utxosSet := ∅
    seedFrom := 0
    seedTo := 0
    seedValue := 0
    seedWitnessCommitment := .ofByte 0
    spendQueue := [] }

def balance (coins : Coins) : UInt64 :=
  if coins.seedFrom ≠ coins.seedTo then
    coins.mBalance + (coins.seedTo - coins.seedFrom) * coins.seedValue.toUInt64
  else coins.mBalance

def count (coins : Coins) : UInt64 :=
  let size := UInt64.ofNat coins.utxosSet.entries.card
  if coins.seedFrom ≠ coins.seedTo then size + (coins.seedTo - coins.seedFrom) else size

def createSeededTransaction (coins : Coins) (seedIdx : UInt64) : Option FullTx :=
  if coins.seedFrom = coins.seedTo then none
  else some
    { inputs := [⟨⟨.ofByte 0, seedIdx⟩, ⟨.ofByte 0, coins.seedValue.toUInt64⟩⟩]
      outputs := [⟨coins.seedWitnessCommitment, coins.seedValue.toUInt64⟩]
      witness := [] }

def createSeededInput (crypto : Crypto) (coins : Coins) (seedIdx : UInt64) : Option Input :=
  (coins.createSeededTransaction seedIdx).bind fun tx => inputFromOutput crypto tx 0

def seedReadonly (coins : Coins) (witnessCommitment : Hash) (value : UInt32)
    (beginSeed endSeed : UInt64) : Coins :=
  { coins with
    seedFrom := beginSeed
    seedTo := endSeed
    seedValue := value
    seedWitnessCommitment := witnessCommitment }

/-- The first loop of `update_balance`. -/
def credit (coins : Coins) (inp : Input) : Coins :=
  if inp.prevout ∈ coins.utxosSet then coins
  else
    { coins with
      utxosSet := coins.utxosSet.insert inp.prevout inp.prevoutData
      mBalance := coins.mBalance + inp.prevoutData.value
      spendQueue := coins.spendQueue ++ [inp] }

/-- The second loop of `update_balance`. The queue is not touched. -/
def debit (coins : Coins) (inp : Input) : Coins :=
  if inp.prevout ∈ coins.utxosSet then
    { coins with
      utxosSet := coins.utxosSet.erase inp.prevout
      mBalance := coins.mBalance - inp.prevoutData.value }
  else coins

def updateBalance (coins : Coins) (credits debits : List Input) : Coins :=
  debits.foldl debit (credits.foldl credit coins)

def confirmInputs (coins : Coins) (credits : List Input) : Coins :=
  coins.updateBalance credits []

/-- The part of `load` that reads the coins, in the order of the set. -/
def ofUtxos (coins : Coins) (utxos : Finmap fun _ : OutPoint => Output) (order : List Input) :
    Coins :=
  { coins with
    utxosSet := utxos
    mBalance := (order.map fun utxo => utxo.prevoutData.value).sum
    spendQueue := order }

/-- A transaction under construction: `ret`, `total_amount` and `seeded_inputs`. -/
structure Draft where
  inputs : List Input
  witness : List (List UInt8)
  totalAmount : UInt64
  seededInputs : UInt64

def Draft.new : Draft := { inputs := [], witness := [], totalAmount := 0, seededInputs := 0 }

/-- The place for a signature that is filled when the transaction is signed. -/
def blankWitness : List UInt8 := List.replicate 64 0

/-- The loop over the seeded coins, as long as more are wanted. It makes at most as
many rounds as there are coins left. -/
def takeSeeded (crypto : Crypto) (wanted : Draft → Bool) :
    Nat → Coins → Draft → Coins × Draft
  | 0, coins, draft => (coins, draft)
  | rounds + 1, coins, draft =>
      if coins.seedFrom ≠ coins.seedTo ∧ wanted draft then
        match coins.createSeededInput crypto coins.seedFrom with
        | none => (coins, draft)
        | some seedUtxo =>
            takeSeeded crypto wanted rounds { coins with seedFrom := coins.seedFrom + 1 }
              { inputs := draft.inputs ++ [seedUtxo]
                witness := draft.witness ++ [blankWitness]
                totalAmount := draft.totalAmount + coins.seedValue.toUInt64
                seededInputs := draft.seededInputs + 1 }
      else (coins, draft)

/-- The loop over the spend queue, as long as more are wanted. One of the two callers
adds a place for each witness. -/
def takeQueued (wanted : Draft → Bool) (withWitness : Bool) : List Input → Draft → Draft
  | [], draft => draft
  | utxo :: rest, draft =>
      if wanted draft then
        takeQueued wanted withWitness rest
          { draft with
            inputs := draft.inputs ++ [utxo]
            witness := if withWitness then draft.witness ++ [blankWitness] else draft.witness
            totalAmount := draft.totalAmount + utxo.prevoutData.value }
      else draft

/-- The seeded coins are put back when a transaction cannot be made. -/
def putBack (coins : Coins) (draft : Draft) : Coins :=
  { coins with seedFrom := coins.seedFrom - draft.seededInputs }

/-- The last loop of `accumulate_inputs`: coins are removed from the front of the
queue, and with it from the set. -/
def removeFront : Nat → Coins → Coins
  | 0, coins => coins
  | rounds + 1, coins =>
      match coins.spendQueue with
      | [] => coins
      | delUtxo :: rest =>
          removeFront rounds
            { coins with
              mBalance := coins.mBalance - delUtxo.prevoutData.value
              utxosSet := coins.utxosSet.erase delUtxo.prevout
              spendQueue := rest }

/-- A round of the loop in `send_to` that removes the inputs of the transaction. -/
def removeInput (coins : Coins) (inp : Input) : Coins :=
  { coins with
    mBalance := coins.mBalance - inp.prevoutData.value
    utxosSet := coins.utxosSet.erase inp.prevout
    spendQueue := coins.spendQueue.tail }

/-- The two loops that collect inputs. -/
def collect (crypto : Crypto) (wanted : Draft → Bool) (withWitness : Bool) (coins : Coins) :
    Coins × Draft :=
  let seeded := takeSeeded crypto wanted (coins.seedTo - coins.seedFrom).toNat coins .new
  (seeded.1, takeQueued wanted withWitness seeded.1.spendQueue seeded.2)

def accumulateInputs (crypto : Crypto) (coins : Coins) (amount : UInt64) :
    Coins × Option (FullTx × UInt64) :=
  let (after, draft) := coins.collect crypto (fun draft => draft.totalAmount < amount) true
  if draft.totalAmount < amount then (after.putBack draft, none)
  else
    (removeFront (draft.inputs.length - draft.seededInputs.toNat) after,
      some (⟨draft.inputs, [], draft.witness⟩, draft.totalAmount))

/-- The part of `send_to` with counts that is locked: what is returned is the
transaction without its outputs, the total and the value of an output. The source
asserts that both counts are positive. -/
def takeInputs (crypto : Crypto) (coins : Coins) (inputCount outputCount : UInt64) :
    Coins × Option (FullTx × UInt64 × UInt64) :=
  if UInt64.ofNat coins.utxosSet.entries.card + coins.seedTo - coins.seedFrom < inputCount then
    (coins, none)
  else
    let (after, draft) :=
      coins.collect crypto (fun draft => draft.inputs.length < inputCount.toNat) false
    let outputVal := draft.totalAmount / outputCount
    if outputVal = 0 ∧ 1 < outputCount then (after.putBack draft, none)
    else
      ((draft.inputs.drop draft.seededInputs.toNat).foldl removeInput after,
        some (⟨draft.inputs, [], draft.witness⟩, draft.totalAmount, outputVal))

/-- The loop of `send_to` with counts that divides the total among the outputs: the
last one gets what is left. -/
def splitAmount (outputVal : UInt64) : Nat → UInt64 → List UInt64
  | 0, _ => []
  | 1, totalAmount => [totalAmount]
  | count + 2, totalAmount =>
      outputVal :: splitAmount outputVal (count + 1) (totalAmount - outputVal)

end Coins

structure Wallet (crypto : Crypto) where
  keys : KeyStore crypto
  coins : Coins

namespace Wallet

variable {crypto : Crypto}

def new (crypto : Crypto) : Wallet crypto := { keys := .empty crypto, coins := .empty }

def payTo (crypto : Crypto) (payee : PubKey) (value : UInt64) : Output :=
  ⟨getP2pkWitnessCommitment crypto payee, value⟩

/-- The change, if there is any, goes to a key that is generated for it. -/
def withChange (signing : Signing) (keys : KeyStore crypto) (draw : KeyStore.KeyDraw)
    (totalAmount amount : UInt64) : KeyStore crypto × List Output :=
  if totalAmount > amount then
    let (after, pubkey) := keys.generateKey signing draw
    (after, [payTo crypto pubkey (totalAmount - amount)])
  else (keys, [])

def signIf (signing : Signing) (keys : KeyStore crypto) (signTx : Bool) (tx : FullTx) : FullTx :=
  if signTx then keys.sign signing tx else tx

/-- `wallet::send_to` with an amount. -/
def sendTo (signing : Signing) (wallet : Wallet crypto) (amount : UInt32) (payee : PubKey)
    (signTx : Bool) (draw : KeyStore.KeyDraw) : Wallet crypto × Option FullTx :=
  match wallet.coins.accumulateInputs crypto amount.toUInt64 with
  | (coins, none) => ({ wallet with coins := coins }, none)
  | (coins, some (ret, totalAmount)) =>
      let (keys, change) := withChange signing wallet.keys draw totalAmount amount.toUInt64
      ({ keys := keys, coins := coins },
        some (signIf signing keys signTx
          { ret with outputs := payTo crypto payee amount.toUInt64 :: change }))

def fan (signing : Signing) (wallet : Wallet crypto) (outputCount : UInt64) (value : UInt32)
    (payee : PubKey) (signTx : Bool) (draw : KeyStore.KeyDraw) :
    Wallet crypto × Option FullTx :=
  let amount := outputCount * value.toUInt64
  match wallet.coins.accumulateInputs crypto amount with
  | (coins, none) => ({ wallet with coins := coins }, none)
  | (coins, some (ret, totalAmount)) =>
      let (keys, change) := withChange signing wallet.keys draw totalAmount amount
      ({ keys := keys, coins := coins },
        some (signIf signing keys signTx
          { ret with
            outputs := change ++
              List.replicate outputCount.toNat (payTo crypto payee value.toUInt64) }))

/-- `wallet::send_to` with a number of inputs and of outputs. -/
def sendToCounts (signing : Signing) (wallet : Wallet crypto) (inputCount outputCount : UInt64)
    (payee : PubKey) (signTx : Bool) : Wallet crypto × Option FullTx :=
  match wallet.coins.takeInputs crypto inputCount outputCount with
  | (coins, none) => ({ wallet with coins := coins }, none)
  | (coins, some (ret, totalAmount, outputVal)) =>
      ({ wallet with coins := coins },
        some (signIf signing wallet.keys signTx
          { ret with
            outputs := (Coins.splitAmount outputVal outputCount.toNat totalAmount).map
              (payTo crypto payee) }))

def generateKey (signing : Signing) (wallet : Wallet crypto) (draw : KeyStore.KeyDraw) :
    Wallet crypto × PubKey :=
  let (keys, pubkey) := wallet.keys.generateKey signing draw
  ({ wallet with keys := keys }, pubkey)

def seed (signing : Signing) (wallet : Wallet crypto) (privkey : PrivKey) (value : UInt32)
    (beginSeed endSeed : UInt64) : Wallet crypto × Bool :=
  if endSeed ≤ beginSeed then (wallet, false)
  else if wallet.keys.keys ≠ ∅ then (wallet, false)
  else
    let pubkey := signing.pubkeyFromPrivkey privkey
    ({ keys := wallet.keys.insert pubkey privkey
       coins := wallet.coins.seedReadonly (getP2pkWitnessCommitment crypto pubkey) value beginSeed
        endSeed }, true)

/-- The outputs of a transaction that are locked to keys of the wallet, as inputs. -/
def newUtxos (wallet : Wallet crypto) (tx : FullTx) : List Input :=
  (List.range tx.outputs.length).filterMap fun i =>
    (inputFromOutput crypto tx i).filter wallet.keys.isSpendable

/-- `wallet::confirm_transaction`. The index of the loop has 32 bits, so the loop does
not end if there are more outputs than that. -/
def confirmTransaction (wallet : Wallet crypto) (tx : FullTx) : Option (Wallet crypto) :=
  if 2 ^ 32 ≤ tx.outputs.length then none
  else some { wallet with coins := wallet.coins.updateBalance (wallet.newUtxos tx) tx.inputs }

def confirmInputs (wallet : Wallet crypto) (credits : List Input) : Wallet crypto :=
  { wallet with coins := wallet.coins.confirmInputs credits }

/-- `wallet::save`: what is written. -/
def save (wallet : Wallet crypto) : Wire.WalletFile :=
  { keys := wallet.keys.keys, utxos := wallet.coins.utxosSet }

/-- `wallet::load`, with what is read and the orders in which it is gone through. -/
def load (wallet : Wallet crypto) (file : Wire.WalletFile) (keyOrder : List (PubKey × PrivKey))
    (utxoOrder : List Input) : Wallet crypto :=
  { keys := .ofKeys crypto keyOrder, coins := wallet.coins.ofUtxos file.utxos utxoOrder }

/-- The calls that make a transaction, with what they draw. -/
inductive SpendCall where
  | sendTo (amount : UInt32) (payee : PubKey) (signTx : Bool) (draw : KeyStore.KeyDraw)
  | fan (outputCount : UInt64) (value : UInt32) (payee : PubKey) (signTx : Bool)
      (draw : KeyStore.KeyDraw)
  | sendToCounts (inputCount outputCount : UInt64) (payee : PubKey) (signTx : Bool)

def spend (signing : Signing) (wallet : Wallet crypto) : SpendCall → Wallet crypto × Option FullTx
  | .sendTo amount payee signTx draw => wallet.sendTo signing amount payee signTx draw
  | .fan outputCount value payee signTx draw =>
      wallet.fan signing outputCount value payee signTx draw
  | .sendToCounts inputCount outputCount payee signTx =>
      wallet.sendToCounts signing inputCount outputCount payee signTx

end Wallet
end OpenCbdc
