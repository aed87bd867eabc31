import OpenCbdc.Library.Run
import OpenCbdc.Wallet.Wallet

/-! A client: a wallet, with the transactions and the coins that wait for an answer of
the system. -/
namespace OpenCbdc

/-- The members of `client` that it saves. -/
structure Client (crypto : Crypto) where
  wallet : Wallet crypto
  pendingTxs : Finmap fun _ : Hash => FullTx
  pendingSpend : Finmap fun _ : Hash => Input
  pendingInputs : Finmap fun _ : Hash => Input

namespace Client

variable {crypto : Crypto}

def ofWallet (wallet : Wallet crypto) : Client crypto :=
  { wallet := wallet, pendingTxs := ∅, pendingSpend := ∅, pendingInputs := ∅ }

def registerPendingTx (client : Client crypto) (tx : FullTx) : Client crypto :=
  { client with
    pendingSpend := tx.inputs.foldl
      (fun table inp => Table.emplace table (inp.hash crypto) inp) client.pendingSpend }

/-- What `create_transaction` and `fan` have in common: a call of the wallet, and the
inputs that it takes are set aside. -/
def create (signing : Signing) (client : Client crypto) (call : Wallet.SpendCall) :
    Client crypto × Option FullTx :=
  match client.wallet.spend signing call with
  | (wallet, none) => ({ client with wallet := wallet }, none)
  | (wallet, some tx) => ({ client with wallet := wallet }.registerPendingTx tx, some tx)

def createTransaction (signing : Signing) (client : Client crypto) (value : UInt32)
    (payee : PubKey) (draw : KeyStore.KeyDraw) : Client crypto × Option FullTx :=
  client.create signing (.sendTo value payee true draw)

def importTransaction (client : Client crypto) (tx : FullTx) : Client crypto :=
  { client with pendingTxs := Table.emplace client.pendingTxs (txId crypto tx) tx }

def importSendInput (client : Client crypto) (inp : Input) : Client crypto :=
  if client.wallet.keys.isSpendable inp then
    { client with pendingInputs := Table.emplace client.pendingInputs inp.prevout.txId inp }
  else client

def checkPending (client : Client crypto) (inp : Input) : Bool :=
  !client.pendingTxs.all fun _ tx => !tx.inputs.contains inp

/-- A round of the loop of `abandon_transaction`. -/
def giveBack (client : Client crypto) (inp : Input) : Client crypto :=
  if inp.hash crypto ∈ client.pendingSpend ∧ client.checkPending inp = false then
    { client with
      pendingSpend := client.pendingSpend.erase (inp.hash crypto)
      wallet := client.wallet.confirmInputs [inp] }
  else client

def abandonTransaction (client : Client crypto) (id : Hash) : Client crypto × Bool :=
  match client.pendingTxs.lookup id with
  | none => (client, false)
  | some tx =>
      (tx.inputs.foldl giveBack { client with pendingTxs := client.pendingTxs.erase id }, true)

/-- The part of `confirm_transaction` for a transaction of this client. -/
def confirmPendingTx (client : Client crypto) (id : Hash) : Option (Client crypto × Bool) :=
  match client.pendingTxs.lookup id with
  | none => some (client, false)
  | some tx =>
      (client.wallet.confirmTransaction tx).map fun wallet =>
        ({ client with
            wallet := wallet
            pendingSpend := Table.eraseAll client.pendingSpend
              ((tx.inputs.map (Input.hash crypto) : List Hash) : Multiset Hash)
            pendingTxs := client.pendingTxs.erase id }, true)

/-- The part for a coin that somebody else has sent. -/
def confirmPendingInput (client : Client crypto) (id : Hash) : Client crypto × Bool :=
  match client.pendingInputs.lookup id with
  | none => (client, false)
  | some inp =>
      ({ client with
          wallet := client.wallet.confirmInputs [inp]
          pendingInputs := client.pendingInputs.erase id }, true)

def confirmTransaction (client : Client crypto) (id : Hash) : Option (Client crypto × Bool) :=
  (client.confirmPendingTx id).map fun (after, success) =>
    let (final, received) := after.confirmPendingInput id
    (final, success || received)

/-- `client::send_transaction`, with the answer of the sentinel. -/
def sendTransaction (client : Client crypto) (tx : FullTx) (answer : Option Wire.ExecuteResponse) :
    Option (Client crypto × Option Wire.ExecuteResponse) :=
  let imported := client.importTransaction tx
  match answer with
  | none => some (imported, none)
  | some res =>
      if res.txStatus = .named .confirmed then
        (imported.confirmTransaction (txId crypto tx)).map fun (after, _) => (after, some res)
      else some (imported, some res)

/-- The body of `send` and `fan`. -/
def createAndSend (signing : Signing) (client : Client crypto) (call : Wallet.SpendCall)
    (answer : Option Wire.ExecuteResponse) :
    Option (Client crypto × Option (FullTx × Wire.ExecuteResponse)) :=
  match client.create signing call with
  | (after, none) => some (after, none)
  | (after, some tx) =>
      (after.sendTransaction tx answer).map fun (final, res) =>
        (final, res.map fun res => (tx, res))

def send (signing : Signing) (client : Client crypto) (value : UInt32) (payee : PubKey)
    (draw : KeyStore.KeyDraw) (answer : Option Wire.ExecuteResponse) :
    Option (Client crypto × Option (FullTx × Wire.ExecuteResponse)) :=
  client.createAndSend signing (.sendTo value payee true draw) answer

def fan (signing : Signing) (client : Client crypto) (count value : UInt32) (payee : PubKey)
    (draw : KeyStore.KeyDraw) (answer : Option Wire.ExecuteResponse) :
    Option (Client crypto × Option (FullTx × Wire.ExecuteResponse)) :=
  client.createAndSend signing (.fan count.toUInt64 value payee true draw) answer

/-- The calls that a client is made of. `fan` and `send` are two of them. -/
inductive Call where
  | create (call : Wallet.SpendCall)
  | send (tx : FullTx) (answer : Option Wire.ExecuteResponse)
  | confirm (id : Hash)
  | abandon (id : Hash)
  | importInput (inp : Input)

def step (signing : Signing) (client : Client crypto) : Call → Option (Client crypto)
  | .create call => some (client.create signing call).1
  | .send tx answer => (client.sendTransaction tx answer).map Prod.fst
  | .confirm id => (client.confirmTransaction id).map Prod.fst
  | .abandon id => some (client.abandonTransaction id).1
  | .importInput inp => some (client.importSendInput inp)

/-- The state after `send` or `fan` is that after the transaction is created and sent. -/
theorem createAndSend_eq_run {signing : Signing} {client created : Client crypto}
    {call : Wallet.SpendCall} {tx : FullTx} (h : client.create signing call = (created, some tx))
    (answer : Option Wire.ExecuteResponse) :
    (client.createAndSend signing call answer).map Prod.fst =
      TransitionSystem.run (step signing) created [.send tx answer] := by
  simp only [createAndSend, h, TransitionSystem.run, step, Option.map_map]
  cases created.sendTransaction tx answer <;> rfl

theorem checkPending_eq_false_iff {client : Client crypto} {inp : Input} :
    client.checkPending inp = false ↔
      ∀ id tx, client.pendingTxs.lookup id = some tx → inp ∉ tx.inputs := by
  rw [checkPending, Bool.not_eq_false', Table.all_eq_true_iff]
  simp

end Client
end OpenCbdc
