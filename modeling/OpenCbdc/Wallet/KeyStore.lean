import OpenCbdc.Sentinel.Controller
import OpenCbdc.Transaction.Validation

/-! The keys of a wallet. Every public key is also found by the commitment that
outputs are locked with. -/
namespace OpenCbdc

namespace Validation

def getP2pkWitnessCommitment (crypto : Crypto) (payee : PubKey) : Hash :=
  crypto.sha256 (WitnessProgramType.p2pk :: payee.toList)

end Validation

open Validation

/-- The members of `wallet` behind `m_keys_mut`. -/
structure KeyStore (crypto : Crypto) where
  keys : Finmap fun _ : PubKey => PrivKey
  pubkeys : List PubKey
  witnessPrograms : Finmap fun _ : Hash => PubKey
  listed : ∀ pubkey ∈ pubkeys, pubkey ∈ keys
  enough : keys.entries.card ≤ pubkeys.length
  owned : ∀ commitment pubkey, witnessPrograms.lookup commitment = some pubkey →
    pubkey ∈ keys ∧ getP2pkWitnessCommitment crypto pubkey = commitment
  committed : ∀ pubkey ∈ keys, getP2pkWitnessCommitment crypto pubkey ∈ witnessPrograms

namespace KeyStore

variable {crypto : Crypto}

def empty (crypto : Crypto) : KeyStore crypto where
  keys := ∅
  pubkeys := []
  witnessPrograms := ∅
  listed _ h := nomatch h
  enough := Nat.le_refl 0
  owned _ _ h := nomatch h
  committed _ h := absurd h Finmap.notMem_empty

/-- The insertions of `seed` and `generate_key`. -/
def insert (store : KeyStore crypto) (pubkey : PubKey) (seckey : PrivKey) : KeyStore crypto where
  keys := Table.emplace store.keys pubkey seckey
  pubkeys := store.pubkeys ++ [pubkey]
  witnessPrograms :=
    Table.emplace store.witnessPrograms (getP2pkWitnessCommitment crypto pubkey) pubkey
  listed other h := by
    rw [Table.mem_emplace]
    rcases List.mem_append.mp h with hOld | hNew
    · exact Or.inr (store.listed other hOld)
    · exact Or.inl (List.mem_singleton.mp hNew)
  enough := by
    have hEnough := store.enough
    rw [List.length_append, List.length_singleton, Table.emplace]
    split
    · omega
    case isFalse hUnused =>
        rw [Finmap.entries_insert_of_notMem hUnused, Multiset.card_cons]
        omega
  owned commitment other h := by
    rw [Table.mem_emplace]
    rcases Table.of_lookup_emplace h with ⟨hCommitment, rfl⟩ | hOld
    · exact ⟨Or.inl rfl, hCommitment.symm⟩
    · exact ⟨Or.inr (store.owned commitment other hOld).1, (store.owned commitment other hOld).2⟩
  committed other h := by
    rw [Table.mem_emplace] at h ⊢
    rcases h with rfl | hOld
    · exact Or.inl rfl
    · exact Or.inr (store.committed other hOld)

/-- What `load` makes of the keys it has read, in the order in which it goes
through them. -/
def ofKeys (crypto : Crypto) (order : List (PubKey × PrivKey)) : KeyStore crypto :=
  order.foldl (fun store key => store.insert key.1 key.2) (empty crypto)

/-- What a call of `generate_key` draws: a fresh private key, and the index of a
key to use again. -/
structure KeyDraw where
  seckey : PrivKey
  index : Nat

/-- `max_keys` of `generate_key`. -/
def maxKeys : Nat := 10000

def generateKey (signing : Signing) (store : KeyStore crypto) (draw : KeyDraw) :
    KeyStore crypto × PubKey :=
  if h : maxKeys < store.keys.entries.card then
    (store, store.pubkeys.get ⟨draw.index % store.keys.entries.card,
      Nat.lt_of_lt_of_le (Nat.mod_lt _ (Nat.zero_lt_of_lt h)) store.enough⟩)
  else
    let pubkey := signing.pubkeyFromPrivkey draw.seckey
    (store.insert pubkey draw.seckey, pubkey)

/-- The key pair that an output is locked to, if it is one of the wallet's. The
second lookup of `sign` cannot fail. -/
def keyOf (store : KeyStore crypto) (commitment : Hash) : Option (PubKey × PrivKey) :=
  (store.witnessPrograms.lookup commitment).bind fun pubkey =>
    (store.keys.lookup pubkey).map fun seckey => (pubkey, seckey)

/-- The witness that `sign` writes for an input: type, key and signature. -/
def witnessOf (signing : Signing) (sighash : Hash) (key : PubKey × PrivKey) : List UInt8 :=
  WitnessProgramType.p2pk :: key.1.toList ++ (signing.schnorrsigSign sighash key.2).toList

/-- `wallet::sign`. What stands in the place of a witness that is not written is
left as it is. -/
def sign (signing : Signing) (store : KeyStore crypto) (tx : FullTx) : FullTx :=
  let sighash := txId crypto tx
  { tx with
    witness := tx.inputs.mapIdx fun i inp =>
      match store.keyOf inp.prevoutData.witnessProgramCommitment with
      | some key => witnessOf signing sighash key
      | none => (tx.witness[i]?).getD [] }

def isSpendable (store : KeyStore crypto) (inp : Input) : Bool :=
  decide (inp.prevoutData.witnessProgramCommitment ∈ store.witnessPrograms)

structure Extends (store after : KeyStore crypto) : Prop where
  keys : ∀ pubkey seckey, store.keys.lookup pubkey = some seckey →
    after.keys.lookup pubkey = some seckey
  programs : ∀ commitment pubkey, store.witnessPrograms.lookup commitment = some pubkey →
    after.witnessPrograms.lookup commitment = some pubkey

theorem Extends.refl (store : KeyStore crypto) : Extends store store :=
  ⟨fun _ _ h => h, fun _ _ h => h⟩

theorem Extends.insert (store : KeyStore crypto) (pubkey : PubKey) (seckey : PrivKey) :
    Extends store (store.insert pubkey seckey) where
  keys _ _ h := Table.lookup_emplace_of_lookup _ _ h
  programs _ _ h := Table.lookup_emplace_of_lookup _ _ h

theorem Extends.keyOf {store after : KeyStore crypto} (h : Extends store after) {commitment : Hash}
    {key : PubKey × PrivKey} (hKey : store.keyOf commitment = some key) :
    after.keyOf commitment = some key := by
  simp only [KeyStore.keyOf, Option.bind_eq_some_iff, Option.map_eq_some_iff] at hKey ⊢
  obtain ⟨pubkey, hProgram, seckey, hPair, rfl⟩ := hKey
  exact ⟨pubkey, h.programs _ _ hProgram, seckey, h.keys _ _ hPair, rfl⟩

/-- A generated key is a key of the wallet. -/
theorem generateKey_owned (signing : Signing) (store : KeyStore crypto) (draw : KeyDraw) :
    (generateKey signing store draw).2 ∈ (generateKey signing store draw).1.keys := by
  unfold generateKey
  split
  · exact store.listed _ (List.get_mem _ _)
  · exact (Table.mem_emplace _ _ _ _).mpr (Or.inl rfl)

theorem generateKey_extends (signing : Signing) (store : KeyStore crypto) (draw : KeyDraw) :
    Extends store (generateKey signing store draw).1 := by
  unfold generateKey
  split
  · exact Extends.refl store
  · exact Extends.insert store _ _

theorem exists_keyOf {store : KeyStore crypto} {commitment : Hash}
    (h : commitment ∈ store.witnessPrograms) :
    ∃ key, store.keyOf commitment = some key ∧ store.keys.lookup key.1 = some key.2 ∧
      getP2pkWitnessCommitment crypto key.1 = commitment := by
  obtain ⟨pubkey, hProgram⟩ := Finmap.mem_iff.mp h
  obtain ⟨hOwned, hCommitment⟩ := store.owned commitment pubkey hProgram
  obtain ⟨seckey, hKey⟩ := Finmap.mem_iff.mp hOwned
  exact ⟨(pubkey, seckey), by simp [keyOf, hProgram, hKey], hKey, hCommitment⟩

/-- The commitments that the wallet knows are those to its keys. -/
theorem mem_witnessPrograms {store : KeyStore crypto} {commitment : Hash} :
    commitment ∈ store.witnessPrograms ↔
      ∃ pubkey ∈ store.keys, getP2pkWitnessCommitment crypto pubkey = commitment := by
  constructor
  · intro h
    obtain ⟨pubkey, hProgram⟩ := Finmap.mem_iff.mp h
    exact ⟨pubkey, store.owned commitment pubkey hProgram⟩
  · rintro ⟨pubkey, hKey, rfl⟩
    exact store.committed pubkey hKey

end KeyStore
end OpenCbdc
