import Mathlib.Data.Finset.Basic
import Mathlib.Data.Finset.Image

/-! Hashes and the prefix ranges by which the unspent hash set is divided
between shards. -/
namespace OpenCbdc

/-- `hash_t`: an array of `hash_size` bytes. -/
abbrev Hash := Vector UInt8 32

/-- The hash whose bytes are all the same. Fixed runs name their hashes so. -/
def Hash.ofByte (byte : UInt8) : Hash := Vector.replicate 32 byte

/-- The byte by which a hash is assigned to a shard. -/
def Hash.firstByte (val : Hash) : UInt8 := val[0]

/-- `config::shard_range_t`: the first and the last hash prefix of a shard,
both inclusive. -/
abbrev ShardRange := UInt8 × UInt8

/-- `config::hash_in_shard_range`: only the first byte of a hash decides. -/
def hashInShardRange (range : ShardRange) (val : Hash) : Bool :=
  decide (range.1 ≤ val[0]) && decide (val[0] ≤ range.2)

theorem hashInShardRange_iff (range : ShardRange) (val : Hash) :
    hashInShardRange range val = true ↔
      range.1.toNat ≤ val.firstByte.toNat ∧ val.firstByte.toNat ≤ range.2.toNat := by
  simp [hashInShardRange, Hash.firstByte, UInt8.le_iff_toNat_le]

/-- The range of a single shard. -/
theorem hashInShardRange_all (val : Hash) : hashInShardRange (0, 255) val = true :=
  (hashInShardRange_iff _ val).mpr ⟨Nat.zero_le _, Nat.le_of_lt_succ val.firstByte.toNat_lt⟩

/-- The hashes of a list that lie in a range, as a set. -/
def inRange (range : ShardRange) (hashes : List Hash) : Finset Hash :=
  (hashes.filter (hashInShardRange range)).toFinset

@[simp] theorem mem_inRange {range : ShardRange} {hashes : List Hash} {val : Hash} :
    val ∈ inRange range hashes ↔ val ∈ hashes ∧ hashInShardRange range val = true := by
  simp [inRange]

theorem inRange_cons_of_mem {range : ShardRange} {val : Hash} (hashes : List Hash)
    (h : hashInShardRange range val = true) :
    inRange range (val :: hashes) = insert val (inRange range hashes) := by
  simp [inRange, h]

theorem inRange_cons_of_notMem {range : ShardRange} {val : Hash} (hashes : List Hash)
    (h : ¬hashInShardRange range val = true) :
    inRange range (val :: hashes) = inRange range hashes := by
  simp [inRange, h]

end OpenCbdc
