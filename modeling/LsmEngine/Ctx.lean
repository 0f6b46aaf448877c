import LsmEngine.Utils

/-!
# The crates the engine rests on

`crc32fast` and `fastbloom` are not part of the engine. They are parameters of the model: the checksum is some function of the
bytes, and a Bloom filter is a value of some type, of which the engine only relies on the laws listed as fields.
-/

namespace LsmEngine

/-- What the engine takes from its dependencies. `crc` is `crc32fast::hash`; the rest is `fastbloom::BloomFilter` as
`sstable/bloom.rs` uses it: `newBloom` is `with_false_pos(BLOOM_FP_RATE).seed(&BLOOM_SEED).expected_items(n)` and `fromVec` is
`from_vec(words).seed(&BLOOM_SEED).hashes(n)`. -/
structure Ctx where
  crc : Bytes → UInt32
  Filter : Type
  newBloom : Nat → Filter
  insert : Filter → Key → Filter
  contains : Filter → Key → Bool
  numHashes : Filter → Nat
  words : Filter → List UInt64
  fromVec : List UInt64 → Nat → Filter
  /-- A filter has between 1 and 255 hashes. -/
  numHashes_bounds : ∀ (n : Nat) (ks : List Key), 1 ≤ numHashes (ks.foldl insert (newBloom n)) ∧
    numHashes (ks.foldl insert (newBloom n)) ≤ 255
  /-- The word vector of a filter is not empty. -/
  words_ne_nil : ∀ (n : Nat) (ks : List Key), words (ks.foldl insert (newBloom n)) ≠ []
  /-- A filter rebuilt from its words, hash count and seed contains every inserted key. -/
  contains_rebuilt : ∀ (n : Nat) (ks : List Key), ∀ k ∈ ks,
    contains (fromVec (words (ks.foldl insert (newBloom n))) (numHashes (ks.foldl insert (newBloom n)))) k = true

/-- One step of the bitwise CRC-32 (reflected polynomial `0xEDB88320`). -/
def crcBit (c : Nat) : Nat := if c % 2 = 1 then (c / 2) ^^^ 0xEDB88320 else c / 2

/-- CRC-32 as `crc32fast` computes it, a bit at a time. -/
def crc32 (bs : Bytes) : UInt32 :=
  UInt32.ofNat (bs.foldl (fun c b => crcBit (crcBit (crcBit (crcBit (crcBit (crcBit (crcBit (crcBit
    (c ^^^ b.toNat))))))))) 0xFFFFFFFF ^^^ 0xFFFFFFFF)

/-- The check value of the CRC-32 catalogue. -/
example : crc32 [0x31, 0x32, 0x33, 0x34, 0x35, 0x36, 0x37, 0x38, 0x39] = 0xCBF43926 := by decide +kernel

/-- A context in which concrete runs are evaluated: the real checksum, and the filter that has all its bits set. -/
def Ctx.concrete : Ctx where
  crc := crc32
  Filter := Unit
  newBloom := fun _ => ()
  insert := fun _ _ => ()
  contains := fun _ _ => true
  numHashes := fun _ => 7
  words := fun _ => [0xFFFFFFFFFFFFFFFF]
  fromVec := fun _ _ => ()
  numHashes_bounds := fun _ _ => ⟨by decide, by decide⟩
  words_ne_nil := fun _ _ => by decide
  contains_rebuilt := fun _ _ _ _ => rfl

end LsmEngine
