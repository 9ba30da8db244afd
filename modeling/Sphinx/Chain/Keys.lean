import Sphinx.Common.Types

/-! # Database keys

All chain data shares one flat key-value store. What keeps the items apart is the shape of
their keys: a one-byte or short ASCII prefix, fields of fixed width (block numbers as eight
big-endian bytes, hashes as 32 bytes) and a one-byte suffix. `DbKey` lists the keys the
accessors of `database_util.go` build, `DbKey.encode` the bytes each one is, and
`DbKey.ofKey` reads the arguments back from the bytes: a left inverse, so that two keys
with the same bytes are the same key, of the same kind with the same arguments.

The bloom-bits key stores its bit index as a `uint16`: indices that agree modulo `2 ^ 16`
share their key, so the inverse only holds for indices below `2 ^ 16`.
-/

namespace Sphinx.Chain

open BigEndian

def headHeaderKey : Bytes := ascii "LastHeader"
def headBlockKey : Bytes := ascii "LastBlock"
def headFastKey : Bytes := ascii "LastFast"

def headerPrefix : Bytes := ascii "h"
def tdSuffix : Bytes := ascii "t"
def numSuffix : Bytes := ascii "n"
def blockHashPrefix : Bytes := ascii "H"
def bodyPrefix : Bytes := ascii "b"
def blockReceiptsPrefix : Bytes := ascii "r"
def lookupPrefix : Bytes := ascii "l"
def bloomBitsPrefix : Bytes := ascii "B"
def peerProofPrefix : Bytes := ascii "pproof"
def preimagePrefix : Bytes := ascii "secure-key-"
def configPrefix : Bytes := ascii "shx-config-"

/-- `encodeBlockNumber`: a block number as eight big-endian bytes. -/
def encodeBlockNumber (number : UInt64) : Bytes := putUint 8 number.toNat

/-- `headerKey`: header prefix, number, hash. -/
def headerKey (hash : Hash) (number : UInt64) : Bytes :=
  headerPrefix ++ encodeBlockNumber number ++ hash.bytes

/-- `blockBodyKey`: body prefix, number, hash. -/
def blockBodyKey (hash : Hash) (number : UInt64) : Bytes :=
  bodyPrefix ++ encodeBlockNumber number ++ hash.bytes

/-- The key of `GetTd` and `WriteTd`: the header key with the `t` suffix. -/
def tdKey (hash : Hash) (number : UInt64) : Bytes :=
  headerPrefix ++ encodeBlockNumber number ++ hash.bytes ++ tdSuffix

/-- The key of `GetCanonicalHash` and `WriteCanonicalHash`: number and `n` suffix. -/
def canonicalHashKey (number : UInt64) : Bytes :=
  headerPrefix ++ encodeBlockNumber number ++ numSuffix

/-- The key of `GetBlockNumber` and of the hash-to-number entry `WriteHeader` writes. -/
def blockNumberKey (hash : Hash) : Bytes := blockHashPrefix ++ hash.bytes

/-- The key of `GetBlockReceipts` and `WriteBlockReceipts`. -/
def blockReceiptsKey (hash : Hash) (number : UInt64) : Bytes :=
  blockReceiptsPrefix ++ encodeBlockNumber number ++ hash.bytes

/-- The key of `GetTxLookupEntry` and `WriteTxLookupEntries`. -/
def txLookupKey (hash : Hash) : Bytes := lookupPrefix ++ hash.bytes

/-- The key of `GetBloomBits` and `WriteBloomBits`: ten zero bytes after the prefix, into
which `PutUint16` writes `uint16(bit)` and `PutUint64` the section, then the head hash. -/
def bloomBitsKey (bit sectionIndex : UInt64) (head : Hash) : Bytes :=
  bloomBitsPrefix ++ putUint 2 bit.toUInt16.toNat ++ putUint 8 sectionIndex.toNat ++ head.bytes

/-- The key of `GetPeerProof` and `WritePeerProof` for the SHA-256 hash of the peer's
address: 32 zero bytes, then the hash. -/
def peerProofKey (addrHash : Hash) : Bytes :=
  peerProofPrefix ++ List.replicate 32 0 ++ addrHash.bytes

/-- The key of a preimage: `PreimageTable` prefixes every key with `secure-key-`. -/
def preimageKey (hash : Hash) : Bytes := preimagePrefix ++ hash.bytes

/-- The key of `WriteChainConfig` and `GetChainConfig`. -/
def configKey (hash : Hash) : Bytes := configPrefix ++ hash.bytes

/-- The keys of the chain database, and the raw hashes the trie stores its nodes under. -/
inductive DbKey
  | headHeader
  | headBlock
  | headFast
  | header (hash : Hash) (number : UInt64)
  | td (hash : Hash) (number : UInt64)
  | canonicalHash (number : UInt64)
  | blockNumber (hash : Hash)
  | body (hash : Hash) (number : UInt64)
  | receipts (hash : Hash) (number : UInt64)
  | txLookup (hash : Hash)
  | bloomBits (bit sectionIndex : UInt64) (head : Hash)
  | peerProof (addrHash : Hash)
  | preimage (hash : Hash)
  | config (hash : Hash)
  | trieNode (hash : Hash)
  deriving DecidableEq

namespace DbKey

/-- The bytes of a key. -/
def encode : DbKey → Bytes
  | headHeader => headHeaderKey
  | headBlock => headBlockKey
  | headFast => headFastKey
  | header hash number => headerKey hash number
  | td hash number => tdKey hash number
  | canonicalHash number => canonicalHashKey number
  | blockNumber hash => blockNumberKey hash
  | body hash number => blockBodyKey hash number
  | receipts hash number => blockReceiptsKey hash number
  | txLookup hash => txLookupKey hash
  | bloomBits bit sectionIndex head => bloomBitsKey bit sectionIndex head
  | peerProof addrHash => peerProofKey addrHash
  | preimage hash => preimageKey hash
  | config hash => configKey hash
  | trieNode hash => hash.bytes

/-- The keys whose bytes determine them: a bloom-bits key with a bit index that fits the
16 bits the key has for it. -/
def Valid : DbKey → Prop
  | bloomBits bit _ _ => bit.toNat < 2 ^ 16
  | _ => True

instance : DecidablePred Valid := fun k => by
  cases k <;> unfold Valid <;> infer_instance

/-- A number read back from big-endian bytes. -/
def number (bs : Bytes) : UInt64 := UInt64.ofNat (ofBytes bs)

/-- The arguments of a key read back from its bytes: its length and first two bytes say
which kind it is, and the fields stand at fixed offsets. -/
def ofKey (key : Bytes) : DbKey :=
  let hash := bytesToHash ((key.drop (key.length - 32)).take 32)
  let num := number ((key.drop 1).take 8)
  if key.length = 8 then headFast
  else if key.length = 9 then headBlock
  else if key.length = 10 then
    if key.head? = some 0x68 then canonicalHash num else headHeader
  else if key.length = 32 then trieNode hash
  else if key.length = 33 then
    if key.head? = some 0x48 then blockNumber hash else txLookup hash
  else if key.length = 41 then
    if key.head? = some 0x68 then header hash num
    else if key.head? = some 0x62 then body hash num
    else receipts hash num
  else if key.length = 42 then td (bytesToHash ((key.drop 9).take 32)) num
  else if key.length = 43 then
    if key.head? = some 0x42 then
      bloomBits (number ((key.drop 1).take 2)) (number ((key.drop 3).take 8)) hash
    else if (key.drop 1).head? = some 0x65 then preimage hash
    else config hash
  else peerProof hash

/-! ## Reading a key back -/

section Fields

theorem number_putUint {w : ℕ} {n : UInt64} (h : n.toNat < 256 ^ w) :
    number (putUint w n.toNat) = n := by
  rw [number, ofBytes_putUint, Nat.mod_eq_of_lt h]
  exact UInt64.ofNat_toNat

@[simp] theorem number_encodeBlockNumber (n : UInt64) : number (encodeBlockNumber n) = n :=
  number_putUint (by simpa using n.toNat_lt)

@[simp] theorem length_encodeBlockNumber (n : UInt64) : (encodeBlockNumber n).length = 8 :=
  length_putUint 8 _

@[simp] theorem bytesToHash_bytes (h : Hash) : bytesToHash h.bytes = h :=
  FixedBytes.setBytes_bytes h

@[simp] theorem length_hash_bytes (h : Hash) : h.bytes.length = 32 := h.length_eq

@[simp] theorem take_hash_bytes (h : Hash) : h.bytes.take 32 = h.bytes :=
  List.take_of_length_le (by simp)

end Fields

theorem ofKey_header (hash : Hash) (number : UInt64) :
    ofKey (headerKey hash number) = header hash number := by
  simp [ofKey, headerKey, headerPrefix, ascii]

theorem ofKey_td (hash : Hash) (number : UInt64) : ofKey (tdKey hash number) = td hash number := by
  simp [ofKey, tdKey, headerPrefix, tdSuffix, ascii]

theorem ofKey_canonicalHash (number : UInt64) :
    ofKey (canonicalHashKey number) = canonicalHash number := by
  simp [ofKey, canonicalHashKey, headerPrefix, numSuffix, ascii]

theorem ofKey_blockNumber (hash : Hash) : ofKey (blockNumberKey hash) = blockNumber hash := by
  simp [ofKey, blockNumberKey, blockHashPrefix, ascii]

theorem ofKey_body (hash : Hash) (number : UInt64) :
    ofKey (blockBodyKey hash number) = body hash number := by
  simp [ofKey, blockBodyKey, bodyPrefix, ascii]

theorem ofKey_receipts (hash : Hash) (number : UInt64) :
    ofKey (blockReceiptsKey hash number) = receipts hash number := by
  simp [ofKey, blockReceiptsKey, blockReceiptsPrefix, ascii]

theorem ofKey_txLookup (hash : Hash) : ofKey (txLookupKey hash) = txLookup hash := by
  simp [ofKey, txLookupKey, lookupPrefix, ascii]

theorem ofKey_bloomBits {bit : UInt64} (hbit : bit.toNat < 2 ^ 16) (sectionIndex : UInt64)
    (head : Hash) :
    ofKey (bloomBitsKey bit sectionIndex head) = bloomBits bit sectionIndex head := by
  have hmod : bit.toNat % 65536 = bit.toNat := Nat.mod_eq_of_lt hbit
  simp [ofKey, bloomBitsKey, bloomBitsPrefix, ascii, hmod, List.drop_append,
    List.drop_eq_nil_of_le,
    number_putUint (w := 2) (by simpa using hbit),
    number_putUint (w := 8) (by simpa using sectionIndex.toNat_lt)]

theorem ofKey_peerProof (addrHash : Hash) : ofKey (peerProofKey addrHash) = peerProof addrHash := by
  simp [ofKey, peerProofKey, peerProofPrefix, ascii]

theorem ofKey_preimage (hash : Hash) : ofKey (preimageKey hash) = preimage hash := by
  simp [ofKey, preimageKey, preimagePrefix, ascii]

theorem ofKey_config (hash : Hash) : ofKey (configKey hash) = config hash := by
  simp [ofKey, configKey, configPrefix, ascii]

theorem ofKey_trieNode (hash : Hash) : ofKey hash.bytes = trieNode hash := by
  simp [ofKey]

theorem ofKey_encode : ∀ {k : DbKey}, k.Valid → ofKey k.encode = k
  | headHeader, _ | headBlock, _ | headFast, _ => rfl
  | header hash number, _ => ofKey_header hash number
  | td hash number, _ => ofKey_td hash number
  | canonicalHash number, _ => ofKey_canonicalHash number
  | blockNumber hash, _ => ofKey_blockNumber hash
  | body hash number, _ => ofKey_body hash number
  | receipts hash number, _ => ofKey_receipts hash number
  | txLookup hash, _ => ofKey_txLookup hash
  | bloomBits _ sectionIndex head, hbit => ofKey_bloomBits hbit sectionIndex head
  | peerProof addrHash, _ => ofKey_peerProof addrHash
  | preimage hash, _ => ofKey_preimage hash
  | config hash, _ => ofKey_config hash
  | trieNode hash, _ => ofKey_trieNode hash

/-- Two keys have the same bytes only when they are the same key: each key constructor is
injective in its arguments and no two kinds share a key, for every hash, block number and
section and every bloom bit index below `2 ^ 16`. -/
theorem encode_inj {k₁ k₂ : DbKey} (h₁ : k₁.Valid) (h₂ : k₂.Valid) :
    k₁.encode = k₂.encode ↔ k₁ = k₂ := by
  constructor
  · intro h
    rw [← ofKey_encode h₁, ← ofKey_encode h₂, h]
  · rintro rfl
    rfl

theorem encode_inj_header_bloomBits :
    (header zeroHash 1).Valid ∧ (bloomBits 5 0 zeroHash).Valid ∧
      ((header zeroHash 1).encode = (bloomBits 5 0 zeroHash).encode ↔
        header zeroHash 1 = bloomBits 5 0 zeroHash) :=
  ⟨trivial, by decide, encode_inj trivial (by decide)⟩

/-- `uint16(bit)` drops the high bits of the index: the bloom-bits keys of bits `2 ^ 16` and
`0` of one section and head are the same bytes. -/
theorem encode_bloomBits_wraps :
    (bloomBits (2 ^ 16) 0 zeroHash).encode = (bloomBits 0 0 zeroHash).encode := by
  decide

end DbKey

end Sphinx.Chain
