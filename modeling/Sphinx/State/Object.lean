import Sphinx.Common.Types

/-! # Accounts and state objects

The tries under the state are finite maps here: the account trie maps addresses to
accounts, a storage trie maps keys to values with the zero hash for an absent key, and
the database holds the committed tries by their roots. How a trie hashes its contents
is a parameter, `TrieHasher`; the RLP encodings of accounts and storage values, which
round-trip, are left out. A `stateObject` opens its storage trie on first access, caches
what it reads, keeps its writes in `dirtyStorage` until `updateTrie`, and calls its
`onDirty` callback once, on its first write.
-/

namespace Sphinx.State

/-- `emptyRoot` of the trie package: the root of the empty trie. -/
def emptyRoot : Hash :=
  ⟨[0x56, 0xe8, 0x1f, 0x17, 0x1b, 0xcc, 0x55, 0xa6, 0xff, 0x83, 0x45, 0xe6, 0x92, 0xc0, 0xf8,
    0x6e, 0x5b, 0x48, 0xe0, 0x1b, 0x99, 0x6c, 0xad, 0xc0, 0x01, 0x62, 0x2f, 0xb5, 0xe3, 0x63,
    0xb4, 0x21], rfl⟩

/-- `emptyCodeHash`, the Keccak-256 hash of no bytes. -/
def emptyCodeHash : Hash :=
  ⟨[0xc5, 0xd2, 0x46, 0x01, 0x86, 0xf7, 0x23, 0x3c, 0x92, 0x7e, 0x7d, 0xb2, 0xdc, 0xc7, 0x03,
    0xc0, 0xe5, 0x00, 0xb6, 0x53, 0xca, 0x82, 0x27, 0x3b, 0x7b, 0xfa, 0xd8, 0x04, 0x5d, 0x85,
    0xa4, 0x70], rfl⟩

/-- `Account`: the root of the account's storage trie. -/
structure Account where
  root : Hash
  deriving DecidableEq

abbrev AccountTrie := Address → Option Account

abbrev StorageTrie := Hash → Hash

/-- `Storage`, a Go map of storage slots. -/
abbrev Storage := Hash → Option Hash

/-- The committed tries of a database, by root. -/
structure Database where
  accountTries : Hash → Option AccountTrie
  storageTries : Hash → Option StorageTrie

/-- The roots `Trie.Hash` computes for the contents of a trie. -/
structure TrieHasher where
  accountRoot : AccountTrie → Hash
  storageRoot : StorageTrie → Hash

namespace Database

/-- `OpenTrie`: the zero hash and `emptyRoot` open the empty trie, any other root must be
in the database. -/
def openTrie (db : Database) (root : Hash) : Option AccountTrie :=
  if root = zeroHash ∨ root = emptyRoot then some (fun _ => none) else db.accountTries root

/-- `OpenStorageTrie`. -/
def openStorageTrie (db : Database) (root : Hash) : Option StorageTrie :=
  if root = zeroHash ∨ root = emptyRoot then some (fun _ => zeroHash) else db.storageTries root

/-- `CommitTo` of an account trie: its contents are stored under its root. -/
def commitTrie (h : TrieHasher) (db : Database) (t : AccountTrie) : Hash × Database :=
  (h.accountRoot t, { db with accountTries := Function.update db.accountTries (h.accountRoot t) (some t) })

/-- `CommitTo` of a storage trie. -/
def commitStorageTrie (h : TrieHasher) (db : Database) (t : StorageTrie) : Hash × Database :=
  (h.storageRoot t,
    { db with storageTries := Function.update db.storageTries (h.storageRoot t) (some t) })

end Database

/-- `stateObject`; `onDirty` says whether the callback is still set. -/
structure StateObject where
  address : Address
  data : Account
  dbErr : Bool
  trie : Option StorageTrie
  cachedStorage : Storage
  dirtyStorage : Storage
  suicided : Bool
  touched : Bool
  deleted : Bool
  onDirty : Bool

/-- `newObject`, with the callback set. -/
def newObject (address : Address) (data : Account) : StateObject where
  address := address
  data := data
  dbErr := false
  trie := none
  cachedStorage := fun _ => none
  dirtyStorage := fun _ => none
  suicided := false
  touched := false
  deleted := false
  onDirty := true

namespace StateObject

def empty (o : StateObject) : Bool :=
  o.data.root = emptyCodeHash

/-- `getTrie`: open the storage trie at the account's root on first access; a root the
database lacks opens the empty trie and records the error. -/
def getTrie (db : Database) (o : StateObject) : StateObject :=
  match o.trie with
  | some _ => o
  | none =>
    match db.openStorageTrie o.data.root with
    | some t => { o with trie := some t }
    | none => { o with trie := some (fun _ => zeroHash), dbErr := true }

/-- The storage trie once opened. -/
def storageTrie (o : StateObject) : StorageTrie :=
  o.trie.getD (fun _ => zeroHash)

/-- `GetState`: the cached value, or the trie's, which is cached when it is not zero. -/
def getState (db : Database) (key : Hash) (o : StateObject) : Hash × StateObject :=
  match o.cachedStorage key with
  | some v => (v, o)
  | none =>
    let o := o.getTrie db
    let v := o.storageTrie key
    if v = zeroHash then (v, o)
    else (v, { o with cachedStorage := Function.update o.cachedStorage key (some v) })

/-- The write half of `setState`; the caller runs `onDirty`. -/
def writeState (key value : Hash) (o : StateObject) : StateObject :=
  { o with
    cachedStorage := Function.update o.cachedStorage key (some value)
    dirtyStorage := Function.update o.dirtyStorage key (some value) }

/-- `updateTrie`: the dirty slots written into the storage trie, a zero value deleting. -/
def updateTrie (db : Database) (o : StateObject) : StateObject :=
  let o := o.getTrie db
  let t := o.storageTrie
  { o with
    trie := some (fun k => (o.dirtyStorage k).getD (t k))
    dirtyStorage := fun _ => none }

/-- `updateRoot`. -/
def updateRoot (h : TrieHasher) (db : Database) (o : StateObject) : StateObject :=
  let o := o.updateTrie db
  { o with data := ⟨h.storageRoot o.storageTrie⟩ }

/-- `CommitTrie`: `none` is the recorded error; otherwise the object with its new root and
the database the storage trie is committed to. -/
def commitTrie (h : TrieHasher) (db dbw : Database) (o : StateObject) :
    Option (StateObject × Database) :=
  let o := o.updateTrie db
  if o.dbErr then none
  else
    let (root, dbw) := dbw.commitStorageTrie h o.storageTrie
    some ({ o with data := ⟨root⟩ }, dbw)

/-- What `GetState` answers for a key, without the caching. -/
def storageView (db : Database) (o : StateObject) (key : Hash) : Hash :=
  match o.cachedStorage key with
  | some v => v
  | none => (o.getTrie db).storageTrie key

end StateObject

end Sphinx.State
