import Sphinx.State.Object
import Sphinx.Lib.UndoLog

/-! # The state database

`StateDB` keeps the live state objects over the account trie, the set of objects
written since the last commit, the refund counter, logs and preimages, and a journal
of undo entries with the revisions `Snapshot` marks in it. Go pointers to live objects
become the entries of `stateObjects`: a method that changes an object stores it back.
A panic of the source (a revision that cannot be reverted, an undo on an object that
is gone) is an error. The loops over Go maps in `Finalise`, `DeleteSuicides` and
`CommitTo` handle every address on its own, so they are written address by address.
-/

namespace Sphinx.State

inductive Error where
  | missingTrieNode
  | revisionCannotBeReverted (revid : ℕ)
  | nilObject
  deriving DecidableEq, Repr

structure Revision where
  id : ℕ
  journalIndex : ℕ
  deriving DecidableEq, Repr

/-- The entries of `journal.go` that the package creates; `prevbalance` of a
`suicideChange` is left out since balances are stubs. -/
inductive JournalEntry where
  | createObjectChange (account : Address)
  | resetObjectChange (prev : StateObject)
  | suicideChange (account : Address) (prev : Bool)
  | storageChange (account : Address) (key prevalue : Hash)
  | refundChange (prev : ℤ)
  | addLogChange (txhash : Hash)
  | addPreimageChange (hash : Hash)

/-- `types.Log`: what the caller gives, and what `AddLog` fills in. -/
structure Log where
  address : Address
  data : Bytes
  txHash : Hash
  blockHash : Hash
  txIndex : ℕ
  index : ℕ
  deriving DecidableEq

structure StateDB where
  db : Database
  trie : AccountTrie
  stateObjects : Address → Option StateObject
  stateObjectsDirty : Address → Bool
  dbErr : Bool
  refund : ℤ
  thash : Hash
  bhash : Hash
  txIndex : ℕ
  logs : Hash → List Log
  logSize : ℕ
  preimages : Hash → Option Bytes
  journal : List JournalEntry
  validRevisions : List Revision
  nextRevisionId : ℕ

namespace StateDB

/-- The state `New` builds over an opened account trie. -/
def fresh (db : Database) (t : AccountTrie) : StateDB where
  db := db
  trie := t
  stateObjects := fun _ => none
  stateObjectsDirty := fun _ => false
  dbErr := false
  refund := 0
  thash := zeroHash
  bhash := zeroHash
  txIndex := 0
  logs := fun _ => []
  logSize := 0
  preimages := fun _ => none
  journal := []
  validRevisions := []
  nextRevisionId := 0

/-- `New`: a state over the account trie at `root`. -/
def new (root : Hash) (db : Database) : Except Error StateDB :=
  match db.openTrie root with
  | none => .error .missingTrieNode
  | some t => .ok (fresh db t)

def setStateObject (o : StateObject) (s : StateDB) : StateDB :=
  { s with stateObjects := Function.update s.stateObjects o.address (some o) }

def appendJournal (e : JournalEntry) (s : StateDB) : StateDB :=
  { s with journal := s.journal ++ [e] }

/-- `getStateObject`: a live object unless it is deleted, otherwise the account from the
trie, which then becomes live. -/
def getStateObject (a : Address) (s : StateDB) : Option StateObject × StateDB :=
  match s.stateObjects a with
  | some o => if o.deleted then (none, s) else (some o, s)
  | none =>
    match s.trie a with
    | none => (none, s)
    | some data => (some (newObject a data), s.setStateObject (newObject a data))

def markStateObjectDirty (a : Address) (s : StateDB) : StateDB :=
  { s with stateObjectsDirty := Function.update s.stateObjectsDirty a true }

/-- Run the object's `onDirty` callback if it is still set, and clear it. -/
def fireOnDirty (o : StateObject) (s : StateDB) : StateObject × StateDB :=
  if o.onDirty then ({ o with onDirty := false }, s.markStateObjectDirty o.address) else (o, s)

/-- `createObject`; the new object's `setNonce(0)` is a no-op, so it stays clean. -/
def createObject (a : Address) (s : StateDB) : (StateObject × Option StateObject) × StateDB :=
  let (prev, s) := s.getStateObject a
  let newobj := newObject a ⟨zeroHash⟩
  let s := s.appendJournal <|
    match prev with
    | none => .createObjectChange a
    | some p => .resetObjectChange p
  ((newobj, prev), s.setStateObject newobj)

def getOrNewStateObject (a : Address) (s : StateDB) : StateObject × StateDB :=
  match s.getStateObject a with
  | (some o, s) =>
    if o.deleted then ((s.createObject a).1.1, (s.createObject a).2) else (o, s)
  | (none, s) => ((s.createObject a).1.1, (s.createObject a).2)

def createAccount (a : Address) (s : StateDB) : StateDB :=
  (s.createObject a).2

/-- The balance, nonce and code setters only make sure the object exists. -/
def setBalance (a : Address) (s : StateDB) : StateDB :=
  (s.getOrNewStateObject a).2

def exist (a : Address) (s : StateDB) : Bool × StateDB :=
  let (o, s) := s.getStateObject a
  (o.isSome, s)

def hasSuicided (a : Address) (s : StateDB) : Bool × StateDB :=
  match s.getStateObject a with
  | (some o, s) => (o.suicided, s)
  | (none, s) => (false, s)

def getState (a : Address) (key : Hash) (s : StateDB) : Hash × StateDB :=
  match s.getStateObject a with
  | (some o, s) =>
    let (v, o) := o.getState s.db key
    (v, s.setStateObject o)
  | (none, s) => (zeroHash, s)

/-- `stateObject.setState` on a live object. -/
def objSetState (o : StateObject) (key value : Hash) (s : StateDB) : StateDB :=
  let (o, s) := s.fireOnDirty (o.writeState key value)
  s.setStateObject o

/-- `SetState`: journal the value `GetState` reads, then write. -/
def setState (a : Address) (key value : Hash) (s : StateDB) : StateDB :=
  let (o, s) := s.getOrNewStateObject a
  let (prev, o) := o.getState s.db key
  let s := s.appendJournal (.storageChange a key prev)
  s.objSetState o key value

/-- `Suicide`; `markSuicided` runs `onDirty`. -/
def suicide (a : Address) (s : StateDB) : Bool × StateDB :=
  match s.getStateObject a with
  | (none, s) => (false, s)
  | (some o, s) =>
    let s := s.appendJournal (.suicideChange a o.suicided)
    let (o, s) := s.fireOnDirty { o with suicided := true }
    (true, s.setStateObject o)

def addRefund (gas : ℤ) (s : StateDB) : StateDB :=
  { s.appendJournal (.refundChange s.refund) with refund := s.refund + gas }

def getRefund (s : StateDB) : ℤ := s.refund

def addLog (log : Log) (s : StateDB) : StateDB :=
  let s := s.appendJournal (.addLogChange s.thash)
  let log := { log with
    txHash := s.thash
    blockHash := s.bhash
    txIndex := s.txIndex
    index := s.logSize }
  { s with
    logs := Function.update s.logs s.thash (s.logs s.thash ++ [log])
    logSize := s.logSize + 1 }

def getLogs (h : Hash) (s : StateDB) : List Log := s.logs h

def addPreimage (hash : Hash) (preimage : Bytes) (s : StateDB) : StateDB :=
  match s.preimages hash with
  | some _ => s
  | none =>
    { s.appendJournal (.addPreimageChange hash) with
      preimages := Function.update s.preimages hash (some preimage) }

def prepare (thash bhash : Hash) (ti : ℕ) (s : StateDB) : StateDB :=
  { s with thash := thash, bhash := bhash, txIndex := ti }

def clearJournalAndRefund (s : StateDB) : StateDB :=
  { s with journal := [], validRevisions := [], refund := 0 }

/-- `DeleteSuicides`: the suicided dirty objects are flagged deleted, and the dirty set
is emptied. -/
def deleteSuicides (s : StateDB) : StateDB :=
  let s := s.clearJournalAndRefund
  { s with
    stateObjects := fun a =>
      if s.stateObjectsDirty a then
        (s.stateObjects a).map fun o => if o.suicided then { o with deleted := true } else o
      else s.stateObjects a
    stateObjectsDirty := fun _ => false }

/-! ## Snapshots -/

def undo : JournalEntry → StateDB → Except Error StateDB
  | .createObjectChange a, s =>
    .ok { s with
      stateObjects := Function.update s.stateObjects a none
      stateObjectsDirty := Function.update s.stateObjectsDirty a false }
  | .resetObjectChange prev, s => .ok (s.setStateObject prev)
  | .suicideChange a prev, s =>
    match s.getStateObject a with
    | (some o, s) => .ok (s.setStateObject { o with suicided := prev })
    | (none, s) => .ok s
  | .storageChange a key prevalue, s =>
    match s.getStateObject a with
    | (some o, s) => .ok (s.objSetState o key prevalue)
    | (none, _) => .error .nilObject
  | .refundChange prev, s => .ok { s with refund := prev }
  | .addLogChange h, s =>
    let logs := s.logs h
    .ok { s with
      logs := Function.update s.logs h (if logs.length = 1 then [] else logs.dropLast)
      logSize := s.logSize - 1 }
  | .addPreimageChange h, s => .ok { s with preimages := Function.update s.preimages h none }

def snapshot (s : StateDB) : ℕ × StateDB :=
  (s.nextRevisionId,
    { s with
      nextRevisionId := s.nextRevisionId + 1
      validRevisions := s.validRevisions ++ [⟨s.nextRevisionId, s.journal.length⟩] })

/-- `RevertToSnapshot`: the revision is found as `sort.Search` finds it, the entries
after its mark are undone from the newest, and it and the later revisions are dropped. -/
def revertToSnapshot (revid : ℕ) (s : StateDB) : Except Error StateDB :=
  let idx := s.validRevisions.findIdx (fun r => decide (revid ≤ r.id))
  match s.validRevisions[idx]? with
  | some r =>
    if r.id = revid then
      match UndoLog.undoAll undo (s.journal.drop r.journalIndex) s with
      | .ok s' => .ok { s' with
          journal := s.journal.take r.journalIndex
          validRevisions := s.validRevisions.take idx }
      | .error e => .error e
    else .error (.revisionCannotBeReverted revid)
  | none => .error (.revisionCannotBeReverted revid)

/-! ## Writing the state to the tries -/

/-- What `Finalise` does to a dirty object: the object, and its account in the trie. -/
def finaliseObject (h : TrieHasher) (db : Database) (deleteEmptyObjects : Bool)
    (o : StateObject) : StateObject × Option Account :=
  if o.suicided || (deleteEmptyObjects && o.empty) then ({ o with deleted := true }, none)
  else
    let o := o.updateRoot h db
    (o, some o.data)

/-- `Finalise`: the dirty objects are deleted from or written to the account trie; the
dirty set stays. -/
def finalise (h : TrieHasher) (deleteEmptyObjects : Bool) (s : StateDB) : StateDB :=
  let s' :=
    { s with
      stateObjects := fun a =>
        if s.stateObjectsDirty a then
          (s.stateObjects a).map fun o => (finaliseObject h s.db deleteEmptyObjects o).1
        else s.stateObjects a
      trie := fun a =>
        if s.stateObjectsDirty a then
          match s.stateObjects a with
          | some o => (finaliseObject h s.db deleteEmptyObjects o).2
          | none => s.trie a
        else s.trie a }
  s'.clearJournalAndRefund

def intermediateRoot (h : TrieHasher) (deleteEmptyObjects : Bool) (s : StateDB) : Hash × StateDB :=
  let s := s.finalise h deleteEmptyObjects
  (h.accountRoot s.trie, s)

/-- What `CommitTo` does to a live object: a suicided object, or an empty dirty one when
empty objects go, is deleted; another dirty one commits its storage trie and is written;
a clean one stays. The result is the object, its account in the trie (`none` for
deleted, the old entry for clean) and the storage trie committed, if any. -/
def commitObject (h : TrieHasher) (db : Database) (deleteEmptyObjects isDirty : Bool)
    (old : Option Account) (o : StateObject) : StateObject × Option Account × Option StorageTrie :=
  if o.suicided || (isDirty && deleteEmptyObjects && o.empty) then
    ({ o with deleted := true }, none, none)
  else if isDirty then
    let o' := o.updateTrie db
    ({ o' with data := ⟨h.storageRoot o'.storageTrie⟩ }, some ⟨h.storageRoot o'.storageTrie⟩,
      some o'.storageTrie)
  else (o, old, none)

/-- A dirty live object whose storage trie could not be opened: `CommitTrie` fails. -/
def CommitFails (s : StateDB) (deleteEmptyObjects : Bool) : Prop :=
  ∃ a o, s.stateObjects a = some o ∧ s.stateObjectsDirty a = true ∧
    ¬ (o.suicided || (deleteEmptyObjects && o.empty)) ∧ (o.updateTrie s.db).dbErr = true

instance (s : StateDB) (d : Bool) : Decidable (s.CommitFails d) := by
  unfold CommitFails
  infer_instance

/-- What `CommitTo` does to the live object at `a`, if any. -/
def commitStep (h : TrieHasher) (deleteEmptyObjects : Bool) (s : StateDB) (a : Address) :
    Option (StateObject × Option Account × Option StorageTrie) :=
  (s.stateObjects a).map fun o =>
    commitObject h s.db deleteEmptyObjects (s.stateObjectsDirty a) (s.trie a) o

/-- The account trie `CommitTo` commits. -/
def committedTrie (h : TrieHasher) (deleteEmptyObjects : Bool) (s : StateDB) : AccountTrie :=
  fun a =>
    match s.commitStep h deleteEmptyObjects a with
    | some r => r.2.1
    | none => s.trie a

/-- The storage trie `CommitTo` commits for the object at `a`, if any. -/
def committedStorage (h : TrieHasher) (deleteEmptyObjects : Bool) (s : StateDB) (a : Address) :
    Option StorageTrie :=
  (s.commitStep h deleteEmptyObjects a).bind (·.2.2)

/-- The storage tries committed into `dbw`; where two share a root, the source keeps the
one its map iteration reaches last, and the model the one of the least address. -/
def commitStorageTries (h : TrieHasher) (deleteEmptyObjects : Bool) (s : StateDB)
    (dbw : Database) : Database :=
  { dbw with
    storageTries := fun root =>
      match (Finset.univ.filter fun a =>
          (s.committedStorage h deleteEmptyObjects a).any fun t => h.storageRoot t = root).min with
      | some a => s.committedStorage h deleteEmptyObjects a
      | none => dbw.storageTries root }

/-- `CommitTo`: the objects are committed, the dirty set is emptied and the account trie
is committed; the journal and refund are cleared. On a failing `CommitTrie` the source
returns in the middle of its loop; the model returns the error. -/
def commitTo (h : TrieHasher) (dbw : Database) (deleteEmptyObjects : Bool) (s : StateDB) :
    Except Error (Hash × Database × StateDB) :=
  if s.CommitFails deleteEmptyObjects then .error .missingTrieNode
  else
    let trie := s.committedTrie h deleteEmptyObjects
    let (root, dbw) := (s.commitStorageTries h deleteEmptyObjects dbw).commitTrie h trie
    .ok (root, dbw,
      ({ s with
        stateObjects := fun a => (s.commitStep h deleteEmptyObjects a).map (·.1)
        stateObjectsDirty := fun _ => false
        trie := trie } : StateDB).clearJournalAndRefund)

end StateDB

end Sphinx.State
