import Sphinx.Common.Types

/-! # The header chain

The chain database keeps headers and total difficulties under their number and hash,
and the canonical index from numbers to hashes, where a missing entry reads as the zero
hash. `WriteHeader` stores a header with its total difficulty and, when that beats the
head's, deletes the canonical entries above it and rewrites the stale ones below it,
walking back over parents until it meets the old canonical chain. `SetHead` unwinds the
head to a number, deleting the headers it passes and the canonical entries above.
`WriteBlockAndState` decides on the head block the same way, but refuses to reorganise
and only extends the current block.

A header hash is a parameter. Block numbers are `uint64` values: `n - 1` and `i++` wrap,
and the loops are bounded by the `2 ^ 64` numbers they can visit. The LRU caches of
headers and total difficulties are left out: the model reads the database.
-/

namespace Sphinx.Chain

/-- The fields of `types.Header` the chain index reads; `number` is `Number.Uint64()`. -/
structure Header where
  parentHash : Hash
  coinbase : Address
  number : ℕ
  difficulty : ℕ
  number_lt : number < 2 ^ 64
  deriving DecidableEq

/-- `n - 1` on a `uint64`. -/
def decUint64 (n : ℕ) : ℕ := (n + (2 ^ 64 - 1)) % 2 ^ 64

/-- `n + 1` on a `uint64`. -/
def incUint64 (n : ℕ) : ℕ := (n + 1) % 2 ^ 64

inductive Error where
  | unknownAncestor
  | nilPointer
  | stateCommit
  | outOfFuel
  deriving DecidableEq, Repr

inductive WriteStatus where
  | nonStatTy
  | canonStatTy
  | sideStatTy
  deriving DecidableEq, Repr

/-- The tables of the chain database the header chain uses. -/
structure ChainDb where
  headers : ℕ → Hash → Option Header
  tds : ℕ → Hash → Option ℕ
  canonical : ℕ → Option Hash

namespace ChainDb

def getCanonicalHash (db : ChainDb) (number : ℕ) : Hash :=
  (db.canonical number).getD zeroHash

def writeCanonicalHash (db : ChainDb) (hash : Hash) (number : ℕ) : ChainDb :=
  { db with canonical := Function.update db.canonical number (some hash) }

def deleteCanonicalHash (db : ChainDb) (number : ℕ) : ChainDb :=
  { db with canonical := Function.update db.canonical number none }

def getHeader (db : ChainDb) (hash : Hash) (number : ℕ) : Option Header :=
  db.headers number hash

/-- `WriteHeader` of the database: the header under its number and hash. -/
def writeHeader (hashOf : Header → Hash) (db : ChainDb) (header : Header) : ChainDb :=
  { db with
    headers := fun n x =>
      if n = header.number ∧ x = hashOf header then some header else db.headers n x }

def deleteHeader (db : ChainDb) (hash : Hash) (number : ℕ) : ChainDb :=
  { db with headers := fun n x => if n = number ∧ x = hash then none else db.headers n x }

def getTd (db : ChainDb) (hash : Hash) (number : ℕ) : Option ℕ :=
  db.tds number hash

def writeTd (db : ChainDb) (hash : Hash) (number td : ℕ) : ChainDb :=
  { db with tds := fun n x => if n = number ∧ x = hash then some td else db.tds n x }

def deleteTd (db : ChainDb) (hash : Hash) (number : ℕ) : ChainDb :=
  { db with tds := fun n x => if n = number ∧ x = hash then none else db.tds n x }

/-- The loop of `WriteHeader` that deletes the canonical entries from `i` up to the first
missing one. -/
def deleteCanonicalFrom : ℕ → ℕ → ChainDb → ChainDb
  | 0, _, db => db
  | fuel + 1, i, db =>
    if db.getCanonicalHash i = zeroHash then db
    else deleteCanonicalFrom fuel (incUint64 i) (db.deleteCanonicalHash i)

/-- The loop of `WriteHeader` that overwrites stale canonical entries, from the parent
of the new head back to the first entry that already names the header it reaches. -/
def rewriteCanonical (hashOf : Header → Hash) :
    ℕ → ChainDb → Hash → ℕ → Option Header → Except Error ChainDb
  | 0, _, _, _, _ => .error .outOfFuel
  | fuel + 1, db, headHash, headNumber, headHeader =>
    if db.getCanonicalHash headNumber = headHash then .ok db
    else
      let db := db.writeCanonicalHash headHash headNumber
      match headHeader with
      | none => .error .nilPointer
      | some hh =>
        rewriteCanonical hashOf fuel db hh.parentHash (decUint64 hh.number)
          (db.getHeader hh.parentHash (decUint64 hh.number))

/-- The first loop of `SetHead`: delete the current header and its total difficulty and
move to its parent while it is above `head`. -/
def unwindHeaders (hashOf : Header → Hash) (head : ℕ) :
    ℕ → ChainDb → Option Header → ChainDb × Option Header
  | 0, db, cur => (db, cur)
  | _ + 1, db, none => (db, none)
  | fuel + 1, db, some c =>
    if head < c.number then
      let db := (db.deleteHeader (hashOf c) c.number).deleteTd (hashOf c) c.number
      unwindHeaders hashOf head fuel db (db.getHeader c.parentHash (decUint64 c.number))
    else (db, some c)

/-- The second loop of `SetHead`: `for i := height; i > head; i--`. -/
def deleteCanonicalDown (head : ℕ) : ℕ → ChainDb → ChainDb
  | 0, db => db
  | i + 1, db =>
    if head < i + 1 then deleteCanonicalDown head i (db.deleteCanonicalHash (i + 1)) else db

def empty : ChainDb := ⟨fun _ _ => none, fun _ _ => none, fun _ => none⟩

/-- What `Genesis.Commit` writes to the chain index of an empty database. -/
def commitGenesis (hashOf : Header → Hash) (genesis : Header) (difficulty : ℕ) : ChainDb :=
  let db := (empty.writeTd (hashOf genesis) genesis.number difficulty).writeHeader hashOf genesis
  db.writeCanonicalHash (hashOf genesis) genesis.number

end ChainDb

structure HeaderChain where
  chainDb : ChainDb
  genesisHeader : Header
  currentHeader : Header

namespace HeaderChain

variable (hashOf : Header → Hash)

/-- `WriteHeader`; `coin` is the draw `mrand.Float64() < 0.5` that breaks a tie of total
difficulties. -/
def writeHeader (coin : Bool) (header : Header) (hc : HeaderChain) :
    Except Error (WriteStatus × HeaderChain) :=
  let hash := hashOf header
  let number := header.number
  match hc.chainDb.getTd header.parentHash (decUint64 number) with
  | none => .error .unknownAncestor
  | some ptd =>
    match hc.chainDb.getTd (hashOf hc.currentHeader) hc.currentHeader.number with
    | none => .error .nilPointer
    | some localTd =>
      let externTd := header.difficulty + ptd
      let db := (hc.chainDb.writeTd hash number externTd).writeHeader hashOf header
      if localTd < externTd ∨ (externTd = localTd ∧ coin = true) then
        let db := db.deleteCanonicalFrom (2 ^ 64) (incUint64 number)
        match db.rewriteCanonical hashOf (2 ^ 64) header.parentHash (decUint64 number)
            (db.getHeader header.parentHash (decUint64 number)) with
        | .error e => .error e
        | .ok db =>
          .ok (.canonStatTy,
            { hc with chainDb := db.writeCanonicalHash hash number, currentHeader := header })
      else .ok (.sideStatTy, { hc with chainDb := db })

/-- `SetHead`. -/
def setHead (head : ℕ) (hc : HeaderChain) : HeaderChain :=
  let height := hc.currentHeader.number
  let (db, cur) := hc.chainDb.unwindHeaders hashOf head (2 ^ 64) (some hc.currentHeader)
  { hc with
    chainDb := db.deleteCanonicalDown head height
    currentHeader := cur.getD hc.genesisHeader }

end HeaderChain

/-- The head block and the header chain under it; bodies, receipts and state are left out. -/
structure BlockChain where
  hc : HeaderChain
  currentBlock : Header

namespace BlockChain

variable (hashOf : Header → Hash)

/-- `insert`: the block becomes canonical and the head block, and the head header when
the canonical entry at its number named another block. -/
def insert (block : Header) (bc : BlockChain) : BlockChain :=
  let updateHeads := bc.hc.chainDb.getCanonicalHash block.number ≠ hashOf block
  let hc := { bc.hc with chainDb := bc.hc.chainDb.writeCanonicalHash (hashOf block) block.number }
  if updateHeads then { hc := { hc with currentHeader := block }, currentBlock := block }
  else { hc := hc, currentBlock := block }

/-- `WriteBlockAndState`; `commitOk` says whether `state.CommitTo` succeeded. The total
difficulty is written first and stays when the call returns early; the header is written
with the batch. -/
def writeBlockAndState (commitOk : Bool) (block : Header) (bc : BlockChain) :
    Except Error WriteStatus × BlockChain :=
  let db := bc.hc.chainDb
  match db.getTd block.parentHash (decUint64 block.number) with
  | none => (.error .unknownAncestor, bc)
  | some ptd =>
    match db.getTd (hashOf bc.currentBlock) bc.currentBlock.number with
    | none => (.error .nilPointer, bc)
    | some localTd =>
      let externTd := block.difficulty + ptd
      let db := db.writeTd (hashOf block) block.number externTd
      let tdOnly := { bc with hc := { bc.hc with chainDb := db } }
      let written := { bc with hc := { bc.hc with chainDb := db.writeHeader hashOf block } }
      if commitOk = false then (.error .stateCommit, tdOnly)
      else if localTd < externTd ∨ (externTd = localTd ∧
          BigEndian.ofBytes bc.currentBlock.coinbase.bytes <
            BigEndian.ofBytes block.coinbase.bytes) then
        if block.parentHash ≠ hashOf bc.currentBlock then (.ok .nonStatTy, tdOnly)
        else (.ok .canonStatTy, insert hashOf block written)
      else (.ok .sideStatTy, written)

end BlockChain

end Sphinx.Chain
