import Sphinx.Common.Types

/-! # The transaction pool

`TxPool` moves a transaction through five containers: the channels of its dealing
threads, the `queue` of received transactions, the `pending` ones a miner can take, the
`working` batches handed to miners under their work ids, and `onChain`, the hashes of
transactions in blocks with the number of the block. Every call of the pool is one step
of the model, and each goroutine of `DealTxRoutine` takes one transaction from its
channel a step. A choice the source leaves open is an argument of the step: the thread
`AddTx` starts at and the order in which `Range` visits `pending`.

`WorkEnded(workid, n, false)` puts the whole batch back into `pending` whatever happened
to its transactions meanwhile, so a transaction that `JustPending` put on chain is handed
out by `Pending` again (`pending_repackages_onChain_tx`).
-/

namespace Sphinx.Txpool

/-- The threads `NewTxPool` starts. -/
def maxThreadNumber : ℕ := 4

/-- The buffer of every `fullCh` and `verifyCh`. -/
def chanBuffer : ℕ := 2000000

/-- `poolBlockCount` as `NewTxPool` sets it. -/
def poolBlockCount : ℕ := 100

def maxHandleKnownTxs : ℕ := 2000000

/-- The pool; the maps are `sync.Map`s keyed by transaction hash or work id, and
`knownTxs` is the package's `handleKnownTx` set. -/
structure TxPool (Tx : Type) where
  fullCh : ℕ → List Tx
  verifyCh : ℕ → List Tx
  queue : Hash → Option Tx
  pending : Hash → Option Tx
  onChain : Hash → Option ℕ
  working : ℤ → Option (List Tx)
  knownTxs : Finset Hash

inductive AddError where
  | knownTransaction (hash : Hash)
  | fullchIsFull
  deriving DecidableEq

variable {Tx : Type} (hash : Tx → Hash)

def init : TxPool Tx :=
  ⟨fun _ => [], fun _ => [], fun _ => none, fun _ => none, fun _ => none, fun _ => none, ∅⟩

/-- `DupTx`: a known, queued, pending or on-chain transaction is refused. -/
def dupTx (pool : TxPool Tx) (tx : Tx) : Bool :=
  decide (hash tx ∈ pool.knownTxs) || (pool.queue (hash tx)).isSome ||
    (pool.pending (hash tx)).isSome || (pool.onChain (hash tx)).isSome

/-- `KnownTxAdd`: the set is cleared once it holds `maxHandleKnownTxs` hashes. -/
def knownTxAdd (pool : TxPool Tx) (h : Hash) : TxPool Tx :=
  { pool with
    knownTxs := insert h (if pool.knownTxs.card ≥ maxHandleKnownTxs then ∅ else pool.knownTxs) }

/-- The threads `AddTx` tries, from `start` on. -/
def tries (start : ℕ) : List ℕ :=
  (List.range maxThreadNumber).map fun t => (start + t) % maxThreadNumber

/-- `AddTx` with `start` the thread `rand.Intn` picked: the transaction goes into the
first channel of the tries with room; it is known from then on, also when every channel
is full. -/
def addTx (pool : TxPool Tx) (tx : Tx) (start : ℕ) : TxPool Tx × Except AddError Unit :=
  if dupTx hash pool tx then (pool, .error (.knownTransaction (hash tx)))
  else
    let pool := knownTxAdd pool (hash tx)
    match (tries start).find? (fun i => (pool.fullCh i).length < chanBuffer) with
    | some i => ({ pool with fullCh := Function.update pool.fullCh i (pool.fullCh i ++ [tx]) }, .ok ())
    | none => (pool, .error .fullchIsFull)

/-- The first goroutine of `DealTxRoutine` for thread `i`: the next transaction of its
`fullCh` goes into `queue` and, when there is room, into its `verifyCh`; `none` while the
channel is empty. -/
def dealFull (pool : TxPool Tx) (i : ℕ) : Option (TxPool Tx) :=
  match pool.fullCh i with
  | [] => none
  | tx :: rest =>
    let pool := { pool with
      fullCh := Function.update pool.fullCh i rest
      queue := Function.update pool.queue (hash tx) (some tx) }
    -- `sendToVerify` drops the transaction on a full channel
    some (if (pool.verifyCh i).length < chanBuffer then
      { pool with verifyCh := Function.update pool.verifyCh i (pool.verifyCh i ++ [tx]) }
    else pool)

/-- The verifying goroutine for thread `i`; `verifyTx` accepts every transaction. -/
def dealVerify (pool : TxPool Tx) (i : ℕ) : Option (TxPool Tx) :=
  match pool.verifyCh i with
  | [] => none
  | tx :: rest =>
    some { pool with
      verifyCh := Function.update pool.verifyCh i rest
      pending := Function.update pool.pending (hash tx) (some tx)
      queue := Function.update pool.queue (hash tx) none }

/-- `Pending(workid, maxtxs)` with `Range` visiting `pending` in the order `order`: the
first `maxtxs` transactions leave `pending` and, when there are any, are stored as the
batch of `workid`. -/
def pending (pool : TxPool Tx) (workid : ℤ) (maxtxs : ℕ) (order : List Hash) :
    List Tx × TxPool Tx :=
  let taken := (order.take maxtxs).filterMap pool.pending
  let pool := { pool with pending := fun h => if h ∈ order.take maxtxs then none else pool.pending h }
  (taken, if taken.length > 0 then { pool with working := Function.update pool.working workid (some taken) }
    else pool)

/-- `WorkEnded`: a succeeded batch goes on chain at `blocknumber`, a failed one back to
`pending`. -/
def workEnded (pool : TxPool Tx) (workid : ℤ) (blocknumber : ℕ) (succeed : Bool) : TxPool Tx :=
  match pool.working workid with
  | some txs =>
    let pool := txs.foldl (fun pool tx =>
      if succeed then { pool with onChain := Function.update pool.onChain (hash tx) (some blocknumber) }
      else { pool with pending := Function.update pool.pending (hash tx) (some tx) }) pool
    { pool with working := Function.update pool.working workid none }
  | none => pool

/-- `JustPending` of a block numbered `number` with the transactions `txs`. -/
def justPending (pool : TxPool Tx) (txs : List Tx) (number : ℕ) : TxPool Tx :=
  txs.foldl (fun pool tx =>
    { pool with
      onChain := Function.update pool.onChain (hash tx) (some number)
      pending := Function.update pool.pending (hash tx) none }) pool

/-- `FitOnChain` with the head at `curHigh`. -/
def fitOnChain (pool : TxPool Tx) (curHigh : ℕ) : TxPool Tx :=
  { pool with
    onChain := fun h => (pool.onChain h).bind fun number =>
      if number > curHigh + poolBlockCount then none else some number }

/-- A step of the pool: one call, or one transaction taken by a dealing goroutine. -/
inductive Step : TxPool Tx → TxPool Tx → Prop
  | addTx {pool : TxPool Tx} (tx : Tx) (start : ℕ) (hs : start < maxThreadNumber) :
      Step pool (addTx hash pool tx start).1
  | dealFull {pool pool' : TxPool Tx} (i : ℕ) (hi : i < maxThreadNumber)
      (h : dealFull hash pool i = some pool') : Step pool pool'
  | dealVerify {pool pool' : TxPool Tx} (i : ℕ) (hi : i < maxThreadNumber)
      (h : dealVerify hash pool i = some pool') : Step pool pool'
  | pending {pool : TxPool Tx} (workid : ℤ) (maxtxs : ℕ) (order : List Hash)
      (hn : order.Nodup) (hk : ∀ h, h ∈ order ↔ (pool.pending h).isSome) :
      Step pool (pending pool workid maxtxs order).2
  | workEnded {pool : TxPool Tx} (workid : ℤ) (blocknumber : ℕ) (succeed : Bool) :
      Step pool (workEnded hash pool workid blocknumber succeed)
  | justPending {pool : TxPool Tx} (txs : List Tx) (number : ℕ) :
      Step pool (justPending hash pool txs number)
  | fitOnChain {pool : TxPool Tx} (curHigh : ℕ) : Step pool (fitOnChain pool curHigh)

/-- The pools a run of calls reaches from the empty one. -/
def Reachable : TxPool Tx → Prop :=
  Relation.ReflTransGen (Step hash) init

/-! ## What the calls do to one transaction -/

variable {hash}

@[simp] theorem pending_fst (pool : TxPool Tx) (workid : ℤ) (maxtxs : ℕ) (order : List Hash) :
    (pending pool workid maxtxs order).1 = (order.take maxtxs).filterMap pool.pending := rfl

@[simp] theorem pending_snd_pending (pool : TxPool Tx) (workid : ℤ) (maxtxs : ℕ)
    (order : List Hash) (h : Hash) :
    (pending pool workid maxtxs order).2.pending h =
      if h ∈ order.take maxtxs then none else pool.pending h := by
  by_cases hp : ((order.take maxtxs).filterMap pool.pending).length > 0 <;> simp [pending, hp]

@[simp] theorem pending_snd_onChain (pool : TxPool Tx) (workid : ℤ) (maxtxs : ℕ)
    (order : List Hash) : (pending pool workid maxtxs order).2.onChain = pool.onChain := by
  by_cases hp : ((order.take maxtxs).filterMap pool.pending).length > 0 <;> simp [pending, hp]

theorem pending_snd_working {pool : TxPool Tx} {workid : ℤ} {maxtxs : ℕ} {order : List Hash}
    (h : (pending pool workid maxtxs order).1 ≠ []) :
    (pending pool workid maxtxs order).2.working workid = some (pending pool workid maxtxs order).1 := by
  have hpos : ((order.take maxtxs).filterMap pool.pending).length > 0 :=
    List.length_pos_of_ne_nil h
  simp [pending, hpos]

@[simp] theorem justPending_singleton (pool : TxPool Tx) (tx : Tx) (number : ℕ) :
    justPending hash pool [tx] number =
      { pool with
        onChain := Function.update pool.onChain (hash tx) (some number)
        pending := Function.update pool.pending (hash tx) none } := rfl

theorem workEnded_singleton_fail {pool : TxPool Tx} {workid : ℤ} {tx : Tx}
    (hw : pool.working workid = some [tx]) (blocknumber : ℕ) :
    workEnded hash pool workid blocknumber false =
      { pool with
        pending := Function.update pool.pending (hash tx) (some tx)
        working := Function.update pool.working workid none } := by
  simp [workEnded, hw]

/-! ## A transaction handed out twice -/

theorem verified_of_init (tx : Tx) :
    ∃ p₂ p₃, dealFull hash (addTx hash init tx 0).1 0 = some p₂ ∧ dealVerify hash p₂ 0 = some p₃ ∧
      Reachable hash p₃ ∧ p₃.pending = Function.update (fun _ => none) (hash tx) (some tx) ∧
      p₃.onChain = (fun _ => none) := by
  refine ⟨_, _, rfl, rfl, ?_, rfl, rfl⟩
  apply Relation.ReflTransGen.tail (Relation.ReflTransGen.tail (Relation.ReflTransGen.single
    (Step.addTx tx 0 (by decide))) (Step.dealFull 0 (by decide) rfl))
  exact Step.dealVerify 0 (by decide) rfl

/-- Added, verified and handed out in the batch `w₁`, a transaction goes on chain with a
block; the batch `w₁` then fails and goes back to `pending`, and `Pending` hands the
transaction out again, in the batch `w₂`, while it is on chain. -/
theorem pending_repackages_onChain_tx (tx : Tx) (w₁ w₂ : ℤ) (n m : ℕ) :
    ∃ p₂ p₃, dealFull hash (addTx hash init tx 0).1 0 = some p₂ ∧
      dealVerify hash p₂ 0 = some p₃ ∧ (pending p₃ w₁ 1 [hash tx]).1 = [tx] ∧
      let p₆ := workEnded hash (justPending hash (pending p₃ w₁ 1 [hash tx]).2 [tx] n) w₁ m false
      Reachable hash p₆ ∧ p₆.onChain (hash tx) = some n ∧
        (∀ h, h ∈ [hash tx] ↔ (p₆.pending h).isSome) ∧ (pending p₆ w₂ 1 [hash tx]).1 = [tx] := by
  obtain ⟨p₂, p₃, h₂, h₃, hr, hpend, hchain⟩ := @verified_of_init _ hash tx
  have horder : ∀ h, h ∈ [hash tx] ↔ (p₃.pending h).isSome := by
    intro h
    by_cases he : h = hash tx <;> simp [hpend, he]
  have hout : (pending p₃ w₁ 1 [hash tx]).1 = [tx] := by simp [hpend]
  have hw : (justPending hash (pending p₃ w₁ 1 [hash tx]).2 [tx] n).working w₁ = some [tx] := by
    rw [justPending_singleton]
    exact (pending_snd_working (by rw [hout]; simp)).trans (by rw [hout])
  refine ⟨p₂, p₃, h₂, h₃, hout, ?_, ?_, ?_, ?_⟩
  · apply Relation.ReflTransGen.tail (Relation.ReflTransGen.tail (Relation.ReflTransGen.tail hr
      (Step.pending w₁ 1 [hash tx] (List.nodup_singleton _) horder)) (Step.justPending [tx] n))
    exact Step.workEnded w₁ m false
  · rw [workEnded_singleton_fail hw]
    simp
  · intro h
    rw [workEnded_singleton_fail hw]
    by_cases he : h = hash tx <;> simp [hpend, he]
  · rw [workEnded_singleton_fail hw]
    simp

end Sphinx.Txpool
