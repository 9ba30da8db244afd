import Sphinx.Worker.Proof
import Sphinx.Lib.Broadcast

/-! # The proof verifying workers

Each worker keeps, for every peer miner, the number and root of the peer's latest proof
(`GetPeerProof`, `WritePeerProof`). Its main loop takes the messages of the network: a
work proof goes to the queue of its sender's verifier goroutine, a state query is
answered from the worker's own chain or from the state it keeps for the queried miner,
and a state response is stored as the state of its sender when the worker has a query
cached under the sender with the same number.

The verifier goroutine of a peer (`dealProofEvent`) verifies the next queued proof
against the stored state, or the genesis root for a first proof. When it has no state, or
the proof does not verify and is not the next one, it broadcasts a query for the number
below and waits (`queryRemoteState`) until the main loop stores a response from that
peer and hands it the peer lock, or until its timer fires. A woken verifier reads the
stored state again and goes on. Every round ends with a confirmation, true when the proof
verified.

The peer lock of a miner is a channel created by the first query, and set to `nil` by a
timeout, after which no wait can be woken. The main loop's hand-over is a send on an
unbuffered channel: it blocks until the verifier waits on it.

The transaction pool, the confirmation counts and the handling of confirmations by the
miner are left out, and so are the caches' sizes. Signing never fails.
-/

namespace Sphinx.Worker

open Function

/-- A miner's entry of `peerLockMap`. -/
inductive PeerLock where
  | absent
  | channel
  | nilChannel
  deriving DecidableEq, Repr

/-- Where the verifier goroutine of a peer is. -/
inductive Verifier (Txs : Type) where
  | idle
  /-- In the `select` of `queryRemoteState`, verifying `proof`. -/
  | awaiting (proof : WorkProof Txs)
  /-- Past the `select`, about to read the peer's state again. -/
  | woken (proof : WorkProof Txs)

/-- A worker's state. -/
structure Node (Txs : Type) where
  /-- The number of the worker's own head header. -/
  height : ℕ
  peerProofs : Address → Option ProofState
  /-- The query last cached under each miner. -/
  queryCache : Address → Option QueryState
  peerLock : Address → PeerLock
  /-- The work proofs waiting in `verifyChMap` for each sender's goroutine. -/
  queue : Address → List (WorkProof Txs)
  verifier : Address → Verifier Txs
  /-- The main loop is blocked handing the peer lock of this miner over. -/
  blocked : Option Address

/-- The actions a worker takes on its own. -/
inductive Action where
  /-- Mine the next header and broadcast its proof. -/
  | mine
  /-- The idle verifier of `sender` takes its next queued proof. -/
  | process (sender : Address)
  /-- The woken verifier of `sender` goes on. -/
  | resume (sender : Address)
  /-- The timer of the waiting verifier of `sender` fires. -/
  | timeout (sender : Address)

variable {Txs : Type} (e : Engine Txs) (txsOf : Address → ℕ → Txs)

namespace Node

/-- A worker that has mined nothing and heard nothing. -/
def init : Node Txs :=
  ⟨0, fun _ => none, fun _ => none, fun _ => .absent, fun _ => [], fun _ => .idle, none⟩

/-- `queryRemoteState` up to its wait: cache and broadcast the query, and create the
peer lock of the miner if it has none. -/
def queryRemoteState (self miner : Address) (number : ℕ) (n : Node Txs) :
    Node Txs × List (Msg Txs) :=
  let qs : QueryState := ⟨miner, number⟩
  ({ n with
      queryCache := update n.queryCache miner (some qs)
      peerLock := if n.peerLock miner = .absent then update n.peerLock miner .channel
        else n.peerLock },
    [.queryState self qs])

/-- The `select` of `queryRemoteState`: a main loop blocked on the miner's channel hands
it over at once, and otherwise the verifier waits. -/
def await (miner : Address) (proof : WorkProof Txs) (n : Node Txs) : Node Txs :=
  if n.blocked = some miner ∧ n.peerLock miner = .channel then
    { n with verifier := update n.verifier miner (.woken proof), blocked := none }
  else { n with verifier := update n.verifier miner (.awaiting proof) }

/-- Query the miner for the state below the proof and wait. -/
def requery (self sender : Address) (proof : WorkProof Txs) (n : Node Txs) :
    Node Txs × List (Msg Txs) :=
  let r := queryRemoteState self sender (proof.number - 1) n
  (await sender proof r.1, r.2)

/-- One round of the loop of `dealProofEvent` with the peer's state `st`. -/
def verifyRound (self sender : Address) (proof : WorkProof Txs) (st : ProofState)
    (n : Node Txs) : Node Txs × List (Msg Txs) :=
  match verifyProof e st.root sender proof with
  | .ok newroot =>
    ({ n with
        peerProofs := update n.peerProofs sender (some ⟨sender, newroot, proof.number⟩)
        verifier := update n.verifier sender .idle },
      [.confirm self ⟨proof.sign, true⟩])
  | .error _ =>
    if st.num + 1 = proof.number then
      ({ n with verifier := update n.verifier sender .idle }, [.confirm self ⟨proof.sign, false⟩])
    else requery self sender proof n

/-- `dealProofEvent` up to its first wait. -/
def dealProofEvent (self sender : Address) (proof : WorkProof Txs) (n : Node Txs) :
    Node Txs × List (Msg Txs) :=
  if sender = self then (n, [])
  else
    match n.peerProofs sender with
    | some st => verifyRound e self sender proof st n
    | none =>
      -- the first proof of a peer extends the genesis header's proof hash
      if proof.number = 1 then verifyRound e self sender proof ⟨sender, e.genesisProofHash, 0⟩ n
      else requery self sender proof n

/-- A woken verifier reads the peer's state and goes on with the loop. -/
def resume (self sender : Address) (proof : WorkProof Txs) (n : Node Txs) :
    Option (Node Txs × List (Msg Txs)) :=
  (n.peerProofs sender).map fun st => verifyRound e self sender proof st n

/-- The timer fires: the peer lock becomes `nil` and the round ends unconfirmed. -/
def timeout (self sender : Address) (proof : WorkProof Txs) (n : Node Txs) :
    Node Txs × List (Msg Txs) :=
  ({ n with
      peerLock := update n.peerLock sender .nilChannel
      verifier := update n.verifier sender .idle },
    [.confirm self ⟨proof.sign, false⟩])

/-- `dealQueryState`: answer from the own chain, or from the state kept for the queried
miner when it has the queried number. -/
def dealQueryState (self sender : Address) (qs : QueryState) (n : Node Txs) :
    Node Txs × List (Msg Txs) :=
  if qs.miner ≠ self then
    match n.peerProofs qs.miner with
    | some pstate =>
      if pstate.num = qs.number then (n, [.responseState self ⟨qs.number, pstate.root, sender⟩])
      else (n, [])
    | none => (n, [])
  else if qs.number ≤ n.height then
    (n, [.responseState self ⟨qs.number, proofRoot e txsOf self qs.number, sender⟩])
  else (n, [])

/-- `ch <- struct{}{}` on the peer lock of `miner` when it is a channel: a waiting
verifier takes it, and otherwise the main loop blocks. -/
def signal (miner : Address) (n : Node Txs) : Node Txs :=
  match n.peerLock miner, n.verifier miner with
  | .channel, .awaiting proof => { n with verifier := update n.verifier miner (.woken proof) }
  | .channel, _ => { n with blocked := some miner }
  | _, _ => n

/-- `dealResponseState`: a response to this worker, from a sender it has a query cached
under with the same number, becomes the sender's state. -/
def dealResponseState (self sender : Address) (rs : ResponseState) (n : Node Txs) :
    Node Txs × List (Msg Txs) :=
  if rs.querier ≠ self then (n, [])
  else
    match n.queryCache sender with
    | none => (n, [])
    | some qs =>
      if rs.number ≠ qs.number then (n, [])
      else
        let peerstate : ProofState := ⟨sender, rs.root, rs.number⟩
        (signal sender { n with peerProofs := update n.peerProofs sender (some peerstate) }, [])

/-- The main loop takes a message, unless it is blocked. -/
def recv (self : Address) (m : Msg Txs) (n : Node Txs) : Option (Node Txs × List (Msg Txs)) :=
  if n.blocked ≠ none then none
  else
    match m with
    | .workProof sender proof =>
      some ({ n with queue := update n.queue sender (n.queue sender ++ [proof]) }, [])
    | .queryState sender qs => some (dealQueryState e txsOf self sender qs n)
    | .responseState sender rs => some (dealResponseState self sender rs n)
    | .confirm _ _ => some (n, [])

/-- A worker's own actions. -/
def act (self : Address) : Action → Node Txs → Option (Node Txs × List (Msg Txs))
  | .mine, n =>
    let proof := generateProof e self (proofRoot e txsOf self n.height) (n.height + 1)
      (txsOf self (n.height + 1))
    some ({ n with height := n.height + 1 }, [.workProof self proof])
  | .process sender, n =>
    match n.verifier sender, n.queue sender with
    | .idle, proof :: rest =>
      some (dealProofEvent e self sender proof { n with queue := update n.queue sender rest })
    | _, _ => none
  | .resume sender, n =>
    match n.verifier sender with
    | .woken proof => resume e self sender proof n
    | _ => none
  | .timeout sender, n =>
    match n.verifier sender with
    | .awaiting proof => some (timeout self sender proof n)
    | _ => none

end Node

/-- The network of honest workers: the miner `s` mines the transactions `txsOf s k` into
its `k`-th proof. -/
def network : Broadcast.Protocol Address (Node Txs) (Msg Txs) Action :=
  ⟨Msg.sender, Node.recv e txsOf, Node.act e txsOf⟩

/-- The network before anything is mined. -/
def initWorld : Broadcast.World Address (Node Txs) (Msg Txs) :=
  ⟨fun _ => Node.init, []⟩

variable {e txsOf} {n : Node Txs} {self sender : Address} {proof : WorkProof Txs}

/-! ## What the network's handlers do -/

theorem network_act_mine :
    (network e txsOf).act self .mine n =
      some ({ n with height := n.height + 1 },
        [.workProof self (honestProof e txsOf self (n.height + 1))]) := rfl

theorem network_recv_workProof (hb : n.blocked = none) :
    (network e txsOf).recv self (.workProof sender proof) n =
      some ({ n with queue := update n.queue sender (n.queue sender ++ [proof]) }, []) := by
  simp [network, Node.recv, hb]

/-- The idle verifier of a peer without a stored state takes a proof that is not the
peer's first and queries the peer for the state below it. -/
theorem network_act_process_query (proof : WorkProof Txs) (rest : List (WorkProof Txs))
    (hs : sender ≠ self) (hv : n.verifier sender = .idle) (hq : n.queue sender = proof :: rest)
    (hst : n.peerProofs sender = none) (hnum : proof.number ≠ 1)
    (hb : n.blocked = none) :
    (network e txsOf).act self (.process sender) n =
      some ({ n with
          queue := update n.queue sender rest
          queryCache := update n.queryCache sender (some ⟨sender, proof.number - 1⟩)
          peerLock := if n.peerLock sender = .absent then update n.peerLock sender .channel
            else n.peerLock
          verifier := update n.verifier sender (.awaiting proof) },
        [.queryState self ⟨sender, proof.number - 1⟩]) := by
  simp [network, Node.act, hv, hq, Node.dealProofEvent, hs, hst, hnum, Node.requery,
    Node.queryRemoteState, Node.await, hb]

/-- The idle verifier of a peer without a stored state takes the peer's first honest
proof, confirms it and stores the peer's first root. -/
theorem network_act_process_first (rest : List (WorkProof Txs)) (hs : sender ≠ self)
    (hv : n.verifier sender = .idle) (hq : n.queue sender = honestProof e txsOf sender 1 :: rest)
    (hst : n.peerProofs sender = none) :
    (network e txsOf).act self (.process sender) n =
      some ({ n with
          queue := update n.queue sender rest
          peerProofs := update n.peerProofs sender (some ⟨sender, proofRoot e txsOf sender 1, 1⟩)
          verifier := update n.verifier sender .idle },
        [.confirm self ⟨(honestProof e txsOf sender 1).sign, true⟩]) := by
  have hok := @verifyProof_honest Txs e txsOf sender 1 (le_refl 1)
  rw [Nat.sub_self, proofRoot_zero] at hok
  simp [network, Node.act, hv, hq, Node.dealProofEvent, hs, hst, Node.verifyRound, hok]

/-- The idle verifier of a peer whose stored state holds the peer's root below its honest
proof `k` confirms the proof and stores the peer's root at `k`. -/
theorem network_act_process_next {k : ℕ} {st : ProofState} (rest : List (WorkProof Txs))
    (hs : sender ≠ self) (hk : 1 ≤ k) (hv : n.verifier sender = .idle)
    (hq : n.queue sender = honestProof e txsOf sender k :: rest)
    (hst : n.peerProofs sender = some st) (hroot : st.root = proofRoot e txsOf sender (k - 1)) :
    (network e txsOf).act self (.process sender) n =
      some ({ n with
          queue := update n.queue sender rest
          peerProofs := update n.peerProofs sender (some ⟨sender, proofRoot e txsOf sender k, k⟩)
          verifier := update n.verifier sender .idle },
        [.confirm self ⟨(honestProof e txsOf sender k).sign, true⟩]) := by
  have hok := @verifyProof_honest Txs e txsOf sender k hk
  rw [← hroot] at hok
  simp [network, Node.act, hv, hq, Node.dealProofEvent, hs, hst, Node.verifyRound, hok]

/-- A worker answers a query about another miner from the state it keeps for it. -/
theorem network_recv_queryState_peer {qs : QueryState} (ps : ProofState) (hm : qs.miner ≠ self)
    (hps : n.peerProofs qs.miner = some ps) (hnum : ps.num = qs.number) (hb : n.blocked = none) :
    (network e txsOf).recv self (.queryState sender qs) n =
      some (n, [.responseState self ⟨qs.number, ps.root, sender⟩]) := by
  simp [network, Node.recv, hb, Node.dealQueryState, hm, hps, hnum]

/-- A response to a query cached under its sender becomes the sender's state and wakes
the sender's waiting verifier. -/
theorem network_recv_responseState_wake {rs : ResponseState} (qs : QueryState)
    (proof : WorkProof Txs) (hq : rs.querier = self) (hc : n.queryCache sender = some qs) (hnum : rs.number = qs.number)
    (hl : n.peerLock sender = .channel) (hv : n.verifier sender = .awaiting proof)
    (hb : n.blocked = none) :
    (network e txsOf).recv self (.responseState sender rs) n =
      some ({ n with
          peerProofs := update n.peerProofs sender (some ⟨sender, rs.root, rs.number⟩)
          verifier := update n.verifier sender (.woken proof) }, []) := by
  simp [network, Node.recv, hb, Node.dealResponseState, hq, hc, hnum, Node.signal, hl, hv]

end Sphinx.Worker
