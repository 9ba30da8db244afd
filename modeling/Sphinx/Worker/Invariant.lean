import Sphinx.Worker.Verify

/-! # What the workers' states always satisfy

In a network of honest miners every work proof in the network or in a queue is its
sender's honest proof, and every root a worker stores or reports is the chain root of
some miner at the stored number. A root the verifier stores is its peer's own: it is the
root the peer signed. A root the main loop stores from a response need not be: a third
party answers a query about another miner from the state it keeps for that miner.

A woken verifier always finds a stored state, so the `nil` dereference of `resume` never
happens.
-/

namespace Sphinx.Worker

open Function Broadcast

variable {Txs : Type} {e : Engine Txs} {txsOf : Address → ℕ → Txs}

variable (e txsOf) in
/-- The proof is the honest proof of `s` of some positive number. -/
def Honest (s : Address) (proof : WorkProof Txs) : Prop :=
  ∃ n, 1 ≤ n ∧ proof = honestProof e txsOf s n

variable (e txsOf) in
/-- What every message of the network satisfies. -/
def MsgInv : Msg Txs → Prop
  | .workProof s proof => Honest e txsOf s proof
  | .responseState _ rs => ∃ m, rs.root = proofRoot e txsOf m rs.number
  | .confirm _ c => c.confirm = true → ∃ s proof, Honest e txsOf s proof ∧ c.signature = proof.sign
  | .queryState _ _ => True

variable (e txsOf) in
/-- What every worker's state satisfies. -/
structure NodeInv (n : Node Txs) : Prop where
  stored : ∀ a ps, n.peerProofs a = some ps →
    ps.addr = a ∧ ∃ m, ps.root = proofRoot e txsOf m ps.num
  queued : ∀ a proof, proof ∈ n.queue a → Honest e txsOf a proof
  awaiting : ∀ a proof, n.verifier a = .awaiting proof → Honest e txsOf a proof
  woken : ∀ a proof, n.verifier a = .woken proof →
    Honest e txsOf a proof ∧ n.peerProofs a ≠ none
  blocked : ∀ a, n.blocked = some a → n.peerProofs a ≠ none

@[simp] theorem Node.dealQueryState_fst (n : Node Txs) (self sender : Address) (qs : QueryState) :
    (n.dealQueryState e txsOf self sender qs).1 = n := by
  unfold Node.dealQueryState
  split_ifs <;> (try split) <;> (try split_ifs) <;> rfl

@[simp] theorem Node.dealResponseState_snd (n : Node Txs) (self sender : Address)
    (rs : ResponseState) : (n.dealResponseState self sender rs).2 = [] := by
  unfold Node.dealResponseState
  split_ifs <;> (try split) <;> (try split_ifs) <;> rfl

section Out

variable {n : Node Txs} {self sender : Address} {proof : WorkProof Txs}

theorem Node.requery_out : ∀ m ∈ (n.requery self sender proof).2, MsgInv e txsOf m := by
  simp [Node.requery, Node.queryRemoteState, MsgInv]

theorem Node.verifyRound_out {st : ProofState} (hp : Honest e txsOf sender proof) :
    ∀ m ∈ (n.verifyRound e self sender proof st).2, MsgInv e txsOf m := by
  unfold Node.verifyRound
  split
  · simpa [MsgInv] using ⟨sender, proof, hp, rfl⟩
  · split_ifs
    · simp [MsgInv]
    · exact Node.requery_out

theorem Node.dealProofEvent_out (hp : Honest e txsOf sender proof) :
    ∀ m ∈ (n.dealProofEvent e self sender proof).2, MsgInv e txsOf m := by
  unfold Node.dealProofEvent
  by_cases hs : sender = self
  · simp [hs]
  rw [if_neg hs]
  rcases n.peerProofs sender with _ | st
  · dsimp only
    split_ifs
    · exact Node.verifyRound_out hp
    · exact Node.requery_out
  · exact Node.verifyRound_out hp

end Out

namespace NodeInv

variable {n : Node Txs}

theorem init : NodeInv e txsOf (Node.init : Node Txs) :=
  ⟨by simp [Node.init], by simp [Node.init], by simp [Node.init], by simp [Node.init],
    by simp [Node.init]⟩

theorem writePeerProof (h : NodeInv e txsOf n) {a : Address} {ps : ProofState}
    (hps : ps.addr = a ∧ ∃ m, ps.root = proofRoot e txsOf m ps.num) :
    NodeInv e txsOf { n with peerProofs := update n.peerProofs a (some ps) } := by
  have hgrow : ∀ b, n.peerProofs b ≠ none → update n.peerProofs a (some ps) b ≠ none := by
    intro b hb
    by_cases hba : b = a
    · simp [hba]
    · simpa [hba] using hb
  refine ⟨?_, h.queued, h.awaiting, ?_, ?_⟩
  · intro b ps' hb
    by_cases hba : b = a
    · subst hba
      simp only [update_self, Option.some.injEq] at hb
      exact hb ▸ hps
    · simp only [ne_eq, hba, not_false_eq_true, update_of_ne] at hb
      exact h.stored b ps' hb
  · intro b proof hb
    obtain ⟨hh, hs⟩ := h.woken b proof hb
    exact ⟨hh, hgrow b hs⟩
  · intro b hb
    exact hgrow b (h.blocked b hb)

theorem setVerifier (h : NodeInv e txsOf n) {a : Address} {v : Verifier Txs}
    (hv : ∀ proof, v = .awaiting proof → Honest e txsOf a proof)
    (hw : ∀ proof, v = .woken proof → Honest e txsOf a proof ∧ n.peerProofs a ≠ none) :
    NodeInv e txsOf { n with verifier := update n.verifier a v } := by
  refine ⟨h.stored, h.queued, ?_, ?_, h.blocked⟩
  · intro b proof hb
    by_cases hba : b = a
    · subst hba
      simp only [update_self] at hb
      exact hv proof hb
    · simp only [update_of_ne hba] at hb
      exact h.awaiting b proof hb
  · intro b proof hb
    by_cases hba : b = a
    · subst hba
      simp only [update_self] at hb
      exact hw proof hb
    · simp only [update_of_ne hba] at hb
      exact h.woken b proof hb

theorem setIdle (h : NodeInv e txsOf n) (a : Address) :
    NodeInv e txsOf { n with verifier := update n.verifier a .idle } :=
  h.setVerifier (fun _ hv => nomatch hv) (fun _ hv => nomatch hv)

theorem setBlocked (h : NodeInv e txsOf n) {b : Option Address}
    (hb : ∀ a, b = some a → n.peerProofs a ≠ none) : NodeInv e txsOf { n with blocked := b } :=
  ⟨h.stored, h.queued, h.awaiting, h.woken, hb⟩

/-- Caching a query and taking the peer lock keeps the invariant. -/
theorem queryRemoteState (h : NodeInv e txsOf n) (self miner : Address) (number : ℕ) :
    NodeInv e txsOf (n.queryRemoteState self miner number).1 :=
  ⟨h.stored, h.queued, h.awaiting, h.woken, h.blocked⟩

/-- Waiting for the peer lock with an honest proof keeps the invariant. -/
theorem await (h : NodeInv e txsOf n) {miner : Address} {proof : WorkProof Txs}
    (hp : Honest e txsOf miner proof) : NodeInv e txsOf (n.await miner proof) := by
  unfold Node.await
  split_ifs with hb
  · have hw : NodeInv e txsOf { n with verifier := update n.verifier miner (.woken proof) } :=
      h.setVerifier (fun _ hv => nomatch hv)
        (fun _ hv => by cases hv; exact ⟨hp, h.blocked miner hb.1⟩)
    exact hw.setBlocked (fun _ hn => nomatch hn)
  · refine h.setVerifier (fun _ hv => ?_) (fun _ hv => nomatch hv)
    cases hv
    exact hp

theorem requery (h : NodeInv e txsOf n) {self sender : Address} {proof : WorkProof Txs}
    (hp : Honest e txsOf sender proof) : NodeInv e txsOf (n.requery self sender proof).1 :=
  (h.queryRemoteState self sender _).await hp

/-- A verifying round of an honest proof keeps the invariant: what it stores is the
peer's own root at the proof's number. -/
theorem verifyRound (h : NodeInv e txsOf n) {self sender : Address} {proof : WorkProof Txs}
    {st : ProofState} (hp : Honest e txsOf sender proof) :
    NodeInv e txsOf (n.verifyRound e self sender proof st).1 := by
  obtain ⟨k, hk, rfl⟩ := hp
  unfold Node.verifyRound
  split
  · rename_i newroot hv
    obtain ⟨-, rfl⟩ := verifyProof_honest_eq hk hv
    refine NodeInv.setIdle (h.writePeerProof ?_) sender
    exact ⟨rfl, sender, rfl⟩
  · split_ifs
    · exact h.setIdle sender
    · exact h.requery ⟨k, hk, rfl⟩

theorem dealProofEvent (h : NodeInv e txsOf n) {self sender : Address} {proof : WorkProof Txs}
    (hp : Honest e txsOf sender proof) :
    NodeInv e txsOf (n.dealProofEvent e self sender proof).1 := by
  unfold Node.dealProofEvent
  by_cases hs : sender = self
  · rw [if_pos hs]
    exact h
  rw [if_neg hs]
  rcases n.peerProofs sender with _ | st
  · dsimp only
    split_ifs
    · exact h.verifyRound hp
    · exact h.requery hp
  · exact h.verifyRound hp

/-- Signalling a miner's peer lock right after storing a state for it keeps the
invariant. -/
theorem signal (h : NodeInv e txsOf n) {miner : Address} (hs : n.peerProofs miner ≠ none) :
    NodeInv e txsOf (n.signal miner) := by
  unfold Node.signal
  split
  · rename_i proof _ hv
    refine h.setVerifier (fun _ hv' => nomatch hv') (fun _ hv' => ?_)
    cases hv'
    exact ⟨h.awaiting miner proof hv, hs⟩
  · refine h.setBlocked ?_
    rintro a ⟨⟩
    exact hs
  · exact h

theorem dealResponseState (h : NodeInv e txsOf n) {self sender : Address} {rs : ResponseState}
    (hrs : ∃ m, rs.root = proofRoot e txsOf m rs.number) :
    NodeInv e txsOf (n.dealResponseState self sender rs).1 := by
  unfold Node.dealResponseState
  split_ifs
  · exact h
  split
  · exact h
  split_ifs
  · exact h
  refine (h.writePeerProof ?_).signal ?_
  · exact ⟨rfl, hrs⟩
  · simp

theorem dealQueryState_out (h : NodeInv e txsOf n) {self sender : Address} {qs : QueryState} :
    ∀ m ∈ (n.dealQueryState e txsOf self sender qs).2, MsgInv e txsOf m := by
  unfold Node.dealQueryState
  split_ifs with hmin hnum
  · split
    · rename_i ps hps
      split_ifs with hnum
      · simp only [List.mem_singleton, forall_eq, MsgInv]
        obtain ⟨-, m, hroot⟩ := h.stored _ ps hps
        exact ⟨m, hnum ▸ hroot⟩
      · simp
    · simp
  · simp only [List.mem_singleton, forall_eq, MsgInv]
    exact ⟨self, rfl⟩
  · simp

/-- The main loop keeps the invariant on every message of the network, and sends only
responses that report some miner's root at their number. -/
theorem recv (h : NodeInv e txsOf n) {self : Address} {m : Msg Txs} {n' : Node Txs}
    {out : List (Msg Txs)} (hm : MsgInv e txsOf m) (hr : n.recv e txsOf self m = some (n', out)) :
    NodeInv e txsOf n' ∧ ∀ m' ∈ out, MsgInv e txsOf m' := by
  unfold Node.recv at hr
  split_ifs at hr
  cases m with
  | workProof sender proof =>
    cases hr
    refine ⟨⟨h.stored, fun a p hp => ?_, h.awaiting, h.woken, h.blocked⟩, by simp⟩
    by_cases ha : a = sender
    · subst ha
      simp only [update_self, List.mem_append, List.mem_singleton] at hp
      rcases hp with hp | rfl
      · exact h.queued a p hp
      · exact hm
    · simp only [update_of_ne ha] at hp
      exact h.queued a p hp
  | queryState sender qs =>
    obtain ⟨rfl, rfl⟩ := Prod.ext_iff.mp (Option.some.inj hr).symm
    exact ⟨by simp [Node.dealQueryState_fst, h], h.dealQueryState_out⟩
  | responseState sender rs =>
    obtain ⟨rfl, rfl⟩ := Prod.ext_iff.mp (Option.some.inj hr).symm
    exact ⟨h.dealResponseState hm, by simp [Node.dealResponseState_snd]⟩
  | confirm sender c =>
    cases hr
    exact ⟨h, by simp⟩

/-- A worker's own actions keep the invariant and send only honest proofs, queries and
confirmations of honest proofs. -/
theorem act (h : NodeInv e txsOf n) {self : Address} {a : Action} {n' : Node Txs}
    {out : List (Msg Txs)} (ha : n.act e txsOf self a = some (n', out)) :
    NodeInv e txsOf n' ∧ ∀ m' ∈ out, MsgInv e txsOf m' := by
  cases a with
  | mine =>
    cases ha
    refine ⟨⟨h.stored, h.queued, h.awaiting, h.woken, h.blocked⟩, ?_⟩
    simp only [List.mem_singleton, forall_eq, MsgInv]
    exact ⟨n.height + 1, by omega, rfl⟩
  | process sender =>
    simp only [Node.act] at ha
    split at ha
    · rename_i proof rest hv hq
      obtain ⟨rfl, rfl⟩ := Prod.ext_iff.mp (Option.some.inj ha).symm
      have hp : Honest e txsOf sender proof := h.queued sender proof (by simp [hq])
      have hpop : NodeInv e txsOf { n with queue := update n.queue sender rest } := by
        refine ⟨h.stored, fun b p hb => ?_, h.awaiting, h.woken, h.blocked⟩
        by_cases hbs : b = sender
        · subst hbs
          simp only [update_self] at hb
          exact h.queued b p (by simp [hq, hb])
        · simp only [update_of_ne hbs] at hb
          exact h.queued b p hb
      exact ⟨hpop.dealProofEvent hp, Node.dealProofEvent_out hp⟩
    · cases ha
  | resume sender =>
    simp only [Node.act] at ha
    split at ha
    · rename_i proof hv
      obtain ⟨hp, -⟩ := h.woken sender proof hv
      simp only [Node.resume, Option.map_eq_some_iff] at ha
      obtain ⟨st, -, hst⟩ := ha
      obtain ⟨rfl, rfl⟩ := Prod.ext_iff.mp hst.symm
      exact ⟨h.verifyRound hp, Node.verifyRound_out hp⟩
    · cases ha
  | timeout sender =>
    simp only [Node.act] at ha
    split at ha
    · cases ha
      have hi := h.setIdle sender
      exact ⟨⟨hi.stored, hi.queued, hi.awaiting, hi.woken, hi.blocked⟩, by simp [MsgInv]⟩
    · cases ha

end NodeInv

theorem network_invariant :
    Invariant (network e txsOf) (fun _ => NodeInv e txsOf) (MsgInv e txsOf) :=
  ⟨fun _ _ _ _ _ hs hm _ hr => hs.recv hm hr, fun _ _ _ _ _ hs ha => hs.act ha⟩

variable {w : World Address (Node Txs) (Msg Txs)}

theorem holds_of_reachable (hr : Reachable (network e txsOf) initWorld w) :
    Holds (fun _ => NodeInv e txsOf) (MsgInv e txsOf) w :=
  network_invariant.reachable ⟨fun _ => NodeInv.init, by simp [initWorld]⟩ hr

theorem peerProof_root_of_reachable (hr : Reachable (network e txsOf) initWorld w)
    {i a : Address} {ps : ProofState} (hps : (w.nodes i).peerProofs a = some ps) :
    ps.addr = a ∧ ∃ m, ps.root = proofRoot e txsOf m ps.num :=
  ((holds_of_reachable hr).1 i).stored a ps hps

theorem confirm_honest_of_reachable (hr : Reachable (network e txsOf) initWorld w)
    {i : Address} {c : ProofConfirm} (hc : Msg.confirm i c ∈ w.sent) (ht : c.confirm = true) :
    ∃ s proof, Honest e txsOf s proof ∧ c.signature = proof.sign :=
  (holds_of_reachable hr).2 _ hc ht

theorem resume_ne_none (hr : Reachable (network e txsOf) initWorld w) {i a : Address}
    {proof : WorkProof Txs} (hv : (w.nodes i).verifier a = .woken proof) :
    (w.nodes i).act e txsOf i (.resume a) ≠ none := by
  obtain ⟨-, hs⟩ := ((holds_of_reachable hr).1 i).woken a proof hv
  obtain ⟨st, hst⟩ := Option.ne_none_iff_exists'.mp hs
  simp [Node.act, hv, Node.resume, hst]

/-- In every run of a network of honest miners, a state a worker stores for a miner names
that miner and holds some miner's chain root at its number, a confirmation sent as true
carries the signature of a miner's honest proof, and a woken verifier always goes on. -/
theorem worker_network_safety (hr : Reachable (network e txsOf) initWorld w) :
    (∀ i a ps, (w.nodes i).peerProofs a = some ps →
      ps.addr = a ∧ ∃ m, ps.root = proofRoot e txsOf m ps.num) ∧
    (∀ i c, Msg.confirm i c ∈ w.sent → c.confirm = true →
      ∃ s proof, Honest e txsOf s proof ∧ c.signature = proof.sign) ∧
    ∀ i a proof, (w.nodes i).verifier a = .woken proof →
      (w.nodes i).act e txsOf i (.resume a) ≠ none :=
  ⟨fun _ _ _ => peerProof_root_of_reachable hr, fun _ _ => confirm_honest_of_reachable hr,
    fun _ _ _ => resume_ne_none hr⟩

theorem reachable_confirms_two {s t : Address} (hst : s ≠ t) :
    ∃ w, Reachable (network e txsOf) initWorld w ∧
      (w.nodes t).peerProofs s = some ⟨s, proofRoot e txsOf s 2, 2⟩ ∧
      Msg.confirm t ⟨(honestProof e txsOf s 2).sign, true⟩ ∈ w.sent := by
  have r0 : Reachable (network e txsOf) initWorld initWorld := Relation.ReflTransGen.refl
  have r1 := r0.act s .mine network_act_mine
  have r2 := r1.act s .mine network_act_mine
  have r3 := r2.deliver t (.workProof s (honestProof e txsOf s 1))
    (by simp [initWorld, Node.init]) hst
    (network_recv_workProof (by simp [initWorld, Node.init, hst.symm]))
  have r4 := r3.deliver t (.workProof s (honestProof e txsOf s 2))
    (by simp [initWorld, Node.init]) hst
    (network_recv_workProof (by simp [initWorld, Node.init, hst.symm]))
  have r5 := r4.act t (.process s)
    (network_act_process_first [honestProof e txsOf s 2] hst
      (by simp [initWorld, Node.init, hst.symm]) (by simp [initWorld, Node.init, hst.symm])
      (by simp [initWorld, Node.init, hst.symm]))
  have r6 := r5.act t (.process s)
    (network_act_process_next [] hst (show 1 ≤ 2 by norm_num)
      (by simp [initWorld, Node.init, hst.symm]) (by simp [initWorld, Node.init, hst.symm])
      (show _ = some ⟨s, proofRoot e txsOf s 1, 1⟩ by simp) rfl)
  exact ⟨_, r6, by simp, by simp⟩

theorem worker_network_safety_two_proofs :
    let e : Engine ℕ := ⟨fun b => b.drop 32, fun k => bytesToHash [k.toUInt8], zeroHash⟩
    let txsOf : Address → ℕ → ℕ := fun a _ => (a.bytes.headD 0).toNat
    let s : Address := ⟨List.replicate 20 2, List.length_replicate⟩
    let t : Address := ⟨List.replicate 20 3, List.length_replicate⟩
    ∃ w, Reachable (network e txsOf) initWorld w ∧
      (w.nodes t).peerProofs s = some ⟨s, proofRoot e txsOf s 2, 2⟩ ∧
      ∃ s' proof, Honest e txsOf s' proof ∧ (honestProof e txsOf s 2).sign = proof.sign := by
  intro e txsOf s t
  obtain ⟨w, hr, hps, hc⟩ := @reachable_confirms_two ℕ e txsOf s t (by decide)
  exact ⟨w, hr, hps, (worker_network_safety hr).2.1 t _ hc rfl⟩

end Sphinx.Worker
