import Sphinx.Worker.Invariant

/-! # Responses are stored as their sender's state

The verifier's own path is complete: a worker whose state for `s` holds `s`'s root below
an honest proof confirms that proof and stores `s`'s next root (`network_act_process_next`).
What it stores is always the root its peer signed (`NodeInv.verifyRound`).

The query path is not sound. `dealResponseState` stores a response as the state of the
worker that sent it, once a query with the response's number is cached under that
worker, and a response names no miner. `dealQueryState` lets a worker answer a query
about another miner from the state it keeps for that miner. So when `v` has asked about
both `t` and `s` at the same number, `t`'s answer about `s` becomes `t`'s state at `v`.
-/

namespace Sphinx.Worker

open Function Broadcast

variable {Txs : Type} {e : Engine Txs} {txsOf : Address → ℕ → Txs}

/-- Let `t` and `s` each mine two proofs. `v` takes their second proofs without a state for
either and queries both at number one; `t` verifies `s`'s first proof. `t` answers `v`'s
query about `s` with `s`'s root, and `v` stores it as `t`'s state at number one. -/
theorem dealResponseState_stores_foreign_root {v s t : Address} (hvs : v ≠ s) (hvt : v ≠ t)
    (hst : s ≠ t) (hroot : proofRoot e txsOf s 1 ≠ proofRoot e txsOf t 1) :
    ∃ w, Reachable (network e txsOf) initWorld w ∧
      ∃ ps, (w.nodes v).peerProofs t = some ps ∧ ps.root = proofRoot e txsOf s ps.num ∧
        ps.root ≠ proofRoot e txsOf t ps.num := by
  have r0 : Reachable (network e txsOf) initWorld initWorld := Relation.ReflTransGen.refl
  have r1 := r0.act t .mine network_act_mine
  have r2 := r1.act t .mine network_act_mine
  have r3 := r2.act s .mine network_act_mine
  have r4 := r3.act s .mine network_act_mine
  have r5 := r4.deliver v (.workProof t (honestProof e txsOf t 2))
    (by simp [initWorld, Node.init, hst.symm]) hvt.symm
    (network_recv_workProof (by simp [initWorld, Node.init, hvt, hvs]))
  have r6 := r5.act v (.process t)
    (network_act_process_query (honestProof e txsOf t 2) [] hvt.symm
      (by simp [initWorld, Node.init, hvt, hvs]) (by simp [initWorld, Node.init, hvt, hvs])
      (by simp [initWorld, Node.init, hvt, hvs]) (by simp) (by simp [initWorld, Node.init, hvt, hvs]))
  have r7 := r6.deliver v (.workProof s (honestProof e txsOf s 2))
    (by simp [initWorld, Node.init, hst]) hvs.symm
    (network_recv_workProof (by simp [initWorld, Node.init, hvt, hvs]))
  have r8 := r7.act v (.process s)
    (network_act_process_query (honestProof e txsOf s 2) [] hvs.symm
      (by simp [initWorld, Node.init, hvt, hvs, hst]) (by simp [initWorld, Node.init, hvt, hvs, hst])
      (by simp [initWorld, Node.init, hvt, hvs, hst]) (by simp)
      (by simp [initWorld, Node.init, hvt, hvs, hst]))
  have r9 := r8.deliver t (.workProof s (honestProof e txsOf s 1))
    (by simp [initWorld, Node.init, hst]) hst
    (network_recv_workProof (by simp [initWorld, Node.init, hvt.symm, hst.symm]))
  have r10 := r9.act t (.process s)
    (network_act_process_first [] hst (by simp [initWorld, Node.init, hvt.symm, hst.symm])
      (by simp [initWorld, Node.init, hvt.symm, hst.symm])
      (by simp [initWorld, Node.init, hvt.symm, hst.symm]))
  have r11 := r10.deliver t (.queryState v ⟨s, 1⟩) (by simp) hvt
    (network_recv_queryState_peer ⟨s, proofRoot e txsOf s 1, 1⟩ hst
      (by simp [initWorld, Node.init, hvt.symm, hst.symm]) rfl
      (by simp [initWorld, Node.init, hvt.symm, hst.symm]))
  have r12 := r11.deliver v (.responseState t ⟨1, proofRoot e txsOf s 1, v⟩) (by simp)
    hvt.symm (network_recv_responseState_wake ⟨t, 1⟩ (honestProof e txsOf t 2) rfl
      (by simp [initWorld, Node.init, hvt, hvs, hst, hst.symm]) rfl
      (by simp [initWorld, Node.init, hvt, hvs, hst, hst.symm]) (by simp [initWorld, Node.init, hvt, hvs, hst, hst.symm])
      (by simp [initWorld, Node.init, hvt, hvs, hst]))
  exact ⟨_, r12, ⟨t, proofRoot e txsOf s 1, 1⟩, by simp, rfl, hroot⟩

theorem dealResponseState_stores_foreign_root_sample :
    let e : Engine ℕ := ⟨fun b => b.drop 32, fun k => bytesToHash [k.toUInt8], zeroHash⟩
    let txsOf : Address → ℕ → ℕ := fun a _ => (a.bytes.headD 0).toNat
    let v : Address := ⟨List.replicate 20 1, List.length_replicate⟩
    let s : Address := ⟨List.replicate 20 2, List.length_replicate⟩
    let t : Address := ⟨List.replicate 20 3, List.length_replicate⟩
    v ≠ s ∧ v ≠ t ∧ s ≠ t ∧ proofRoot e txsOf s 1 ≠ proofRoot e txsOf t 1 ∧
      ∃ w, Reachable (network e txsOf) initWorld w ∧
        ∃ ps, (w.nodes v).peerProofs t = some ps ∧ ps.root = proofRoot e txsOf s ps.num ∧
          ps.root ≠ proofRoot e txsOf t ps.num := by
  intro e txsOf v s t
  have hvs : v ≠ s := by decide
  have hvt : v ≠ t := by decide
  have hst : s ≠ t := by decide
  have hroot : proofRoot e txsOf s 1 ≠ proofRoot e txsOf t 1 := by decide
  exact ⟨hvs, hvt, hst, hroot, dealResponseState_stores_foreign_root hvs hvt hst hroot⟩

end Sphinx.Worker
