import Sphinx.Types.ProofState

/-! # Work proofs

A miner's work proof of number `n` signs the hash chain root `MixHash(lastHash, txroot)`,
where `lastHash` is the proof hash of its header `n - 1` and `txroot` the `DeriveSha` of
the proof's transactions. `VerifyProof` recomputes that root from a stored `lastHash`
and accepts it when the signature recovers to the claimed miner.

The transactions are a type parameter with their `DeriveSha` given by the engine; the
Keccak-256 of `MixHash` is a parameter. Signatures are unforgeable: a signature records
its signer and the hash it signs, and `Ecrecover` of a hash gives the signer exactly when
the signature is over that hash.
-/

namespace Sphinx.Worker

/-- The consensus engine's hashing and the genesis header's proof hash. -/
structure Engine (Txs : Type) where
  keccak256 : Bytes → Bytes
  deriveSha : Txs → Hash
  genesisProofHash : Hash

/-- A signature by `signer` over `hash`. -/
structure Signature where
  signer : Address
  hash : Hash
  deriving DecidableEq

/-- `crypto.Ecrecover` followed by `recoverpk2address`. -/
def ecrecover (hash : Hash) (sig : Signature) : Option Address :=
  if sig.hash = hash then some sig.signer else none

/-- `types.WorkProof`; its `States` are not read by the verifier. -/
structure WorkProof (Txs : Type) where
  number : ℕ
  sign : Signature
  txs : Txs

structure QueryState where
  miner : Address
  number : ℕ
  deriving DecidableEq

structure ResponseState where
  number : ℕ
  root : Hash
  querier : Address
  deriving DecidableEq

structure ProofConfirm where
  signature : Signature
  confirm : Bool
  deriving DecidableEq

/-- The messages between workers, each with the sender that `RecoverSender` gives. -/
inductive Msg (Txs : Type) where
  | workProof (sender : Address) (proof : WorkProof Txs)
  | queryState (sender : Address) (qs : QueryState)
  | responseState (sender : Address) (rs : ResponseState)
  | confirm (sender : Address) (c : ProofConfirm)

def Msg.sender {Txs : Type} : Msg Txs → Address
  | .workProof s _ | .queryState s _ | .responseState s _ | .confirm s _ => s

inductive VerifyError where
  | invalidProof
  deriving DecidableEq, Repr

variable {Txs : Type} (e : Engine Txs)

/-- `MixHash`: the Keccak-256 of the two hashes one after the other. -/
def mixHash (first second : Hash) : Hash :=
  bytesToHash (e.keccak256 (first.bytes ++ second.bytes))

/-- `GenerateProof` of the miner `signer` on a parent with proof hash `lastHash`. -/
def generateProof (signer : Address) (lastHash : Hash) (number : ℕ) (txs : Txs) :
    WorkProof Txs :=
  let txroot := e.deriveSha txs
  let proofHash := mixHash e lastHash txroot
  ⟨number, ⟨signer, proofHash⟩, txs⟩

/-- `verifyProof`: the root the proof extends `lHash` to, when `address` signed it. -/
def verifyProof (lHash : Hash) (address : Address) (proof : WorkProof Txs) :
    Except VerifyError Hash :=
  let txroot := e.deriveSha proof.txs
  let proofHash := mixHash e lHash txroot
  match ecrecover proofHash proof.sign with
  | some addr => if addr = address then .ok proofHash else .error .invalidProof
  | none => .error .invalidProof

theorem verifyProof_eq_ok {lHash : Hash} {address : Address} {proof : WorkProof Txs}
    {root : Hash} :
    verifyProof e lHash address proof = .ok root ↔
      proof.sign = ⟨address, root⟩ ∧ root = mixHash e lHash (e.deriveSha proof.txs) := by
  rcases proof with ⟨number, ⟨signer, hash⟩, txs⟩
  unfold verifyProof ecrecover
  by_cases hh : hash = mixHash e lHash (e.deriveSha txs)
  · by_cases ha : signer = address
    · simp [hh, ha, eq_comm]
    · simp [hh, ha]
  · simp [hh]
    grind

variable (txsOf : Address → ℕ → Txs)

/-- `P s n`: the proof hash of the miner `s`'s header `n` when its `k`-th proof carries
the transactions `txsOf s k`. -/
def proofRoot (s : Address) : ℕ → Hash
  | 0 => e.genesisProofHash
  | n + 1 => mixHash e (proofRoot s n) (e.deriveSha (txsOf s (n + 1)))

/-- The proof the honest miner `s` sends as its `n`-th. -/
def honestProof (s : Address) (n : ℕ) : WorkProof Txs :=
  generateProof e s (proofRoot e txsOf s (n - 1)) n (txsOf s n)

variable {e txsOf}

@[simp] theorem proofRoot_zero (s : Address) : proofRoot e txsOf s 0 = e.genesisProofHash := rfl

@[simp] theorem honestProof_number (s : Address) (n : ℕ) : (honestProof e txsOf s n).number = n :=
  rfl

theorem honestProof_sign {s : Address} {n : ℕ} (hn : 1 ≤ n) :
    (honestProof e txsOf s n).sign = ⟨s, proofRoot e txsOf s n⟩ := by
  obtain ⟨k, rfl⟩ : ∃ k, n = k + 1 := ⟨n - 1, by omega⟩
  rfl

/-- An honest proof extends its miner's previous root to the next. -/
theorem verifyProof_honest {s : Address} {n : ℕ} (hn : 1 ≤ n) :
    verifyProof e (proofRoot e txsOf s (n - 1)) s (honestProof e txsOf s n) =
      .ok (proofRoot e txsOf s n) := by
  obtain ⟨k, rfl⟩ : ∃ k, n = k + 1 := ⟨n - 1, by omega⟩
  rw [verifyProof_eq_ok]
  exact ⟨rfl, rfl⟩

/-- What `VerifyProof` accepts of an honest proof is its miner's root at its number. -/
theorem verifyProof_honest_eq {s a : Address} {n : ℕ} {lHash root : Hash} (hn : 1 ≤ n)
    (h : verifyProof e lHash a (honestProof e txsOf s n) = .ok root) :
    a = s ∧ root = proofRoot e txsOf s n := by
  rw [verifyProof_eq_ok, honestProof_sign hn] at h
  obtain ⟨hsig, -⟩ := h
  cases hsig
  exact ⟨rfl, rfl⟩

end Sphinx.Worker
