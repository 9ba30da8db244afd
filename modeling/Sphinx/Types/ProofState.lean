import Sphinx.Merkle.Tree

/-! # Proof states

A `ProofState` records, for the miner at `Addr`, the number and the hash chain root of
its latest work proof. As Merkle content it is its root.
-/

namespace Sphinx

structure ProofState where
  addr : Address
  root : Hash
  num : ℕ
  deriving DecidableEq

instance : Merkle.Content ProofState where
  calculateHash p := p.root.bytes

theorem ProofState.calculateHash_eq (p : ProofState) :
    Merkle.Content.calculateHash p = p.root.bytes := rfl

end Sphinx
