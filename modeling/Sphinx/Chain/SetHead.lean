import Sphinx.Chain.Index

/-! # Rewinding the head

`SetHead(head)` walks from the head header down its parents while they are above `head`,
deleting each with its total difficulty, and then deletes the canonical entries from the old
height down to `head + 1`. On a chain whose canonical index is linked from the head to the
genesis header, the walk follows the canonical chain one number at a time, so it stops at the
canonical header at `head`, or at the old head when that is not above `head`. The canonical
index up to the new head, the headers it names, and the empty entries above it survive
(`LinkedIndex`).

The headers the walk deletes may have children on side chains, which stay stored with their
total difficulties: their parent's total difficulty is gone, and their own may exceed the new
head's. So the bound on the head and the sums of total difficulties are not kept.
-/

namespace Sphinx.Chain

open ChainDb

variable (hashOf : Header → Hash)

/-- The part of `ChainInv` about the canonical index: it starts at the genesis hash, is linked
from the head down, and is empty above the head. -/
structure LinkedIndex (hc : HeaderChain) : Prop where
  genesis : hc.chainDb.getCanonicalHash 0 = hashOf hc.genesisHeader
  linked : ∀ k, 0 < k → k ≤ hc.currentHeader.number → ∃ hd,
    hc.chainDb.getCanonicalHash k = hashOf hd ∧ hc.chainDb.getHeader (hashOf hd) k = some hd ∧
      hd.number = k ∧ hd.parentHash = hc.chainDb.getCanonicalHash (k - 1)
  above : ∀ k, hc.currentHeader.number < k → hc.chainDb.getCanonicalHash k = zeroHash

variable {hashOf}

section Simp

variable (db : ChainDb) (x y : Hash) (n k : ℕ)

@[simp] theorem getHeader_deleteHeader :
    (db.deleteHeader x n).getHeader y k = if k = n ∧ y = x then none else db.getHeader y k := rfl

@[simp] theorem canonical_deleteHeader : (db.deleteHeader x n).canonical = db.canonical := rfl

@[simp] theorem getHeader_deleteTd : (db.deleteTd x n).getHeader y k = db.getHeader y k := rfl

@[simp] theorem canonical_deleteTd : (db.deleteTd x n).canonical = db.canonical := rfl

@[simp] theorem getHeader_deleteCanonicalDown (head i : ℕ) :
    (db.deleteCanonicalDown head i).getHeader y k = db.getHeader y k := by
  induction i generalizing db with
  | zero => rfl
  | succ i ih =>
    unfold deleteCanonicalDown
    split_ifs
    · rw [ih]
      rfl
    · rfl

theorem getHeader_deleteHeader_deleteTd_of_lt (hk : k < n) :
    ((db.deleteHeader x n).deleteTd x n).getHeader y k = db.getHeader y k := by
  simp only [getHeader_deleteTd, getHeader_deleteHeader]
  rw [if_neg (fun h => absurd h.1 (Nat.ne_of_lt hk))]

@[simp] theorem unwindHeaders_none (head fuel : ℕ) :
    db.unwindHeaders hashOf head fuel none = (db, none) := by
  cases fuel <;> rfl

end Simp

theorem canonical_deleteCanonicalDown (head : ℕ) :
    ∀ (i : ℕ) (db : ChainDb) (k : ℕ), (db.deleteCanonicalDown head i).canonical k =
      if head < k ∧ k ≤ i then none else db.canonical k
  | 0, db, k => by
    simp only [deleteCanonicalDown]
    split_ifs with hk
    · omega
    · rfl
  | i + 1, db, k => by
    unfold deleteCanonicalDown
    split_ifs with hi hk hk
    · rw [canonical_deleteCanonicalDown head i]
      split_ifs with hk'
      · rfl
      · simp only [deleteCanonicalHash_canonical]
        rw [if_pos (by omega)]
    · rw [canonical_deleteCanonicalDown head i]
      split_ifs with hk'
      · omega
      · simp only [deleteCanonicalHash_canonical]
        rw [if_neg (by omega)]
    · omega
    · rfl

/-- The walk of `SetHead` from a canonical header `c` of a chain linked below `n`: it deletes
only headers above `head`, leaves the canonical index alone, and stops at the canonical header
at `head` or at `c`, whichever is lower. It ends with no header only after deleting the header
at one, so then `head` is zero. -/
theorem unwindHeaders_spec {db : ChainDb} {g : Hash} {n : ℕ} (head : ℕ) (hk : Keyed hashOf db)
    (hl : LinkedBelow db g n) :
    ∀ (fuel : ℕ) (db₀ : ChainDb) (c : Header), db₀.canonical = db.canonical →
      (∀ y k, k ≤ c.number → db₀.getHeader y k = db.getHeader y k) → c.number ≤ n →
      db.canonical c.number = some (hashOf c) → db.getHeader (hashOf c) c.number = some c →
      c.number < fuel →
      (db₀.unwindHeaders hashOf head fuel (some c)).1.canonical = db.canonical ∧
      (∀ y k, k ≤ head → k ≤ c.number →
        (db₀.unwindHeaders hashOf head fuel (some c)).1.getHeader y k = db.getHeader y k) ∧
      ((db₀.unwindHeaders hashOf head fuel (some c)).2 = none ∧ head = 0 ∨
        ∃ c', (db₀.unwindHeaders hashOf head fuel (some c)).2 = some c' ∧
          c'.number = min head c.number ∧ db.canonical c'.number = some (hashOf c'))
  | 0, _, _, _, _, _, _, _, hf => absurd hf (Nat.not_lt_zero _)
  | fuel + 1, db₀, c, hcan, hagree, hn, hcc, hcs, hf => by
    unfold unwindHeaders
    split_ifs with hhead
    · set db₁ := (db₀.deleteHeader (hashOf c) c.number).deleteTd (hashOf c) c.number
      have hpos : 0 < c.number := by omega
      have hdec : decUint64 c.number = c.number - 1 :=
        decUint64_of_pos hpos (by have := c.number_lt; omega)
      have hagree₁ : ∀ y k, k < c.number → db₁.getHeader y k = db.getHeader y k :=
        fun y k hkc => (getHeader_deleteHeader_deleteTd_of_lt _ _ _ _ _ hkc).trans (hagree y k hkc.le)
      have hcan₁ : db₁.canonical = db.canonical := by simp [db₁, hcan]
      obtain ⟨hd, hhd, hpar⟩ := (hl c.number hn (hashOf c) hcc).2 hpos
      have hdc : hd = c := Option.some.inj (hhd.symm.trans hcs)
      rw [hdc] at hpar
      dsimp only
      rw [hdec, hagree₁ _ _ (by omega)]
      cases hp : db.getHeader c.parentHash (c.number - 1) with
      | none =>
        have h1 : c.number = 1 := by
          by_contra hne
          obtain ⟨p, hp', -⟩ := (hl (c.number - 1) (by omega) c.parentHash hpar).2 (by omega)
          rw [hp] at hp'
          cases hp'
        rw [unwindHeaders_none]
        exact ⟨hcan₁, fun y k hkh _ => hagree₁ y k (by omega), .inl ⟨rfl, by omega⟩⟩
      | some p =>
        obtain ⟨hpx, hpn⟩ := hk _ _ _ hp
        have ih := unwindHeaders_spec head hk hl fuel db₁ p hcan₁
          (fun y k hkp => hagree₁ y k (by omega)) (by omega) (by rw [hpn, hpx]; exact hpar)
          (by rw [hpn, hpx]; exact hp) (by omega)
        obtain ⟨ih₁, ih₂, ih₃⟩ := ih
        refine ⟨ih₁, fun y k hkh _ => ih₂ y k hkh (by omega), ?_⟩
        rcases ih₃ with h | ⟨c', hc', hnum, hcan'⟩
        · exact .inl h
        · exact .inr ⟨c', hc', by omega, hcan'⟩
    · exact ⟨hcan, fun y k _ hkc => hagree y k hkc, .inr ⟨c, rfl, by omega, hcc⟩⟩

variable {g : Header} {tdg : ℕ} {hs : List Header} {hc : HeaderChain}

/-- `SetHead` keeps the canonical index linked from the new head to the genesis header and
empty above it. -/
theorem LinkedIndex.setHead (h : IndexInv hashOf g tdg hs hc) (hci : ChainInv hashOf hc)
    (hg : g.number = 0) (head : ℕ) : LinkedIndex hashOf (hc.setHead hashOf head) := by
  set r := hc.chainDb.unwindHeaders hashOf head (2 ^ 64) (some hc.currentHeader) with hr
  have hset : hc.setHead hashOf head = { hc with
      chainDb := r.1.deleteCanonicalDown head hc.currentHeader.number
      currentHeader := r.2.getD hc.genesisHeader } := rfl
  obtain ⟨hcan, hagree, hcur⟩ := unwindHeaders_spec head h.store.keyed h.linked (2 ^ 64)
    hc.chainDb hc.currentHeader rfl (fun _ _ _ => rfl) le_rfl h.headCanon h.headStored
    hc.currentHeader.number_lt
  rw [← hr] at hcan hagree hcur
  have hdown : ∀ k, (r.1.deleteCanonicalDown head hc.currentHeader.number).getCanonicalHash k =
      if head < k ∧ k ≤ hc.currentHeader.number then zeroHash else hc.chainDb.getCanonicalHash k := by
    intro k
    simp only [getCanonicalHash, canonical_deleteCanonicalDown, hcan]
    split_ifs <;> rfl
  have hnum : (r.2.getD hc.genesisHeader).number = min head hc.currentHeader.number ∨
      (r.2.getD hc.genesisHeader).number = 0 ∧ head = 0 := by
    rcases hcur with ⟨hnone, h0⟩ | ⟨c', hc', hn, -⟩
    · rw [hnone, Option.getD_none, h.genesis, hg]
      exact .inr ⟨rfl, h0⟩
    · rw [hc', Option.getD_some]
      exact .inl hn
  rw [hset]
  refine ⟨?_, ?_, ?_⟩
  · dsimp only
    rw [hdown, if_neg (by omega), h.genesis]
    simp [getCanonicalHash, h.canon0]
  · intro k hk0 hk
    dsimp only at hk ⊢
    obtain ⟨hd, hhd, hst, hnum', hpar⟩ := hci.linked k hk0 (by omega)
    refine ⟨hd, ?_, ?_, hnum', ?_⟩
    · rw [hdown, if_neg (by omega)]
      exact hhd
    · rw [getHeader_deleteCanonicalDown, hagree _ _ (by omega) (by omega)]
      exact hst
    · rw [hdown, if_neg (by omega)]
      exact hpar
  · intro k hk
    dsimp only at hk ⊢
    rw [hdown]
    split_ifs with hdel
    · rfl
    · exact hci.above k (by omega)

end Sphinx.Chain
