import Sphinx.Chain.Store

/-! # The invariant of the chain index

Both ways of extending the chain keep the same picture: the stored headers and total
difficulties of `StoreInv`, a canonical index linked from the head down to the genesis
header with nothing above the head, and a head whose total difficulty bounds every
stored header's. This picture gives `ChainInv`. Storing a header that does
not become the head, or only its total difficulty, keeps it.
-/

namespace Sphinx.Chain

open ChainDb

variable {hashOf : Header → Hash}

variable (hashOf) in
/-- The invariant over a run from the genesis header `g` that wrote the headers `hs`. -/
structure IndexInv (g : Header) (tdg : ℕ) (hs : List Header) (hc : HeaderChain) : Prop where
  store : StoreInv hashOf g tdg hs hc.chainDb
  genesis : hc.genesisHeader = g
  linked : LinkedBelow hc.chainDb (hashOf g) hc.currentHeader.number
  canon0 : hc.chainDb.canonical 0 = some (hashOf g)
  headCanon : hc.chainDb.canonical hc.currentHeader.number = some (hashOf hc.currentHeader)
  headStored :
    hc.chainDb.getHeader (hashOf hc.currentHeader) hc.currentHeader.number = some hc.currentHeader
  aboveNone : ∀ k, hc.currentHeader.number < k → hc.chainDb.canonical k = none
  headTd : ∃ tdh, hc.chainDb.getTd (hashOf hc.currentHeader) hc.currentHeader.number = some tdh ∧
    ∀ x n hd td, hc.chainDb.getHeader x n = some hd → hc.chainDb.getTd x n = some td → td ≤ tdh

variable {g : Header} {tdg : ℕ} {hs : List Header} {hc : HeaderChain}

theorem IndexInv.mono (h : IndexInv hashOf g tdg hs hc) {hs' : List Header} (hsub : hs ⊆ hs') :
    IndexInv hashOf g tdg hs' hc :=
  ⟨h.store.mono hsub, h.genesis, h.linked, h.canon0, h.headCanon, h.headStored, h.aboveNone,
    h.headTd⟩

/-- The invariant gives the canonical index linked from the head to genesis, nothing above
the head, a head of maximal total difficulty, and total difficulties that add up. -/
theorem IndexInv.chainInv (h : IndexInv hashOf g tdg hs hc)
    (hinj : Set.InjOn hashOf {x | x = g ∨ x ∈ hs}) : ChainInv hashOf hc := by
  refine ⟨?_, ?_, ?_, ?_, ?_⟩
  · simp [getCanonicalHash, h.canon0, h.genesis]
  · intro k hk0 hk
    obtain ⟨y, hy⟩ := h.linked.present h.headCanon k hk
    obtain ⟨hd, hhd, hpar⟩ := (h.linked k hk y hy).2 hk0
    obtain ⟨hx, hn⟩ := h.store.keyed y k hd hhd
    subst hx
    refine ⟨hd, by simp [getCanonicalHash, hy], hhd, hn, ?_⟩
    simp [getCanonicalHash, hpar]
  · intro k hk
    simp [getCanonicalHash, h.aboveNone k hk]
  · intro x n hd hhd
    obtain ⟨-, -, -, td, htd⟩ := h.store.stored x n hd hhd
    obtain ⟨tdh, hh, hle⟩ := h.headTd
    exact ⟨td, tdh, htd, hh, hle x n hd td hhd htd⟩
  · intro x n hd hhd hn
    obtain ⟨hx, hnum⟩ := h.store.keyed x n hd hhd
    obtain ⟨hmem, -, -, td, htd⟩ := h.store.stored x n hd hhd
    rcases h.store.tds x n td htd with ⟨-, rfl, -⟩ | ⟨hd', hmem', hx', -, -, -, ptd, hp, rfl⟩
    · omega
    · obtain rfl : hd' = hd := hinj (Or.inr hmem') hmem (hx'.trans hx.symm)
      exact ⟨ptd, hp, by rw [htd, Nat.add_comm]⟩

variable (hashOf) in
/-- The header chain right after `Genesis.Commit`. -/
def genesisChain (g : Header) (tdg : ℕ) : HeaderChain :=
  ⟨commitGenesis hashOf g tdg, g, g⟩

theorem canonical_commitGenesis (hg : g.number = 0) (k : ℕ) :
    (commitGenesis hashOf g tdg).canonical k = if k = 0 then some (hashOf g) else none := by
  simp [commitGenesis, ChainDb.empty, hg]

theorem IndexInv.init (hg : g.number = 0) (hgz : hashOf g ≠ zeroHash) :
    IndexInv hashOf g tdg [] (genesisChain hashOf g tdg) := by
  refine ⟨StoreInv.commitGenesis hg hgz, rfl, ?_, by simp [genesisChain, canonical_commitGenesis hg],
    by simp [genesisChain, canonical_commitGenesis hg, hg], by simp [genesisChain, commitGenesis],
    ?_, ⟨tdg, by simp [genesisChain, commitGenesis], ?_⟩⟩
  · intro k hk y hy
    obtain rfl : k = 0 := by simpa [genesisChain, hg] using hk
    simp only [genesisChain, canonical_commitGenesis hg, if_pos] at hy
    cases hy
    exact ⟨fun _ => rfl, fun h0 => absurd h0 (lt_irrefl 0)⟩
  · intro k hk
    simp only [genesisChain, hg] at hk
    simp [genesisChain, canonical_commitGenesis hg, show k ≠ 0 by omega]
  · intro x n hd td _ hx
    simp only [genesisChain, commitGenesis, ChainDb.empty, getTd_writeCanonicalHash,
      getTd_writeHeader, getTd_writeTd] at hx
    split_ifs at hx with hk
    · cases hx
      exact le_rfl
    · cases hx

section Step

variable {b : Header} {ptd : ℕ}

/-- Storing a header of the run with its total difficulty keeps every stored header and
total difficulty; the only new header is `b`. -/
theorem IndexInv.store_step (h : IndexInv hashOf g tdg hs hc)
    (hinj : Set.InjOn hashOf {x | x = g ∨ x ∈ b :: hs}) (hroom : b.number + 1 < 2 ^ 64)
    (hz : hashOf b ≠ zeroHash) (hp : hc.chainDb.getTd b.parentHash (decUint64 b.number) = some ptd) :
    let db := (hc.chainDb.writeTd (hashOf b) b.number (b.difficulty + ptd)).writeHeader hashOf b
    StoreInv hashOf g tdg (b :: hs) db ∧
      (∀ y k hd, hc.chainDb.getHeader y k = some hd → db.getHeader y k = some hd) ∧
      (∀ y k td, hc.chainDb.getTd y k = some td → db.getTd y k = some td) ∧
      (∀ y k hd, db.getHeader y k = some hd →
        (y = hashOf b ∧ k = b.number ∧ hd = b) ∨ hc.chainDb.getHeader y k = some hd) ∧
      db.getTd (hashOf b) b.number = some (b.difficulty + ptd) := by
  intro db
  obtain ⟨hs₁, htd⟩ := (h.store.mono (List.subset_cons_self b hs)).writeTd hinj
    List.mem_cons_self hroom hp
  obtain ⟨hs₂, hhd⟩ := hs₁.writeHeader hinj List.mem_cons_self hz hroom
    ⟨b.difficulty + ptd, by simp⟩
  refine ⟨hs₂, fun y k hd hy => hhd y k hd (by simpa using hy),
    fun y k td hy => by simpa [db] using htd y k td hy, ?_, by simp [db]⟩
  intro y k hd hy
  simp only [db, getHeader_writeHeader, getHeader_writeTd] at hy
  split_ifs at hy with hk
  · cases hy
    exact Or.inl ⟨hk.2, hk.1, rfl⟩
  · exact Or.inr hy

/-- After storing `b`, a bound on the head's and on `b`'s total difficulties bounds every
stored header's. -/
theorem IndexInv.bound_step {db : ChainDb} {localTd B : ℕ} (h : IndexInv hashOf g tdg hs hc)
    (hl : hc.chainDb.getTd (hashOf hc.currentHeader) hc.currentHeader.number = some localTd)
    (hlB : localTd ≤ B) (hbB : b.difficulty + ptd ≤ B)
    (htd : ∀ y k td, hc.chainDb.getTd y k = some td → db.getTd y k = some td)
    (hnew : ∀ y k hd, db.getHeader y k = some hd →
      (y = hashOf b ∧ k = b.number ∧ hd = b) ∨ hc.chainDb.getHeader y k = some hd)
    (hnewTd : db.getTd (hashOf b) b.number = some (b.difficulty + ptd)) :
    ∀ x n hd td, db.getHeader x n = some hd → db.getTd x n = some td → td ≤ B := by
  obtain ⟨tdh, hh, hmax⟩ := h.headTd
  rw [hl] at hh
  cases hh
  intro x n hd td hx htdx
  rcases hnew x n hd hx with ⟨rfl, rfl, rfl⟩ | hold
  · rw [hnewTd] at htdx
    exact Option.some.inj htdx ▸ hbB
  · obtain ⟨-, -, -, td', htd'⟩ := h.store.stored x n hd hold
    rw [htd _ _ _ htd'] at htdx
    exact Option.some.inj htdx ▸ (hmax x n hd td' hold htd').trans hlB

/-- Storing a header whose total difficulty does not beat the head's keeps the invariant. -/
theorem IndexInv.side {localTd : ℕ} (h : IndexInv hashOf g tdg hs hc)
    (hinj : Set.InjOn hashOf {x | x = g ∨ x ∈ b :: hs}) (hroom : b.number + 1 < 2 ^ 64)
    (hz : hashOf b ≠ zeroHash) (hp : hc.chainDb.getTd b.parentHash (decUint64 b.number) = some ptd)
    (hl : hc.chainDb.getTd (hashOf hc.currentHeader) hc.currentHeader.number = some localTd)
    (hle : b.difficulty + ptd ≤ localTd) :
    IndexInv hashOf g tdg (b :: hs)
      { hc with
        chainDb :=
          (hc.chainDb.writeTd (hashOf b) b.number (b.difficulty + ptd)).writeHeader hashOf b } := by
  obtain ⟨hs₂, hhd, htd, hnew, hnewTd⟩ := h.store_step hinj hroom hz hp
  exact ⟨hs₂, h.genesis, h.linked.of_agree hhd (fun _ _ => rfl), h.canon0, h.headCanon,
    hhd _ _ _ h.headStored, h.aboveNone,
    ⟨localTd, htd _ _ _ hl, h.bound_step hl le_rfl hle htd hnew hnewTd⟩⟩

/-- Writing only the total difficulty of a header of the run keeps the invariant. -/
theorem IndexInv.tdOnly (h : IndexInv hashOf g tdg hs hc)
    (hinj : Set.InjOn hashOf {x | x = g ∨ x ∈ b :: hs}) (hroom : b.number + 1 < 2 ^ 64)
    (hp : hc.chainDb.getTd b.parentHash (decUint64 b.number) = some ptd) :
    IndexInv hashOf g tdg (b :: hs)
      { hc with chainDb := hc.chainDb.writeTd (hashOf b) b.number (b.difficulty + ptd) } := by
  obtain ⟨hs₁, htd⟩ := (h.store.mono (List.subset_cons_self b hs)).writeTd hinj
    List.mem_cons_self hroom hp
  obtain ⟨tdh, hh, hmax⟩ := h.headTd
  refine ⟨hs₁, h.genesis, h.linked, h.canon0, h.headCanon, h.headStored, h.aboveNone,
    ⟨tdh, htd _ _ _ hh, ?_⟩⟩
  intro x n hd td hx htdx
  obtain ⟨-, -, -, td', htd'⟩ := h.store.stored x n hd hx
  rw [htd _ _ _ htd'] at htdx
  exact Option.some.inj htdx ▸ hmax x n hd td' hx htd'

end Step

end Sphinx.Chain
