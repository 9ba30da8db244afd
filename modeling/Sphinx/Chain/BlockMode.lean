import Sphinx.Chain.Index

/-! # Block mode

A run of `WriteBlockAndState` calls alone keeps the chain index linked: a block becomes
the head only when its parent is the head block, so it lands one number above the head,
where the canonical index has no entry. A block that beats the head but does not extend
it is refused after its total difficulty was written; so is any block whose state commit
failed. Neither stores a header. The head header and the head block stay the same.
-/

namespace Sphinx.Chain

open ChainDb

variable {hashOf : Header → Hash}

variable (hashOf) in
/-- What a block passed to `WriteBlockAndState` satisfies. -/
structure ValidBlock (block : Header) : Prop where
  room : block.number + 1 < 2 ^ 64
  ne_zero : hashOf block ≠ zeroHash

variable (hashOf) in
/-- The invariant of a run in block mode that wrote the blocks `bs`. -/
structure BlockInv (g : Header) (tdg : ℕ) (bs : List Header) (bc : BlockChain) : Prop
    extends IndexInv hashOf g tdg bs bc.hc where
  head : bc.hc.currentHeader = bc.currentBlock

/-- What `WriteBlockAndState` did: nothing, or after reading the parent's and the head's
total difficulties, wrote the block's total difficulty only, made it the head block, or
stored it on a side chain. -/
theorem writeBlockAndState_eq {commitOk : Bool} {block : Header} {bc bc' : BlockChain}
    {r : Except Error WriteStatus} (h : bc.writeBlockAndState hashOf commitOk block = (r, bc')) :
    bc' = bc ∨ ∃ ptd localTd,
      bc.hc.chainDb.getTd block.parentHash (decUint64 block.number) = some ptd ∧
      bc.hc.chainDb.getTd (hashOf bc.currentBlock) bc.currentBlock.number = some localTd ∧
      let db := bc.hc.chainDb.writeTd (hashOf block) block.number (block.difficulty + ptd)
      let cond := localTd < block.difficulty + ptd ∨ (block.difficulty + ptd = localTd ∧
        BigEndian.ofBytes bc.currentBlock.coinbase.bytes < BigEndian.ofBytes block.coinbase.bytes)
      (bc' = { bc with hc := { bc.hc with chainDb := db } }) ∨
      (cond ∧ block.parentHash = hashOf bc.currentBlock ∧
        bc' = BlockChain.insert hashOf block
          { bc with hc := { bc.hc with chainDb := db.writeHeader hashOf block } }) ∨
      (¬ cond ∧ bc' = { bc with hc := { bc.hc with chainDb := db.writeHeader hashOf block } }) := by
  unfold BlockChain.writeBlockAndState at h
  rcases hp : bc.hc.chainDb.getTd block.parentHash (decUint64 block.number) with _ | ptd <;>
    simp only [hp] at h
  · exact Or.inl (Prod.mk.inj h).2.symm
  rcases hl : bc.hc.chainDb.getTd (hashOf bc.currentBlock) bc.currentBlock.number with _ | localTd <;>
    simp only [hl] at h
  · exact Or.inl (Prod.mk.inj h).2.symm
  refine Or.inr ⟨ptd, localTd, rfl, rfl, ?_⟩
  dsimp only at h ⊢
  split_ifs at h with hc hcond hpar
  · exact Or.inl (Prod.mk.inj h).2.symm
  · exact Or.inl (Prod.mk.inj h).2.symm
  · exact Or.inr (Or.inl ⟨hcond, not_not.mp hpar, (Prod.mk.inj h).2.symm⟩)
  · exact Or.inr (Or.inr ⟨hcond, (Prod.mk.inj h).2.symm⟩)

section Step

variable {g : Header} {tdg : ℕ} {bs : List Header} {bc : BlockChain} {b : Header}
  {ptd localTd : ℕ}

/-- A block that beats the head and extends the head block becomes the head, one number
above it. -/
theorem BlockInv.insert (h : BlockInv hashOf g tdg bs bc) (hg : g.number = 0)
    (hinj : Set.InjOn hashOf {x | x = g ∨ x ∈ b :: bs}) (hv : ValidBlock hashOf b)
    (hp : bc.hc.chainDb.getTd b.parentHash (decUint64 b.number) = some ptd)
    (hl : bc.hc.chainDb.getTd (hashOf bc.currentBlock) bc.currentBlock.number = some localTd)
    (hge : localTd ≤ b.difficulty + ptd) (hpar : b.parentHash = hashOf bc.currentBlock) :
    BlockInv hashOf g tdg (b :: bs) (BlockChain.insert hashOf b
      { bc with
        hc := { bc.hc with
          chainDb :=
            (bc.hc.chainDb.writeTd (hashOf b) b.number (b.difficulty + ptd)).writeHeader hashOf b } }) := by
  rw [← h.head] at hl hpar
  obtain ⟨hs₂, hhd, htd, hnew, hnewTd⟩ := h.store_step hinj hv.room hv.ne_zero hp
  have hcur := (h.store.stored _ _ _ h.headStored).1
  have hk := h.store.number_of_getTd (hinj.mono fun x hx => hx.imp_right (List.mem_cons_of_mem _))
    hg hcur (by rw [← hpar]; exact hp)
  have hpos := h.store.pos_of_getTd_dec b.number_lt hp
  rw [decUint64_of_pos hpos b.number_lt] at hk
  have hnone : bc.hc.chainDb.canonical b.number = none := h.aboveNone _ (by omega)
  have hup : (((bc.hc.chainDb.writeTd (hashOf b) b.number (b.difficulty + ptd)).writeHeader hashOf b).getCanonicalHash b.number ≠ hashOf b) := by
    simp [getCanonicalHash, hnone, Ne.symm hv.ne_zero]
  unfold BlockChain.insert
  rw [if_pos hup]
  refine ⟨⟨hs₂.of_eq rfl rfl, h.genesis, ?_, ?_, by simp, by simp, ?_, ⟨_, hnewTd, ?_⟩⟩, rfl⟩
  · have hlink : LinkedBelow ((((bc.hc.chainDb.writeTd (hashOf b) b.number
        (b.difficulty + ptd)).writeHeader hashOf b)).writeCanonicalHash (hashOf b) b.number)
        (hashOf g) (b.number - 1) :=
      (h.linked.mono (by omega)).of_agree (fun y k hd hy => by simpa using hhd y k hd hy)
        (fun k hk' => by simp [show k ≠ b.number by omega])
    have hx₁ : ((((bc.hc.chainDb.writeTd (hashOf b) b.number
        (b.difficulty + ptd)).writeHeader hashOf b)).writeCanonicalHash (hashOf b) b.number).getHeader
          (hashOf b) b.number = some b := by simp
    have hpar₁ : ((((bc.hc.chainDb.writeTd (hashOf b) b.number
        (b.difficulty + ptd)).writeHeader hashOf b)).writeCanonicalHash (hashOf b) b.number).canonical
          (b.number - 1) = some b.parentHash := by
      rw [writeCanonicalHash_canonical, if_neg (by omega), hk, hpar]
      exact h.headCanon
    exact hlink.extend hpos hx₁ (by simp) hpar₁
  · simp [show (0 : ℕ) ≠ b.number by omega, h.canon0]
  · intro k hk'
    dsimp only at hk'
    simp [show k ≠ b.number by omega, h.aboveNone k (by omega)]
  · intro x n hd td hx htdx
    exact h.bound_step hl hge le_rfl htd hnew hnewTd x n hd td hx htdx

/-- One `WriteBlockAndState` call of a valid block keeps the invariant, whatever it returns. -/
theorem BlockInv.writeBlockAndState {commitOk : Bool} {r : Except Error WriteStatus}
    {bc' : BlockChain} (h : BlockInv hashOf g tdg bs bc) (hg : g.number = 0)
    (hinj : Set.InjOn hashOf {x | x = g ∨ x ∈ b :: bs}) (hv : ValidBlock hashOf b)
    (hw : bc.writeBlockAndState hashOf commitOk b = (r, bc')) :
    BlockInv hashOf g tdg (b :: bs) bc' := by
  rcases writeBlockAndState_eq hw with rfl | ⟨ptd, localTd, hp, hl, hcase⟩
  · exact ⟨h.toIndexInv.mono (List.subset_cons_self _ _), h.head⟩
  rcases hcase with rfl | ⟨hcond, hpar, rfl⟩ | ⟨hcond, rfl⟩
  · exact ⟨h.toIndexInv.tdOnly hinj hv.room hp, h.head⟩
  · exact h.insert hg hinj hv hp hl (by omega) hpar
  · refine ⟨h.toIndexInv.side hinj hv.room hv.ne_zero hp (by rw [h.head]; exact hl) (by omega), ?_⟩
    exact h.head

end Step

theorem BlockInv.init {g : Header} {tdg : ℕ} (hg : g.number = 0) (hgz : hashOf g ≠ zeroHash) :
    BlockInv hashOf g tdg [] ⟨genesisChain hashOf g tdg, g⟩ :=
  ⟨IndexInv.init hg hgz, rfl⟩

variable (hashOf) in
/-- The block chains a run of `WriteBlockAndState` calls of valid blocks reaches from the
genesis commit, with the blocks it was given, latest first. -/
inductive BlockRun (g : Header) (tdg : ℕ) : List Header → BlockChain → Prop
  | genesis : BlockRun g tdg [] ⟨genesisChain hashOf g tdg, g⟩
  | writeBlockAndState {bs : List Header} {bc bc' : BlockChain} {block : Header} {commitOk : Bool}
      {r : Except Error WriteStatus} : BlockRun g tdg bs bc → ValidBlock hashOf block →
      bc.writeBlockAndState hashOf commitOk block = (r, bc') → BlockRun g tdg (block :: bs) bc'

theorem BlockRun.blockInv {g : Header} {tdg : ℕ} {bs : List Header} {bc : BlockChain}
    (hg : g.number = 0) (hgz : hashOf g ≠ zeroHash) (hr : BlockRun hashOf g tdg bs bc)
    (hinj : Set.InjOn hashOf {x | x = g ∨ x ∈ bs}) : BlockInv hashOf g tdg bs bc := by
  induction hr with
  | genesis => exact BlockInv.init hg hgz
  | writeBlockAndState _ hv hw ih =>
    exact (ih (hinj.mono fun x hx => hx.imp_right (List.mem_cons_of_mem _))).writeBlockAndState
      hg hinj hv hw

end Sphinx.Chain
