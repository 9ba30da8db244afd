import Sphinx.Chain.Index

/-! # Header mode

A run of `WriteHeader` calls alone, from the chain `Genesis.Commit` leaves, keeps the
canonical index linked: each call that makes its header the head first deletes the
entries above it, then the rewriting loop relinks every entry below it, and its total
difficulty is at least the old head's, which bounds every other. A call that does not
make its header the head changes no canonical entry. The callers of `WriteHeader`
promise that the parent is stored one number below; the run's headers have distinct
hashes, none of them the zero hash, and numbers that leave room for a child.
-/

namespace Sphinx.Chain

open ChainDb

variable {hashOf : Header → Hash}

variable (hashOf) in
/-- What a header passed to `WriteHeader` satisfies. -/
structure ValidHeader (db : ChainDb) (header : Header) : Prop where
  pos : 0 < header.number
  parent : ∃ p, db.getHeader header.parentHash (header.number - 1) = some p
  room : header.number + 1 < 2 ^ 64
  ne_zero : hashOf header ≠ zeroHash

variable (hashOf) in
/-- The invariant of a run in header mode: the index invariant, and every stored header's
parent stored, which the rewriting loop walks. -/
structure HeaderInv (g : Header) (tdg : ℕ) (hs : List Header) (hc : HeaderChain) : Prop
    extends IndexInv hashOf g tdg hs hc where
  closed : Closed hc.chainDb (hashOf g)

/-- What a successful `WriteHeader` did: read the parent's and the head's total
difficulties, stored the header, and either made it the head through the two loops or
left the canonical index alone. -/
theorem writeHeader_eq_ok {coin : Bool} {header : Header} {hc hc' : HeaderChain}
    {st : WriteStatus} (h : hc.writeHeader hashOf coin header = .ok (st, hc')) :
    ∃ ptd localTd, hc.chainDb.getTd header.parentHash (decUint64 header.number) = some ptd ∧
      hc.chainDb.getTd (hashOf hc.currentHeader) hc.currentHeader.number = some localTd ∧
      let db := (hc.chainDb.writeTd (hashOf header) header.number
        (header.difficulty + ptd)).writeHeader hashOf header
      let db₂ := db.deleteCanonicalFrom (2 ^ 64) (incUint64 header.number)
      ((localTd < header.difficulty + ptd ∨ (header.difficulty + ptd = localTd ∧ coin = true)) ∧
        ∃ db₃, db₂.rewriteCanonical hashOf (2 ^ 64) header.parentHash (decUint64 header.number)
            (db₂.getHeader header.parentHash (decUint64 header.number)) = .ok db₃ ∧
          hc' = { hc with
            chainDb := db₃.writeCanonicalHash (hashOf header) header.number
            currentHeader := header }) ∨
      (¬ (localTd < header.difficulty + ptd ∨ (header.difficulty + ptd = localTd ∧ coin = true)) ∧
        hc' = { hc with chainDb := db }) := by
  unfold HeaderChain.writeHeader at h
  rcases hp : hc.chainDb.getTd header.parentHash (decUint64 header.number) with _ | ptd <;>
    simp only [hp] at h
  · cases h
  rcases hl : hc.chainDb.getTd (hashOf hc.currentHeader) hc.currentHeader.number with _ | localTd <;>
    simp only [hl] at h
  · cases h
  refine ⟨ptd, localTd, rfl, rfl, ?_⟩
  dsimp only at h ⊢
  split_ifs at h with hcond
  · refine Or.inl ⟨hcond, ?_⟩
    split at h
    · cases h
    · rename_i db₃ hdb₃
      simp only [Except.ok.injEq, Prod.mk.injEq] at h
      exact ⟨db₃, hdb₃, h.2.symm⟩
  · simp only [Except.ok.injEq, Prod.mk.injEq] at h
    exact Or.inr ⟨hcond, h.2.symm⟩

section Step

variable {g : Header} {tdg : ℕ} {hs : List Header} {hc : HeaderChain} {header : Header}
  {ptd : ℕ}

/-- Storing a valid header keeps every stored header's parent stored. -/
theorem Closed.store {db : ChainDb} (hcl : Closed hc.chainDb (hashOf g))
    (hv : ValidHeader hashOf hc.chainDb header)
    (hhd : ∀ y k hd, hc.chainDb.getHeader y k = some hd → db.getHeader y k = some hd)
    (hnew : ∀ y k hd, db.getHeader y k = some hd →
      (y = hashOf header ∧ k = header.number ∧ hd = header) ∨ hc.chainDb.getHeader y k = some hd) :
    Closed db (hashOf g) := by
  intro x n hd hx
  rcases hnew x n hd hx with ⟨-, rfl, rfl⟩ | hold
  · obtain ⟨p, hpar⟩ := hv.parent
    exact ⟨fun hn => absurd hn (Nat.pos_iff_ne_zero.mp hv.pos), fun _ => ⟨p, hhd _ _ _ hpar⟩⟩
  · obtain ⟨h0, hpar⟩ := hcl x n hd hold
    refine ⟨h0, fun hn => ?_⟩
    obtain ⟨p, hp⟩ := hpar hn
    exact ⟨p, hhd _ _ _ hp⟩

/-- A header that does not beat the head is stored and changes no canonical entry. -/
theorem HeaderInv.side {localTd : ℕ} (h : HeaderInv hashOf g tdg hs hc)
    (hinj : Set.InjOn hashOf {x | x = g ∨ x ∈ header :: hs}) (hv : ValidHeader hashOf hc.chainDb header)
    (hp : hc.chainDb.getTd header.parentHash (decUint64 header.number) = some ptd)
    (hl : hc.chainDb.getTd (hashOf hc.currentHeader) hc.currentHeader.number = some localTd)
    (hle : header.difficulty + ptd ≤ localTd) :
    HeaderInv hashOf g tdg (header :: hs)
      { hc with
        chainDb := (hc.chainDb.writeTd (hashOf header) header.number
          (header.difficulty + ptd)).writeHeader hashOf header } := by
  obtain ⟨-, hhd, -, hnew, -⟩ := h.store_step hinj hv.room hv.ne_zero hp
  exact ⟨h.toIndexInv.side hinj hv.room hv.ne_zero hp hl hle, h.closed.store hv hhd hnew⟩

/-- The two loops run on the stored header's database: the deleting loop clears the
entries above the header and the rewriting loop succeeds, leaving the entries up to its
parent linked. -/
theorem HeaderInv.relink {db : ChainDb} (h : HeaderInv hashOf g tdg hs hc)
    (hv : ValidHeader hashOf hc.chainDb header) (hs₂ : StoreInv hashOf g tdg (header :: hs) db)
    (hcl : Closed db (hashOf g))
    (hhd : ∀ y k hd, hc.chainDb.getHeader y k = some hd → db.getHeader y k = some hd)
    (hcan : db.canonical = hc.chainDb.canonical) :
    let db₂ := deleteCanonicalFrom (2 ^ 64) (incUint64 header.number) db
    ∃ db₃, rewriteCanonical hashOf (2 ^ 64) db₂ header.parentHash (decUint64 header.number)
        (db₂.getHeader header.parentHash (decUint64 header.number)) = .ok db₃ ∧
      db₃.canonical (header.number - 1) = some header.parentHash ∧
      LinkedBelow db₃ (hashOf g) (header.number - 1) ∧
      (∀ k, header.number < k → db₃.canonical k = none) ∧
      db₃.getHeader = db.getHeader ∧ db₃.getTd = db.getTd := by
  intro db₂
  have hpos := hv.pos
  have hroom := hv.room
  have hm : hc.currentHeader.number + 1 < 2 ^ 64 := (h.store.stored _ _ _ h.headStored).2.2.1
  have hpres : ∀ k, header.number + 1 ≤ k → k ≤ hc.currentHeader.number →
      db.getCanonicalHash k ≠ zeroHash := by
    intro k hk hkm
    obtain ⟨y, hy⟩ := h.linked.present h.headCanon k hkm
    obtain ⟨hd, hhd', -⟩ := (h.linked k hkm y hy).2 (by omega)
    simpa [getCanonicalHash, hcan, hy] using (h.store.stored y k hd hhd').2.1
  have hdel : ∀ k, db₂.canonical k =
      if header.number + 1 ≤ k then none else hc.chainDb.canonical k := by
    intro k
    rw [← hcan]
    simp only [db₂, incUint64_of_lt hroom]
    exact deleteCanonicalFrom_canonical hm _ _ db (by omega) hpres (by rw [hcan]; exact h.aboveNone) k
  have hget₂ : db₂.getHeader = db.getHeader := by
    funext y k
    simp only [db₂, getHeader_deleteCanonicalFrom]
  obtain ⟨p, hpar⟩ := hv.parent
  have hpar₂ : db₂.getHeader header.parentHash (header.number - 1) = some p := by
    rw [hget₂]
    exact hhd _ _ _ hpar
  have hlink₂ : LinkedBelow db₂ (hashOf g) (header.number - 1) :=
    (h.linked.of_above h.aboveNone).of_agree (fun y k hd hy => by rw [hget₂]; exact hhd y k hd hy)
      (fun k hk => by rw [hdel k, if_neg (by omega)])
  have hkey₂ : Keyed hashOf db₂ := fun x k hd hx => hs₂.keyed x k hd (by rwa [hget₂] at hx)
  have hcl₂ : Closed db₂ (hashOf g) := by
    intro x k hd hx
    rw [hget₂] at hx ⊢
    exact hcl x k hd hx
  obtain ⟨db₃, hrun, hj, hlink₃, habove₃, hh₃, ht₃⟩ := rewriteCanonical_spec (header.number - 1)
    (2 ^ 64) db₂ header.parentHash p hkey₂ hcl₂
    (fun y k hd hy => (hs₂.stored y k hd (by rwa [hget₂] at hy)).2.1)
    (by rw [hdel 0, if_neg (by omega)]; exact h.canon0) (by omega) (by omega) hpar₂ hlink₂
  refine ⟨db₃, ?_, hj, hlink₃, fun k hk => ?_, ?_, ?_⟩
  · rw [decUint64_of_pos hpos header.number_lt, hpar₂]
    exact hrun
  · rw [habove₃ k (by omega), hdel k, if_pos (by omega)]
  · funext y k
    rw [← hget₂]
    simp only [getHeader, hh₃]
  · funext y k
    simp only [getTd, ht₃, db₂, deleteCanonicalFrom_tds]

/-- A header that beats the head becomes the head, with the entries above it deleted and
the entries below it relinked. -/
theorem HeaderInv.canon {localTd : ℕ} {db₃ : ChainDb} (h : HeaderInv hashOf g tdg hs hc)
    (hinj : Set.InjOn hashOf {x | x = g ∨ x ∈ header :: hs}) (hv : ValidHeader hashOf hc.chainDb header)
    (hp : hc.chainDb.getTd header.parentHash (decUint64 header.number) = some ptd)
    (hl : hc.chainDb.getTd (hashOf hc.currentHeader) hc.currentHeader.number = some localTd)
    (hge : localTd ≤ header.difficulty + ptd)
    (hrun : rewriteCanonical hashOf (2 ^ 64)
      (deleteCanonicalFrom (2 ^ 64) (incUint64 header.number)
        ((hc.chainDb.writeTd (hashOf header) header.number
          (header.difficulty + ptd)).writeHeader hashOf header))
      header.parentHash (decUint64 header.number)
      ((deleteCanonicalFrom (2 ^ 64) (incUint64 header.number)
        ((hc.chainDb.writeTd (hashOf header) header.number
          (header.difficulty + ptd)).writeHeader hashOf header)).getHeader header.parentHash
            (decUint64 header.number)) = .ok db₃) :
    HeaderInv hashOf g tdg (header :: hs)
      { hc with
        chainDb := db₃.writeCanonicalHash (hashOf header) header.number
        currentHeader := header } := by
  obtain ⟨hs₂, hhd, htd, hnew, hnewTd⟩ := h.store_step hinj hv.room hv.ne_zero hp
  have hcl := h.closed.store hv hhd hnew
  have hpos := hv.pos
  generalize hdb : (hc.chainDb.writeTd (hashOf header) header.number
    (header.difficulty + ptd)).writeHeader hashOf header = db at hs₂ hcl hhd htd hnew hnewTd hrun
  obtain ⟨db₃', hrun', hj, hlink₃, habove₃, hget₃, htd₃⟩ :=
    h.relink hv hs₂ hcl hhd (by rw [← hdb]; rfl)
  rw [hrun'] at hrun
  cases hrun
  have hget₄ : (db₃.writeCanonicalHash (hashOf header) header.number).getHeader = db.getHeader := by
    funext y k
    rw [getHeader_writeCanonicalHash, hget₃]
  have htd₄ : (db₃.writeCanonicalHash (hashOf header) header.number).getTd = db.getTd := by
    funext y k
    rw [getTd_writeCanonicalHash, htd₃]
  have hstored : db.getHeader (hashOf header) header.number = some header := by
    simp [← hdb]
  refine ⟨⟨hs₂.of_eq ?_ ?_, h.genesis, ?_, ?_, by simp, by rw [hget₄]; exact hstored, ?_,
    ⟨_, by rw [htd₄]; exact hnewTd, ?_⟩⟩, ?_⟩
  · funext k y
    simpa only [getHeader] using congrFun (congrFun hget₄ y) k
  · funext k y
    simpa only [getTd] using congrFun (congrFun htd₄ y) k
  · have hlink₄ : LinkedBelow (db₃.writeCanonicalHash (hashOf header) header.number) (hashOf g)
        (header.number - 1) :=
      hlink₃.of_agree (fun y k hd hy => hy) (fun k hk => by simp [show k ≠ header.number by omega])
    have hpar₁ : (db₃.writeCanonicalHash (hashOf header) header.number).canonical
        (header.number - 1) = some header.parentHash := by
      simp [show header.number - 1 ≠ header.number by omega, hj]
    exact hlink₄.extend hpos (by rw [hget₄]; exact hstored) (by simp) hpar₁
  · obtain ⟨z, hz⟩ := hlink₃.present hj 0 (Nat.zero_le _)
    have hzg := (hlink₃ 0 (Nat.zero_le _) z hz).1 rfl
    simp [show (0 : ℕ) ≠ header.number by omega, hz, hzg]
  · intro k hk
    dsimp only at hk
    simp only [writeCanonicalHash_canonical, if_neg (show k ≠ header.number by omega)]
    exact habove₃ k hk
  · intro x n hd td hx htdx
    rw [hget₄] at hx
    rw [htd₄] at htdx
    exact h.bound_step hl hge le_rfl htd hnew hnewTd x n hd td hx htdx
  · unfold Closed
    rw [hget₄]
    exact hcl

/-- One `WriteHeader` call of a valid header keeps the invariant. -/
theorem HeaderInv.writeHeader {coin : Bool} {st : WriteStatus} {hc' : HeaderChain}
    (h : HeaderInv hashOf g tdg hs hc) (hinj : Set.InjOn hashOf {x | x = g ∨ x ∈ header :: hs})
    (hv : ValidHeader hashOf hc.chainDb header)
    (hw : hc.writeHeader hashOf coin header = .ok (st, hc')) :
    HeaderInv hashOf g tdg (header :: hs) hc' := by
  obtain ⟨ptd, localTd, hp, hl, ⟨hcond, db₃, hrun, rfl⟩ | ⟨hcond, rfl⟩⟩ := writeHeader_eq_ok hw
  · exact h.canon hinj hv hp hl (by omega) hrun
  · exact h.side hinj hv hp hl (by omega)

/-- On a chain of the invariant, `WriteHeader` of a valid header returns: the parent's
and the head's total difficulties are stored, and both loops finish. -/
theorem HeaderInv.writeHeader_ok (coin : Bool) (h : HeaderInv hashOf g tdg hs hc)
    (hinj : Set.InjOn hashOf {x | x = g ∨ x ∈ header :: hs})
    (hv : ValidHeader hashOf hc.chainDb header) :
    ∃ st hc', hc.writeHeader hashOf coin header = .ok (st, hc') := by
  obtain ⟨p, hpar⟩ := hv.parent
  obtain ⟨-, -, -, ptd, hp⟩ := h.store.stored _ _ _ hpar
  rw [← decUint64_of_pos hv.pos header.number_lt] at hp
  obtain ⟨localTd, hl, -⟩ := h.headTd
  obtain ⟨hs₂, hhd, -, hnew, -⟩ := h.store_step hinj hv.room hv.ne_zero hp
  obtain ⟨db₃, hrun, -⟩ := h.relink hv hs₂ (h.closed.store hv hhd hnew) hhd rfl
  unfold HeaderChain.writeHeader
  simp only [hp, hl]
  split_ifs
  · rw [hrun]
    exact ⟨_, _, rfl⟩
  · exact ⟨_, _, rfl⟩

end Step

theorem HeaderInv.init {g : Header} {tdg : ℕ} (hg : g.number = 0) (hgz : hashOf g ≠ zeroHash) :
    HeaderInv hashOf g tdg [] (genesisChain hashOf g tdg) := by
  have hst : StoreInv hashOf g tdg [] (commitGenesis hashOf g tdg) := StoreInv.commitGenesis hg hgz
  refine ⟨IndexInv.init hg hgz, ?_⟩
  intro x n hd hx
  obtain ⟨hx', hn⟩ := hst.keyed x n hd hx
  obtain ⟨hmem, -⟩ := hst.stored x n hd hx
  obtain rfl : hd = g := by simpa using hmem
  exact ⟨fun _ => hx'.symm, fun hn' => absurd (hn ▸ hg) (by omega)⟩

variable (hashOf) in
/-- The header chains a run of `WriteHeader` calls of valid headers reaches from the
genesis commit, with the headers it wrote, latest first. -/
inductive HeaderRun (g : Header) (tdg : ℕ) : List Header → HeaderChain → Prop
  | genesis : HeaderRun g tdg [] (genesisChain hashOf g tdg)
  | writeHeader {hs : List Header} {hc hc' : HeaderChain} {header : Header} {coin : Bool}
      {st : WriteStatus} : HeaderRun g tdg hs hc → ValidHeader hashOf hc.chainDb header →
      hc.writeHeader hashOf coin header = .ok (st, hc') → HeaderRun g tdg (header :: hs) hc'

theorem HeaderRun.headerInv {g : Header} {tdg : ℕ} {hs : List Header} {hc : HeaderChain}
    (hg : g.number = 0) (hgz : hashOf g ≠ zeroHash) (hr : HeaderRun hashOf g tdg hs hc)
    (hinj : Set.InjOn hashOf {x | x = g ∨ x ∈ hs}) : HeaderInv hashOf g tdg hs hc := by
  induction hr with
  | genesis => exact HeaderInv.init hg hgz
  | writeHeader _ hv hw ih =>
    exact (ih (hinj.mono fun x hx => hx.imp_right (List.mem_cons_of_mem _))).writeHeader hinj hv hw

/-- A run of valid headers from the genesis commit never gets stuck: `WriteHeader` of the
next valid header, of a hash distinct from the run's, returns, and the run goes on. -/
theorem HeaderRun.writeHeader_progress {g : Header} {tdg : ℕ} {hs : List Header}
    {hc : HeaderChain} {header : Header} (coin : Bool) (hg : g.number = 0)
    (hgz : hashOf g ≠ zeroHash) (hr : HeaderRun hashOf g tdg hs hc)
    (hinj : Set.InjOn hashOf {x | x = g ∨ x ∈ header :: hs})
    (hv : ValidHeader hashOf hc.chainDb header) :
    ∃ st hc', hc.writeHeader hashOf coin header = .ok (st, hc') ∧
      HeaderRun hashOf g tdg (header :: hs) hc' := by
  have h := hr.headerInv hg hgz (hinj.mono fun x hx => hx.imp_right (List.mem_cons_of_mem _))
  obtain ⟨st, hc', hw⟩ := h.writeHeader_ok coin hinj hv
  exact ⟨st, hc', hw, hr.writeHeader hv hw⟩

theorem HeaderRun.writeHeader_progress_genesis :
    let hashOf : Header → Hash := fun h => bytesToHash [h.number.toUInt8 + 1, h.difficulty.toUInt8]
    let g : Header := ⟨zeroHash, ⟨List.replicate 20 0, List.length_replicate⟩, 0, 1, by decide⟩
    let a : Header := ⟨hashOf g, ⟨List.replicate 20 0, List.length_replicate⟩, 1, 5, by decide⟩
    ∃ st hc', (genesisChain hashOf g 1).writeHeader hashOf false a = .ok (st, hc') ∧
      HeaderRun hashOf g 1 [a] hc' := by
  intro hashOf g a
  have hne : hashOf g ≠ hashOf a := by decide
  have hinj : Set.InjOn hashOf {x | x = g ∨ x ∈ [a]} := by
    intro x hx y hy hxy
    simp only [Set.mem_ofPred_eq, List.mem_singleton] at hx hy
    rcases hx with rfl | rfl <;> rcases hy with rfl | rfl
    · rfl
    · exact absurd hxy hne
    · exact absurd hxy.symm hne
    · rfl
  exact HeaderRun.writeHeader_progress false rfl (by decide) .genesis hinj
    ⟨by decide, ⟨g, rfl⟩, by decide, by decide⟩

end Sphinx.Chain
