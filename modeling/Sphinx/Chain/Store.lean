import Sphinx.Chain.Canonical

/-! # Stored headers and total difficulties

Both ways of extending the chain write a total difficulty, the parent's plus the
header's own, and then maybe the header. Over a run whose headers have distinct hashes,
every stored total difficulty is that of the genesis header or of a header of the run,
so a write under a key that already holds one writes the same value again: stored total
difficulties and headers never change, they only accumulate.
-/

namespace Sphinx.Chain

open ChainDb

variable {hashOf : Header → Hash}

section Simp

variable (db : ChainDb) (hashOf) (b : Header) (x y : Hash) (n k td : ℕ)

@[simp] theorem getHeader_writeHeader :
    (db.writeHeader hashOf b).getHeader y k =
      if k = b.number ∧ y = hashOf b then some b else db.getHeader y k := rfl

@[simp] theorem getTd_writeHeader : (db.writeHeader hashOf b).getTd y k = db.getTd y k := rfl

@[simp] theorem canonical_writeHeader : (db.writeHeader hashOf b).canonical = db.canonical := rfl

@[simp] theorem getHeader_writeTd : (db.writeTd x n td).getHeader y k = db.getHeader y k := rfl

@[simp] theorem getTd_writeTd :
    (db.writeTd x n td).getTd y k = if k = n ∧ y = x then some td else db.getTd y k := rfl

@[simp] theorem canonical_writeTd : (db.writeTd x n td).canonical = db.canonical := rfl

@[simp] theorem getHeader_writeCanonicalHash :
    (db.writeCanonicalHash x n).getHeader y k = db.getHeader y k := rfl

@[simp] theorem getTd_writeCanonicalHash : (db.writeCanonicalHash x n).getTd y k = db.getTd y k :=
  rfl

end Simp

variable (hashOf) in
/-- The stored headers and total difficulties of a run from the genesis header `g` with
total difficulty `tdg` that wrote the headers `hs`. -/
structure StoreInv (g : Header) (tdg : ℕ) (hs : List Header) (db : ChainDb) : Prop where
  keyed : Keyed hashOf db
  stored : ∀ x n hd, db.getHeader x n = some hd →
    (hd = g ∨ hd ∈ hs) ∧ x ≠ zeroHash ∧ n + 1 < 2 ^ 64 ∧ ∃ td, db.getTd x n = some td
  tds : ∀ x n td, db.getTd x n = some td → (x = hashOf g ∧ n = 0 ∧ td = tdg) ∨
    ∃ hd ∈ hs, hashOf hd = x ∧ hd.number = n ∧ 0 < n ∧ n + 1 < 2 ^ 64 ∧
      ∃ ptd, db.getTd hd.parentHash (n - 1) = some ptd ∧ td = hd.difficulty + ptd

namespace StoreInv

variable {g : Header} {tdg : ℕ} {hs : List Header} {db : ChainDb}

theorem commitGenesis (hg : g.number = 0) (hgz : hashOf g ≠ zeroHash) :
    StoreInv hashOf g tdg [] (commitGenesis hashOf g tdg) := by
  refine ⟨?_, ?_, ?_⟩
  · intro x n hd h
    simp only [ChainDb.commitGenesis, getHeader_writeCanonicalHash, getHeader_writeHeader,
      getHeader_writeTd] at h
    split_ifs at h with hk
    · cases h
      exact ⟨hk.2.symm, hk.1.symm⟩
    · cases h
  · intro x n hd h
    simp only [ChainDb.commitGenesis, getHeader_writeCanonicalHash, getHeader_writeHeader,
      getHeader_writeTd] at h
    split_ifs at h with hk
    · cases h
      refine ⟨Or.inl rfl, hk.2 ▸ hgz, by omega, tdg, ?_⟩
      simp [ChainDb.commitGenesis, hk.1, hk.2]
    · cases h
  · intro x n td h
    simp only [ChainDb.commitGenesis, getTd_writeCanonicalHash, getTd_writeHeader,
      getTd_writeTd] at h
    split_ifs at h with hk
    · cases h
      exact Or.inl ⟨hk.2, hk.1.trans hg, rfl⟩
    · cases h

theorem getTd_bound (h : StoreInv hashOf g tdg hs db) {x : Hash} {n td : ℕ}
    (ht : db.getTd x n = some td) : n + 1 < 2 ^ 64 := by
  rcases h.tds x n td ht with ⟨-, rfl, -⟩ | ⟨hd, -, -, -, -, hb, -⟩
  · norm_num
  · exact hb

/-- A parent's total difficulty is found one number below only for a header above zero. -/
theorem pos_of_getTd_dec (h : StoreInv hashOf g tdg hs db) {x : Hash} {n td : ℕ}
    (hn : n < 2 ^ 64) (ht : db.getTd x (decUint64 n) = some td) : 0 < n := by
  have hb := h.getTd_bound ht
  rcases Nat.eq_zero_or_pos n with rfl | hpos
  · simp [decUint64] at hb
  · exact hpos

/-- The invariant reads only the stored headers and total difficulties. -/
theorem of_eq (h : StoreInv hashOf g tdg hs db) {db' : ChainDb} (hh : db'.headers = db.headers)
    (ht : db'.tds = db.tds) : StoreInv hashOf g tdg hs db' := by
  have hh' : db'.getHeader = db.getHeader := by
    funext y k
    simp only [getHeader, hh]
  have ht' : db'.getTd = db.getTd := by
    funext y k
    simp only [getTd, ht]
  refine ⟨?_, ?_, ?_⟩
  · intro x n hd hhd
    rw [hh'] at hhd
    exact h.keyed x n hd hhd
  · intro x n hd hhd
    rw [hh'] at hhd
    rw [ht']
    exact h.stored x n hd hhd
  · intro x n td htd
    rw [ht'] at htd ⊢
    exact h.tds x n td htd

theorem mono (h : StoreInv hashOf g tdg hs db) {hs' : List Header} (hsub : hs ⊆ hs') :
    StoreInv hashOf g tdg hs' db := by
  refine ⟨h.keyed, ?_, ?_⟩
  · intro x n hd hhd
    obtain ⟨hmem, hrest⟩ := h.stored x n hd hhd
    exact ⟨hmem.imp_right (fun hm => hsub hm), hrest⟩
  · intro x n td ht
    rcases h.tds x n td ht with hgen | ⟨hd, hhd, hrest⟩
    · exact Or.inl hgen
    · exact Or.inr ⟨hd, hsub hhd, hrest⟩

variable (hinj : Set.InjOn hashOf {x | x = g ∨ x ∈ hs})
include hinj

theorem eq_of_getHeader (h : StoreInv hashOf g tdg hs db) {b hd : Header} (hb : b = g ∨ b ∈ hs)
    {n : ℕ} (hhd : db.getHeader (hashOf b) n = some hd) : hd = b :=
  hinj (h.stored _ _ _ hhd).1 hb (h.keyed _ _ _ hhd).1

/-- A total difficulty stored under the hash of a header of the run sits at its number. -/
theorem number_of_getTd (h : StoreInv hashOf g tdg hs db) (hg : g.number = 0) {b : Header}
    (hb : b = g ∨ b ∈ hs) {k td : ℕ} (ht : db.getTd (hashOf b) k = some td) : k = b.number := by
  rcases h.tds _ _ _ ht with ⟨hx, rfl, -⟩ | ⟨hd, hhd, hx, rfl, -⟩
  · rw [hinj hb (Or.inl rfl) hx, hg]
  · rw [hinj (Or.inr hhd) hb hx]

theorem getTd_eq_of_mem (h : StoreInv hashOf g tdg hs db) {b : Header} (hb : b ∈ hs)
    (hpos : 0 < b.number) {ptd td : ℕ} (hp : db.getTd b.parentHash (b.number - 1) = some ptd)
    (ht : db.getTd (hashOf b) b.number = some td) : td = b.difficulty + ptd := by
  rcases h.tds _ _ _ ht with ⟨hx, hn, -⟩ | ⟨hd, hhd, hx, hn, -, -, ptd', hp', rfl⟩
  · have := hinj (Or.inr hb) (Or.inl rfl) hx
    subst this
    omega
  · obtain rfl := hinj (Or.inr hhd) (Or.inr hb) hx
    rw [hp] at hp'
    cases hp'
    rfl

/-- Writing the total difficulty of a header of the run, its parent's plus its own, keeps
every stored total difficulty. -/
theorem writeTd {b : Header} {ptd : ℕ} (h : StoreInv hashOf g tdg hs db) (hb : b ∈ hs)
    (hroom : b.number + 1 < 2 ^ 64) (hp : db.getTd b.parentHash (decUint64 b.number) = some ptd) :
    StoreInv hashOf g tdg hs (db.writeTd (hashOf b) b.number (b.difficulty + ptd)) ∧
      ∀ y k td, db.getTd y k = some td →
        (db.writeTd (hashOf b) b.number (b.difficulty + ptd)).getTd y k = some td := by
  have hpos : 0 < b.number := h.pos_of_getTd_dec b.number_lt hp
  rw [decUint64_of_pos hpos b.number_lt] at hp
  have hgrow : ∀ y k td, db.getTd y k = some td →
      (db.writeTd (hashOf b) b.number (b.difficulty + ptd)).getTd y k = some td := by
    intro y k td hy
    rw [getTd_writeTd]
    split_ifs with hk
    · obtain ⟨rfl, rfl⟩ := hk
      rw [h.getTd_eq_of_mem hinj hb hpos hp hy]
    · exact hy
  refine ⟨⟨h.keyed, ?_, ?_⟩, hgrow⟩
  · intro x n hd hhd
    obtain ⟨hmem, hz, hn, td, ht⟩ := h.stored x n hd hhd
    exact ⟨hmem, hz, hn, td, hgrow x n td ht⟩
  · intro x n td ht
    rw [getTd_writeTd] at ht
    split_ifs at ht with hk
    · obtain ⟨rfl, rfl⟩ := hk
      cases ht
      exact Or.inr ⟨b, hb, rfl, rfl, hpos, hroom, ptd, hgrow _ _ _ hp, rfl⟩
    · rcases h.tds x n td ht with hgen | ⟨hd, hhd, hx, hn, hpos', hroom', ptd', hp', htd⟩
      · exact Or.inl hgen
      · exact Or.inr ⟨hd, hhd, hx, hn, hpos', hroom', ptd', hgrow _ _ _ hp', htd⟩

/-- Storing a header of the run that has a total difficulty keeps every stored header. -/
theorem writeHeader {b : Header} (h : StoreInv hashOf g tdg hs db) (hb : b ∈ hs)
    (hz : hashOf b ≠ zeroHash) (hroom : b.number + 1 < 2 ^ 64)
    (htd : ∃ td, db.getTd (hashOf b) b.number = some td) :
    StoreInv hashOf g tdg hs (db.writeHeader hashOf b) ∧
      ∀ y k hd, db.getHeader y k = some hd → (db.writeHeader hashOf b).getHeader y k = some hd := by
  have hgrow : ∀ y k hd, db.getHeader y k = some hd →
      (db.writeHeader hashOf b).getHeader y k = some hd := by
    intro y k hd hy
    rw [getHeader_writeHeader]
    split_ifs with hk
    · obtain ⟨rfl, rfl⟩ := hk
      rw [h.eq_of_getHeader hinj (Or.inr hb) hy]
    · exact hy
  refine ⟨⟨?_, ?_, h.tds⟩, hgrow⟩
  · intro x n hd hhd
    rw [getHeader_writeHeader] at hhd
    split_ifs at hhd with hk
    · cases hhd
      exact ⟨hk.2.symm, hk.1.symm⟩
    · exact h.keyed x n hd hhd
  · intro x n hd hhd
    rw [getHeader_writeHeader] at hhd
    split_ifs at hhd with hk
    · cases hhd
      obtain ⟨rfl, rfl⟩ := hk
      exact ⟨Or.inr hb, hz, hroom, htd⟩
    · exact h.stored x n hd hhd

end StoreInv

end Sphinx.Chain
