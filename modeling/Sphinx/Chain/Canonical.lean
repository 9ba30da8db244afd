import Sphinx.Chain.HeaderChain

/-! # The canonical index

What the chain index should keep: the canonical entry at zero names the genesis header,
every entry up to the head names a stored header of that number whose parent is the
entry below, there is no entry above the head, the head has the greatest total
difficulty of the stored headers, and each stored header's total difficulty is its
parent's plus its own difficulty.

The two loops of `WriteHeader` are specified here. Deleting from one above the new head
removes exactly the entries above it when the old entries are contiguous. Rewriting
from the new head's parent leaves every entry at or below the parent linked, as long as
every entry there was linked before: the loop stops at the first entry that already
names the header it reaches, and below it the old chain is the new header's ancestry.
-/

namespace Sphinx.Chain

open ChainDb

variable (hashOf : Header → Hash)

/-- A consistent header chain: the canonical index starts at genesis and is linked from the head
down, nothing is canonical above the head, the head has the greatest total difficulty, and every
stored header's total difficulty is its parent's plus its own difficulty. -/
structure ChainInv (hc : HeaderChain) : Prop where
  genesis : hc.chainDb.getCanonicalHash 0 = hashOf hc.genesisHeader
  linked : ∀ k, 0 < k → k ≤ hc.currentHeader.number → ∃ hd,
    hc.chainDb.getCanonicalHash k = hashOf hd ∧ hc.chainDb.getHeader (hashOf hd) k = some hd ∧
      hd.number = k ∧ hd.parentHash = hc.chainDb.getCanonicalHash (k - 1)
  above : ∀ k, hc.currentHeader.number < k → hc.chainDb.getCanonicalHash k = zeroHash
  headMax : ∀ x n hd, hc.chainDb.getHeader x n = some hd → ∃ td tdh,
    hc.chainDb.getTd x n = some td ∧
      hc.chainDb.getTd (hashOf hc.currentHeader) hc.currentHeader.number = some tdh ∧ td ≤ tdh
  tdSum : ∀ x n hd, hc.chainDb.getHeader x n = some hd → 0 < n → ∃ ptd,
    hc.chainDb.getTd hd.parentHash (n - 1) = some ptd ∧ hc.chainDb.getTd x n = some (ptd + hd.difficulty)

/-- Every canonical entry at or below `j` names a stored header of its number whose parent
is the entry below, down to the genesis hash at zero. -/
def LinkedBelow (db : ChainDb) (g : Hash) (j : ℕ) : Prop :=
  ∀ k ≤ j, ∀ y, db.canonical k = some y →
    (k = 0 → y = g) ∧ (0 < k → ∃ hd, db.getHeader y k = some hd ∧ db.canonical (k - 1) = some hd.parentHash)

/-- Headers are stored under their own hash and number. -/
def Keyed (db : ChainDb) : Prop :=
  ∀ x n hd, db.getHeader x n = some hd → hashOf hd = x ∧ hd.number = n

/-- The parent of every stored header above zero is stored, and zero holds only the
genesis header. -/
def Closed (db : ChainDb) (g : Hash) : Prop :=
  ∀ x n hd, db.getHeader x n = some hd →
    (n = 0 → x = g) ∧ (0 < n → ∃ p, db.getHeader hd.parentHash (n - 1) = some p)

section Lemmas

variable {hashOf}

theorem decUint64_of_pos {n : ℕ} (h0 : 0 < n) (hn : n < 2 ^ 64) : decUint64 n = n - 1 := by
  unfold decUint64
  omega

theorem incUint64_of_lt {n : ℕ} (hn : n + 1 < 2 ^ 64) : incUint64 n = n + 1 := by
  unfold incUint64
  omega

theorem getCanonicalHash_eq {db : ChainDb} {k : ℕ} {y : Hash} (hy : y ≠ zeroHash) :
    db.getCanonicalHash k = y ↔ db.canonical k = some y := by
  unfold getCanonicalHash
  rcases db.canonical k with _ | z
  · exact ⟨fun h => absurd h.symm hy, fun h => by cases h⟩
  · simp

theorem LinkedBelow.mono {db : ChainDb} {g : Hash} {i j : ℕ} (h : LinkedBelow db g j)
    (hij : i ≤ j) : LinkedBelow db g i :=
  fun k hk => h k (hk.trans hij)

/-- Storing more headers and changing only entries above `j` keeps the entries at or
below `j` linked. -/
theorem LinkedBelow.of_agree {db db' : ChainDb} {g : Hash} {j : ℕ} (h : LinkedBelow db g j)
    (hh : ∀ y k hd, db.getHeader y k = some hd → db'.getHeader y k = some hd)
    (hc : ∀ k ≤ j, db'.canonical k = db.canonical k) : LinkedBelow db' g j := by
  intro k hk y hy
  rw [hc k hk] at hy
  obtain ⟨h0, hpos⟩ := h k hk y hy
  refine ⟨h0, fun hk0 => ?_⟩
  obtain ⟨hd, hhd, hpar⟩ := hpos hk0
  refine ⟨hd, hh y k hd hhd, ?_⟩
  rw [hc (k - 1) (by omega)]
  exact hpar

/-- Entries linked up to `m` with none above are linked up to any `j`. -/
theorem LinkedBelow.of_above {db : ChainDb} {g : Hash} {m j : ℕ} (h : LinkedBelow db g m)
    (habove : ∀ k, m < k → db.canonical k = none) : LinkedBelow db g j := by
  intro k _ y hy
  rcases Nat.lt_or_ge m k with hmk | hkm
  · rw [habove k hmk] at hy
    cases hy
  · exact h k hkm y hy

/-- Below a present linked entry every entry is present. -/
theorem LinkedBelow.present {db : ChainDb} {g : Hash} :
    ∀ {j : ℕ} {y : Hash}, LinkedBelow db g j → db.canonical j = some y →
      ∀ k ≤ j, ∃ z, db.canonical k = some z
  | 0, y, _, hy, k, hk => ⟨y, by rw [Nat.le_zero.mp hk]; exact hy⟩
  | j + 1, y, h, hy, k, hk => by
    rcases Nat.lt_or_ge k (j + 1) with hlt | hge
    · obtain ⟨hd, -, hpar⟩ := (h (j + 1) le_rfl y hy).2 (Nat.succ_pos j)
      exact LinkedBelow.present (h.mono (Nat.le_succ j)) hpar k (by omega)
    · exact ⟨y, by rw [show k = j + 1 by omega]; exact hy⟩

end Lemmas

/-! ## Deleting the entries above the new head -/

section DeleteFrom

variable {m : ℕ}

@[simp] theorem deleteCanonicalFrom_headers :
    ∀ (fuel i : ℕ) (db : ChainDb), (deleteCanonicalFrom fuel i db).headers = db.headers
  | 0, _, _ => rfl
  | fuel + 1, i, db => by
    unfold deleteCanonicalFrom
    split_ifs
    · rfl
    · exact deleteCanonicalFrom_headers fuel _ _

@[simp] theorem deleteCanonicalFrom_tds :
    ∀ (fuel i : ℕ) (db : ChainDb), (deleteCanonicalFrom fuel i db).tds = db.tds
  | 0, _, _ => rfl
  | fuel + 1, i, db => by
    unfold deleteCanonicalFrom
    split_ifs
    · rfl
    · exact deleteCanonicalFrom_tds fuel _ _

@[simp] theorem getHeader_deleteCanonicalFrom (fuel i : ℕ) (db : ChainDb) (y : Hash) (k : ℕ) :
    (deleteCanonicalFrom fuel i db).getHeader y k = db.getHeader y k := by
  simp [getHeader]

@[simp] theorem deleteCanonicalHash_canonical (db : ChainDb) (n k : ℕ) :
    (db.deleteCanonicalHash n).canonical k = if k = n then none else db.canonical k := by
  simp [deleteCanonicalHash, Function.update_apply]

@[simp] theorem writeCanonicalHash_canonical (db : ChainDb) (x : Hash) (n k : ℕ) :
    (db.writeCanonicalHash x n).canonical k = if k = n then some x else db.canonical k := by
  simp [writeCanonicalHash, Function.update_apply]

/-- On contiguous entries up to `m`, the loop deletes exactly the entries from `i` on. -/
theorem deleteCanonicalFrom_canonical (hm : m + 1 < 2 ^ 64) :
    ∀ (fuel i : ℕ) (db : ChainDb), m + 1 - i < fuel →
      (∀ k, i ≤ k → k ≤ m → db.getCanonicalHash k ≠ zeroHash) →
      (∀ k, m < k → db.canonical k = none) →
      ∀ k, (deleteCanonicalFrom fuel i db).canonical k = if i ≤ k then none else db.canonical k
  | 0, _, _, hf, _, _, _ => absurd hf (Nat.not_lt_zero _)
  | fuel + 1, i, db, hf, hpres, habove, k => by
    unfold deleteCanonicalFrom
    by_cases hz : db.getCanonicalHash i = zeroHash
    · have him : m < i := by
        by_contra hle
        exact hpres i le_rfl (by omega) hz
      rw [if_pos hz]
      split_ifs with hik
      · exact habove k (by omega)
      · rfl
    · have him : i ≤ m := by
        by_contra hlt
        exact hz (by simp [getCanonicalHash, habove i (by omega)])
      have hpres' : ∀ k, i + 1 ≤ k → k ≤ m → (db.deleteCanonicalHash i).getCanonicalHash k ≠ zeroHash := by
        intro k' hk' hk'm
        simpa [getCanonicalHash, show k' ≠ i by omega] using hpres k' (by omega) hk'm
      have habove' : ∀ k, m < k → (db.deleteCanonicalHash i).canonical k = none := by
        intro k' hk'
        simp [show k' ≠ i by omega, habove k' hk']
      rw [if_neg hz, incUint64_of_lt (by omega),
        deleteCanonicalFrom_canonical hm fuel (i + 1) _ (by omega) hpres' habove' k]
      by_cases hk : i + 1 ≤ k
      · simp [hk, show i ≤ k by omega]
      · by_cases hki : k = i
        · simp [hki]
        · simp [hk, hki, show ¬ i ≤ k by omega]

end DeleteFrom

/-! ## Rewriting the stale entries below the new head -/

section Rewrite

variable {hashOf} {g : Hash}

theorem LinkedBelow.succ {db : ChainDb} {j : ℕ} {x : Hash} {hx : Header} (h : LinkedBelow db g j)
    (hx₁ : db.getHeader x (j + 1) = some hx) (hj : db.canonical (j + 1) = some x)
    (hpar : db.canonical j = some hx.parentHash) : LinkedBelow db g (j + 1) := by
  intro k hk y hy
  rcases Nat.lt_or_ge k (j + 1) with hlt | hge
  · exact h k (by omega) y hy
  · obtain rfl : k = j + 1 := by omega
    rw [hj] at hy
    cases hy
    exact ⟨by omega, fun _ => ⟨hx, hx₁, hpar⟩⟩

/-- A linked entry at `j` over entries linked up to `j - 1`. -/
theorem LinkedBelow.extend {db : ChainDb} {j : ℕ} {x : Hash} {hx : Header}
    (h : LinkedBelow db g (j - 1)) (hj0 : 0 < j) (hx₁ : db.getHeader x j = some hx)
    (hj : db.canonical j = some x) (hpar : db.canonical (j - 1) = some hx.parentHash) :
    LinkedBelow db g j := by
  obtain ⟨i, rfl⟩ : ∃ i, j = i + 1 := ⟨j - 1, by omega⟩
  exact h.succ hx₁ hj hpar

/-- The rewriting loop from a stored header at `j` ends with that header's entry at `j`
and every entry at or below `j` linked, leaving the entries above `j` as they were. -/
theorem rewriteCanonical_spec :
    ∀ (j fuel : ℕ) (db : ChainDb) (x : Hash) (hx : Header),
      Keyed hashOf db → Closed db g → (∀ y n hd, db.getHeader y n = some hd → y ≠ zeroHash) →
      db.canonical 0 = some g → j < fuel → j < 2 ^ 64 → db.getHeader x j = some hx →
      LinkedBelow db g j →
      ∃ db', db.rewriteCanonical hashOf fuel x j (some hx) = .ok db' ∧
        db'.canonical j = some x ∧ LinkedBelow db' g j ∧
        (∀ k, j < k → db'.canonical k = db.canonical k) ∧ db'.headers = db.headers ∧
        db'.tds = db.tds
  | _, 0, _, _, _, _, _, _, _, hf, _, _, _ => absurd hf (Nat.not_lt_zero _)
  | j, fuel + 1, db, x, hx, hkey, hcl, hnz, hg0, hf, hj, hx₁, hlink => by
    have hxz : x ≠ zeroHash := hnz x j hx hx₁
    unfold rewriteCanonical
    by_cases hc : db.getCanonicalHash j = x
    · rw [if_pos hc]
      exact ⟨db, rfl, (getCanonicalHash_eq hxz).mp hc, hlink, fun _ _ => rfl, rfl, rfl⟩
    rw [if_neg hc]
    obtain _ | j := j
    · obtain rfl := (hcl x 0 hx hx₁).1 rfl
      exact absurd ((getCanonicalHash_eq hxz).mpr hg0) hc
    obtain ⟨-, hnum⟩ := hkey x _ hx hx₁
    obtain ⟨p, hp⟩ := (hcl x _ hx hx₁).2 (Nat.succ_pos j)
    let db₁ := db.writeCanonicalHash x (j + 1)
    have hlink₁ : LinkedBelow db₁ g j :=
      (hlink.mono (Nat.le_succ j)).of_agree (fun _ _ _ h => h) (fun k hk => by simp [db₁, show k ≠ j + 1 by omega])
    obtain ⟨db', hrun, hj', hlink', habove', hh', ht'⟩ :=
      rewriteCanonical_spec j fuel db₁ hx.parentHash p hkey hcl hnz (by simpa [db₁] using hg0)
        (by omega) (by omega) hp hlink₁
    have hdec : decUint64 hx.number = j := by rw [hnum, decUint64_of_pos (by omega) hj]; rfl
    have hx' : db'.canonical (j + 1) = some x := by
      rw [habove' (j + 1) (by omega)]
      simp [db₁]
    refine ⟨db', ?_, hx', ?_, fun k hk => ?_, hh', ht'⟩
    · have hp₁ : db₁.getHeader hx.parentHash j = some p := hp
      simp only [hdec]
      rw [hp₁]
      exact hrun
    · have hx₂ : db'.getHeader x (j + 1) = some hx := by
        unfold getHeader
        rw [hh']
        exact hx₁
      exact hlink'.succ hx₂ hx' hj'
    · rw [habove' k (by omega)]
      simp [db₁, show k ≠ j + 1 by omega]

end Rewrite

end Sphinx.Chain
