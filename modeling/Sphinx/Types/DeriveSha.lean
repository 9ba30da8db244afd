import Sphinx.Types.ProofState

/-! # `DeriveSha`

The root a header commits to for a list of transactions, receipts or proof states: the
empty root for the empty list, and otherwise the Merkle root of the list under
`sha256`, which is a parameter. It never panics. Lists of one length with one root have
the same leaf hashes unless `sha256` maps an input it was given for one list and a
different input it was given for the other to one hash; lists of different lengths can
share a root, since a copy of the last element of an odd list is what the tree adds
anyway.
-/

namespace Sphinx

open Merkle

/-- `EmptyRootHash`, a `HexToHash` of the root of the empty trie. -/
def emptyRootHash : Hash :=
  bytesToHash [0x56, 0xe8, 0x1f, 0x17, 0x1b, 0xcc, 0x55, 0xa6, 0xff, 0x83, 0x45, 0xe6, 0x92, 0xc0,
    0xf8, 0x6e, 0x5b, 0x48, 0xe0, 0x1b, 0x99, 0x6c, 0xad, 0xc0, 0x01, 0x62, 0x2f, 0xb5, 0xe3, 0x63,
    0xb4, 0x21]

/-- `DeriveSha`, with `NewTree`'s hash strategy `sha256`; an error is the source's panic. -/
def deriveSha {α : Type} [Content α] (sha256 : Bytes → Bytes) (list : List α) :
    Except Error Hash :=
  if list = [] then .ok emptyRootHash
  else
    match buildWithContent sha256 list with
    | .error e => .error e
    | .ok root => .ok (FixedBytes.setBytes root)

section DeriveSha

variable {α : Type} [Content α] {sha256 : Bytes → Bytes}

theorem deriveSha_append_dup {list : List α} (h : Even list.length) (c : α) :
    deriveSha sha256 (list ++ [c, c]) = deriveSha sha256 (list ++ [c]) := by
  have hm : Even (list.map Content.calculateHash).length := by simpa using h
  have hpad : padLeafs ((list ++ [c, c]).map Content.calculateHash) =
      padLeafs ((list ++ [c]).map Content.calculateHash) := by
    simpa using padLeafs_append_dup hm (Content.calculateHash c)
  simp only [deriveSha, buildWithContent, hpad, List.append_eq_nil_iff, reduceCtorEq, and_false,
    if_false]

/-- Lists of one length with one root have the same leaf hashes, unless `sha256` collides
on the inputs it was given for the two lists; the leaf hashes and `sha256`'s outputs are
32 bytes long. -/
theorem deriveSha_eq_or_collides (hw : ∀ x, (sha256 x).length = 32) {L1 L2 : List α}
    (h1 : ∀ c ∈ L1, (Content.calculateHash c).length = 32)
    (h2 : ∀ c ∈ L2, (Content.calculateHash c).length = 32) (hlen : L1.length = L2.length)
    (h : deriveSha sha256 L1 = deriveSha sha256 L2) :
    L1.map Content.calculateHash = L2.map Content.calculateHash ∨
      Collides sha256 (contentInputs sha256 L1) (contentInputs sha256 L2) := by
  by_cases hne : L1 = []
  · subst hne
    obtain rfl : L2 = [] := List.length_eq_zero_iff.mp hlen.symm
    exact Or.inl rfl
  have hne' : L2 ≠ [] := fun h0 => hne (List.length_eq_zero_iff.mp (hlen.trans (by simp [h0])))
  obtain ⟨r1, hr1⟩ := @buildWithContent_ok α _ sha256 L1 hne
  obtain ⟨r2, hr2⟩ := @buildWithContent_ok α _ sha256 L2 hne'
  have hroot : (FixedBytes.setBytes r1 : Hash) = FixedBytes.setBytes r2 := by
    simpa [deriveSha, hne, hne', hr1, hr2] using h
  have hlen₁ : r1.length = 32 := by
    obtain ⟨x, rfl⟩ := buildWithContent_eq_hash hr1
    exact hw x
  have hlen₂ : r2.length = 32 := by
    obtain ⟨x, rfl⟩ := buildWithContent_eq_hash hr2
    exact hw x
  have hr : r1 = r2 := by
    rw [← FixedBytes.bytes_setBytes_of_length hlen₁, ← FixedBytes.bytes_setBytes_of_length hlen₂,
      hroot]
  exact buildWithContent_eq_or_collides hw h1 h2 hlen hr1 (hr ▸ hr2)

end DeriveSha

/-- Under the injective hash strategy `id`, three proof states and the same three with the
last one doubled have one root. -/
theorem deriveSha_three_eq_four :
    let p : ℕ → ProofState := fun k =>
      ⟨⟨List.replicate 20 0, rfl⟩, ⟨List.replicate 32 k.toUInt8, List.length_replicate⟩, k⟩
    Function.Injective (id : Bytes → Bytes) ∧
      deriveSha id [p 1, p 2, p 3] = deriveSha id [p 1, p 2, p 3, p 3] ∧
      [p 1, p 2, p 3].length ≠ [p 1, p 2, p 3, p 3].length := by
  intro p
  exact ⟨Function.injective_id, (@deriveSha_append_dup ProofState _ id [p 1, p 2] ⟨1, rfl⟩ (p 3)).symm,
    by simp⟩

/-- Under a hash strategy that ignores its input, two proof states with different roots
share a root, and the collision is what the theorem reports. -/
theorem deriveSha_eq_or_collides_constant :
    let H : Bytes → Bytes := fun _ => List.replicate 32 0
    let p1 : ProofState := ⟨⟨List.replicate 20 0, rfl⟩, ⟨List.replicate 32 1, rfl⟩, 1⟩
    let p2 : ProofState := ⟨⟨List.replicate 20 0, rfl⟩, ⟨List.replicate 32 2, rfl⟩, 1⟩
    (∀ x, (H x).length = 32) ∧ (∀ c ∈ [p1], (Content.calculateHash c).length = 32) ∧
      (∀ c ∈ [p2], (Content.calculateHash c).length = 32) ∧ [p1].length = [p2].length ∧
      deriveSha H [p1] = deriveSha H [p2] ∧
      ([p1].map Content.calculateHash = [p2].map Content.calculateHash ∨
        Collides H (contentInputs H [p1]) (contentInputs H [p2])) := by
  intro H p1 p2
  have hw : ∀ x, (H x).length = 32 := fun _ => rfl
  have h1 : ∀ c ∈ [p1], (Content.calculateHash c).length = 32 := by
    simp [ProofState.calculateHash_eq, p1]
  have h2 : ∀ c ∈ [p2], (Content.calculateHash c).length = 32 := by
    simp [ProofState.calculateHash_eq, p2]
  exact ⟨hw, h1, h2, rfl, rfl, deriveSha_eq_or_collides hw h1 h2 rfl rfl⟩

end Sphinx
