import Sphinx.Common.Types
import Sphinx.Lib.Pairing

/-! # The Merkle tree

The root computation of `merkletree.go`: the leaves are the hashes of the contents, an
odd leaf count is evened by a copy of the last leaf, and each level pairs neighbours with
the last node of an odd level paired with itself. The hash strategy and `CalculateHash`
are parameters. The source recurses on a level with fewer than two nodes forever; the
model's fuel bounds the recursion, and `buildWithContent` always passes enough.

Two content lists of one length with the same root have the same leaf hashes, unless the
hash strategy maps an input it was given for one list and a different input it was given
for the other to one hash. The root does not fix the length: a
copy of the last leaf of an odd list leaves it unchanged.
-/

namespace Sphinx.Merkle

open Pairing

/-- The `Content` interface; every content of the repository returns a nil error. -/
class Content (α : Type) where
  calculateHash : α → Bytes

inductive Error where
  | new (msg : String)
  | outOfFuel
  deriving DecidableEq, Repr

/-- `buildIntermediate`: a level of exactly two nodes returns their parent, any other is
replaced by the level above. -/
def buildIntermediate (hashStrategy : Bytes → Bytes) : ℕ → List Bytes → Except Error Bytes
  | 0, _ => .error .outOfFuel
  | fuel + 1, nl =>
    match nl with
    | [l, r] => .ok (hashStrategy (l ++ r))
    | nl => buildIntermediate hashStrategy fuel (pairUp (fun l r => hashStrategy (l ++ r)) nl)

/-- The inputs `buildIntermediate` gives the hash strategy, level by level. -/
def hashInputs (hashStrategy : Bytes → Bytes) : ℕ → List Bytes → List Bytes
  | 0, _ => []
  | fuel + 1, nl =>
    match nl with
    | [l, r] => [l ++ r]
    | nl => (pairs nl).map (fun p => p.1 ++ p.2) ++
        hashInputs hashStrategy fuel (pairUp (fun l r => hashStrategy (l ++ r)) nl)

/-- The leaves after `buildWithContent` appends the duplicate of an odd last leaf. -/
def padLeafs (leafs : List Bytes) : List Bytes :=
  if leafs.length % 2 = 1 then leafs ++ [leafs.getLastD []] else leafs

/-- `buildWithContent`, returning the root's hash, with the fuel `buildIntermediate` needs. -/
def buildWithContent {α : Type} [Content α] (hashStrategy : Bytes → Bytes) (cs : List α) :
    Except Error Bytes :=
  if cs = [] then .error (.new "error: cannot construct tree with no content")
  else
    let leafs := padLeafs (cs.map Content.calculateHash)
    buildIntermediate hashStrategy leafs.length leafs

/-- The inputs `buildWithContent` gives the hash strategy. -/
def contentInputs {α : Type} [Content α] (hashStrategy : Bytes → Bytes) (cs : List α) :
    List Bytes :=
  let leafs := padLeafs (cs.map Content.calculateHash)
  hashInputs hashStrategy leafs.length leafs

/-! ## The levels -/

section Levels

variable {H : Bytes → Bytes}

theorem buildIntermediate_pair (fuel : ℕ) (l r : Bytes) :
    buildIntermediate H (fuel + 1) [l, r] = .ok (H (l ++ r)) := rfl

theorem buildIntermediate_of_length_ne {nl : List Bytes} (fuel : ℕ) (h : nl.length ≠ 2) :
    buildIntermediate H (fuel + 1) nl =
      buildIntermediate H fuel (pairUp (fun l r => H (l ++ r)) nl) := by
  match nl, h with
  | [], _ => rfl
  | [_], _ => rfl
  | _ :: _ :: _ :: _, _ => rfl

theorem buildIntermediate_ok :
    ∀ (fuel : ℕ) {nl : List Bytes}, 2 ≤ nl.length → nl.length ≤ fuel + 1 →
      ∃ r, buildIntermediate H fuel nl = .ok r
  | 0, _, h₂, hf => absurd hf (by omega)
  | fuel + 1, nl, h₂, hf => by
    by_cases hl : nl.length = 2
    · obtain ⟨l, r, rfl⟩ : ∃ l r, nl = [l, r] := by
        match nl, hl with
        | [l, r], _ => exact ⟨l, r, rfl⟩
      exact ⟨_, buildIntermediate_pair fuel l r⟩
    · rw [buildIntermediate_of_length_ne fuel hl]
      refine buildIntermediate_ok fuel ?_ ?_ <;> rw [length_pairUp] <;> omega

theorem buildIntermediate_eq_hash :
    ∀ {fuel : ℕ} {nl : List Bytes} {r : Bytes}, buildIntermediate H fuel nl = .ok r →
      ∃ x, r = H x
  | 0, _, _, h => by simp [buildIntermediate] at h
  | fuel + 1, nl, r, h => by
    by_cases hl : nl.length = 2
    · obtain ⟨l, r', rfl⟩ : ∃ l r, nl = [l, r] := by
        match nl, hl with
        | [l, r], _ => exact ⟨l, r, rfl⟩
      rw [buildIntermediate_pair, Except.ok.injEq] at h
      exact ⟨_, h.symm⟩
    · rw [buildIntermediate_of_length_ne fuel hl] at h
      exact buildIntermediate_eq_hash h

theorem hashInputs_pair (fuel : ℕ) (l r : Bytes) :
    hashInputs H (fuel + 1) [l, r] = [l ++ r] := rfl

theorem hashInputs_of_length_ne {nl : List Bytes} (fuel : ℕ) (h : nl.length ≠ 2) :
    hashInputs H (fuel + 1) nl = (pairs nl).map (fun p => p.1 ++ p.2) ++
      hashInputs H fuel (pairUp (fun l r => H (l ++ r)) nl) := by
  match nl, h with
  | [], _ => rfl
  | [_], _ => rfl
  | _ :: _ :: _ :: _, _ => rfl

/-- Equal parents of fixed-width children: the children are equal, or `H` collides on the
two inputs. -/
theorem eq_or_collides_of_concat {w : ℕ} {l r l' r' : Bytes} {xs ys : List Bytes}
    (hl : l.length = w) (hl' : l'.length = w) (hx : l ++ r ∈ xs) (hy : l' ++ r' ∈ ys)
    (h : H (l ++ r) = H (l' ++ r')) : (l = l' ∧ r = r') ∨ Collides H xs ys := by
  by_cases he : l ++ r = l' ++ r'
  · exact Or.inl (List.append_inj he (hl.trans hl'.symm))
  · exact Or.inr ⟨_, hx, _, hy, he, h⟩

theorem collides_of_collidesOn {w : ℕ} {nl nl' : List Bytes} (hw : ∀ x ∈ nl, x.length = w)
    (hw' : ∀ x ∈ nl', x.length = w) (h : CollidesOn (fun l r => H (l ++ r)) nl nl') :
    Collides H ((pairs nl).map (fun p => p.1 ++ p.2)) ((pairs nl').map (fun p => p.1 ++ p.2)) := by
  obtain ⟨⟨a, b⟩, hp, ⟨a', b'⟩, hp', hne, he⟩ := h
  have hx : a ++ b ∈ (pairs nl).map (fun p => p.1 ++ p.2) := List.mem_map.mpr ⟨_, hp, rfl⟩
  have hy : a' ++ b' ∈ (pairs nl').map (fun p => p.1 ++ p.2) := List.mem_map.mpr ⟨_, hp', rfl⟩
  rcases eq_or_collides_of_concat (hw a (mem_of_mem_pairs hp).1) (hw' a' (mem_of_mem_pairs hp').1)
      hx hy he with ⟨rfl, rfl⟩ | hc
  · exact absurd rfl hne
  · exact hc

/-- Two levels of one length and width with one root are equal, or `H` collides on the
inputs the two computations give it. -/
theorem buildIntermediate_eq_or_collides {w : ℕ} (hw : ∀ x, (H x).length = w) :
    ∀ {fuel : ℕ} {nl nl' : List Bytes} {r : Bytes}, (∀ x ∈ nl, x.length = w) →
      (∀ x ∈ nl', x.length = w) → nl.length = nl'.length →
      buildIntermediate H fuel nl = .ok r → buildIntermediate H fuel nl' = .ok r →
      nl = nl' ∨ Collides H (hashInputs H fuel nl) (hashInputs H fuel nl')
  | 0, _, _, _, _, _, _, h, _ => by simp [buildIntermediate] at h
  | fuel + 1, nl, nl', r, hnl, hnl', hlen, h, h' => by
    by_cases hl : nl.length = 2
    · obtain ⟨a, b, rfl⟩ : ∃ a b, nl = [a, b] := by
        match nl, hl with
        | [a, b], _ => exact ⟨a, b, rfl⟩
      obtain ⟨a', b', rfl⟩ : ∃ a b, nl' = [a, b] := by
        match nl', hlen with
        | [a, b], _ => exact ⟨a, b, rfl⟩
      rw [buildIntermediate_pair, Except.ok.injEq] at h h'
      rw [hashInputs_pair, hashInputs_pair]
      rcases eq_or_collides_of_concat (hnl a (by simp)) (hnl' a' (by simp))
          (List.mem_singleton_self _) (List.mem_singleton_self _) (h.trans h'.symm)
        with ⟨rfl, rfl⟩ | hc
      · exact Or.inl rfl
      · exact Or.inr hc
    · rw [buildIntermediate_of_length_ne fuel hl] at h
      rw [buildIntermediate_of_length_ne fuel (hlen ▸ hl)] at h'
      rw [hashInputs_of_length_ne fuel hl, hashInputs_of_length_ne fuel (hlen ▸ hl)]
      have hw' : ∀ a b, (fun x : Bytes => x.length = w) (H (a ++ b)) := fun _ _ => hw _
      rcases buildIntermediate_eq_or_collides hw (forall_mem_pairUp hw' nl)
          (forall_mem_pairUp hw' nl') (by simp [length_pairUp, hlen]) h h' with hp | hc
      · rcases eq_or_collidesOn_of_pairUp_eq hlen hp with he | hc
        · exact Or.inl he
        · exact Or.inr ((collides_of_collidesOn hnl hnl' hc).mono
            (List.subset_append_left _ _) (List.subset_append_left _ _))
      · exact Or.inr (hc.mono (List.subset_append_right _ _) (List.subset_append_right _ _))

end Levels

/-! ## The leaves -/

theorem length_padLeafs (leafs : List Bytes) :
    (padLeafs leafs).length = leafs.length + leafs.length % 2 := by
  unfold padLeafs
  split_ifs with h <;> simp <;> omega

theorem forall_mem_padLeafs {P : Bytes → Prop} {leafs : List Bytes} (hne : leafs ≠ [])
    (h : ∀ x ∈ leafs, P x) : ∀ x ∈ padLeafs leafs, P x := by
  unfold padLeafs
  split_ifs
  · intro x hx
    rcases List.mem_append.mp hx with hx | hx
    · exact h x hx
    · rw [List.mem_singleton.mp hx, List.getLastD_eq_getLast?, List.getLast?_eq_some_getLast hne]
      exact h _ (List.getLast_mem hne)
  · exact h

theorem padLeafs_injective {leafs leafs' : List Bytes} (hlen : leafs.length = leafs'.length)
    (h : padLeafs leafs = padLeafs leafs') : leafs = leafs' := by
  unfold padLeafs at h
  rw [hlen] at h
  split_ifs at h
  · exact (List.append_inj h hlen).1
  · exact h

/-- An odd leaf list is evened by a copy of its last leaf, so adding that copy by hand
changes nothing. -/
theorem padLeafs_append_dup {leafs : List Bytes} (h : Even leafs.length) (x : Bytes) :
    padLeafs (leafs ++ [x, x]) = padLeafs (leafs ++ [x]) := by
  obtain ⟨k, hk⟩ := h
  have h₁ : (leafs ++ [x, x]).length % 2 = 0 := by simp; omega
  have h₂ : (leafs ++ [x]).length % 2 = 1 := by simp; omega
  unfold padLeafs
  rw [if_neg (by omega), if_pos h₂]
  simp

/-! ## The root of a content list -/

section Content

variable {α : Type} [Content α] {H : Bytes → Bytes}

theorem buildWithContent_ok {cs : List α} (hne : cs ≠ []) :
    ∃ r, buildWithContent H cs = .ok r := by
  have hl : 2 ≤ (padLeafs (cs.map Content.calculateHash)).length := by
    rw [length_padLeafs, List.length_map]
    have : cs.length ≠ 0 := fun h => hne (List.length_eq_zero_iff.mp h)
    omega
  simp only [buildWithContent, hne, if_false]
  exact buildIntermediate_ok _ hl (by omega)

theorem buildWithContent_eq_hash {cs : List α} {r : Bytes} (h : buildWithContent H cs = .ok r) :
    ∃ x, r = H x := by
  unfold buildWithContent at h
  split_ifs at h
  exact buildIntermediate_eq_hash h

/-- Two content lists of one length with one root have the same leaf hashes, unless the
hash strategy collides on the inputs it was given for the two lists. -/
theorem buildWithContent_eq_or_collides {w : ℕ} (hw : ∀ x, (H x).length = w)
    {cs cs' : List α} (hc : ∀ c ∈ cs, (Content.calculateHash c).length = w)
    (hc' : ∀ c ∈ cs', (Content.calculateHash c).length = w) (hlen : cs.length = cs'.length)
    {r : Bytes} (h : buildWithContent H cs = .ok r) (h' : buildWithContent H cs' = .ok r) :
    cs.map Content.calculateHash = cs'.map Content.calculateHash ∨
      Collides H (contentInputs H cs) (contentInputs H cs') := by
  have hne : cs ≠ [] := by rintro rfl; simp [buildWithContent] at h
  have hne' : cs' ≠ [] := by rintro rfl; simp [buildWithContent] at h'
  have hml : (cs.map Content.calculateHash).length = (cs'.map Content.calculateHash).length := by
    simpa using hlen
  have hpl : (padLeafs (cs.map Content.calculateHash)).length =
      (padLeafs (cs'.map Content.calculateHash)).length := by
    rw [length_padLeafs, length_padLeafs, hml]
  have hw₁ : ∀ x ∈ padLeafs (cs.map Content.calculateHash), x.length = w :=
    forall_mem_padLeafs (by simpa using hne) (by simpa using hc)
  have hw₂ : ∀ x ∈ padLeafs (cs'.map Content.calculateHash), x.length = w :=
    forall_mem_padLeafs (by simpa using hne') (by simpa using hc')
  simp only [buildWithContent, if_neg hne] at h
  simp only [buildWithContent, if_neg hne'] at h'
  simp only [contentInputs]
  rw [hpl] at h ⊢
  rcases buildIntermediate_eq_or_collides hw hw₁ hw₂ hpl h h' with hp | hcol
  · exact Or.inl (padLeafs_injective hml hp)
  · exact Or.inr hcol

end Content

end Sphinx.Merkle
