import Sphinx.Merkle.Tree

/-! # Merkle paths

A `MerkleTree` keeps its leaves, the contents with an odd last one doubled, and its
root. The nodes above the leaves are the levels `buildIntermediate` builds, so a node is
a level and an index in it: the parent of index `i` is `i / 2`, and its children are
`2 * (i / 2)` and the next one, or that one again at the end of an odd level.
`GetMerklePath` walks from the first leaf whose content `Equals` the one asked for up
to the root; at every parent it records the right child's hash with index 1 when the
left child's hash is the current node's, and the left child's hash with index 0
otherwise, so a parent with two equal children is read as if the node were its left one.

Folding a content's hash over its path gives the root as long as `Equals` finds a leaf
of that hash (`foldPath_pathFrom`); `VerifyTree` recomputes the root from the contents,
and `VerifyContent` accepts exactly the contents that some leaf `Equals`.
-/

namespace Sphinx.Merkle

open Pairing

/-- The `Equals` method of a `Content`; every content of the repository returns a nil
error. -/
class ContentEquals (α : Type) extends Content α where
  equals : α → α → Bool

/-- A list with an odd last element doubled, as `buildWithContent` evens its leaves. -/
def padLast {β : Type} (l : List β) : List β :=
  if l.length % 2 = 1 then l ++ l.getLast?.toList else l

/-- The tree `NewTree` builds: its hash strategy, its `Leafs`' contents and its root. -/
structure MerkleTree (α : Type) where
  hashStrategy : Bytes → Bytes
  leafs : List α
  merkleRoot : Bytes

/-- `NewTreeWithHashStrategy`; `NewTree` passes SHA-256. -/
def newTree {α : Type} [Content α] (hashStrategy : Bytes → Bytes) (cs : List α) :
    Except Error (MerkleTree α) :=
  (buildWithContent hashStrategy cs).map fun root => ⟨hashStrategy, padLast cs, root⟩

/-- The index of the right child of parent `p` in a level of `n` nodes. -/
def rightIdx (n p : ℕ) : ℕ :=
  if 2 * p + 1 < n then 2 * p + 1 else 2 * p

/-- What `GetMerklePath` records at the parent of node `i` of the level `nl`. -/
def sibling (nl : List Bytes) (i : ℕ) : Bytes × ℕ :=
  let left := nl.getD (2 * (i / 2)) []
  if left = nl.getD i [] then (nl.getD (rightIdx nl.length (i / 2)) [], 1) else (left, 0)

/-- The walk of `GetMerklePath` from node `i` of the level `nl` up to the root: the
sibling hashes and their indexes. The nodes of a level of two have the root as parent,
which has none. -/
def pathFrom (H : Bytes → Bytes) : ℕ → List Bytes → ℕ → List Bytes × List ℕ
  | 0, _, _ => ([], [])
  | fuel + 1, nl, i =>
    let rest := if nl.length = 2 then ([], [])
      else pathFrom H fuel (pairUp (fun l r => H (l ++ r)) nl) (i / 2)
    ((sibling nl i).1 :: rest.1, (sibling nl i).2 :: rest.2)

section Tree

variable {α : Type} [ContentEquals α]

/-- The hashes of the leaves, the lowest level. -/
def MerkleTree.leafHashes (t : MerkleTree α) : List Bytes :=
  t.leafs.map Content.calculateHash

def MerkleTree.getMerklePath (t : MerkleTree α) (content : α) : List Bytes × List ℕ :=
  match t.leafs.findIdx? (fun c => ContentEquals.equals c content) with
  | some j => pathFrom t.hashStrategy t.leafs.length t.leafHashes j
  | none => ([], [])

/-- `VerifyTree`: `verifyNode` recomputes every hash from the contents up, which is the
root `buildIntermediate` computes from the leaves' hashes. -/
def MerkleTree.verifyTree (t : MerkleTree α) : Bool :=
  match buildIntermediate t.hashStrategy t.leafs.length t.leafHashes with
  | .ok root => root == t.merkleRoot
  | .error _ => false

/-- The checks of `VerifyContent` from node `i` of the level `nl` up: every parent's
hash against the hash of its children's `calculateNodeHash`, which for a leaf is its
content's hash and for an inner node the hash of its children's hashes, that is the
hashes the level holds. -/
def checkPath (H : Bytes → Bytes) : ℕ → List Bytes → ℕ → Bool
  | 0, _, _ => true
  | fuel + 1, nl, i =>
    let up := pairUp (fun l r => H (l ++ r)) nl
    (H (nl.getD (2 * (i / 2)) [] ++ nl.getD (rightIdx nl.length (i / 2)) []) ==
        up.getD (i / 2) []) &&
      (nl.length == 2 || checkPath H fuel up (i / 2))

def MerkleTree.verifyContent (t : MerkleTree α) (content : α) : Bool :=
  match t.leafs.findIdx? (fun c => ContentEquals.equals c content) with
  | some j => checkPath t.hashStrategy t.leafs.length t.leafHashes j
  | none => false

end Tree

/-- The root a content's hash and a Merkle path lead to, folded as
`TestMerkleTree_MerklePath` does: the path's hash goes on the right for index 1 and
on the left otherwise. -/
def combine (H : Bytes → Bytes) (h : Bytes) (step : Bytes × ℕ) : Bytes :=
  if step.2 = 1 then H (h ++ step.1) else H (step.1 ++ h)

def foldPath (H : Bytes → Bytes) (h : Bytes) (p : List Bytes × List ℕ) : Bytes :=
  (p.1.zip p.2).foldl (combine H) h

/-! ## The levels -/

section Levels

variable {H : Bytes → Bytes}

theorem foldPath_cons (h x : Bytes) (side : ℕ) (path : List Bytes) (index : List ℕ) :
    foldPath H h (x :: path, side :: index) = foldPath H (combine H h (x, side)) (path, index) :=
  rfl

theorem getD_pairUp (f : Bytes → Bytes → Bytes) :
    ∀ (nl : List Bytes) (p : ℕ), p < (nl.length + 1) / 2 →
      (pairUp f nl).getD p [] = f (nl.getD (2 * p) []) (nl.getD (rightIdx nl.length p) [])
  | [], p, h => by simp at h
  | [a], p, h => by
    obtain rfl : p = 0 := by simp at h; omega
    simp [rightIdx]
  | a :: b :: rest, 0, _ => by simp [rightIdx]
  | a :: b :: rest, p + 1, h => by
    have ih := getD_pairUp f rest p (by simp at h; omega)
    have hr : rightIdx (rest.length + 2) (p + 1) = rightIdx rest.length p + 2 := by
      unfold rightIdx
      split_ifs <;> omega
    simp only [pairUp_cons_cons, List.getD_cons_succ, List.length_cons, ih, hr,
      show 2 * (p + 1) = 2 * p + 1 + 1 by ring]

theorem combine_sibling {nl : List Bytes} {i : ℕ} (hi : i < nl.length) :
    combine H (nl.getD i []) (sibling nl i) =
      H (nl.getD (2 * (i / 2)) [] ++ nl.getD (rightIdx nl.length (i / 2)) []) := by
  unfold sibling combine
  by_cases hl : nl.getD (2 * (i / 2)) [] = nl.getD i []
  · rw [if_pos hl, if_pos rfl, hl]
  · rw [if_neg hl, if_neg (by omega)]
    have hi' : i = 2 * (i / 2) + 1 := by
      rcases Nat.even_or_odd' i with ⟨k, rfl | rfl⟩
      · exact absurd (by rw [Nat.mul_div_cancel_left k two_pos]) hl
      · omega
    have hr : rightIdx nl.length (i / 2) = i := by
      unfold rightIdx
      rw [if_pos (by omega)]
      omega
    rw [hr]

theorem foldPath_pathFrom : ∀ (fuel : ℕ) {nl : List Bytes} {i : ℕ} {r : Bytes},
    i < nl.length → buildIntermediate H fuel nl = .ok r →
      foldPath H (nl.getD i []) (pathFrom H fuel nl i) = r
  | 0, _, _, _, _, h => by simp [buildIntermediate] at h
  | fuel + 1, nl, i, r, hi, h => by
    have hup : combine H (nl.getD i []) (sibling nl i) =
        (pairUp (fun l r => H (l ++ r)) nl).getD (i / 2) [] := by
      rw [combine_sibling hi, getD_pairUp _ nl (i / 2) (by omega)]
    simp only [pathFrom]
    rw [foldPath_cons, hup]
    by_cases hl : nl.length = 2
    · obtain ⟨a, b, rfl⟩ := List.length_eq_two.1 hl
      rw [buildIntermediate_pair, Except.ok.injEq] at h
      obtain rfl | rfl : i = 0 ∨ i = 1 := by simp at hi; omega
      all_goals simpa [foldPath] using h
    · rw [if_neg hl]
      rw [buildIntermediate_of_length_ne fuel hl] at h
      exact foldPath_pathFrom fuel (by rw [length_pairUp]; omega) h

theorem checkPath_eq_true : ∀ (fuel : ℕ) (nl : List Bytes) (i : ℕ), i < nl.length →
    checkPath H fuel nl i = true
  | 0, _, _, _ => rfl
  | fuel + 1, nl, i, hi => by
    have hup := getD_pairUp (fun l r => H (l ++ r)) nl (i / 2) (by omega)
    simp only [checkPath, hup, beq_self_eq_true, Bool.true_and, Bool.or_eq_true, beq_iff_eq]
    by_cases hl : nl.length = 2
    · exact Or.inl hl
    · exact Or.inr (checkPath_eq_true fuel _ _ (by rw [length_pairUp]; omega))

end Levels

/-! ## The leaves -/

section Leaves

variable {β : Type}

theorem mem_padLast {l : List β} {x : β} : x ∈ padLast l ↔ x ∈ l := by
  unfold padLast
  split_ifs
  · constructor
    · intro h
      rcases List.mem_append.mp h with h | h
      · exact h
      · exact List.mem_of_getLast? (Option.mem_toList.mp h)
    · exact fun h => List.mem_append_left _ h
  · rfl

theorem padLeafs_map (f : β → Bytes) (l : List β) : padLeafs (l.map f) = (padLast l).map f := by
  unfold padLeafs padLast
  rw [List.length_map]
  split_ifs with h
  · obtain ⟨x, hx⟩ : ∃ x, l.getLast? = some x := by
      cases hl : l.getLast? with
      | none => simp [List.getLast?_eq_none_iff.mp hl] at h
      | some x => exact ⟨x, rfl⟩
    simp [hx, List.getLastD_eq_getLast?, List.getLast?_map]
  · rfl

end Leaves

/-! ## The tree of a content list -/

section Content

variable {α : Type} [ContentEquals α] {H : Bytes → Bytes}

theorem newTree_eq_ok {cs : List α} {t : MerkleTree α} (h : newTree H cs = .ok t) :
    t.hashStrategy = H ∧ t.leafs = padLast cs ∧
      buildIntermediate H t.leafs.length t.leafHashes = .ok t.merkleRoot := by
  unfold newTree at h
  cases hb : buildWithContent H cs with
  | error e => simp [hb, Except.map] at h
  | ok root =>
    simp only [hb, Except.map, Except.ok.injEq] at h
    subst h
    refine ⟨rfl, rfl, ?_⟩
    have hne : cs ≠ [] := by rintro rfl; simp [buildWithContent] at hb
    simp only [buildWithContent, if_neg hne, padLeafs_map] at hb
    simpa [MerkleTree.leafHashes] using hb

theorem findIdx?_equals {l : List α} {x : α} {j : ℕ}
    (h : l.findIdx? (fun c => ContentEquals.equals c x) = some j) :
    j < l.length ∧ ContentEquals.equals (l.getD j x) x = true := by
  obtain ⟨hj, hx, -⟩ := List.findIdx?_eq_some_iff_getElem.mp h
  exact ⟨hj, by simpa [List.getD_eq_getElem?_getD, List.getElem?_eq_getElem hj] using hx⟩

theorem findIdx?_isSome_iff {l : List α} {x : α} :
    (l.findIdx? (fun c => ContentEquals.equals c x)).isSome ↔
      ∃ c ∈ l, ContentEquals.equals c x = true := by
  rw [List.findIdx?_isSome, List.any_eq_true]

/-- Merkle paths of the contents of a non-empty list lead to the root, provided `Equals`
is reflexive and only relates contents of one hash, as for every content of the
repository; `NewTree` returns, `VerifyTree` accepts the tree, and `VerifyContent`
accepts exactly what some content of the list `Equals`. -/
theorem newTree_merklePath (H : Bytes → Bytes)
    (hrefl : ∀ c : α, ContentEquals.equals c c = true)
    (hcons : ∀ a b : α, ContentEquals.equals a b = true →
      Content.calculateHash a = Content.calculateHash b)
    {cs : List α} (hne : cs ≠ []) :
    ∃ t, newTree H cs = .ok t ∧
      (∀ c ∈ cs, foldPath H (Content.calculateHash c) (t.getMerklePath c) = t.merkleRoot) ∧
      t.verifyTree = true ∧
      ∀ x, t.verifyContent x = true ↔ ∃ c ∈ cs, ContentEquals.equals c x = true := by
  obtain ⟨root, hb⟩ : ∃ r, buildWithContent H cs = .ok r := buildWithContent_ok hne
  have hnew : newTree H cs = .ok ⟨H, padLast cs, root⟩ := by simp [newTree, hb, Except.map]
  obtain ⟨-, -, hroot⟩ := newTree_eq_ok hnew
  refine ⟨_, hnew, ?_, ?_, ?_⟩
  · intro c hc
    obtain ⟨j, hj⟩ : ∃ j, (padLast cs).findIdx? (fun x => ContentEquals.equals x c) = some j :=
      Option.isSome_iff_exists.mp (findIdx?_isSome_iff.mpr ⟨c, mem_padLast.mpr hc, hrefl c⟩)
    obtain ⟨hjl, hjc⟩ := findIdx?_equals hj
    have hleaf : (padLast cs |>.map Content.calculateHash).getD j [] = Content.calculateHash c := by
      rw [List.getD_eq_getElem?_getD, List.getElem?_map, List.getElem?_eq_getElem hjl]
      simpa [List.getD_eq_getElem?_getD, List.getElem?_eq_getElem hjl] using hcons _ _ hjc
    simp only [MerkleTree.getMerklePath, hj]
    rw [← hleaf]
    exact foldPath_pathFrom _ (by simpa [MerkleTree.leafHashes] using hjl) hroot
  · simp [MerkleTree.verifyTree, hroot]
  · intro x
    have hmem : (∃ c ∈ padLast cs, ContentEquals.equals c x = true) ↔
        ∃ c ∈ cs, ContentEquals.equals c x = true := by
      simp only [mem_padLast]
    rw [← hmem, ← findIdx?_isSome_iff]
    simp only [MerkleTree.verifyContent]
    cases hj : (padLast cs).findIdx? (fun c => ContentEquals.equals c x) with
    | none => simp
    | some j =>
      simp only [Option.isSome_some, iff_true]
      exact checkPath_eq_true _ _ _ (by simpa [MerkleTree.leafHashes] using (findIdx?_equals hj).1)

/-- A content that is its own hash; `loose` ones `Equals` every content. -/
structure Blob (loose : Bool) where
  bytes : Bytes
  deriving DecidableEq

instance (loose : Bool) : ContentEquals (Blob loose) where
  calculateHash b := b.bytes
  equals a b := loose || a == b

theorem newTree_merklePath_blobs :
    (∀ c : Blob false, ContentEquals.equals c c = true) ∧
    (∀ a b : Blob false, ContentEquals.equals a b = true →
      Content.calculateHash a = Content.calculateHash b) ∧
    ∃ t, newTree (fun b => b.take 32) [⟨[1]⟩, ⟨[2]⟩, ⟨[3]⟩] = .ok t ∧
      (∀ c ∈ [(⟨[1]⟩ : Blob false), ⟨[2]⟩, ⟨[3]⟩], foldPath (fun b => b.take 32)
        (Content.calculateHash c) (t.getMerklePath c) = t.merkleRoot) ∧
      t.verifyTree = true ∧
      ∀ x, t.verifyContent x = true ↔
        ∃ c ∈ [(⟨[1]⟩ : Blob false), ⟨[2]⟩, ⟨[3]⟩], ContentEquals.equals c x = true := by
  have hrefl : ∀ c : Blob false, ContentEquals.equals c c = true := by
    intro c
    simp [ContentEquals.equals]
  have hcons : ∀ a b : Blob false, ContentEquals.equals a b = true →
      Content.calculateHash a = Content.calculateHash b := by
    intro a b h
    simp only [ContentEquals.equals, Bool.false_or, beq_iff_eq] at h
    rw [h]
  exact ⟨hrefl, hcons, newTree_merklePath _ hrefl hcons (by simp)⟩

/-- With an `Equals` that relates contents of different hashes, the path of a content
is the path of another content's leaf, and folding the content's own hash over it
misses the root. -/
theorem getMerklePath_loose_misses_root :
    ∃ t, newTree id [(⟨[1]⟩ : Blob true), ⟨[2]⟩] = .ok t ∧
      foldPath id (Content.calculateHash (⟨[2]⟩ : Blob true))
        (t.getMerklePath ⟨[2]⟩) ≠ t.merkleRoot :=
  ⟨_, rfl, by decide⟩

end Content

end Sphinx.Merkle
