import Sphinx.Trie.Denote

/-! # The cache flags

Every full and short node in memory carries a `nodeFlag`: a cached hash, the generation it
was last touched in, and whether it holds changes the database does not have. `FlagsOk`
is what the trie keeps true of them. A cached hash is the hash of the node's collapsed
encoding, of a node long enough to be held by hash unless it is the root (which is hashed
whatever its length). A clean node is in the database under its cached hash, has one when
it is held by hash or is the root, and has only clean children: every ancestor of a dirty
node is dirty. The generation plays no part, so its 16-bit wrap-around cannot break them.

Nodes made by `insert` and `delete` are dirty and have no hash; nodes loaded from the
database are clean and carry the hash they were loaded from (`flagsOk_decoded`).
-/

namespace Sphinx.Trie

open Rlp

/-- Whether a node holds changes the database does not have; hash, value and nil nodes
have no flags. -/
def Node.dirty : Node → Bool
  | .full _ f | .short _ _ f => f.dirty
  | _ => false

variable (H : Bytes → Bytes) (db : Db)

/-- What the flags `f` of the node `n` promise, `n` being the root or not. -/
def HashFlag (root : Bool) (n : Node) (f : NodeFlag) : Prop :=
  (∀ x, f.hash = some x →
    x = H (encodeNode (collapse H n)) ∧ (root ∨ 32 ≤ (encodeNode (collapse H n)).length)) ∧
  (f.dirty = false →
    (∀ x, f.hash = some x → db x = some (encodeNode (collapse H n))) ∧
    ((root ∨ 32 ≤ (encodeNode (collapse H n)).length) → f.hash ≠ none))

/-- The flags of a node and of every node below it in memory. -/
def FlagsOk (root : Bool) : Node → Prop
  | .short k c f =>
    HashFlag H db root (.short k c f) f ∧ (f.dirty = false → c.dirty = false) ∧
      FlagsOk false c
  | .full cs f =>
    HashFlag H db root (.full cs f) f ∧ (f.dirty = false → ∀ i, (cs i).dirty = false) ∧
      ∀ i, FlagsOk false (cs i)
  | _ => True

variable {H db}

-- The equation lemmas of these definitions are made here, once: the proofs that unfold them
-- run in parallel, and would otherwise each wait for them on a thread of its own.
section
attribute [local simp] HashFlag FlagsOk
end

/-! ## New nodes and copies -/

/-- The flags of a node made now: dirty, with no hash. -/
theorem hashFlag_fresh {root : Bool} {n : Node} {g : UInt16} :
    HashFlag H db root n ⟨none, g, true⟩ := by
  simp [HashFlag]

theorem flagsOk_short_fresh {root : Bool} {k : List UInt8} {c : Node} {g : UInt16}
    (hc : FlagsOk H db false c) : FlagsOk H db root (.short k c ⟨none, g, true⟩) :=
  ⟨hashFlag_fresh, by simp, hc⟩

theorem flagsOk_full_fresh {root : Bool} {cs : Fin 17 → Node} {g : UInt16}
    (hc : ∀ i, FlagsOk H db false (cs i)) : FlagsOk H db root (.full cs ⟨none, g, true⟩) :=
  ⟨hashFlag_fresh, by simp, hc⟩

/-- The flags promise nothing about a node but its collapsed encoding. -/
theorem HashFlag.congr {root : Bool} {n n' : Node} {f f' : NodeFlag} (h : HashFlag H db root n f)
    (he : encodeNode (collapse H n') = encodeNode (collapse H n)) (hh : f'.hash = f.hash)
    (hd : f'.dirty = f.dirty) : HashFlag H db root n' f' := by
  simp only [HashFlag, he, hh, hd] at h ⊢
  exact h

/-! ## Growth of the database -/

theorem HashFlag.mono {db' : Db} (hdb : db.Extends db') {root : Bool} {n : Node} {f : NodeFlag}
    (h : HashFlag H db root n f) : HashFlag H db' root n f :=
  ⟨h.1, fun hd => ⟨fun x hx => hdb _ _ ((h.2 hd).1 x hx), (h.2 hd).2⟩⟩

theorem FlagsOk.mono {db' : Db} (hdb : db.Extends db') :
    ∀ {root : Bool} {n : Node}, FlagsOk H db root n → FlagsOk H db' root n
  | _, .short _ _ _, ⟨hf, hd, hc⟩ => ⟨hf.mono hdb, hd, FlagsOk.mono hdb hc⟩
  | _, .full _ _, ⟨hf, hd, hc⟩ => ⟨hf.mono hdb, hd, fun i => FlagsOk.mono hdb (hc i)⟩
  | _, .nil, _ | _, .value _, _ | _, .hash _, _ => trivial

/-! ## Nodes loaded from the database -/

section Decoded

variable (g : UInt16)

theorem dirty_decoded (h : Option Bytes) (t : Tree) : (decoded H g h t.toNode).dirty = false := by
  cases t <;> rfl

theorem isHash_decoded (h : Option Bytes) (t : Tree) : (decoded H g h t.toNode).isHash = false := by
  cases t <;> rfl

theorem decodedRef_node {c : Node} (hc : c.isNode = true) :
    decodedRef H g c = if (encodeNode (collapse H c)).length < 32 then decoded H g none c
      else .hash (H (encodeNode (collapse H c))) := by
  have hm := isNode_collapse H hc
  unfold decodedRef
  rw [refOf_node H hm]
  by_cases hl : (encodeNode (collapse H c)).length < 32
  · rw [if_pos hl, if_pos hl]
    split
    · next r hr => rw [hr] at hm; simp [Node.isNode] at hm
    · rfl
  · rw [if_neg hl, if_neg hl]

theorem dirty_decodedRef (t : Tree) : (decodedRef H g t.toNode).dirty = false := by
  unfold decodedRef
  split
  · rfl
  · exact dirty_decoded g none t

theorem encodeNode_collapse_decoded {t : Tree} (hc : t.Canon) (hs : t.Stored H db)
    (h : Option Bytes) : encodeNode (collapse H (decoded H g h t.toNode)) = t.enc H :=
  (encodeNode_collapse_of_denotes (denotes_decoded g hc hs h) hc).1 (isHash_decoded g h t)

theorem flagsOk_decodedRef {c : Tree} (hc : c.Canon) (hs : c.Stored H db)
    (ih : ¬ c.Long H → FlagsOk H db false (decoded H g none c.toNode)) :
    FlagsOk H db false (decodedRef H g c.toNode) := by
  cases hn : c.isNode with
  | false =>
    cases c with
    | nil | value _ => unfold decodedRef; split <;> trivial
    | short | full => simp [Tree.isNode] at hn
  | true =>
    rw [decodedRef_node g (by simpa using hn)]
    split_ifs with hl
    · exact ih (by unfold Tree.Long Tree.enc; omega)
    · trivial

/-- The flags of a node loaded from the database: clean, with the hash it was loaded from
(none for a node embedded in its parent, whose encoding is short). -/
theorem flagsOk_decoded :
    ∀ {t : Tree}, t.Canon → t.Stored H db → ∀ (h : Option Bytes) (root : Bool),
    (∀ x, h = some x → x = H (t.enc H) ∧ (root ∨ t.Long H) ∧ db x = some (t.enc H)) →
    (h = none → root = false ∧ ¬ t.Long H) →
    FlagsOk H db root (decoded H g h t.toNode)
  | .nil, _, _, _, _, _, _ | .value _, _, _, _, _, _, _ => trivial
  | .short k t, hc, hs, h, root, hsome, hnone => by
    have he := encodeNode_collapse_decoded g hc hs h
    rw [Tree.toNode, decoded_short] at he ⊢
    refine ⟨⟨fun x hx => ?_, fun _ => ⟨fun x hx => ?_, fun hl => ?_⟩⟩, fun _ => ?_, ?_⟩
    · obtain ⟨rfl, hr, -⟩ := hsome x hx
      exact ⟨by rw [he], by rw [he]; exact hr⟩
    · rw [he]; exact (hsome x hx).2.2
    · cases h with
      | some x => simp
      | none =>
        obtain ⟨hr, hl'⟩ := hnone rfl
        rw [he] at hl
        simp [hr] at hl
        exact absurd hl hl'
    · split
      · cases t <;> simp_all [Tree.toNode, Node.isValue, Node.dirty]
      · exact dirty_decodedRef g t
    · split
      · cases t <;> simp_all [Tree.toNode, Node.isValue, FlagsOk]
      · exact flagsOk_decodedRef g hc.2.2.2.2 hs.2 fun hl =>
          flagsOk_decoded hc.2.2.2.2 hs.2 none false (fun _ h => by cases h) fun _ => ⟨rfl, hl⟩
  | .full ts, hc, hs, h, root, hsome, hnone => by
    have he := encodeNode_collapse_decoded g hc hs h
    rw [Tree.toNode, decoded_full] at he ⊢
    refine ⟨⟨fun x hx => ?_, fun _ => ⟨fun x hx => ?_, fun hl => ?_⟩⟩, fun _ i => ?_,
      fun i => ?_⟩
    · obtain ⟨rfl, hr, -⟩ := hsome x hx
      exact ⟨by rw [he], by rw [he]; exact hr⟩
    · rw [he]; exact (hsome x hx).2.2
    · cases h with
      | some x => simp
      | none =>
        obtain ⟨hr, hl'⟩ := hnone rfl
        rw [he] at hl
        simp [hr] at hl
        exact absurd hl hl'
    · dsimp only
      split
      · exact dirty_decodedRef g (ts i)
      · split
        · split_ifs <;> rfl
        · rfl
    · dsimp only
      split
      · exact flagsOk_decodedRef g (hc.1 i).1 (hs i).2 fun hl =>
          flagsOk_decoded (hc.1 i).1 (hs i).2 none false (fun _ h => by cases h)
            fun _ => ⟨rfl, hl⟩
      · split
        · split_ifs <;> trivial
        · trivial

end Decoded

/-! ## Unloading -/

/-- `n` is `m` or lies below it in memory, through the children of short and full nodes. -/
inductive Node.Below : Node → Node → Prop
  | refl (n : Node) : Node.Below n n
  | short {n c : Node} (k : List UInt8) (f : NodeFlag) : Node.Below n c → Node.Below n (.short k c f)
  | full {n : Node} {cs : Fin 17 → Node} (f : NodeFlag) (i : Fin 17) :
      Node.Below n (cs i) → Node.Below n (.full cs f)

theorem FlagsOk.below {root : Bool} {m n : Node} (h : FlagsOk H db root m) (hb : n.Below m) :
    ∃ r, FlagsOk H db r n := by
  induction hb generalizing root with
  | refl => exact ⟨root, h⟩
  | short k f _ ih => exact ih h.2.2
  | full f i _ ih => exact ih (h.2.2 i)

theorem NodeFlag.dirty_of_canUnload {f : NodeFlag} {g l : UInt16} (h : f.canUnload g l = true) :
    f.dirty = false := by
  have h' : f.dirty = false ∧ l ≤ g - f.gen := by simpa [NodeFlag.canUnload] using h
  exact h'.1

/-- A node the hasher may unload is clean, and the database holds its collapsed encoding under
its cached hash, whatever the generations. -/
theorem FlagsOk.canUnload {root : Bool} {n : Node} (h : FlagsOk H db root n) {x : Bytes}
    {g l : UInt16} (hx : n.cache.1 = some x) (hu : n.canUnload g l = true) :
    n.dirty = false ∧ db x = some (encodeNode (collapse H n)) := by
  cases n with
  | short k c f =>
    have hd := NodeFlag.dirty_of_canUnload hu
    exact ⟨hd, (h.1.2 hd).1 x hx⟩
  | full cs f =>
    have hd := NodeFlag.dirty_of_canUnload hu
    exact ⟨hd, (h.1.2 hd).1 x hx⟩
  | nil | value _ | hash _ => simp [Node.canUnload] at hu

end Sphinx.Trie
