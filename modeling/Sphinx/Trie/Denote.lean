import Sphinx.Rlp.Complete
import Sphinx.Trie.Trie
import Sphinx.Trie.Tree

/-! # The tree a node denotes

A node in memory stands for a `Tree`: its hash nodes stand for the trees stored under their
hashes. A tree is stored under the hash of the encoding of its collapsed node (`Tree.enc`);
a parent holds a child by hash when that encoding is 32 bytes or longer (`Tree.Long`).
`Stored H db t` says that every node of `t` held by hash is in the database, and
`Denotes H db n t` that the node `n` stands for `t`, each of its hash nodes naming a stored
tree. Both only need entries of the database, so they survive its growth (`Db.Extends`).

Loading a hash node gives back a node that denotes the same tree (`resolveHash_denotes`),
by the round trip of `decodeNode`; and the collapsed encoding of a node in memory is the
one of the tree it denotes (`encodeNode_collapse_of_denotes`), so the hasher, which walks
the node in memory, computes the hash of the tree.
-/

namespace Sphinx.Trie

open Rlp

/-- The database `db'` keeps every entry of `db`. -/
def Db.Extends (db db' : Db) : Prop :=
  ∀ k v, db k = some v → db' k = some v

theorem Db.Extends.refl (db : Db) : db.Extends db := fun _ _ h => h

namespace Tree

/-- The node of a tree, with the flags of a clean node without a cached hash. -/
def toNode : Tree → Node
  | nil => .nil
  | value v => .value v
  | short k t => .short k t.toNode ⟨none, 0, false⟩
  | full ts => .full (fun i => (ts i).toNode) ⟨none, 0, false⟩

/-- Full and short nodes. -/
def isNode : Tree → Bool
  | short _ _ | full _ => true
  | _ => false

@[simp] theorem isNil_toNode (t : Tree) : t.toNode.isNil = t.isNil := by
  cases t <;> rfl

@[simp] theorem isValue_toNode (t : Tree) : t.toNode.isValue = t.isValue := by
  cases t <;> rfl

@[simp] theorem isNode_toNode (t : Tree) : t.toNode.isNode = t.isNode := by
  cases t <;> rfl

section Encoding

variable (H : Bytes → Bytes)

/-- The encoding a tree is stored under: that of its collapsed node. -/
def enc (t : Tree) : Bytes :=
  encodeNode (collapse H t.toNode)

/-- The encoding is too long to sit inside the parent, which holds its hash instead. -/
def Long (t : Tree) : Prop :=
  32 ≤ (t.enc H).length

/-- The tree is in the database under its hash. -/
def InDb (db : Db) (t : Tree) : Prop :=
  db (H (t.enc H)) = some (t.enc H)

/-- Every node of the tree that its parent holds by hash is in the database. -/
def Stored (db : Db) : Tree → Prop
  | short _ t => (t.isNode → t.Long H → t.InDb H db) ∧ Stored db t
  | full ts => ∀ i, ((ts i).isNode → (ts i).Long H → (ts i).InDb H db) ∧ Stored db (ts i)
  | _ => True

end Encoding

/-- Values and keys short enough for the RLP headers of their nodes. -/
def Fits : Tree → Prop
  | value v => v.length < 2 ^ 62
  | short k t => k.length < 2 ^ 62 ∧ Fits t
  | full ts => ∀ i, Fits (ts i)
  | nil => True

/-- A canonical tree with bounded keys and values fits: the key of a short node starts a key
of the tree. -/
theorem Canon.fits : ∀ {t : Tree}, t.Canon → t.Bounded → t.Fits
  | nil, _, _ => trivial
  | value v, _, hb => (hb [] v rfl).2
  | short k c, hc, hb => by
    have hn : c.isNil = false := by
      rcases hc.2.2.2.1 with h | h <;> cases c <;> simp_all [isValue, isFull, isNil]
    obtain ⟨key, hkey⟩ := Canon.exists_key hc.2.2.2.2 hn
    obtain ⟨w, hw⟩ := Option.isSome_iff_exists.mp hkey
    have hlen := (hb (k ++ key) w (by rw [lookup_short_append]; exact hw)).1
    refine ⟨by simp only [List.length_append] at hlen; omega, Canon.fits hc.2.2.2.2 fun k' w' h => ?_⟩
    have := hb (k ++ k') w' (by rw [lookup_short_append]; exact h)
    simp only [List.length_append] at this
    omega
  | full ts, hc, hb => fun i => Canon.fits (hc.1 i).1 fun k' w' h => by
    have := hb (i.val.toUInt8 :: k') w' (by rw [lookup_full_fin]; exact h)
    simp only [List.length_cons] at this
    omega

end Tree

variable (H : Bytes → Bytes)

/-- The node `n` stands for the tree `t`: in memory it has the shape of `t`, a hash node
names a full or short tree stored under it, and a child held by hash is long. -/
def Denotes (db : Db) : Node → Tree → Prop
  | .nil, .nil => True
  | .value v, .value w => v = w
  | .short k c _, .short k' t => k = k' ∧ Denotes db c t ∧ (c.isHash → t.Long H)
  | .full cs _, .full ts => ∀ i, Denotes db (cs i) (ts i) ∧ ((cs i).isHash → (ts i).Long H)
  | .hash h, t => t.isNode ∧ t.Stored H db ∧ t.InDb H db ∧ H (t.enc H) = h
  | _, _ => False

variable {H}

-- The equation lemmas of these definitions are made here, once: the proofs that unfold them
-- run in parallel, and would otherwise each wait for them on a thread of its own.
section
attribute [local simp] Denotes
end

/-! ## Growth of the database -/

section Mono

variable {db db' : Db} (hdb : db.Extends db')
include hdb

theorem Tree.InDb.mono {t : Tree} (h : t.InDb H db) : t.InDb H db' :=
  hdb _ _ h

theorem Tree.Stored.mono : ∀ {t : Tree}, t.Stored H db → t.Stored H db'
  | .short _ _, ⟨hin, hs⟩ => ⟨fun hn hl => (hin hn hl).mono hdb, Stored.mono hs⟩
  | .full _, h => fun i => ⟨fun hn hl => ((h i).1 hn hl).mono hdb, Stored.mono (h i).2⟩
  | .nil, _ => trivial
  | .value _, _ => trivial

theorem Denotes.mono : ∀ {n : Node} {t : Tree}, Denotes H db n t → Denotes H db' n t
  | .nil, .nil, _ => trivial
  | .value _, .value _, h => h
  | .short _ _ _, .short _ _, ⟨hk, hc, hl⟩ => ⟨hk, Denotes.mono hc, hl⟩
  | .full _ _, .full _, h => fun i => ⟨Denotes.mono (h i).1, (h i).2⟩
  | .hash _, _, ⟨hn, hs, hin, hh⟩ => ⟨hn, hs.mono hdb, hin.mono hdb, hh⟩

end Mono

theorem Denotes.isNil_eq {db : Db} : ∀ {n : Node} {t : Tree}, Denotes H db n t →
    n.isNil = t.isNil
  | .nil, .nil, _ | .value _, .value _, _ | .short _ _ _, .short _ _, _
  | .full _ _, .full _, _ => rfl
  | .hash _, .short _ _, _ | .hash _, .full _, _ => rfl
  | .hash _, .nil, ⟨hn, _⟩ | .hash _, .value _, ⟨hn, _⟩ => by simp [Tree.isNode] at hn

theorem Denotes.isValue_eq {db : Db} : ∀ {n : Node} {t : Tree}, Denotes H db n t →
    n.isValue = t.isValue
  | .nil, .nil, _ | .value _, .value _, _ | .short _ _ _, .short _ _, _
  | .full _ _, .full _, _ => rfl
  | .hash _, .short _ _, _ | .hash _, .full _, _ => rfl
  | .hash _, .nil, ⟨hn, _⟩ | .hash _, .value _, ⟨hn, _⟩ => by simp [Tree.isNode] at hn

/-! ## Nodes in memory by kind -/

section Inversion

variable {db : Db} {t : Tree}

theorem Denotes.nil_inv (h : Denotes H db .nil t) : t = .nil := by
  cases t <;> simp_all [Denotes]

theorem Denotes.value_inv {v : Bytes} (h : Denotes H db (.value v) t) : t = .value v := by
  cases t <;> simp_all [Denotes]

theorem Denotes.short_inv {k : List UInt8} {c : Node} {f : NodeFlag}
    (h : Denotes H db (.short k c f) t) :
    ∃ ct, t = .short k ct ∧ Denotes H db c ct ∧ (c.isHash → ct.Long H) := by
  cases t with
  | short k' ct =>
    obtain ⟨rfl, hc, hl⟩ := h
    exact ⟨ct, rfl, hc, hl⟩
  | _ => simp [Denotes] at h

theorem Denotes.full_inv {cs : Fin 17 → Node} {f : NodeFlag} (h : Denotes H db (.full cs f) t) :
    ∃ ts, t = .full ts ∧ ∀ i, Denotes H db (cs i) (ts i) ∧ ((cs i).isHash → (ts i).Long H) := by
  cases t with
  | full ts => exact ⟨ts, rfl, h⟩
  | _ => simp [Denotes] at h

end Inversion

/-! ## Canonical trees decode -/

/-- A canonical tree's node is one `decodeNode` reads back. -/
theorem Tree.Canon.wellFormed : ∀ {t : Tree}, t.Canon → WellFormed t.toNode
  | .nil, _ => trivial
  | .value _, _ => trivial
  | .short k t, ⟨_, hk, ht, hvf, hc⟩ => by
    refine ⟨hk, by simpa using ht, ?_, hc.wellFormed⟩
    rcases hvf with h | h <;> cases t <;> simp_all [Tree.isValue, Tree.isFull, Tree.toNode,
      Node.isNil]
  | .full ts, ⟨hcs, _⟩ => by
    refine ⟨fun i hi => ⟨by simpa using (hcs i).2.1 hi, (hcs i).1.wellFormed⟩, ?_⟩
    simpa using (hcs 16).2.2 rfl

theorem length_decodeNibbles_le : ∀ l : List UInt8, (decodeNibbles l).length ≤ l.length
  | _ :: _ :: rest => by
    simp only [decodeNibbles, List.length_cons]
    have := length_decodeNibbles_le rest
    omega
  | [] => by simp [decodeNibbles]
  | [_] => by simp [decodeNibbles]

theorem length_hexToCompact_le (k : List UInt8) : (hexToCompact k).length ≤ k.length + 1 := by
  have hgen : ∀ hex : List UInt8, hex.length ≤ k.length → ∀ a b : UInt8,
      (if hex.length % 2 = 1 then a :: decodeNibbles hex.tail else b :: decodeNibbles hex).length
        ≤ k.length + 1 := by
    intro hex hl a b
    have h1 := length_decodeNibbles_le hex.tail
    have h2 := length_decodeNibbles_le hex
    have ht : hex.tail.length = hex.length - 1 := List.length_tail
    split <;> simp only [List.length_cons] <;> omega
  unfold hexToCompact
  by_cases hT : hasTerm k = true
  · simp only [hT, if_true]
    exact hgen _ (by simp) _ _
  · simp only [hT, Bool.false_eq_true, if_false]
    exact hgen _ le_rfl _ _

theorem length_encString_le {b : Bytes} (h : b.length < 2 ^ 64) :
    (encString b).length ≤ b.length + 9 :=
  (length_encString_bounds h).2

section Lengths

variable (hH : ∀ x, (H x).length = 32)
include hH

theorem length_encString_hash (x : Bytes) : (encString (H x)).length = 33 := by
  unfold encString
  split
  · rename_i c hc
    have := hH x
    rw [hc] at this
    simp at this
  · simp [puthead, hH]

theorem length_childRef_le (t : Tree) : (encodeNode (childRef H t.toNode)).length ≤ 33 := by
  cases t with
  | nil => simp [childRef, Tree.toNode, Node.isNil, encodeNode, encString, puthead]
  | value v =>
    simp only [childRef, Tree.toNode, Node.isNil, Bool.false_eq_true, if_false, collapse, refOf]
    split
    · omega
    · simp only [encodeNode, length_encString_hash hH]; omega
  | short k t =>
    have hm : (collapse H (.short k t.toNode ⟨none, 0, false⟩)).isNode = true := rfl
    simp only [childRef, Tree.toNode, Node.isNil, Bool.false_eq_true, if_false]
    rw [refOf_node H hm]
    split
    · omega
    · simp only [encodeNode, length_encString_hash hH]; omega
  | full ts =>
    have hm : (collapse H (.full (fun i => (ts i).toNode) ⟨none, 0, false⟩)).isNode = true := rfl
    simp only [childRef, Tree.toNode, Node.isNil, Bool.false_eq_true, if_false]
    rw [refOf_node H hm]
    split
    · omega
    · simp only [encodeNode, length_encString_hash hH]; omega

/-- The encoding of a canonical tree whose values and keys fit is one RLP can frame. -/
theorem Tree.length_enc_lt {t : Tree} (hc : t.Canon) (hf : t.Fits) : (t.enc H).length < 2 ^ 64 := by
  cases t with
  | nil => simp [Tree.enc, Tree.toNode, collapse, encodeNode]
  | value v =>
    have hv : v.length < 2 ^ 62 := hf
    have := length_encString_le (b := v) (by omega)
    simp only [Tree.enc, Tree.toNode, collapse, encodeNode]
    omega
  | short k t =>
    obtain ⟨hk, ht⟩ := hf
    have hkey := length_hexToCompact_le k
    have hks := length_encString_le (b := hexToCompact k) (by omega)
    have hval : (encodeNode (if t.toNode.isValue then t.toNode else childRef H t.toNode)).length
        ≤ 2 ^ 62 + 33 := by
      split
      · cases t with
        | value v =>
          simp only [Tree.Fits] at ht
          have := length_encString_le (b := v) (by omega)
          simp only [Tree.toNode, encodeNode]
          omega
        | _ => simp_all [Tree.toNode, Node.isValue]
      · have := length_childRef_le hH t
        omega
    have hp : (encString (hexToCompact k) ++ encodeNode (if t.toNode.isValue then t.toNode
        else childRef H t.toNode)).length < 2 ^ 64 := by
      rw [List.length_append]
      omega
    have := (length_encList_bounds hp).2
    rw [List.length_append] at this
    simp only [Tree.enc, Tree.toNode, collapse_short, encodeNode]
    omega
  | full ts =>
    have hi : ∀ i ∈ List.finRange 17,
        (encodeNode (collapsedChild H (fun i => (ts i).toNode) i)).length
          ≤ if i.val < 16 then 33 else 2 ^ 62 + 9 := by
      intro i _
      by_cases hi : i.val < 16
      · simp only [collapsedChild, hi, if_true]
        exact length_childRef_le hH (ts i)
      · simp only [collapsedChild, hi, if_false]
        rcases (hc.1 i).2.2 (by omega) with h | h
        · simp [h, encodeNode, encString, puthead]
        · cases hts : ts i with
          | value v =>
            have hv : v.length < 2 ^ 62 := by simpa [hts, Tree.Fits] using hf i
            have := length_encString_le (b := v) (by omega)
            simp only [Tree.toNode, Node.isNil, Bool.false_eq_true, if_false, encodeNode]
            omega
          | _ => simp [hts, Tree.isValue] at h
    have hsum := List.sum_le_sum hi
    have hbound : ((List.finRange 17).map fun i : Fin 17 =>
        if i.val < 16 then 33 else 2 ^ 62 + 9).sum = 16 * 33 + (2 ^ 62 + 9) := by
      decide
    have hlen : ((List.finRange 17).flatMap fun i =>
        encodeNode (collapsedChild H (fun i => (ts i).toNode) i)).length ≤
          16 * 33 + (2 ^ 62 + 9) := by
      rw [List.length_flatMap]
      omega
    have := (length_encList_bounds (by omega : ((List.finRange 17).flatMap fun i =>
        encodeNode (collapsedChild H (fun i => (ts i).toNode) i)).length < 2 ^ 64)).2
    simp only [Tree.enc, Tree.toNode, collapse_full, encodeNode]
    omega

end Lengths

/-! ## Loading a hash node -/

section Decode

variable {db : Db} (g : UInt16)

theorem denotes_decodedRef {c : Tree} (hs : c.Stored H db)
    (hin : c.isNode → c.Long H → c.InDb H db) (hv : c.isValue = false)
    (ih : c.isNode → Denotes H db (decoded H g none c.toNode) c) :
    Denotes H db (decodedRef H g c.toNode) c ∧
      ((decodedRef H g c.toNode).isHash → c.Long H) := by
  cases hn : c.isNode with
  | false =>
    cases c with
    | nil => exact ⟨trivial, by simp [decodedRef, refOf, collapse, Tree.toNode, decoded,
        Node.isHash]⟩
    | value v => simp [Tree.isValue] at hv
    | _ => simp [Tree.isNode] at hn
  | true =>
    have hm := isNode_collapse H (show c.toNode.isNode = true by simpa using hn)
    by_cases hl : c.Long H
    · have href : refOf H (collapse H c.toNode) = .hash (H (c.enc H)) := by
        rw [refOf_node H hm, if_neg (by unfold Tree.Long Tree.enc at hl; omega)]
        rfl
      rw [decodedRef_of_hash H g href]
      exact ⟨⟨hn, hs, hin hn hl, rfl⟩, fun _ => hl⟩
    · have href : (refOf H (collapse H c.toNode)).isHash = false := by
        rw [refOf_node H hm, if_pos (by unfold Tree.Long Tree.enc at hl; omega)]
        cases hc : collapse H c.toNode <;> simp_all [Node.isNode, Node.isHash]
      rw [decodedRef_of_embedded H g href]
      refine ⟨ih hn, fun h => ?_⟩
      cases c <;> simp_all [Tree.isNode, Tree.toNode, decoded, Node.isHash]

/-- Decoding the stored encoding of a canonical tree gives a node that denotes it. -/
theorem denotes_decoded : ∀ {t : Tree}, t.Canon → t.Stored H db → ∀ h,
    Denotes H db (decoded H g h t.toNode) t
  | .nil, _, _, _ => trivial
  | .value _, _, _, _ => rfl
  | .short k t, hc, ⟨hin, hs⟩, h => by
    rw [Tree.toNode, decoded_short]
    refine ⟨rfl, ?_⟩
    by_cases hv : t.isValue
    · cases t with
      | value v => simp [Tree.toNode, Node.isValue, Denotes, Node.isHash]
      | _ => simp [Tree.isValue] at hv
    · simp only [Tree.isValue_toNode, hv, Bool.false_eq_true, if_false]
      exact denotes_decodedRef g hs hin (by simpa using hv)
        fun _ => denotes_decoded hc.2.2.2.2 hs none
  | .full ts, hc, hs, h => by
    rw [Tree.toNode, decoded_full]
    intro i
    by_cases hi : i.val < 16
    · simp only [hi, if_true]
      exact denotes_decodedRef g (hs i).2 (hs i).1 ((hc.1 i).2.1 hi)
        fun _ => denotes_decoded (hc.1 i).1 (hs i).2 none
    · simp only [hi, if_false]
      rcases (hc.1 i).2.2 (by omega) with hn | hv
      · cases hts : ts i <;> simp_all [Tree.isNil, Tree.toNode, Denotes, Node.isHash]
      · cases hts : ts i with
        | value v =>
          have hne : v ≠ [] := by simpa [hts, Tree.Canon] using (hc.1 i).1
          have hpos : v.length > 0 := List.length_pos_iff.mpr hne
          simp [Tree.toNode, hpos, Denotes, Node.isHash]
        | _ => simp [hts, Tree.isValue] at hv

variable (hH : ∀ x, (H x).length = 32)
include hH

/-- `resolveHash` loads a node that denotes the tree a hash node names. -/
theorem resolveHash_denotes {h : Bytes} {t : Tree} (hD : Denotes H db (.hash h) t)
    (hc : t.Canon) (hf : t.Fits) (tr : Trie) (pfx : List UInt8) :
    tr.resolveHash db h pfx = some (.ok (decoded H tr.cachegen (some h) t.toNode)) := by
  obtain ⟨hn, -, hin, rfl⟩ := hD
  have hin' : db (H (t.enc H)) = some (t.enc H) := hin
  have hdec : decodeNode (some (H (t.enc H))) (t.enc H) tr.cachegen =
      some (.ok (decoded H tr.cachegen (some (H (t.enc H))) t.toNode)) :=
    decodeNode_collapse H tr.cachegen hH hc.wellFormed (by simpa using hn)
      (Tree.length_enc_lt hH hc hf) _
  simp only [Trie.resolveHash, hin', hdec]

end Decode

/-! ## The collapsed encoding of a node in memory -/

section Shallow

variable {db : Db}

theorem encodeNode_refOf_congr {m m' : Node} (hm : m.isNode = true) (hm' : m'.isNode = true)
    (h : encodeNode m = encodeNode m') : encodeNode (refOf H m) = encodeNode (refOf H m') := by
  rw [refOf_node H hm, refOf_node H hm', h]
  split <;> simp [h]

/-- The collapsed encoding of a node in memory, and the reference its parent holds, are
those of the tree it denotes. -/
theorem encodeNode_collapse_of_denotes : ∀ {n : Node} {t : Tree}, Denotes H db n t → t.Canon →
    (n.isHash = false → encodeNode (collapse H n) = t.enc H) ∧
      ((n.isHash → t.Long H) → encodeNode (childRef H n) = encodeNode (childRef H t.toNode))
  | .nil, .nil, _, _ => ⟨fun _ => rfl, fun _ => rfl⟩
  | .value _, .value _, rfl, _ => ⟨fun _ => rfl, fun _ => rfl⟩
  | .hash h, t, ⟨hn, _, _, hh⟩, _ => by
    refine ⟨fun h => by simp [Node.isHash] at h, fun hl => ?_⟩
    have hl' := hl rfl
    have hm := isNode_collapse H (show t.toNode.isNode = true by simpa using hn)
    have hnil : t.toNode.isNil = false := by
      cases t <;> simp_all [Tree.isNode, Tree.toNode, Node.isNil]
    have hrhs : childRef H t.toNode = .hash (H (t.enc H)) := by
      rw [childRef, if_neg (by rw [hnil]; decide), refOf_node H hm,
        if_neg (by unfold Tree.Long Tree.enc at hl'; omega)]
      rfl
    rw [hrhs, hh]
    rfl
  | .short k c f, .short k' t, ⟨hk, hc, hl⟩, hcan => by
    subst hk
    have ih := encodeNode_collapse_of_denotes hc hcan.2.2.2.2
    have hval : encodeNode (if c.isValue then c else childRef H c) =
        encodeNode (if t.toNode.isValue then t.toNode else childRef H t.toNode) := by
      rw [Tree.isValue_toNode, ← hc.isValue_eq]
      split
      · cases c with
        | value v => cases t <;> simp_all [Denotes, Tree.toNode]
        | _ => simp [Node.isValue] at *
      · exact ih.2 hl
    have hcol : encodeNode (collapse H (.short k c f)) = (Tree.short k t).enc H := by
      simp only [Tree.enc, Tree.toNode, collapse_short, encodeNode, hval]
    refine ⟨fun _ => hcol, fun _ => ?_⟩
    have hm : (collapse H (.short k c f)).isNode = true := rfl
    have hm' : (collapse H (Tree.short k t).toNode).isNode = true := rfl
    simp only [childRef, Node.isNil, Bool.false_eq_true, if_false, Tree.toNode]
    exact encodeNode_refOf_congr hm hm' hcol
  | .full cs f, .full ts, h, hcan => by
    have hchild : ∀ i, encodeNode (collapsedChild H cs i) =
        encodeNode (collapsedChild H (fun i => (ts i).toNode) i) := fun i => by
      unfold collapsedChild
      split
      · exact (encodeNode_collapse_of_denotes (h i).1 (hcan.1 i).1).2 (h i).2
      · rw [Tree.isNil_toNode, ← (h i).1.isNil_eq]
        split
        · rfl
        · have hd := (h i).1
          rcases (hcan.1 i).2.2 (by omega) with hv | hv <;>
            cases hcs : cs i <;> cases hts : ts i <;>
            simp_all [Denotes, Tree.toNode, Tree.isNil, Tree.isValue, Tree.isNode]
    have hcol : encodeNode (collapse H (.full cs f)) = (Tree.full ts).enc H := by
      simp only [Tree.enc, Tree.toNode, collapse_full, encodeNode, hchild]
    refine ⟨fun _ => hcol, fun _ => ?_⟩
    have hm : (collapse H (.full cs f)).isNode = true := rfl
    have hm' : (collapse H (Tree.full ts).toNode).isNode = true := rfl
    simp only [childRef, Node.isNil, Bool.false_eq_true, if_false, Tree.toNode]
    exact encodeNode_refOf_congr hm hm' hcol
  | .nil, .value _, h, _ | .nil, .short _ _, h, _ | .nil, .full _, h, _ => by simp [Denotes] at h
  | .value _, .nil, h, _ | .value _, .short _ _, h, _ | .value _, .full _, h, _ => by
    simp [Denotes] at h
  | .short _ _ _, .nil, h, _ | .short _ _ _, .value _, h, _ | .short _ _ _, .full _, h, _ => by
    simp [Denotes] at h
  | .full _ _, .nil, h, _ | .full _ _, .value _, h, _ | .full _ _, .short _ _, h, _ => by
    simp [Denotes] at h

end Shallow

end Sphinx.Trie
