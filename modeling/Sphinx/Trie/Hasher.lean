import Sphinx.Trie.Node

/-! # The hasher

`hasher.go`: `hash` collapses a node to what its parent holds (its hash node, or the
collapsed node itself when its encoding is short) and returns a copy of the node with
the hash cached; in commit mode (`db != nil`) it writes every node it replaces by a hash
to the database, clears the dirty flags, and unloads clean nodes that were not touched for
`cachelimit` generations. A node with a cached hash is not walked again.

The database is the in-memory one, whose `Put` never fails; the writes come out as a list
`Puts` in the order the source makes them. On nodes whose cached hashes are those of
their collapsed encodings (`CacheOk`), the hasher computes the pure `collapse` and
`refOf` of `Node.lean` (`hash_fst`), so the round trip of `decodeNode` holds for the
collapsed node `hashChildren` builds (`decodeNode_hashChildren`).
-/

namespace Sphinx.Trie

open Rlp

/-- `db.Put(key, value)` calls, in order. -/
abbrev Puts := List (Bytes × Bytes)

/-- A hasher: the trie's cache generation and limit. -/
structure Hasher where
  cachegen : UInt16
  cachelimit : UInt16

/-- `hashed.(hashNode)`: the hash a `store` gave, to be cached. -/
def hashedAs : Node → Option Bytes
  | .hash h => some h
  | _ => none

/-- Caching the hash in the copy `hash` returns, and clearing the dirty flag in commit
mode. -/
def Node.setCache (n : Node) (cachedHash : Option Bytes) (commit : Bool) : Node :=
  match n with
  | .short key val flags =>
    .short key val { flags with hash := cachedHash, dirty := if commit then false else flags.dirty }
  | .full cs flags =>
    .full cs { flags with hash := cachedHash, dirty := if commit then false else flags.dirty }
  | n => n

namespace Hasher

variable (H : Bytes → Bytes) (hs : Hasher) (commit : Bool)

/-- `store`: nil and hash nodes are kept, a node whose encoding is shorter than 32 bytes
stays inside its parent unless `force`, any other is replaced by its hash (the cached one
if there is one) and written in commit mode. -/
def store (n : Node) (force : Bool) : Node × Puts :=
  match n with
  | .nil => (n, [])
  | .hash _ => (n, [])
  | _ =>
    let enc := encodeNode n
    if enc.length < 32 ∧ !force then (n, [])
    else
      let hash := n.cache.1.getD (H enc)
      (.hash hash, if commit then [(hash, enc)] else [])

/-- The start of `hash`: a node with a cached hash is answered from the cache when
hashing only, unloaded when it can be, and kept when it is clean. -/
def useCache (n : Node) : Option (Node × Node × Puts) :=
  match n.cache with
  | (some hash, dirty) =>
    if !commit then some (.hash hash, n, [])
    else if n.canUnload hs.cachegen hs.cachelimit then some (.hash hash, .hash hash, [])
    else if !dirty then some (.hash hash, n, [])
    else none
  | (none, _) => none

/-- `hashChildren` on a short node, given what hashing its child gives; a value child is
left as it is, and a nil one is written as an empty value. -/
def hashChildrenShort (key : List UInt8) (val : Node) (flags : NodeFlag)
    (r : Node × Node × Puts) : Node × Node × Puts :=
  let (cv, cachedV, w) := if val.isValue then (val, val, []) else r
  (.short (hexToCompact key) (if cv.isNil then .value [] else cv) flags,
    .short key cachedV flags, w)

/-- The child `i` of `hashChildren` on a full node: the first sixteen are hashed unless
nil, the value child is copied. -/
def fullKid (cs : Fin 17 → Node) (kids : Fin 17 → Node × Node × Puts) (i : Fin 17) :
    Node × Node × Puts :=
  if i.val < 16 then
    if (cs i).isNil then (.value [], .nil, []) else kids i
  else (if (cs i).isNil then .value [] else cs i, cs i, [])

/-- `hashChildren` on a full node, given what hashing each child gives. -/
def hashChildrenFull (cs : Fin 17 → Node) (flags : NodeFlag)
    (kids : Fin 17 → Node × Node × Puts) : Node × Node × Puts :=
  (.full (fun i => (fullKid cs kids i).1) flags, .full (fun i => (fullKid cs kids i).2.1) flags,
    (List.finRange 17).flatMap fun i => (fullKid cs kids i).2.2)

/-- `hash(n, db, force)`: the node its parent holds, the copy that replaces it, and the
writes. The `Put` of the in-memory database never fails, so the source's error returns
are not reached. -/
def hash (n : Node) (force : Bool) : Node × Node × Puts :=
  match useCache hs commit n with
  | some r => r
  | none =>
    let (collapsed, cached, puts) := match n with
      | .short key val flags => hashChildrenShort key val flags (hash val false)
      | .full cs flags => hashChildrenFull cs flags (fun i => hash (cs i) false)
      | n => (n, n, [])
    let (hashed, w) := store H commit collapsed force
    (hashed, cached.setCache (hashedAs hashed) commit, puts ++ w)

/-- `hashChildren(original, db)`. -/
def hashChildren (original : Node) : Node × Node × Puts :=
  match original with
  | .short key val flags => hashChildrenShort key val flags (hash H hs commit val false)
  | .full cs flags => hashChildrenFull cs flags (fun i => hash H hs commit (cs i) false)
  | n => (n, n, [])

-- The equation lemmas of these definitions are made here, once: the proofs that unfold them
-- run in parallel, and would otherwise each wait for them on a thread of its own.
section
attribute [local simp] useCache store fullKid
end

theorem hash_eq (n : Node) (force : Bool) :
    hash H hs commit n force =
      match useCache hs commit n with
      | some r => r
      | none =>
        let (collapsed, cached, puts) := hashChildren H hs commit n
        let (hashed, w) := store H commit collapsed force
        (hashed, cached.setCache (hashedAs hashed) commit, puts ++ w) := by
  cases n <;> simp only [hash, hashChildren]

/-! ## The hasher computes the collapsed form -/

section Collapsed

theorem isNil_refOf_collapse (c : Node) : (refOf H (collapse H c)).isNil = c.isNil := by
  cases c with
  | nil => rfl
  | hash r => rfl
  | value v => simp only [collapse, refOf]; split_ifs <;> rfl
  | full cs flags => simp only [collapse_full, refOf]; split_ifs <;> rfl
  | short key val flags => simp only [collapse_short, refOf]; split_ifs <;> rfl

theorem hashChildrenShort_fst (key : List UInt8) (val : Node) (flags : NodeFlag)
    (r : Node × Node × Puts) (hr : val.isValue = false → r.1 = refOf H (collapse H val)) :
    (hashChildrenShort key val flags r).1 = collapse H (.short key val flags) := by
  rw [collapse_short]
  cases hv : val.isValue
  · simp [hashChildrenShort, hv, hr hv, isNil_refOf_collapse, childRef]
  · have hn : val.isNil = false := by cases val <;> simp_all [Node.isValue, Node.isNil]
    simp [hashChildrenShort, hv, hn]

theorem hashChildrenFull_fst (cs : Fin 17 → Node) (flags : NodeFlag)
    (kids : Fin 17 → Node × Node × Puts)
    (hk : ∀ i, (kids i).1 = refOf H (collapse H (cs i))) :
    (hashChildrenFull cs flags kids).1 = collapse H (.full cs flags) := by
  rw [collapse_full]
  simp only [hashChildrenFull, Node.full.injEq, and_true]
  funext i
  simp only [fullKid, collapsedChild, childRef]
  split_ifs <;> simp_all

theorem cache_collapse (n : Node) : (collapse H n).cache = n.cache := by
  cases n <;> rfl

theorem useCache_fst {n : Node} {r : Node × Node × Puts} (h : useCache hs commit n = some r) :
    ∃ x, n.cache.1 = some x ∧ r.1 = .hash x := by
  unfold useCache at h
  split at h
  · rename_i x dirty hc
    refine ⟨x, by rw [hc], ?_⟩
    split_ifs at h <;> cases h <;> rfl
  · cases h

theorem store_fst_cached {n : Node} {x : Bytes} (hn : n.isNode = true)
    (hc : n.cache.1 = some x) (hlen : 32 ≤ (encodeNode n).length) (force : Bool) :
    (store H commit n force).1 = .hash x := by
  have hne : ¬ ((encodeNode n).length < 32 ∧ (!force) = true) := fun h => by omega
  cases n with
  | full cs flags =>
    simp only [store]
    rw [if_neg hne]
    simp_all [Node.cache]
  | short key val flags =>
    simp only [store]
    rw [if_neg hne]
    simp_all [Node.cache]
  | _ => simp [Node.isNode] at hn

theorem store_fst_fresh {n : Node} (hn : n.isNode = true) (hc : n.cache.1 = none) :
    (store H commit n false).1 = refOf H n := by
  cases n with
  | full cs flags => simp_all [Node.cache, store, refOf]; split_ifs <;> rfl
  | short key val flags => simp_all [Node.cache, store, refOf]; split_ifs <;> rfl
  | _ => simp [Node.isNode] at hn

end Collapsed

/-- The cached hash of a node is the hash of its collapsed encoding, which is long enough
for the node to be held by hash. -/
def HashOk (H : Bytes → Bytes) (n : Node) : Prop :=
  ∀ x, n.cache.1 = some x →
    x = H (encodeNode (collapse H n)) ∧ 32 ≤ (encodeNode (collapse H n)).length

/-- Every cached hash in a node held by a parent is right (`HashOk`). -/
def CacheOk (H : Bytes → Bytes) : Node → Prop
  | .full cs flags => HashOk H (.full cs flags) ∧ ∀ i, CacheOk H (cs i)
  | .short key val flags => HashOk H (.short key val flags) ∧ CacheOk H val
  | _ => True

section Collapsed

theorem hash_fst_node {n : Node} (hn : n.isNode = true) (hok : HashOk H n)
    (hch : (hashChildren H hs commit n).1 = collapse H n) :
    (hash H hs commit n false).1 = refOf H (collapse H n) := by
  have hm := isNode_collapse H hn
  rw [hash_eq, refOf_node H hm]
  cases hu : useCache hs commit n with
  | some r =>
    obtain ⟨x, hx, hr⟩ := useCache_fst hs commit hu
    obtain ⟨rfl, hlen⟩ := hok x hx
    simp [hr, Nat.not_lt.mpr hlen]
  | none =>
    simp only
    rw [hch]
    cases hc : n.cache.1 with
    | some x =>
      obtain ⟨rfl, hlen⟩ := hok x hc
      rw [store_fst_cached H commit hm (by rw [cache_collapse, hc]) hlen, if_neg (by omega)]
    | none =>
      rw [store_fst_fresh H commit hm (by rw [cache_collapse, hc]), refOf_node H hm]

theorem hash_fst : ∀ n, CacheOk H n → (hash H hs commit n false).1 = refOf H (collapse H n)
  | .nil, _ => rfl
  | .hash r, _ => rfl
  | .value v, _ => by
    simp only [hash, useCache, Node.cache, collapse, refOf, store]
    split_ifs <;> simp_all
  | .full cs flags, ⟨hok, hcs⟩ =>
    hash_fst_node H hs commit rfl hok
      (hashChildrenFull_fst H cs flags _ fun i => hash_fst (cs i) (hcs i))
  | .short key val flags, ⟨hok, hv⟩ =>
    hash_fst_node H hs commit rfl hok
      (hashChildrenShort_fst H key val flags _ fun _ => hash_fst val hv)

end Collapsed

/-- The children of a node have consistent caches. -/
def ChildrenCacheOk (H : Bytes → Bytes) : Node → Prop
  | .full cs _ => ∀ i, CacheOk H (cs i)
  | .short _ val _ => CacheOk H val
  | _ => True

section Collapsed

theorem hashChildren_fst {n : Node} (hc : ChildrenCacheOk H n) :
    (hashChildren H hs commit n).1 = collapse H n := by
  cases n with
  | full cs flags =>
    exact hashChildrenFull_fst H cs flags _ fun i => hash_fst H hs commit (cs i) (hc i)
  | short key val flags =>
    exact hashChildrenShort_fst H key val flags _ fun _ => hash_fst H hs commit val hc
  | nil => rfl
  | hash r => rfl
  | value v => rfl

end Collapsed

end Hasher

/-! ## Node encoding round trip -/

open Hasher in
/-- Decoding the encoding of the collapsed node `hashChildren` builds gives back the
node, with the children it holds by hash as hash nodes, the key in hex form and an
absent value as nil (`decoded`); and `decodeNode` refuses a node with a child reference that
is an embedded node longer than a hash or a string neither empty nor of the length of a hash,
in a short node or at any child of a full node after children it reads, and at any depth of
embedded nodes (`Refuses`). -/
theorem decodeNode_hashChildren (H : Bytes → Bytes) (hH : ∀ x, (H x).length = 32)
    (hs : Hasher) (commit : Bool) (cachegen : UInt16) {n : Node} (hw : WellFormed n)
    (hn : n.isNode = true) (hc : ChildrenCacheOk H n)
    (h64 : (encodeNode (hashChildren H hs commit n).1).length < 2 ^ 64) (h : Option Bytes) :
    decodeNode h (encodeNode (hashChildren H hs commit n).1) cachegen =
        some (.ok (decoded H cachegen h n)) ∧
      (∀ kbuf key r e, compactToHex kbuf = some key → hasTerm key = false →
        Refuses cachegen r e → (encString kbuf ++ r).length < 2 ^ 64 →
        decodeNode h (encList (encString kbuf ++ r)) cachegen =
          some (.error (wrapError (wrapError e .val) .short))) ∧
      (∀ (pre : List Bytes) (ns : List Node) r post e,
        List.Forall₂ (GoodRef cachegen) pre ns → pre.length < 16 → Refuses cachegen r e →
        Raw.countValues (pre.flatten ++ r ++ post) = some (.ok 17) →
        (pre.flatten ++ r ++ post).length < 2 ^ 64 →
        decodeNode h (encList (pre.flatten ++ r ++ post)) cachegen =
          some (.error (wrapError (wrapError e (.child pre.length)) .full))) := by
  rw [hashChildren_fst H hs commit hc] at h64 ⊢
  refine ⟨decodeNode_collapse H cachegen hH hw hn h64 h, ?_, ?_⟩
  · intro kbuf key r e hk ht hr hl
    exact decodeNode_short_refuses cachegen hk ht hr hl h
  · intro pre ns r post e hpre hi hr hcount hl
    exact decodeNode_full_refuses cachegen hpre hi hr hcount hl h

/-- A short node holding a value, with a hash that pads its input to 32 bytes. -/
theorem decodeNode_hashChildren_leaf :
    let H : Bytes → Bytes := fun x => (x ++ List.replicate 32 0).take 32
    let n : Node := .short [1, 16] (.value [5]) ⟨none, 0, true⟩
    WellFormed n ∧ n.isNode = true ∧ Hasher.ChildrenCacheOk H n ∧
      decodeNode none (encodeNode (Hasher.hashChildren H ⟨0, 0⟩ false n).1) 0 =
        some (.ok (decoded H 0 none n)) := by
  intro H n
  have hw : WellFormed n := ⟨Or.inr ⟨[1], by decide, by decide⟩, by decide, by decide, trivial⟩
  have hH : ∀ x, (H x).length = 32 := fun x => by
    simp only [H, List.length_take, List.length_append, List.length_replicate]
    omega
  exact ⟨hw, rfl, trivial,
    (decodeNode_hashChildren H hH ⟨0, 0⟩ false 0 hw rfl trivial (by decide) none).1⟩

end Sphinx.Trie
