import Sphinx.Trie.Walk

/-! # Hashing and committing a trie

`hash` of `hasher.go` over a root that denotes a canonical tree: it returns the hash of the
tree's encoding, and a copy of the root with hashes cached that denotes the same tree; in
commit mode it writes every node it hashes under its hash, clears the dirty flags and
unloads clean nodes to hash nodes, and the copy then denotes the tree in the database with
the writes made (`hash_cached`). The flags say what unloading needs: a node that can be
unloaded is clean, and a clean node is in the database under its cached hash, with all that
it holds by hash (`stored_of_clean`).

The database is the in-memory one, whose `Put` overwrites. The writes keep every entry of
the database and hold after the commit unless one of them overwrites an entry, or an
earlier write of the same commit, with a different value (`Overwrites`): under a key that
is the hash of each value, that is a collision of the hash.
-/

namespace Sphinx.Trie

open Rlp Sphinx.Trie.Tree Hasher

variable {H : Bytes → Bytes} {db : Db}

/-! ## Writes to the database -/

/-- A write of `puts` replaces an entry of `db`, or another write of `puts`, by a different
value. -/
def Overwrites (db : Db) (puts : Puts) : Prop :=
  ∃ p ∈ puts, ∃ e, (db p.1 = some e ∨ (p.1, e) ∈ puts) ∧ e ≠ p.2

theorem Db.putAll_cons (db : Db) (p : Bytes × Bytes) (puts : Puts) :
    db.putAll (p :: puts) = (db.put p.1 p.2).putAll puts := rfl

theorem Db.putAll_of_forall {k : Bytes} :
    ∀ {puts : Puts} {db : Db}, (∀ p ∈ puts, p.1 ≠ k) → db.putAll puts k = db k
  | [], _, _ => rfl
  | p :: puts, db, h => by
    rw [Db.putAll_cons, Db.putAll_of_forall fun q hq => h q (List.mem_cons_of_mem p hq)]
    simp [Db.put, Ne.symm (h p List.mem_cons_self)]

theorem Db.putAll_of_mem {k v : Bytes} :
    ∀ {puts : Puts} {db : Db}, (∀ e, (k, e) ∈ puts → e = v) → (k, v) ∈ puts →
      db.putAll puts k = some v
  | [], _, _, hm => by cases hm
  | p :: puts, db, h, hm => by
    rw [Db.putAll_cons]
    by_cases hv : (k, v) ∈ puts
    · exact Db.putAll_of_mem (fun e he => h e (List.mem_cons_of_mem p he)) hv
    · have hp : p = (k, v) := by
        rcases List.mem_cons.1 hm with h' | h'
        · exact h'.symm
        · exact absurd h' hv
      subst hp
      rw [Db.putAll_of_forall fun q hq hqk => hv (by
        have := h q.2 (List.mem_cons_of_mem _ (hqk ▸ hq))
        rw [← this, ← hqk]
        exact hq)]
      simp [Db.put]

theorem Db.extends_putAll {puts : Puts} (h : ¬ Overwrites db puts) : db.Extends (db.putAll puts) := by
  intro k v hk
  by_cases hw : ∃ e, (k, e) ∈ puts
  · have hall : ∀ e, (k, e) ∈ puts → e = v := fun e he => by
      by_contra hne
      exact h ⟨(k, e), he, v, .inl hk, Ne.symm hne⟩
    obtain ⟨e, he⟩ := hw
    exact Db.putAll_of_mem hall (hall e he ▸ he)
  · rw [Db.putAll_of_forall fun p hp hpk => hw ⟨p.2, by rw [← hpk]; exact hp⟩]
    exact hk

theorem Db.putAll_holds {puts : Puts} (h : ¬ Overwrites db puts) :
    ∀ p ∈ puts, db.putAll puts p.1 = some p.2 := by
  intro p hp
  refine Db.putAll_of_mem (fun e he => ?_) hp
  by_contra hne
  exact h ⟨p, hp, e, .inr he, hne⟩

/-- Every entry of the database is stored under the hash of its bytes, as the hasher writes
them. -/
def DbOk (H : Bytes → Bytes) (db : Db) : Prop :=
  ∀ k e, db k = some e → k = H e

theorem DbOk.putAll : ∀ {db : Db} {puts : Puts}, DbOk H db → (∀ p ∈ puts, p.1 = H p.2) →
    DbOk H (db.putAll puts)
  | _, [], hdb, _ => hdb
  | db, p :: puts, hdb, hp => by
    rw [Db.putAll_cons]
    refine DbOk.putAll (fun k e he => ?_) fun q hq => hp q (List.mem_cons_of_mem p hq)
    unfold Db.put at he
    split_ifs at he with hk
    · cases he
      rw [hk]
      exact hp p List.mem_cons_self
    · exact hdb k e he

/-- Writes under the hashes of their bytes replace an entry only where the hash collides. -/
theorem DbOk.collides (hdb : DbOk H db) {puts : Puts} (hp : ∀ p ∈ puts, p.1 = H p.2)
    (hw : Overwrites db puts) :
    ∃ p ∈ puts, ∃ e, (db p.1 = some e ∨ (p.1, e) ∈ puts) ∧ e ≠ p.2 ∧ H e = H p.2 := by
  obtain ⟨p, hpm, e, he, hne⟩ := hw
  refine ⟨p, hpm, e, he, hne, ?_⟩
  rw [← hp p hpm]
  rcases he with he | he
  · exact (hdb _ _ he).symm
  · exact (hp _ he).symm

/-! ## Clean nodes are stored -/

theorem HashFlag.inDb {root : Bool} {n : Node} {f : NodeFlag} {t : Tree} (hf : HashFlag H db root n f)
    (hd : f.dirty = false) (he : encodeNode (collapse H n) = t.enc H) (hl : root ∨ t.Long H) :
    t.InDb H db := by
  obtain ⟨hdb, hne⟩ := hf.2 hd
  obtain ⟨x, hfx⟩ := Option.ne_none_iff_exists'.1 (hne (he ▸ hl))
  rw [Tree.InDb, ← he, ← (hf.1 x hfx).1]
  exact hdb x hfx

theorem inDb_of_clean {c : Node} {t : Tree} (hD : Denotes H db c t) (hc : t.Canon)
    (hf : FlagsOk H db false c) (hd : c.dirty = false) (hn : t.isNode) (hl : t.Long H) :
    t.InDb H db := by
  cases c with
  | hash x => exact hD.2.2.1
  | short k c' f => exact hf.1.inDb hd ((encodeNode_collapse_of_denotes hD hc).1 rfl) (.inr hl)
  | full cs f => exact hf.1.inDb hd ((encodeNode_collapse_of_denotes hD hc).1 rfl) (.inr hl)
  | nil => cases t <;> simp_all [Denotes, Tree.isNode]
  | value v => cases t <;> simp_all [Denotes, Tree.isNode]

theorem stored_of_clean : ∀ {n : Node} {t : Tree} {root : Bool}, Denotes H db n t → t.Canon →
    FlagsOk H db root n → n.dirty = false → t.Stored H db
  | .hash _, _, _, hD, _, _, _ => hD.2.1
  | .nil, _, _, hD, _, _, _ => by rw [hD.nil_inv]; trivial
  | .value _, _, _, hD, _, _, _ => by rw [hD.value_inv]; trivial
  | .short k c f, t, _, hD, hc, hf, hd => by
    obtain ⟨ct, rfl, hDc, -⟩ := hD.short_inv
    have hcd := hf.2.1 hd
    exact ⟨inDb_of_clean hDc hc.2.2.2.2 hf.2.2 hcd, stored_of_clean hDc hc.2.2.2.2 hf.2.2 hcd⟩
  | .full cs f, t, _, hD, hc, hf, hd => by
    obtain ⟨ts, rfl, hDc⟩ := hD.full_inv
    intro i
    have hcd := hf.2.1 hd i
    exact ⟨inDb_of_clean (hDc i).1 (hc.1 i).1 (hf.2.2 i) hcd,
      stored_of_clean (hDc i).1 (hc.1 i).1 (hf.2.2 i) hcd⟩

/-! ## The steps of `hash` -/

section Steps

variable (hs : Hasher) (commit : Bool)

theorem useCache_some {n : Node} {r : Node × Node × Puts} (h : useCache hs commit n = some r) :
    ∃ x, n.cache.1 = some x ∧
      ((r = (.hash x, n, []) ∧ (commit = false ∨ n.cache.2 = false)) ∨
        (commit = true ∧ n.canUnload hs.cachegen hs.cachelimit = true ∧ r = (.hash x, .hash x, []))) := by
  unfold useCache at h
  split at h
  · rename_i x dirty hc
    refine ⟨x, by rw [hc], ?_⟩
    rw [hc]
    cases commit <;> cases hu : n.canUnload hs.cachegen hs.cachelimit <;> cases dirty <;>
      simp_all
  · cases h

theorem useCache_none {n : Node} (h : useCache hs commit n = none) :
    n.cache.1 = none ∨ (commit = true ∧ n.cache.2 = true) := by
  unfold useCache at h
  split at h
  · rename_i x dirty hc
    rw [hc]
    cases commit <;> cases hu : n.canUnload hs.cachegen hs.cachelimit <;> cases dirty <;>
      simp_all
  · rename_i hc
    left
    rw [hc]

theorem hash_of_useCache_none {n : Node} (force : Bool) (h : useCache hs commit n = none) :
    hash H hs commit n force =
      ((store H commit (hashChildren H hs commit n).1 force).1,
        (hashChildren H hs commit n).2.1.setCache
          (hashedAs (store H commit (hashChildren H hs commit n).1 force).1) commit,
        (hashChildren H hs commit n).2.2 ++ (store H commit (hashChildren H hs commit n).1 force).2) := by
  rw [hash_eq, h]

theorem store_node {m : Node} (hm : m.isNode) (force : Bool) :
    store H commit m force = if (encodeNode m).length < 32 ∧ !force then (m, [])
      else (.hash (m.cache.1.getD (H (encodeNode m))),
        if commit then [(m.cache.1.getD (H (encodeNode m)), encodeNode m)] else []) := by
  cases m with
  | full cs f => rfl
  | short k c f => rfl
  | _ => cases hm

theorem store_puts_hash {m : Node} (hm : m.isNode) (hx : ∀ x, m.cache.1 = some x → x = H (encodeNode m))
    (force : Bool) : ∀ p ∈ (store H commit m force).2, p.1 = H p.2 := by
  intro p hp
  rw [store_node commit hm] at hp
  have hh : m.cache.1.getD (H (encodeNode m)) = H (encodeNode m) := by
    cases hc : m.cache.1 with
    | none => rfl
    | some x => exact hx x hc
  split_ifs at hp <;> simp_all

theorem store_puts_nil (m : Node) (force : Bool) : (store H false m force).2 = [] := by
  unfold store
  split
  · rfl
  · rfl
  · simp only [Bool.false_eq_true, if_false]
    split <;> rfl

theorem dirty_of_canUnload {n : Node} {g l : UInt16} (h : n.canUnload g l = true) : n.dirty = false := by
  cases n with
  | full cs f =>
    simp only [Node.canUnload, NodeFlag.canUnload, Bool.and_eq_true, Bool.not_eq_true'] at h
    exact h.1
  | short k c f =>
    simp only [Node.canUnload, NodeFlag.canUnload, Bool.and_eq_true, Bool.not_eq_true'] at h
    exact h.1
  | _ => cases h

theorem hashChildrenShort_snd (key : List UInt8) (val : Node) (flags : NodeFlag)
    (r : Node × Node × Puts) :
    (hashChildrenShort key val flags r).2 =
      (.short key (if val.isValue then (val, val, []) else r).2.1 flags,
        (if val.isValue then (val, val, []) else r).2.2) := by
  unfold hashChildrenShort
  split
  rename_i heq
  rw [heq]

end Steps

/-- Every cached hash below a node with good flags is right. -/
theorem cacheOk_of_flagsOk : ∀ {n : Node}, FlagsOk H db false n → CacheOk H n
  | .short _ _ _, ⟨hf, _, hc⟩ =>
    ⟨fun x hx => ⟨(hf.1 x hx).1, (hf.1 x hx).2.resolve_left Bool.false_ne_true⟩, cacheOk_of_flagsOk hc⟩
  | .full _ _, ⟨hf, _, hc⟩ =>
    ⟨fun x hx => ⟨(hf.1 x hx).1, (hf.1 x hx).2.resolve_left Bool.false_ne_true⟩,
      fun i => cacheOk_of_flagsOk (hc i)⟩
  | .nil, _ | .value _, _ | .hash _, _ => trivial

/-! ## What `hash` gives back -/

section Cached

/-- The flags of a full or short node with a cached hash: the hash of its encoding, long
enough to be held by hash unless at the root, and in the database when the node is clean. -/
theorem FlagsOk.cached {root : Bool} {n : Node} {x : Bytes} (hf : FlagsOk H db root n)
    (hn : n.isNode) (hx : n.cache.1 = some x) :
    x = H (encodeNode (collapse H n)) ∧ (root ∨ 32 ≤ (encodeNode (collapse H n)).length) ∧
      (n.dirty = false → db x = some (encodeNode (collapse H n))) := by
  cases n with
  | short k c f => exact ⟨(hf.1.1 x hx).1, (hf.1.1 x hx).2, fun hd => (hf.1.2 hd).1 x hx⟩
  | full cs f => exact ⟨(hf.1.1 x hx).1, (hf.1.1 x hx).2, fun hd => (hf.1.2 hd).1 x hx⟩
  | _ => cases hn

variable (H db) in
/-- What `hash` gives back for a node `n` that denotes `t`, at the root (where it is forced to
a hash) or below it: writes of values under their hashes, none when only hashing; a copy of
`n` that denotes `t` with good flags in any database that keeps the old entries and holds
the writes; held by hash only where `n` may be; clean in commit mode, else as dirty as `n`. -/
structure Cached (root commit : Bool) (n : Node) (t : Tree) (r : Node × Node × Puts) : Prop where
  puts_hash : ∀ p ∈ r.2.2, p.1 = H p.2
  puts_nil : commit = false → r.2.2 = []
  cached : ∀ db', db.Extends db' → (∀ p ∈ r.2.2, db' p.1 = some p.2) →
    Denotes H db' r.2.1 t ∧ FlagsOk H db' root r.2.1
  isHash : r.2.1.isHash → root ∨ t.Long H
  dirty : r.2.1.dirty = (!commit && n.dirty)

/-- The node itself, kept as it is. -/
theorem Cached.self {root commit : Bool} {n : Node} {t : Tree} (x : Node) (hD : Denotes H db n t)
    (hf : FlagsOk H db root n) (hl : n.isHash → root ∨ t.Long H) (hd : commit = false ∨ n.dirty = false) :
    Cached H db root commit n t (x, n, []) := by
  refine ⟨(fun _ h => by simp at h), fun _ => rfl, fun _ hdb _ => ⟨hD.mono hdb, hf.mono hdb⟩, hl, ?_⟩
  rcases hd with rfl | hd
  · rfl
  · simp [hd]

theorem Cached.unload {root : Bool} {n : Node} {t : Tree} {x : Bytes} (hD : Denotes H db n t)
    (hc : t.Canon) (hf : FlagsOk H db root n) (hn : n.isNode) (hx : n.cache.1 = some x)
    (hd : n.dirty = false) : Cached H db root true n t (.hash x, .hash x, []) := by
  have he : encodeNode (collapse H n) = t.enc H :=
    (encodeNode_collapse_of_denotes hD hc).1 (by cases n <;> simp_all [Node.isNode, Node.isHash])
  obtain ⟨rfl, hl, hdb⟩ := hf.cached hn hx
  rw [he] at hl hdb ⊢
  have htn : t.isNode := by
    cases n <;> cases t <;> simp_all [Node.isNode, Denotes, Tree.isNode]
  refine ⟨(fun _ h => by simp at h), (fun h => by cases h), fun db' hdb' _ => ⟨⟨htn, ?_, hdb' _ _ (hdb hd), rfl⟩, trivial⟩,
    fun _ => hl, rfl⟩
  exact (stored_of_clean hD hc hf hd).mono hdb'

variable (hs : Hasher)

theorem hashFlag_store {root commit : Bool} {n m n' : Node} {f : NodeFlag} {t : Tree} {db' : Db}
    (hn : n.cache = (f.hash, f.dirty)) (hflag : HashFlag H db root n f)
    (hu : useCache hs commit n = none) (he : encodeNode (collapse H n) = t.enc H)
    (hm : m.isNode) (hcol : encodeNode m = t.enc H) (hmc : m.cache = n.cache)
    (hput : ∀ p ∈ (store H commit m root).2, db' p.1 = some p.2)
    (he' : encodeNode (collapse H n') = t.enc H) :
    HashFlag H db' root n'
      { f with hash := hashedAs (store H commit m root).1, dirty := (if commit then false else f.dirty) } := by
  unfold HashFlag at hflag ⊢
  rw [store_node commit hm] at hput ⊢
  rw [he', ← hcol]
  rw [he, ← hcol] at hflag
  by_cases hlen : (encodeNode m).length < 32 ∧ !root
  · simp only [hlen, and_self, if_true] at hput ⊢
    have hnode : hashedAs m = none := by cases m <;> simp_all [Node.isNode, hashedAs]
    refine ⟨fun x hx => by simp [hnode] at hx, fun _ => ⟨fun x hx => by simp [hnode] at hx, fun h => ?_⟩⟩
    simp only [Bool.not_eq_true'] at hlen
    rw [hlen.2] at h
    have := hlen.1
    simp only [Bool.false_eq_true, false_or] at h
    omega
  · simp only [hlen, if_false] at hput ⊢
    have hh : m.cache.1.getD (H (encodeNode m)) = H (encodeNode m) := by
      rw [hmc, hn]
      cases hx : f.hash with
      | none => rfl
      | some x => exact (hflag.1 x hx).1
    have hlong : root ∨ 32 ≤ (encodeNode m).length := by
      cases root <;> simp_all
    rw [hh] at hput ⊢
    refine ⟨fun x hx => ⟨(Option.some.inj hx).symm, hlong⟩, fun hd => ⟨fun x hx => ?_, fun _ => (fun h => by cases h)⟩⟩
    cases commit with
    | true =>
      cases hx
      exact hput _ List.mem_cons_self
    | false =>
      have hnone : f.hash = none := by
        rcases useCache_none hs false hu with h | h
        · rw [hn] at h
          exact h
        · cases h.1
      exact absurd hnone ((hflag.2 hd).2 hlong)

theorem cached_short {root commit : Bool} {k : List UInt8} {c : Node} {f : NodeFlag} {ct : Tree}
    (hD : Denotes H db (.short k c f) (.short k ct)) (hc : (Tree.short k ct).Canon)
    (hf : FlagsOk H db root (.short k c f)) (hu : useCache hs commit (.short k c f) = none)
    (hr : Cached H db false commit c ct (if c.isValue then (c, c, []) else hash H hs commit c false)) :
    Cached H db root commit (.short k c f) (.short k ct) (hash H hs commit (.short k c f) root) := by
  have hch : (hashChildren H hs commit (.short k c f)).2 =
      (.short k (if c.isValue then (c, c, []) else hash H hs commit c false).2.1 f,
        (if c.isValue then (c, c, []) else hash H hs commit c false).2.2) :=
    hashChildrenShort_snd k c f _
  have hcol : (hashChildren H hs commit (.short k c f)).1 = collapse H (.short k c f) :=
    hashChildren_fst H hs commit (cacheOk_of_flagsOk hf.2.2)
  have he : encodeNode (collapse H (.short k c f)) = (Tree.short k ct).enc H :=
    (encodeNode_collapse_of_denotes hD hc).1 rfl
  rw [hash_of_useCache_none hs commit root hu, hch, hcol]
  refine ⟨fun p hp => ?_, fun h => ?_, fun db' hdb hput => ?_, (fun h => by cases h), by cases commit <;> rfl⟩
  · rcases List.mem_append.1 hp with hp | hp
    · exact hr.puts_hash p hp
    · exact store_puts_hash (m := collapse H (.short k c f)) commit rfl (fun x hx => (hf.1.1 x hx).1)
        root p hp
  · subst h
    rw [hr.puts_nil rfl, store_puts_nil]
    rfl
  · have hrc := hr.cached db' hdb fun p hp => hput p (List.mem_append_left _ hp)
    have hD' : Denotes H db' (.short k (if c.isValue then (c, c, []) else hash H hs commit c false).2.1
        { f with hash := hashedAs (store H commit (collapse H (.short k c f)) root).1,
                 dirty := (if commit then false else f.dirty) }) (.short k ct) :=
      ⟨rfl, hrc.1, fun h => (hr.isHash h).resolve_left Bool.false_ne_true⟩
    refine ⟨hD', hashFlag_store hs rfl hf.1 hu he rfl he (cache_collapse H _)
      (fun p hp => hput p (List.mem_append_right _ hp)) ((encodeNode_collapse_of_denotes hD' hc).1 rfl),
      fun hd => ?_, hrc.2⟩
    rw [hr.dirty]
    cases commit with
    | true => rfl
    | false => exact hf.2.1 hd

theorem cached_fullKid {root commit : Bool} {cs : Fin 17 → Node} {f : NodeFlag}
    {ts : Fin 17 → Tree} (hD : Denotes H db (.full cs f) (.full ts)) (hc : (full ts).Canon)
    (hf : FlagsOk H db root (.full cs f))
    (hk : ∀ i : Fin 17, i.val < 16 → (cs i).isNil = false →
      Cached H db false commit (cs i) (ts i) (hash H hs commit (cs i) false)) (i : Fin 17) :
    Cached H db false commit (cs i) (ts i) (fullKid cs (fun i => hash H hs commit (cs i) false) i) := by
  unfold fullKid
  by_cases hi : i.val < 16
  · rw [if_pos hi]
    by_cases hn : (cs i).isNil
    · rw [if_pos hn]
      have hnil : cs i = .nil := by cases h : cs i <;> simp_all [Node.isNil]
      rw [hnil]
      exact Cached.self _ (hnil ▸ (hD i).1) trivial (fun h => by cases h) (.inr rfl)
    · rw [if_neg hn]
      exact hk i hi (by simpa using hn)
  · rw [if_neg hi]
    have hv : (cs i).isNil ∨ (cs i).isValue := by
      rw [(hD i).1.isNil_eq, (hD i).1.isValue_eq]
      exact (hc.1 i).2.2 (by omega)
    have hd : (cs i).dirty = false := by
      cases h : cs i <;> simp_all [Node.isNil, Node.isValue, Node.dirty]
    exact Cached.self _ (hD i).1 (hf.2.2 i) (fun h => .inr ((hD i).2 h)) (.inr hd)

theorem cached_full {root commit : Bool} {cs : Fin 17 → Node} {f : NodeFlag} {ts : Fin 17 → Tree}
    (hD : Denotes H db (.full cs f) (.full ts)) (hc : (full ts).Canon)
    (hf : FlagsOk H db root (.full cs f)) (hu : useCache hs commit (.full cs f) = none)
    (hr : ∀ i, Cached H db false commit (cs i) (ts i)
      (fullKid cs (fun i => hash H hs commit (cs i) false) i)) :
    Cached H db root commit (.full cs f) (.full ts) (hash H hs commit (.full cs f) root) := by
  have hcol : (hashChildren H hs commit (.full cs f)).1 = collapse H (.full cs f) :=
    hashChildren_fst H hs commit fun i => cacheOk_of_flagsOk (hf.2.2 i)
  have he : encodeNode (collapse H (.full cs f)) = (full ts).enc H :=
    (encodeNode_collapse_of_denotes hD hc).1 rfl
  rw [hash_of_useCache_none hs commit root hu, hcol]
  simp only [hashChildren, hashChildrenFull]
  refine ⟨fun p hp => ?_, fun h => ?_, fun db' hdb hput => ?_, (fun h => by cases h), by cases commit <;> rfl⟩
  · rcases List.mem_append.1 hp with hp | hp
    · obtain ⟨i, -, hp⟩ := List.mem_flatMap.1 hp
      exact (hr i).puts_hash p hp
    · exact store_puts_hash (m := collapse H (.full cs f)) commit rfl (fun x hx => (hf.1.1 x hx).1)
        root p hp
  · subst h
    rw [store_puts_nil, List.append_nil, List.flatMap_eq_nil_iff]
    exact fun i _ => (hr i).puts_nil rfl
  · have hrc : ∀ i, Denotes H db' (fullKid cs (fun i => hash H hs commit (cs i) false) i).2.1 (ts i) ∧
        FlagsOk H db' false (fullKid cs (fun i => hash H hs commit (cs i) false) i).2.1 := fun i =>
      (hr i).cached db' hdb fun p hp =>
        hput p (List.mem_append_left _ (List.mem_flatMap.2 ⟨i, List.mem_finRange i, hp⟩))
    have hD' : Denotes H db' (.full (fun i => (fullKid cs (fun i => hash H hs commit (cs i) false) i).2.1)
        { f with hash := hashedAs (store H commit (collapse H (.full cs f)) root).1,
                 dirty := (if commit then false else f.dirty) }) (.full ts) :=
      fun i => ⟨(hrc i).1, fun h => ((hr i).isHash h).resolve_left Bool.false_ne_true⟩
    refine ⟨hD', hashFlag_store hs rfl hf.1 hu he rfl he (cache_collapse H _)
      (fun p hp => hput p (List.mem_append_right _ hp)) ((encodeNode_collapse_of_denotes hD' hc).1 rfl),
      fun hd i => ?_, fun i => (hrc i).2⟩
    rw [(hr i).dirty]
    cases commit with
    | true => rfl
    | false => exact hf.2.1 hd i

theorem hash_nil (commit force : Bool) : hash H hs commit .nil force = (.nil, .nil, []) := rfl

theorem hash_hash (commit force : Bool) (x : Bytes) :
    hash H hs commit (.hash x) force = (.hash x, .hash x, []) := rfl

/-- `hash` on a node that denotes a canonical tree, with good flags: what it gives back is
`Cached`. The induction follows the recursion of `hash` over the children. -/
theorem hash_cached (commit : Bool) : ∀ (n : Node) {t : Tree} {root : Bool},
    Denotes H db n t → t.Canon → FlagsOk H db root n → (n.isHash → root ∨ t.Long H) →
    n.isValue = false → Cached H db root commit n t (hash H hs commit n root)
  | .nil, _, _, hD, _, hf, hl, _ => by
    rw [hash_nil]
    exact Cached.self _ hD hf hl (.inr rfl)
  | .hash x, _, _, hD, _, hf, hl, _ => by
    rw [hash_hash]
    exact Cached.self _ hD hf hl (.inr rfl)
  | .value _, _, _, _, _, _, _, hv => by cases hv
  | .short k c f, t, root, hD, hc, hf, _, _ => by
    obtain ⟨ct, rfl, hDc, hlc⟩ := hD.short_inv
    cases hu : useCache hs commit (.short k c f) with
    | some r =>
      rw [hash_eq, hu]
      obtain ⟨x, hx, ⟨rfl, hd⟩ | ⟨rfl, hun, rfl⟩⟩ := useCache_some hs commit hu
      · exact Cached.self _ hD hf (fun h => by cases h) hd
      · exact Cached.unload hD hc hf rfl hx (dirty_of_canUnload hun)
    | none =>
      refine cached_short hs hD hc hf hu ?_
      by_cases hv : c.isValue
      · rw [if_pos hv]
        have hd : c.dirty = false := by cases c <;> simp_all [Node.isValue, Node.dirty]
        exact Cached.self _ hDc hf.2.2 (fun h => .inr (hlc h)) (.inr hd)
      · rw [if_neg hv]
        exact hash_cached commit c hDc hc.2.2.2.2 hf.2.2 (fun h => .inr (hlc h)) (by simpa using hv)
  | .full cs f, t, root, hD, hc, hf, _, _ => by
    obtain ⟨ts, rfl, hDc⟩ := hD.full_inv
    cases hu : useCache hs commit (.full cs f) with
    | some r =>
      rw [hash_eq, hu]
      obtain ⟨x, hx, ⟨rfl, hd⟩ | ⟨rfl, hun, rfl⟩⟩ := useCache_some hs commit hu
      · exact Cached.self _ hD hf (fun h => by cases h) hd
      · exact Cached.unload hD hc hf rfl hx (dirty_of_canUnload hun)
    | none =>
      refine cached_full hs hD hc hf hu (cached_fullKid hs hD hc hf fun i hi _ => ?_)
      have hv : (cs i).isValue = false := by
        rw [(hDc i).1.isValue_eq]
        exact (hc.1 i).2.1 hi
      exact hash_cached commit (cs i) (hDc i).1 (hc.1 i).1 (hf.2.2 i) (fun h => .inr ((hDc i).2 h)) hv

theorem hash_fst_forced (commit : Bool) {n : Node} (hn : n.isNode) (hch : ChildrenCacheOk H n)
    (hx : ∀ x, n.cache.1 = some x → x = H (encodeNode (collapse H n))) :
    (hash H hs commit n true).1 = .hash (H (encodeNode (collapse H n))) := by
  cases hu : useCache hs commit n with
  | some r =>
    rw [hash_eq, hu]
    obtain ⟨x, hxr, ⟨rfl, -⟩ | ⟨-, -, rfl⟩⟩ := useCache_some hs commit hu <;> rw [hx x hxr]
  | none =>
    rw [hash_of_useCache_none hs commit true hu, hashChildren_fst H hs commit hch,
      store_node commit (isNode_collapse H hn)]
    simp only [Bool.not_true, Bool.false_eq_true, and_false, if_false, cache_collapse]
    cases hc : n.cache.1 with
    | none => rfl
    | some x => rw [Option.getD_some, hx x hc]

/-- `hash` at the root, forced: the hash node of the hash of the encoding of the tree the root
denotes. -/
theorem hash_root_fst (commit : Bool) {n : Node} {t : Tree} (hD : Denotes H db n t) (hc : t.Canon)
    (hf : FlagsOk H db true n) (hn : t.isNode) : (hash H hs commit n true).1 = .hash (H (t.enc H)) := by
  cases n with
  | hash x =>
    rw [hash_hash, hD.2.2.2]
  | short k c f =>
    rw [hash_fst_forced (n := .short k c f) hs commit rfl (cacheOk_of_flagsOk hf.2.2)
        fun x hx => (hf.1.1 x hx).1,
      (encodeNode_collapse_of_denotes hD hc).1 rfl]
  | full cs f =>
    rw [hash_fst_forced (n := .full cs f) hs commit rfl (fun i => cacheOk_of_flagsOk (hf.2.2 i))
        fun x hx => (hf.1.1 x hx).1,
      (encodeNode_collapse_of_denotes hD hc).1 rfl]
  | nil => rw [hD.nil_inv] at hn; cases hn
  | value v => rw [hD.value_inv] at hn; cases hn

/-- A clean root is in the database under the hash of its encoding, so the hash node of that
hash denotes its tree: what `New` loads. -/
theorem denotes_hash_of_clean {n : Node} {t : Tree} (hD : Denotes H db n t) (hc : t.Canon)
    (hf : FlagsOk H db true n) (hd : n.dirty = false) (hn : t.isNode) :
    Denotes H db (.hash (H (t.enc H))) t := by
  refine ⟨hn, stored_of_clean hD hc hf hd, ?_, rfl⟩
  cases n with
  | hash x =>
    obtain ⟨-, -, hin, rfl⟩ := hD
    exact hin
  | short k c f => exact hf.1.inDb hd ((encodeNode_collapse_of_denotes hD hc).1 rfl) (.inl rfl)
  | full cs f => exact hf.1.inDb hd ((encodeNode_collapse_of_denotes hD hc).1 rfl) (.inl rfl)
  | nil => rw [hD.nil_inv] at hn; cases hn
  | value v => rw [hD.value_inv] at hn; cases hn

end Cached

end Sphinx.Trie
