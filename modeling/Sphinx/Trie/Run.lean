import Sphinx.Trie.Commit

/-! # The trie driven by a sequence of calls

`trie.go` as its callers use it, and as `runRandTest` of `trie_test.go` drives it: `TryGet`,
`TryUpdate`, `TryDelete`, `Hash`, `CommitTo` into the trie's database, `SetCacheLimit`, and the
test's reset, a commit followed by `New` at the root just written.

Between calls the root of a trie satisfies `Holds`: it denotes a canonical tree whose values
sit at hex keys of bounded length, with the flags of a root. Each call keeps it and answers as
the tree does (`Holds.tryGet` to `Holds.hashRoot`, `New` in `new_hash`). A run of calls from a
state whose database stores every entry under the hash of its bytes therefore refines a
finite map (`Inv.run`): every get gives the value last written at its key, and every root hash
is that of the map's canonical tree, a function of the map alone. A run leaves this only at a
commit whose writes meet other bytes under one hash, a collision, or at a reset whose root
hash `New` takes for the empty trie.
-/

namespace Sphinx.Trie

open Rlp Sphinx.Trie.Tree Hasher

variable {H : Bytes → Bytes}

/-! ## The invariant of a root -/

variable (H) in
/-- What the root node of a trie keeps between calls: it denotes a canonical tree with its
values at hex keys of bounded length, with the flags of a root. -/
structure Holds (db : Db) (n : Node) (t : Tree) : Prop where
  denotes : Denotes H db n t
  canon : t.Canon
  keysOk : t.KeysOk
  bounded : t.Bounded
  flagsOk : FlagsOk H db true n

/-- The root hash `Hash` gives for a tree: `emptyRoot` for nil, else the hash of its
encoding. -/
def Tree.rootHash (H : Bytes → Bytes) (t : Tree) : Hash :=
  if t.isNil then bytesToHash (emptyRoot H) else bytesToHash (H (t.enc H))

theorem bytes_bytesToHash {x : Bytes} (hx : x.length = 32) : (bytesToHash x).bytes = x :=
  FixedBytes.bytes_setBytes_of_length hx

section Calls

variable {db : Db} {n : Node} {t : Tree}

theorem Holds.fits (h : Holds H db n t) : t.Fits := h.canon.fits h.bounded

theorem Holds.isNode (h : Holds H db n t) (hn : t.isNil = false) : t.isNode := by
  have hv := h.keysOk.isValue
  cases t <;> simp_all [Tree.isNil, Tree.isValue, Tree.isNode]

theorem holds_nil : Holds H db .nil .nil :=
  ⟨trivial, trivial, fun _ h => by simp [HasKey] at h, (fun _ _ h => by cases h), trivial⟩

theorem Holds.rewrite {n' : Node} {t' : Tree} (h : Holds H db n t) (hr : Rewrites H db n n' t t')
    (hc : t'.Canon) (hk : t'.KeysOk) (hb : t'.Bounded) : Holds H db n' t' :=
  ⟨hr.denotes, hc, hk, hb, hr.flagsOk true h.flagsOk fun _ => .inl rfl⟩

variable (tr : Trie)

theorem hashRoot_nil (commit : Bool) (h : tr.root = .nil) :
    tr.hashRoot H commit = (.hash (emptyRoot H), .nil, []) := by
  obtain ⟨root, g, l⟩ := tr
  cases h
  rfl

theorem hashRoot_of_isNil (commit : Bool) (h : tr.root.isNil = false) :
    tr.hashRoot H commit = hash H ⟨tr.cachegen, tr.cachelimit⟩ commit tr.root true := by
  obtain ⟨root, g, l⟩ := tr
  cases root <;> first | rfl | cases h

theorem hash_of_hashRoot {x : Bytes} {c : Node} {puts : Puts}
    (h : tr.hashRoot H false = (.hash x, c, puts)) :
    tr.Hash H = some (bytesToHash x, { tr with root := c }) := by
  delta Trie.Hash
  rw [h]

theorem commitTo_of_hashRoot {x : Bytes} {c : Node} {puts : Puts}
    (h : tr.hashRoot H true = (.hash x, c, puts)) :
    tr.CommitTo H = some (bytesToHash x, { tr with root := c, cachegen := tr.cachegen + 1 }, puts) := by
  delta Trie.CommitTo
  rw [h]

theorem new_empty (db : Db) {root : Hash} (h : root = zeroHash ∨ root = bytesToHash (emptyRoot H)) :
    New H root db = some (.ok ⟨.nil, 0, 0⟩) := by
  have hn : ¬(root ≠ zeroHash ∧ root ≠ bytesToHash (emptyRoot H)) := by
    rintro ⟨h1, h2⟩
    rcases h with h | h
    · exact h1 h
    · exact h2 h
  delta New
  simp only [if_neg hn]

/-- The hasher over a root that holds: the hash node of the tree's root hash, writes under
hashes (none when only hashing), and a root that holds in any database that keeps the old
entries and holds the writes. In commit mode that root is clean, and the database holds the
tree under its root hash. -/
theorem Holds.hashRoot (h : Holds H db tr.root t) (commit : Bool) :
    ∃ x c puts, tr.hashRoot H commit = (.hash x, c, puts) ∧ bytesToHash x = t.rootHash H ∧
      (∀ p ∈ puts, p.1 = H p.2) ∧ (commit = false → puts = []) ∧
      ∀ db', db.Extends db' → (∀ p ∈ puts, db' p.1 = some p.2) →
        Holds H db' c t ∧ (commit = true → t.isNil = false → Denotes H db' (.hash (H (t.enc H))) t) := by
  cases hn : tr.root.isNil with
  | true =>
    have hnil : tr.root = .nil := by
      cases hr : tr.root <;> simp_all [Node.isNil]
    have ht : t = .nil := by
      have hD := h.denotes
      rw [hnil] at hD
      exact hD.nil_inv
    subst ht
    refine ⟨emptyRoot H, .nil, [], hashRoot_nil tr commit hnil, by simp [Tree.rootHash, Tree.isNil],
      (fun _ hp => by cases hp), fun _ => rfl, fun _ _ _ => ⟨holds_nil, fun _ hn' => by cases hn'⟩⟩
  | false =>
    have htn : t.isNil = false := by rw [← h.denotes.isNil_eq]; exact hn
    have hnode := h.isNode htn
    have hcached := hash_cached ⟨tr.cachegen, tr.cachelimit⟩ commit tr.root h.denotes h.canon h.flagsOk
      (fun _ => .inl rfl) (by rw [h.denotes.isValue_eq]; exact h.keysOk.isValue)
    have hfst := hash_root_fst ⟨tr.cachegen, tr.cachelimit⟩ commit h.denotes h.canon h.flagsOk hnode
    rw [hashRoot_of_isNil tr commit hn]
    generalize hash H ⟨tr.cachegen, tr.cachelimit⟩ commit tr.root true = r at hcached hfst
    obtain ⟨r1, c, puts⟩ := r
    obtain rfl : r1 = .hash (H (t.enc H)) := hfst
    refine ⟨H (t.enc H), c, puts, rfl, by simp [Tree.rootHash, htn], hcached.puts_hash,
      hcached.puts_nil, fun db' hdb hput => ?_⟩
    obtain ⟨hD', hf'⟩ := hcached.cached db' hdb hput
    refine ⟨⟨hD', h.canon, h.keysOk, h.bounded, hf'⟩, fun hc _ => ?_⟩
    have hd : c.dirty = false := hcached.dirty.trans (by rw [hc]; rfl)
    exact denotes_hash_of_clean hD' h.canon hf' hd hnode

/-- `Hash` over a root that holds gives the tree's root hash, and a root that still holds. -/
theorem Holds.hash (h : Holds H db tr.root t) :
    ∃ c, tr.Hash H = some (t.rootHash H, { tr with root := c }) ∧ Holds H db c t := by
  obtain ⟨x, c, puts, hr, hx, -, hnil, hc⟩ := h.hashRoot tr false
  obtain rfl : puts = [] := hnil rfl
  refine ⟨c, by rw [hash_of_hashRoot tr hr, hx], (hc db (Db.Extends.refl _) fun _ hp => by cases hp).1⟩

variable (hH : ∀ x, (H x).length = 32)
include hH

theorem new_hash {x : Bytes} (hD : Denotes H db (.hash x) t) (hc : t.Canon) (hk : t.KeysOk)
    (hb : t.Bounded) (hne : bytesToHash x ≠ zeroHash ∧ bytesToHash x ≠ bytesToHash (emptyRoot H)) :
    ∃ tr', New H (bytesToHash x) db = some (.ok tr') ∧ Holds H db tr'.root t := by
  have hx : x.length = 32 := by rw [← hD.2.2.2]; exact hH _
  refine ⟨⟨decoded H 0 (some x) t.toNode, 0, 0⟩, ?_, ⟨denotes_decoded 0 hc hD.2.1 (some x), hc, hk, hb,
    flagsOk_loaded 0 hD hc (.inl rfl)⟩⟩
  delta New
  simp only [if_pos hne, bytes_bytesToHash hx,
    resolveHash_denotes hH hD hc (hc.fits hb) ⟨.nil, 0, 0⟩ []]

variable (fuel : ℕ) (key : Bytes)

/-- `TryGet` finds the value the map holds at the key, with no missing node, and leaves a root
that still holds. -/
theorem Holds.tryGet (h : Holds H db tr.root t) (hfuel : 4 * key.length + 3 < fuel) :
    ∃ tr', tr.TryGet db fuel key = some (.ok (t.contents key, tr')) ∧ Holds H db tr'.root t := by
  have hw : Walked t ((keybytesToHex key).drop 0) := h.keysOk.walked key
  obtain ⟨n', d, hget, hr⟩ := tryGet_reloads hH tr (keybytesToHex key) fuel h.denotes h.canon h.fits hw
    (by have := Bool.toNat_le tr.root.isHash; simp only [length_keybytesToHex]; omega)
  rw [List.drop_zero] at hget
  cases d with
  | false =>
    refine ⟨tr, ?_, h⟩
    simp only [Trie.TryGet, hget, Bool.false_eq_true, if_false]
    rfl
  | true =>
    refine ⟨{ tr with root := n' }, ?_, ⟨hr.denotes, h.canon, h.keysOk, h.bounded,
      hr.flagsOk true h.flagsOk fun _ => .inl rfl⟩⟩
    simp only [Trie.TryGet, hget, if_true]
    rfl

theorem Holds.tryDelete (h : Holds H db tr.root t) (hfuel : 4 * key.length + 3 < fuel) :
    ∃ tr', tr.TryDelete db fuel key = some (.ok tr') ∧
      Holds H db tr'.root (t.del (keybytesToHex key)).2 := by
  have hw := h.keysOk.walked key
  obtain ⟨n', hdel, hr⟩ := delete_rewrites tr hH fuel [] h.denotes h.canon h.fits hw
    (by have := Bool.toNat_le tr.root.isHash; simp only [length_keybytesToHex]; omega)
  refine ⟨{ tr with root := n' }, ?_, h.rewrite hr (canon_del h.canon hw) (h.keysOk.del h.canon key)
    (h.bounded.del h.canon h.keysOk key)⟩
  simp only [Trie.TryDelete, hdel]

/-- `TryUpdate` writes the value at the key, or removes the key for an empty value, with no
missing node. -/
theorem Holds.tryUpdate (h : Holds H db tr.root t) (value : Bytes) (hfuel : 4 * key.length + 3 < fuel)
    (hkey : key.length < 2 ^ 60) (hv : value.length < 2 ^ 62) :
    ∃ tr', tr.TryUpdate db fuel key value = some (.ok tr') ∧
      Holds H db tr'.root (if value.length ≠ 0 then (t.ins (keybytesToHex key) value).2
        else (t.del (keybytesToHex key)).2) := by
  have hw := h.keysOk.walked key
  have hfuel' : 2 * (keybytesToHex key).length + tr.root.isHash.toNat < fuel := by
    have := Bool.toNat_le tr.root.isHash
    simp only [length_keybytesToHex]
    omega
  by_cases hz : value.length ≠ 0
  · obtain ⟨n', hins, hr⟩ := insert_rewrites tr hH value fuel [] h.denotes h.canon h.fits hw hfuel'
    have hne : value ≠ [] := fun he => hz (by rw [he]; rfl)
    refine ⟨{ tr with root := n' }, ?_, ?_⟩
    · simp only [Trie.TryUpdate, if_pos hz, hins]
    · rw [if_pos hz]
      exact h.rewrite hr (canon_ins hne h.canon hw) (h.keysOk.ins h.canon key value)
        (h.bounded.ins h.canon h.keysOk key (by simp only [length_keybytesToHex]; omega) hv)
  · obtain ⟨n', hdel, hr⟩ := delete_rewrites tr hH fuel [] h.denotes h.canon h.fits hw hfuel'
    refine ⟨{ tr with root := n' }, ?_, ?_⟩
    · simp only [Trie.TryUpdate, if_neg hz, hdel]
    · rw [if_neg hz]
      exact h.rewrite hr (canon_del h.canon hw) (h.keysOk.del h.canon key)
        (h.bounded.del h.canon h.keysOk key)

end Calls

/-! ## Calls -/

/-- A call of the trie's API, as `runRandTest` makes them (its iterator and cache checks
apart). -/
inductive Op where
  | update (key v : Bytes)
  | delete (key : Bytes)
  | get (key : Bytes)
  | commit
  | hash
  | reset
  | setCacheLimit (l : UInt16)

/-- What a call gives back. -/
inductive Output where
  | value (v : Option Bytes)
  | root (h : Hash)
  | done

/-- A trie with the database it loads from and commits to. -/
structure State where
  trie : Trie
  db : Db

section Run

variable (H) (fuel : ℕ)

/-- One call. A reset is the test's: `Commit`, then `New` at the root it returned. -/
def step (s : State) : Op → Walk (State × Output)
  | .update key v =>
    (s.trie.TryUpdate s.db fuel key v).map (Except.map fun tr => (⟨tr, s.db⟩, .done))
  | .delete key => (s.trie.TryDelete s.db fuel key).map (Except.map fun tr => (⟨tr, s.db⟩, .done))
  | .get key =>
    (s.trie.TryGet s.db fuel key).map (Except.map fun r => (⟨r.2, s.db⟩, .value r.1))
  | .commit => (s.trie.CommitTo H).map fun r => .ok (⟨r.2.1, s.db.putAll r.2.2⟩, .root r.1)
  | .hash => (s.trie.Hash H).map fun r => .ok (⟨r.2, s.db⟩, .root r.1)
  | .reset => (s.trie.CommitTo H).bind fun r =>
    (New H r.1 (s.db.putAll r.2.2)).map (Except.map fun tr => (⟨tr, s.db.putAll r.2.2⟩, .root r.1))
  | .setCacheLimit l => some (.ok (⟨s.trie.setCacheLimit l, s.db⟩, .done))

/-- A sequence of calls, up to the first panic or missing node. -/
def run (s : State) : List Op → Walk (State × List Output)
  | [] => some (.ok (s, []))
  | op :: ops =>
    match step H fuel s op with
    | some (.ok (s', o)) => (run s' ops).map (Except.map fun r => (r.1, o :: r.2))
    | some (.error e) => some (.error e)
    | none => none

/-- A commit from `s` whose writes put bytes under the hash of other bytes the database holds
or the commit writes: the hash collides on two encodings. -/
def CommitCollides (s : State) : Prop :=
  ∃ r tr puts, s.trie.CommitTo H = some (r, tr, puts) ∧
    ∃ p ∈ puts, ∃ e, (s.db p.1 = some e ∨ (p.1, e) ∈ puts) ∧ e ≠ p.2 ∧ H e = H p.2

/-- A commit of a trie that is not empty, to a root hash that `New` takes for the empty trie:
the zero hash, or `emptyRoot`. -/
def ResetEmpties (s : State) : Prop :=
  ∃ r tr puts, s.trie.CommitTo H = some (r, tr, puts) ∧ s.trie.root.isNil = false ∧
    (r = zeroHash ∨ r = bytesToHash (emptyRoot H))

/-- The call `op` from `s` meets one of these. -/
def Fails (s : State) : Op → Prop
  | .commit => CommitCollides H s
  | .reset => CommitCollides H s ∨ ResetEmpties H s
  | _ => False

/-- Some call of the run meets one. -/
def RunFails : State → List Op → Prop
  | _, [] => False
  | s, op :: ops => Fails H s op ∨ ∃ s' o, step H fuel s op = some (.ok (s', o)) ∧ RunFails s' ops

end Run

/-- The key and value of a call are within the depth of the model's walks (`fuel`) and the
lengths the RLP headers of the nodes hold. -/
def Op.Fits (fuel : ℕ) : Op → Prop
  | .update key v => 4 * key.length + 3 < fuel ∧ key.length < 2 ^ 60 ∧ v.length < 2 ^ 62
  | .delete key | .get key => 4 * key.length + 3 < fuel
  | _ => True

/-! ## The map a trie stands for -/

/-- A map of keys to values: what a trie holds. -/
abbrev Store := Bytes → Option Bytes

/-- A call on the map: an update with an empty value deletes, as `TryUpdate` does. -/
def Store.apply (m : Store) : Op → Store
  | .update key v => Function.update m key (if v.length ≠ 0 then some v else none)
  | .delete key => Function.update m key none
  | _ => m

open Classical in
/-- The root hash of a map: that of the canonical tree with the map's values at the hex forms
of its keys, of which there is one at most (`eq_of_contents`). -/
noncomputable def Store.rootHash (H : Bytes → Bytes) (m : Store) : Hash :=
  if h : ∃ t : Tree, t.Canon ∧ t.KeysOk ∧ t.contents = m then (Classical.choose h).rootHash H
  else zeroHash

/-- What a call on the map gives back. -/
noncomputable def Store.answer (H : Bytes → Bytes) (m : Store) : Op → Output
  | .get key => .value (m key)
  | .commit | .hash | .reset => .root (Store.rootHash H m)
  | _ => .done

/-- The map after a sequence of calls, and what they give back. -/
noncomputable def Store.run (H : Bytes → Bytes) (m : Store) : List Op → Store × List Output
  | [] => (m, [])
  | op :: ops =>
    ((Store.run H (Store.apply m op) ops).1, Store.answer H m op :: (Store.run H (Store.apply m op) ops).2)

theorem Store.rootHash_contents {t : Tree} (hc : t.Canon) (hk : t.KeysOk) :
    Store.rootHash H t.contents = t.rootHash H := by
  have hex : ∃ t' : Tree, t'.Canon ∧ t'.KeysOk ∧ t'.contents = t.contents := ⟨t, hc, hk, rfl⟩
  rw [Store.rootHash, dif_pos hex]
  obtain ⟨hc', hk', he⟩ := Classical.choose_spec hex
  rw [eq_of_contents hc' hc hk' hk he]

/-! ## Runs refine the map -/

variable (H) in
/-- What a run keeps: the root holds for a tree with the map's contents, and every entry of the
database sits under the hash of its bytes. -/
structure Inv (s : State) (m : Store) : Prop where
  holds : ∃ t, Holds H s.db s.trie.root t ∧ t.contents = m
  dbOk : DbOk H s.db

/-- A fresh empty trie over a database of hashed entries. -/
theorem inv_empty {db : Db} (hdb : DbOk H db) : Inv H ⟨⟨.nil, 0, 0⟩, db⟩ fun _ => none :=
  ⟨⟨.nil, holds_nil, rfl⟩, hdb⟩

theorem contents_update {t : Tree} (hc : t.Canon) (hk : t.KeysOk) (key v : Bytes) :
    (if v.length ≠ 0 then (t.ins (keybytesToHex key) v).2 else (t.del (keybytesToHex key)).2).contents =
      Store.apply t.contents (.update key v) := by
  by_cases hz : v.length ≠ 0
  · rw [if_pos hz, contents_ins hc hk key v]
    simp only [Store.apply, if_pos hz]
  · rw [if_neg hz, contents_del hc hk key]
    simp only [Store.apply, if_neg hz]

section Steps

variable {s : State} {m : Store} (fuel : ℕ)

theorem Inv.hash (hI : Inv H s m) :
    ∃ s', step H fuel s .hash = some (.ok (s', .root (Store.rootHash H m))) ∧ Inv H s' m := by
  obtain ⟨⟨t, h, rfl⟩, hdb⟩ := hI
  obtain ⟨c, hr, h'⟩ := h.hash s.trie
  refine ⟨⟨{ s.trie with root := c }, s.db⟩, ?_, ⟨⟨t, h', rfl⟩, hdb⟩⟩
  rw [Store.rootHash_contents h.canon h.keysOk]
  simp only [step, hr]
  rfl

/-- A commit writes no entry over another unless the hash collides, so the database keeps what
the trie loads and gains the trie's nodes. -/
theorem Inv.commit (hI : Inv H s m) (hf : ¬ CommitCollides H s) :
    ∃ s', step H fuel s .commit = some (.ok (s', .root (Store.rootHash H m))) ∧ Inv H s' m := by
  obtain ⟨⟨t, h, rfl⟩, hdb⟩ := hI
  obtain ⟨x, c, puts, hr, hx, hput, -, hc⟩ := h.hashRoot s.trie true
  have hcommit := commitTo_of_hashRoot s.trie hr
  have hw : ¬ Overwrites s.db puts := fun hw => hf ⟨_, _, _, hcommit, hdb.collides hput hw⟩
  obtain ⟨h', -⟩ := hc _ (Db.extends_putAll hw) (Db.putAll_holds hw)
  refine ⟨⟨{ s.trie with root := c, cachegen := s.trie.cachegen + 1 }, s.db.putAll puts⟩, ?_,
    ⟨⟨t, h', rfl⟩, hdb.putAll hput⟩⟩
  rw [Store.rootHash_contents h.canon h.keysOk, ← hx]
  simp only [step, hcommit]
  rfl

theorem Inv.setCacheLimit (hI : Inv H s m) (l : UInt16) :
    ∃ s', step H fuel s (.setCacheLimit l) = some (.ok (s', .done)) ∧ Inv H s' m :=
  ⟨⟨s.trie.setCacheLimit l, s.db⟩, rfl, ⟨hI.holds, hI.dbOk⟩⟩

variable (hH : ∀ x, (H x).length = 32)
include hH

theorem Inv.update (hI : Inv H s m) (key v : Bytes) (hop : (Op.update key v).Fits fuel) :
    ∃ s', step H fuel s (.update key v) = some (.ok (s', .done)) ∧ Inv H s' (m.apply (.update key v)) := by
  obtain ⟨⟨t, h, rfl⟩, hdb⟩ := hI
  obtain ⟨hf, hk, hv⟩ := hop
  obtain ⟨tr', hu, h'⟩ := h.tryUpdate s.trie hH fuel key v hf hk hv
  refine ⟨⟨tr', s.db⟩, by simp only [step, hu]; rfl, ⟨⟨_, h', ?_⟩, hdb⟩⟩
  exact contents_update h.canon h.keysOk key v

theorem Inv.delete (hI : Inv H s m) (key : Bytes) (hop : (Op.delete key).Fits fuel) :
    ∃ s', step H fuel s (.delete key) = some (.ok (s', .done)) ∧ Inv H s' (m.apply (.delete key)) := by
  obtain ⟨⟨t, h, rfl⟩, hdb⟩ := hI
  obtain ⟨tr', hd, h'⟩ := h.tryDelete s.trie hH fuel key hop
  refine ⟨⟨tr', s.db⟩, by simp only [step, hd]; rfl, ⟨⟨_, h', ?_⟩, hdb⟩⟩
  exact contents_del h.canon h.keysOk key

theorem Inv.get (hI : Inv H s m) (key : Bytes) (hop : (Op.get key).Fits fuel) :
    ∃ s', step H fuel s (.get key) = some (.ok (s', .value (m key))) ∧ Inv H s' m := by
  obtain ⟨⟨t, h, rfl⟩, hdb⟩ := hI
  obtain ⟨tr', hg, h'⟩ := h.tryGet s.trie hH fuel key hop
  exact ⟨⟨tr', s.db⟩, by simp only [step, hg]; rfl, ⟨⟨t, h', rfl⟩, hdb⟩⟩

/-- A reset reloads, from the root hash its commit wrote, a trie with the same contents. -/
theorem Inv.reset (hI : Inv H s m) (hf : ¬ (CommitCollides H s ∨ ResetEmpties H s)) :
    ∃ s', step H fuel s .reset = some (.ok (s', .root (Store.rootHash H m))) ∧ Inv H s' m := by
  obtain ⟨⟨t, h, rfl⟩, hdb⟩ := hI
  obtain ⟨x, c, puts, hr, hx, hput, -, hc⟩ := h.hashRoot s.trie true
  have hcommit := commitTo_of_hashRoot s.trie hr
  have hw : ¬ Overwrites s.db puts := fun hw => hf (.inl ⟨_, _, _, hcommit, hdb.collides hput hw⟩)
  obtain ⟨-, hstored⟩ := hc _ (Db.extends_putAll hw) (Db.putAll_holds hw)
  obtain ⟨tr', hnew, h'⟩ : ∃ tr', New H (bytesToHash x) (s.db.putAll puts) = some (.ok tr') ∧
      Holds H (s.db.putAll puts) tr'.root t := by
    cases hn : t.isNil with
    | true =>
      obtain rfl : t = .nil := by cases t <;> first | rfl | cases hn
      exact ⟨⟨.nil, 0, 0⟩, new_empty _ (.inr (hx.trans (by simp [Tree.rootHash, Tree.isNil]))), holds_nil⟩
    | false =>
      have hroot : bytesToHash x = bytesToHash (H (t.enc H)) := by simp [hx, Tree.rootHash, hn]
      have hne : bytesToHash (H (t.enc H)) ≠ zeroHash ∧ bytesToHash (H (t.enc H)) ≠ bytesToHash (emptyRoot H) := by
        refine not_or.1 fun he => hf (.inr ⟨_, _, _, hcommit, ?_, hroot ▸ he⟩)
        rw [h.denotes.isNil_eq]
        exact hn
      rw [hroot]
      exact new_hash hH (hstored rfl hn) h.canon h.keysOk h.bounded hne
  refine ⟨⟨tr', s.db.putAll puts⟩, ?_, ⟨⟨t, h', rfl⟩, hdb.putAll hput⟩⟩
  rw [Store.rootHash_contents h.canon h.keysOk, ← hx]
  simp only [step, hcommit, Option.bind_some, hnew]
  rfl

/-- One call from a state that keeps the invariant answers as the map does and keeps it. -/
theorem Inv.step (hI : Inv H s m) (op : Op) (hop : op.Fits fuel) (hf : ¬ Fails H s op) :
    ∃ s', step H fuel s op = some (.ok (s', Store.answer H m op)) ∧ Inv H s' (m.apply op) := by
  cases op with
  | update key v => exact hI.update fuel hH key v hop
  | delete key => exact hI.delete fuel hH key hop
  | get key => exact hI.get fuel hH key hop
  | commit => exact hI.commit fuel hf
  | hash => exact hI.hash fuel
  | reset => exact hI.reset fuel hH hf
  | setCacheLimit l => exact hI.setCacheLimit fuel l

/-- A run of calls from a state that keeps the invariant answers as the map does, call by call,
and ends in a state that keeps it. -/
theorem Inv.run (hI : Inv H s m) (ops : List Op) (hops : ∀ op ∈ ops, op.Fits fuel)
    (hf : ¬ RunFails H fuel s ops) :
    ∃ s', run H fuel s ops = some (.ok (s', (Store.run H m ops).2)) ∧ Inv H s' (Store.run H m ops).1 := by
  induction ops generalizing s m with
  | nil => exact ⟨s, rfl, hI⟩
  | cons op ops ih =>
    obtain ⟨s₁, hs, hI₁⟩ := hI.step fuel hH op (hops op List.mem_cons_self) fun h => hf (.inl h)
    obtain ⟨s', hr, hI'⟩ := ih hI₁ (fun o ho => hops o (List.mem_cons_of_mem op ho))
      fun h => hf (.inr ⟨s₁, _, hs, h⟩)
    refine ⟨s', ?_, hI'⟩
    simp only [Trie.run, hs, hr, Store.run]
    rfl

end Steps

/-- From an empty trie over a database that stores its entries under the hashes of their bytes,
a run of calls whose keys and values fit the walks answers call by call as the map does: each get
the value last written at its key, each hash, commit and reset the root hash of the map at that
point, a function of the map alone. The run can only leave this at a commit that writes over
other bytes under the same hash, or at a reset to a root hash `New` takes for the empty trie. -/
theorem run_answers_as_store (hH : ∀ x, (H x).length = 32) (fuel : ℕ) {db : Db} (hdb : DbOk H db)
    (ops : List Op) (hops : ∀ op ∈ ops, op.Fits fuel) (hf : ¬ RunFails H fuel ⟨⟨.nil, 0, 0⟩, db⟩ ops) :
    ∃ s', run H fuel ⟨⟨.nil, 0, 0⟩, db⟩ ops = some (.ok (s', (Store.run H (fun _ => none) ops).2)) := by
  obtain ⟨s', hr, -⟩ := (inv_empty hdb).run fuel hH ops hops hf
  exact ⟨s', hr⟩

theorem run_answers_as_store_update_get :
    ∃ s', run (fun _ => List.replicate 32 0) 11 ⟨⟨.nil, 0, 0⟩, fun _ => none⟩ [.update [1] [2], .get [1]] =
      some (.ok (s', (Store.run (fun _ => List.replicate 32 0) (fun _ => none) [.update [1] [2], .get [1]]).2)) :=
  run_answers_as_store (fun _ => List.length_replicate) 11 (fun _ _ h => by cases h) _
    (by simp [Op.Fits]) (by simp [RunFails, Fails])

theorem Store.run_append_singleton (m : Store) (op : Op) : ∀ ops : List Op,
    Store.run H m (ops ++ [op]) = ((Store.run H m ops).1.apply op,
      (Store.run H m ops).2 ++ [Store.answer H (Store.run H m ops).1 op])
  | [] => rfl
  | o :: ops => by
    simp only [List.cons_append, Store.run, Store.run_append_singleton _ op ops, List.cons_append]

theorem Store.run_getElem? : ∀ (ops : List Op) (m : Store) (i : ℕ),
    (Store.run H m ops).2[i]? = ops[i]?.map (Store.answer H (Store.run H m (ops.take i)).1)
  | [], _, _ => rfl
  | _ :: _, _, 0 => rfl
  | op :: ops, m, i + 1 => by
    simp only [Store.run, List.getElem?_cons_succ, List.take_succ_cons]
    exact Store.run_getElem? ops _ i

theorem RunFails.of_append_hash {fuel : ℕ} : ∀ {s : State} {ops : List Op},
    RunFails H fuel s (ops ++ [.hash]) → RunFails H fuel s ops
  | _, [], h => by simp [RunFails, Fails] at h
  | _, _ :: _, .inl h => .inl h
  | _, _ :: _, .inr ⟨s', o, hs, h⟩ => .inr ⟨s', o, hs, RunFails.of_append_hash h⟩

theorem RunFails.append {fuel : ℕ} (l : List Op) : ∀ {s : State} {ops : List Op},
    RunFails H fuel s ops → RunFails H fuel s (ops ++ l)
  | _, [], h => h.elim
  | _, _ :: _, .inl h => .inl h
  | _, _ :: _, .inr ⟨s', o, hs, h⟩ => .inr ⟨s', o, hs, RunFails.append l h⟩

theorem RunFails.of_run {fuel : ℕ} {op : Op} : ∀ {s s₁ : State} {ops : List Op} {outs : List Output},
    run H fuel s ops = some (.ok (s₁, outs)) → Fails H s₁ op → RunFails H fuel s (ops ++ [op])
  | _, _, [], _, hr, hf => by
    cases hr
    exact .inl hf
  | s, s₁, o :: ops, outs, hr, hf => by
    simp only [run] at hr
    split at hr
    · rename_i s' out hs
      obtain ⟨r, hr', he⟩ := Option.map_eq_some_iff.mp hr
      cases r with
      | error e => cases he
      | ok r =>
        obtain ⟨s₂, outs'⟩ := r
        obtain rfl : s₂ = s₁ := by
          simp only [Except.map, Except.ok.injEq, Prod.mk.injEq] at he
          exact he.1
        exact .inr ⟨s', out, hs, RunFails.of_run hr' hf⟩
    · cases hr
    · cases hr

section AsMap

variable (hH : ∀ x, (H x).length = 32) (fuel : ℕ)
include hH

/-- The trie behaves as a finite map: in every run of calls from an empty trie over a database of
hashed entries, a get of `key` gives the value the calls before it left at `key`, that of the last
update with a non-empty value not followed by a delete or an empty update, and no call fails with
a missing node. -/
theorem trie_get_last_write {db : Db} (hdb : DbOk H db) (ops : List Op)
    (hops : ∀ op ∈ ops, op.Fits fuel) (hf : ¬ RunFails H fuel ⟨⟨.nil, 0, 0⟩, db⟩ ops) :
    ∃ s' outs, run H fuel ⟨⟨.nil, 0, 0⟩, db⟩ ops = some (.ok (s', outs)) ∧
      ∀ i key, ops[i]? = some (Op.get key) →
        outs[i]? = some (Output.value ((Store.run H (fun _ => none) (ops.take i)).1 key)) := by
  obtain ⟨s', hr, -⟩ := (inv_empty hdb).run fuel hH ops hops hf
  refine ⟨s', _, hr, fun i key hi => ?_⟩
  rw [Store.run_getElem?, hi]
  rfl

omit hH in
theorem trie_get_last_write_update_get :
    ∃ s' outs, run (fun _ => List.replicate 32 0) 11 ⟨⟨.nil, 0, 0⟩, fun _ => none⟩
        [.update [1] [2], .get [1]] = some (.ok (s', outs)) ∧
      ∀ i key, [Op.update [1] [2], .get [1]][i]? = some (Op.get key) →
        outs[i]? = some (Output.value ((Store.run (fun _ => List.replicate 32 0) (fun _ => none)
          ([Op.update [1] [2], .get [1]].take i)).1 key)) :=
  trie_get_last_write (fun _ => List.length_replicate) 11 (fun _ _ h => by cases h) _
    (by simp [Op.Fits]) (by simp [RunFails, Fails])

/-- The root hash is a function of the contents alone: after two runs of calls from empty tries
that leave one map, both roots stand for the same canonical tree, and `Hash` returns the same
root hash for both. -/
theorem hash_function_of_contents {db₁ db₂ : Db} (hdb₁ : DbOk H db₁) (hdb₂ : DbOk H db₂)
    {ops₁ ops₂ : List Op} (hops₁ : ∀ op ∈ ops₁, op.Fits fuel) (hops₂ : ∀ op ∈ ops₂, op.Fits fuel)
    (hf₁ : ¬ RunFails H fuel ⟨⟨.nil, 0, 0⟩, db₁⟩ ops₁)
    (hf₂ : ¬ RunFails H fuel ⟨⟨.nil, 0, 0⟩, db₂⟩ ops₂)
    (hm : (Store.run H (fun _ => none) ops₁).1 = (Store.run H (fun _ => none) ops₂).1) :
    ∃ t s₁ s₂, t.Canon ∧ Denotes H s₁.db s₁.trie.root t ∧ Denotes H s₂.db s₂.trie.root t ∧
      run H fuel ⟨⟨.nil, 0, 0⟩, db₁⟩ (ops₁ ++ [.hash]) =
        some (.ok (s₁, (Store.run H (fun _ => none) ops₁).2 ++ [.root (t.rootHash H)])) ∧
      run H fuel ⟨⟨.nil, 0, 0⟩, db₂⟩ (ops₂ ++ [.hash]) =
        some (.ok (s₂, (Store.run H (fun _ => none) ops₂).2 ++ [.root (t.rootHash H)])) := by
  have hfits : ∀ {ops : List Op}, (∀ op ∈ ops, op.Fits fuel) → ∀ op ∈ ops ++ [.hash], op.Fits fuel :=
    fun hops op hop => (List.mem_append.mp hop).elim (hops op) fun h => by
      rw [List.mem_singleton.mp h]
      trivial
  obtain ⟨s₁, hr₁, ⟨t₁, h₁, hm₁⟩, -⟩ := (inv_empty hdb₁).run fuel hH _ (hfits hops₁)
    (mt RunFails.of_append_hash hf₁)
  obtain ⟨s₂, hr₂, ⟨t₂, h₂, hm₂⟩, -⟩ := (inv_empty hdb₂).run fuel hH _ (hfits hops₂)
    (mt RunFails.of_append_hash hf₂)
  rw [Store.run_append_singleton] at hr₁ hr₂ hm₁ hm₂
  have ht : t₁ = t₂ := eq_of_contents h₁.canon h₂.canon h₁.keysOk h₂.keysOk (by
    rw [hm₁, hm₂, hm])
  subst ht
  refine ⟨t₁, s₁, s₂, h₁.canon, h₁.denotes, h₂.denotes, ?_, ?_⟩
  · rw [hr₁, Store.answer, ← Store.rootHash_contents h₁.canon h₁.keysOk, hm₁]
    rfl
  · rw [hr₂, Store.answer, ← Store.rootHash_contents h₁.canon h₁.keysOk, hm₂]
    rfl

omit hH in
theorem hash_function_of_contents_update_delete :
    ∃ t s₁ s₂, t.Canon ∧ Denotes (fun _ => List.replicate 32 0) s₁.db s₁.trie.root t ∧
      Denotes (fun _ => List.replicate 32 0) s₂.db s₂.trie.root t ∧
      run (fun _ => List.replicate 32 0) 11 ⟨⟨.nil, 0, 0⟩, fun _ => none⟩
          ([.update [1] [2], .update [2] [3], .delete [2]] ++ [.hash]) =
        some (.ok (s₁, (Store.run (fun _ => List.replicate 32 0) (fun _ => none)
          [.update [1] [2], .update [2] [3], .delete [2]]).2 ++
            [.root (t.rootHash (fun _ => List.replicate 32 0))])) ∧
      run (fun _ => List.replicate 32 0) 11 ⟨⟨.nil, 0, 0⟩, fun _ => none⟩ ([.update [1] [2]] ++ [.hash]) =
        some (.ok (s₂, (Store.run (fun _ => List.replicate 32 0) (fun _ => none) [.update [1] [2]]).2 ++
          [.root (t.rootHash (fun _ => List.replicate 32 0))])) :=
  hash_function_of_contents (fun _ => List.length_replicate) 11 (fun _ _ h => by cases h)
    (fun _ _ h => by cases h) (by simp [Op.Fits]) (by simp [Op.Fits]) (by simp [RunFails, Fails])
    (by simp [RunFails, Fails]) (by
      funext k
      by_cases h1 : k = [1] <;> by_cases h2 : k = [2] <;>
        simp_all [Store.run, Store.apply])

/-- Commit never loses data under cache unloading. After any run of calls from an empty trie,
every node in memory whose parent is clean is clean, and every node the hasher may unload to its
hash, whatever the generations, is clean and stored in the database under that hash. A commit then
returns a root `r`, and `New` at `r` over the database it wrote gives a trie that answers every get
as the trie before the commit does, and whose `Hash` is `r`. -/
theorem commit_keeps_data {db : Db} (hdb : DbOk H db) (ops : List Op)
    (hops : ∀ op ∈ ops, op.Fits fuel) (hf : ¬ RunFails H fuel ⟨⟨.nil, 0, 0⟩, db⟩ (ops ++ [.reset])) :
    ∃ s₁ s₂ r, run H fuel ⟨⟨.nil, 0, 0⟩, db⟩ ops = some (.ok (s₁, (Store.run H (fun _ => none) ops).2)) ∧
      FlagsOk H s₁.db true s₁.trie.root ∧
      (∀ n, n.Below s₁.trie.root → ∀ x g l, n.cache.1 = some x → n.canUnload g l = true →
        n.dirty = false ∧ s₁.db x = some (encodeNode (collapse H n))) ∧
      step H fuel s₁ .reset = some (.ok (s₂, .root r)) ∧
      (∃ s₃, step H fuel s₂ .hash = some (.ok (s₃, .root r))) ∧
      ∀ key, (Op.get key).Fits fuel → ∃ v s₁' s₂', step H fuel s₁ (.get key) = some (.ok (s₁', .value v)) ∧
        step H fuel s₂ (.get key) = some (.ok (s₂', .value v)) := by
  obtain ⟨s₁, hr₁, hI₁⟩ := (inv_empty hdb).run fuel hH ops hops fun h => hf (h.append [.reset])
  obtain ⟨s₂, hs₂, hI₂⟩ := hI₁.reset fuel hH fun h => hf (RunFails.of_run hr₁ h)
  obtain ⟨s₃, hs₃, -⟩ := hI₂.hash fuel
  obtain ⟨t, ht, -⟩ := hI₁.holds
  refine ⟨s₁, s₂, _, hr₁, ht.flagsOk, fun n hb x g l hx hu => ?_, hs₂, ⟨s₃, hs₃⟩, fun key hop => ?_⟩
  · obtain ⟨r, hn⟩ := ht.flagsOk.below hb
    exact hn.canUnload hx hu
  · obtain ⟨s₁', hg₁, -⟩ := hI₁.get fuel hH key hop
    obtain ⟨s₂', hg₂, -⟩ := hI₂.get fuel hH key hop
    exact ⟨_, s₁', s₂', hg₁, hg₂⟩

omit hH in
theorem not_runFails_update_reset :
    ¬ RunFails (fun x => (x ++ List.replicate 32 0).take 32) 11 ⟨⟨.nil, 0, 0⟩, fun _ => none⟩
      ([.update [1] [2]] ++ [.reset]) := by
  have hstep : step (fun x => (x ++ List.replicate 32 0).take 32) 11 ⟨⟨.nil, 0, 0⟩, fun _ => none⟩
      (.update [1] [2]) = some (.ok (⟨⟨.short [0, 1, 16] (.value [2]) ⟨none, 0, true⟩, 0, 0⟩, fun _ => none⟩,
        .done)) := rfl
  have hputs : (Trie.CommitTo (fun x => (x ++ List.replicate 32 0).take 32)
      ⟨.short [0, 1, 16] (.value [2]) ⟨none, 0, true⟩, 0, 0⟩).map (fun q => (q.1.bytes, q.2.2)) =
      some ([196, 130, 32, 1, 2] ++ List.replicate 27 0,
        [([196, 130, 32, 1, 2] ++ List.replicate 27 0, [196, 130, 32, 1, 2])]) := rfl
  rintro (h | ⟨s', o, hs, h | ⟨_, _, _, h⟩⟩)
  · exact h
  · rw [hstep] at hs
    simp only [Option.some.injEq, Except.ok.injEq, Prod.mk.injEq] at hs
    obtain ⟨rfl, rfl⟩ := hs
    rcases h with ⟨r, tr, puts, hc, p, hp, e, he | he, hne, -⟩ | ⟨r, tr, puts, hc, -, hr⟩
    · cases he
    · rw [hc] at hputs
      simp only [Option.map_some, Option.some.injEq, Prod.mk.injEq] at hputs
      rw [hputs.2] at hp he
      rw [List.mem_singleton.mp hp] at he hne
      exact hne (Prod.mk.inj (List.mem_singleton.mp he)).2
    · rw [hc] at hputs
      simp only [Option.map_some, Option.some.injEq, Prod.mk.injEq] at hputs
      rcases hr with rfl | rfl
      · exact absurd hputs.1 (by decide)
      · exact absurd hputs.1 (by decide)
  · exact h

omit hH in
theorem commit_keeps_data_update :
    ∃ s₁ s₂ r, run (fun x => (x ++ List.replicate 32 0).take 32) 11 ⟨⟨.nil, 0, 0⟩, fun _ => none⟩
        [.update [1] [2]] = some (.ok (s₁, (Store.run (fun x => (x ++ List.replicate 32 0).take 32)
          (fun _ => none) [.update [1] [2]]).2)) ∧
      FlagsOk (fun x => (x ++ List.replicate 32 0).take 32) s₁.db true s₁.trie.root ∧
      (∀ n, n.Below s₁.trie.root → ∀ x g l, n.cache.1 = some x → n.canUnload g l = true →
        n.dirty = false ∧ s₁.db x = some (encodeNode (collapse (fun x => (x ++ List.replicate 32 0).take 32) n))) ∧
      step (fun x => (x ++ List.replicate 32 0).take 32) 11 s₁ .reset = some (.ok (s₂, .root r)) ∧
      (∃ s₃, step (fun x => (x ++ List.replicate 32 0).take 32) 11 s₂ .hash = some (.ok (s₃, .root r))) ∧
      ∀ key, (Op.get key).Fits 11 → ∃ v s₁' s₂',
        step (fun x => (x ++ List.replicate 32 0).take 32) 11 s₁ (.get key) = some (.ok (s₁', .value v)) ∧
        step (fun x => (x ++ List.replicate 32 0).take 32) 11 s₂ (.get key) = some (.ok (s₂', .value v)) :=
  commit_keeps_data (fun x => by simp) 11 (fun _ _ h => by cases h) _ (by simp [Op.Fits])
    not_runFails_update_reset

end AsMap

end Sphinx.Trie
