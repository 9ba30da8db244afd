import Sphinx.Trie.Run

/-! # Iterating over a trie

`iterator.go`: a node iterator walks the trie in pre-order with a stack of frames, one for each
node from the root down to the current one; each frame remembers which child it is iterating.
`Next` moves to the first child of the current node, or pops frames until one has a next child,
loading hash nodes from the database on the way. `seek` moves it forward to a start key, and the
key-value `Iterator` stops at the leaves, the value nodes, whose path is the hex form of their
key.

On a trie whose root denotes a canonical tree, the frames of the stack stand for the nodes of the
tree on the path to the current node (`Frames`), and what the iteration has still to visit is
the list of the nodes after them in pre-order (`remOf`). One `Next` visits the head of that list
(`Frames.next`); from the start, the iterator visits every node of the tree in pre-order, and the
key-value iterator gives the tree's contents, each key once, in the order of the hex keys
(`iterator_entries`).
-/

namespace Sphinx.Trie

open Rlp Sphinx.Trie.Tree Hasher

/-! ## The source -/

/-- `nodeIteratorState`: the node iterated, loaded from the database when it was a hash node; its
hash, zero when it is not stored by itself; the hash of its first ancestor with one; the child
iterated (`-1` before the first); and the length of the path to its parent. -/
structure IterState where
  hash : Hash
  node : Node
  parent : Hash
  index : ℤ
  pathlen : ℕ

/-- What `it.err` holds: `iteratorEnd`, a `seekError` of the start key, or a missing node. -/
inductive IterErr where
  | iteratorEnd
  | seekError (key : Bytes) (err : MissingNodeError)
  | missing (err : MissingNodeError)

/-- `nodeIterator`, with the top of its stack first. The trie is `none` in the iterator that
`newNodeIterator` makes for a trie whose hash is `emptyState`; only an iterator with a trie ever
has frames on its stack. -/
structure NodeIterator where
  trie : Option Trie
  stack : List IterState
  path : List UInt8
  err : Option IterErr

/-- What `peek` gives: the next state, whether it has a parent on the stack, and its path; the
missing node that stopped it; or `iteratorEnd`. -/
inductive Peeked where
  | next (state : IterState) (hasParent : Bool) (path : List UInt8)
  | error (e : MissingNodeError)
  | iteratorEnd

/-- `st.resolve(tr, path)`: a hash node is loaded, and its hash becomes the state's. -/
def IterState.resolve (st : IterState) (tr : Trie) (db : Db) (path : List UInt8) : Walk IterState :=
  match st.node with
  | .hash h =>
    (tr.resolveHash db h path).map (Except.map fun n => { st with node := n, hash := bytesToHash h })
  | .nil | .value _ | .short .. | .full .. => some (.ok st)

/-- The state of a child, not loaded yet: its cached hash, zero for none. -/
def childState (c : Node) (ancestor : Hash) (pathlen : ℕ) : IterState :=
  ⟨bytesToHash (c.cache.1.getD []), c, ancestor, -1, pathlen⟩

/-- `nextChild(parent, ancestor)`: the first child after the one the parent's index names, with
the parent's index moved to just before it (the push moves it onto it), the state of the child
and its path. A full node looks from its index on for a child that is not nil; a short node has
one child, before any; other nodes have none. -/
def nextChild (path : List UInt8) (parent : IterState) (ancestor : Hash) :
    Option (IterState × IterState × List UInt8) :=
  match parent.node with
  | .full cs _ =>
    match (List.finRange 17).find? (fun i => decide (parent.index + 1 ≤ i.val) && !(cs i).isNil) with
    | some i =>
      some ({ parent with index := i.val - 1 }, childState (cs i) ancestor path.length,
        path ++ [i.val.toUInt8])
    | none => none
  | .short key val _ =>
    if parent.index < 0 then some (parent, childState val ancestor path.length, path ++ key)
    else none
  | .nil | .value _ | .hash _ => none

/-- The ancestor hash a frame gives its children: its own, or its ancestor's when it has none. -/
def IterState.ancestor (parent : IterState) : Hash :=
  if parent.hash = zeroHash then parent.parent else parent.hash

/-- The loop of `peek` over the stack: the frame on top goes on with its next child, loaded when it
is a hash node, or is popped, the path cut back to the path of its parent. -/
def peekLoop (tr : Trie) (db : Db) : List IterState → List UInt8 →
    Option (List IterState × List UInt8 × Peeked)
  | [], path => some ([], path, .iteratorEnd)
  | parent :: rest, path =>
    match nextChild path parent parent.ancestor with
    | some (parent', state, cpath) =>
      match state.resolve tr db cpath with
      | some (.ok state') => some (parent' :: rest, path, .next state' true cpath)
      | some (.error e) => some (parent' :: rest, path, .error e)
      | none => none
    | none => peekLoop tr db rest (path.take parent.pathlen)

variable (H : Bytes → Bytes) (db : Db)

/-- `peek(descend)`: the next state. On an empty stack it is the root, after `Hash`, which caches
the hashes in the trie's nodes; without `descend` the current node is popped first, so that its
children are skipped. -/
def peek (it : NodeIterator) (descend : Bool) : Option (NodeIterator × Peeked) :=
  match it.trie with
  | none => none
  | some tr =>
    match it.stack with
    | [] =>
      match tr.Hash H with
      | none => none
      | some (root, tr) =>
        let state : IterState :=
          ⟨if root ≠ bytesToHash (emptyRoot H) then root else zeroHash, tr.root, zeroHash, -1, 0⟩
        match state.resolve tr db [] with
        | some (.ok state) => some ({ it with trie := some tr }, .next state false [])
        | some (.error e) => some ({ it with trie := some tr }, .error e)
        | none => none
    | top :: rest =>
      let (stack, path) := if descend then (it.stack, it.path) else (rest, it.path.take top.pathlen)
      (peekLoop tr db stack path).map fun r => ({ it with stack := r.1, path := r.2.1 }, r.2.2)

/-- `push(state, parentIndex, path)`: the new state goes on top, and its parent moves its index
onto it. -/
def push (it : NodeIterator) (state : IterState) (hasParent : Bool) (path : List UInt8) :
    NodeIterator :=
  { it with
    path := path
    stack := state :: if hasParent then it.stack.modifyHead fun p => { p with index := p.index + 1 }
      else it.stack }

/-- The step of `Next` after the error checks: `peek`, then the state it gives is pushed, or its
error kept. -/
def advance (it : NodeIterator) (descend : Bool) : Option (NodeIterator × Bool) :=
  match peek H db it descend with
  | none => none
  | some (it, .next state hasParent path) => some (push { it with err := none } state hasParent path, true)
  | some (it, .error e) => some ({ it with err := some (.missing e) }, false)
  | some (it, .iteratorEnd) => some ({ it with err := some .iteratorEnd }, false)

/-- The loop of `seek(prefix)`: forward, descending only into nodes whose path leads to the hex
`key` of the prefix, up to the first node whose path is not before the key, which is not pushed. -/
def seekLoop (key : List UInt8) (pfx : Bytes) : ℕ → NodeIterator → Option (NodeIterator × Option IterErr)
  | 0, _ => none
  | fuel + 1, it =>
    match peek H db it (decide (it.path <+: key)) with
    | none => none
    | some (it, .iteratorEnd) => some (it, some .iteratorEnd)
    | some (it, .error e) => some (it, some (.seekError pfx e))
    | some (it, .next state hasParent path) =>
      if ¬ path < key then some (it, none) else seekLoop key pfx fuel (push it state hasParent path)

/-- `seek(prefix)`, at the hex form of the prefix without its terminator. -/
def seek (fuel : ℕ) (it : NodeIterator) (pfx : Bytes) : Option (NodeIterator × Option IterErr) :=
  seekLoop H db (keybytesToHex pfx).dropLast pfx fuel it

/-- `Next(descend)`: nothing after the end; after a failed seek, the seek again; then one step. A
missing node does not stop the iterator: the next call tries again. -/
def NodeIterator.Next (fuel : ℕ) (it : NodeIterator) (descend : Bool) : Option (NodeIterator × Bool) :=
  match it.err with
  | some .iteratorEnd => some (it, false)
  | some (.seekError key _) =>
    match seek H db fuel it key with
    | none => none
    | some (it, some e) => some ({ it with err := some e }, false)
    | some (it, none) => advance H db { it with err := none } descend
  | some (.missing _) | none => advance H db it descend

/-- `newNodeIterator(trie, start)`: the trie is hashed first, which changes the caller's trie,
shared with the iterator from then on; a trie whose hash is `emptyState`, the hash of no bytes,
gets an iterator without a trie. Otherwise the iterator seeks the start key. -/
def newNodeIterator (fuel : ℕ) (trie : Trie) (start : Bytes) : Option (Trie × NodeIterator) :=
  match trie.Hash H with
  | none => none
  | some (h, trie) =>
    if h = bytesToHash (H []) then some (trie, ⟨none, [], [], none⟩)
    else (seek H db fuel ⟨some trie, [], [], none⟩ start).map fun r => (trie, { r.1 with err := r.2 })

namespace NodeIterator

variable (it : NodeIterator)

/-- `Leaf()`: the path ends in the terminator. -/
def Leaf : Bool := hasTerm it.path

/-- `LeafBlob()`: the value the iterator is at; anywhere else it panics. -/
def LeafBlob : Option Bytes :=
  match it.stack with
  | [] => none
  | st :: _ =>
    match st.node with
    | .value v => some v
    | .nil | .hash _ | .short .. | .full .. => none

/-- `LeafKey()`: the key of the value the iterator is at, from its hex path; anywhere else, or on
a path of odd length, it panics. -/
def LeafKey : Option Bytes :=
  match it.stack with
  | [] => none
  | st :: _ => if st.node.isValue then hexToKeybytes it.path else none

/-- `Error()`: the end of the iteration is not an error, and a failed seek reports the error of
the node it missed. -/
def Error : Option MissingNodeError :=
  match it.err with
  | none | some .iteratorEnd => none
  | some (.seekError _ e) | some (.missing e) => some e

end NodeIterator

/-- `Iterator`: the key and value of the leaf it is at, `[]` for none. -/
structure Iterator where
  nodeIt : NodeIterator
  key : Bytes
  value : Bytes
  err : Option MissingNodeError

/-- `NewIterator(it)`. -/
def NewIterator (it : NodeIterator) : Iterator := ⟨it, [], [], none⟩

/-- `Next()`: on through the nodes that are not leaves, at most `steps` of them, to the next leaf;
at the end the key and value are cleared and the error of the node iterator kept. -/
def Iterator.Next (fuel : ℕ) : ℕ → Iterator → Option (Iterator × Bool)
  | 0, _ => none
  | steps + 1, it =>
    match it.nodeIt.Next H db fuel true with
    | none => none
    | some (nodeIt, true) =>
      if nodeIt.Leaf then
        match nodeIt.LeafKey, nodeIt.LeafBlob with
        | some k, some v => some ({ it with nodeIt := nodeIt, key := k, value := v }, true)
        | _, _ => none
      else Iterator.Next fuel steps { it with nodeIt := nodeIt }
    | some (nodeIt, false) => some (⟨nodeIt, [], [], nodeIt.Error⟩, false)

/-- The loop of the iterator's callers (`for it.Next() { ... }`, as in `dump.go` and
`ForEachStorage`): the entries in the order the iterator gives them, and its error. -/
def Iterator.drain (fuel : ℕ) : ℕ → Iterator → Option (List (Bytes × Bytes) × Option MissingNodeError)
  | 0, _ => none
  | n + 1, it =>
    match it.Next H db fuel fuel with
    | none => none
    | some (it, true) => (Iterator.drain fuel n it).map fun r => ((it.key, it.value) :: r.1, r.2)
    | some (it, false) => some ([], it.err)

/-- The loop of a caller that steps the node iterator with `Next(true)`, as the iterators of
`state.NodeIterator` do: the path of each state it visits, in order, and its error. -/
def NodeIterator.walk (fuel : ℕ) : ℕ → NodeIterator → Option (List (List UInt8) × Option MissingNodeError)
  | 0, _ => none
  | n + 1, it =>
    match it.Next H db fuel true with
    | none => none
    | some (it, true) => (NodeIterator.walk fuel n it).map fun r => (it.path :: r.1, r.2)
    | some (it, false) => some ([], it.Error)

/-! ## The nodes of a tree in pre-order -/

theorem hasTerm_of_append_eq {q k b : List UInt8} (h : q ++ k = keybytesToHex b) (hk : k ≠ []) :
    hasTerm q = false := by
  obtain ⟨ns, hns, hb⟩ := termKey_keybytesToHex b
  obtain ⟨k', z, rfl⟩ := (List.eq_nil_or_concat' k).resolve_left hk
  rw [hb, ← List.append_assoc] at h
  have hq : q ++ k' = ns := (List.append_inj' h rfl).1
  rw [← hq] at hns
  exact hasTerm_of_nibbles (nibbles_append.mp hns).1

namespace Tree

/-- The nodes below `t`, at path `p`, that come after its child `j` in pre-order, with their
paths: the children of a full node with a greater index that are not nil, each followed by the
nodes below it; the child of a short node, before it is visited (`j < 0`). -/
def after : Tree → List UInt8 → ℤ → List (List UInt8 × Tree)
  | short k c, p, j => if j < 0 then (p ++ k, c) :: c.after (p ++ k) (-1) else []
  | full ts, p, j => (List.finRange 17).flatMap fun i =>
      if j < i.val ∧ (ts i).isNil = false then
        (p ++ [i.val.toUInt8], ts i) :: (ts i).after (p ++ [i.val.toUInt8]) (-1)
      else []
  | nil, _, _ | value _, _, _ => []

/-- The nodes of `t`, at path `p`, in pre-order. -/
def nodes (t : Tree) (p : List UInt8) : List (List UInt8 × Tree) :=
  (p, t) :: t.after p (-1)

@[simp] theorem after_nil (p : List UInt8) (j : ℤ) : nil.after p j = [] := rfl

@[simp] theorem after_value (v : Bytes) (p : List UInt8) (j : ℤ) : (value v).after p j = [] := rfl

theorem after_short (k : List UInt8) (c : Tree) (p : List UInt8) (j : ℤ) :
    (short k c).after p j = if j < 0 then c.nodes (p ++ k) else [] := rfl

theorem after_full (ts : Fin 17 → Tree) (p : List UInt8) (j : ℤ) :
    (full ts).after p j = (List.finRange 17).flatMap fun i =>
      if j < i.val ∧ (ts i).isNil = false then (ts i).nodes (p ++ [i.val.toUInt8]) else [] := rfl

theorem after_full_split {ts : Fin 17 → Tree} {p : List UInt8} {j : ℤ} {i : Fin 17}
    {as bs : List (Fin 17)} (hl : List.finRange 17 = as ++ i :: bs) (hi : j < i.val)
    (hn : (ts i).isNil = false) (has : ∀ a ∈ as, ¬ (j < a.val ∧ (ts a).isNil = false)) :
    (full ts).after p j = (ts i).nodes (p ++ [i.val.toUInt8]) ++ (full ts).after p i.val := by
  have hs := List.pairwise_lt_finRange 17
  rw [hl, List.pairwise_append, List.pairwise_cons] at hs
  obtain ⟨-, ⟨hbs, -⟩, hcross⟩ := hs
  let block (j : ℤ) (a : Fin 17) : List (List UInt8 × Tree) :=
    if j < a.val ∧ (ts a).isNil = false then (ts a).nodes (p ++ [a.val.toUInt8]) else []
  have h1 : as.flatMap (block j) = [] :=
    List.flatMap_eq_nil_iff.mpr fun a ha => if_neg (has a ha)
  have h2 : as.flatMap (block i.val) = [] := by
    refine List.flatMap_eq_nil_iff.mpr fun a ha => if_neg fun h => ?_
    have := Fin.lt_def.mp (hcross a ha i List.mem_cons_self)
    omega
  have h3 : bs.flatMap (block j) = bs.flatMap (block i.val) := by
    refine List.flatMap_congr fun a ha => ?_
    have := Fin.lt_def.mp (hbs a ha)
    have hj : j < a.val := by omega
    have hi' : (i.val : ℤ) < a.val := by omega
    simp only [block, hj, hi', true_and]
  have hii : block i.val i = [] := if_neg (by omega)
  have hji : block j i = (ts i).nodes (p ++ [i.val.toUInt8]) := if_pos ⟨hi, hn⟩
  change (List.finRange 17).flatMap (block j) = _ ++ (List.finRange 17).flatMap (block i.val)
  rw [hl, List.flatMap_append, List.flatMap_append, List.flatMap_cons, List.flatMap_cons, h1, h2,
    h3, hii, hji]
  simp

theorem after_full_eq_nil {ts : Fin 17 → Tree} {p : List UInt8} {j : ℤ}
    (h : ∀ i : Fin 17, j < i.val → (ts i).isNil = true) : (full ts).after p j = [] := by
  refine List.flatMap_eq_nil_iff.mpr fun i _ => if_neg fun hi => ?_
  rw [h i hi.1] at hi
  exact Bool.noConfusion hi.2

theorem mem_after : ∀ {s : Tree} {p : List UInt8} {j : ℤ} {e : List UInt8 × Tree}, s.Canon →
    e ∈ s.after p j → ∃ a x, e.1 = p ++ a :: x ∧ e.2.Canon ∧ e.2.isNil = false ∧
      ∀ k, e.2.lookup k = s.lookup (a :: x ++ k)
  | nil, _, _, _, _, he | value _, _, _, _, _, he => by simp at he
  | short k c, p, j, e, hc, he => by
    obtain ⟨hk, -, -, hcv, hcc⟩ := hc
    obtain ⟨a, k', rfl⟩ := List.exists_cons_of_ne_nil hk
    rw [after_short] at he
    split_ifs at he with hj
    · rcases List.mem_cons.mp he with rfl | he
      · refine ⟨a, k', rfl, hcc, ?_, fun key => (lookup_short_append (a :: k') c key).symm⟩
        rcases hcv with h | h <;> cases c <;> simp_all [Tree.isValue, Tree.isFull, Tree.isNil]
      · obtain ⟨b, x, hq, hce, hn, hl⟩ := mem_after hcc he
        refine ⟨a, k' ++ b :: x, by simp [hq], hce, hn, fun key => ?_⟩
        rw [hl key]
        simpa using (lookup_short_append (a :: k') c (b :: x ++ key)).symm
    · simp at he
  | full ts, p, j, e, hc, he => by
    obtain ⟨i, -, hi⟩ := List.mem_flatMap.mp he
    split_ifs at hi with hij
    · have hci := (hc.1 i).1
      rcases List.mem_cons.mp hi with rfl | hi
      · exact ⟨i.val.toUInt8, [], rfl, hci, hij.2, fun key => by simp⟩
      · obtain ⟨b, x, hq, hce, hn, hl⟩ := mem_after hci hi
        refine ⟨i.val.toUInt8, b :: x, by simp [hq], hce, hn, fun key => ?_⟩
        rw [hl key]
        simp
    · simp at hi

theorem mem_nodes_of_lookup : ∀ {s : Tree} {x : List UInt8} {v : Bytes} (p : List UInt8),
    s.lookup x = some v → (p ++ x, value v) ∈ s.nodes p
  | nil, _, _, _, h => by simp at h
  | value w, x, v, p, h => by
    rw [lookup_value] at h
    split_ifs at h with hx
    cases h
    simp [nodes, hx]
  | short k c, x, v, p, h => by
    obtain ⟨rest, rfl, hr⟩ := lookup_short_some h
    have ih := mem_nodes_of_lookup (p ++ k) hr
    rw [← List.append_assoc]
    exact List.mem_cons_of_mem _ (by rw [after_short, if_pos (by decide)]; exact ih)
  | full ts, x, v, p, h => by
    obtain ⟨i, rest, rfl, hr⟩ := lookup_full_some h
    have hn : (ts i).isNil = false := by cases hts : ts i <;> simp_all [Tree.isNil]
    have ih := mem_nodes_of_lookup (p ++ [i.val.toUInt8]) hr
    refine List.mem_cons_of_mem _ (List.mem_flatMap.mpr ⟨i, List.mem_finRange i, ?_⟩)
    rw [if_pos ⟨by omega, hn⟩]
    rw [List.append_assoc, List.singleton_append] at ih
    exact ih

theorem path_of_mem_block {ts : Fin 17 → Tree} {p : List UInt8} {j : ℤ} {i : Fin 17}
    {q : List UInt8} (hc : (ts i).Canon)
    (hq : q ∈ (if j < i.val ∧ (ts i).isNil = false then (ts i).nodes (p ++ [i.val.toUInt8])
      else []).map Prod.fst) :
    ∃ x, q = p ++ i.val.toUInt8 :: x := by
  split_ifs at hq
  · obtain ⟨e, he, rfl⟩ := List.mem_map.mp hq
    rcases List.mem_cons.mp he with rfl | he
    · exact ⟨[], rfl⟩
    · obtain ⟨a, x, hq', -⟩ := mem_after hc he
      exact ⟨a :: x, by simp [hq']⟩
  · simp at hq

theorem sorted_nodes_of_after {s : Tree} {p : List UInt8} (hc : s.Canon)
    (h : ((s.after p (-1)).map Prod.fst).Pairwise (· < ·)) :
    ((s.nodes p).map Prod.fst).Pairwise (· < ·) := by
  refine List.pairwise_cons.mpr ⟨fun q hq => ?_, h⟩
  obtain ⟨e, he, rfl⟩ := List.mem_map.mp hq
  obtain ⟨a, x, hq', -⟩ := mem_after hc he
  rw [hq']
  simpa using (show p ++ [] < p ++ a :: x from List.append_left_lt (List.nil_lt_cons a x))

theorem after_sorted : ∀ {s : Tree} {p : List UInt8} {j : ℤ}, s.Canon →
    ((s.after p j).map Prod.fst).Pairwise (· < ·)
  | nil, _, _, _ | value _, _, _, _ => by simp
  | short k c, p, j, hc => by
    rw [after_short]
    split_ifs
    · exact sorted_nodes_of_after hc.2.2.2.2 (after_sorted hc.2.2.2.2)
    · simp
  | full ts, p, j, hc => by
    rw [after_full, List.map_flatMap, List.pairwise_flatMap]
    refine ⟨fun i _ => ?_, (List.pairwise_lt_finRange 17).imp_of_mem fun {i i'} _ _ hii' => ?_⟩
    · split_ifs
      · exact sorted_nodes_of_after (hc.1 i).1 (after_sorted (hc.1 i).1)
      · simp
    · intro q hq q' hq'
      obtain ⟨x, rfl⟩ := path_of_mem_block (hc.1 i).1 hq
      obtain ⟨x', rfl⟩ := path_of_mem_block (hc.1 i').1 hq'
      refine List.append_left_lt (List.cons_lt_cons_iff.mpr (.inl ?_))
      rw [UInt8.lt_iff_toNat_lt, toNat_toUInt8_fin, toNat_toUInt8_fin]
      exact hii'

theorem nodes_sorted (p : List UInt8) {s : Tree} (hc : s.Canon) :
    ((s.nodes p).map Prod.fst).Pairwise (· < ·) :=
  sorted_nodes_of_after hc (after_sorted hc)

/-- A canonical tree that is not a value holds nothing at the empty key. -/
theorem Canon.lookup_empty {c : Tree} (hc : c.Canon) (hv : c.isValue = false) : c.lookup [] = none := by
  cases c with
  | nil | full _ => rfl
  | value _ => simp [Tree.isValue] at hv
  | short k _ => simp [lookup_short, hc.1]

theorem leaf_of_mem_nodes {t : Tree} (hc : t.Canon) (hk : t.KeysOk) {q : List UInt8} {c : Tree}
    (he : (q, c) ∈ t.nodes []) :
    (∃ v b, c = value v ∧ q = keybytesToHex b ∧ t.contents b = some v) ∨
      (c.isValue = false ∧ hasTerm q = false) := by
  rcases List.mem_cons.mp he with he | he
  · obtain ⟨rfl, rfl⟩ := Prod.mk.inj he
    exact .inr ⟨hk.isValue, rfl⟩
  · obtain ⟨a, x, hq, hcc, hn, hl⟩ := mem_after hc he
    simp only [List.nil_append] at hq hcc hn hl
    cases hv : c.isValue with
    | true =>
      obtain ⟨v, rfl⟩ : ∃ v, c = value v := by cases c <;> simp_all [Tree.isValue]
      have hlk : t.lookup (a :: x) = some v := by simpa [lookup_value] using (hl []).symm
      obtain ⟨b, hb⟩ := hk (a :: x) (by simp [HasKey, hlk])
      refine .inl ⟨v, b, rfl, hq.trans hb, ?_⟩
      rw [contents, ← hb, hlk]
    | false =>
      obtain ⟨k, hkk⟩ := Canon.exists_key hcc hn
      have hk0 : k ≠ [] := by
        rintro rfl
        simp [HasKey, hcc.lookup_empty hv] at hkk
      obtain ⟨b, hb⟩ := hk (a :: x ++ k) (by simpa [HasKey, hl] using hkk)
      exact .inr ⟨rfl, hq ▸ hasTerm_of_append_eq hb hk0⟩

/-- The child of `s` at `p` that the index `j` names: `c`, at `q`. -/
def ChildAt (s : Tree) (p : List UInt8) (j : ℤ) (c : Tree) (q : List UInt8) : Prop :=
  (∃ k, s = short k c ∧ j = 0 ∧ q = p ++ k) ∨
    ∃ (ts : Fin 17 → Tree) (i : Fin 17), s = full ts ∧ j = i.val ∧ c = ts i ∧ c.isNil = false ∧
      q = p ++ [i.val.toUInt8]

end Tree

/-- The entry the key-value iterator makes of a node: a value, under the key of its hex path. -/
def leafEntry : List UInt8 × Tree → Option (Bytes × Bytes)
  | (q, .value v) => (hexToKeybytes q).map fun k => (k, v)
  | (_, .nil) | (_, .short _ _) | (_, .full _) => none

section Entries

variable {t : Tree} (hc : t.Canon) (hk : t.KeysOk)
include hc hk

theorem keybytesToHex_of_leafEntry {e : List UInt8 × Tree} {x : Bytes × Bytes}
    (he : e ∈ t.nodes []) (hx : leafEntry e = some x) : keybytesToHex x.1 = e.1 := by
  obtain ⟨q, c⟩ := e
  rcases leaf_of_mem_nodes hc hk he with ⟨v, b, rfl, rfl, -⟩ | ⟨hv, -⟩
  · simp only [leafEntry, hexToKeybytes_keybytesToHex, Option.map_some, Option.some.injEq] at hx
    rw [← hx]
  · cases c <;> simp_all [leafEntry, Tree.isValue]

theorem mem_entries {key v : Bytes} :
    (key, v) ∈ (t.nodes []).filterMap leafEntry ↔ t.contents key = some v := by
  constructor
  · intro h
    obtain ⟨⟨q, c⟩, he, hx⟩ := List.mem_filterMap.mp h
    rcases leaf_of_mem_nodes hc hk he with ⟨w, b, rfl, rfl, hb⟩ | ⟨hv, -⟩
    · simp only [leafEntry, hexToKeybytes_keybytesToHex, Option.map_some, Option.some.injEq,
        Prod.mk.injEq] at hx
      obtain ⟨rfl, rfl⟩ := hx
      exact hb
    · cases c <;> simp_all [leafEntry, Tree.isValue]
  · intro h
    have he := mem_nodes_of_lookup (x := keybytesToHex key) [] h
    exact List.mem_filterMap.mpr ⟨_, he, by simp [leafEntry, hexToKeybytes_keybytesToHex]⟩

/-- The entries of the last nodes of a canonical tree of values at hex keys come in the order of
their hex keys, each key once. -/
theorem entries_sorted {rem : List (List UInt8 × Tree)} (hs : rem <:+ t.nodes []) :
    ((rem.filterMap leafEntry).map fun e => keybytesToHex e.1).Pairwise (· < ·) := by
  rw [List.pairwise_map, List.pairwise_filterMap]
  have hsorted := (List.pairwise_map.mp (nodes_sorted [] hc)).sublist hs.sublist
  refine hsorted.imp_of_mem fun {e e'} he he' hlt => ?_
  intro x hx x' hx'
  rw [keybytesToHex_of_leafEntry hc hk (hs.subset he) hx, keybytesToHex_of_leafEntry hc hk (hs.subset he') hx']
  exact hlt

end Entries

variable {H db}

/-! ## The frames of the stack -/

variable (H db) in
/-- The stack of an iterator, top first, with the tree and path each frame stands for: the last
frame is the root of `t` at the empty path, and each frame above holds the child of the frame
below that the lower frame's index names. A frame's node is loaded, denotes its tree, and its
index is at least `-1`. -/
inductive Frames (t : Tree) : List IterState → List (Tree × List UInt8) → Prop
  | root {st : IterState} : Denotes H db st.node t → st.node.isHash = false → st.pathlen = 0 →
      -1 ≤ st.index → Frames t [st] [(t, [])]
  | child {st par : IterState} {sts : List IterState} {s c : Tree} {p q : List UInt8}
      {fs : List (Tree × List UInt8)} : Frames t (par :: sts) ((s, p) :: fs) →
      s.ChildAt p par.index c q → Denotes H db st.node c → st.node.isHash = false →
      st.pathlen = p.length → -1 ≤ st.index → Frames t (st :: par :: sts) ((c, q) :: (s, p) :: fs)

/-- What the iteration has still to visit: for each frame, top first, the nodes after the child
it iterates. -/
def remOf : List IterState → List (Tree × List UInt8) → List (List UInt8 × Tree)
  | [], _ | _ :: _, [] => []
  | st :: sts, (s, p) :: fs => s.after p st.index ++ remOf sts fs

/-- The path of the top frame. -/
def topPath : List (Tree × List UInt8) → List UInt8
  | [] => []
  | (_, p) :: _ => p

variable (H db) in
/-- The stack stands for nodes of `t`, on the path to the current one, at `path`, with `rem` after
them. -/
def Stands (t : Tree) (stack : List IterState) (path : List UInt8) (rem : List (List UInt8 × Tree)) :
    Prop :=
  ∃ fs, Frames H db t stack fs ∧ path = topPath fs ∧ rem = remOf stack fs

theorem Tree.ChildAt.canon {s c : Tree} {p q : List UInt8} {j : ℤ} (h : s.ChildAt p j c q)
    (hc : s.Canon) (hf : s.Fits) : c.Canon ∧ c.Fits := by
  rcases h with ⟨k, rfl, -, -⟩ | ⟨ts, i, rfl, -, rfl, -, -⟩
  · exact ⟨hc.2.2.2.2, hf.2⟩
  · exact ⟨(hc.1 i).1, hf i⟩

theorem Tree.ChildAt.path {s c : Tree} {p q : List UInt8} {j : ℤ} (h : s.ChildAt p j c q) :
    q.take p.length = p := by
  rcases h with ⟨k, -, -, rfl⟩ | ⟨ts, i, -, -, -, -, rfl⟩ <;> simp

section Frames

variable {t : Tree}

/-- The trees of the frames of a canonical tree are canonical and fit. -/
theorem Frames.canon (hc : t.Canon) (hf : t.Fits) {stack : List IterState}
    {fs : List (Tree × List UInt8)} (h : Frames H db t stack fs) : ∀ e ∈ fs, e.1.Canon ∧ e.1.Fits := by
  induction h with
  | root => simpa using And.intro hc hf
  | child _ hchild _ _ _ _ ih =>
    intro e he
    rcases List.mem_cons.mp he with rfl | he
    · exact hchild.canon (ih _ List.mem_cons_self).1 (ih _ List.mem_cons_self).2
    · exact ih e he

theorem Frames.setIndex {st : IterState} {sts : List IterState} {fs : List (Tree × List UInt8)}
    (h : Frames H db t (st :: sts) fs) {j : ℤ} (hj : -1 ≤ j) :
    Frames H db t ({ st with index := j } :: sts) fs := by
  cases h with
  | root hD hh hl _ => exact .root hD hh hl hj
  | child hpar hchild hD hh hl _ => exact .child hpar hchild hD hh hl hj

theorem nextChild_spec {st : IterState} {s : Tree} {p : List UInt8} (hD : Denotes H db st.node s)
    (hh : st.node.isHash = false) (hi : -1 ≤ st.index) (ancestor : Hash) :
    (nextChild p st ancestor = none ∧ s.after p st.index = []) ∨
    ∃ (j : ℤ) (n : Node) (c : Tree) (q : List UInt8),
      nextChild p st ancestor = some ({ st with index := j - 1 }, childState n ancestor p.length, q) ∧
      st.index < j ∧ s.ChildAt p j c q ∧ Denotes H db n c ∧ s.after p st.index = c.nodes q ++ s.after p j ∧
      s.after p (j - 1) = c.nodes q ++ s.after p j := by
  cases hn : st.node with
  | nil =>
    rw [hn] at hD
    obtain rfl := hD.nil_inv
    exact .inl ⟨by simp [nextChild, hn], rfl⟩
  | value v =>
    rw [hn] at hD
    obtain rfl := hD.value_inv
    exact .inl ⟨by simp [nextChild, hn], rfl⟩
  | hash h => simp [hn, Node.isHash] at hh
  | short k c f =>
    rw [hn] at hD
    obtain ⟨ct, rfl, hc, -⟩ := hD.short_inv
    by_cases hneg : st.index < 0
    · have hidx : st.index = 0 - 1 := by omega
      refine .inr ⟨0, c, ct, p ++ k, ?_, by omega, .inl ⟨k, rfl, rfl, rfl⟩, hc, ?_, ?_⟩
      · simp only [nextChild, hn, if_pos hneg]
        rw [← hidx, ← hn]
      · simp [after_short, hneg]
      · simp [after_short]
    · exact .inl ⟨by simp [nextChild, hn, hneg], by simp [after_short, hneg]⟩
  | full cs f =>
    rw [hn] at hD
    obtain ⟨ts, rfl, hcs⟩ := hD.full_inv
    have hnil : ∀ i, (cs i).isNil = (ts i).isNil := fun i => (hcs i).1.isNil_eq
    cases hf : (List.finRange 17).find? (fun i => decide (st.index + 1 ≤ i.val) && !(cs i).isNil) with
    | none =>
      refine .inl ⟨by simp only [nextChild, hn, hf], after_full_eq_nil fun i hi => ?_⟩
      have := List.find?_eq_none.mp hf i (List.mem_finRange i)
      simp only [Bool.and_eq_true, decide_eq_true_eq, Bool.not_eq_eq_eq_not, Bool.not_true,
        not_and, Bool.not_eq_false, hnil] at this
      exact this (by omega)
    | some i =>
      obtain ⟨hpi, as, bs, hl, has⟩ := List.find?_eq_some_iff_append.mp hf
      simp only [Bool.and_eq_true, decide_eq_true_eq, Bool.not_eq_true', hnil] at hpi
      have hbefore : ∀ a ∈ as, a < i := by
        have hs := List.pairwise_lt_finRange 17
        rw [hl, List.pairwise_append] at hs
        exact fun a ha => hs.2.2 a ha i List.mem_cons_self
      refine .inr ⟨i.val, cs i, ts i, p ++ [i.val.toUInt8], by simp only [nextChild, hn, hf],
        by omega, .inr ⟨ts, i, rfl, rfl, rfl, hpi.2, rfl⟩, (hcs i).1,
        after_full_split hl (by omega) hpi.2 fun a ha h => ?_,
        after_full_split hl (by omega) hpi.2 fun a ha h => ?_⟩
      · have := has a ha
        simp only [hnil, h.2, Bool.not_false, Bool.and_true, Bool.not_eq_true', decide_eq_false_iff_not,
          not_le] at this
        omega
      · have := Fin.lt_def.mp (hbefore a ha)
        omega

theorem peekLoop_nil (tr : Trie) (path : List UInt8) :
    peekLoop tr db [] path = some ([], path, .iteratorEnd) := rfl

theorem peekLoop_pop (tr : Trie) {st : IterState} {sts : List IterState} {path : List UInt8}
    (h : nextChild path st st.ancestor = none) :
    peekLoop tr db (st :: sts) path = peekLoop tr db sts (path.take st.pathlen) := by
  simp only [peekLoop, h]

theorem peekLoop_next (tr : Trie) {st par child st' : IterState} {sts : List IterState}
    {path q : List UInt8} (h : nextChild path st st.ancestor = some (par, child, q))
    (hr : child.resolve tr db q = some (.ok st')) :
    peekLoop tr db (st :: sts) path = some (par :: sts, path, .next st' true q) := by
  simp only [peekLoop, h, hr]

/-- Popping the top frame skips the nodes after its child: the frames below stand for the rest, at
the path of the frame below. The root frame leaves nothing. -/
theorem Stands.pop (hc : t.Canon) (hf : t.Fits) {st : IterState} {sts : List IterState}
    {path : List UInt8} {rem : List (List UInt8 × Tree)} (h : Stands H db t (st :: sts) path rem) :
    ∃ D rem', rem = D ++ rem' ∧ (∀ e ∈ D, path <+: e.1) ∧
      ((sts = [] ∧ rem' = []) ∨ Stands H db t sts (path.take st.pathlen) rem') := by
  obtain ⟨fs, hfr, rfl, rfl⟩ := h
  have hD : ∀ {c : Tree} {q : List UInt8}, (c, q) ∈ fs → ∀ e ∈ c.after q st.index, q <+: e.1 :=
    fun {c q} hm e he => by
      obtain ⟨a, x, he', -⟩ := mem_after (hfr.canon hc hf (c, q) hm).1 he
      exact ⟨a :: x, he'.symm⟩
  cases hfr with
  | root _ _ _ _ =>
    exact ⟨_, [], by simp [remOf, topPath], hD List.mem_cons_self, .inl ⟨rfl, rfl⟩⟩
  | @child _ par sts s c p q fs hpar hchild _ _ hl _ =>
    refine ⟨c.after q st.index, _, rfl, hD List.mem_cons_self, .inr ⟨_, hpar, ?_, rfl⟩⟩
    rw [topPath, topPath, hl, hchild.path]

variable (hH : ∀ x, (H x).length = 32)
include hH

theorem IterState.resolve_loaded {st : IterState} {c : Tree} (hD : Denotes H db st.node c)
    (hc : c.Canon) (hf : c.Fits) (tr : Trie) (path : List UInt8) :
    ∃ st', st.resolve tr db path = some (.ok st') ∧ Denotes H db st'.node c ∧
      st'.node.isHash = false ∧ st'.index = st.index ∧ st'.pathlen = st.pathlen := by
  cases hn : st.node with
  | hash h =>
    rw [hn] at hD
    refine ⟨{ st with node := decoded H tr.cachegen (some h) c.toNode, hash := bytesToHash h }, ?_,
      denotes_decoded tr.cachegen hc hD.2.1 (some h), isHash_decoded tr.cachegen (some h) c, rfl, rfl⟩
    simp only [IterState.resolve, hn, resolveHash_denotes hH hD hc hf tr path]
    rfl
  | nil | value _ | short _ _ _ | full _ _ =>
    exact ⟨st, by simp only [IterState.resolve, hn], hD, by rw [hn]; rfl, rfl, rfl⟩

theorem Frames.peekLoop_child (tr : Trie) (hc : t.Canon) (hf : t.Fits) {st : IterState}
    {sts : List IterState} {s : Tree} {p : List UInt8} {fs : List (Tree × List UInt8)}
    (h : Frames H db t (st :: sts) ((s, p) :: fs)) {j : ℤ} {n : Node} {c : Tree} {q : List UInt8}
    (hnext : nextChild p st st.ancestor = some ({ st with index := j - 1 }, childState n st.ancestor p.length, q))
    (hlt : st.index < j) (hchild : s.ChildAt p j c q) (hDn : Denotes H db n c)
    (hafter : s.after p st.index = c.nodes q ++ s.after p j)
    (hpred : s.after p (j - 1) = c.nodes q ++ s.after p j) :
    ∃ st' rest, remOf (st :: sts) ((s, p) :: fs) = (q, c) :: rest ∧
      peekLoop tr db (st :: sts) p = some ({ st with index := j - 1 } :: sts, p, .next st' true q) ∧
      Stands H db t ({ st with index := j - 1 } :: sts) p ((q, c) :: rest) ∧
      Stands H db t (st' :: { st with index := j - 1 + 1 } :: sts) q rest ∧ Denotes H db st'.node c := by
  have hcs := h.canon hc hf (s, p) List.mem_cons_self
  obtain ⟨hcc, hfc⟩ := hchild.canon hcs.1 hcs.2
  obtain ⟨st', hr, hD', hh', hi', hl'⟩ :=
    IterState.resolve_loaded hH (show Denotes H db (childState n st.ancestor p.length).node c from hDn)
      hcc hfc tr q
  have hj : j - 1 + 1 = j := by omega
  have hst : st.index ≥ -1 := by cases h <;> assumption
  have hfr : Frames H db t (st' :: { st with index := j - 1 + 1 } :: sts) ((c, q) :: (s, p) :: fs) := by
    refine .child (h.setIndex (by omega)) (by rw [hj]; exact hchild) hD' hh' hl' ?_
    rw [hi']
    exact le_refl _
  refine ⟨st', c.after q (-1) ++ (s.after p j ++ remOf sts fs), ?_, peekLoop_next tr hnext hr,
    ⟨_, h.setIndex (by omega), rfl, ?_⟩, ⟨_, hfr, rfl, ?_⟩, hD'⟩
  · simp [remOf, hafter, Tree.nodes]
  · simp [remOf, hpred, Tree.nodes]
  · simp [remOf, hi', hj, childState]

/-- `peekLoop` over a stack that stands for nodes of a canonical tree: at the end when nothing
remains after them; else it pops the frames with nothing after them and gives the head of what
remains, loaded. Before the push the stack it leaves stands for that node as the next one; after
the push, for the node, with the rest after it. -/
theorem Stands.peekLoop_spec (tr : Trie) (hc : t.Canon) (hf : t.Fits) {stack : List IterState}
    {path : List UInt8} {rem : List (List UInt8 × Tree)} (h : Stands H db t stack path rem) :
    (rem = [] ∧ ∃ path', peekLoop tr db stack path = some ([], path', .iteratorEnd)) ∨
    ∃ par sts path' st q c rest, rem = (q, c) :: rest ∧
      peekLoop tr db stack path = some (par :: sts, path', .next st true q) ∧
      Stands H db t (par :: sts) path' rem ∧
      Stands H db t (st :: { par with index := par.index + 1 } :: sts) q rest ∧ Denotes H db st.node c := by
  obtain ⟨fs, hfr, rfl, rfl⟩ := h
  induction hfr with
  | @root st hD hh hl hi =>
    rcases nextChild_spec (p := []) hD hh hi st.ancestor with ⟨hnone, hafter⟩ |
      ⟨j, n, c, q, hnext, hlt, hchild, hDn, hafter, hpred⟩
    · refine .inl ⟨by simp [remOf, hafter], [].take st.pathlen, ?_⟩
      rw [topPath, peekLoop_pop tr hnone, peekLoop_nil]
    · obtain ⟨st', rest, hrem, hpeek, hs, hs', hD'⟩ :=
        (Frames.root hD hh hl hi).peekLoop_child hH tr hc hf hnext hlt hchild hDn hafter hpred
      exact .inr ⟨_, _, _, st', q, c, rest, hrem, hpeek, hrem ▸ hs, hs', hD'⟩
  | @child st par sts s c p q fs hpar hchild hD hh hl hi ih =>
    rcases nextChild_spec (p := q) hD hh hi st.ancestor with ⟨hnone, hafter⟩ |
      ⟨j, n, c', q', hnext, hlt, hchild', hDn, hafter, hpred⟩
    · have hpop : peekLoop tr db (st :: par :: sts) q = peekLoop tr db (par :: sts) p := by
        rw [peekLoop_pop tr hnone, hl, hchild.path]
      have hrem : remOf (st :: par :: sts) ((c, q) :: (s, p) :: fs) = remOf (par :: sts) ((s, p) :: fs) := by
        simp [remOf, hafter]
      simpa only [topPath, hpop, hrem] using ih
    · obtain ⟨st', rest, hrem, hpeek, hs, hs', hD'⟩ :=
        (Frames.child hpar hchild hD hh hl hi).peekLoop_child hH tr hc hf hnext hlt hchild' hDn hafter hpred
      exact .inr ⟨_, _, _, st', q', c', rest, hrem, hpeek, hrem ▸ hs, hs', hD'⟩

end Frames

/-! ## One step of the iteration -/

section Step

variable {it : NodeIterator} {tr : Trie}

theorem next_of_err (h : it.err = none) (fuel : ℕ) (descend : Bool) :
    it.Next H db fuel descend = advance H db it descend := by
  simp only [NodeIterator.Next, h]

theorem peek_frames (htr : it.trie = some tr) {st : IterState} {sts : List IterState}
    (hs : it.stack = st :: sts) (descend : Bool) :
    peek H db it descend =
      (peekLoop tr db (if descend then it.stack else sts) (if descend then it.path else it.path.take st.pathlen)).map
        fun r => ({ it with stack := r.1, path := r.2.1 }, r.2.2) := by
  cases descend <;> simp only [peek, htr, hs, Bool.false_eq_true, if_true, if_false]

theorem advance_next {it' : NodeIterator} {descend : Bool} {st : IterState} {hasParent : Bool}
    {path : List UInt8} (h : peek H db it descend = some (it', .next st hasParent path)) :
    advance H db it descend = some (push { it' with err := none } st hasParent path, true) := by
  simp only [advance, h]

theorem advance_end {it' : NodeIterator} {descend : Bool}
    (h : peek H db it descend = some (it', .iteratorEnd)) :
    advance H db it descend = some ({ it' with err := some .iteratorEnd }, false) := by
  simp only [advance, h]

theorem with_err_none (h : it.err = none) : { it with err := none } = it := by
  cases it
  simp_all

variable (H db) in
/-- The iterator walks a trie whose root holds for `t`, with `rem` still to visit, the last part of
the nodes of `t` in pre-order. It has no error, and either it has not started, or its stack
stands for the nodes of `t` on the path to the current one, at its path, with `rem` after them. -/
structure Visits (it : NodeIterator) (t : Tree) (rem : List (List UInt8 × Tree)) : Prop where
  trie : ∃ tr, it.trie = some tr ∧ Holds H db tr.root t
  err : it.err = none
  suffix : rem <:+ t.nodes []
  frames : (it.stack = [] ∧ rem = t.nodes []) ∨ Stands H db t it.stack it.path rem

variable {t : Tree} {rem : List (List UInt8 × Tree)}

theorem peek_start (hH : ∀ x, (H x).length = 32) (htr : it.trie = some tr) (hs : it.stack = [])
    (hh : Holds H db tr.root t) (descend : Bool) :
    ∃ c st, peek H db it descend = some ({ it with trie := some { tr with root := c } }, .next st false []) ∧
      Holds H db c t ∧ Denotes H db st.node t ∧ st.node.isHash = false ∧ st.index = -1 ∧ st.pathlen = 0 := by
  obtain ⟨c, hhash, hc⟩ := hh.hash tr
  let root : IterState :=
    ⟨if t.rootHash H ≠ bytesToHash (emptyRoot H) then t.rootHash H else zeroHash, c, zeroHash, -1, 0⟩
  obtain ⟨st, hr, hD, hnh, hi, hl⟩ :=
    IterState.resolve_loaded hH (show Denotes H db root.node t from hc.denotes) hc.canon hc.fits
      { tr with root := c } []
  refine ⟨c, st, ?_, hc, hD, hnh, hi, hl⟩
  simp only [peek, htr, hs, hhash]
  rw [hr]

theorem visits_of_stands (hH : ∀ x, (H x).length = 32) (htr : it.trie = some tr)
    (hh : Holds H db tr.root t) (herr : it.err = none) {stack : List IterState} {path : List UInt8}
    {rem' : List (List UInt8 × Tree)} (hs : Stands H db t stack path rem') (hsuf : rem' <:+ t.nodes []) :
    (rem' = [] ∧ ∃ it', (peekLoop tr db stack path).map (fun r => ({ it with stack := r.1, path := r.2.1 }, r.2.2)) =
      some (it', .iteratorEnd)) ∨
    ∃ q c rest it' st hp, rem' = (q, c) :: rest ∧
      (peekLoop tr db stack path).map (fun r => ({ it with stack := r.1, path := r.2.1 }, r.2.2)) =
        some (it', .next st hp q) ∧
      Visits H db it' t rem' ∧ Visits H db (push it' st hp q) t rest ∧ Denotes H db st.node c := by
  rcases hs.peekLoop_spec hH tr hh.canon hh.fits with ⟨hnil, path', hloop⟩ |
    ⟨par, sts, path', st, q, c, rest, hrem, hloop, hs', hs'', hD⟩
  · exact .inl ⟨hnil, { it with stack := [], path := path' }, by rw [hloop]; rfl⟩
  · refine .inr ⟨q, c, rest, { it with stack := par :: sts, path := path' }, st, true, hrem, by rw [hloop]; rfl,
      ⟨⟨tr, htr, hh⟩, herr, hsuf, .inr hs'⟩,
      ⟨⟨tr, htr, hh⟩, herr, (List.suffix_cons _ _).trans (hrem ▸ hsuf), .inr ?_⟩, hD⟩
    simpa [push] using hs''

/-- `peek` over an iterator that walks `t`: without `descend`, the nodes after the current one's
child are skipped first, all below its path; then the end, when nothing remains, or the head of
what remains, as a state not pushed yet. The iterator `peek` leaves walks what remains still, and
after the push what comes after. -/
theorem Visits.peek_spec (hH : ∀ x, (H x).length = 32) (h : Visits H db it t rem) (descend : Bool) :
    ∃ D rem', rem = D ++ rem' ∧ (descend = true → D = []) ∧ (∀ e ∈ D, it.path <+: e.1) ∧
    ((rem' = [] ∧ ∃ it', peek H db it descend = some (it', .iteratorEnd)) ∨
     ∃ q c rest it' st hp, rem' = (q, c) :: rest ∧ peek H db it descend = some (it', .next st hp q) ∧
       Visits H db it' t rem' ∧ Visits H db (push it' st hp q) t rest ∧ Denotes H db st.node c) := by
  obtain ⟨tr, htr, hh⟩ := h.trie
  rcases h.frames with ⟨hs, hrem⟩ | hst
  · obtain ⟨c, st, hpeek, hc, hD, hnh, hi, hl⟩ := peek_start hH htr hs hh descend
    refine ⟨[], rem, rfl, fun _ => rfl, by simp, .inr ⟨[], t, t.after [] (-1), _, st, false, hrem, hpeek,
      ⟨⟨_, rfl, hc⟩, h.err, h.suffix, .inl ⟨hs, hrem⟩⟩, ⟨⟨_, rfl, hc⟩, h.err, List.suffix_cons _ _,
        .inr ⟨[(t, [])], ?_, rfl, ?_⟩⟩, hD⟩⟩
    · simpa [push, hs] using Frames.root hD hnh hl (by rw [hi])
    · simp [push, hs, remOf, hi]
  · obtain ⟨st₀, sts₀, hs⟩ : ∃ st sts, it.stack = st :: sts := by
      cases hs : it.stack with
      | nil => obtain ⟨_, hfr, -⟩ := hst; rw [hs] at hfr; cases hfr
      | cons st sts => exact ⟨st, sts, rfl⟩
    have hpeek : peek H db it descend = _ := peek_frames htr hs descend
    cases descend with
    | true =>
      simp only [if_true] at hpeek
      rw [hpeek]
      exact ⟨[], rem, rfl, fun _ => rfl, by simp, visits_of_stands hH htr hh h.err hst h.suffix⟩
    | false =>
      simp only [Bool.false_eq_true, if_false] at hpeek
      rw [hpeek]
      rw [hs] at hst
      obtain ⟨D, rem', rfl, hD, hnil | hst'⟩ := hst.pop hh.canon hh.fits
      · obtain ⟨rfl, rfl⟩ := hnil
        exact ⟨D, [], rfl, fun h => Bool.noConfusion h, hD, .inl ⟨rfl, _, rfl⟩⟩
      · exact ⟨D, rem', rfl, fun h => Bool.noConfusion h, hD,
          visits_of_stands hH htr hh h.err hst' ((List.suffix_append _ _).trans h.suffix)⟩

/-- One `Next` of the iterator visits the head of what remains, from a state that denotes it,
or ends when nothing remains. -/
theorem Visits.next (hH : ∀ x, (H x).length = 32) (h : Visits H db it t rem) (fuel : ℕ) :
    (rem = [] ∧ ∃ it', it.Next H db fuel true = some (it', false) ∧ it'.err = some .iteratorEnd) ∨
    ∃ q c rest it', rem = (q, c) :: rest ∧ it.Next H db fuel true = some (it', true) ∧
      Visits H db it' t rest ∧ it'.path = q ∧ ∃ st sts, it'.stack = st :: sts ∧ Denotes H db st.node c := by
  obtain ⟨D, rem', rfl, hD, -, hend | ⟨q, c, rest, it', st, hp, rfl, hpeek, hv, hv', hst⟩⟩ :=
    h.peek_spec hH true
  · obtain ⟨rfl, it', hpeek⟩ := hend
    rw [hD rfl]
    exact .inl ⟨rfl, _, by rw [next_of_err h.err, advance_end hpeek], rfl⟩
  · rw [hD rfl]
    refine .inr ⟨q, c, rest, _, rfl, by rw [next_of_err h.err, advance_next hpeek, with_err_none hv.err],
      hv', rfl, st, _, rfl, hst⟩

theorem Visits.walk_spec (hH : ∀ x, (H x).length = 32) (fuel : ℕ) :
    ∀ (n : ℕ) {it : NodeIterator} {rem : List (List UInt8 × Tree)}, Visits H db it t rem →
    rem.length < n → it.walk H db fuel n = some (rem.map Prod.fst, none)
  | 0, _, _, _, hn => absurd hn (Nat.not_lt_zero _)
  | n + 1, it, rem, hv, hn => by
    rcases hv.next hH fuel with ⟨rfl, it', hnext, herr⟩ | ⟨q, c, rest, it', rfl, hnext, hv', hq, -⟩
    · simp [NodeIterator.walk, hnext, NodeIterator.Error, herr]
    · have ih := Visits.walk_spec hH fuel n hv' (by simp only [List.length_cons] at hn; omega)
      simp only [NodeIterator.walk, hnext, ih, hq, Option.map_some, List.map_cons]

end Step

/-! ## Seeking the start -/

section Seek

theorem append_lt_of_not_prefix : ∀ {q key : List UInt8}, q < key → ¬ q <+: key → ∀ x, q ++ x < key
  | [], _, _, hp, _ => absurd List.nil_prefix hp
  | _ :: _, [], h, _, _ => absurd h (List.not_lt_nil _)
  | a :: q, b :: key, h, hp, x => by
    rcases List.cons_lt_cons_iff.mp h with hab | ⟨rfl, h'⟩
    · exact List.cons_lt_cons_iff.mpr (.inl hab)
    · have hp' : ¬ q <+: key := fun hq => hp (List.cons_prefix_cons.mpr ⟨rfl, hq⟩)
      exact List.cons_lt_cons_iff.mpr (.inr ⟨rfl, append_lt_of_not_prefix h' hp' x⟩)

/-- The nodes of `t` before `rem` all have paths before `key`. -/
def Tree.PassedBefore (t : Tree) (key : List UInt8) (rem : List (List UInt8 × Tree)) : Prop :=
  ∃ pre, pre ++ rem = t.nodes [] ∧ ∀ e ∈ pre, e.1 < key

variable {t : Tree}

/-- The loop of `seek` over an iterator that walks `t`, having passed only nodes before `key`,
at a path that leads to `key` or is before it: it passes the nodes before `key`, descending only
into those whose path leads to `key`, and stops before the first node that is not before `key`,
which it leaves to visit next; or it ends when no node is. -/
theorem Visits.seekLoop_spec (hH : ∀ x, (H x).length = 32) (key : List UInt8) (pfx : Bytes) :
    ∀ (fuel : ℕ) {it : NodeIterator} {rem : List (List UInt8 × Tree)}, Visits H db it t rem →
    t.PassedBefore key rem → (it.path <+: key ∨ it.path < key) → rem.length < fuel →
    (∃ it', seekLoop H db key pfx fuel it = some (it', some .iteratorEnd) ∧ ∀ e ∈ t.nodes [], e.1 < key) ∨
    ∃ it' q c rest, seekLoop H db key pfx fuel it = some (it', none) ∧
      Visits H db it' t ((q, c) :: rest) ∧ t.PassedBefore key ((q, c) :: rest) ∧ ¬ q < key
  | 0, _, _, _, _, _, hf => absurd hf (Nat.not_lt_zero _)
  | fuel + 1, it, _, hv, ⟨pre, hpre, hlt⟩, hpath, hf => by
    obtain ⟨D, rem', rfl, hDnil, hDpath, hres⟩ := hv.peek_spec hH (decide (it.path <+: key))
    have hD : ∀ e ∈ D, e.1 < key := by
      by_cases hk : it.path <+: key
      · rw [hDnil (decide_eq_true hk)]
        simp
      · intro e he
        obtain ⟨x, hx⟩ := hDpath e he
        rw [← hx]
        exact append_lt_of_not_prefix (hpath.resolve_left hk) hk x
    have hpre' : ∀ e ∈ pre ++ D, e.1 < key := fun e he => (List.mem_append.mp he).elim (hlt e) (hD e)
    rcases hres with ⟨rfl, it', hpeek⟩ | ⟨q, c, rest, it', st, hp, rfl, hpeek, hv', hv'', -⟩
    · refine .inl ⟨it', by simp only [seekLoop, hpeek], fun e he => hpre' e ?_⟩
      rw [← hpre] at he
      simpa using he
    · by_cases hq : q < key
      · have hseek : seekLoop H db key pfx (fuel + 1) it = seekLoop H db key pfx fuel (push it' st hp q) := by
          simp only [seekLoop, hpeek, hq, not_true_eq_false, if_false]
        rw [hseek]
        refine Visits.seekLoop_spec hH key pfx fuel hv'' ⟨pre ++ D ++ [(q, c)], by simp [← hpre], ?_⟩
          (.inr hq) (by simp only [List.length_append, List.length_cons] at hf; omega)
        intro e he
        rcases List.mem_append.mp he with he | he
        · exact hpre' e he
        · rw [List.mem_singleton.mp he]
          exact hq
      · exact .inr ⟨it', q, c, rest, by simp only [seekLoop, hpeek, hq, not_false_eq_true, if_true], hv',
          ⟨pre ++ D, by rw [List.append_assoc, hpre], hpre'⟩, hq⟩

theorem not_lt_of_passed (hc : t.Canon) {key q : List UInt8} {c : Tree} {rest : List (List UInt8 × Tree)}
    (hp : t.PassedBefore key ((q, c) :: rest)) (hq : ¬ q < key) : ∀ e ∈ (q, c) :: rest, ¬ e.1 < key := by
  obtain ⟨pre, hpre, -⟩ := hp
  have hs := nodes_sorted [] hc
  rw [← hpre, List.map_append, List.pairwise_append, List.map_cons, List.pairwise_cons] at hs
  intro e he hlt
  rcases List.mem_cons.mp he with rfl | he
  · exact hq hlt
  · exact hq (List.lt_trans (hs.2.1.1 e.1 (List.mem_map_of_mem he)) hlt)

theorem mem_entries_from (hc : t.Canon) (hk : t.KeysOk) {key : List UInt8}
    {rem : List (List UInt8 × Tree)} (hp : t.PassedBefore key rem) (hr : ∀ e ∈ rem, ¬ e.1 < key)
    {k v : Bytes} : (k, v) ∈ rem.filterMap leafEntry ↔ t.contents k = some v ∧ ¬ keybytesToHex k < key := by
  obtain ⟨pre, hpre, hlt⟩ := hp
  constructor
  · intro h
    obtain ⟨e, he, hx⟩ := List.mem_filterMap.mp h
    have hen : e ∈ t.nodes [] := hpre ▸ List.mem_append_right pre he
    refine ⟨(mem_entries hc hk).mp (List.mem_filterMap.mpr ⟨e, hen, hx⟩), ?_⟩
    rw [keybytesToHex_of_leafEntry hc hk hen hx]
    exact hr e he
  · rintro ⟨h, hnk⟩
    obtain ⟨e, hen, hx⟩ := List.mem_filterMap.mp ((mem_entries hc hk).mpr h)
    have hkey := keybytesToHex_of_leafEntry hc hk hen hx
    rw [← hpre] at hen
    rcases List.mem_append.mp hen with he | he
    · exact absurd (hkey ▸ hlt e he) hnk
    · exact List.mem_filterMap.mpr ⟨e, he, hx⟩

end Seek

/-! ## The key-value iterator -/

section Leaves

variable {t : Tree} {rem : List (List UInt8 × Tree)}

theorem Denotes.eq_value {n : Node} {v : Bytes} (h : Denotes H db n (.value v)) : n = .value v := by
  cases n with
  | value w => rw [show w = v from h]
  | hash _ => simp [Denotes, Tree.isNode] at h
  | nil | short _ _ _ | full _ _ => simp [Denotes] at h

/-- `Next` of the key-value iterator: on through the nodes that are no values to the first value
that remains, with its key and value; or, when no value remains, the end, with no error. Each
node it passes takes one of its `steps`. -/
theorem Iterator.next_spec (hH : ∀ x, (H x).length = 32) (fuel : ℕ) :
    ∀ {steps : ℕ} {it : Iterator} {rem : List (List UInt8 × Tree)}, Visits H db it.nodeIt t rem →
    rem.length < steps →
    (rem.filterMap leafEntry = [] ∧ ∃ it', it.Next H db fuel steps = some (it', false) ∧ it'.err = none) ∨
    ∃ key v rest it', rem.filterMap leafEntry = (key, v) :: rest.filterMap leafEntry ∧
      it.Next H db fuel steps = some (it', true) ∧ it'.key = key ∧ it'.value = v ∧
      Visits H db it'.nodeIt t rest ∧ rest.length < rem.length
  | 0, _, _, _, hsteps => absurd hsteps (Nat.not_lt_zero _)
  | s + 1, it, rem, hv, hsteps => by
    obtain ⟨_, -, hh⟩ := hv.trie
    rcases hv.next hH fuel with ⟨rfl, it', hnext, herr⟩ |
      ⟨q, c, rest, it', rfl, hnext, hv', hpath, st, sts, hst, hD⟩
    · refine .inl ⟨rfl, ⟨it', [], [], it'.Error⟩, by simp only [Iterator.Next, hnext], ?_⟩
      simp [NodeIterator.Error, herr]
    · rcases leaf_of_mem_nodes hh.canon hh.keysOk (hv.suffix.subset List.mem_cons_self) with
        ⟨w, b, rfl, rfl, -⟩ | ⟨hcv, hterm⟩
      · have hnode : st.node = .value w := hD.eq_value
        refine .inr ⟨b, w, rest, { it with nodeIt := it', key := b, value := w }, ?_, ?_, rfl, rfl, hv',
          by simp⟩
        · simp [leafEntry, hexToKeybytes_keybytesToHex]
        · have hleaf : it'.Leaf = true := by
            rw [NodeIterator.Leaf, hpath, keybytesToHex, hasTerm_append_term]
          simp [Iterator.Next, hnext, hleaf, NodeIterator.LeafKey, NodeIterator.LeafBlob, hst, hnode,
            Node.isValue, hpath, hexToKeybytes_keybytesToHex]
      · have hskip : it.Next H db fuel (s + 1) = Iterator.Next H db fuel s { it with nodeIt := it' } := by
          have hleaf : it'.Leaf = false := by rw [NodeIterator.Leaf, hpath, hterm]
          simp only [Iterator.Next, hnext, hleaf, Bool.false_eq_true, if_false]
        have hentry : leafEntry (q, c) = none := by cases c <;> simp_all [leafEntry, Tree.isValue]
        rw [hskip, List.filterMap_cons, hentry]
        have hv₁ : Visits H db ({ it with nodeIt := it' } : Iterator).nodeIt t rest := hv'
        have hs₁ : rest.length < s := by simp only [List.length_cons] at hsteps; omega
        rcases Iterator.next_spec hH fuel hv₁ hs₁ with h | ⟨key, v, rest', it'', hf, hn, hk, hvv, hv'', hlen⟩
        · exact .inl h
        · exact .inr ⟨key, v, rest', it'', hf, hn, hk, hvv, hv'', by simp only [List.length_cons]; omega⟩

/-- The caller's loop over the key-value iterator gives the entries of the values that remain, in
order, and no error, with one more round than there are values. -/
theorem Iterator.drain_spec (hH : ∀ x, (H x).length = 32) (fuel : ℕ) :
    ∀ (n : ℕ) {it : Iterator} {rem : List (List UInt8 × Tree)}, Visits H db it.nodeIt t rem →
    rem.length < fuel → (rem.filterMap leafEntry).length < n →
    it.drain H db fuel n = some (rem.filterMap leafEntry, none)
  | 0, _, _, _, _, hn => absurd hn (Nat.not_lt_zero _)
  | n + 1, it, rem, hv, hfuel, hn => by
    rcases Iterator.next_spec hH fuel hv hfuel with ⟨hnil, it', hnext, herr⟩ |
      ⟨key, v, rest, it', hf, hnext, hk, hvv, hv', hlen⟩
    · rw [hnil]
      simp only [Iterator.drain, hnext, herr]
    · rw [hf] at hn ⊢
      have ih := Iterator.drain_spec hH fuel n hv' (by omega) (by simpa using hn)
      simp only [Iterator.drain, hnext, ih, hk, hvv, Option.map_some]

/-- `newNodeIterator` over a trie whose root holds a tree with a root hash other than `emptyState`:
the caller's trie is hashed, and still holds the tree; the seek passes the nodes before the hex
form of `start` without its terminator and leaves the iterator before the first node that is not,
or at its end when there is none. -/
theorem newNodeIterator_seek (hH : ∀ x, (H x).length = 32) {tr : Trie} (h : Holds H db tr.root t)
    (hne : t.rootHash H ≠ bytesToHash (H [])) (start : Bytes) {fuel : ℕ}
    (hfuel : (t.nodes []).length < fuel) :
    ∃ c it, newNodeIterator H db fuel tr start = some ({ tr with root := c }, it) ∧ Holds H db c t ∧
      ((it.err = some .iteratorEnd ∧ ∀ e ∈ t.nodes [], e.1 < (keybytesToHex start).dropLast) ∨
       ∃ rem, Visits H db it t rem ∧ t.PassedBefore (keybytesToHex start).dropLast rem ∧
         ∀ e ∈ rem, ¬ e.1 < (keybytesToHex start).dropLast) := by
  obtain ⟨c, hhash, hc⟩ := h.hash tr
  have hv : Visits H db ⟨some { tr with root := c }, [], [], none⟩ t (t.nodes []) :=
    ⟨⟨_, rfl, hc⟩, rfl, List.suffix_refl _, .inl ⟨rfl, rfl⟩⟩
  rcases hv.seekLoop_spec hH (keybytesToHex start).dropLast start fuel ⟨[], rfl, by simp⟩
      (.inl List.nil_prefix) hfuel with ⟨it', hseek, hall⟩ | ⟨it', q, c', rest, hseek, hv', hp, hq⟩
  · refine ⟨c, { it' with err := some .iteratorEnd }, ?_, hc, .inl ⟨rfl, hall⟩⟩
    simp only [newNodeIterator, hhash, if_neg hne, seek, hseek, Option.map_some]
  · refine ⟨c, it', ?_, hc, .inr ⟨_, hv', hp, not_lt_of_passed h.canon hp hq⟩⟩
    simp only [newNodeIterator, hhash, if_neg hne, seek, hseek, Option.map_some, with_err_none hv'.err]

theorem drain_of_end {it : NodeIterator} (h : it.err = some .iteratorEnd) {fuel n : ℕ} (hfuel : 0 < fuel)
    (hn : 0 < n) : (NewIterator it).drain H db fuel n = some ([], none) := by
  obtain ⟨f, rfl⟩ : ∃ f, fuel = f + 1 := ⟨fuel - 1, by omega⟩
  obtain ⟨m, rfl⟩ : ∃ m, n = m + 1 := ⟨n - 1, by omega⟩
  simp [Iterator.drain, Iterator.Next, NewIterator, NodeIterator.Next, h, NodeIterator.Error]

/-- The key-value iterator from `start` over a trie whose root holds a canonical tree of values at
hex keys, run to its end as its callers do with enough fuel, gives the entries of the tree at the
keys whose hex form is not before that of `start` without its terminator, each key once and in
the order of the hex keys, and no error; the trie it hashed still holds the tree. In that order a
key comes after the keys that extend it, so a key that `start` extends is given too. The root
hash must not be `emptyState`, the hash of no bytes, which the iterator takes for an empty trie. -/
theorem iterator_entries (hH : ∀ x, (H x).length = 32) {tr : Trie} (h : Holds H db tr.root t)
    (hne : t.rootHash H ≠ bytesToHash (H [])) (start : Bytes) (fuel : ℕ)
    (hfuel : (t.nodes []).length < fuel) :
    ∃ c it L, newNodeIterator H db fuel tr start = some ({ tr with root := c }, it) ∧ Holds H db c t ∧
      (NewIterator it).drain H db fuel fuel = some (L, none) ∧
      (∀ key v, (key, v) ∈ L ↔ t.contents key = some v ∧ (keybytesToHex start).dropLast ≤ keybytesToHex key) ∧
      (L.map fun e => keybytesToHex e.1).Pairwise (· < ·) := by
  obtain ⟨c, it, hnew, hc, ⟨herr, hall⟩ | ⟨rem, hv, hp, hr⟩⟩ := newNodeIterator_seek hH h hne start hfuel
  · refine ⟨c, it, [], hnew, hc, drain_of_end herr (by omega) (by omega), fun key v => ?_, .nil⟩
    simp only [List.not_mem_nil, false_iff, not_and]
    exact fun hkv hle => hle (hall _ (mem_nodes_of_lookup (x := keybytesToHex key) [] hkv))
  · have hlen : rem.length < fuel := lt_of_le_of_lt hv.suffix.length_le hfuel
    exact ⟨c, it, _, hnew, hc,
      Iterator.drain_spec hH fuel fuel (show Visits H db (NewIterator it).nodeIt t rem from hv) hlen
        (lt_of_le_of_lt (List.length_filterMap_le _ _) hlen),
      fun _ _ => mem_entries_from h.canon h.keysOk hp hr, entries_sorted h.canon h.keysOk hv.suffix⟩

theorem holds_short_one : Holds (fun x => (x ++ List.replicate 32 0).take 32) (fun _ => none)
    (Trie.root ⟨.short [0, 1, 16] (.value [7]) ⟨none, 0, true⟩, 0, 0⟩) (.short [0, 1, 16] (.value [7])) := by
  refine ⟨⟨rfl, rfl, fun h => by cases h⟩, ⟨by simp, .inr ⟨[0, 1], by decide, rfl⟩, rfl, .inl rfl,
    List.cons_ne_nil _ _⟩, fun k hk => ?_, fun k w hk => ?_, ⟨hashFlag_fresh, fun h => (by cases h), trivial⟩⟩
  · obtain ⟨rest, rfl, hr⟩ := hasKey_short hk
    obtain rfl : rest = [] := by
      by_contra hne
      simp [HasKey, lookup_value, hne] at hr
    exact ⟨[1], rfl⟩
  · obtain ⟨rest, rfl, hr⟩ := lookup_short_some hk
    rw [lookup_value] at hr
    split_ifs at hr with hrest
    cases hr
    simp [hrest]

/-- The iterator from `[1]` over the trie of the one key `[1]`, under a hash that pads its input to
32 bytes. -/
theorem iterator_entries_one :
    ∃ c it L, newNodeIterator (fun x => (x ++ List.replicate 32 0).take 32) (fun _ => none) 3
        ⟨.short [0, 1, 16] (.value [7]) ⟨none, 0, true⟩, 0, 0⟩ [1] = some (⟨c, 0, 0⟩, it) ∧
      Holds (fun x => (x ++ List.replicate 32 0).take 32) (fun _ => none) c (.short [0, 1, 16] (.value [7])) ∧
      (NewIterator it).drain (fun x => (x ++ List.replicate 32 0).take 32) (fun _ => none) 3 3 = some (L, none) ∧
      (∀ key v, (key, v) ∈ L ↔ (Tree.short [0, 1, 16] (.value [7])).contents key = some v ∧
        (keybytesToHex [1]).dropLast ≤ keybytesToHex key) ∧
      (L.map fun e => keybytesToHex e.1).Pairwise (· < ·) :=
  iterator_entries (fun x => by simp) holds_short_one (by decide) [1] 3 (by decide)

/-- The two iterators over a trie whose root holds a canonical tree of values at hex keys, with
enough fuel. The node iterator from no start key, stepped with `Next(true)` to its end, visits the
paths of the tree's nodes in pre-order, each once, and ends without an error. The key-value
iterator from `start` gives the entries at the keys whose hex form is not before that of `start`
without its terminator, each once, in increasing order of hex keys, and nothing else. The root
hash must not be `emptyState`, which the iterator takes for an empty trie. -/
theorem iterator_preorder_entries (hH : ∀ x, (H x).length = 32) {tr : Trie} (h : Holds H db tr.root t)
    (hne : t.rootHash H ≠ bytesToHash (H [])) (start : Bytes) (fuel : ℕ)
    (hfuel : (t.nodes []).length < fuel) :
    (∃ c it, newNodeIterator H db fuel tr [] = some ({ tr with root := c }, it) ∧
      it.walk H db fuel fuel = some ((t.nodes []).map Prod.fst, none) ∧
      ((t.nodes []).map Prod.fst).Pairwise (· < ·)) ∧
    ∃ c it L, newNodeIterator H db fuel tr start = some ({ tr with root := c }, it) ∧
      (NewIterator it).drain H db fuel fuel = some (L, none) ∧
      (∀ key v, (key, v) ∈ L ↔ t.contents key = some v ∧ (keybytesToHex start).dropLast ≤ keybytesToHex key) ∧
      (L.map fun e => keybytesToHex e.1).Pairwise (· < ·) := by
  have hk0 : (keybytesToHex ([] : Bytes)).dropLast = [] := rfl
  refine ⟨?_, ?_⟩
  · obtain ⟨c, it, hnew, -, hend | ⟨rem, hv, ⟨pre, hpre, hlt⟩, -⟩⟩ := newNodeIterator_seek hH h hne [] hfuel
    · have h0 := hend.2 ([], t) List.mem_cons_self
      rw [hk0] at h0
      exact absurd h0 (List.not_lt_nil _)
    · obtain rfl : pre = [] := by
        cases pre with
        | nil => rfl
        | cons e pre =>
          have he := hlt e List.mem_cons_self
          rw [hk0] at he
          exact absurd he (List.not_lt_nil _)
      rw [List.nil_append] at hpre
      subst hpre
      exact ⟨c, it, hnew, hv.walk_spec hH fuel fuel hfuel, nodes_sorted [] h.canon⟩
  · obtain ⟨c, it, hnew, -, ⟨herr, hall⟩ | ⟨rem, hv, hp, hr⟩⟩ := newNodeIterator_seek hH h hne start hfuel
    · refine ⟨c, it, [], hnew, drain_of_end herr (by omega) (by omega), fun key v => ?_, .nil⟩
      simp only [List.not_mem_nil, false_iff, not_and]
      exact fun hkv hle => hle (hall _ (mem_nodes_of_lookup (x := keybytesToHex key) [] hkv))
    · have hlen : rem.length < fuel := lt_of_le_of_lt hv.suffix.length_le hfuel
      exact ⟨c, it, _, hnew,
        Iterator.drain_spec hH fuel fuel (show Visits H db (NewIterator it).nodeIt t rem from hv) hlen
          (lt_of_le_of_lt (List.length_filterMap_le _ _) hlen),
        fun _ _ => mem_entries_from h.canon h.keysOk hp hr, entries_sorted h.canon h.keysOk hv.suffix⟩

theorem iterator_preorder_entries_one :
    (∃ c it, newNodeIterator (fun x => (x ++ List.replicate 32 0).take 32) (fun _ => none) 3
        ⟨.short [0, 1, 16] (.value [7]) ⟨none, 0, true⟩, 0, 0⟩ [] = some (⟨c, 0, 0⟩, it) ∧
      it.walk (fun x => (x ++ List.replicate 32 0).take 32) (fun _ => none) 3 3 =
        some (((Tree.short [0, 1, 16] (.value [7])).nodes []).map Prod.fst, none) ∧
      (((Tree.short [0, 1, 16] (.value [7])).nodes []).map Prod.fst).Pairwise (· < ·)) ∧
    ∃ c it L, newNodeIterator (fun x => (x ++ List.replicate 32 0).take 32) (fun _ => none) 3
        ⟨.short [0, 1, 16] (.value [7]) ⟨none, 0, true⟩, 0, 0⟩ [1] = some (⟨c, 0, 0⟩, it) ∧
      (NewIterator it).drain (fun x => (x ++ List.replicate 32 0).take 32) (fun _ => none) 3 3 = some (L, none) ∧
      (∀ key v, (key, v) ∈ L ↔ (Tree.short [0, 1, 16] (.value [7])).contents key = some v ∧
        (keybytesToHex [1]).dropLast ≤ keybytesToHex key) ∧
      (L.map fun e => keybytesToHex e.1).Pairwise (· < ·) :=
  iterator_preorder_entries (fun x => by simp) holds_short_one (by decide) [1] 3 (by decide)

end Leaves

end Sphinx.Trie
