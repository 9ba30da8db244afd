import Sphinx.Trie.Hasher

/-! # The trie

`trie.go`: a Merkle Patricia trie is a root node over a database that holds the nodes it
does not keep in memory, under their hashes. `tryGet`, `insert` and `delete` walk the
nodes along a hex key, load a hash node from the database when they reach one
(`resolveHash`) and build new nodes on the way back up; `hashRoot` runs the hasher over
the root, and in commit mode writes the nodes it hashes.

The database is the in-memory one (`MemDatabase`), whose `Get` fails on a missing key
and whose `Put` never fails. The recursive walks take a `fuel` bound on the depth of
their recursion, which stands for the stack of the source: running out of it, like a
failed type assertion, an index out of range or an undecodable stored node, is a panic
(`none`).
-/

namespace Sphinx.Trie

set_option linter.dupNamespace false

open Rlp

/-- An in-memory database (`MemDatabase`): `Get` fails on a key that was never written. -/
abbrev Db := Bytes → Option Bytes

/-- `Put(key, value)`. -/
def Db.put (db : Db) (key value : Bytes) : Db :=
  fun k => if k = key then some value else db k

/-- The writes of a commit, in the order the hasher makes them. -/
def Db.putAll (db : Db) (puts : Puts) : Db :=
  puts.foldl (fun db p => db.put p.1 p.2) db

/-- `MissingNodeError`: the hash of the missing node and the hex path to it. -/
structure MissingNodeError where
  nodeHash : Hash
  path : List UInt8
  deriving DecidableEq

/-- A trie: its root node and its cache generation counter and limit, both 16 bits. -/
structure Trie where
  root : Node
  cachegen : UInt16
  cachelimit : UInt16

/-- The result of a walk: a panic (`none`), a missing node, or a value. -/
abbrev Walk (α : Type) := Option (Except MissingNodeError α)

namespace Trie

variable (t : Trie) (db : Db)

def setCacheLimit (l : UInt16) : Trie := { t with cachelimit := l }

/-- `newFlag`: the flags of a node created now. -/
def newFlag : NodeFlag := ⟨none, t.cachegen, true⟩

/-- `resolveHash`: the node stored under `n`, decoded with the hash it was loaded from;
`mustDecodeNode` panics on an encoding `decodeNode` refuses. -/
def resolveHash (n : Bytes) (pfx : List UInt8) : Walk Node :=
  match db n with
  | none => some (.error ⟨bytesToHash n, pfx⟩)
  | some enc =>
    match decodeNode (some n) enc t.cachegen with
    | some (.ok dec) => some (.ok dec)
    | _ => none

/-- `resolve`: a hash node is loaded, any other node is kept. -/
def resolve (n : Node) (pfx : List UInt8) : Walk Node :=
  match n with
  | .hash h => t.resolveHash db h pfx
  | n => some (.ok n)

/-- `tryGet(origNode, key, pos)`: the value at `key` from `pos` on, the node that replaces
`origNode` with the hash nodes met on the way loaded, and whether any was. A node that
loads a child is copied with the current generation, keeping its hash and dirty flag. -/
def tryGet : ℕ → Node → List UInt8 → ℕ → Walk (Option Bytes × Node × Bool)
  | 0, _, _, _ => none
  | fuel + 1, origNode, key, pos =>
    match origNode with
    | .nil => some (.ok (none, .nil, false))
    | .value v => some (.ok (some v, .value v, false))
    | .short k val flags =>
      if key.length - pos < k.length ∨ k ≠ (key.drop pos).take k.length then
        -- key not found in trie
        some (.ok (none, origNode, false))
      else
        match tryGet fuel val key (pos + k.length) with
        | some (.ok (value, newnode, didResolve)) =>
          if didResolve then
            some (.ok (value, .short k newnode { flags with gen := t.cachegen }, true))
          else some (.ok (value, origNode, false))
        | some (.error e) => some (.error e)
        | none => none
    | .full cs flags =>
      match key[pos]? with
      | none => none
      | some b =>
        if hb : b.toNat < 17 then
          match tryGet fuel (cs ⟨b.toNat, hb⟩) key (pos + 1) with
          | some (.ok (value, newnode, didResolve)) =>
            if didResolve then
              some (.ok (value, .full (Function.update cs ⟨b.toNat, hb⟩ newnode)
                { flags with gen := t.cachegen }, true))
            else some (.ok (value, origNode, false))
          | some (.error e) => some (.error e)
          | none => none
        else none
    | .hash h =>
      match t.resolveHash db h (key.take pos) with
      | some (.ok child) =>
        match tryGet fuel child key pos with
        | some (.ok (value, newnode, _)) => some (.ok (value, newnode, true))
        | some (.error e) => some (.error e)
        | none => none
      | some (.error e) => some (.error e)
      | none => none

/-- `insert(n, prefix, key, value)`: whether the trie changed and the node that replaces
`n`. A short node whose key is only partly matched is split at a new full node. -/
def insert : ℕ → Node → List UInt8 → List UInt8 → Node → Walk (Bool × Node)
  | 0, _, _, _, _ => none
  | fuel + 1, n, pfx, key, value =>
    match key, n with
    | [], n =>
      match n with
      | .value v =>
        match value with
        | .value w => some (.ok (v != w, value))
        -- `value.(valueNode)` panics on any other node
        | .nil | .short .. | .full .. | .hash _ => none
      | .nil | .short .. | .full .. | .hash _ => some (.ok (true, value))
    | b :: rest, n =>
      match n with
      | .short k val _ =>
        let matchlen := prefixLen key k
        if matchlen = k.length then
          -- the whole key of the short node matches: insert into its child
          match insert fuel val (pfx ++ key.take matchlen) (key.drop matchlen) value with
          | some (.ok (dirty, nn)) =>
            if !dirty then some (.ok (false, n)) else some (.ok (true, .short k nn t.newFlag))
          | some (.error e) => some (.error e)
          | none => none
        else
          match k[matchlen]?, key[matchlen]? with
          | some kb, some kbKey =>
            if hk : kb.toNat < 17 ∧ kbKey.toNat < 17 then
              -- branch out at the index where the keys differ
              match insert fuel .nil (pfx ++ k.take (matchlen + 1)) (k.drop (matchlen + 1))
                  val with
              | some (.ok (_, c1)) =>
                match insert fuel .nil (pfx ++ key.take (matchlen + 1))
                    (key.drop (matchlen + 1)) value with
                | some (.ok (_, c2)) =>
                  let branch : Node := .full (Function.update
                    (Function.update (fun _ => .nil) ⟨kb.toNat, hk.1⟩ c1)
                    ⟨kbKey.toNat, hk.2⟩ c2) t.newFlag
                  if matchlen = 0 then some (.ok (true, branch))
                  else some (.ok (true, .short (key.take matchlen) branch t.newFlag))
                | some (.error e) => some (.error e)
                | none => none
              | some (.error e) => some (.error e)
              | none => none
            else none
          | _, _ => none
      | .full cs _ =>
        if hb : b.toNat < 17 then
          match insert fuel (cs ⟨b.toNat, hb⟩) (pfx ++ [b]) rest value with
          | some (.ok (dirty, nn)) =>
            if !dirty then some (.ok (false, n))
            else some (.ok (true, .full (Function.update cs ⟨b.toNat, hb⟩ nn) t.newFlag))
          | some (.error e) => some (.error e)
          | none => none
        else none
      | .nil => some (.ok (true, .short key value t.newFlag))
      | .hash h =>
        -- load the node and insert into it
        match t.resolveHash db h pfx with
        | some (.ok rn) =>
          match insert fuel rn pfx key value with
          | some (.ok (dirty, nn)) =>
            if !dirty then some (.ok (false, rn)) else some (.ok (true, nn))
          | some (.error e) => some (.error e)
          | none => none
        | some (.error e) => some (.error e)
        | none => none
      | .value _ => none

/-- What the loop of `delete` over the children of a full node finds: no child, the
index of the only one, or two (`pos` is -1, the index, or -2). -/
inductive Scan where
  | none
  | one (i : Fin 17)
  | many
  deriving DecidableEq

/-- The loop of `delete` over the children `is`, which stops at the second non-nil one. -/
def scanChildren (cs : Fin 17 → Node) : List (Fin 17) → Scan → Scan
  | [], pos => pos
  | i :: is, pos =>
    if (cs i).isNil then scanChildren cs is pos
    else
      match pos with
      | .none => scanChildren cs is (.one i)
      | _ => .many

/-- `delete(n, prefix, key)`: whether the trie changed and the node that replaces `n`,
reduced to minimal form on the way up: a full node left with one child becomes a short
node, merged with that child when it is a short node itself (loaded for this check). -/
def delete : ℕ → Node → List UInt8 → List UInt8 → Walk (Bool × Node)
  | 0, _, _, _ => none
  | fuel + 1, n, pfx, key =>
    match n with
    | .short k val _ =>
      let matchlen := prefixLen key k
      if matchlen < k.length then some (.ok (false, n))
      else if matchlen = key.length then some (.ok (true, .nil))
      else
        match delete fuel val (pfx ++ key.take k.length) (key.drop k.length) with
        | some (.ok (dirty, child)) =>
          if !dirty then some (.ok (false, n))
          else
            match child with
            -- `concat(n.Key, child.Key...)`
            | .short ck cval _ => some (.ok (true, .short (k ++ ck) cval t.newFlag))
            | _ => some (.ok (true, .short k child t.newFlag))
        | some (.error e) => some (.error e)
        | none => none
    | .full cs _ =>
      match key with
      | [] => none
      | b :: rest =>
        if hb : b.toNat < 17 then
          match delete fuel (cs ⟨b.toNat, hb⟩) (pfx ++ [b]) rest with
          | some (.ok (dirty, nn)) =>
            if !dirty then some (.ok (false, n))
            else
              let cs' := Function.update cs ⟨b.toNat, hb⟩ nn
              match scanChildren cs' (List.finRange 17) .none with
              | .one pos =>
                if pos.val ≠ 16 then
                  -- the child is loaded (with the parent's prefix) only to see its kind
                  match t.resolve db (cs' pos) pfx with
                  | some (.ok (.short ck cval _)) =>
                    some (.ok (true, .short (pos.val.toUInt8 :: ck) cval t.newFlag))
                  | some (.ok _) => some (.ok (true, .short [pos.val.toUInt8] (cs' pos) t.newFlag))
                  | some (.error e) => some (.error e)
                  | none => none
                else some (.ok (true, .short [pos.val.toUInt8] (cs' pos) t.newFlag))
              | _ => some (.ok (true, .full cs' t.newFlag))
          | some (.error e) => some (.error e)
          | none => none
        else none
    | .value _ => some (.ok (true, .nil))
    | .nil => some (.ok (false, .nil))
    | .hash h =>
      match t.resolveHash db h pfx with
      | some (.ok rn) =>
        match delete fuel rn pfx key with
        | some (.ok (dirty, nn)) => if !dirty then some (.ok (false, rn)) else some (.ok (true, nn))
        | some (.error e) => some (.error e)
        | none => none
      | some (.error e) => some (.error e)
      | none => none

variable (fuel : ℕ)

/-- `TryGet(key)`: the root keeps the nodes the walk loaded. -/
def TryGet (key : Bytes) : Walk (Option Bytes × Trie) :=
  match t.tryGet db fuel t.root (keybytesToHex key) 0 with
  | some (.ok (value, newroot, didResolve)) =>
    some (.ok (value, if didResolve then { t with root := newroot } else t))
  | some (.error e) => some (.error e)
  | none => none

/-- `TryUpdate(key, value)`: an empty value deletes the key. -/
def TryUpdate (key value : Bytes) : Walk Trie :=
  let k := keybytesToHex key
  let r := if value.length ≠ 0 then t.insert db fuel t.root [] k (.value value)
    else t.delete db fuel t.root [] k
  match r with
  | some (.ok (_, n)) => some (.ok { t with root := n })
  | some (.error e) => some (.error e)
  | none => none

def TryDelete (key : Bytes) : Walk Trie :=
  match t.delete db fuel t.root [] (keybytesToHex key) with
  | some (.ok (_, n)) => some (.ok { t with root := n })
  | some (.error e) => some (.error e)
  | none => none

-- The equation lemmas of these definitions are made here, once: the proofs that unfold them
-- run in parallel, and would otherwise each wait for them on a thread of its own.
section
attribute [local simp] tryGet insert delete
end

end Trie

section Hashing

variable (H : Bytes → Bytes) (t : Trie)

/-- `emptyRoot`, the hash of the RLP encoding of the empty string. -/
def emptyRoot : Bytes := H (encString [])

/-- `hashRoot(db)`: the hasher over the root, in commit mode when there is a database to
write to; an empty trie hashes to `emptyRoot`. -/
def Trie.hashRoot (commit : Bool) : Node × Node × Puts :=
  match t.root with
  | .nil => (.hash (emptyRoot H), .nil, [])
  | root => Hasher.hash H ⟨t.cachegen, t.cachelimit⟩ commit root true

/-- `Hash()`: the root hash, with the hashes cached in the root; the assertion that the
hasher returned a hash node panics otherwise. -/
def Trie.Hash : Option (Hash × Trie) :=
  match t.hashRoot H false with
  | (.hash h, cached, _) => some (bytesToHash h, { t with root := cached })
  | _ => none

/-- `CommitTo(db)`: the root hash, the trie with its nodes flushed and the next cache
generation, and the writes to the database. -/
def Trie.CommitTo : Option (Sphinx.Hash × Trie × Puts) :=
  match t.hashRoot H true with
  | (.hash h, cached, puts) =>
    some (bytesToHash h, { t with root := cached, cachegen := t.cachegen + 1 }, puts)
  | _ => none

/-- `New(root, db)`: an empty trie for the zero hash and `emptyRoot`, else the root node
loaded from the database. -/
def New (root : Hash) (db : Db) : Walk Trie :=
  let trie : Trie := ⟨.nil, 0, 0⟩
  if root ≠ zeroHash ∧ root ≠ bytesToHash (emptyRoot H) then
    match trie.resolveHash db root.bytes [] with
    | some (.ok rootnode) => some (.ok { trie with root := rootnode })
    | some (.error e) => some (.error e)
    | none => none
  else some (.ok trie)

end Hashing

end Sphinx.Trie
