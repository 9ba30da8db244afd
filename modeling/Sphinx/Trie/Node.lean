import Sphinx.Rlp.Raw
import Sphinx.Trie.Encoding

/-! # Trie nodes and their encoding

`node.go`: a node is nil, a full node of 17 children (16 nibbles and a value), a short
node (a key of nibbles and one child), a hash node (a reference to a node stored under
its hash) or a value node. Full and short nodes carry a `nodeFlag`: the hash cached for
them, the cache generation they were last touched in, and whether they have changes
that are not in the database yet.

A node is stored as the RLP encoding of its collapsed form, where every child is either
the collapsed child itself, when its encoding is shorter than 32 bytes, or the hash node
of that encoding (`collapse`, `refOf`); `decodeNode` reads it back. The round trip
(`decodeNode_encode`) gives back the node with each child stored by hash replaced by
its hash node and the flags of a node fresh from the database (`decoded`).
-/

namespace Sphinx.Trie

open Rlp

/-- `nodeFlag`; a nil hash is `none`. -/
structure NodeFlag where
  hash : Option Bytes
  gen : UInt16
  dirty : Bool
  deriving DecidableEq

/-- `canUnload`: not dirty and untouched for `cachelimit` generations, in the source's
16-bit arithmetic. -/
def NodeFlag.canUnload (n : NodeFlag) (cachegen cachelimit : UInt16) : Bool :=
  !n.dirty && cachegen - n.gen >= cachelimit

/-- The nodes: nil, `*fullNode`, `*shortNode`, `hashNode` and `valueNode`. The children
of a full node are the array `Children [17]node`. -/
inductive Node where
  | nil
  | full (children : Fin 17 → Node) (flags : NodeFlag)
  | short (key : List UInt8) (val : Node) (flags : NodeFlag)
  | hash (h : Bytes)
  | value (v : Bytes)

namespace Node

def isNil : Node → Bool
  | nil => true
  | _ => false

def isValue : Node → Bool
  | value _ => true
  | _ => false

def isHash : Node → Bool
  | hash _ => true
  | _ => false

/-- `cache()`; hash and value nodes report no hash and dirty. A nil node has no method to
call: the source never asks it. -/
def cache : Node → Option Bytes × Bool
  | full _ flags | short _ _ flags => (flags.hash, flags.dirty)
  | _ => (none, true)

def canUnload (cachegen cachelimit : UInt16) : Node → Bool
  | full _ flags | short _ _ flags => flags.canUnload cachegen cachelimit
  | _ => false

end Node

/-! ## Encoding -/

/-- `rlp.Encode` of a node: a full node is the list of its 17 children (`EncodeRLP`), a
short node the list of its key and child, hash and value nodes are strings, and a nil
interface is the empty list. -/
def encodeNode : Node → Bytes
  | .full cs _ => encList ((List.finRange 17).flatMap fun i => encodeNode (cs i))
  | .short key val _ => encList (encString key ++ encodeNode val)
  | .hash h => encString h
  | .value v => encString v
  | .nil => [0xC0]

section Collapse

variable (H : Bytes → Bytes)

/-- What a parent holds for a collapsed child: `store` with `force` off keeps a node
whose encoding is shorter than 32 bytes and replaces any other by the hash node of its
encoding; nil and hash nodes are kept. -/
def refOf : Node → Node
  | .nil => .nil
  | .hash h => .hash h
  | c => if (encodeNode c).length < 32 then c else .hash (H (encodeNode c))

/-- The collapsed node `hashChildren` builds when no hash is cached: the key in compact
form, every child but a value by reference, and nil children as empty values so that
they encode as empty strings. -/
def collapse : Node → Node
  | .full cs flags => .full (fun i =>
      if i.val < 16 then
        if (cs i).isNil then .value [] else refOf H (collapse (cs i))
      else if (cs i).isNil then .value [] else cs i) flags
  | .short key val flags =>
    .short (hexToCompact key)
      (if val.isValue then val else if val.isNil then .value [] else refOf H (collapse val)) flags
  | n => n

end Collapse

/-! ## Decoding -/

/-- The errors of `decodeNode`, with `outOfFuel` for the model's bound on nesting. -/
inductive Cause where
  | unexpectedEOF
  /-- `decode error: %v` around an error of `SplitList`. -/
  | decode (e : Rlp.Error)
  /-- `invalid number of list elements: %v` -/
  | invalidListElements (c : ℕ)
  /-- an error of `rlp` returned as it is -/
  | rlp (e : Rlp.Error)
  /-- `invalid value node: %v` -/
  | invalidValueNode (e : Rlp.Error)
  /-- `oversized embedded node (size is %d bytes, want size < %d)` -/
  | oversizedEmbedded (size : ℕ)
  /-- `invalid RLP string size %d (want 0 or 32)` -/
  | invalidStringSize (size : ℕ)
  | outOfFuel
  deriving DecidableEq, Repr

/-- The contexts `wrapError` records: `short`, `full`, `val` and `[i]`. -/
inductive Ctx where
  | short
  | full
  | val
  | child (i : ℕ)
  deriving DecidableEq, Repr

/-- `decodeError`: the cause and the decode path, innermost first. An error that was
never wrapped has an empty path. -/
structure DecodeError where
  what : Cause
  stack : List Ctx
  deriving DecidableEq, Repr

def wrapError (err : DecodeError) (ctx : Ctx) : DecodeError :=
  { err with stack := err.stack ++ [ctx] }

/-- The result of a decoder: `none` is a panic, otherwise the value or the error. -/
abbrev Dec (α : Type) := Option (Except DecodeError α)

/-- `hashLen`. -/
def hashLen : ℕ := 32

section Decoders

-- `dec` decodes an embedded node: `decodeNode(nil, buf, cachegen)`
variable (dec : Bytes → Dec Node)

/-- `decodeRef`: a child by reference and the bytes after it. An embedded node is
decoded from the whole remaining buffer, which `decodeNode` splits again. -/
def decodeRef (buf : Bytes) : Dec (Node × Bytes) :=
  match Raw.split buf with
  | none => none
  | some (.error e) => some (.error ⟨.rlp e, []⟩)
  | some (.ok (kind, val, rest)) =>
    if kind = .list then
      let size := buf.length - rest.length
      if size > hashLen then some (.error ⟨.oversizedEmbedded size, []⟩)
      else (dec buf).map fun r => r.map fun n => (n, rest)
    else if kind = .string ∧ val.length = 0 then some (.ok (.nil, rest))
    else if kind = .string ∧ val.length = 32 then some (.ok (.hash val, rest))
    else some (.error ⟨.invalidStringSize val.length, []⟩)

/-- The loop of `decodeFull` over the children `i` to `i + k - 1`. -/
def decodeRefs : ℕ → ℕ → Bytes → Dec (List Node × Bytes)
  | _, 0, elems => some (.ok ([], elems))
  | i, k + 1, elems =>
    match decodeRef dec elems with
    | none => none
    | some (.error e) => some (.error (wrapError e (.child i)))
    | some (.ok (cld, rest)) =>
      (decodeRefs (i + 1) k rest).map fun r => r.map fun (cs, r) => (cld :: cs, r)

variable (cachegen : UInt16) (hash : Option Bytes)

def decodeShort (elems : Bytes) : Dec Node :=
  match Raw.splitString elems with
  | none => none
  | some (.error e) => some (.error ⟨.rlp e, []⟩)
  | some (.ok (kbuf, rest)) =>
    match compactToHex kbuf with
    | none => none
    | some key =>
      if hasTerm key then
        match Raw.splitString rest with
        | none => none
        | some (.error e) => some (.error ⟨.invalidValueNode e, []⟩)
        | some (.ok (val, _)) => some (.ok (.short key (.value val) ⟨hash, cachegen, false⟩))
      else
        match decodeRef dec rest with
        | none => none
        | some (.error e) => some (.error (wrapError e .val))
        | some (.ok (r, _)) => some (.ok (.short key r ⟨hash, cachegen, false⟩))

/-- `decodeFull`. On an error the source also returns the children read so far, which
every caller drops. -/
def decodeFull (elems : Bytes) : Dec Node :=
  match decodeRefs dec 0 16 elems with
  | none => none
  | some (.error e) => some (.error e)
  | some (.ok (cs, elems)) =>
    match Raw.splitString elems with
    | none => none
    | some (.error e) => some (.error ⟨.rlp e, []⟩)
    | some (.ok (val, _)) =>
      some (.ok (.full (fun i =>
        if i.val < 16 then cs.getD i.val .nil
        else if val.length > 0 then .value val else .nil) ⟨hash, cachegen, false⟩))

end Decoders

/-- `decodeNode` with a bound on the nesting of embedded nodes; every embedded node is
decoded from a strictly shorter buffer, so the length of the input is enough. -/
def decodeNodeFrom (cachegen : UInt16) : ℕ → Option Bytes → Bytes → Dec Node
  | 0, _, _ => some (.error ⟨.outOfFuel, []⟩)
  | fuel + 1, hash, buf =>
    if buf.length = 0 then some (.error ⟨.unexpectedEOF, []⟩) else
    match Raw.splitList buf with
    | none => none
    | some (.error e) => some (.error ⟨.decode e, []⟩)
    | some (.ok (elems, _)) =>
      match Raw.countValues elems with
      | none => none
      | some r =>
        -- the error of `CountValues` is dropped, with a count of 0
        let c := match r with
          | .ok c => c
          | .error _ => 0
        let dec := decodeNodeFrom cachegen fuel none
        if c = 2 then
          (decodeShort dec cachegen hash elems).map (·.mapError (wrapError · .short))
        else if c = 17 then
          (decodeFull dec cachegen hash elems).map (·.mapError (wrapError · .full))
        else some (.error ⟨.invalidListElements c, []⟩)

/-- `decodeNode(hash, buf, cachegen)`. -/
def decodeNode (hash : Option Bytes) (buf : Bytes) (cachegen : UInt16) : Dec Node :=
  decodeNodeFrom cachegen buf.length hash buf

/-! ## The round trip -/

section RoundTrip

variable (H : Bytes → Bytes) (cachegen : UInt16)

/-- The node `decodeNode` gives back for the encoding of `collapse H n` stored under `h`:
the flags of a clean node of generation `cachegen` with the hash `h` (none for an
embedded node), every child the parent holds by hash as that hash node, every embedded
child decoded in turn, and an empty 17th value as nil. -/
def decoded (h : Option Bytes) : Node → Node
  | .full cs _ => .full (fun i =>
      if i.val < 16 then
        match refOf H (collapse H (cs i)) with
        | .hash r => .hash r
        | _ => decoded none (cs i)
      else
        match cs i with
        | .value v => if v.length > 0 then .value v else .nil
        | _ => .nil) ⟨h, cachegen, false⟩
  | .short key val _ =>
    .short key
      (if val.isValue then val
       else match refOf H (collapse H val) with
        | .hash r => .hash r
        | _ => decoded none val) ⟨h, cachegen, false⟩
  | n => n

/-- The nodes whose encoding decodes back: hex keys with the terminator exactly over a
value, values only there and in the 17th child of a full node, no nil child of a short
node, and hash nodes of 32 bytes. -/
def WellFormed : Node → Prop
  | .full cs _ =>
    (∀ i : Fin 17, i.val < 16 → (cs i).isValue = false ∧ WellFormed (cs i)) ∧
      ((cs 16).isNil ∨ (cs 16).isValue)
  | .short key val _ =>
    HexKey key ∧ hasTerm key = val.isValue ∧ val.isNil = false ∧ WellFormed val
  | .hash h => h.length = 32
  | .value _ => True
  | .nil => True

/-- The child `decoded` puts where the parent holds `refOf H (collapse H c)`. -/
def decodedRef (c : Node) : Node :=
  match refOf H (collapse H c) with
  | .hash r => .hash r
  | _ => decoded H cachegen none c

theorem decoded_full (h : Option Bytes) (cs : Fin 17 → Node) (flags : NodeFlag) :
    decoded H cachegen h (.full cs flags) = .full (fun i =>
      if i.val < 16 then decodedRef H cachegen (cs i)
      else match cs i with
        | .value v => if v.length > 0 then .value v else .nil
        | _ => .nil) ⟨h, cachegen, false⟩ := rfl

theorem decoded_short (h : Option Bytes) (key : List UInt8) (val : Node) (flags : NodeFlag) :
    decoded H cachegen h (.short key val flags) =
      .short key (if val.isValue then val else decodedRef H cachegen val)
        ⟨h, cachegen, false⟩ := rfl

/-! ### Encodings split -/

theorem encList_ne_nil (p : Bytes) : encList p ≠ [] := by
  simp [encList, puthead]
  split <;> simp

theorem encString_ne_nil (b : Bytes) : encString b ≠ [] := by
  unfold encString
  split
  · split <;> simp [puthead]
  · simp [puthead]
    split <;> simp

theorem encodeNode_ne_nil (n : Node) : encodeNode n ≠ [] := by
  cases n with
  | full cs flags => exact encList_ne_nil _
  | short key val flags => exact encList_ne_nil _
  | hash h => exact encString_ne_nil h
  | value v => exact encString_ne_nil v
  | nil => simp [encodeNode]

theorem length_lt_encList (p : Bytes) : p.length < (encList p).length := by
  simp only [encList, List.length_append, length_puthead, headsize]
  split <;> omega

theorem length_encList_eq_succ (p : Bytes) : ∃ f, (encList p).length = f + 1 ∧ p.length ≤ f :=
  ⟨(encList p).length - 1, by have := length_lt_encList p; omega⟩

theorem length_le_encString (b : Bytes) : b.length ≤ (encString b).length := by
  unfold encString
  split
  · split <;> simp
  · simp

theorem split_encodeNode (n : Node) (hn : (encodeNode n).length < 2 ^ 64) (rest : Bytes) :
    ∃ k c, Raw.split (encodeNode n ++ rest) = some (.ok (k, c, rest)) := by
  cases n with
  | full cs flags =>
    have := length_lt_encList ((List.finRange 17).flatMap fun i => encodeNode (cs i))
    exact ⟨_, _, Raw.split_encList (by simp only [encodeNode] at hn; omega)⟩
  | short key val flags =>
    have := length_lt_encList (encString key ++ encodeNode val)
    exact ⟨_, _, Raw.split_encList (by simp only [encodeNode] at hn; omega)⟩
  | hash h =>
    have := length_le_encString h
    obtain ⟨k, -, -, hs⟩ := @Raw.split_encString h rest (by simp only [encodeNode] at hn; omega)
    exact ⟨k, h, hs⟩
  | value v =>
    have := length_le_encString v
    obtain ⟨k, -, -, hs⟩ := @Raw.split_encString v rest (by simp only [encodeNode] at hn; omega)
    exact ⟨k, v, hs⟩
  | nil => exact ⟨_, _, @Raw.split_encList [] rest (by decide)⟩

/-! ### Children by reference -/

section Refs

variable {dec : Bytes → Dec Node}

theorem decodeRef_empty (rest : Bytes) :
    decodeRef dec (encodeNode (.value []) ++ rest) = some (.ok (.nil, rest)) := by
  obtain ⟨k, -, hk, hs⟩ := @Raw.split_encString [] rest (by decide)
  simp [decodeRef, encodeNode, hs, hk (by decide)]

theorem decodeRef_hash {r : Bytes} (hr : r.length = 32) (rest : Bytes) :
    decodeRef dec (encodeNode (.hash r) ++ rest) = some (.ok (.hash r, rest)) := by
  obtain ⟨k, -, hk, hs⟩ := @Raw.split_encString r rest (by omega)
  simp [decodeRef, encodeNode, hs, hk (by omega), hr]

theorem decodeRef_embedded {c : Bytes} {p : Bytes} (hc : c = encList p) (hlen : c.length ≤ 32)
    (rest : Bytes) :
    decodeRef dec (c ++ rest) = (dec (c ++ rest)).map fun r => r.map fun n => (n, rest) := by
  have hs : Raw.split (c ++ rest) = some (.ok (.list, p, rest)) := by
    subst hc
    exact Raw.split_encList (by have := length_lt_encList p; omega)
  simp only [decodeRef, hs, if_true, List.length_append, hashLen]
  rw [if_neg (by omega)]

theorem decodeRefs_flatten :
    ∀ {es : List Bytes} {ns : List Node},
      List.Forall₂ (fun e n => ∀ rest, decodeRef dec (e ++ rest) = some (.ok (n, rest))) es ns →
      ∀ i rest, decodeRefs dec i es.length (es.flatten ++ rest) = some (.ok (ns, rest))
  | [], [], .nil, _, _ => rfl
  | e :: es, n :: ns, .cons he hs, i, rest => by
    rw [List.length_cons, List.flatten_cons, List.append_assoc]
    simp only [decodeRefs, he, decodeRefs_flatten hs, Option.map_some, Except.map]

end Refs

/-! ### Full and short nodes -/

/-- Full and short nodes, the nodes stored by themselves. -/
def Node.isNode : Node → Bool
  | .full _ _ | .short _ _ _ => true
  | _ => false

/-- A child held by reference in a collapsed node. -/
def childRef (c : Node) : Node :=
  if c.isNil then .value [] else refOf H (collapse H c)

/-- The child `i` of a collapsed full node. -/
def collapsedChild (cs : Fin 17 → Node) (i : Fin 17) : Node :=
  if i.val < 16 then childRef H (cs i) else if (cs i).isNil then .value [] else cs i

theorem collapse_full (cs : Fin 17 → Node) (flags : NodeFlag) :
    collapse H (.full cs flags) = .full (collapsedChild H cs) flags := rfl

theorem collapse_short (key : List UInt8) (val : Node) (flags : NodeFlag) :
    collapse H (.short key val flags) =
      .short (hexToCompact key) (if val.isValue then val else childRef H val) flags := rfl

theorem length_le_flatMap {f : Fin 17 → Bytes} (i : Fin 17) :
    (f i).length ≤ ((List.finRange 17).flatMap f).length := by
  rw [List.flatMap_def]
  exact (List.sublist_flatten_of_mem (List.mem_map_of_mem (List.mem_finRange i))).length_le

theorem isNode_collapse {c : Node} (hc : c.isNode = true) : (collapse H c).isNode = true := by
  cases c <;> simp_all [Node.isNode, collapse_full, collapse_short]

theorem refOf_node {m : Node} (hm : m.isNode = true) :
    refOf H m = if (encodeNode m).length < 32 then m else .hash (H (encodeNode m)) := by
  cases m <;> simp_all [Node.isNode, refOf]

theorem encodeNode_node {m : Node} (hm : m.isNode = true) : ∃ p, encodeNode m = encList p := by
  cases m <;> simp_all [Node.isNode, encodeNode]

theorem decodedRef_of_hash {c : Node} {r : Bytes} (h : refOf H (collapse H c) = .hash r) :
    decodedRef H cachegen c = .hash r := by
  simp [decodedRef, h]

theorem decodedRef_of_embedded {c : Node} (h : (refOf H (collapse H c)).isHash = false) :
    decodedRef H cachegen c = decoded H cachegen none c := by
  unfold decodedRef
  split <;> simp_all [Node.isHash]

theorem decodeRef_childRef (hH : ∀ x, (H x).length = 32) {c : Node} (hc : WellFormed c)
    (hv : c.isValue = false) {fuel : ℕ}
    (ih : c.isNode = true → ∀ rest, (encodeNode (collapse H c)).length ≤ fuel →
      (encodeNode (collapse H c)).length < 2 ^ 64 →
      decodeNodeFrom cachegen fuel none (encodeNode (collapse H c) ++ rest) =
        some (.ok (decoded H cachegen none c)))
    (hlen : (encodeNode (childRef H c)).length ≤ fuel)
    (h64 : (encodeNode (childRef H c)).length < 2 ^ 64) (rest : Bytes) :
    decodeRef (decodeNodeFrom cachegen fuel none) (encodeNode (childRef H c) ++ rest) =
      some (.ok (decodedRef H cachegen c, rest)) := by
  by_cases hn : c.isNode = true
  · have hm := isNode_collapse H hn
    have href : childRef H c = refOf H (collapse H c) := by
      cases c <;> simp_all [Node.isNode, childRef, Node.isNil]
    rw [href, refOf_node H hm] at hlen h64 ⊢
    by_cases hsmall : (encodeNode (collapse H c)).length < 32
    · rw [if_pos hsmall] at hlen h64 ⊢
      obtain ⟨p, hp⟩ := encodeNode_node hm
      have hemb : (refOf H (collapse H c)).isHash = false := by
        rw [refOf_node H hm, if_pos hsmall]
        cases hc' : collapse H c <;> simp_all [Node.isNode, Node.isHash]
      rw [decodeRef_embedded hp (by omega), ih hn rest hlen h64,
        decodedRef_of_embedded H cachegen hemb]
      rfl
    · rw [if_neg hsmall, decodeRef_hash (hH _)]
      rw [decodedRef_of_hash H cachegen (by rw [refOf_node H hm, if_neg hsmall])]
  · cases c with
    | nil => exact decodeRef_empty rest
    | value v => simp [Node.isValue] at hv
    | hash r => exact decodeRef_hash hc rest
    | full cs flags => simp [Node.isNode] at hn
    | short key val flags => simp [Node.isNode] at hn

theorem decodeNodeFrom_full (hH : ∀ x, (H x).length = 32) {cs : Fin 17 → Node}
    {flags : NodeFlag} (hw : WellFormed (.full cs flags))
    (ih : ∀ i, WellFormed (cs i) → (cs i).isNode = true → ∀ fuel rest,
      (encodeNode (collapse H (cs i))).length ≤ fuel →
      (encodeNode (collapse H (cs i))).length < 2 ^ 64 →
      decodeNodeFrom cachegen fuel none (encodeNode (collapse H (cs i)) ++ rest) =
        some (.ok (decoded H cachegen none (cs i))))
    {fuel : ℕ} (h : Option Bytes) (rest : Bytes)
    (hlen : (encodeNode (collapse H (.full cs flags))).length ≤ fuel)
    (h64 : (encodeNode (collapse H (.full cs flags))).length < 2 ^ 64) :
    decodeNodeFrom cachegen fuel h (encodeNode (collapse H (.full cs flags)) ++ rest) =
      some (.ok (decoded H cachegen h (.full cs flags))) := by
  set P := (List.finRange 17).flatMap fun i => encodeNode (collapsedChild H cs i) with hP
  have henc : encodeNode (collapse H (.full cs flags)) = encList P := rfl
  rw [henc] at hlen h64 ⊢
  have hPlt := length_lt_encList P
  obtain ⟨fuel, rfl⟩ : ∃ f, fuel = f + 1 := ⟨fuel - 1, by omega⟩
  have hkid : ∀ i, (encodeNode (collapsedChild H cs i)).length ≤ fuel ∧
      (encodeNode (collapsedChild H cs i)).length < 2 ^ 64 := by
    intro i
    have : (encodeNode (collapsedChild H cs i)).length ≤ P.length :=
      @length_le_flatMap (fun i => encodeNode (collapsedChild H cs i)) i
    constructor <;> omega
  have hcount : Raw.countValues P = some (.ok 17) := by
    have := @Raw.countValues_flatten
      ((List.finRange 17).map fun i => encodeNode (collapsedChild H cs i)) (by
        intro e he
        obtain ⟨i, -, rfl⟩ := List.mem_map.mp he
        exact ⟨encodeNode_ne_nil _, fun rest => split_encodeNode _ (hkid i).2 rest⟩)
    simpa [hP, List.flatMap_def] using this
  have hsplit : P = ((List.finRange 16).map fun i =>
      encodeNode (collapsedChild H cs i.castSucc)).flatten ++
      encodeNode (collapsedChild H cs 16) := by
    rw [hP, List.finRange_succ_last, List.flatMap_append, List.flatMap_def, List.map_map]
    simp only [List.flatMap_cons, List.flatMap_nil, List.append_nil, Fin.last]
    rfl
  have hrefs : decodeRefs (decodeNodeFrom cachegen fuel none) 0 16 P =
      some (.ok ((List.finRange 16).map fun i => decodedRef H cachegen (cs i.castSucc),
        encodeNode (collapsedChild H cs 16))) := by
    rw [hsplit]
    have hall : List.Forall₂ (fun e n => ∀ rest,
        decodeRef (decodeNodeFrom cachegen fuel none) (e ++ rest) = some (.ok (n, rest)))
        ((List.finRange 16).map fun i => encodeNode (collapsedChild H cs i.castSucc))
        ((List.finRange 16).map fun i => decodedRef H cachegen (cs i.castSucc)) := by
      rw [List.forall₂_map_left_iff, List.forall₂_map_right_iff, List.forall₂_same]
      intro i _ rest
      have hi : (i.castSucc : Fin 17).val < 16 := i.isLt
      have hwi := hw.1 _ hi
      have hc : collapsedChild H cs i.castSucc = childRef H (cs i.castSucc) := by
        simp [collapsedChild]
      have hk := hkid i.castSucc
      rw [hc] at hk ⊢
      exact decodeRef_childRef H cachegen hH hwi.2 hwi.1
        (fun hn rest h₁ h₂ => ih _ hwi.2 hn fuel rest h₁ h₂) hk.1 hk.2 rest
    simpa using decodeRefs_flatten hall 0 (encodeNode (collapsedChild H cs 16))
  obtain ⟨v, hv, hdec⟩ : ∃ v, collapsedChild H cs 16 = .value v ∧
      (match cs 16 with
        | .value v => if v.length > 0 then Node.value v else .nil
        | _ => .nil) = if v.length > 0 then .value v else .nil := by
    rcases hw.2 with h16 | h16
    · refine ⟨[], by simp [collapsedChild, h16], ?_⟩
      cases h : cs 16 <;> simp_all [Node.isNil]
    · cases h : cs 16 <;> simp_all [Node.isValue, collapsedChild, Node.isNil]
  have hval : Raw.splitString (encodeNode (collapsedChild H cs 16)) = some (.ok (v, [])) := by
    have h16 := (hkid 16).2
    rw [hv] at h16 ⊢
    simp only [encodeNode]
    simpa using @Raw.splitString_encString v [] (by
      have := length_le_encString v
      simp only [encodeNode] at h16
      omega)
  have hne : (encList P ++ rest).length ≠ 0 := by simp [encList_ne_nil]
  have hsl : Raw.splitList (encList P ++ rest) = some (.ok (P, rest)) :=
    Raw.splitList_encList (by omega)
  simp only [decodeNodeFrom, hne, if_false, hsl, hcount, decodeFull, hrefs, hval]
  simp only [show (17 : ℕ) ≠ 2 by decide, if_false, if_true, Option.map_some, Except.mapError,
    decoded_full, Option.some.injEq, Except.ok.injEq, Node.full.injEq, and_true]
  funext i
  by_cases hi : i.val < 16
  · simp only [hi, if_true]
    rw [List.getD_eq_getElem _ _ (by simpa using hi)]
    simp
  · have hi16 : i = 16 := by ext; simp; omega
    subst hi16
    simp [hdec]

theorem decodeNodeFrom_short (hH : ∀ x, (H x).length = 32) {key : List UInt8} {val : Node}
    {flags : NodeFlag} (hw : WellFormed (.short key val flags))
    (ih : WellFormed val → val.isNode = true → ∀ fuel rest,
      (encodeNode (collapse H val)).length ≤ fuel →
      (encodeNode (collapse H val)).length < 2 ^ 64 →
      decodeNodeFrom cachegen fuel none (encodeNode (collapse H val) ++ rest) =
        some (.ok (decoded H cachegen none val)))
    {fuel : ℕ} (h : Option Bytes) (rest : Bytes)
    (hlen : (encodeNode (collapse H (.short key val flags))).length ≤ fuel)
    (h64 : (encodeNode (collapse H (.short key val flags))).length < 2 ^ 64) :
    decodeNodeFrom cachegen fuel h (encodeNode (collapse H (.short key val flags)) ++ rest) =
      some (.ok (decoded H cachegen h (.short key val flags))) := by
  obtain ⟨hkey, hterm, hnil, hwv⟩ := hw
  set v' := if val.isValue then val else childRef H val with hv'
  set P := encString (hexToCompact key) ++ encodeNode v' with hP
  have henc : encodeNode (collapse H (.short key val flags)) = encList P := rfl
  rw [henc] at hlen h64 ⊢
  have hPlt := length_lt_encList P
  obtain ⟨fuel, rfl⟩ : ∃ f, fuel = f + 1 := ⟨fuel - 1, by omega⟩
  have hPl : P.length = (encString (hexToCompact key)).length + (encodeNode v').length := by
    simp [hP]
  have hk64 : (hexToCompact key).length < 2 ^ 64 := by
    have := length_le_encString (hexToCompact key)
    omega
  have hv64 : (encodeNode v').length < 2 ^ 64 := by omega
  have hcount : Raw.countValues P = some (.ok 2) := by
    have := @Raw.countValues_flatten [encString (hexToCompact key), encodeNode v'] (by
      intro e he
      simp only [List.mem_cons, List.not_mem_nil, or_false] at he
      rcases he with rfl | rfl
      · refine ⟨encString_ne_nil _, fun rest => ?_⟩
        obtain ⟨k, -, -, hs⟩ := @Raw.split_encString (hexToCompact key) rest hk64
        exact ⟨k, _, hs⟩
      · exact ⟨encodeNode_ne_nil _, fun rest => split_encodeNode _ hv64 rest⟩)
    simpa [hP] using this
  have hkbuf : Raw.splitString P = some (.ok (hexToCompact key, encodeNode v')) :=
    Raw.splitString_encString hk64
  have hne : (encList P ++ rest).length ≠ 0 := by simp [encList_ne_nil]
  have hsl : Raw.splitList (encList P ++ rest) = some (.ok (P, rest)) :=
    Raw.splitList_encList (by omega)
  simp only [decodeNodeFrom, hne, if_false, hsl, hcount, if_true, decodeShort, hkbuf,
    compactToHex_hexToCompact hkey, hterm, decoded_short]
  cases hval : val.isValue
  · have href : v' = childRef H val := by simp [hv', hval]
    have hlen' : (encodeNode (childRef H val)).length ≤ fuel := by
      rw [← href]
      omega
    have hd := decodeRef_childRef H cachegen hH hwv hval
      (fun hn rest h₁ h₂ => ih hwv hn fuel rest h₁ h₂) hlen' (by rw [← href]; exact hv64) []
    rw [List.append_nil] at hd
    simp [href, hd, Except.mapError]
  · obtain ⟨w, rfl⟩ : ∃ w, val = .value w := by
      cases val <;> simp_all [Node.isValue]
    have hw' : Raw.splitString (encodeNode v') = some (.ok (w, [])) := by
      simp only [hv', hval, if_true, encodeNode] at hv64 ⊢
      simpa using @Raw.splitString_encString w [] (by
        have := length_le_encString w
        omega)
    simp [hw', Except.mapError]

theorem decodeNodeFrom_collapse (hH : ∀ x, (H x).length = 32) :
    ∀ (n : Node), WellFormed n → n.isNode = true → ∀ (fuel : ℕ) (h : Option Bytes)
      (rest : Bytes), (encodeNode (collapse H n)).length ≤ fuel →
      (encodeNode (collapse H n)).length < 2 ^ 64 →
      decodeNodeFrom cachegen fuel h (encodeNode (collapse H n) ++ rest) =
        some (.ok (decoded H cachegen h n)) := by
  intro n
  induction n with
  | full cs flags ih =>
    intro hw _ fuel h rest hlen h64
    exact decodeNodeFrom_full H cachegen hH hw
      (fun i hwi hn fuel rest => ih i hwi hn fuel none rest) h rest hlen h64
  | short key val flags ih =>
    intro hw _ fuel h rest hlen h64
    exact decodeNodeFrom_short H cachegen hH hw
      (fun hwv hn fuel rest => ih hwv hn fuel none rest) h rest hlen h64
  | nil => intro _ hn; simp [Node.isNode] at hn
  | hash _ => intro _ hn; simp [Node.isNode] at hn
  | value _ => intro _ hn; simp [Node.isNode] at hn

theorem decodeNode_collapse (hH : ∀ x, (H x).length = 32) {n : Node} (hw : WellFormed n)
    (hn : n.isNode = true) (h64 : (encodeNode (collapse H n)).length < 2 ^ 64)
    (h : Option Bytes) :
    decodeNode h (encodeNode (collapse H n)) cachegen = some (.ok (decoded H cachegen h n)) := by
  simpa [decodeNode] using decodeNodeFrom_collapse H cachegen hH n hw hn _ h [] le_rfl h64

end RoundTrip

/-! ## What `decodeRef` refuses -/

section Refuse

variable {dec : Bytes → Dec Node}

theorem decodeRef_oversized {buf p rest : Bytes} (hs : Raw.split buf = some (.ok (.list, p, rest)))
    (hsize : buf.length - rest.length > hashLen) :
    decodeRef dec buf = some (.error ⟨.oversizedEmbedded (buf.length - rest.length), []⟩) := by
  simp [decodeRef, hs, hsize]

theorem decodeRef_badString {buf val rest : Bytes} {k : Kind}
    (hs : Raw.split buf = some (.ok (k, val, rest))) (hk : k ≠ .list) (h0 : val.length ≠ 0)
    (h32 : val.length ≠ 32) :
    decodeRef dec buf = some (.error ⟨.invalidStringSize val.length, []⟩) := by
  simp [decodeRef, hs, hk, h0, h32]

/-- A reference `decodeRef` refuses with the cause `c`: an embedded list longer than a
hash, or a string neither empty nor of the length of a hash. -/
def BadRef (r : Bytes) (c : Cause) : Prop :=
  (∃ p, r = encList p ∧ hashLen < r.length ∧ r.length < 2 ^ 64 ∧
    c = .oversizedEmbedded r.length) ∨
  (∃ s, r = encString s ∧ s.length ≠ 0 ∧ s.length ≠ 32 ∧ s.length < 2 ^ 64 ∧
    c = .invalidStringSize s.length)

theorem decodeRef_bad {r : Bytes} {c : Cause} (hb : BadRef r c) (rest : Bytes) :
    decodeRef dec (r ++ rest) = some (.error ⟨c, []⟩) := by
  rcases hb with ⟨p, rfl, hlen, h64, rfl⟩ | ⟨s, rfl, h0, h32, h64, rfl⟩
  · have hs : Raw.split (encList p ++ rest) = some (.ok (.list, p, rest)) :=
      Raw.split_encList (by have := length_lt_encList p; omega)
    have := @decodeRef_oversized dec _ _ _ hs (by simpa using hlen)
    simpa using this
  · obtain ⟨k, hk, -, hs⟩ := @Raw.split_encString s rest h64
    exact decodeRef_badString hs hk h0 h32

theorem split_bad {r : Bytes} {c : Cause} (hb : BadRef r c) :
    r ≠ [] ∧ ∀ rest, ∃ k c', Raw.split (r ++ rest) = some (.ok (k, c', rest)) := by
  rcases hb with ⟨p, rfl, hlen, h64, -⟩ | ⟨s, rfl, -, -, h64, -⟩
  · exact ⟨encList_ne_nil p, fun rest =>
      ⟨_, _, Raw.split_encList (by have := length_lt_encList p; omega)⟩⟩
  · refine ⟨encString_ne_nil s, fun rest => ?_⟩
    obtain ⟨k, -, -, hs⟩ := @Raw.split_encString s rest h64
    exact ⟨k, s, hs⟩

theorem decodeRefs_error :
    ∀ {pre : List Bytes} {ns : List Node},
      List.Forall₂ (fun e n => ∀ rest, decodeRef dec (e ++ rest) = some (.ok (n, rest))) pre ns →
      ∀ {bad : Bytes} {e : DecodeError}, (∀ rest, decodeRef dec (bad ++ rest) = some (.error e)) →
      ∀ i k post, decodeRefs dec i (pre.length + (k + 1)) (pre.flatten ++ bad ++ post) =
        some (.error (wrapError e (.child (i + pre.length))))
  | [], [], .nil, bad, e, hbad, i, k, post => by
    simp [decodeRefs, hbad]
  | x :: pre, n :: ns, .cons hx hs, bad, e, hbad, i, k, post => by
    have hrec := decodeRefs_error hs hbad (i + 1) k post
    rw [List.append_assoc] at hrec
    rw [List.length_cons, show pre.length + 1 + (k + 1) = (pre.length + (k + 1)) + 1 by omega,
      List.flatten_cons, List.append_assoc, List.append_assoc, decodeRefs, hx]
    simp only [hrec, Option.map_some, Except.map]
    congr 4
    omega

end Refuse

/-! ## What `decodeNode` refuses -/

section RefuseNode

variable (cachegen : UInt16)

/-- A child that `decodeRef` reads as `n`, with any fuel that covers it and whatever follows
it: a nil or hash reference, or an embedded node that decodes. -/
def GoodRef (e : Bytes) (n : Node) : Prop :=
  ∀ fuel, e.length ≤ fuel → ∀ rest,
    decodeRef (decodeNodeFrom cachegen fuel none) (e ++ rest) = some (.ok (n, rest))

/-- A child that `decodeRef` refuses with the error `e`: a bad reference, or an embedded short
or full node that reaches a refused child, at any depth. -/
inductive Refuses : Bytes → DecodeError → Prop
  | bad {r : Bytes} {c : Cause} : BadRef r c → Refuses r ⟨c, []⟩
  | short {kbuf key r : Bytes} {e : DecodeError} : compactToHex kbuf = some key →
      hasTerm key = false → Refuses r e → (encList (encString kbuf ++ r)).length ≤ hashLen →
      Refuses (encList (encString kbuf ++ r)) (wrapError (wrapError e .val) .short)
  | full {pre : List Bytes} {ns : List Node} {r post : Bytes} {e : DecodeError} :
      List.Forall₂ (GoodRef cachegen) pre ns → pre.length < 16 → Refuses r e →
      Raw.countValues (pre.flatten ++ r ++ post) = some (.ok 17) →
      (encList (pre.flatten ++ r ++ post)).length ≤ hashLen →
      Refuses (encList (pre.flatten ++ r ++ post))
        (wrapError (wrapError e (.child pre.length)) .full)

theorem GoodRef.forall₂ {pre : List Bytes} {ns : List Node}
    (h : List.Forall₂ (GoodRef cachegen) pre ns) {fuel : ℕ} (hf : pre.flatten.length ≤ fuel) :
    List.Forall₂ (fun e n => ∀ rest,
      decodeRef (decodeNodeFrom cachegen fuel none) (e ++ rest) = some (.ok (n, rest))) pre ns := by
  induction h with
  | nil => exact .nil
  | cons he _ ih =>
    simp only [List.flatten_cons, List.length_append] at hf
    exact .cons (he fuel (by omega)) (ih (by omega))

theorem countValues_encString_append {kbuf r : Bytes} (hkl : kbuf.length < 2 ^ 64)
    (hsr : r ≠ [] ∧ ∀ rest, ∃ k c, Raw.split (r ++ rest) = some (.ok (k, c, rest))) :
    Raw.countValues (encString kbuf ++ r) = some (.ok 2) := by
  have := @Raw.countValues_flatten [encString kbuf, r] (by
    intro e he
    simp only [List.mem_cons, List.not_mem_nil, or_false] at he
    rcases he with rfl | rfl
    · refine ⟨encString_ne_nil _, fun rest => ?_⟩
      obtain ⟨k, -, -, hs⟩ := @Raw.split_encString kbuf rest hkl
      exact ⟨k, _, hs⟩
    · exact hsr)
  simpa using this

/-- A short node without terminator is refused, with the path `val` then `short`, when
`decodeRef` refuses its child. -/
theorem decodeNodeFrom_short_refuses {kbuf key r : Bytes} {e : DecodeError}
    (hk : compactToHex kbuf = some key) (ht : hasTerm key = false)
    (hsr : r ≠ [] ∧ ∀ rest, ∃ k c, Raw.split (r ++ rest) = some (.ok (k, c, rest)))
    (h64 : (encString kbuf ++ r).length < 2 ^ 64) {fuel : ℕ}
    (hr : decodeRef (decodeNodeFrom cachegen fuel none) r = some (.error e)) (h : Option Bytes)
    (rest : Bytes) :
    decodeNodeFrom cachegen (fuel + 1) h (encList (encString kbuf ++ r) ++ rest) =
      some (.error (wrapError (wrapError e .val) .short)) := by
  have hkl : kbuf.length < 2 ^ 64 := by
    have := length_le_encString kbuf
    simp only [List.length_append] at h64
    omega
  have hcount := countValues_encString_append hkl hsr
  have hne : (encList (encString kbuf ++ r) ++ rest).length ≠ 0 := by simp [encList_ne_nil]
  have hsl : Raw.splitList (encList (encString kbuf ++ r) ++ rest) =
      some (.ok (encString kbuf ++ r, rest)) := Raw.splitList_encList h64
  have hks : Raw.splitString (encString kbuf ++ r) = some (.ok (kbuf, r)) :=
    Raw.splitString_encString hkl
  simp only [decodeNodeFrom, hne, if_false, hsl, hcount, decodeShort, hks, hk, ht, hr]
  simp [wrapError, Except.mapError]

/-- A full node is refused, with the path `[i]` then `full`, when `decodeRef` reads the
children before `i` and refuses child `i`, whatever follows it. -/
theorem decodeNodeFrom_full_refuses {pre : List Bytes} {ns : List Node} {r post : Bytes}
    {e : DecodeError} {fuel : ℕ}
    (hpre : List.Forall₂ (fun e n => ∀ rest,
      decodeRef (decodeNodeFrom cachegen fuel none) (e ++ rest) = some (.ok (n, rest))) pre ns)
    (hi : pre.length < 16)
    (hr : ∀ rest, decodeRef (decodeNodeFrom cachegen fuel none) (r ++ rest) = some (.error e))
    (hcount : Raw.countValues (pre.flatten ++ r ++ post) = some (.ok 17))
    (h64 : (pre.flatten ++ r ++ post).length < 2 ^ 64) (h : Option Bytes) (rest : Bytes) :
    decodeNodeFrom cachegen (fuel + 1) h (encList (pre.flatten ++ r ++ post) ++ rest) =
      some (.error (wrapError (wrapError e (.child pre.length)) .full)) := by
  have hne : (encList (pre.flatten ++ r ++ post) ++ rest).length ≠ 0 := by
    simp [encList_ne_nil]
  have hsl : Raw.splitList (encList (pre.flatten ++ r ++ post) ++ rest) =
      some (.ok (pre.flatten ++ r ++ post, rest)) := Raw.splitList_encList h64
  have hrefs := decodeRefs_error hpre hr 0 (15 - pre.length) post
  rw [show pre.length + (15 - pre.length + 1) = 16 by omega, Nat.zero_add] at hrefs
  simp only [decodeNodeFrom, hne, if_false, hsl, hcount, decodeFull, hrefs]
  simp [wrapError, Except.mapError]

theorem Refuses.split {r : Bytes} {e : DecodeError} (h : Refuses cachegen r e) :
    r ≠ [] ∧ ∀ rest, ∃ k c, Raw.split (r ++ rest) = some (.ok (k, c, rest)) := by
  cases h with
  | bad hb => exact split_bad hb
  | @short kbuf _ r _ _ _ _ hl =>
    refine ⟨encList_ne_nil _, fun rest => ⟨_, _, Raw.split_encList ?_⟩⟩
    have := length_lt_encList (encString kbuf ++ r)
    simp only [hashLen] at hl
    omega
  | @full pre _ r post _ _ _ _ _ hl =>
    refine ⟨encList_ne_nil _, fun rest => ⟨_, _, Raw.split_encList ?_⟩⟩
    have := length_lt_encList (pre.flatten ++ r ++ post)
    simp only [hashLen] at hl
    omega

theorem Refuses.decodeRef {r : Bytes} {e : DecodeError} (h : Refuses cachegen r e) :
    ∀ fuel, r.length ≤ fuel → ∀ rest,
      decodeRef (decodeNodeFrom cachegen fuel none) (r ++ rest) = some (.error e) := by
  induction h with
  | bad hb => exact fun _ _ rest => decodeRef_bad hb rest
  | @short kbuf key r e hk ht hr hl ih =>
    intro fuel hf rest
    have hP := length_lt_encList (encString kbuf ++ r)
    obtain ⟨fuel, rfl⟩ : ∃ f, fuel = f + 1 := ⟨fuel - 1, by omega⟩
    have hr' := ih fuel (by simp only [List.length_append] at hP; omega) []
    rw [List.append_nil] at hr'
    rw [decodeRef_embedded rfl (by simpa [hashLen] using hl) rest,
      decodeNodeFrom_short_refuses cachegen hk ht hr.split (by simp only [hashLen] at hl; omega)
        hr' none rest]
    rfl
  | @full pre ns r post e hpre hi hr hcount hl ih =>
    intro fuel hf rest
    have hP := length_lt_encList (pre.flatten ++ r ++ post)
    obtain ⟨fuel, rfl⟩ : ∃ f, fuel = f + 1 := ⟨fuel - 1, by omega⟩
    simp only [List.length_append] at hP
    rw [decodeRef_embedded rfl (by simpa [hashLen] using hl) rest,
      decodeNodeFrom_full_refuses cachegen (GoodRef.forall₂ cachegen hpre (by omega)) hi
        (ih fuel (by omega)) hcount (by simp only [hashLen, List.length_append] at hl ⊢; omega)
        none rest]
    rfl

/-- A short node whose key has no terminator is refused when its child is, with the path of
the child's error then `val` and `short`. -/
theorem decodeNode_short_refuses {kbuf key r : Bytes} {e : DecodeError}
    (hk : compactToHex kbuf = some key) (ht : hasTerm key = false) (hr : Refuses cachegen r e)
    (h64 : (encString kbuf ++ r).length < 2 ^ 64) (h : Option Bytes) :
    decodeNode h (encList (encString kbuf ++ r)) cachegen =
      some (.error (wrapError (wrapError e .val) .short)) := by
  obtain ⟨fuel, hf, hle⟩ := length_encList_eq_succ (encString kbuf ++ r)
  have hr' := hr.decodeRef cachegen fuel (by simp only [List.length_append] at hle; omega) []
  rw [List.append_nil] at hr'
  have := decodeNodeFrom_short_refuses cachegen hk ht hr.split h64 hr' h []
  rw [List.append_nil] at this
  rw [decodeNode, hf, this]

/-- A full node is refused when child `i` is and the children before it are read, whatever
follows it, with the path of the child's error then `[i]` and `full`. -/
theorem decodeNode_full_refuses {pre : List Bytes} {ns : List Node} {r post : Bytes}
    {e : DecodeError} (hpre : List.Forall₂ (GoodRef cachegen) pre ns) (hi : pre.length < 16)
    (hr : Refuses cachegen r e) (hcount : Raw.countValues (pre.flatten ++ r ++ post) = some (.ok 17))
    (h64 : (pre.flatten ++ r ++ post).length < 2 ^ 64) (h : Option Bytes) :
    decodeNode h (encList (pre.flatten ++ r ++ post)) cachegen =
      some (.error (wrapError (wrapError e (.child pre.length)) .full)) := by
  obtain ⟨fuel, hf, hle⟩ := length_encList_eq_succ (pre.flatten ++ r ++ post)
  simp only [List.length_append] at hle
  have := decodeNodeFrom_full_refuses cachegen (GoodRef.forall₂ cachegen hpre (by omega)) hi
    (hr.decodeRef cachegen fuel (by omega)) hcount h64 h []
  rw [List.append_nil] at this
  rw [decodeNode, hf, this]

end RefuseNode

end Sphinx.Trie
