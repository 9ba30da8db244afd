import Sphinx.Trie.Run

/-! # Merkle proofs

`proof.go`: `Prove` collects the nodes on the path to a key, loading hash nodes from the
database, and gives the encodings of the root and of every node on the path that its parent
holds by hash. `VerifyProof` checks such a list against a root hash: each element must hash to
the hash wanted, decodes to a node, and `get` follows the key through it and the nodes
embedded in it, to a value, to nothing, or to the hash of the next element.

On the tree a trie denotes, the proof of a key is the encoding of the root and of the nodes
held by hash that a walk along the key passes (`Tree.proof`). `Prove` computes it
(`Holds.prove`), and `VerifyProof` accepts it with the tree's value at the key
(`verifyProof_proof`). A proof that `VerifyProof` accepts against a tree's root hash gives the
tree's value, or holds bytes that are not the encoding of a node of the tree under that
node's hash: a collision (`verifyProof_sound`).
-/

namespace Sphinx.Trie

set_option linter.dupNamespace false

open Rlp Sphinx.Trie.Tree Hasher

/-! ## The source -/

/-- `get(tn, key)`: the key is followed down a decoded node and the nodes embedded in it, to a
hash node with the rest of the key, to nil, or to a value; a key that leaves a short node
gives nil. Indexing a full node with the key used up, or past its children, panics. -/
def get : Node → List UInt8 → Option (List UInt8 × Node)
  | .short k val _, key =>
    if key.length < k.length ∨ k ≠ key.take k.length then some ([], .nil)
    else get val (key.drop k.length)
  | .full _ _, [] => none
  | .full cs _, b :: rest => if hb : b.toNat < 17 then get (cs ⟨b.toNat, hb⟩) rest else none
  | .hash h, key => some (key, .hash h)
  | .nil, key => some (key, .nil)
  | .value v, _ => some ([], .value v)

/-- The errors of `VerifyProof`, by their texts. -/
inductive ProofError where
  /-- `bad proof node %d: hash mismatch` -/
  | hashMismatch (i : ℕ)
  /-- `bad proof node %d: %v` around an error of `decodeNode` -/
  | badNode (i : ℕ) (err : DecodeError)
  /-- `key mismatch at proof node %d` -/
  | keyMismatch (i : ℕ)
  /-- `additional nodes at end of proof` -/
  | additionalNodes
  /-- `unexpected end of proof` -/
  | unexpectedEnd
  deriving DecidableEq

/-- The loop of `VerifyProof` from the proof element `i` on, with the rest of the key and the
hash the element must have. A node `get` stops at that is neither nil, a hash nor a value
matches no case of the switch, and the loop goes on with the next element. -/
def verifyLoop (H : Bytes → Bytes) : ℕ → List UInt8 → Bytes → List Bytes →
    Option (Except ProofError (Option Bytes))
  | _, _, _, [] => some (.error .unexpectedEnd)
  | i, key, wantHash, buf :: rest =>
    if H buf ≠ wantHash then some (.error (.hashMismatch i))
    else
      match decodeNode (some wantHash) buf 0 with
      | none => none
      | some (.error err) => some (.error (.badNode i err))
      | some (.ok n) =>
        match get n key with
        | none => none
        | some (_, .nil) =>
          -- the trie does not hold the key
          if rest ≠ [] then some (.error (.keyMismatch i)) else some (.ok none)
        | some (keyrest, .hash h) => verifyLoop H (i + 1) keyrest h rest
        | some (_, .value v) =>
          if rest ≠ [] then some (.error .additionalNodes) else some (.ok (some v))
        | some (_, .short ..) | some (_, .full ..) => verifyLoop H (i + 1) key wantHash rest

/-- `VerifyProof(rootHash, key, proof)`: the value at the key, `none` for a key the trie
does not hold. -/
def VerifyProof (H : Bytes → Bytes) (rootHash : Hash) (key : Bytes) (proof : List Bytes) :
    Option (Except ProofError (Option Bytes)) :=
  verifyLoop H 0 (keybytesToHex key) rootHash.bytes proof

/-- The proof elements of the nodes of a path from its `i`-th node on: the encoding of the
node `hashChildren` collapses each to, for a node `store` holds by hash and for the root. -/
def proofFrom (H : Bytes → Bytes) : ℕ → List Node → List Bytes
  | _, [] => []
  | i, n :: ns =>
    let collapsed := (hashChildren H ⟨0, 0⟩ false n).1
    if (store H false collapsed false).1.isHash || i == 0 then
      encodeNode collapsed :: proofFrom H (i + 1) ns
    else proofFrom H (i + 1) ns

namespace Trie

variable (t : Trie) (db : Db)

/-- The loop of `Prove` collecting the nodes on the path to the key while the key is not used
up and the node is not nil. A key that leaves a short node ends the path there; a hash node is
loaded from the database, with no prefix, and the walk goes on in it. -/
def proveNodes : ℕ → Node → List UInt8 → Walk (List Node)
  | 0, _, _ => none
  | fuel + 1, tn, key =>
    match key, tn with
    | [], _ | _ :: _, .nil => some (.ok [])
    | key@(_ :: _), .short k val flags =>
      if key.length < k.length ∨ k ≠ key.take k.length then
        -- the trie does not hold the key
        some (.ok [.short k val flags])
      else (proveNodes fuel val (key.drop k.length)).map (Except.map (Node.short k val flags :: ·))
    | b :: rest, .full cs flags =>
      if hb : b.toNat < 17 then
        (proveNodes fuel (cs ⟨b.toNat, hb⟩) rest).map (Except.map (Node.full cs flags :: ·))
      else none
    | key@(_ :: _), .hash h =>
      match t.resolveHash db h [] with
      | some (.ok n) => proveNodes fuel n key
      | some (.error e) => some (.error e)
      | none => none
    -- any other node panics
    | _ :: _, .value _ => none

end Trie

/-- `Prove(key)`: a missing node is logged and gives no proof. -/
def Trie.Prove (H : Bytes → Bytes) (t : Trie) (db : Db) (fuel : ℕ) (key : Bytes) :
    Option (List Bytes) :=
  match t.proveNodes db fuel t.root (keybytesToHex key) with
  | some (.ok nodes) => some (proofFrom H 0 nodes)
  | some (.error _) => some []
  | none => none

/-! ## The proof of a key in a tree -/

namespace Tree

/-- `s` is a node of `t`. -/
inductive Sub : Tree → Tree → Prop
  | refl (t : Tree) : Sub t t
  | short {s c : Tree} (k : List UInt8) : Sub s c → Sub s (short k c)
  | full {s : Tree} (ts : Fin 17 → Tree) (i : Fin 17) : Sub s (ts i) → Sub s (full ts)

theorem Sub.trans {s u t : Tree} (h : s.Sub u) (h' : u.Sub t) : s.Sub t := by
  induction h' with
  | refl => exact h
  | short k _ ih => exact .short k ih
  | full ts i _ ih => exact .full ts i ih

variable (H : Bytes → Bytes)

instance (t : Tree) : Decidable (t.Long H) := inferInstanceAs (Decidable (32 ≤ _))

/-- What a child adds to a proof: its encoding, when its parent holds it by hash. -/
def held (c : Tree) : List Bytes :=
  if c.isNode ∧ c.Long H then [c.enc H] else []

/-- The proof elements below the node `t` along `key`: the encodings of the nodes held by hash
that a walk along the key passes, in order. -/
def proofBelow : Tree → List UInt8 → List Bytes
  | short k c, key => if k <+: key then c.held H ++ c.proofBelow (key.drop k.length) else []
  | full ts, b :: rest =>
    if hb : b.toNat < 17 then (ts ⟨b.toNat, hb⟩).held H ++ (ts ⟨b.toNat, hb⟩).proofBelow rest else []
  | full _, [] | nil, _ | value _, _ => []

/-- The proof of `key` in `t`: the encoding of the root, then those of the nodes held by hash
along the key. The empty trie has none. -/
def proof (t : Tree) (key : List UInt8) : List Bytes :=
  if t.isNil then [] else t.enc H :: t.proofBelow H key

end Tree

/-- The proof holds bytes that are not the encoding of a node of `t` under the hash of that
encoding; for the empty trie, bytes other than the empty string under `emptyRoot`. -/
def ProofCollides (H : Bytes → Bytes) (t : Tree) (proof : List Bytes) : Prop :=
  ∃ buf ∈ proof, ∃ e, ((t.isNil ∧ e = encString []) ∨ ∃ u : Tree, u.Sub t ∧ u.isNode ∧ e = u.enc H) ∧
    buf ≠ e ∧ H buf = H e

/-! ## `get` in a decoded node -/

section Get

variable {H : Bytes → Bytes} (g : UInt16)

theorem decodedRef_toNode {c : Tree} (hv : c.isValue = false) :
    decodedRef H g c.toNode =
      if c.isNode ∧ c.Long H then .hash (H (c.enc H)) else decoded H g none c.toNode := by
  cases hn : c.isNode with
  | false =>
    cases c with
    | nil => rfl
    | value v => simp [Tree.isValue] at hv
    | _ => simp [Tree.isNode] at hn
  | true =>
    have hm := isNode_collapse H (show c.toNode.isNode = true by simpa using hn)
    by_cases hl : c.Long H
    · have href : refOf H (collapse H c.toNode) = .hash (H (c.enc H)) := by
        rw [refOf_node H hm, if_neg (by unfold Tree.Long Tree.enc at hl; omega)]
        rfl
      rw [decodedRef_of_hash H g href, if_pos ⟨rfl, hl⟩]
    · have href : (refOf H (collapse H c.toNode)).isHash = false := by
        rw [refOf_node H hm, if_pos (by unfold Tree.Long Tree.enc at hl; omega)]
        cases hc : collapse H c.toNode <;> simp_all [Node.isNode, Node.isHash]
      rw [decodedRef_of_embedded H g href, if_neg fun h => hl h.2]

variable (H) in
/-- Where `get` leaves the decoded node of `t` along `key`: at the first node held by hash, `s`,
with the rest `r` of the key, where the proof below `t` goes on with the encoding of `s` and the
proof below it; or, when the proof below `t` is empty, at the value or nil `t` holds at the
key. -/
inductive Lands (t : Tree) (key : List UInt8) : List UInt8 × Node → Prop
  | held {s : Tree} {r : List UInt8} : t.proofBelow H key = s.enc H :: s.proofBelow H r →
      s.lookup r = t.lookup key → s.Canon → s.Fits → Walked s r → s.isNode → s.Sub t →
      Lands t key (r, .hash (H (s.enc H)))
  | nil {r : List UInt8} : t.proofBelow H key = [] → t.lookup key = none → Lands t key (r, .nil)
  | value {r : List UInt8} {v : Bytes} : t.proofBelow H key = [] → t.lookup key = some v →
      Lands t key (r, .value v)

/-- Where `get` leaves a node embedded in the node of `t` is where it leaves `t`. -/
theorem Lands.lift {t c : Tree} {key rest : List UInt8} {o : List UInt8 × Node}
    (h : Lands H c rest o) (hb : t.proofBelow H key = c.proofBelow H rest)
    (hl : t.lookup key = c.lookup rest) (hs : c.Sub t) : Lands H t key o := by
  cases h with
  | held hb' hl' hc hf hw hn hs' => exact .held (hb.trans hb') (hl'.trans hl.symm) hc hf hw hn (hs'.trans hs)
  | nil hb' hl' => exact .nil (hb.trans hb') (hl.trans hl')
  | value hb' hl' => exact .value (hb.trans hb') (hl.trans hl')

theorem lands_child {t c : Tree} {key rest : List UInt8} (hv : c.isValue = false) (hc : c.Canon)
    (hf : c.Fits) (hw : Walked c rest) (hb : t.proofBelow H key = c.held H ++ c.proofBelow H rest)
    (hl : t.lookup key = c.lookup rest) (hs : c.Sub t)
    (ih : ∃ o, get (decoded H g none c.toNode) rest = some o ∧ Lands H c rest o) :
    ∃ o, get (decodedRef H g c.toNode) rest = some o ∧ Lands H t key o := by
  rw [decodedRef_toNode g hv]
  by_cases hh : c.isNode ∧ c.Long H
  · rw [if_pos hh]
    refine ⟨_, rfl, .held ?_ hl.symm hc hf hw hh.1 hs⟩
    rw [hb, Tree.held, if_pos hh]
    rfl
  · rw [if_neg hh]
    obtain ⟨o, hg, ho⟩ := ih
    refine ⟨o, hg, ho.lift ?_ hl hs⟩
    rw [hb, Tree.held, if_neg hh]
    rfl

theorem lands_value {t : Tree} {key rest : List UInt8} {v : Bytes} (hw : Walked (.value v) rest)
    (hb : t.proofBelow H key = []) (hl : t.lookup key = (Tree.value v).lookup rest) :
    ∃ o, get (.value v) rest = some o ∧ Lands H t key o := by
  obtain rfl := hw.value_key
  exact ⟨_, rfl, .value hb (by rw [hl, lookup_value, if_pos rfl])⟩

theorem get_decoded : ∀ {t : Tree} (h : Option Bytes) {key : List UInt8}, t.Canon → t.Fits →
    Walked t key → ∃ o, get (decoded H g h t.toNode) key = some o ∧ Lands H t key o
  | .nil, _, key, _, _, _ => ⟨(key, .nil), rfl, .nil rfl rfl⟩
  | .value v, _, _, _, _, hw => lands_value hw rfl rfl
  | .short k c, h, key, hc, hf, hw => by
    rw [Tree.toNode, decoded_short]
    by_cases hk : k <+: key
    · have hcond := mt not_prefix_iff.1 (not_not.2 hk)
      have hw' := hw.short hc hk
      have hl : (short k c).lookup key = c.lookup (key.drop k.length) := by
        rw [lookup_short, if_pos hk]
      have hb : (short k c).proofBelow H key = c.held H ++ c.proofBelow H (key.drop k.length) := by
        rw [proofBelow, if_pos hk]
      simp only [get, hcond, if_false]
      cases hv : c.isValue with
      | true =>
        cases c with
        | value w =>
          refine lands_value hw' ?_ hl
          rw [hb, Tree.held, if_neg (by simp [Tree.isNode])]
          rfl
        | _ => simp [Tree.isValue] at hv
      | false =>
        simp only [Tree.isValue_toNode, hv, Bool.false_eq_true, if_false]
        exact lands_child g hv hc.2.2.2.2 hf.2 hw' hb hl (.short k (.refl c))
          (get_decoded none hc.2.2.2.2 hf.2 hw')
    · have hcond := not_prefix_iff.2 hk
      refine ⟨([], .nil), by simp only [get, hcond, if_true], .nil ?_ ?_⟩
      · rw [proofBelow, if_neg hk]
      · rw [lookup_short, if_neg hk]
  | .full ts, h, key, hc, hf, hw => by
    obtain ⟨b, rest, rfl⟩ : ∃ b rest, key = b :: rest := by
      cases key with
      | nil => rcases hw.nil_key with h | h <;> cases h
      | cons b rest => exact ⟨b, rest, rfl⟩
    obtain ⟨hb, hw'⟩ := hw.full hc
    have hl : (full ts).lookup (b :: rest) = (ts ⟨b.toNat, hb⟩).lookup rest := by
      simp only [lookup, dif_pos hb]
    have hbelow : (full ts).proofBelow H (b :: rest) =
        (ts ⟨b.toNat, hb⟩).held H ++ (ts ⟨b.toNat, hb⟩).proofBelow H rest := by
      rw [proofBelow, dif_pos hb]
    rw [Tree.toNode, decoded_full]
    simp only [get, dif_pos hb]
    by_cases hi : b.toNat < 16
    · simp only [hi, if_true]
      exact lands_child g ((hc.1 _).2.1 hi) (hc.1 _).1 (hf _) hw' hbelow hl (.full ts _ (.refl _))
        (get_decoded none (hc.1 _).1 (hf _) hw')
    · simp only [hi, if_false]
      have h16 : (⟨b.toNat, hb⟩ : Fin 17).val = 16 := by simp only; omega
      rcases (hc.1 ⟨b.toNat, hb⟩).2.2 h16 with hn | hv
      · cases hts : ts ⟨b.toNat, hb⟩ <;> simp only [hts, Tree.isNil, Bool.false_eq_true] at hn
        refine ⟨(rest, .nil), rfl, .nil ?_ ?_⟩
        · rw [hbelow, hts]
          rfl
        · rw [hl, hts]
          rfl
      · cases hts : ts ⟨b.toNat, hb⟩ with
        | value v =>
          have hne : v ≠ [] := by simpa [hts, Tree.Canon] using (hc.1 ⟨b.toNat, hb⟩).1
          have hpos : v.length > 0 := List.length_pos_iff.mpr hne
          simp only [Tree.toNode, hpos, if_true]
          rw [hts] at hw' hl hbelow
          refine lands_value hw' ?_ hl
          rw [hbelow]
          rfl
        | _ => simp [hts, Tree.isValue] at hv

end Get

/-! ## Verifying a proof -/

theorem decodeNode_emptyKey (h : Option Bytes) (cachegen : UInt16) {v : Bytes} (hne : v ≠ [])
    (hv : ∀ rest, ∃ k c, Raw.split (v ++ rest) = some (.ok (k, c, rest)))
    (h64 : v.length + 1 < 2 ^ 64) :
    decodeNode h (encList (encString [] ++ v)) cachegen = none := by
  have hcount := @countValues_encString_append [] v (by decide) ⟨hne, hv⟩
  obtain ⟨fuel, hf, -⟩ := length_encList_eq_succ (encString [] ++ v)
  have hlen : (encString [] ++ v).length < 2 ^ 64 := by
    rw [List.length_append, show (encString []).length = 1 by decide]
    omega
  have hsl : Raw.splitList (encList (encString [] ++ v)) = some (.ok (encString [] ++ v, [])) := by
    simpa using @Raw.splitList_encList (encString [] ++ v) [] hlen
  have hks : Raw.splitString (encString [] ++ v) = some (.ok ([], v)) :=
    Raw.splitString_encString (by decide)
  have hkey : compactToHex [] = none := rfl
  rw [decodeNode, hf]
  simp only [decodeNodeFrom, hf, Nat.add_one_ne_zero, if_false, hsl, hcount, if_true, decodeShort,
    hks, hkey, Option.map_none]

section Verify

variable {H : Bytes → Bytes} (hH : ∀ x, (H x).length = 32)

theorem Tree.isNode_of_keysOk {t : Tree} (hk : t.KeysOk) (hn : t.isNil = false) : t.isNode := by
  have hv := hk.isValue
  cases t <;> simp_all [Tree.isNil, Tree.isValue, Tree.isNode]

include hH

theorem bytes_rootHash {t : Tree} (hn : t.isNil = false) : (t.rootHash H).bytes = H (t.enc H) := by
  rw [Tree.rootHash, if_neg (by simp [hn])]
  exact bytes_bytesToHash (hH _)

theorem decodeNode_enc {s : Tree} (hc : s.Canon) (hf : s.Fits) (hn : s.isNode) (h : Option Bytes)
    (g : UInt16) : decodeNode h (s.enc H) g = some (.ok (decoded H g h s.toNode)) :=
  decodeNode_collapse H g hH hc.wellFormed (by simpa using hn) (Tree.length_enc_lt hH hc hf) h

/-- The loop of `VerifyProof` over the proof of the rest of a key, from a node held by hash,
gives the value at the key. -/
theorem verifyLoop_proof (bufs : List Bytes) : ∀ (i : ℕ) {s : Tree} {key : List UInt8},
    bufs = s.enc H :: s.proofBelow H key → s.Canon → s.Fits → Walked s key → s.isNode →
    verifyLoop H i key (H (s.enc H)) bufs = some (.ok (s.lookup key)) := by
  induction bufs with
  | nil => intro i s key hb; cases hb
  | cons buf rest ih =>
    intro i s key hb hc hf hw hn
    obtain ⟨rfl, hrest⟩ := List.cons.inj hb
    obtain ⟨o, hg, ho⟩ := get_decoded (H := H) 0 (some (H (s.enc H))) hc hf hw
    rw [verifyLoop, if_neg (not_not.2 rfl), decodeNode_enc hH hc hf hn]
    simp only [hg]
    cases ho with
    | held hb' hl hc' hf' hw' hn' _ =>
      dsimp only
      rw [ih (i + 1) (hrest.trans hb') hc' hf' hw' hn', hl]
    | nil hb' hl => simp [hrest, hb', hl]
    | value hb' hl => simp [hrest, hb', hl]

/-- Whatever the proof, the loop of `VerifyProof` from a node held by hash gives the value at
the key, unless an element hashes like the encoding of a node below without being it. -/
theorem verifyLoop_sound (bufs : List Bytes) : ∀ (i : ℕ) {s : Tree} {key : List UInt8}
    {v : Option Bytes}, s.Canon → s.Fits → Walked s key → s.isNode →
    verifyLoop H i key (H (s.enc H)) bufs = some (.ok v) →
    v = s.lookup key ∨ ∃ buf ∈ bufs, ∃ u : Tree, u.Sub s ∧ u.isNode ∧ buf ≠ u.enc H ∧ H buf = H (u.enc H) := by
  induction bufs with
  | nil => intro i s key v _ _ _ _ h; simp [verifyLoop] at h
  | cons buf rest ih =>
    intro i s key v hc hf hw hn h
    by_cases hbuf : buf = s.enc H
    · subst hbuf
      obtain ⟨o, hg, ho⟩ := get_decoded (H := H) 0 (some (H (s.enc H))) hc hf hw
      rw [verifyLoop, if_neg (not_not.2 rfl), decodeNode_enc hH hc hf hn] at h
      simp only [hg] at h
      cases ho with
      | held _ hl hc' hf' hw' hn' hs =>
        dsimp only at h
        rcases ih (i + 1) hc' hf' hw' hn' h with hv | ⟨b, hb, u, hu, hun, hne, hcol⟩
        · exact .inl (hv.trans hl)
        · exact .inr ⟨b, List.mem_cons_of_mem _ hb, u, hu.trans hs, hun, hne, hcol⟩
      | nil _ hl =>
        split_ifs at h
        · cases h
        · cases h
          exact .inl hl.symm
      | value _ hl =>
        split_ifs at h
        · cases h
        · cases h
          exact .inl hl.symm
    · by_cases hh : H buf = H (s.enc H)
      · exact .inr ⟨buf, List.mem_cons_self, s, .refl s, hn, hbuf, hh⟩
      · rw [verifyLoop, if_pos hh] at h
        cases h

/-- `VerifyProof` accepts the proof of a key in a canonical tree, at its root hash, with the
value the tree holds at the key. -/
theorem verifyProof_proof {t : Tree} (hc : t.Canon) (hk : t.KeysOk) (hb : t.Bounded)
    (hn : t.isNil = false) (key : Bytes) :
    VerifyProof H (t.rootHash H) key (t.proof H (keybytesToHex key)) = some (.ok (t.contents key)) := by
  rw [VerifyProof, bytes_rootHash hH hn, Tree.proof, if_neg (by simp [hn])]
  exact verifyLoop_proof hH _ 0 rfl hc (hc.fits hb) (hk.walked key) (Tree.isNode_of_keysOk hk hn)

/-- A proof that `VerifyProof` accepts at the root hash of a canonical tree gives the value the
tree holds at the key, unless it holds other bytes under the hash of a node of the tree. -/
theorem verifyProof_sound {t : Tree} (hc : t.Canon) (hk : t.KeysOk) (hb : t.Bounded) (key : Bytes)
    (proof : List Bytes) {v : Option Bytes} (h : VerifyProof H (t.rootHash H) key proof = some (.ok v)) :
    v = t.contents key ∨ ProofCollides H t proof := by
  cases hn : t.isNil with
  | true =>
    obtain rfl : t = .nil := by cases t <;> first | rfl | cases hn
    have hroot : (Tree.rootHash H .nil).bytes = H (encString []) := by
      rw [Tree.rootHash, if_pos hn]
      exact bytes_bytesToHash (hH _)
    cases proof with
    | nil => simp [VerifyProof, verifyLoop] at h
    | cons buf rest =>
      by_cases hbuf : buf = encString []
      · subst hbuf
        obtain ⟨e, he⟩ : ∃ e, decodeNode (some (H (encString []))) (encString []) 0 = some (.error e) :=
          ⟨_, rfl⟩
        rw [VerifyProof, hroot, verifyLoop, if_neg (not_not.2 rfl), he] at h
        cases h
      · by_cases hh : H buf = H (encString [])
        · exact .inr ⟨buf, List.mem_cons_self, _, .inl ⟨rfl, rfl⟩, hbuf, hh⟩
        · rw [VerifyProof, hroot, verifyLoop, if_pos hh] at h
          cases h
  | false =>
    rw [VerifyProof, bytes_rootHash hH hn] at h
    rcases verifyLoop_sound hH proof 0 hc (hc.fits hb) (hk.walked key) (Tree.isNode_of_keysOk hk hn) h
      with hv | ⟨b, hbm, u, hu, hun, hne, hcol⟩
    · exact .inl hv
    · exact .inr ⟨b, hbm, _, .inr ⟨u, hu, hun, rfl⟩, hne, hcol⟩

/-- A proof element that encodes a short node with an empty key panics `VerifyProof` when the
walk reaches it with its hash as the hash wanted: at the root, and at any later element with
any rest of the key. `compactToHex` indexes the empty key of the node. -/
theorem verifyProof_emptyKey_panics {v : Bytes} (hne : v ≠ [])
    (hv : ∀ rest, ∃ k c, Raw.split (v ++ rest) = some (.ok (k, c, rest)))
    (h64 : v.length + 1 < 2 ^ 64) :
    (∀ i key rest, verifyLoop H i key (H (encList (encString [] ++ v)))
      (encList (encString [] ++ v) :: rest) = none) ∧
    ∀ key rest, VerifyProof H (bytesToHash (H (encList (encString [] ++ v)))) key
      (encList (encString [] ++ v) :: rest) = none := by
  have hloop : ∀ i key rest, verifyLoop H i key (H (encList (encString [] ++ v)))
      (encList (encString [] ++ v) :: rest) = none := by
    intro i key rest
    rw [verifyLoop, if_neg (not_not.2 rfl), decodeNode_emptyKey _ 0 hne hv h64]
  refine ⟨hloop, fun key rest => ?_⟩
  rw [VerifyProof, bytes_bytesToHash (hH _)]
  exact hloop 0 _ rest

omit hH in
theorem verifyProof_emptyKey_panics_zero :
    (∀ i key rest, verifyLoop (fun _ => List.replicate 32 0) i key
      ((fun _ => List.replicate 32 0) (encList (encString [] ++ encString [1])))
      (encList (encString [] ++ encString [1]) :: rest) = none) ∧
    ∀ key rest, VerifyProof (fun _ => List.replicate 32 0)
      (bytesToHash ((fun _ => List.replicate 32 0) (encList (encString [] ++ encString [1])))) key
      (encList (encString [] ++ encString [1]) :: rest) = none :=
  verifyProof_emptyKey_panics (fun _ => List.length_replicate) (by decide)
    (fun rest => by
      obtain ⟨k, -, -, hs⟩ := @Raw.split_encString [1] rest (by decide)
      exact ⟨k, _, hs⟩) (by decide)

end Verify

/-! ## Proving a key -/

section Prove

variable {H : Bytes → Bytes} {db : Db}

theorem FlagsOk.childrenCacheOk {root : Bool} {n : Node} (h : FlagsOk H db root n) :
    ChildrenCacheOk H n := by
  cases n with
  | short k c f => exact cacheOk_of_flagsOk h.2.2
  | full cs f => exact fun i => cacheOk_of_flagsOk (h.2.2 i)
  | nil => trivial
  | hash x => trivial
  | value v => trivial

theorem store_isHash {c : Node} (hc : c.isNode = true) :
    (store H false c false).1.isHash = decide (32 ≤ (encodeNode c).length) := by
  cases c with
  | full cs f =>
    simp only [store]
    by_cases h : (encodeNode (.full cs f)).length < 32
    · rw [if_pos ⟨h, rfl⟩]
      exact (decide_eq_false (by omega)).symm
    · rw [if_neg fun h' => h h'.1]
      exact (decide_eq_true (by omega)).symm
  | short k v f =>
    simp only [store]
    by_cases h : (encodeNode (.short k v f)).length < 32
    · rw [if_pos ⟨h, rfl⟩]
      exact (decide_eq_false (by omega)).symm
    · rw [if_neg fun h' => h h'.1]
      exact (decide_eq_true (by omega)).symm
  | nil => simp [Node.isNode] at hc
  | hash x => simp [Node.isNode] at hc
  | value v => simp [Node.isNode] at hc

theorem proofFrom_cons {n : Node} {t : Tree} {root : Bool} (hD : Denotes H db n t) (hc : t.Canon)
    (hn : n.isNode = true) (hf : FlagsOk H db root n) (j : ℕ) (ns : List Node) :
    proofFrom H j (n :: ns) =
      (if t.isNode ∧ (j = 0 ∨ t.Long H) then [t.enc H] else []) ++ proofFrom H (j + 1) ns := by
  have htn : t.isNode = true := by
    cases n with
    | short k c f => obtain ⟨ct, rfl, -⟩ := hD.short_inv; rfl
    | full cs f => obtain ⟨ts, rfl, -⟩ := hD.full_inv; rfl
    | _ => simp [Node.isNode] at hn
  have henc : encodeNode (collapse H n) = t.enc H :=
    (encodeNode_collapse_of_denotes hD hc).1 (by cases n <;> simp_all [Node.isNode, Node.isHash])
  rw [proofFrom]
  simp only [hashChildren_fst H ⟨0, 0⟩ false hf.childrenCacheOk, store_isHash (isNode_collapse H hn), henc]
  unfold Tree.Long
  by_cases hl : 32 ≤ (t.enc H).length <;> by_cases hj : j = 0 <;> simp [hl, hj, htn]

variable (hH : ∀ x, (H x).length = 32) (tr : Trie)
include hH

/-- The nodes `Prove` collects from a node that denotes a canonical tree, along the rest of a hex
key, make the proof elements of the tree: its encoding for the root or a node held by hash,
then the proof below it. -/
theorem proveNodes_proof : ∀ (fuel : ℕ) {n : Node} {t : Tree} {key : List UInt8} {root : Bool},
    Denotes H db n t → t.Canon → t.Fits → Walked t key → FlagsOk H db root n →
    2 * key.length + n.isHash.toNat < fuel →
    ∃ ns, tr.proveNodes db fuel n key = some (.ok ns) ∧ ∀ j, proofFrom H j ns =
      (if t.isNode ∧ (j = 0 ∨ t.Long H) then [t.enc H] else []) ++ t.proofBelow H key
  | 0, _, _, _, _, _, _, _, _, _, hfuel => absurd hfuel (Nat.not_lt_zero _)
  | fuel + 1, n, t, key, root, hD, hc, hf, hw, hfl, hfuel => by
    cases key with
    | nil =>
      refine ⟨[], rfl, fun j => ?_⟩
      rcases hw.nil_key with h | h <;> cases t <;> simp_all [Tree.isNil, Tree.isValue, Tree.isNode, proofFrom, proofBelow]
    | cons b rest =>
      cases n with
      | nil =>
        obtain rfl := hD.nil_inv
        exact ⟨[], rfl, fun j => by simp [proofFrom, proofBelow, Tree.isNode]⟩
      | value v =>
        obtain rfl := hD.value_inv
        cases hw.value_key
      | short k c f =>
        obtain ⟨ct, rfl, hDc, -⟩ := hD.short_inv
        by_cases hk : k <+: b :: rest
        · have hcond := mt not_prefix_iff.1 (not_not.2 hk)
          have hk0 : 0 < k.length := List.length_pos_iff.2 hc.1
          have hlen : k.length ≤ (b :: rest).length := hk.length_le
          obtain ⟨ns, hp, hj⟩ := proveNodes_proof fuel hDc hc.2.2.2.2 hf.2 (hw.short hc hk) hfl.2.2
            (by
              have := Bool.toNat_le c.isHash
              simp only [Node.isHash, Bool.toNat_false] at hfuel
              rw [List.length_drop]
              omega)
          refine ⟨_, by simp only [Trie.proveNodes, hcond, if_false, hp]; rfl, fun j => ?_⟩
          rw [proofFrom_cons hD hc rfl hfl, hj (j + 1), proofBelow, if_pos hk, Tree.held]
          simp
        · have hcond := not_prefix_iff.2 hk
          refine ⟨[.short k c f], by simp only [Trie.proveNodes, hcond, if_true], fun j => ?_⟩
          rw [proofFrom_cons hD hc rfl hfl, proofBelow, if_neg hk]
          rfl
      | full cs f =>
        obtain ⟨ts, rfl, hDc⟩ := hD.full_inv
        obtain ⟨hb, hw'⟩ := hw.full hc
        obtain ⟨ns, hp, hj⟩ := proveNodes_proof fuel (hDc _).1 (hc.1 _).1 (hf _) hw' (hfl.2.2 _)
          (by
            have := Bool.toNat_le (cs ⟨b.toNat, hb⟩).isHash
            simp only [Node.isHash, Bool.toNat_false, List.length_cons] at hfuel
            omega)
        refine ⟨_, by simp only [Trie.proveNodes, dif_pos hb, hp]; rfl, fun j => ?_⟩
        rw [proofFrom_cons hD hc rfl hfl, hj (j + 1), proofBelow, dif_pos hb, Tree.held]
        simp
      | hash x =>
        have hres := resolveHash_denotes hH hD hc hf tr []
        obtain ⟨ns, hp, hj⟩ := proveNodes_proof fuel (denotes_decoded tr.cachegen hc hD.2.1 (some x))
          hc hf hw (flagsOk_loaded tr.cachegen hD hc (Or.inl rfl : (true = true) ∨ t.Long H))
          (by
            rw [isHash_decoded]
            simp only [Node.isHash, Bool.toNat_true, Bool.toNat_false] at hfuel ⊢
            omega)
        exact ⟨ns, by simp only [Trie.proveNodes, hres, hp], hj⟩

variable {t : Tree} (fuel : ℕ)

theorem Holds.prove (h : Holds H db tr.root t) (key : Bytes) (hfuel : 4 * key.length + 3 < fuel) :
    tr.Prove H db fuel key = some (t.proof H (keybytesToHex key)) := by
  obtain ⟨ns, hp, hj⟩ := proveNodes_proof hH tr fuel h.denotes h.canon h.fits (h.keysOk.walked key)
    h.flagsOk (by have := Bool.toNat_le tr.root.isHash; simp only [length_keybytesToHex]; omega)
  rw [Trie.Prove, hp]
  simp only
  rw [hj 0, Tree.proof]
  cases hn : t.isNil with
  | true =>
    obtain rfl : t = .nil := by cases t <;> first | rfl | cases hn
    rfl
  | false =>
    rw [if_pos ⟨Tree.isNode_of_keysOk h.keysOk hn, .inl rfl⟩]
    rfl

end Prove

/-! ## Proofs of a trie driven by calls -/

section Run

variable {H : Bytes → Bytes}

theorem contents_eq_none_iff {t : Tree} (hc : t.Canon) (hk : t.KeysOk) :
    t.contents = (fun _ => none) ↔ t.isNil := by
  constructor
  · intro he
    by_contra hn
    obtain ⟨k, hkey⟩ := Canon.exists_key hc (by simpa using hn)
    obtain ⟨b, rfl⟩ := hk k hkey
    have hb := congrFun he b
    rw [contents] at hb
    simp [HasKey, hb] at hkey
  · intro hn
    obtain rfl : t = .nil := by cases t <;> first | rfl | cases hn
    rfl

variable (hH : ∀ x, (H x).length = 32) (fuel : ℕ)
include hH

/-- After a run of calls from an empty trie over a database of hashed entries, `Prove` gives
for every key within the walks' depth a proof that `VerifyProof` accepts at the root hash of
the map, with the map's value at the key. The empty map has no proof to give, and
`VerifyProof` refuses the empty one as ending early. -/
theorem run_prove_verify {db : Db} (hdb : DbOk H db) (ops : List Op) (hops : ∀ op ∈ ops, op.Fits fuel)
    (hf : ¬ RunFails H fuel ⟨⟨.nil, 0, 0⟩, db⟩ ops) (key : Bytes) (hkey : 4 * key.length + 3 < fuel) :
    ∃ s' proof, run H fuel ⟨⟨.nil, 0, 0⟩, db⟩ ops = some (.ok (s', (Store.run H (fun _ => none) ops).2)) ∧
      s'.trie.Prove H s'.db fuel key = some proof ∧
      ((Store.run H (fun _ => none) ops).1 ≠ (fun _ => none) →
        VerifyProof H (Store.rootHash H (Store.run H (fun _ => none) ops).1) key proof =
          some (.ok ((Store.run H (fun _ => none) ops).1 key))) ∧
      ((Store.run H (fun _ => none) ops).1 = (fun _ => none) →
        VerifyProof H (Store.rootHash H (Store.run H (fun _ => none) ops).1) key proof =
          some (.error .unexpectedEnd)) := by
  obtain ⟨s', hr, ⟨t, h, hm⟩, -⟩ := (inv_empty hdb).run fuel hH ops hops hf
  refine ⟨s', _, hr, h.prove hH s'.trie fuel key hkey, fun hne => ?_, fun he => ?_⟩
  · have hn : t.isNil = false := by
      rw [← hm] at hne
      simpa using mt (contents_eq_none_iff h.canon h.keysOk).2 hne
    rw [← hm, Store.rootHash_contents h.canon h.keysOk]
    exact verifyProof_proof hH h.canon h.keysOk h.bounded hn key
  · have hn := (contents_eq_none_iff h.canon h.keysOk).1 (hm.trans he)
    rw [Tree.proof, if_pos hn]
    rfl

omit hH in
theorem run_prove_verify_update_get :
    ∃ s' proof, run (fun _ => List.replicate 32 0) 11 ⟨⟨.nil, 0, 0⟩, fun _ => none⟩
        [.update [1] [2], .get [1]] = some (.ok (s', (Store.run (fun _ => List.replicate 32 0)
          (fun _ => none) [.update [1] [2], .get [1]]).2)) ∧
      s'.trie.Prove (fun _ => List.replicate 32 0) s'.db 11 [1] = some proof ∧
      ((Store.run (fun _ => List.replicate 32 0) (fun _ => none) [.update [1] [2], .get [1]]).1 ≠
          (fun _ => none) →
        VerifyProof (fun _ => List.replicate 32 0) (Store.rootHash (fun _ => List.replicate 32 0)
          (Store.run (fun _ => List.replicate 32 0) (fun _ => none) [.update [1] [2], .get [1]]).1)
          [1] proof = some (.ok ((Store.run (fun _ => List.replicate 32 0) (fun _ => none)
            [.update [1] [2], .get [1]]).1 [1]))) ∧
      ((Store.run (fun _ => List.replicate 32 0) (fun _ => none) [.update [1] [2], .get [1]]).1 =
          (fun _ => none) →
        VerifyProof (fun _ => List.replicate 32 0) (Store.rootHash (fun _ => List.replicate 32 0)
          (Store.run (fun _ => List.replicate 32 0) (fun _ => none) [.update [1] [2], .get [1]]).1)
          [1] proof = some (.error .unexpectedEnd)) :=
  run_prove_verify (fun _ => List.length_replicate) 11 (fun _ _ h => by cases h) _ (by simp [Op.Fits])
    (by simp [RunFails, Fails]) [1] (by decide)

/-- After a run of calls from an empty trie over a database of hashed entries, the trie's root
stands for a tree with the map's contents, and any proof that `VerifyProof` accepts at the root
hash of the map gives the map's value at the key, unless the proof holds other bytes under the
hash of a node of that tree. -/
theorem run_verify_sound {db : Db} (hdb : DbOk H db) (ops : List Op) (hops : ∀ op ∈ ops, op.Fits fuel)
    (hf : ¬ RunFails H fuel ⟨⟨.nil, 0, 0⟩, db⟩ ops) :
    ∃ s' t, run H fuel ⟨⟨.nil, 0, 0⟩, db⟩ ops = some (.ok (s', (Store.run H (fun _ => none) ops).2)) ∧
      Denotes H s'.db s'.trie.root t ∧ t.contents = (Store.run H (fun _ => none) ops).1 ∧
      ∀ key proof v, VerifyProof H (Store.rootHash H (Store.run H (fun _ => none) ops).1) key proof =
        some (.ok v) → v = (Store.run H (fun _ => none) ops).1 key ∨ ProofCollides H t proof := by
  obtain ⟨s', hr, ⟨t, h, hm⟩, -⟩ := (inv_empty hdb).run fuel hH ops hops hf
  refine ⟨s', t, hr, h.denotes, hm, fun key proof v hv => ?_⟩
  rw [← hm] at hv ⊢
  rw [Store.rootHash_contents h.canon h.keysOk] at hv
  exact verifyProof_sound hH h.canon h.keysOk h.bounded key proof hv

omit hH in
theorem run_verify_sound_update :
    ∃ s' t, run (fun _ => List.replicate 32 0) 11 ⟨⟨.nil, 0, 0⟩, fun _ => none⟩ [.update [1] [2]] =
        some (.ok (s', (Store.run (fun _ => List.replicate 32 0) (fun _ => none) [.update [1] [2]]).2)) ∧
      Denotes (fun _ => List.replicate 32 0) s'.db s'.trie.root t ∧
      t.contents = (Store.run (fun _ => List.replicate 32 0) (fun _ => none) [.update [1] [2]]).1 ∧
      ∀ key proof v, VerifyProof (fun _ => List.replicate 32 0) (Store.rootHash (fun _ => List.replicate 32 0)
          (Store.run (fun _ => List.replicate 32 0) (fun _ => none) [.update [1] [2]]).1) key proof =
        some (.ok v) → v = (Store.run (fun _ => List.replicate 32 0) (fun _ => none) [.update [1] [2]]).1 key ∨
          ProofCollides (fun _ => List.replicate 32 0) t proof :=
  run_verify_sound (fun _ => List.length_replicate) 11 (fun _ _ h => by cases h) _ (by simp [Op.Fits])
    (by simp [RunFails, Fails])

/-- After a run of calls from an empty trie, proofs of the map are complete and sound: when the
map is not empty, `Prove` gives for every key a proof that `VerifyProof` accepts at the map's
root hash with the map's value at the key; and whatever proof `VerifyProof` accepts there gives
that value too, unless one of its elements hashes like the encoding of a node of the trie's tree
without being it. -/
theorem prove_verify_complete_sound {db : Db} (hdb : DbOk H db) (ops : List Op)
    (hops : ∀ op ∈ ops, op.Fits fuel) (hf : ¬ RunFails H fuel ⟨⟨.nil, 0, 0⟩, db⟩ ops) :
    ∃ s' t, run H fuel ⟨⟨.nil, 0, 0⟩, db⟩ ops = some (.ok (s', (Store.run H (fun _ => none) ops).2)) ∧
      Denotes H s'.db s'.trie.root t ∧ t.contents = (Store.run H (fun _ => none) ops).1 ∧
      ((Store.run H (fun _ => none) ops).1 ≠ (fun _ => none) → ∀ key, 4 * key.length + 3 < fuel →
        ∃ proof, s'.trie.Prove H s'.db fuel key = some proof ∧
          VerifyProof H (Store.rootHash H (Store.run H (fun _ => none) ops).1) key proof =
            some (.ok ((Store.run H (fun _ => none) ops).1 key))) ∧
      ∀ key proof v, VerifyProof H (Store.rootHash H (Store.run H (fun _ => none) ops).1) key proof =
        some (.ok v) → v = (Store.run H (fun _ => none) ops).1 key ∨ ProofCollides H t proof := by
  obtain ⟨s', hr, ⟨t, h, hm⟩, -⟩ := (inv_empty hdb).run fuel hH ops hops hf
  have hroot : Store.rootHash H (Store.run H (fun _ => none) ops).1 = t.rootHash H := by
    rw [← hm, Store.rootHash_contents h.canon h.keysOk]
  refine ⟨s', t, hr, h.denotes, hm, fun hne key hkey => ⟨_, h.prove hH s'.trie fuel key hkey, ?_⟩,
    fun key proof v hv => ?_⟩
  · have hn : t.isNil = false := by
      rw [← hm] at hne
      simpa using mt (contents_eq_none_iff h.canon h.keysOk).2 hne
    rw [hroot, ← hm]
    exact verifyProof_proof hH h.canon h.keysOk h.bounded hn key
  · rw [hroot] at hv
    rw [← hm]
    exact verifyProof_sound hH h.canon h.keysOk h.bounded key proof hv

omit hH in
theorem prove_verify_complete_sound_update :
    ∃ s' t, run (fun _ => List.replicate 32 0) 11 ⟨⟨.nil, 0, 0⟩, fun _ => none⟩ [.update [1] [2]] =
        some (.ok (s', (Store.run (fun _ => List.replicate 32 0) (fun _ => none) [.update [1] [2]]).2)) ∧
      Denotes (fun _ => List.replicate 32 0) s'.db s'.trie.root t ∧
      t.contents = (Store.run (fun _ => List.replicate 32 0) (fun _ => none) [.update [1] [2]]).1 ∧
      ((Store.run (fun _ => List.replicate 32 0) (fun _ => none) [.update [1] [2]]).1 ≠ (fun _ => none) →
        ∀ key, 4 * key.length + 3 < 11 →
        ∃ proof, s'.trie.Prove (fun _ => List.replicate 32 0) s'.db 11 key = some proof ∧
          VerifyProof (fun _ => List.replicate 32 0) (Store.rootHash (fun _ => List.replicate 32 0)
            (Store.run (fun _ => List.replicate 32 0) (fun _ => none) [.update [1] [2]]).1) key proof =
            some (.ok ((Store.run (fun _ => List.replicate 32 0) (fun _ => none) [.update [1] [2]]).1 key))) ∧
      ∀ key proof v, VerifyProof (fun _ => List.replicate 32 0) (Store.rootHash (fun _ => List.replicate 32 0)
          (Store.run (fun _ => List.replicate 32 0) (fun _ => none) [.update [1] [2]]).1) key proof =
        some (.ok v) → v = (Store.run (fun _ => List.replicate 32 0) (fun _ => none) [.update [1] [2]]).1 key ∨
          ProofCollides (fun _ => List.replicate 32 0) t proof :=
  prove_verify_complete_sound (fun _ => List.length_replicate) 11 (fun _ _ h => by cases h) _
    (by simp [Op.Fits]) (by simp [RunFails, Fails])

end Run

end Sphinx.Trie
