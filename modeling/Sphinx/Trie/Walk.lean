import Sphinx.Trie.Flags
import Sphinx.Trie.Ops

/-! # The walks of the trie refine the tree operations

`tryGet`, `insert` and `delete` of `trie.go` walk nodes in memory, loading a hash node from
the database when they reach one. On a node that denotes a canonical tree (`Denotes`), with
the hex key of a byte key, they compute what `Tree.lookup`, `Tree.ins` and `Tree.del` compute
on the tree, never meet a missing node, and give back a node that denotes the tree the
operation yields, with flags as good as the old ones (`FlagsOk`).

The walks run on `fuel`, the depth of their recursion: a short or a full node uses up at
least one nibble of the key and a loaded node is never a hash node, so twice the length of
the key, and one more at a hash node, is enough.
-/

namespace Sphinx.Trie

open Rlp Sphinx.Trie.Tree

variable {H : Bytes → Bytes} {db : Db}

theorem not_prefix_iff {k l : List UInt8} :
    (l.length < k.length ∨ k ≠ l.take k.length) ↔ ¬ k <+: l := by
  rw [List.prefix_iff_eq_take]
  constructor
  · rintro (h | h) he
    · have := congrArg List.length he
      rw [List.length_take] at this
      omega
    · exact h he
  · exact fun h => .inr h

theorem encodeNode_collapse_eq {n n' : Node} {t : Tree} (hD : Denotes H db n t)
    (hD' : Denotes H db n' t) (hc : t.Canon) (hn : n.isHash = false) (hn' : n'.isHash = false) :
    encodeNode (collapse H n') = encodeNode (collapse H n) := by
  rw [(encodeNode_collapse_of_denotes hD' hc).1 hn', (encodeNode_collapse_of_denotes hD hc).1 hn]

/-- The node loaded for a hash node has the flags of a node read from the database, at the
root or at a position where its tree is long. -/
theorem flagsOk_loaded {x : Bytes} {t : Tree} {root : Bool} (g : UInt16) (hD : Denotes H db (.hash x) t)
    (hc : t.Canon) (hl : root ∨ t.Long H) : FlagsOk H db root (decoded H g (some x) t.toNode) := by
  obtain ⟨-, hs, hin, hx⟩ := hD
  refine flagsOk_decoded g hc hs (some x) root (fun y hy => ?_) (fun h => by cases h)
  cases hy
  exact ⟨hx.symm, hl, hx ▸ hin⟩

/-- A full node that denotes a full tree still does with one child replaced by a node that
denotes the new subtree; the flags play no part. -/
theorem Denotes.update {cs : Fin 17 → Node} {ts : Fin 17 → Tree} {f : NodeFlag} {i : Fin 17}
    {c : Node} {t : Tree} (g : NodeFlag) (hD : Denotes H db (.full cs f) (.full ts))
    (hc : Denotes H db c t) (hl : c.isHash → t.Long H) :
    Denotes H db (.full (Function.update cs i c) g) (.full (Function.update ts i t)) := by
  intro j
  by_cases hj : j = i
  · subst hj
    rw [Function.update_self, Function.update_self]
    exact ⟨hc, hl⟩
  · rw [Function.update_of_ne hj, Function.update_of_ne hj]
    exact hD j

/-! ## Lookups -/

section Lookup

variable (H db)

/-- What `tryGet` gives back in place of a node `n` that denotes `t`: a node that denotes `t`
too and is `n` itself unless the walk loaded a node from the database (`d`), with the dirty
flag of `n` and flags as good as those of `n`. -/
structure Reloads (n n' : Node) (t : Tree) (d : Bool) : Prop where
  denotes : Denotes H db n' t
  self : d = false → n' = n
  loaded : d = true → n'.isHash = false
  dirty : n'.dirty = n.dirty
  flagsOk : ∀ root, FlagsOk H db root n → (n.isHash → root ∨ t.Long H) → FlagsOk H db root n'

variable {H db}

theorem Reloads.refl {n : Node} {t : Tree} (h : Denotes H db n t) : Reloads H db n n t false :=
  ⟨h, fun _ => rfl, (fun h => by cases h), rfl, fun _ hf _ => hf⟩

/-- The copy of a short node whose child was reloaded. -/
theorem Reloads.short {k : List UInt8} {c c' : Node} {f : NodeFlag} {ct : Tree} {d : Bool}
    (g : UInt16) (hr : Reloads H db c c' ct d) (hD : Denotes H db (.short k c f) (.short k ct))
    (hc : (short k ct).Canon) :
    Reloads H db (.short k c f) (if d then .short k c' { f with gen := g } else .short k c f)
      (.short k ct) d := by
  cases d with
  | false => exact Reloads.refl hD
  | true =>
    have hD' : Denotes H db (.short k c' { f with gen := g }) (.short k ct) :=
      ⟨rfl, hr.denotes, fun h => absurd h (by simp [hr.loaded rfl])⟩
    refine ⟨hD', (fun h => by cases h), fun _ => rfl, rfl, fun root hf _ => ?_⟩
    obtain ⟨hh, hdirty, hfc⟩ := hf
    refine ⟨hh.congr (encodeNode_collapse_eq hD hD' hc rfl rfl) rfl rfl, fun h => ?_,
      hr.flagsOk false hfc fun h => .inr (hD.2.2 h)⟩
    rw [hr.dirty]
    exact hdirty h

/-- The copy of a full node one of whose children was reloaded. -/
theorem Reloads.full {cs : Fin 17 → Node} {f : NodeFlag} {ts : Fin 17 → Tree} {i : Fin 17}
    {c' : Node} {d : Bool} (g : UInt16) (hr : Reloads H db (cs i) c' (ts i) d)
    (hD : Denotes H db (.full cs f) (.full ts)) (hc : (full ts).Canon) :
    Reloads H db (.full cs f)
      (if d then .full (Function.update cs i c') { f with gen := g } else .full cs f) (.full ts) d := by
  cases d with
  | false => exact Reloads.refl hD
  | true =>
    have hD' : Denotes H db (.full (Function.update cs i c') { f with gen := g }) (.full ts) := by
      intro j
      by_cases hj : j = i
      · subst hj
        rw [Function.update_self]
        exact ⟨hr.denotes, fun h => absurd h (by simp [hr.loaded rfl])⟩
      · rw [Function.update_of_ne hj]
        exact hD j
    refine ⟨hD', (fun h => by cases h), fun _ => rfl, rfl, fun root hf _ => ?_⟩
    obtain ⟨hh, hdirty, hfc⟩ := hf
    refine ⟨hh.congr (encodeNode_collapse_eq hD hD' hc rfl rfl) rfl rfl, fun h j => ?_, fun j => ?_⟩
    · by_cases hj : j = i
      · subst hj
        rw [Function.update_self, hr.dirty]
        exact hdirty h j
      · rw [Function.update_of_ne hj]
        exact hdirty h j
    · by_cases hj : j = i
      · subst hj
        rw [Function.update_self]
        exact hr.flagsOk false (hfc j) fun h => .inr (hD j |>.2 h)
      · rw [Function.update_of_ne hj]
        exact hfc j

/-- A hash node loaded from the database and walked. -/
theorem Reloads.hash {x : Bytes} {t : Tree} {n' : Node} {d : Bool} (g : UInt16)
    (hD : Denotes H db (.hash x) t) (hc : t.Canon)
    (hr : Reloads H db (decoded H g (some x) t.toNode) n' t d) : Reloads H db (.hash x) n' t true := by
  have hm := isHash_decoded (H := H) g (some x) t
  refine ⟨hr.denotes, (fun h => by cases h), fun _ => ?_, ?_, fun root _ hl => ?_⟩
  · cases d with
    | false => rw [hr.self rfl]; exact hm
    | true => exact hr.loaded rfl
  · rw [hr.dirty, dirty_decoded]
    rfl
  · exact hr.flagsOk root (flagsOk_loaded g hD hc (hl rfl)) fun h => absurd h (by rw [hm]; decide)

variable (hH : ∀ x, (H x).length = 32) (tr : Trie) (key : List UInt8)
include hH

/-- `tryGet` on a node that denotes a canonical tree finds the value the tree holds at the
rest of the key, without a missing node. -/
theorem tryGet_reloads : ∀ (fuel : ℕ) {n : Node} {t : Tree} {pos : ℕ}, Denotes H db n t →
    t.Canon → t.Fits → Walked t (key.drop pos) → 2 * (key.length - pos) + n.isHash.toNat < fuel →
    ∃ n' d, tr.tryGet db fuel n key pos = some (.ok (t.lookup (key.drop pos), n', d)) ∧
      Reloads H db n n' t d
  | 0, _, _, _, _, _, _, _, hfuel => absurd hfuel (Nat.not_lt_zero _)
  | fuel + 1, .nil, t, pos, hD, _, _, _, _ => by
    obtain rfl := hD.nil_inv
    exact ⟨.nil, false, rfl, .refl hD⟩
  | fuel + 1, .value v, t, pos, hD, _, _, hw, _ => by
    obtain rfl := hD.value_inv
    refine ⟨.value v, false, ?_, .refl hD⟩
    rw [hw.value_key]
    rfl
  | fuel + 1, .short k c f, t, pos, hD, hc, hf, hw, hfuel => by
    obtain ⟨ct, rfl, hDc, -⟩ := hD.short_inv
    by_cases hk : k <+: key.drop pos
    · have hlen : k.length ≤ key.length - pos := by simpa using hk.length_le
      have hk0 : 0 < k.length := List.length_pos_iff.2 hc.1
      have hdrop : key.drop (pos + k.length) = (key.drop pos).drop k.length := by
        rw [List.drop_drop, Nat.add_comm]
      have hw' := hw.short hc hk
      rw [← hdrop] at hw'
      obtain ⟨c', d, hget, hr⟩ := tryGet_reloads fuel hDc hc.2.2.2.2 hf.2 hw'
        (by have := Bool.toNat_le c.isHash; simp only [Node.isHash, Bool.toNat_false] at hfuel; omega)
      refine ⟨_, d, ?_, hr.short tr.cachegen hD hc⟩
      have hcond := mt not_prefix_iff.1 (not_not.2 hk)
      rw [List.length_drop] at hcond
      simp only [Trie.tryGet, hcond, if_false, hget, hdrop, lookup_short, if_pos hk]
      cases d <;> rfl
    · refine ⟨.short k c f, false, ?_, .refl hD⟩
      have hcond := not_prefix_iff.2 hk
      rw [List.length_drop] at hcond
      simp only [Trie.tryGet, hcond, if_true, lookup_short, if_neg hk]
  | fuel + 1, .full cs f, t, pos, hD, hc, hf, hw, hfuel => by
    obtain ⟨ts, rfl, hDc⟩ := hD.full_inv
    obtain ⟨b, rest, hbr⟩ : ∃ b rest, key.drop pos = b :: rest := by
      cases h : key.drop pos with
      | nil => rw [h] at hw; rcases hw.nil_key with h | h <;> cases h
      | cons b rest => exact ⟨b, rest, rfl⟩
    rw [hbr] at hw
    obtain ⟨hb, hw'⟩ := hw.full hc
    have hpos : key[pos]? = some b := by
      rw [← List.head?_drop, hbr]
      rfl
    have hrest : key.drop (pos + 1) = rest := by
      rw [← List.drop_drop, hbr]
      rfl
    have hlen : 1 ≤ key.length - pos := by
      have := congrArg List.length hbr
      simp only [List.length_drop, List.length_cons] at this
      omega
    rw [← hrest] at hw'
    obtain ⟨c', d, hget, hr⟩ := tryGet_reloads fuel (hDc _).1 (hc.1 _).1 (hf _) hw'
      (by have := Bool.toNat_le (cs ⟨b.toNat, hb⟩).isHash; simp only [Node.isHash, Bool.toNat_false] at hfuel; omega)
    refine ⟨_, d, ?_, hr.full tr.cachegen hD hc⟩
    simp only [Trie.tryGet, hpos, hb, dite_true, hget, hbr, hrest, lookup]
    cases d <;> rfl
  | fuel + 1, .hash x, t, pos, hD, hc, hf, hw, hfuel => by
    have hres := resolveHash_denotes hH hD hc hf tr (key.take pos)
    have hm := denotes_decoded tr.cachegen hc hD.2.1 (some x)
    obtain ⟨n', d, hget, hr⟩ := tryGet_reloads fuel hm hc hf hw
      (by rw [isHash_decoded]; simp only [Node.isHash, Bool.toNat_true] at hfuel; simpa using hfuel)
    refine ⟨n', true, ?_, hr.hash tr.cachegen hD hc⟩
    simp only [Trie.tryGet, hres, hget]

end Lookup

/-! ## Updates -/

section Update

variable (H db)

/-- What `insert` or `delete` gives back in place of a node `n` that denotes `t`, when the
tree operation turns `t` into `t'`: a node that denotes `t'`, never a hash node, with flags as
good as those of `n`. -/
structure Rewrites (n n' : Node) (t t' : Tree) : Prop where
  denotes : Denotes H db n' t'
  not_hash : n'.isHash = false
  flagsOk : ∀ root, FlagsOk H db root n → (n.isHash → root ∨ t.Long H) → FlagsOk H db root n'

variable {H db}

theorem flagsOk_update {cs : Fin 17 → Node} {i : Fin 17} {c : Node}
    (h : ∀ j, FlagsOk H db false (cs j)) (hc : FlagsOk H db false c) :
    ∀ j, FlagsOk H db false (Function.update cs i c j) := by
  intro j
  rw [Function.update_apply]
  split
  · exact hc
  · exact h j

theorem Rewrites.refl {n : Node} {t : Tree} (h : Denotes H db n t) (hn : n.isHash = false) :
    Rewrites H db n n t t :=
  ⟨h, hn, fun _ hf _ => hf⟩

/-- A value node put in place of any node. -/
theorem Rewrites.value {n : Node} {t : Tree} (v : Bytes) : Rewrites H db n (.value v) t (value v) :=
  ⟨rfl, rfl, fun _ _ _ => trivial⟩

/-- A hash node loaded from the database and rewritten. -/
theorem Rewrites.hash {x : Bytes} {t t' : Tree} {n' : Node} (g : UInt16)
    (hD : Denotes H db (.hash x) t) (hc : t.Canon)
    (hr : Rewrites H db (decoded H g (some x) t.toNode) n' t t') : Rewrites H db (.hash x) n' t t' :=
  ⟨hr.denotes, hr.not_hash, fun root _ hl =>
    hr.flagsOk root (flagsOk_loaded g hD hc (hl rfl)) fun h => absurd h (by rw [isHash_decoded]; decide)⟩

variable (tr : Trie)

theorem insert_nil_denotes {fuel : ℕ} (hfuel : 0 < fuel) (pfx key : List UInt8) {c : Node} {ct : Tree}
    (hD : Denotes H db c ct) (hl : c.isHash → ct.Long H) :
    ∃ c', tr.insert db fuel .nil pfx key c = some (.ok (true, c')) ∧
      Denotes H db c' (leaf key ct) ∧ (c'.isHash → (leaf key ct).Long H) ∧
      (FlagsOk H db false c → FlagsOk H db false c') := by
  obtain ⟨fuel, rfl⟩ := Nat.exists_eq_add_of_lt hfuel
  cases key with
  | nil => exact ⟨c, rfl, hD, hl, id⟩
  | cons b rest =>
    refine ⟨.short (b :: rest) c tr.newFlag, rfl, ⟨rfl, hD, hl⟩, (fun h => by cases h), flagsOk_short_fresh⟩

/-! ### The pieces of `delete` -/

theorem scanChildren_eq_one_iff (cs : Fin 17 → Node) (q : Fin 17) :
    ∀ (l : List (Fin 17)) (s : Trie.Scan), Trie.scanChildren cs l s = .one q ↔
      (s = .none ∧ l.filter (fun i => !(cs i).isNil) = [q]) ∨
        (s = .one q ∧ l.filter (fun i => !(cs i).isNil) = [])
  | [], s => by simp [Trie.scanChildren]
  | i :: is, s => by
    by_cases hi : (cs i).isNil
    · simp only [Trie.scanChildren, hi, if_true, List.filter_cons, Bool.not_true, Bool.false_eq_true,
        if_false]
      exact scanChildren_eq_one_iff cs q is s
    · simp only [Trie.scanChildren, hi, Bool.false_eq_true, if_false, List.filter_cons, Bool.not_false,
        if_true, List.cons.injEq, reduceCtorEq, and_false, or_false]
      cases s with
      | none =>
        rw [scanChildren_eq_one_iff cs q is (.one i)]
        simp only [true_and, reduceCtorEq, false_and, false_or, Trie.Scan.one.injEq]
      | one p => simp
      | many => simp

theorem scanChildren_eq_one {cs : Fin 17 → Node} {ts : Fin 17 → Tree} {pos : Fin 17}
    (hnil : ∀ i, (cs i).isNil = (ts i).isNil) :
    Trie.scanChildren cs (List.finRange 17) .none = .one pos ↔ occupied ts = [pos] := by
  rw [scanChildren_eq_one_iff, occupied]
  simp only [hnil, true_and, reduceCtorEq, false_and, or_false]

theorem collapseFull_of_occupied {ts : Fin 17 → Tree} {pos : Fin 17} (h : occupied ts = [pos]) :
    collapseFull ts = if pos.val ≠ 16 then extend [pos.val.toUInt8] (ts pos)
      else short [pos.val.toUInt8] (ts pos) := by
  unfold collapseFull
  rw [h]

theorem collapseFull_of_not_occupied {ts : Fin 17 → Tree} (h : ∀ pos, occupied ts ≠ [pos]) :
    collapseFull ts = full ts := by
  unfold collapseFull
  split
  · rename_i pos hpos
    exact absurd hpos (h pos)
  · rfl

theorem Denotes.merge {k ck : List UInt8} {cval : Node} {f : NodeFlag} {t : Tree} (g : NodeFlag)
    (hD : Denotes H db (.short ck cval f) t) : Denotes H db (.short (k ++ ck) cval g) (extend k t) := by
  obtain ⟨ct, rfl, hc, hl⟩ := hD.short_inv
  exact ⟨rfl, hc, hl⟩

/-- A short node over a node that is not a short node: the tree `extend` makes. -/
theorem Denotes.under {k : List UInt8} {m c : Node} {t : Tree} (g : NodeFlag) (hD : Denotes H db m t)
    (hm : ∀ ck cval f, m ≠ .short ck cval f) (hm' : m.isHash = false) (hc : Denotes H db c t)
    (hl : c.isHash → t.Long H) : Denotes H db (.short k c g) (extend k t) := by
  rw [extend_of_not_short]
  · exact ⟨rfl, hc, hl⟩
  · rintro ck ct rfl
    cases m with
    | short mk mc mf => exact hm mk mc mf rfl
    | hash x => cases hm'
    | _ => simp [Denotes] at hD

theorem resolve_denotes (hH : ∀ x, (H x).length = 32) (tr : Trie) (pfx : List UInt8) {c : Node}
    {t : Tree} (hD : Denotes H db c t) (hct : c.isHash → t.Canon ∧ t.Fits) :
    ∃ m, tr.resolve db c pfx = some (.ok m) ∧ Denotes H db m t ∧ m.isHash = false ∧
      (FlagsOk H db false c → (c.isHash → t.Long H) → FlagsOk H db false m) := by
  cases c with
  | hash x =>
    obtain ⟨hc, hf⟩ := hct rfl
    exact ⟨_, resolveHash_denotes hH hD hc hf tr pfx, denotes_decoded tr.cachegen hc hD.2.1 (some x),
      isHash_decoded _ _ _, fun _ hl => flagsOk_loaded tr.cachegen hD hc (.inr (hl rfl))⟩
  | _ => exact ⟨_, rfl, hD, rfl, fun h _ => h⟩

/-! ### The walks -/

variable (hH : ∀ x, (H x).length = 32) (v : Bytes)
include hH

/-- `insert` of a value on a node that denotes a canonical tree makes the change `Tree.ins`
makes, and says so. -/
theorem insert_rewrites : ∀ (fuel : ℕ) (pfx : List UInt8) {n : Node} {t : Tree} {key : List UInt8},
    Denotes H db n t → t.Canon → t.Fits → Walked t key → 2 * key.length + n.isHash.toNat < fuel →
    ∃ n', tr.insert db fuel n pfx key (.value v) = some (.ok ((t.ins key v).1, n')) ∧
      Rewrites H db n n' t (t.ins key v).2
  | 0, _, _, _, _, _, _, _, _, hfuel => absurd hfuel (Nat.not_lt_zero _)
  | fuel + 1, pfx, .value w, t, [], hD, _, _, _, _ => by
    obtain rfl := hD.value_inv
    exact ⟨.value v, rfl, .value v⟩
  | fuel + 1, pfx, .nil, t, [], hD, _, _, _, _ => by
    obtain rfl := hD.nil_inv
    exact ⟨.value v, rfl, .value v⟩
  | fuel + 1, pfx, .short k c f, t, [], hD, _, _, _, _ => by
    obtain ⟨ct, rfl, -, -⟩ := hD.short_inv
    exact ⟨.value v, rfl, .value v⟩
  | fuel + 1, pfx, .full cs f, t, [], hD, _, _, _, _ => by
    obtain ⟨ts, rfl, -⟩ := hD.full_inv
    exact ⟨.value v, rfl, .value v⟩
  | fuel + 1, pfx, .hash x, t, [], hD, _, _, hw, _ => by
    obtain ⟨hn, -⟩ := hD
    rcases hw.nil_key with h | h <;> cases t <;> simp_all [Tree.isNode, Tree.isNil, Tree.isValue]
  | fuel + 1, pfx, .value w, t, b :: rest, hD, _, _, hw, _ => by
    obtain rfl := hD.value_inv
    exact absurd hw.value_key (List.cons_ne_nil b rest)
  | fuel + 1, pfx, .nil, t, b :: rest, hD, _, _, _, _ => by
    obtain rfl := hD.nil_inv
    exact ⟨.short (b :: rest) (.value v) tr.newFlag, rfl,
      ⟨⟨rfl, rfl, (fun h => by cases h)⟩, rfl, fun _ _ _ => flagsOk_short_fresh trivial⟩⟩
  | fuel + 1, pfx, .short k c f, t, b :: rest, hD, hc, hf, hw, hfuel => by
    obtain ⟨ct, rfl, hDc, hl⟩ := hD.short_inv
    rcases short_cases hc hw (List.cons_ne_nil b rest) with hm | ⟨p, x, y, krest, keyrest, rfl, hkey, hxy, hx, hy⟩
    · have hk := prefix_of_prefixLen_eq hm
      have hk0 : 0 < k.length := List.length_pos_iff.2 hc.1
      have hlen := hk.length_le
      obtain ⟨c', hins, hr⟩ := insert_rewrites fuel (pfx ++ (b :: rest).take k.length) hDc
        hc.2.2.2.2 hf.2 (hw.short hc hk)
        (by
          have := Bool.toNat_le c.isHash
          simp only [Node.isHash, Bool.toNat_false] at hfuel
          rw [List.length_drop]
          omega)
      simp only [Trie.insert, hm, if_true, hins]
      cases hd : (ct.ins ((b :: rest).drop k.length) v).1
      · have hclean := ins_clean hd
        refine ⟨.short k c f, by simp [ins, hm, hd], ?_⟩
        simpa [ins, hm, hd] using Rewrites.refl hD rfl
      · refine ⟨.short k c' tr.newFlag, by simp [ins, hm, hd], ?_⟩
        rw [ins_short_match (List.cons_ne_nil b rest) hm]
        exact ⟨⟨rfl, hr.denotes, fun h => absurd h (by rw [hr.not_hash]; decide)⟩, rfl,
          fun root hfl _ => flagsOk_short_fresh (hr.flagsOk false hfl.2.2 fun h => .inr (hl h))⟩
    · have hm : prefixLen (b :: rest) (p ++ x :: krest) = p.length := by
        rw [hkey]
        exact prefixLen_split p keyrest krest (Ne.symm hxy)
      have hfuel' : 0 < fuel := by
        rw [hkey] at hfuel
        simp only [List.length_append, List.length_cons, Node.isHash, Bool.toNat_false] at hfuel
        omega
      obtain ⟨c1, h1, hD1, hl1, hf1⟩ := insert_nil_denotes tr hfuel'
        (pfx ++ (p ++ x :: krest).take (p.length + 1)) krest hDc hl
      obtain ⟨c2, h2, hD2, hl2, hf2⟩ := insert_nil_denotes tr hfuel'
        (pfx ++ (b :: rest).take (p.length + 1)) keyrest
        (show Denotes H db (.value v) (value v) from rfl) (fun h => by cases h)
      have hdrop1 : (p ++ x :: krest).drop (p.length + 1) = krest := by simp
      have hdrop2 : (b :: rest).drop (p.length + 1) = keyrest := by rw [hkey]; simp
      have hget : (b :: rest)[p.length]? = some y := by rw [hkey]; simp
      have htake : (b :: rest).take p.length = p := by rw [hkey]; simp
      have hne : p.length ≠ (p ++ x :: krest).length := by simp
      simp only [Trie.insert, hm, if_neg hne, List.getElem?_append_right (le_refl _), Nat.sub_self,
        List.getElem?_cons_zero, hget, hx, hy, and_self, dite_true, hdrop1, hdrop2, h1, h2, htake]
      rw [hkey, ins_short_split hxy hx hy]
      have hbranch : Denotes H db (.full (Function.update (Function.update (fun _ => .nil)
          ⟨x.toNat, hx⟩ c1) ⟨y.toNat, hy⟩ c2) tr.newFlag)
          (full (Function.update (Function.update (fun _ => nil) ⟨x.toNat, hx⟩ (leaf krest ct))
            ⟨y.toNat, hy⟩ (leaf keyrest (value v)))) :=
        Denotes.update tr.newFlag
          (Denotes.update (f := tr.newFlag) tr.newFlag (fun _ => ⟨trivial, (fun h => by cases h)⟩) hD1 hl1) hD2 hl2
      have hfbranch : FlagsOk H db false c → ∀ root, FlagsOk H db root (.full (Function.update
          (Function.update (fun _ => .nil) ⟨x.toNat, hx⟩ c1) ⟨y.toNat, hy⟩ c2) tr.newFlag) :=
        fun hfc _ => flagsOk_full_fresh
          (flagsOk_update (flagsOk_update (fun _ => trivial) (hf1 hfc)) (hf2 trivial))
      cases p with
      | nil => exact ⟨_, by simp, ⟨hbranch, rfl, fun root hfl _ => hfbranch hfl.2.2 root⟩⟩
      | cons z r =>
        exact ⟨.short (z :: r) _ tr.newFlag, by simp, ⟨⟨rfl, hbranch, (fun h => by cases h)⟩, rfl,
          fun root hfl _ => flagsOk_short_fresh (hfbranch hfl.2.2 false)⟩⟩
  | fuel + 1, pfx, .full cs f, t, b :: rest, hD, hc, hf, hw, hfuel => by
    obtain ⟨ts, rfl, hDc⟩ := hD.full_inv
    obtain ⟨hb, hw'⟩ := hw.full hc
    obtain ⟨c', hins, hr⟩ := insert_rewrites fuel (pfx ++ [b]) (hDc _).1 (hc.1 _).1 (hf _) hw'
      (by
        have := Bool.toNat_le (cs ⟨b.toNat, hb⟩).isHash
        simp only [Node.isHash, Bool.toNat_false, List.length_cons] at hfuel
        omega)
    simp only [Trie.insert, hb, dite_true, hins]
    cases hd : ((ts ⟨b.toNat, hb⟩).ins rest v).1
    · refine ⟨.full cs f, by simp [ins, hb, hd], ?_⟩
      simpa [ins, hb, hd] using Rewrites.refl hD rfl
    · refine ⟨.full (Function.update cs ⟨b.toNat, hb⟩ c') tr.newFlag, by simp [ins, hb, hd], ?_⟩
      rw [ins_full hb]
      exact ⟨hD.update tr.newFlag hr.denotes fun h => absurd h (by rw [hr.not_hash]; decide), rfl,
        fun root hfl _ => flagsOk_full_fresh (flagsOk_update hfl.2.2
          (hr.flagsOk false (hfl.2.2 _) fun h => .inr ((hDc _).2 h)))⟩
  | fuel + 1, pfx, .hash x, t, b :: rest, hD, hc, hf, hw, hfuel => by
    have hres := resolveHash_denotes hH hD hc hf tr pfx
    have hm := denotes_decoded tr.cachegen hc hD.2.1 (some x)
    obtain ⟨n', hins, hr⟩ := insert_rewrites fuel pfx hm hc hf hw
      (by
        rw [isHash_decoded]
        simp only [Node.isHash, Bool.toNat_true] at hfuel
        simpa using hfuel)
    simp only [Trie.insert, hres, hins]
    cases hd : (t.ins (b :: rest) v).1
    · refine ⟨_, rfl, ?_⟩
      rw [ins_clean hd]
      exact Rewrites.hash tr.cachegen hD hc (.refl hm (isHash_decoded _ _ _))
    · exact ⟨n', rfl, hr.hash tr.cachegen hD hc⟩

/-- `delete` on a node that denotes a canonical tree makes the change `Tree.del` makes, and
says so. -/
theorem delete_rewrites : ∀ (fuel : ℕ) (pfx : List UInt8) {n : Node} {t : Tree} {key : List UInt8},
    Denotes H db n t → t.Canon → t.Fits → Walked t key → 2 * key.length + n.isHash.toNat < fuel →
    ∃ n', tr.delete db fuel n pfx key = some (.ok ((t.del key).1, n')) ∧
      Rewrites H db n n' t (t.del key).2
  | 0, _, _, _, _, _, _, _, _, hfuel => absurd hfuel (Nat.not_lt_zero _)
  | fuel + 1, pfx, .nil, t, key, hD, _, _, _, _ => by
    obtain rfl := hD.nil_inv
    exact ⟨.nil, rfl, .refl hD rfl⟩
  | fuel + 1, pfx, .value w, t, key, hD, _, _, _, _ => by
    obtain rfl := hD.value_inv
    exact ⟨.nil, rfl, ⟨trivial, rfl, fun _ _ _ => trivial⟩⟩
  | fuel + 1, pfx, .short k c f, t, key, hD, hc, hf, hw, hfuel => by
    obtain ⟨ct, rfl, hDc, hl⟩ := hD.short_inv
    by_cases hm : prefixLen key k < k.length
    · rw [del_short_miss hm]
      exact ⟨.short k c f, by simp only [Trie.delete, hm, if_true], .refl hD rfl⟩
    have hm' : prefixLen key k = k.length := le_antisymm (prefixLen_le_right key k) (not_lt.1 hm)
    have hk := prefix_of_prefixLen_eq hm'
    by_cases hl' : prefixLen key k = key.length
    · have hkl : ¬ key.length < k.length := by omega
      rw [del_short_hit hm' hl']
      exact ⟨.nil, by simp only [Trie.delete, if_false, hl', hkl, if_true],
        ⟨trivial, rfl, fun _ _ _ => trivial⟩⟩
    have hlen : k.length < key.length := by
      have := prefixLen_le_left key k
      omega
    have hk0 : 0 < k.length := List.length_pos_iff.2 hc.1
    obtain ⟨c', hdel, hr⟩ := delete_rewrites fuel (pfx ++ key.take k.length) hDc hc.2.2.2.2 hf.2
      (hw.short hc hk)
      (by
        have := Bool.toNat_le c.isHash
        simp only [Node.isHash, Bool.toNat_false] at hfuel
        rw [List.length_drop]
        omega)
    have hlt : ¬ k.length < k.length := lt_irrefl _
    have hl'' : ¬ k.length = key.length := hm' ▸ hl'
    simp only [Trie.delete, hm, if_false, hl', hdel]
    cases hd : (ct.del (key.drop k.length)).1
    · have hdel1 : ((short k ct).del key) = (false, short k ct) := by
        simp only [del, hm', hlt, if_false, hl'', hd, Bool.not_false, if_true]
      rw [hdel1]
      exact ⟨.short k c f, rfl, .refl hD rfl⟩
    · have hdel1 : ((short k ct).del key).1 = true := by
        simp only [del, hm', hlt, if_false, hl'', hd, Bool.not_true, Bool.false_eq_true]
      rw [hdel1, del_short_child hm' hl' hc.not_short]
      have hfc : ∀ root, FlagsOk H db root (.short k c f) → FlagsOk H db false c' :=
        fun _ hfl => hr.flagsOk false hfl.2.2 fun h => .inr (hl h)
      cases c' with
      | short ck cval f' =>
        exact ⟨_, rfl, ⟨Denotes.merge tr.newFlag hr.denotes, rfl,
          fun root hfl _ => flagsOk_short_fresh (hfc root hfl).2.2⟩⟩
      | nil | full _ _ | value _ =>
        exact ⟨_, rfl, ⟨Denotes.under tr.newFlag hr.denotes (by simp) rfl hr.denotes (fun h => by cases h), rfl,
          fun root hfl _ => flagsOk_short_fresh (hfc root hfl)⟩⟩
      | hash _ => cases hr.not_hash
  | fuel + 1, pfx, .full cs f, t, [], hD, _, _, hw, _ => by
    obtain ⟨ts, rfl, -⟩ := hD.full_inv
    rcases hw.nil_key with h | h <;> cases h
  | fuel + 1, pfx, .full cs f, t, b :: rest, hD, hc, hf, hw, hfuel => by
    obtain ⟨ts, rfl, hDc⟩ := hD.full_inv
    obtain ⟨hb, hw'⟩ := hw.full hc
    obtain ⟨c', hdel, hr⟩ := delete_rewrites fuel (pfx ++ [b]) (hDc _).1 (hc.1 _).1 (hf _) hw'
      (by
        have := Bool.toNat_le (cs ⟨b.toNat, hb⟩).isHash
        simp only [Node.isHash, Bool.toNat_false, List.length_cons] at hfuel
        omega)
    simp only [Trie.delete, hb, dite_true, hdel]
    cases hd : ((ts ⟨b.toNat, hb⟩).del rest).1
    · have hdel1 : ((full ts).del (b :: rest)) = (false, full ts) := by
        simp only [del, hb, dite_true, hd, Bool.not_false, if_true]
      rw [hdel1]
      exact ⟨.full cs f, rfl, .refl hD rfl⟩
    · have hdel1 : ((full ts).del (b :: rest)).1 = true := by
        simp only [del, hb, dite_true, hd, Bool.not_true, Bool.false_eq_true, if_false]
      simp only [Bool.not_true, Bool.false_eq_true, if_false]
      obtain ⟨i, j, hij, hi, hj⟩ := hc.2
      rw [hdel1, del_full hb (collapseFull_eq_full ⟨i, j, hij, hi, hj⟩)]
      set ts' := Function.update ts ⟨b.toNat, hb⟩ ((ts ⟨b.toNat, hb⟩).del rest).2 with hts'
      set cs' := Function.update cs ⟨b.toNat, hb⟩ c' with hcs'
      have hD' : Denotes H db (.full cs' tr.newFlag) (.full ts') :=
        hD.update tr.newFlag hr.denotes fun h => absurd h (by rw [hr.not_hash]; decide)
      have hfl' : ∀ root, FlagsOk H db root (.full cs f) → ∀ i, FlagsOk H db false (cs' i) :=
        fun _ hfl => flagsOk_update hfl.2.2 (hr.flagsOk false (hfl.2.2 _) fun h => .inr ((hDc _).2 h))
      by_cases hone : ∃ pos, occupied ts' = [pos]
      · obtain ⟨pos, hpos⟩ := hone
        rw [(scanChildren_eq_one fun i => (hD' i).1.isNil_eq).2 hpos, collapseFull_of_occupied hpos]
        by_cases h16 : pos.val ≠ 16
        · have hload : (cs' pos).isHash → (ts' pos).Canon ∧ (ts' pos).Fits := fun h => by
            have hpb : pos ≠ ⟨b.toNat, hb⟩ := by
              rintro rfl
              rw [hcs', Function.update_self, hr.not_hash] at h
              cases h
            rw [hts', Function.update_of_ne hpb]
            exact ⟨(hc.1 pos).1, hf pos⟩
          obtain ⟨m, hres, hDm, hmh, hfm⟩ := resolve_denotes hH tr pfx (hD' pos).1 hload
          simp only [if_pos h16, hres]
          cases m with
          | short ck cval f' =>
            exact ⟨_, rfl, ⟨Denotes.merge (k := [pos.val.toUInt8]) tr.newFlag hDm, rfl, fun root hfl _ =>
              flagsOk_short_fresh (hfm (hfl' root hfl pos) (hD' pos).2).2.2⟩⟩
          | nil | full _ _ | value _ =>
            exact ⟨_, rfl, ⟨Denotes.under tr.newFlag hDm (by simp) rfl (hD' pos).1 (hD' pos).2, rfl,
              fun root hfl _ => flagsOk_short_fresh (hfl' root hfl pos)⟩⟩
          | hash _ => cases hmh
        · simp only [if_neg h16]
          exact ⟨_, rfl, ⟨⟨rfl, (hD' pos).1, (hD' pos).2⟩, rfl,
            fun root hfl _ => flagsOk_short_fresh (hfl' root hfl pos)⟩⟩
      · simp only [not_exists] at hone
        rw [collapseFull_of_not_occupied hone]
        split
        · rename_i pos hpos
          exact absurd ((scanChildren_eq_one fun i => (hD' i).1.isNil_eq).1 hpos) (hone pos)
        · exact ⟨_, rfl, ⟨hD', rfl, fun root hfl _ => flagsOk_full_fresh (hfl' root hfl)⟩⟩
  | fuel + 1, pfx, .hash x, t, key, hD, hc, hf, hw, hfuel => by
    have hres := resolveHash_denotes hH hD hc hf tr pfx
    have hm := denotes_decoded tr.cachegen hc hD.2.1 (some x)
    obtain ⟨n', hdel, hr⟩ := delete_rewrites fuel pfx hm hc hf hw
      (by
        rw [isHash_decoded]
        simp only [Node.isHash, Bool.toNat_true] at hfuel
        simpa using hfuel)
    simp only [Trie.delete, hres, hdel]
    cases hd : (t.del key).1
    · refine ⟨_, rfl, ?_⟩
      rw [del_clean hd]
      exact Rewrites.hash tr.cachegen hD hc (.refl hm (isHash_decoded _ _ _))
    · exact ⟨n', rfl, hr.hash tr.cachegen hD hc⟩

end Update

end Sphinx.Trie
