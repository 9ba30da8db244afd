import Sphinx.Trie.Tree

/-! # Inserting and deleting in a tree

`insert` and `delete` of `trie.go` on the tree a trie holds (`Tree.ins`, `Tree.del`): the
same walks without hash nodes and flags, returning as the source does whether the tree
changed. `ins` splits a short node where the key leaves it at a new full node; `del` turns a
full node left with one child back into a short node, and merges short nodes that end up
one above the other.

Walked with the hex form of a key (`Walked`), both keep a tree canonical and change its
lookups at that key only (`lookup_ins`, `lookup_del`).
-/

namespace Sphinx.Trie

namespace Tree

/-- Nibbles, then the terminator: the rest of a hex key before its terminator is read. -/
def TermKey (key : List UInt8) : Prop :=
  ∃ ns, Nibbles ns ∧ key = ns ++ [16]

/-- The tree `t` is reached with the rest `key` of a hex key: before the terminator, every
key of `t` holds it too; after it, `t` is nil or a value. -/
def Walked (t : Tree) (key : List UInt8) : Prop :=
  (TermKey key ∧ ∀ k, t.HasKey k → TermKey k) ∨ (key = [] ∧ (t.isNil ∨ t.isValue))

/-- `insert` into nil: the value itself at an empty key, else a short node. -/
def leaf (key : List UInt8) (t : Tree) : Tree :=
  match key with
  | [] => t
  | _ :: _ => short key t

/-- `insert(n, prefix, key, value)` on trees, with whether the tree changed. -/
def ins : Tree → List UInt8 → Bytes → Bool × Tree
  | value w, [], v => (w != v, value v)
  | _, [], v => (true, value v)
  | short k c, key, v =>
    let m := prefixLen key k
    if m = k.length then
      let r := ins c (key.drop m) v
      if !r.1 then (false, short k c) else (true, short k r.2)
    else
      match (k[m]?, key[m]?) with
      | (some kb, some kbKey) =>
        if hkb : kb.toNat < 17 then
          if hkbKey : kbKey.toNat < 17 then
            -- branch out at the index where the keys differ
            (true, leaf (key.take m) (full (Function.update
              (Function.update (fun _ => nil) ⟨kb.toNat, hkb⟩ (leaf (k.drop (m + 1)) c))
              ⟨kbKey.toNat, hkbKey⟩ (leaf (key.drop (m + 1)) (value v)))))
          else (false, short k c)
        else (false, short k c)
      | _ => (false, short k c)
  | full ts, b :: rest, v =>
    if hb : b.toNat < 17 then
      let r := ins (ts ⟨b.toNat, hb⟩) rest v
      if !r.1 then (false, full ts) else (true, full (Function.update ts ⟨b.toNat, hb⟩ r.2))
    else (false, full ts)
  | nil, key, v => (true, short key (value v))
  | value w, _ :: _, _ => (false, value w)

/-- The children of a full node that are not nil, in order. -/
def occupied (ts : Fin 17 → Tree) : List (Fin 17) :=
  (List.finRange 17).filter fun i => !(ts i).isNil

/-- A short node of key `k` over `t`, merged with `t` when that is a short node itself. -/
def extend (k : List UInt8) : Tree → Tree
  | short ck cval => short (k ++ ck) cval
  | child => short k child

/-- A full node after a deletion below it: back to a short node when one child is left,
merged with that child unless it is the value child. -/
def collapseFull (ts : Fin 17 → Tree) : Tree :=
  match occupied ts with
  | [pos] =>
    if pos.val ≠ 16 then extend [pos.val.toUInt8] (ts pos)
    else short [pos.val.toUInt8] (ts pos)
  | _ => full ts

/-- `delete(n, prefix, key)` on trees, with whether the tree changed. -/
def del : Tree → List UInt8 → Bool × Tree
  | short k c, key =>
    let m := prefixLen key k
    if m < k.length then (false, short k c)
    else if m = key.length then (true, nil)
    else
      let r := del c (key.drop k.length)
      if !r.1 then (false, short k c) else (true, extend k r.2)
  | full ts, [] => (false, full ts)
  | full ts, b :: rest =>
    if hb : b.toNat < 17 then
      let r := del (ts ⟨b.toNat, hb⟩) rest
      if !r.1 then (false, full ts)
      else (true, collapseFull (Function.update ts ⟨b.toNat, hb⟩ r.2))
    else (false, full ts)
  | value _, _ => (true, nil)
  | nil, _ => (false, nil)

-- The equation lemmas of these definitions are made here, once: the proofs that unfold them
-- run in parallel, and would otherwise each wait for them on a thread of its own.
section
attribute [local simp] ins del lookup collapseFull
end

/-! ## Keys that end in the terminator -/

theorem TermKey.ne_nil {key : List UInt8} (h : TermKey key) : key ≠ [] := by
  obtain ⟨ns, -, rfl⟩ := h
  simp

theorem not_termKey_nil : ¬ TermKey [] := fun h => h.ne_nil rfl

theorem termKey_cons {b : UInt8} {rest : List UInt8} :
    TermKey (b :: rest) ↔ (b = 16 ∧ rest = []) ∨ (b < 16 ∧ TermKey rest) := by
  constructor
  · rintro ⟨ns, hns, he⟩
    cases ns with
    | nil =>
      simp only [List.nil_append, List.cons.injEq] at he
      exact .inl he
    | cons n ns =>
      simp only [List.cons_append, List.cons.injEq] at he
      obtain ⟨rfl, rfl⟩ := he
      simp only [nibbles_cons] at hns
      exact .inr ⟨hns.1, ns, hns.2, rfl⟩
  · rintro (⟨rfl, rfl⟩ | ⟨hb, ns, hns, rfl⟩)
    · exact ⟨[], nibbles_nil, rfl⟩
    · exact ⟨b :: ns, nibbles_cons.2 ⟨hb, hns⟩, rfl⟩

theorem termKey_append {k r : List UInt8} (hk : Nibbles k) : TermKey (k ++ r) ↔ TermKey r := by
  induction k with
  | nil => rfl
  | cons x k ih =>
    rw [nibbles_cons] at hk
    have hx : x ≠ 16 := fun h => absurd (h ▸ hk.1) (by decide)
    rw [List.cons_append, termKey_cons, ← ih hk.2]
    simp [hx, hk.1]

theorem TermKey.eq_of_prefix : ∀ {a b : List UInt8}, TermKey a → TermKey b → a <+: b → a = b
  | [], _, ha, _, _ => absurd ha not_termKey_nil
  | x :: a, [], _, _, hp => absurd hp.length_le (by simp)
  | x :: a, y :: b, ha, hb, hp => by
    obtain ⟨rfl, hp'⟩ := List.cons_prefix_cons.1 hp
    rcases termKey_cons.1 ha with ⟨rfl, rfl⟩ | ⟨hx, ha'⟩
    · rcases termKey_cons.1 hb with ⟨-, rfl⟩ | ⟨hy, -⟩
      · rfl
      · exact absurd hy (by decide)
    · rcases termKey_cons.1 hb with ⟨rfl, -⟩ | ⟨-, hb'⟩
      · exact absurd hx (by decide)
      · rw [TermKey.eq_of_prefix ha' hb' hp']

theorem termKey_of_hasTerm {k : List UInt8} (hk : HexKey k) (ht : hasTerm k = true) :
    TermKey k := by
  rcases hk with hk | hk
  · rw [hasTerm_of_nibbles hk] at ht
    cases ht
  · exact hk

theorem nibbles_of_not_hasTerm {k : List UInt8} (hk : HexKey k) (ht : hasTerm k = false) :
    Nibbles k := by
  rcases hk with hk | ⟨ns, -, rfl⟩
  · exact hk
  · rw [hasTerm_append_term] at ht
    cases ht

theorem termKey_keybytesToHex (str : List UInt8) : TermKey (keybytesToHex str) := by
  refine ⟨str.flatMap fun b => [b / 16, b % 16], fun n hn => ?_, rfl⟩
  obtain ⟨b, -, hb⟩ := List.mem_flatMap.1 hn
  rcases List.mem_pair.1 hb with rfl | rfl
  · simp only [UInt8.lt_iff_toNat_lt, UInt8.toNat_div, UInt8.reduceToNat]
    have := b.toNat_lt
    omega
  · simp only [UInt8.lt_iff_toNat_lt, UInt8.toNat_mod, UInt8.reduceToNat]
    omega

/-! ## Walking down a tree -/

theorem Walked.nil_key {t : Tree} (h : Walked t []) : t.isNil ∨ t.isValue := by
  rcases h with ⟨hk, -⟩ | ⟨-, h⟩
  · exact absurd hk not_termKey_nil
  · exact h

theorem Walked.value_key {w : Bytes} {key : List UInt8} (h : Walked (value w) key) : key = [] := by
  rcases h with ⟨-, hall⟩ | ⟨h, -⟩
  · exact absurd (hall [] (by simp [HasKey, lookup_value])) not_termKey_nil
  · exact h

/-- Past a short node whose key the walked key starts with. -/
theorem Walked.short {k : List UInt8} {c : Tree} {key : List UInt8} (hw : Walked (short k c) key)
    (hc : Canon (short k c)) (hk : k <+: key) : Walked c (key.drop k.length) := by
  obtain ⟨-, hkey, hkt, hvf, -⟩ := hc
  rcases hw with ⟨hterm, hall⟩ | ⟨rfl, hnv⟩
  · cases ht : hasTerm k
    · have hn := nibbles_of_not_hasTerm hkey ht
      obtain ⟨r, rfl⟩ := hk
      refine .inl ⟨by simpa using (termKey_append hn).1 hterm, fun x hx => ?_⟩
      have : (Tree.short k c).HasKey (k ++ x) := by simpa [HasKey] using hx
      exact (termKey_append hn).1 (hall _ this)
    · have hkv : c.isValue = true := by rw [← hkt, ht]
      rw [TermKey.eq_of_prefix (termKey_of_hasTerm hkey ht) hterm hk, List.drop_length]
      exact .inr ⟨rfl, .inr hkv⟩
  · simp [isNil, isValue] at hnv

/-- Past a full node, at the child of the first nibble. -/
theorem Walked.full {ts : Fin 17 → Tree} {b : UInt8} {rest : List UInt8}
    (hw : Walked (full ts) (b :: rest)) (hc : Canon (full ts)) :
    ∃ hb : b.toNat < 17, Walked (ts ⟨b.toNat, hb⟩) rest := by
  rcases hw with ⟨hterm, hall⟩ | ⟨h, -⟩
  · rcases termKey_cons.1 hterm with ⟨rfl, rfl⟩ | ⟨hb, hrest⟩
    · exact ⟨by decide, .inr ⟨rfl, ((hc.1 16).2.2 rfl)⟩⟩
    · have hb' : b.toNat < 17 := by
        have := UInt8.lt_iff_toNat_lt.1 hb
        simp only [UInt8.reduceToNat] at this
        omega
      refine ⟨hb', .inl ⟨hrest, fun x hx => ?_⟩⟩
      have : (Tree.full ts).HasKey (b :: x) := by simpa [HasKey, lookup, hb'] using hx
      rcases termKey_cons.1 (hall _ this) with ⟨rfl, -⟩ | ⟨-, hx'⟩
      · exact absurd hb (by decide)
      · exact hx'
  · cases h

/-! ## Lookups after a change -/

theorem lookup_leaf (k : List UInt8) (t : Tree) (key : List UInt8) :
    lookup (leaf k t) key = if k <+: key then lookup t (key.drop k.length) else none := by
  cases k with
  | nil => simp [leaf]
  | cons x k => rfl

theorem lookup_leaf_value (k : List UInt8) (v : Bytes) (key : List UInt8) :
    lookup (leaf k (value v)) key = if key = k then some v else none := by
  rw [lookup_leaf]
  by_cases hp : k <+: key
  · obtain ⟨r, rfl⟩ := hp
    simp [lookup_value]
  · rw [if_neg hp, if_neg (fun h => hp (by subst h; exact List.prefix_refl _))]

theorem lookup_full_update (ts : Fin 17 → Tree) (i : Fin 17) (t : Tree) (b : UInt8)
    (rest : List UInt8) :
    lookup (full (Function.update ts i t)) (b :: rest) =
      if b.toNat = i.val then lookup t rest else lookup (full ts) (b :: rest) := by
  by_cases hb : b.toNat = i.val
  · have hlt : b.toNat < 17 := hb ▸ i.isLt
    have hi : (⟨b.toNat, hlt⟩ : Fin 17) = i := Fin.ext hb
    simp only [lookup, hlt, dite_true, hi, Function.update_self, if_pos hb]
  · rw [if_neg hb]
    simp only [lookup]
    split_ifs with hlt
    · rw [Function.update_of_ne (fun h => hb (congrArg Fin.val h))]
    · rfl

/-! ## Keys that part -/

theorem hexKey_cons {x : UInt8} {r : List UInt8} :
    HexKey (x :: r) ↔ (x < 16 ∧ HexKey r) ∨ (x = 16 ∧ r = []) := by
  unfold HexKey
  rw [nibbles_cons, show (∃ ns, Nibbles ns ∧ x :: r = ns ++ [16]) ↔ TermKey (x :: r) from
    Iff.rfl, termKey_cons]
  constructor
  · rintro (⟨hx, hr⟩ | ⟨rfl, rfl⟩ | ⟨hx, hr⟩)
    · exact .inl ⟨hx, .inl hr⟩
    · exact .inr ⟨rfl, rfl⟩
    · exact .inl ⟨hx, .inr hr⟩
  · rintro (⟨hx, hr | hr⟩ | ⟨rfl, rfl⟩)
    · exact .inl ⟨hx, hr⟩
    · exact .inr (.inr ⟨hx, hr⟩)
    · exact .inr (.inl ⟨rfl, rfl⟩)

theorem hexKey_append {p r : List UInt8} (hp : Nibbles p) : HexKey (p ++ r) ↔ HexKey r := by
  unfold HexKey
  rw [nibbles_append, show (∃ ns, Nibbles ns ∧ p ++ r = ns ++ [16]) ↔ TermKey (p ++ r) from
    Iff.rfl, termKey_append hp]
  simp only [hp, true_and]
  rfl

theorem nibbles_of_hexKey {p r : List UInt8} {x : UInt8} (h : HexKey (p ++ x :: r)) : Nibbles p := by
  rcases h with h | ⟨ns, hns, he⟩
  · exact (nibbles_append.1 h).1
  · have hp : p <+: ns := by
      refine List.prefix_of_prefix_length_le (he ▸ List.prefix_append p (x :: r))
        (List.prefix_append ns [16]) ?_
      have := congrArg List.length he
      simp only [List.length_append, List.length_cons, List.length_nil] at this
      omega
    exact fun n hn => hns n (hp.subset hn)

theorem toNat_lt_16 {x : UInt8} (h : x < 16) : x.toNat < 16 := by
  have := UInt8.lt_iff_toNat_lt.1 h
  simpa using this

theorem toNat_lt_of_hexKey {x : UInt8} {r : List UInt8} (h : HexKey (x :: r)) : x.toNat < 17 := by
  rcases hexKey_cons.1 h with ⟨hx, -⟩ | ⟨rfl, -⟩
  · have := UInt8.lt_iff_toNat_lt.1 hx
    simp only [UInt8.reduceToNat] at this
    omega
  · decide

theorem exists_split_of_prefixLen_lt : ∀ {a b : List UInt8}, prefixLen a b < a.length →
    prefixLen a b < b.length →
    ∃ p x y a' b', a = p ++ x :: a' ∧ b = p ++ y :: b' ∧ x ≠ y ∧ p.length = prefixLen a b
  | x :: a, y :: b, ha, hb => by
    by_cases hxy : x = y
    · subst hxy
      simp only [prefixLen, if_true, List.length_cons] at ha hb ⊢
      obtain ⟨p, x', y', a', b', rfl, rfl, hne, hp⟩ :=
        exists_split_of_prefixLen_lt (a := a) (b := b) (by omega) (by omega)
      exact ⟨x :: p, x', y', a', b', rfl, rfl, hne, by simp [hp]⟩
    · exact ⟨[], x, y, a, b, rfl, rfl, hxy, by simp [prefixLen, hxy]⟩
  | [], _, ha, _ => absurd ha (by simp)
  | _ :: _, [], _, hb => absurd hb (by simp)

theorem prefixLen_split (p : List UInt8) {x y : UInt8} (a b : List UInt8) (hxy : x ≠ y) :
    prefixLen (p ++ x :: a) (p ++ y :: b) = p.length := by
  rw [prefixLen_append]
  simp [prefixLen, hxy]

/-! ## `ins`, case by case -/

section Ins

variable {v : Bytes}

theorem ins_clean {t : Tree} {key : List UInt8} (h : (t.ins key v).1 = false) :
    (t.ins key v).2 = t := by
  revert h
  fun_cases ins t key v
  case case1 w =>
    intro h
    rw [bne_eq_false_iff_eq] at h
    rw [h]
  all_goals first | exact fun _ => rfl | exact fun h => by cases h

theorem isNil_leaf (k : List UInt8) {t : Tree} (ht : t.isNil = false) : (leaf k t).isNil = false := by
  cases k with
  | nil => exact ht
  | cons b k => rfl

@[simp] theorem isNil_ins (t : Tree) (key : List UInt8) : (t.ins key v).2.isNil = false := by
  fun_cases ins t key v
  case case5 => exact isNil_leaf _ rfl
  all_goals rfl

theorem ins_nil_key (t : Tree) : (t.ins [] v).2 = value v := by
  cases t <;> rfl

theorem ins_nil {key : List UInt8} (hkey : key ≠ []) : (nil.ins key v).2 = short key (value v) := by
  cases key with
  | nil => exact absurd rfl hkey
  | cons b rest => rfl

theorem ins_short_match {k : List UInt8} {c : Tree} {key : List UInt8} (hkey : key ≠ [])
    (hk : prefixLen key k = k.length) :
    ((short k c).ins key v).2 = short k (c.ins (key.drop k.length) v).2 := by
  obtain ⟨b, rest, rfl⟩ := List.exists_cons_of_ne_nil hkey
  have hclean := @ins_clean v c ((b :: rest).drop k.length)
  simp only [ins, hk, if_true]
  cases hd : (c.ins ((b :: rest).drop k.length) v).1
  · simp only [Bool.not_false, if_true]
    rw [hclean hd]
  · rfl

theorem ins_short_split {p : List UInt8} {x y : UInt8} {krest keyrest : List UInt8} {c : Tree}
    (hxy : x ≠ y) (hx : x.toNat < 17) (hy : y.toNat < 17) :
    (short (p ++ x :: krest) c).ins (p ++ y :: keyrest) v =
      (true, leaf p (full (Function.update
        (Function.update (fun _ => nil) ⟨x.toNat, hx⟩ (leaf krest c))
        ⟨y.toNat, hy⟩ (leaf keyrest (value v))))) := by
  have hkey : p ++ y :: keyrest ≠ [] := by simp
  rw [ins.eq_3 _ _ _ _ hkey, prefixLen_split p keyrest krest (Ne.symm hxy)]
  simp [hx, hy]

theorem ins_full {ts : Fin 17 → Tree} {b : UInt8} {rest : List UInt8} (hb : b.toNat < 17) :
    ((full ts).ins (b :: rest) v).2 =
      full (Function.update ts ⟨b.toNat, hb⟩ ((ts ⟨b.toNat, hb⟩).ins rest v).2) := by
  have hclean := @ins_clean v (ts ⟨b.toNat, hb⟩) rest
  simp only [ins, hb, dite_true]
  cases hd : ((ts ⟨b.toNat, hb⟩).ins rest v).1
  · simp only [Bool.not_false, if_true]
    rw [hclean hd, Function.update_eq_self]
  · rfl

theorem lookup_split {p : List UInt8} {x y : UInt8} {krest keyrest : List UInt8} {c : Tree}
    (hxy : x ≠ y) (hx : x.toNat < 17) (hy : y.toNat < 17) (key' : List UInt8) :
    lookup (leaf p (full (Function.update
        (Function.update (fun _ => nil) ⟨x.toNat, hx⟩ (leaf krest c))
        ⟨y.toNat, hy⟩ (leaf keyrest (value v))))) key' =
      if key' = p ++ y :: keyrest then some v else lookup (short (p ++ x :: krest) c) key' := by
  rw [lookup_leaf, lookup_short]
  by_cases hp : p <+: key'
  · obtain ⟨r, rfl⟩ := hp
    simp only [List.prefix_append, if_true, List.drop_left, List.append_cancel_left_eq,
      List.prefix_append_right_inj]
    cases r with
    | nil => simp [lookup]
    | cons z r =>
      rw [lookup_full_update, lookup_full_update]
      by_cases hzy : z = y
      · subst hzy
        simp [lookup_leaf_value, hxy]
      · have hzy' : z.toNat ≠ y.toNat := fun h => hzy (UInt8.toNat_inj.1 h)
        have hne : z :: r ≠ y :: keyrest := fun h => hzy (List.cons.inj h).1
        rw [if_neg hzy', if_neg hne]
        by_cases hzx : z = x
        · subst hzx
          simp [lookup_leaf]
        · have hzx' : z.toNat ≠ x.toNat := fun h => hzx (UInt8.toNat_inj.1 h)
          have hnp : ¬ (x :: krest <+: z :: r) := fun h => hzx (List.cons_prefix_cons.1 h).1.symm
          rw [if_neg hzx', if_neg hnp]
          simp only [lookup]
          split <;> rfl
  · rw [if_neg hp, if_neg (fun h : key' = p ++ y :: keyrest => hp (h ▸ List.prefix_append _ _)),
      if_neg (fun h : p ++ x :: krest <+: key' => hp ((List.prefix_append _ _).trans h))]

theorem isValue_leaf_full (p : List UInt8) (ts : Fin 17 → Tree) :
    (leaf p (full ts)).isValue = false := by
  cases p <;> rfl

theorem isValue_ins {t : Tree} {key : List UInt8} (hkey : key ≠ []) (ht : t.isValue = false) :
    (t.ins key v).2.isValue = false := by
  revert hkey ht
  fun_cases ins t key v
  case case5 => exact fun _ _ => isValue_leaf_full _ _
  all_goals first | exact fun _ _ => rfl | exact fun h _ => absurd rfl h | exact fun _ h => h

end Ins

/-! ## `ins` changes the one key -/

theorem prefix_of_prefixLen_eq {key k : List UInt8} (h : prefixLen key k = k.length) : k <+: key := by
  have ht := take_prefixLen key k
  rw [h, List.take_length] at ht
  exact ht ▸ List.take_prefix _ _

theorem TermKey.eq_of_prefix_hexKey {a b : List UInt8} (ha : TermKey a) (hb : HexKey b)
    (h : a <+: b) : a = b := by
  rcases hb with hb | hb
  · obtain ⟨ns, -, rfl⟩ := ha
    have := hb 16 (h.subset (by simp))
    exact absurd this (by decide)
  · exact ha.eq_of_prefix hb h

/-- Where a hex key meets a short node of a canonical tree: it runs through the node's key,
or the two part inside it. -/
theorem short_cases {k : List UInt8} {c : Tree} {key : List UInt8} (hc : Canon (short k c))
    (hw : Walked (short k c) key) (hkey : key ≠ []) :
    prefixLen key k = k.length ∨
      ∃ p x y krest keyrest, k = p ++ x :: krest ∧ key = p ++ y :: keyrest ∧ x ≠ y ∧
        x.toNat < 17 ∧ y.toNat < 17 := by
  have hterm : TermKey key := by
    rcases hw with ⟨h, -⟩ | ⟨h, -⟩
    · exact h
    · exact absurd h hkey
  by_cases hm : prefixLen key k = k.length
  · exact .inl hm
  · have hlt : prefixLen key k < k.length := lt_of_le_of_ne (prefixLen_le_right key k) hm
    have hlt' : prefixLen key k < key.length := by
      refine lt_of_le_of_ne (prefixLen_le_left key k) fun he => ?_
      have hpre : key <+: k := by
        have ht := take_prefixLen key k
        rw [he, List.take_length] at ht
        exact ht ▸ List.take_prefix _ _
      have := hterm.eq_of_prefix_hexKey hc.2.1 hpre
      exact hm (he.trans (congrArg List.length this))
    obtain ⟨p, y, x, keyrest, krest, hkey', hk', hxy, -⟩ := exists_split_of_prefixLen_lt hlt' hlt
    have hp := nibbles_of_hexKey (hk' ▸ hc.2.1)
    have hx := toNat_lt_of_hexKey ((hexKey_append hp).1 (hk' ▸ hc.2.1))
    have hy := toNat_lt_of_hexKey ((hexKey_append hp).1 (hkey' ▸ Or.inr hterm))
    exact .inr ⟨p, x, y, krest, keyrest, hk', hkey', Ne.symm hxy, hx, hy⟩

theorem drop_eq_drop_iff {a x y : List UInt8} (hx : a <+: x) (hy : a <+: y) :
    x.drop a.length = y.drop a.length ↔ x = y := by
  obtain ⟨r, rfl⟩ := hx
  obtain ⟨s, rfl⟩ := hy
  simp

theorem lookup_ins {v : Bytes} : ∀ {t : Tree} {key : List UInt8}, Canon t → Walked t key →
    ∀ key', lookup (t.ins key v).2 key' = if key' = key then some v else lookup t key'
  | t, [], _, hw, key' => by
    rw [ins_nil_key, lookup_value]
    by_cases hk : key' = []
    · rw [if_pos hk, if_pos hk]
    · rw [if_neg hk, if_neg hk]
      rcases hw.nil_key with h | h <;> cases t <;> simp_all [isNil, isValue, lookup_value]
  | nil, b :: rest, _, _, key' => by
    rw [ins_nil (List.cons_ne_nil b rest)]
    exact lookup_leaf_value (b :: rest) v key'
  | value w, b :: rest, _, hw, _ => absurd hw.value_key (List.cons_ne_nil b rest)
  | short k c, b :: rest, hc, hw, key' => by
    rcases short_cases hc hw (List.cons_ne_nil b rest) with hm | ⟨p, x, y, krest, keyrest, rfl, hkey, hxy, hx, hy⟩
    · have hk := prefix_of_prefixLen_eq hm
      rw [ins_short_match (List.cons_ne_nil b rest) hm, lookup_short, lookup_short,
        lookup_ins hc.2.2.2.2 (hw.short hc hk)]
      by_cases hk' : k <+: key'
      · rw [if_pos hk', if_pos hk']
        simp only [drop_eq_drop_iff hk' hk]
      · rw [if_neg hk', if_neg fun he : key' = b :: rest => hk' (he ▸ hk), if_neg hk']
    · rw [hkey, ins_short_split hxy hx hy]
      exact lookup_split hxy hx hy key'
  | full ts, b :: rest, hc, hw, key' => by
    obtain ⟨hb, hw'⟩ := hw.full hc
    rw [ins_full hb]
    cases key' with
    | nil => simp [lookup]
    | cons z r =>
      rw [lookup_full_update, lookup_ins (hc.1 _).1 hw']
      by_cases hz : z = b
      · subst hz
        simp [lookup, hb]
      · have hz' : z.toNat ≠ b.toNat := fun h => hz (UInt8.toNat_inj.1 h)
        rw [if_neg hz', if_neg fun h => hz (List.cons.inj h).1]

/-! ## `ins` keeps a tree canonical -/

section Canon

variable {v : Bytes}

theorem ins_kind {c : Tree} {key : List UInt8} (hvf : c.isValue ∨ c.isFull) (hw : Walked c key) :
    (c.ins key v).2.isValue = c.isValue ∧ (c.ins key v).2.isFull = c.isFull := by
  cases c with
  | value w =>
    rw [hw.value_key, ins_nil_key]
    exact ⟨rfl, rfl⟩
  | full ts =>
    cases key with
    | nil => rcases hw.nil_key with h | h <;> cases h
    | cons b rest =>
      by_cases hb : b.toNat < 17
      · rw [ins_full hb]
        exact ⟨rfl, rfl⟩
      · simp [ins, hb]
  | _ => simp [isValue, isFull] at hvf

theorem hasTerm_append_cons (p : List UInt8) {x : UInt8} {r : List UInt8} (hr : r ≠ []) :
    hasTerm (p ++ x :: r) = hasTerm r := by
  simp [hasTerm, List.getLast?_append, List.getLast?_cons, List.getLast?_eq_some_getLast hr]

theorem canon_leaf_value {key : List UInt8} (hkey : TermKey key) (hv : v ≠ []) :
    Canon (leaf key (value v)) := by
  obtain ⟨ns, hns, rfl⟩ := hkey
  obtain ⟨b, rest, hbr⟩ := List.exists_cons_of_ne_nil (show ns ++ [16] ≠ [] by simp)
  have hhex : HexKey (ns ++ [16]) := .inr ⟨ns, hns, rfl⟩
  have hterm : hasTerm (ns ++ [16]) = true := hasTerm_append_term ns
  rw [hbr] at hhex hterm ⊢
  exact ⟨List.cons_ne_nil b rest, hhex, hterm, .inl rfl, hv⟩

theorem canon_split {p krest keyrest : List UInt8} {x y : UInt8} {c : Tree}
    (hc : Canon (short (p ++ x :: krest) c)) (hkey : TermKey (p ++ y :: keyrest)) (hxy : x ≠ y)
    (hx : x.toNat < 17) (hy : y.toNat < 17) (hv : v ≠ []) :
    Canon (leaf p (full (Function.update
      (Function.update (fun _ => nil) ⟨x.toNat, hx⟩ (leaf krest c))
      ⟨y.toNat, hy⟩ (leaf keyrest (value v))))) := by
  obtain ⟨-, hk, hkt, hvf, hcc⟩ := hc
  have hp := nibbles_of_hexKey hk
  have hxk := (hexKey_append hp).1 hk
  have hyk := (termKey_append hp).1 hkey
  have hcn : c.isNil = false := by rcases hvf with h | h <;> cases c <;> simp_all [isValue, isFull, isNil]
  have hfx : (⟨x.toNat, hx⟩ : Fin 17) ≠ ⟨y.toNat, hy⟩ := fun h =>
    hxy (UInt8.toNat_inj.1 (Fin.mk.inj h))
  have hcx : Canon (leaf krest c) ∧ (x.toNat < 16 → (leaf krest c).isValue = false) ∧
      (x.toNat = 16 → (leaf krest c).isNil ∨ (leaf krest c).isValue) := by
    rcases hexKey_cons.1 hxk with ⟨hx16, hkr⟩ | ⟨rfl, rfl⟩
    · have hx16' : x ≠ 16 := fun h => absurd (h ▸ hx16) (by decide)
      cases krest with
      | nil =>
        have hcv : c.isValue = false := by rw [← hkt, hasTerm]; simp [hx16']
        exact ⟨hcc, fun _ => hcv, fun h => absurd h (by have := toNat_lt_16 hx16; omega)⟩
      | cons z r =>
        refine ⟨⟨by simp, hkr, ?_, hvf, hcc⟩, fun _ => rfl,
          fun h => absurd h (by have := toNat_lt_16 hx16; omega)⟩
        rw [← hkt, hasTerm_append_cons p (List.cons_ne_nil z r)]
    · have hcv : c.isValue = true := by rw [← hkt]; simp
      exact ⟨hcc, fun h => absurd h (by decide), fun _ => .inr hcv⟩
  have hcy : Canon (leaf keyrest (value v)) ∧ (y.toNat < 16 → (leaf keyrest (value v)).isValue = false) ∧
      (y.toNat = 16 → (leaf keyrest (value v)).isNil ∨ (leaf keyrest (value v)).isValue) := by
    rcases termKey_cons.1 hyk with ⟨rfl, rfl⟩ | ⟨hy16, hkr⟩
    · exact ⟨hv, fun h => absurd h (by decide), fun _ => .inr rfl⟩
    · obtain ⟨z, r, hzr⟩ := List.exists_cons_of_ne_nil hkr.ne_nil
      exact ⟨canon_leaf_value hkr hv, fun _ => by rw [hzr]; rfl,
        fun h => absurd h (by have := toNat_lt_16 hy16; omega)⟩
  have hfull : Canon (full (Function.update
      (Function.update (fun _ => nil) ⟨x.toNat, hx⟩ (leaf krest c))
      ⟨y.toNat, hy⟩ (leaf keyrest (value v)))) := by
    refine ⟨fun i => ?_, ⟨x.toNat, hx⟩, ⟨y.toNat, hy⟩, hfx, ?_, ?_⟩
    · by_cases hiy : i = ⟨y.toNat, hy⟩
      · subst hiy
        rw [Function.update_self]
        exact hcy
      · rw [Function.update_of_ne hiy]
        by_cases hix : i = ⟨x.toNat, hx⟩
        · subst hix
          rw [Function.update_self]
          exact hcx
        · rw [Function.update_of_ne hix]
          exact ⟨trivial, fun _ => rfl, fun _ => .inl rfl⟩
    · rw [Function.update_of_ne hfx, Function.update_self]
      exact isNil_leaf krest hcn
    · rw [Function.update_self]
      exact isNil_leaf keyrest rfl
  cases p with
  | nil => exact hfull
  | cons z r => exact ⟨by simp, .inl hp, by rw [hasTerm_of_nibbles hp]; rfl, .inr rfl, hfull⟩

/-- `ins` keeps a tree canonical. -/
theorem canon_ins (hv : v ≠ []) : ∀ {t : Tree} {key : List UInt8}, Canon t → Walked t key →
    Canon (t.ins key v).2
  | t, [], _, _ => by
    rw [ins_nil_key]
    exact hv
  | nil, b :: rest, _, hw => by
    rw [ins_nil (List.cons_ne_nil b rest)]
    rcases hw with ⟨hterm, -⟩ | ⟨h, -⟩
    · exact canon_leaf_value hterm hv
    · cases h
  | value w, b :: rest, _, hw => absurd hw.value_key (List.cons_ne_nil b rest)
  | short k c, b :: rest, hc, hw => by
    rcases short_cases hc hw (List.cons_ne_nil b rest) with hm | ⟨p, x, y, krest, keyrest, rfl, hkey, hxy, hx, hy⟩
    · have hk := prefix_of_prefixLen_eq hm
      have hw' := hw.short hc hk
      obtain ⟨hne, hkk, hkt, hvf, hcc⟩ := hc
      obtain ⟨hiv, hif⟩ := ins_kind (v := v) hvf hw'
      rw [ins_short_match (List.cons_ne_nil b rest) hm]
      exact ⟨hne, hkk, hkt.trans hiv.symm, by rw [hiv, hif]; exact hvf,
        canon_ins hv hcc hw'⟩
    · have hterm : TermKey (b :: rest) := by
        rcases hw with ⟨h, -⟩ | ⟨h, -⟩
        · exact h
        · cases h
      rw [hkey, ins_short_split hxy hx hy]
      exact canon_split hc (hkey ▸ hterm) hxy hx hy hv
  | full ts, b :: rest, hc, hw => by
    obtain ⟨hb, hw'⟩ := hw.full hc
    have hterm : TermKey (b :: rest) := by
      rcases hw with ⟨h, -⟩ | ⟨h, -⟩
      · exact h
      · cases h
    obtain ⟨hcs, i, j, hij, hi, hj⟩ := hc
    rw [ins_full hb]
    refine ⟨fun l => ?_, i, j, hij, ?_, ?_⟩
    · by_cases hl : l = ⟨b.toNat, hb⟩
      · subst hl
        rw [Function.update_self]
        refine ⟨canon_ins hv (hcs _).1 hw', fun hlt => ?_, fun h16 => ?_⟩
        · rcases termKey_cons.1 hterm with ⟨rfl, -⟩ | ⟨-, hrest⟩
          · exact absurd hlt (by simp)
          · exact isValue_ins hrest.ne_nil ((hcs _).2.1 hlt)
        · rcases termKey_cons.1 hterm with ⟨-, rfl⟩ | ⟨hb16, -⟩
          · rw [ins_nil_key]
            exact .inr rfl
          · have := toNat_lt_16 hb16
            exact absurd h16 (by simp only; omega)
      · rw [Function.update_of_ne hl]
        exact hcs l
    · by_cases hl : i = ⟨b.toNat, hb⟩
      · rw [hl, Function.update_self]; exact isNil_ins _ _
      · rw [Function.update_of_ne hl]; exact hi
    · by_cases hl : j = ⟨b.toNat, hb⟩
      · rw [hl, Function.update_self]; exact isNil_ins _ _
      · rw [Function.update_of_ne hl]; exact hj

end Canon

/-! ## `del`, case by case -/

section Del

theorem del_clean {t : Tree} {key : List UInt8} (h : (t.del key).1 = false) : (t.del key).2 = t := by
  revert h
  fun_cases del t key
  all_goals first | exact fun _ => rfl | exact fun h => by cases h

theorem extend_of_not_short {k : List UInt8} {t : Tree} (ht : ∀ ck cval, t ≠ short ck cval) :
    extend k t = short k t := by
  cases t with
  | short ck cval => exact absurd rfl (ht ck cval)
  | _ => rfl

theorem mem_occupied {ts : Fin 17 → Tree} {i : Fin 17} : i ∈ occupied ts ↔ (ts i).isNil = false := by
  simp [occupied]

theorem nodup_occupied (ts : Fin 17 → Tree) : (occupied ts).Nodup :=
  (List.nodup_finRange 17).filter _

@[simp] theorem isNil_extend (k : List UInt8) (t : Tree) : (extend k t).isNil = false := by
  cases t <;> rfl

@[simp] theorem isValue_extend (k : List UInt8) (t : Tree) : (extend k t).isValue = false := by
  cases t <;> rfl

@[simp] theorem isNil_collapseFull (ts : Fin 17 → Tree) : (collapseFull ts).isNil = false := by
  unfold collapseFull
  split
  · split
    · exact isNil_extend _ _
    · rfl
  · rfl

@[simp] theorem isValue_collapseFull (ts : Fin 17 → Tree) : (collapseFull ts).isValue = false := by
  unfold collapseFull
  split
  · split
    · exact isValue_extend _ _
    · rfl
  · rfl

@[simp] theorem isValue_del (t : Tree) (key : List UInt8) : (t.del key).2.isValue = false := by
  fun_cases del t key <;> dsimp only
  all_goals first | rfl | exact isValue_extend _ _ | exact isValue_collapseFull _

theorem isNil_del_full (ts : Fin 17 → Tree) (key : List UInt8) :
    ((full ts).del key).2.isNil = false := by
  cases key with
  | nil => rfl
  | cons b rest =>
    simp only [del]
    split
    · split
      · rfl
      · exact isNil_collapseFull _
    · rfl

theorem isNil_del_of_isFull {t : Tree} {key : List UInt8} (h : t.isFull = true) :
    (t.del key).2.isNil = false := by
  cases t with
  | full ts => exact isNil_del_full ts key
  | _ => cases h

theorem del_short_miss {k : List UInt8} {c : Tree} {key : List UInt8}
    (hm : prefixLen key k < k.length) : (short k c).del key = (false, short k c) := by
  simp [del, hm]

theorem del_short_hit {k : List UInt8} {c : Tree} {key : List UInt8}
    (hm : prefixLen key k = k.length) (hl : prefixLen key k = key.length) :
    (short k c).del key = (true, nil) := by
  simp [del, hm, ← hl]

theorem del_short_child {k : List UInt8} {c : Tree} {key : List UInt8}
    (hm : prefixLen key k = k.length) (hl : prefixLen key k ≠ key.length)
    (hc : ∀ ck cval, c ≠ short ck cval) :
    ((short k c).del key).2 = extend k (c.del (key.drop k.length)).2 := by
  have hclean := @del_clean c (key.drop k.length)
  have hl' : k.length ≠ key.length := hm ▸ hl
  simp only [del, hm, lt_irrefl, if_false, hl']
  cases hd : (c.del (key.drop k.length)).1
  · simp only [Bool.not_false, if_true]
    rw [hclean hd, extend_of_not_short hc]
  · rfl

/-- A canonical full node keeps its form through `collapseFull`: it has two children. -/
theorem collapseFull_eq_full {ts : Fin 17 → Tree}
    (h : ∃ i j, i ≠ j ∧ (ts i).isNil = false ∧ (ts j).isNil = false) : collapseFull ts = full ts := by
  obtain ⟨i, j, hij, hi, hj⟩ := h
  unfold collapseFull
  split
  · rename_i pos hpos
    have hi' := mem_occupied.2 hi
    have hj' := mem_occupied.2 hj
    rw [hpos, List.mem_singleton] at hi' hj'
    exact absurd (hi'.trans hj'.symm) hij
  · rfl

theorem del_full {ts : Fin 17 → Tree} {b : UInt8} {rest : List UInt8} (hb : b.toNat < 17)
    (hfull : collapseFull ts = full ts) :
    ((full ts).del (b :: rest)).2 =
      collapseFull (Function.update ts ⟨b.toNat, hb⟩ ((ts ⟨b.toNat, hb⟩).del rest).2) := by
  have hclean := @del_clean (ts ⟨b.toNat, hb⟩) rest
  simp only [del, hb, dite_true]
  cases hd : ((ts ⟨b.toNat, hb⟩).del rest).1
  · simp only [Bool.not_false, if_true]
    rw [hclean hd, Function.update_eq_self, hfull]
  · rfl

end Del

/-! ## `del` removes the one key -/

theorem prefixLen_eq_length {k key : List UInt8} (h : k <+: key) : prefixLen key k = k.length := by
  obtain ⟨r, rfl⟩ := h
  have := prefixLen_append k r []
  rw [List.append_nil] at this
  rw [this]
  cases r <;> rfl

theorem lookup_extend (k : List UInt8) (t : Tree) (key : List UInt8) :
    lookup (extend k t) key = lookup (short k t) key := by
  cases t with
  | short ck cval =>
    show lookup (short (k ++ ck) cval) key = _
    rw [lookup_short, lookup_short]
    by_cases hk : k <+: key
    · obtain ⟨r, rfl⟩ := hk
      simp [lookup_short, List.prefix_append_right_inj, List.drop_append, List.drop_eq_nil_of_le]
    · rw [if_neg hk, if_neg fun h => hk ((List.prefix_append k ck).trans h)]
  | _ => rfl

theorem lookup_short_single {ts : Fin 17 → Tree} {pos : Fin 17}
    (hothers : ∀ j, j ≠ pos → (ts j).isNil = true) (key : List UInt8) :
    lookup (short [pos.val.toUInt8] (ts pos)) key = lookup (full ts) key := by
  cases key with
  | nil => simp [lookup]
  | cons z y =>
    rw [lookup_short]
    by_cases hz : z = pos.val.toUInt8
    · subst hz
      simp [lookup_full_fin]
    · have hp : ¬ [pos.val.toUInt8] <+: z :: y := fun h =>
        hz (List.cons_prefix_cons.1 h).1.symm
      rw [if_neg hp]
      simp only [lookup]
      split
      · rename_i hlt
        have hne : (⟨z.toNat, hlt⟩ : Fin 17) ≠ pos := fun h => hz (by
          rw [← h]
          exact (UInt8.ofNat_toNat).symm)
        have := hothers _ hne
        cases hts : ts ⟨z.toNat, hlt⟩ <;> simp_all [isNil]
      · rfl

theorem lookup_collapseFull (ts : Fin 17 → Tree) (key : List UInt8) :
    lookup (collapseFull ts) key = lookup (full ts) key := by
  unfold collapseFull
  split
  · rename_i pos hpos
    have hothers : ∀ j, j ≠ pos → (ts j).isNil = true := fun j hj => by
      by_contra hn
      have := mem_occupied.2 (Bool.eq_false_iff.2 hn)
      rw [hpos, List.mem_singleton] at this
      exact hj this
    split
    · rw [lookup_extend]
      exact lookup_short_single hothers key
    · exact lookup_short_single hothers key
  · rfl

theorem Canon.not_short {k : List UInt8} {c : Tree} (hc : Canon (short k c)) :
    ∀ ck cval, c ≠ short ck cval := by
  rintro ck cval rfl
  have := hc.2.2.2.1
  simp [isValue, isFull] at this

theorem eq_value_of_isValue {t : Tree} (h : t.isValue = true) : ∃ w, t = value w := by
  cases t with
  | value w => exact ⟨w, rfl⟩
  | _ => cases h

theorem lookup_del : ∀ {t : Tree} {key : List UInt8}, Canon t → Walked t key →
    ∀ key', lookup (t.del key).2 key' = if key' = key then none else lookup t key'
  | nil, _, _, _, key' => by simp [del]
  | value w, key, _, hw, key' => by
    rw [hw.value_key]
    simp only [del, lookup_nil, lookup_value]
    split <;> rfl
  | short k c, key, hc, hw, key' => by
    by_cases hm : prefixLen key k < k.length
    · rw [del_short_miss hm]
      have hnk : lookup (short k c) key = none := by
        rw [lookup_short, if_neg fun h => absurd (prefixLen_eq_length h) (by omega)]
      by_cases he : key' = key
      · rw [if_pos he, he, hnk]
      · rw [if_neg he]
    have hm' : prefixLen key k = k.length := le_antisymm (prefixLen_le_right key k) (not_lt.1 hm)
    have hk := prefix_of_prefixLen_eq hm'
    have hw' := hw.short hc hk
    by_cases hl : prefixLen key k = key.length
    · have hkey : k = key := hk.eq_of_length (by omega)
      rw [del_short_hit hm' hl, lookup_nil]
      by_cases he : key' = key
      · rw [if_pos he]
      · rw [if_neg he, lookup_short]
        split
        · rename_i hk'
          have hcv : c.isValue = true := by
            rw [hkey, List.drop_length] at hw'
            rcases hw'.nil_key with h | h
            · rcases hc.2.2.2.1 with h' | h' <;> cases c <;> simp_all [isNil, isValue, isFull]
            · exact h
          obtain ⟨w, rfl⟩ := eq_value_of_isValue hcv
          rw [lookup_value, if_neg]
          intro hd
          rw [List.drop_eq_nil_iff] at hd
          exact he (hkey ▸ (hk'.eq_of_length (le_antisymm hk'.length_le hd)).symm)
        · rfl
    · rw [del_short_child hm' hl hc.not_short, lookup_extend, lookup_short, lookup_short,
        lookup_del hc.2.2.2.2 hw']
      by_cases hk' : k <+: key'
      · rw [if_pos hk', if_pos hk']
        simp only [drop_eq_drop_iff hk' hk]
      · rw [if_neg hk', if_neg fun he : key' = key => hk' (he ▸ hk), if_neg hk']
  | full ts, [], _, hw, _ => by rcases hw.nil_key with h | h <;> cases h
  | full ts, b :: rest, hc, hw, key' => by
    obtain ⟨hb, hw'⟩ := hw.full hc
    obtain ⟨i, j, hij, hi, hj⟩ := hc.2
    rw [del_full hb (collapseFull_eq_full ⟨i, j, hij, hi, hj⟩), lookup_collapseFull]
    cases key' with
    | nil => simp [lookup]
    | cons z r =>
      rw [lookup_full_update, lookup_del (hc.1 _).1 hw']
      by_cases hz : z = b
      · subst hz
        simp [lookup, hb]
      · have hz' : z.toNat ≠ b.toNat := fun h => hz (UInt8.toNat_inj.1 h)
        rw [if_neg hz', if_neg fun h => hz (List.cons.inj h).1]

/-! ## `del` keeps a tree canonical -/

theorem hasTerm_append (p : List UInt8) {r : List UInt8} (hr : r ≠ []) :
    hasTerm (p ++ r) = hasTerm r := by
  simp [hasTerm, List.getLast?_append, List.getLast?_eq_some_getLast hr]

theorem canon_extend {k : List UInt8} {t : Tree} (hk : k ≠ []) (hn : Nibbles k) (hc : Canon t)
    (hnil : t.isNil = false) (hv : t.isValue = false) : Canon (extend k t) := by
  cases t with
  | short ck cval =>
    obtain ⟨hne, hck, hct, hvf, hcc⟩ := hc
    exact ⟨by simp [hk], (hexKey_append hn).2 hck, (hasTerm_append k hne).trans hct, hvf, hcc⟩
  | full ts => exact ⟨hk, .inl hn, hasTerm_of_nibbles hn, .inr rfl, hc⟩
  | nil => cases hnil
  | value w => cases hv

/-- The slot conditions of a canonical full node, without the two children. -/
def FullOk (ts : Fin 17 → Tree) : Prop :=
  ∀ i : Fin 17, Canon (ts i) ∧ (i.val < 16 → (ts i).isValue = false) ∧
    (i.val = 16 → (ts i).isNil ∨ (ts i).isValue)

theorem canon_collapseFull {ts : Fin 17 → Tree} (hcs : FullOk ts) (hne : ∃ i, (ts i).isNil = false) :
    Canon (collapseFull ts) := by
  obtain ⟨i, hi⟩ := hne
  unfold collapseFull
  split
  · rename_i pos hpos
    have hpn : (ts pos).isNil = false := mem_occupied.1 (by rw [hpos]; exact List.mem_singleton_self pos)
    split
    · have hlt : pos.val < 16 := by omega
      have hn : Nibbles [pos.val.toUInt8] := by
        simp only [nibbles_cons, nibbles_nil, and_true, UInt8.lt_iff_toNat_lt, toNat_toUInt8_fin]
        exact hlt
      exact canon_extend (List.cons_ne_nil _ _) hn (hcs pos).1 hpn ((hcs pos).2.1 hlt)
    · have h16 : pos.val = 16 := by omega
      have hv : (ts pos).isValue = true := by
        rcases (hcs pos).2.2 h16 with h | h
        · rw [hpn] at h
          cases h
        · exact h
      have hp : pos.val.toUInt8 = 16 := by rw [h16]; rfl
      rw [hp]
      exact ⟨List.cons_ne_nil _ _, .inr ⟨[], nibbles_nil, rfl⟩, hv.symm ▸ rfl, .inl hv, (hcs pos).1⟩
  · rename_i hnot
    refine ⟨hcs, ?_⟩
    have hmem := mem_occupied.2 hi
    have hnd := nodup_occupied ts
    obtain ⟨a, l, hal⟩ := List.exists_cons_of_ne_nil (List.ne_nil_of_mem hmem)
    cases l with
    | nil => exact absurd hal (hnot a)
    | cons b l =>
      rw [hal] at hnd
      have ha := mem_occupied.1 (hal ▸ List.mem_cons_self : a ∈ occupied ts)
      have hb := mem_occupied.1 (hal ▸ List.mem_cons_of_mem a List.mem_cons_self : b ∈ occupied ts)
      exact ⟨a, b, fun h => (List.nodup_cons.1 hnd).1 (h ▸ List.mem_cons_self), ha, hb⟩

theorem del_nil_key {t : Tree} (h : t.isNil ∨ t.isValue) : (t.del []).2 = nil := by
  cases t <;> simp_all [del, isNil, isValue]

/-- `del` keeps a tree canonical. -/
theorem canon_del : ∀ {t : Tree} {key : List UInt8}, Canon t → Walked t key → Canon (t.del key).2
  | nil, _, _, _ => trivial
  | value _, _, _, _ => trivial
  | short k c, key, hc, hw => by
    by_cases hm : prefixLen key k < k.length
    · rw [del_short_miss hm]
      exact hc
    have hm' : prefixLen key k = k.length := le_antisymm (prefixLen_le_right key k) (not_lt.1 hm)
    have hk := prefix_of_prefixLen_eq hm'
    have hw' := hw.short hc hk
    by_cases hl : prefixLen key k = key.length
    · rw [del_short_hit hm' hl]
      trivial
    have hcs := hc.not_short
    obtain ⟨hne, hkk, hkt, hvf, hcc⟩ := hc
    have hterm : TermKey key := by
      rcases hw with ⟨h, -⟩ | ⟨-, h⟩
      · exact h
      · simp [isNil, isValue] at h
    have ht : hasTerm k = false := by
      cases ht : hasTerm k
      · rfl
      · have hke : k = key := TermKey.eq_of_prefix (termKey_of_hasTerm hkk ht) hterm hk
        exact absurd (hm'.trans (congrArg List.length hke)) hl
    have hcf : c.isFull = true := by
      rcases hvf with h | h
      · rw [← hkt, ht] at h
        cases h
      · exact h
    rw [del_short_child hm' hl hcs]
    exact canon_extend hne (nibbles_of_not_hasTerm hkk ht) (canon_del hcc hw') (isNil_del_of_isFull hcf)
      (isValue_del _ _)
  | full ts, [], _, hw => by rcases hw.nil_key with h | h <;> cases h
  | full ts, b :: rest, hc, hw => by
    obtain ⟨hb, hw'⟩ := hw.full hc
    obtain ⟨hcs, i, j, hij, hi, hj⟩ := hc
    rw [del_full hb (collapseFull_eq_full ⟨i, j, hij, hi, hj⟩)]
    refine canon_collapseFull (fun l => ?_) ?_
    · by_cases hl : l = ⟨b.toNat, hb⟩
      · subst hl
        rw [Function.update_self]
        refine ⟨canon_del (hcs _).1 hw', fun _ => isValue_del _ _, fun h16 => .inl ?_⟩
        have hrest : rest = [] := by
          rcases hw with ⟨hterm, -⟩ | ⟨h, -⟩
          · rcases termKey_cons.1 hterm with ⟨-, rfl⟩ | ⟨hb16, -⟩
            · rfl
            · exact absurd h16 (by have := toNat_lt_16 hb16; simp only; omega)
          · cases h
        subst hrest
        rw [del_nil_key ((hcs _).2.2 h16)]
        rfl
      · rw [Function.update_of_ne hl]
        exact hcs l
    · by_cases hl : i = ⟨b.toNat, hb⟩
      · refine ⟨j, ?_⟩
        rw [Function.update_of_ne (hl ▸ hij.symm)]
        exact hj
      · exact ⟨i, by rw [Function.update_of_ne hl]; exact hi⟩

/-! ## The map a tree holds

Walked with the hex form of a key, `ins` and `del` change the map of the tree at that key only,
and keep its values at hex keys of bounded length. -/

section Contents

variable {t : Tree}

theorem KeysOk.walked (hk : t.KeysOk) (key : Bytes) : Walked t (keybytesToHex key) :=
  .inl ⟨termKey_keybytesToHex key, fun k hkey => by
    obtain ⟨b, rfl⟩ := hk k hkey
    exact termKey_keybytesToHex b⟩

/-- A tree of values at hex keys is no value itself: the empty key is no hex key. -/
theorem KeysOk.isValue (hk : t.KeysOk) : t.isValue = false := by
  cases t with
  | value v =>
    obtain ⟨b, hb⟩ := hk [] (by simp [HasKey, lookup_value])
    have := congrArg List.length hb
    simp at this
  | _ => rfl

variable (hc : t.Canon) (hk : t.KeysOk) (key : Bytes)
include hc hk

theorem contents_ins (v : Bytes) :
    (t.ins (keybytesToHex key) v).2.contents = Function.update t.contents key (some v) := by
  funext b
  rw [contents, lookup_ins hc (hk.walked key), Function.update_apply]
  simp only [keybytesToHex_injective.eq_iff]
  rfl

theorem contents_del :
    (t.del (keybytesToHex key)).2.contents = Function.update t.contents key none := by
  funext b
  rw [contents, lookup_del hc (hk.walked key), Function.update_apply]
  simp only [keybytesToHex_injective.eq_iff]
  rfl

theorem KeysOk.ins (v : Bytes) : (t.ins (keybytesToHex key) v).2.KeysOk := by
  intro k hkey
  rw [HasKey, lookup_ins hc (hk.walked key)] at hkey
  split_ifs at hkey with he
  · exact ⟨key, he⟩
  · exact hk k hkey

theorem KeysOk.del : (t.del (keybytesToHex key)).2.KeysOk := by
  intro k hkey
  rw [HasKey, lookup_del hc (hk.walked key)] at hkey
  split_ifs at hkey
  · cases hkey
  · exact hk k hkey

theorem Bounded.ins {v : Bytes} (hb : t.Bounded) (hkey : (keybytesToHex key).length < 2 ^ 62)
    (hv : v.length < 2 ^ 62) : (t.ins (keybytesToHex key) v).2.Bounded := by
  intro k w hw
  rw [lookup_ins hc (hk.walked key)] at hw
  split_ifs at hw with he
  · cases hw
    exact ⟨he ▸ hkey, hv⟩
  · exact hb k w hw

theorem Bounded.del (hb : t.Bounded) : (t.del (keybytesToHex key)).2.Bounded := by
  intro k w hw
  rw [lookup_del hc (hk.walked key)] at hw
  split_ifs at hw
  exact hb k w hw

end Contents

end Tree

end Sphinx.Trie
