import Sphinx.Trie.Encoding

/-! # What a trie holds

The contents of a trie as a tree without hash nodes and cache flags: nil, a value, a
short node with a key of nibbles, or a full node of seventeen children, the last of which
holds the value of the key that ends at the node. `lookup` follows a hex key down the tree.

A tree is in canonical minimal form (`Canon`) when every short node has a non-empty key
that ends in the terminator exactly when its child is a value, and a child that is a value
or a full node; and every full node has two non-nil children and holds values only under
the terminator. Canonical trees that agree on every lookup are equal (`eq_of_lookup`): the
form of a trie is a function of its contents, which is what makes its root hash one.
-/

namespace Sphinx.Trie

inductive Tree where
  | nil
  | value (v : Bytes)
  | short (key : List UInt8) (val : Tree)
  | full (children : Fin 17 → Tree)

namespace Tree

def isNil : Tree → Bool
  | nil => true
  | _ => false

def isValue : Tree → Bool
  | value _ => true
  | _ => false

def isFull : Tree → Bool
  | full _ => true
  | _ => false

/-- The value at a hex key. -/
def lookup : Tree → List UInt8 → Option Bytes
  | nil, _ => none
  | value v, key => if key = [] then some v else none
  | short k t, key => if k <+: key then lookup t (key.drop k.length) else none
  | full _, [] => none
  | full ts, i :: key => if h : i.toNat < 17 then lookup (ts ⟨i.toNat, h⟩) key else none

/-- The tree holds a value at `key`. -/
def HasKey (t : Tree) (key : List UInt8) : Prop :=
  (t.lookup key).isSome

/-- Canonical minimal form. -/
def Canon : Tree → Prop
  | nil => True
  | value v => v ≠ []
  | short k t => k ≠ [] ∧ HexKey k ∧ hasTerm k = t.isValue ∧ (t.isValue ∨ t.isFull) ∧ Canon t
  | full ts =>
    (∀ i : Fin 17, Canon (ts i) ∧ (i.val < 16 → (ts i).isValue = false) ∧
      (i.val = 16 → (ts i).isNil ∨ (ts i).isValue)) ∧
    ∃ i j, i ≠ j ∧ (ts i).isNil = false ∧ (ts j).isNil = false

/-- The map of keys to values a tree holds. -/
def contents (t : Tree) (key : Bytes) : Option Bytes :=
  t.lookup (keybytesToHex key)

/-- Every value sits at the hex form of a key. -/
def KeysOk (t : Tree) : Prop :=
  ∀ k, t.HasKey k → ∃ b, k = keybytesToHex b

/-- Keys and values short enough for the RLP headers of the nodes that hold them. -/
def Bounded (t : Tree) : Prop :=
  ∀ k v, t.lookup k = some v → k.length < 2 ^ 62 ∧ v.length < 2 ^ 62

/-! ## Lookups -/

@[simp] theorem lookup_nil (key : List UInt8) : lookup nil key = none := rfl

theorem lookup_value (v : Bytes) (key : List UInt8) :
    lookup (value v) key = if key = [] then some v else none := rfl

theorem lookup_short (k : List UInt8) (t : Tree) (key : List UInt8) :
    lookup (short k t) key = if k <+: key then lookup t (key.drop k.length) else none := rfl

@[simp] theorem lookup_short_append (k : List UInt8) (t : Tree) (rest : List UInt8) :
    lookup (short k t) (k ++ rest) = lookup t rest := by
  simp [lookup_short]

theorem toNat_toUInt8_fin (i : Fin 17) : i.val.toUInt8.toNat = i.val :=
  UInt8.toNat_ofNat_of_lt' (lt_trans i.isLt (by decide))

@[simp] theorem lookup_full_fin (ts : Fin 17 → Tree) (i : Fin 17) (rest : List UInt8) :
    lookup (full ts) (i.val.toUInt8 :: rest) = lookup (ts i) rest := by
  have hi := toNat_toUInt8_fin i
  simp only [lookup, hi, i.isLt, dite_true]

theorem lookup_short_some {k : List UInt8} {t : Tree} {key : List UInt8} {v : Bytes}
    (h : lookup (short k t) key = some v) : ∃ rest, key = k ++ rest ∧ lookup t rest = some v := by
  rw [lookup_short] at h
  split_ifs at h with hk
  obtain ⟨rest, rfl⟩ := hk
  exact ⟨rest, rfl, by simpa using h⟩

theorem lookup_full_some {ts : Fin 17 → Tree} {key : List UInt8} {v : Bytes}
    (h : lookup (full ts) key = some v) :
    ∃ (i : Fin 17) (rest : List UInt8), key = i.val.toUInt8 :: rest ∧ lookup (ts i) rest = some v := by
  cases key with
  | nil => simp [lookup] at h
  | cons b rest =>
    simp only [lookup] at h
    split_ifs at h with hb
    refine ⟨⟨b.toNat, hb⟩, rest, ?_, h⟩
    simp

/-! ## Keys of canonical trees -/

/-- A canonical tree that is not nil holds a value. -/
theorem Canon.exists_key : ∀ {t : Tree}, Canon t → t.isNil = false → ∃ k, t.HasKey k
  | value v, _, _ => ⟨[], by simp [HasKey, lookup_value]⟩
  | short k t, ⟨_, _, _, ht, hc⟩, _ => by
    have hn : t.isNil = false := by
      rcases ht with h | h <;> cases t <;> simp_all [isValue, isFull, isNil]
    obtain ⟨k', hk'⟩ := Canon.exists_key hc hn
    exact ⟨k ++ k', by simpa [HasKey] using hk'⟩
  | full ts, ⟨hcs, i, _, _, hi, _⟩, _ => by
    obtain ⟨k', hk'⟩ := Canon.exists_key (hcs i).1 hi
    exact ⟨i.val.toUInt8 :: k', by simpa [HasKey] using hk'⟩
  | nil, _, h => by simp [isNil] at h

theorem hasKey_short {k : List UInt8} {t : Tree} {key : List UInt8} (h : (short k t).HasKey key) :
    ∃ rest, key = k ++ rest ∧ t.HasKey rest := by
  obtain ⟨v, hv⟩ := Option.isSome_iff_exists.mp h
  obtain ⟨rest, rfl, hr⟩ := lookup_short_some hv
  exact ⟨rest, rfl, by simp [HasKey, hr]⟩

theorem Canon.two_keys {ts : Fin 17 → Tree} (h : Canon (full ts)) :
    ∃ (i j : Fin 17) (a b : List UInt8), i ≠ j ∧ (full ts).HasKey (i.val.toUInt8 :: a) ∧
      (full ts).HasKey (j.val.toUInt8 :: b) := by
  obtain ⟨hcs, i, j, hij, hi, hj⟩ := h
  obtain ⟨a, ha⟩ := Canon.exists_key (hcs i).1 hi
  obtain ⟨b, hb⟩ := Canon.exists_key (hcs j).1 hj
  exact ⟨i, j, a, b, hij, by simpa [HasKey] using ha, by simpa [HasKey] using hb⟩

theorem hasKey_value {v : Bytes} {key : List UInt8} : (value v).HasKey key ↔ key = [] := by
  simp only [HasKey, lookup_value]
  split_ifs <;> simp_all

theorem prefix_of_diverge {k k' a b : List UInt8} {i j : UInt8} (hij : i ≠ j)
    (h1 : k' <+: k ++ i :: a) (h2 : k' <+: k ++ j :: b) : k' <+: k := by
  by_cases hl : k'.length ≤ k.length
  · exact List.prefix_of_prefix_length_le h1 (List.prefix_append k (i :: a)) hl
  · have hk : k.length < k'.length := by omega
    have e1 := h1.getElem hk
    have e2 := h2.getElem hk
    simp only [List.getElem_append_right (Nat.le_refl _), Nat.sub_self,
      List.getElem_cons_zero] at e1 e2
    exact absurd (e1.symm.trans e2) hij

theorem Canon.short_keys {k : List UInt8} {t : Tree} (h : Canon (short k t)) (ht : t.isFull) :
    ∃ (i j : UInt8) (a b : List UInt8), i ≠ j ∧ (short k t).HasKey (k ++ i :: a) ∧
      (short k t).HasKey (k ++ j :: b) := by
  cases t with
  | full ts =>
    obtain ⟨i, j, a, b, hij, ha, hb⟩ := Canon.two_keys h.2.2.2.2
    refine ⟨i.val.toUInt8, j.val.toUInt8, a, b, ?_, by simpa [HasKey] using ha,
      by simpa [HasKey] using hb⟩
    intro he
    apply hij
    apply Fin.ext
    rw [← toNat_toUInt8_fin i, ← toNat_toUInt8_fin j, he]
  | _ => simp [isFull] at ht

/-! ## Canonical trees are determined by their lookups -/

section Unique

variable {k k' : List UInt8} {t t' : Tree}

theorem hasKey_iff_of_lookup {t t' : Tree} (h : ∀ key, lookup t key = lookup t' key)
    (key : List UInt8) : t.HasKey key ↔ t'.HasKey key := by
  simp [HasKey, h key]

theorem Canon.short_key_eq (hc : Canon (short k t)) (hc' : Canon (short k' t'))
    (h : ∀ key, lookup (short k t) key = lookup (short k' t') key) : k = k' := by
  have hiff := hasKey_iff_of_lookup h
  have hpre : ∀ key, (short k t).HasKey key → k <+: key ∧ k' <+: key := fun key hk => by
    obtain ⟨r, rfl, -⟩ := hasKey_short hk
    obtain ⟨r', he, -⟩ := hasKey_short ((hiff _).mp hk)
    exact ⟨List.prefix_append k r, he ▸ List.prefix_append k' r'⟩
  rcases hc.2.2.2.1 with hv | hf
  · cases t with
    | value v =>
      have hk : (short k (value v)).HasKey k := by
        have : lookup (short k (value v)) k = some v := by
          simpa [lookup_value] using lookup_short_append k (value v) []
        simp [HasKey, this]
      have hk' := (hiff k).mp hk
      rcases hc'.2.2.2.1 with hv' | hf'
      · cases t' with
        | value v' =>
          obtain ⟨r, he, hr⟩ := hasKey_short hk'
          have := hasKey_value.mp hr
          simp [this] at he
          exact he
        | _ => simp [isValue] at hv'
      · obtain ⟨i, j, a, b, hij, ha, hb⟩ := Canon.short_keys hc' hf'
        obtain ⟨r, he, hr⟩ := hasKey_short ((hiff _).mpr ha)
        obtain ⟨r', he', hr'⟩ := hasKey_short ((hiff _).mpr hb)
        rw [hasKey_value.mp hr, List.append_nil] at he
        rw [hasKey_value.mp hr', List.append_nil] at he'
        have := List.append_cancel_left (he.trans he'.symm)
        simp [hij] at this
    | _ => simp [isValue] at hv
  · obtain ⟨i, j, a, b, hij, ha, hb⟩ := Canon.short_keys hc hf
    have h1 := (hpre _ ha).2
    have h2 := (hpre _ hb).2
    have hk'k : k' <+: k := prefix_of_diverge hij h1 h2
    rcases hc'.2.2.2.1 with hv' | hf'
    · cases t' with
      | value v' =>
        obtain ⟨r, he, hr⟩ := hasKey_short ((hiff _).mp ha)
        obtain ⟨r', he', hr'⟩ := hasKey_short ((hiff _).mp hb)
        rw [hasKey_value.mp hr, List.append_nil] at he
        rw [hasKey_value.mp hr', List.append_nil] at he'
        have := List.append_cancel_left (he.trans he'.symm)
        simp [hij] at this
      | _ => simp [isValue] at hv'
    · obtain ⟨i', j', a', b', hij', ha', hb'⟩ := Canon.short_keys hc' hf'
      have h1' := (hpre _ ((hiff _).mpr ha')).1
      have h2' := (hpre _ ((hiff _).mpr hb')).1
      exact List.IsPrefix.eq_of_length (prefix_of_diverge hij' h1' h2')
        (Nat.le_antisymm hk'k.length_le (prefix_of_diverge hij' h1' h2').length_le).symm

theorem Canon.short_ne_full {ts : Fin 17 → Tree} (hc : Canon (short k t))
    (hc' : Canon (full ts)) : ∃ key, lookup (short k t) key ≠ lookup (full ts) key := by
  by_contra hall
  simp only [not_exists, not_not] at hall
  have hiff := hasKey_iff_of_lookup hall
  obtain ⟨i, j, a, b, hij, ha, hb⟩ := Canon.two_keys hc'
  obtain ⟨r, he, -⟩ := hasKey_short ((hiff _).mpr ha)
  obtain ⟨r', he', -⟩ := hasKey_short ((hiff _).mpr hb)
  obtain ⟨x, k₁, rfl⟩ := List.exists_cons_of_ne_nil hc.1
  simp only [List.cons_append, List.cons.injEq] at he he'
  apply hij
  apply Fin.ext
  rw [← toNat_toUInt8_fin i, ← toNat_toUInt8_fin j, he.1, he'.1]

theorem eq_of_lookup : ∀ {t t' : Tree}, Canon t → Canon t' →
    (∀ key, lookup t key = lookup t' key) → t = t'
  | nil, t', _, hc', h => by
    by_contra hne
    have hn : t'.isNil = false := by cases t' <;> simp_all [isNil]
    obtain ⟨key, hk⟩ := Canon.exists_key hc' hn
    simp [HasKey, ← h key] at hk
  | t, nil, hc, _, h => by
    by_contra hne
    have hn : t.isNil = false := by cases t <;> simp_all [isNil]
    obtain ⟨key, hk⟩ := Canon.exists_key hc hn
    simp [HasKey, h key] at hk
  | value v, value v', _, _, h => by simpa [lookup_value] using h []
  | value v, short k' t', _, hc', h => by
    have := h []
    simp only [lookup_value, if_true, lookup_short, List.prefix_nil] at this
    simp [hc'.1] at this
  | value v, full ts', _, _, h => by simpa [lookup_value, lookup] using h []
  | short k t, value v', hc, _, h => by
    have := h []
    simp only [lookup_value, if_true, lookup_short, List.prefix_nil] at this
    simp [hc.1] at this
  | full ts, value v', _, _, h => by simpa [lookup_value, lookup] using h []
  | short k t, short k' t', hc, hc', h => by
    obtain rfl := Canon.short_key_eq hc hc' h
    have ht : t = t' := eq_of_lookup hc.2.2.2.2 hc'.2.2.2.2 fun rest => by
      simpa using h (k ++ rest)
    rw [ht]
  | short k t, full ts', hc, hc', h => by
    obtain ⟨key, hk⟩ := Canon.short_ne_full hc hc'
    exact absurd (h key) hk
  | full ts, short k' t', hc, hc', h => by
    obtain ⟨key, hk⟩ := Canon.short_ne_full hc' hc
    exact absurd (h key).symm hk
  | full ts, full ts', hc, hc', h => by
    have hts : ts = ts' := funext fun i => eq_of_lookup (hc.1 i).1 (hc'.1 i).1 fun rest => by
      simpa using h (i.val.toUInt8 :: rest)
    rw [hts]

/-- Canonical trees whose values sit at hex keys and that hold the same map are equal. -/
theorem eq_of_contents (hc : Canon t) (hc' : Canon t') (hk : KeysOk t) (hk' : KeysOk t')
    (h : t.contents = t'.contents) : t = t' := by
  refine eq_of_lookup hc hc' fun key => ?_
  by_cases hkey : ∃ b, key = keybytesToHex b
  · obtain ⟨b, rfl⟩ := hkey
    exact congrFun h b
  · simp only [not_exists] at hkey
    have h1 : lookup t key = none := by
      by_contra hs
      obtain ⟨b, hb⟩ := hk key (Option.isSome_iff_ne_none.mpr hs)
      exact hkey b hb
    have h2 : lookup t' key = none := by
      by_contra hs
      obtain ⟨b, hb⟩ := hk' key (Option.isSome_iff_ne_none.mpr hs)
      exact hkey b hb
    rw [h1, h2]

end Unique

end Tree

end Sphinx.Trie
