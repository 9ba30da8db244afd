import Sphinx.Common.Types

/-! # Trie keys

`encoding.go` deals with keys in three encodings. KEYBYTES is the key itself. HEX has
one byte for each nibble of the key and an optional terminator 16, which says that the
node at the key holds a value; nodes in memory use it. COMPACT (hex-prefix) packs the
nibbles two to a byte behind a flag byte whose high nibble holds the oddness of the
length and the terminator; nodes on disk use it.

A hex key is well formed when it is nibbles below 16, then possibly the terminator
(`HexKey`); on such keys `compactToHex` inverts `hexToCompact`
(`compactToHex_hexToCompact`), and `hexToKeybytes` inverts `keybytesToHex` on every key.
The hasher passes `hexToCompact` hex keys only.
-/

namespace Sphinx.Trie

/-- `hasTerm`: the key ends in the terminator. -/
def hasTerm (s : List UInt8) : Bool :=
  s.getLast? == some 16

def keybytesToHex (str : List UInt8) : List UInt8 :=
  str.flatMap (fun b => [b / 16, b % 16]) ++ [16]

/-- `decodeNibbles`: two nibbles to a byte. The source reads past the end of an input of
odd length; its callers pass even ones. -/
def decodeNibbles : List UInt8 → List UInt8
  | n0 :: n1 :: rest => (n0 <<< 4 ||| n1) :: decodeNibbles rest
  | _ => []

def hexToCompact (hex : List UInt8) : List UInt8 :=
  let terminator : UInt8 := if hasTerm hex then 1 else 0
  let hex := if hasTerm hex then hex.dropLast else hex
  if hex.length % 2 = 1 then
    -- the first nibble goes into the flag byte
    (terminator <<< 5 ||| (1 : UInt8) <<< 4 ||| hex.headD 0) :: decodeNibbles hex.tail
  else (terminator <<< 5) :: decodeNibbles hex

/-- `compactToHex`; `none` is the panic on `base[0]` of an empty compact key. -/
def compactToHex (compact : List UInt8) : Option (List UInt8) :=
  match (keybytesToHex compact).dropLast with
  | [] => none
  | b0 :: rest =>
    let base := if b0 ≥ 2 then b0 :: rest ++ [16] else b0 :: rest
    some (base.drop (2 - (b0 &&& 1).toNat))

/-- `hexToKeybytes`: the key bytes of a hex key of even length; `none` is the panic on
an odd one. -/
def hexToKeybytes (hex : List UInt8) : Option (List UInt8) :=
  let hex := if hasTerm hex then hex.dropLast else hex
  if hex.length % 2 ≠ 0 then none else some (decodeNibbles hex)

/-- `prefixLen`: the length of the common prefix of `a` and `b`. -/
def prefixLen : List UInt8 → List UInt8 → ℕ
  | x :: a, y :: b => if x = y then prefixLen a b + 1 else 0
  | _, _ => 0

/-! ## Well-formed hex keys -/

/-- Every byte is a nibble. -/
def Nibbles (ns : List UInt8) : Prop :=
  ∀ n ∈ ns, n < 16

instance (ns : List UInt8) : Decidable (Nibbles ns) :=
  decidable_of_iff (ns.all fun n => n < 16) (by simp [Nibbles])

/-- A hex key: nibbles, then possibly the terminator. -/
def HexKey (k : List UInt8) : Prop :=
  Nibbles k ∨ ∃ ns, Nibbles ns ∧ k = ns ++ [16]

@[simp] theorem nibbles_nil : Nibbles [] := by simp [Nibbles]

@[simp] theorem nibbles_cons {n : UInt8} {ns : List UInt8} :
    Nibbles (n :: ns) ↔ n < 16 ∧ Nibbles ns := by
  simp [Nibbles]

@[simp] theorem nibbles_append {ns ms : List UInt8} :
    Nibbles (ns ++ ms) ↔ Nibbles ns ∧ Nibbles ms := by
  simp only [Nibbles, List.mem_append]
  grind

theorem hasTerm_of_nibbles {ns : List UInt8} (h : Nibbles ns) : hasTerm ns = false := by
  cases hl : ns.getLast? with
  | none => simp [hasTerm, hl]
  | some n =>
    have hn : n < 16 := h n (List.mem_of_getLast? hl)
    have : n ≠ 16 := by rintro rfl; exact absurd hn (by decide)
    simp [hasTerm, hl, this]

@[simp] theorem hasTerm_append_term (ns : List UInt8) : hasTerm (ns ++ [16]) = true := by
  simp [hasTerm]

/-! ## Nibble arithmetic -/

theorem combine_nibbles {a b : UInt8} (ha : a < 16) (hb : b < 16) :
    (a <<< 4 ||| b) / 16 = a ∧ (a <<< 4 ||| b) % 16 = b := by
  have key : ∀ x y : Fin 16, ((x.val.toUInt8 <<< 4 ||| y.val.toUInt8) / 16 = x.val.toUInt8) ∧
      ((x.val.toUInt8 <<< 4 ||| y.val.toUInt8) % 16 = y.val.toUInt8) := by
    decide
  have ha' : a.toNat < 16 := by simpa [UInt8.lt_iff_toNat_lt] using ha
  have hb' : b.toNat < 16 := by simpa [UInt8.lt_iff_toNat_lt] using hb
  simpa using key ⟨a.toNat, ha'⟩ ⟨b.toNat, hb'⟩

theorem flag_nibbles {t : Bool} {n : UInt8} (hn : n < 16) :
    ((if t then (1 : UInt8) else 0) <<< 5 ||| (1 : UInt8) <<< 4 ||| n) / 16 = (if t then 3 else 1) ∧
      ((if t then (1 : UInt8) else 0) <<< 5 ||| (1 : UInt8) <<< 4 ||| n) % 16 = n := by
  have key : ∀ x : Fin 16, ∀ t : Bool,
      ((if t then (1 : UInt8) else 0) <<< 5 ||| (1 : UInt8) <<< 4 ||| x.val.toUInt8) / 16 =
        (if t then 3 else 1) ∧
      ((if t then (1 : UInt8) else 0) <<< 5 ||| (1 : UInt8) <<< 4 ||| x.val.toUInt8) % 16 =
        x.val.toUInt8 := by
    decide
  have hn' : n.toNat < 16 := by simpa [UInt8.lt_iff_toNat_lt] using hn
  simpa using key ⟨n.toNat, hn'⟩ t

theorem nibbles_decodeNibbles :
    ∀ {ns : List UInt8}, Nibbles ns → ns.length % 2 = 0 →
      (decodeNibbles ns).flatMap (fun b => [b / 16, b % 16]) = ns
  | [], _, _ => rfl
  | [_], _, h => by simp at h
  | a :: b :: rest, hn, hl => by
    simp only [nibbles_cons] at hn
    obtain ⟨h₁, h₂⟩ := combine_nibbles hn.1 hn.2.1
    have hrest : rest.length % 2 = 0 := by simp at hl; omega
    have ih := nibbles_decodeNibbles hn.2.2 hrest
    simp [decodeNibbles, h₁, h₂, ih]

/-! ## The round trip -/

theorem dropLast_keybytesToHex (str : List UInt8) :
    (keybytesToHex str).dropLast = str.flatMap (fun b => [b / 16, b % 16]) := by
  simp [keybytesToHex]

theorem compactToHex_body {ns : List UInt8} (hn : Nibbles ns) (t : Bool) :
    compactToHex (if ns.length % 2 = 1 then
        ((if t then (1 : UInt8) else 0) <<< 5 ||| (1 : UInt8) <<< 4 ||| ns.headD 0) ::
          decodeNibbles ns.tail
      else ((if t then (1 : UInt8) else 0) <<< 5) :: decodeNibbles ns) =
      some (if t then ns ++ [16] else ns) := by
  by_cases hodd : ns.length % 2 = 1
  · obtain ⟨n, rest, rfl⟩ : ∃ n rest, ns = n :: rest := by
      cases ns with
      | nil => simp at hodd
      | cons n rest => exact ⟨n, rest, rfl⟩
    simp only [nibbles_cons] at hn
    have hrest : rest.length % 2 = 0 := by simp at hodd; omega
    obtain ⟨f₁, f₂⟩ := @flag_nibbles t _ hn.1
    simp only [hodd, if_true, List.headD_cons, List.tail_cons, compactToHex,
      dropLast_keybytesToHex, List.flatMap_cons, List.cons_append, List.nil_append, f₁, f₂,
      nibbles_decodeNibbles hn.2 hrest]
    cases t <;> simp
  · have heven : ns.length % 2 = 0 := by omega
    have f₁ : ((if t then (1 : UInt8) else 0) <<< 5) / 16 = if t then 2 else 0 := by
      cases t <;> decide
    have f₂ : ((if t then (1 : UInt8) else 0) <<< 5) % 16 = 0 := by
      cases t <;> decide
    simp only [hodd, if_false, compactToHex, dropLast_keybytesToHex, List.flatMap_cons,
      List.cons_append, List.nil_append, f₁, f₂, nibbles_decodeNibbles hn heven]
    cases t <;> simp

/-- `compactToHex` inverts `hexToCompact` on hex keys. -/
theorem compactToHex_hexToCompact {k : List UInt8} (hk : HexKey k) :
    compactToHex (hexToCompact k) = some k := by
  rcases hk with hk | ⟨ns, hn, rfl⟩
  · simpa [hexToCompact, hasTerm_of_nibbles hk] using compactToHex_body hk false
  · simpa [hexToCompact] using compactToHex_body hn true

theorem combine_div_mod : ∀ b : UInt8, (b / 16) <<< 4 ||| b % 16 = b := by
  decide +kernel

theorem decodeNibbles_flatMap :
    ∀ str : List UInt8, decodeNibbles (str.flatMap fun b => [b / 16, b % 16]) = str
  | [] => rfl
  | b :: str => by
    simp only [List.flatMap_cons, List.cons_append, List.nil_append, decodeNibbles,
      combine_div_mod, decodeNibbles_flatMap str]

/-- `hexToKeybytes` inverts `keybytesToHex`. -/
theorem hexToKeybytes_keybytesToHex (str : List UInt8) :
    hexToKeybytes (keybytesToHex str) = some str := by
  have hterm : hasTerm (keybytesToHex str) = true := by
    simp [keybytesToHex]
  have heven : (str.flatMap fun b => [b / 16, b % 16]).length % 2 = 0 := by
    simp [List.length_flatMap]
  simp only [hexToKeybytes, hterm, if_true, dropLast_keybytesToHex, heven, ne_eq,
    not_true_eq_false, if_false, decodeNibbles_flatMap]

/-- Different keys have different hex forms. -/
theorem keybytesToHex_injective : Function.Injective keybytesToHex := fun a b h => by
  have ha := hexToKeybytes_keybytesToHex a
  rw [h, hexToKeybytes_keybytesToHex] at ha
  exact (Option.some.inj ha).symm

@[simp] theorem length_keybytesToHex (str : List UInt8) :
    (keybytesToHex str).length = 2 * str.length + 1 := by
  simp [keybytesToHex, List.length_flatMap, Nat.mul_comm]

theorem trie_key_encodings :
    (∀ k, hexToKeybytes (keybytesToHex k) = some k) ∧
    (∀ h, HexKey h → compactToHex (hexToCompact h) = some h) ∧
    (∀ h, HexKey h → (compactToHex (hexToCompact h)).map hexToCompact = some (hexToCompact h)) :=
  ⟨hexToKeybytes_keybytesToHex, fun _ hk => compactToHex_hexToCompact hk,
    fun _ hk => by rw [compactToHex_hexToCompact hk]; rfl⟩

/-- An odd key with a terminator, the case where the flag byte holds both flags. -/
theorem trie_key_encodings_odd_term :
    HexKey [1, 2, 3, 16] ∧ compactToHex (hexToCompact [1, 2, 3, 16]) = some [1, 2, 3, 16] :=
  ⟨.inr ⟨[1, 2, 3], by decide, rfl⟩, trie_key_encodings.2.1 _ (.inr ⟨[1, 2, 3], by decide, rfl⟩)⟩

/-! ## Common prefixes -/

theorem prefixLen_le_left : ∀ a b : List UInt8, prefixLen a b ≤ a.length
  | _ :: a, _ :: b => by
    unfold prefixLen
    split_ifs
    · simpa using prefixLen_le_left a b
    · omega
  | [], _ => by simp [prefixLen]
  | _ :: _, [] => by simp [prefixLen]

theorem prefixLen_comm : ∀ a b : List UInt8, prefixLen a b = prefixLen b a
  | x :: a, y :: b => by
    by_cases h : x = y
    · subst h
      simp [prefixLen, prefixLen_comm a b]
    · simp [prefixLen, h, Ne.symm h]
  | [], _ => by cases ‹List UInt8› <;> rfl
  | _ :: _, [] => rfl

theorem prefixLen_le_right (a b : List UInt8) : prefixLen a b ≤ b.length := by
  rw [prefixLen_comm]
  exact prefixLen_le_left b a

/-- Both keys start with their common prefix. -/
theorem take_prefixLen : ∀ a b : List UInt8, a.take (prefixLen a b) = b.take (prefixLen a b)
  | x :: a, y :: b => by
    by_cases h : x = y
    · subst h
      simp [prefixLen, take_prefixLen a b]
    · simp [prefixLen, h]
  | [], _ => by simp [prefixLen]
  | _ :: _, [] => by simp [prefixLen]

/-- The common prefix of `a ++ b` and `a ++ c` is `a` and that of `b` and `c`. -/
theorem prefixLen_append : ∀ a b c : List UInt8,
    prefixLen (a ++ b) (a ++ c) = a.length + prefixLen b c
  | [], _, _ => by simp
  | _ :: a, b, c => by
    simp only [List.cons_append, prefixLen, if_true, prefixLen_append a b c, List.length_cons]
    omega

end Sphinx.Trie
