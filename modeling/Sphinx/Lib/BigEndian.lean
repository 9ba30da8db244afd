import Mathlib

/-! # Minimal big-endian byte strings

Natural numbers written as big-endian byte strings without leading zero bytes,
the number format of length prefixes and integers in prefix-length serialisations.
Reading any byte string back is `ofBytes`; `toBytes` is its inverse on strings
without a leading zero.
-/

namespace BigEndian

/-- The value of a big-endian byte string. -/
def ofBytes (bs : List UInt8) : ℕ :=
  bs.foldl (fun acc b => acc * 256 + b.toNat) 0

/-- The minimal big-endian byte string of `n`; zero has the empty string. -/
def toBytes (n : ℕ) : List UInt8 :=
  go n n
where
  go : ℕ → ℕ → List UInt8
    | 0, _ => []
    | k + 1, n => if n = 0 then [] else go k (n / 256) ++ [(n % 256).toUInt8]

/-- A byte string is canonical when it has no leading zero byte. -/
def NoLeadingZero (bs : List UInt8) : Prop :=
  bs.head? ≠ some 0

instance (bs : List UInt8) : Decidable (NoLeadingZero bs) :=
  inferInstanceAs (Decidable (bs.head? ≠ some 0))

@[simp] theorem toNat_toUInt8_mod (n : ℕ) : ((n % 256).toUInt8).toNat = n % 256 := by
  simp only [Nat.toUInt8_eq, UInt8.toNat_ofNat']
  omega

theorem toNat_pos {b : UInt8} (h : b ≠ 0) : 0 < b.toNat := by
  rcases Nat.eq_zero_or_pos b.toNat with h0 | h0
  · exact absurd (UInt8.toNat_inj.mp (by simpa using h0)) h
  · exact h0

theorem toBytes_go_fuel {k₁ k₂ n : ℕ} (h₁ : n ≤ k₁) (h₂ : n ≤ k₂) :
    toBytes.go k₁ n = toBytes.go k₂ n := by
  induction k₁ generalizing n k₂ with
  | zero =>
    obtain rfl : n = 0 := by omega
    cases k₂ <;> simp [toBytes.go]
  | succ k ih =>
    cases k₂ with
    | zero =>
      obtain rfl : n = 0 := by omega
      simp [toBytes.go]
    | succ k₂ =>
      by_cases hn : n = 0
      · simp [toBytes.go, hn]
      · simp only [toBytes.go, hn, if_false]
        rw [@ih k₂ (n / 256) (by omega) (by omega)]

theorem toBytes_eq (n : ℕ) :
    toBytes n = if n = 0 then [] else toBytes (n / 256) ++ [(n % 256).toUInt8] := by
  cases n with
  | zero => rfl
  | succ m =>
    simp only [toBytes, toBytes.go, Nat.add_one_ne_zero, if_false]
    rw [@toBytes_go_fuel m ((m + 1) / 256) ((m + 1) / 256) (by omega) le_rfl]

@[simp] theorem toBytes_zero : toBytes 0 = [] := rfl

@[simp] theorem ofBytes_nil : ofBytes [] = 0 := rfl

@[simp] theorem ofBytes_append_singleton (bs : List UInt8) (b : UInt8) :
    ofBytes (bs ++ [b]) = ofBytes bs * 256 + b.toNat := by
  simp [ofBytes, List.foldl_append]

theorem ofBytes_cons (b : UInt8) (bs : List UInt8) :
    ofBytes (b :: bs) = b.toNat * 256 ^ bs.length + ofBytes bs := by
  induction bs using List.reverseRecOn with
  | nil => simp [ofBytes]
  | append_singleton bs c ih =>
    rw [← List.cons_append, ofBytes_append_singleton, ih, ofBytes_append_singleton]
    simp only [List.length_append, List.length_singleton, pow_succ]
    ring

theorem ofBytes_lt (bs : List UInt8) : ofBytes bs < 256 ^ bs.length := by
  induction bs using List.reverseRecOn with
  | nil => simp
  | append_singleton bs b ih =>
    have hb := b.toNat_lt
    simp only [ofBytes_append_singleton, List.length_append, List.length_singleton, pow_succ]
    nlinarith

theorem ofBytes_toBytes (n : ℕ) : ofBytes (toBytes n) = n := by
  induction n using Nat.strong_induction_on with
  | _ n ih =>
    rw [toBytes_eq]
    split
    · simp_all
    · rw [ofBytes_append_singleton, ih _ (by omega), toNat_toUInt8_mod]
      omega

theorem toBytes_noLeadingZero (n : ℕ) : NoLeadingZero (toBytes n) := by
  induction n using Nat.strong_induction_on with
  | _ n ih =>
    rw [toBytes_eq]
    split
    · simp [NoLeadingZero]
    · rename_i hn
      by_cases hq : n / 256 = 0
      · have hb : (n % 256).toUInt8 ≠ 0 := by
          intro h
          have := congrArg UInt8.toNat h
          rw [toNat_toUInt8_mod, UInt8.toNat_zero] at this
          omega
        simp [hq, NoLeadingZero, hb]
      · have hne : toBytes (n / 256) ≠ [] := by
          intro h
          have := ofBytes_toBytes (n / 256)
          rw [h] at this
          simp at this
          omega
        have := ih (n / 256) (by omega)
        obtain ⟨b, bs, hc⟩ := List.exists_cons_of_ne_nil hne
        simp only [NoLeadingZero, hc] at this ⊢
        simpa using this

theorem toBytes_ne_nil {n : ℕ} (h : n ≠ 0) : toBytes n ≠ [] := by
  intro hn
  have := ofBytes_toBytes n
  rw [hn, ofBytes_nil] at this
  exact h this.symm

theorem ofBytes_eq_zero_iff {bs : List UInt8} (h : NoLeadingZero bs) :
    ofBytes bs = 0 ↔ bs = [] := by
  cases bs with
  | nil => simp
  | cons b bs =>
    have hb' : 0 < b.toNat := toNat_pos fun hb => h (by simp [hb])
    simp only [ofBytes_cons, reduceCtorEq, iff_false]
    have : 0 < b.toNat * 256 ^ bs.length := Nat.mul_pos hb' (by positivity)
    omega

theorem noLeadingZero_of_append {bs : List UInt8} {b : UInt8}
    (h : NoLeadingZero (bs ++ [b])) (hne : bs ≠ []) : NoLeadingZero bs := by
  obtain ⟨c, cs, rfl⟩ := List.exists_cons_of_ne_nil hne
  simpa [NoLeadingZero] using h

theorem toBytes_ofBytes {bs : List UInt8} (h : NoLeadingZero bs) :
    toBytes (ofBytes bs) = bs := by
  induction bs using List.reverseRecOn with
  | nil => rfl
  | append_singleton bs b ih =>
    rw [toBytes_eq, ofBytes_append_singleton]
    have hb := b.toNat_lt
    by_cases hnil : bs = []
    · subst hnil
      have hpos : b.toNat ≠ 0 := (toNat_pos fun hb => h (by simp [hb])).ne'
      simp only [ofBytes_nil, zero_mul, zero_add, hpos, if_false]
      have hq : b.toNat / 256 = 0 := by omega
      have hr : b.toNat % 256 = b.toNat := by omega
      simp [hq, hr]
    · have hbs := noLeadingZero_of_append h hnil
      have hv : ofBytes bs ≠ 0 := fun h0 => hnil ((ofBytes_eq_zero_iff hbs).mp h0)
      have hq : (ofBytes bs * 256 + b.toNat) / 256 = ofBytes bs := by omega
      have hr : (ofBytes bs * 256 + b.toNat) % 256 = b.toNat := by omega
      rw [if_neg (by omega), hq, hr, ih hbs]
      simp

theorem ofBytes_injective_of_length {bs cs : List UInt8} (hl : bs.length = cs.length)
    (h : ofBytes bs = ofBytes cs) : bs = cs := by
  induction bs using List.reverseRecOn generalizing cs with
  | nil => exact (List.length_eq_zero_iff.mp hl.symm).symm
  | append_singleton bs b ih =>
    rcases cs.eq_nil_or_concat with rfl | ⟨cs', c, rfl⟩
    · simp at hl
    · simp only [List.concat_eq_append, ofBytes_append_singleton] at h hl ⊢
      have hb := b.toNat_lt
      have hc := c.toNat_lt
      have hbc : b.toNat = c.toNat := by omega
      have hrest : ofBytes bs = ofBytes cs' := by omega
      rw [ih (by simpa using hl) hrest, UInt8.toNat_inj.mp hbc]

theorem pow_le_ofBytes {b : UInt8} {bs : List UInt8} (h : b ≠ 0) :
    256 ^ bs.length ≤ ofBytes (b :: bs) := by
  have hpos : 1 ≤ b.toNat := toNat_pos h
  rw [ofBytes_cons]
  calc 256 ^ bs.length = 1 * 256 ^ bs.length := (one_mul _).symm
    _ ≤ b.toNat * 256 ^ bs.length := Nat.mul_le_mul_right _ hpos
    _ ≤ _ := Nat.le_add_right _ _

theorem length_toBytes_le_iff (n k : ℕ) : (toBytes n).length ≤ k ↔ n < 256 ^ k := by
  constructor
  · intro h
    calc n = ofBytes (toBytes n) := (ofBytes_toBytes n).symm
      _ < 256 ^ (toBytes n).length := ofBytes_lt _
      _ ≤ 256 ^ k := Nat.pow_le_pow_right (by norm_num) h
  · intro h
    by_contra hlt
    rw [not_le] at hlt
    have hnz := toBytes_noLeadingZero n
    cases hc : toBytes n with
    | nil => simp [hc] at hlt
    | cons b bs =>
      have hb : b ≠ 0 := fun hb => hnz (by simp [hc, hb])
      have hle := @pow_le_ofBytes b bs hb
      rw [← hc, ofBytes_toBytes] at hle
      have hlen : k ≤ bs.length := by simp [hc] at hlt; omega
      have := Nat.pow_le_pow_right (show 0 < 256 by norm_num) hlen
      omega

/-! ## Fixed width

`binary.BigEndian.PutUintN` writes the low `w` bytes of a number, most significant first. -/

/-- The `w` low bytes of `n`, big-endian. -/
def putUint : ℕ → ℕ → List UInt8
  | 0, _ => []
  | w + 1, n => putUint w (n / 256) ++ [(n % 256).toUInt8]

@[simp] theorem length_putUint (w n : ℕ) : (putUint w n).length = w := by
  induction w generalizing n with
  | zero => rfl
  | succ w ih => simp [putUint, ih]

theorem ofBytes_putUint (w n : ℕ) : ofBytes (putUint w n) = n % 256 ^ w := by
  induction w generalizing n with
  | zero => simp [putUint, Nat.mod_one]
  | succ w ih =>
    rw [putUint, ofBytes_append_singleton, ih, toNat_toUInt8_mod, pow_succ', Nat.mod_mul]
    ring

end BigEndian
