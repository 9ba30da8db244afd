import Mathlib

/-! # Bit strings packed most significant bit first

A byte string read as a string of bits, eight to a byte with the most significant bit of
each byte first, as bit vectors are packed when each bit is set by or-ing the mask
`1 << (7 - i % 8)` into byte `i / 8`. `bit` reads bit `i`; `bit_modify` says what setting
one bit does to all of them, and two byte strings of one length with the same bits are
equal (`ext_bit`). `leadingZeros` counts the zero bits before the first set one, byte by
byte (`leadingZeros_cons`).
-/

namespace MsbFirst

/-- Bit `o` of a byte string; zero past its end. -/
def bit (bs : List UInt8) (o : ℕ) : Bool :=
  ((bs[o / 8]?).getD 0).toNat.testBit (7 - o % 8)

theorem toNat_one_shiftLeft {k : ℕ} (hk : k < 8) : ((1 : UInt8) <<< k.toUInt8).toNat = 2 ^ k := by
  interval_cases k <;> rfl

/-- Testing a byte against the mask of bit `k` reads bit `k`. -/
theorem and_mask_ne_zero (x : UInt8) {k : ℕ} (hk : k < 8) :
    (x &&& (1 <<< k.toUInt8) ≠ 0) ↔ x.toNat.testBit k = true := by
  rw [Ne, ← UInt8.toNat_inj, UInt8.toNat_and, toNat_one_shiftLeft hk, Nat.and_two_pow]
  cases x.toNat.testBit k <;> simp

theorem testBit_or_mask (x : UInt8) {k o : ℕ} (hk : k < 8) :
    (x ||| 1 <<< k.toUInt8).toNat.testBit o = (x.toNat.testBit o || decide (k = o)) := by
  rw [UInt8.toNat_or, toNat_one_shiftLeft hk, Nat.testBit_or, Nat.testBit_two_pow]

/-- Or-ing the mask of bit `n` into its byte sets bit `n` and no other. -/
theorem bit_modify {row : List UInt8} {n : ℕ} (hn : n / 8 < row.length) (o : ℕ) :
    bit (row.modify (n / 8) (· ||| 1 <<< (7 - n % 8).toUInt8)) o =
      (bit row o || decide (n = o)) := by
  unfold MsbFirst.bit
  rw [List.getElem?_modify]
  by_cases hb : n / 8 = o / 8
  · have hget : row[o / 8]? = some row[n / 8] := by rw [← hb]; exact List.getElem?_eq_getElem hn
    have hpos : (7 - n % 8 = 7 - o % 8) ↔ n = o := by omega
    simp only [hb, hget, if_true, Option.map_eq_map, Option.map_some, Option.getD_some]
    rw [testBit_or_mask _ (by omega)]
    simp [hpos]
  · have hne : n ≠ o := fun h => hb (by rw [h])
    simp [hb, hne]

@[simp] theorem bit_replicate_zero (n o : ℕ) : bit (List.replicate n 0) o = false := by
  unfold bit
  rw [List.getElem?_replicate]
  split <;> simp

/-- Bits past the end of a byte string are zero. -/
theorem bit_of_length_le {bs : List UInt8} {o : ℕ} (h : bs.length ≤ o / 8) :
    bit bs o = false := by
  simp [bit, List.getElem?_eq_none h]

theorem byte_eq_of_testBit {x y : UInt8} (h : ∀ k < 8, x.toNat.testBit k = y.toNat.testBit k) :
    x = y := by
  apply UInt8.toNat_inj.mp
  apply Nat.eq_of_testBit_eq
  intro k
  by_cases hk : k < 8
  · exact h k hk
  · have hle : 2 ^ 8 ≤ 2 ^ k := Nat.pow_le_pow_right (by norm_num) (by omega)
    rw [Nat.testBit_eq_false_of_lt (lt_of_lt_of_le x.toNat_lt hle),
      Nat.testBit_eq_false_of_lt (lt_of_lt_of_le y.toNat_lt hle)]

/-- Two byte strings of one length with the same bits are equal. -/
theorem ext_bit {bs cs : List UInt8} (hlen : bs.length = cs.length)
    (h : ∀ o, bit bs o = bit cs o) : bs = cs := by
  apply List.ext_getElem hlen
  intro j hj hj'
  apply byte_eq_of_testBit
  intro k hk
  have hb := h (8 * j + (7 - k))
  have hdiv : (8 * j + (7 - k)) / 8 = j := by omega
  have hmod : 7 - (8 * j + (7 - k)) % 8 = k := by omega
  unfold bit at hb
  rw [hdiv, hmod, List.getElem?_eq_getElem hj, List.getElem?_eq_getElem hj'] at hb
  simpa using hb

/-! ## Leading zeros -/

/-- The number of zero bits before the first set bit, all of them if none is set. -/
def leadingZeros (bs : List UInt8) : ℕ :=
  ((List.range (8 * bs.length)).find? (bit bs)).getD (8 * bs.length)

theorem bit_cons_of_lt (x : UInt8) (bs : List UInt8) {o : ℕ} (ho : o < 8) :
    bit (x :: bs) o = bit [x] o := by
  simp [bit, Nat.div_eq_of_lt ho]

theorem bit_cons_add (x : UInt8) (bs : List UInt8) (o : ℕ) : bit (x :: bs) (8 + o) = bit bs o := by
  simp [bit, Nat.add_div_left o (by norm_num : 0 < 8)]

theorem find?_bit_singleton_isSome : ∀ x : UInt8, x ≠ 0 →
    ((List.range 8).find? (bit [x])).isSome = true := by
  decide +kernel

/-- A zero byte adds its eight bits to the count; a byte with a bit set ends it. -/
theorem leadingZeros_cons (x : UInt8) (bs : List UInt8) :
    leadingZeros (x :: bs) = if x = 0 then 8 + leadingZeros bs else leadingZeros [x] := by
  have hrange : List.range (8 * (x :: bs).length) =
      List.range 8 ++ (List.range (8 * bs.length)).map (8 + ·) := by
    rw [List.length_cons, Nat.mul_succ, Nat.add_comm, List.range_add]
  have hfirst : (List.range 8).find? (bit (x :: bs)) = (List.range 8).find? (bit [x]) :=
    List.find?_congr fun o ho => bit_cons_of_lt x bs (List.mem_range.1 ho)
  have hrest : ((List.range (8 * bs.length)).map (8 + ·)).find? (bit (x :: bs)) =
      ((List.range (8 * bs.length)).find? (bit bs)).map (8 + ·) := by
    rw [List.find?_map]
    congr 1
    exact List.find?_congr fun o _ => bit_cons_add x bs o
  unfold leadingZeros
  rw [hrange, List.find?_append, hfirst, hrest]
  split_ifs with hx
  · subst hx
    have hnone : (List.range 8).find? (bit [0]) = none := by decide
    rw [hnone, Option.none_or]
    cases (List.range (8 * bs.length)).find? (bit bs) with
    | none =>
      simp only [Option.map_none, Option.getD_none, List.length_cons, Nat.mul_succ]
      omega
    | some o => simp
  · obtain ⟨o, ho⟩ := Option.isSome_iff_exists.1 (find?_bit_singleton_isSome x hx)
    simp [ho]

end MsbFirst
