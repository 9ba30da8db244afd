import Sphinx.Bloombits.Matcher
import Sphinx.Common.Types
import Sphinx.Lib.MsbFirst

/-! # The bloom-bits generator

`Generator` turns the blooms of a section of blocks into one bit vector per bloom bit:
`AddBloom(j, b)` writes bit `i` of the `j`-th bloom as bit `j` of row `i`, the bits of a
row most significant first within each byte, and `Bitset(i)` hands out row `i` once every
bloom of the section is in.

A bloom is 256 bytes, and its bit `i` is bit `i % 8` of byte `255 - i / 8`. There are
`BloomBitLength = 2048` rows, but `Bitset` checks the requested row against the number of
sections, not against the number of rows: for fewer than 2048 sections it refuses rows
that exist, and for more it indexes past the last row and panics (`bitset_of_run`).
-/

namespace Sphinx.Bloombits

def BloomByteLength : ℕ := 256

def BloomBitLength : ℕ := 8 * BloomByteLength

/-- `types.Bloom`. -/
abbrev Bloom := FixedBytes BloomByteLength

/-- Bit `i` of a bloom, the one `bloom9` sets for the index `i`: bit `i % 8` of byte
`255 - i / 8`. -/
def Bloom.bit (b : Bloom) (i : ℕ) : Bool :=
  ((b.bytes[BloomByteLength - 1 - i / 8]?).getD 0).toNat.testBit (i % 8)

inductive GenError
  | notMultipleOf8
  | sectionOutOfBounds
  | unexpectedIndex
  | notFullyGenerated
  deriving DecidableEq, Repr

/-- The texts of the generator's errors. -/
def GenError.text : GenError → String
  | notMultipleOf8 => "section count not multiple of 8"
  | sectionOutOfBounds => "section out of bounds"
  | unexpectedIndex => "bloom filter with unexpected index"
  | notFullyGenerated => "bloom not fully generated yet"

/-- `bloombits.Generator`: the rows (`[BloomBitLength][]byte`), the number of sections and
the next bit to set. -/
structure Generator where
  blooms : List (List UInt8)
  sections : ℕ
  nextBit : ℕ

/-- `NewGenerator`: `BloomBitLength` rows of `sections / 8` zero bytes. -/
def newGenerator (sections : ℕ) : Except GenError Generator :=
  if sections % 8 ≠ 0 then .error .notMultipleOf8
  else .ok ⟨List.replicate BloomBitLength (List.replicate (sections / 8) 0), sections, 0⟩

namespace Generator

/-- One pass of the loop of `AddBloom`: when bit `i` of `bloom` is set, or `bitMask` into
byte `byteIndex` of row `i`, which panics when that byte is not there. -/
def rotateBit (byteIndex : ℕ) (bitMask : UInt8) (bloom : Bloom) (blooms : List (List UInt8))
    (i : ℕ) : Option (List (List UInt8)) :=
  let bloomByteIndex := BloomByteLength - 1 - i / 8
  let bloomBitMask : UInt8 := 1 <<< (i % 8).toUInt8
  if (bloom.bytes[bloomByteIndex]?).getD 0 &&& bloomBitMask ≠ 0 then
    match blooms[i]? with
    | some row =>
      if byteIndex < row.length then some (blooms.set i (row.modify byteIndex (· ||| bitMask)))
      else none
    | none => none
  else some blooms

/-- `AddBloom(index, bloom)`; `none` is a panic. -/
def addBloom (b : Generator) (index : ℕ) (bloom : Bloom) : Option (Except GenError Generator) :=
  if b.nextBit ≥ b.sections then some (.error .sectionOutOfBounds)
  else if b.nextBit ≠ index then some (.error .unexpectedIndex)
  else
    let byteIndex := b.nextBit / 8
    let bitMask : UInt8 := 1 <<< (7 - b.nextBit % 8).toUInt8
    match (List.range BloomBitLength).foldlM (rotateBit byteIndex bitMask bloom) b.blooms with
    | some blooms => some (.ok { b with blooms, nextBit := b.nextBit + 1 })
    | none => none

/-- `Bitset(idx)`; `none` is a panic. -/
def bitset (b : Generator) (idx : ℕ) : Option (Except GenError (List UInt8)) :=
  if b.nextBit ≠ b.sections then some (.error .notFullyGenerated)
  else if idx ≥ b.sections then some (.error .sectionOutOfBounds)
  else
    match b.blooms[idx]? with
    | some row => some (.ok row)
    | none => none

/-- `AddBloom(j, b_j)`, `AddBloom(j + 1, b_(j+1))`, … in order, up to the first error. -/
def addBlooms : Generator → ℕ → List Bloom → Option (Except GenError Generator)
  | g, _, [] => some (.ok g)
  | g, j, bloom :: blooms =>
    match g.addBloom j bloom with
    | some (.ok g') => addBlooms g' (j + 1) blooms
    | r => r

end Generator

namespace Generator

/-! ## The loop of `AddBloom` -/

section Loop

variable {byteIndex : ℕ} {bitMask : UInt8} {bloom : Bloom}

theorem rotateBit_eq {blooms : List (List UInt8)} {i : ℕ} {row : List UInt8}
    (hi : blooms[i]? = some row) (hk : byteIndex < row.length) :
    rotateBit byteIndex bitMask bloom blooms i =
      some (if bloom.bit i then blooms.set i (row.modify byteIndex (· ||| bitMask)) else blooms) := by
  have hbit := MsbFirst.and_mask_ne_zero ((bloom.bytes[BloomByteLength - 1 - i / 8]?).getD 0)
    (show i % 8 < 8 from Nat.mod_lt _ (by norm_num))
  unfold rotateBit Bloom.bit
  by_cases hb : ((bloom.bytes[BloomByteLength - 1 - i / 8]?).getD 0).toNat.testBit (i % 8) = true
  · simp [hbit.mpr hb, hb, hi, hk]
  · simp [mt hbit.mp hb, hb]

theorem foldlM_rotateBit {blooms : List (List UInt8)}
    (hrows : ∀ (i : ℕ) (row : List UInt8), blooms[i]? = some row → byteIndex < row.length) :
    ∀ n ≤ blooms.length, ∃ r,
      (List.range n).foldlM (rotateBit byteIndex bitMask bloom) blooms = some r ∧
      r.length = blooms.length ∧
      ∀ i, r[i]? = blooms[i]?.map fun (row : List UInt8) =>
        if i < n ∧ bloom.bit i then row.modify byteIndex (· ||| bitMask) else row
  | 0, _ => ⟨blooms, rfl, rfl, fun i => by simp⟩
  | n + 1, hn => by
    obtain ⟨r, hr, hlen, hri⟩ := foldlM_rotateBit hrows n (by omega)
    have hrn : r[n]? = some blooms[n] := by simp [hri, List.getElem?_eq_getElem (by omega : n < blooms.length)]
    have hk : byteIndex < blooms[n].length := hrows n _ (List.getElem?_eq_getElem (by omega))
    refine ⟨if bloom.bit n then r.set n (blooms[n].modify byteIndex (· ||| bitMask)) else r,
      ?_, ?_, fun i => ?_⟩
    · rw [List.range_succ, List.foldlM_append, hr]
      simp [rotateBit_eq hrn hk]
    · split <;> simp [hlen]
    · by_cases hi : i = n
      · subst hi
        have hin : i < blooms.length := by omega
        cases hb : bloom.bit i
        · simp [hrn, List.getElem?_eq_getElem hin]
        · simp [hlen, hin]
      · have hlt : i < n + 1 ↔ i < n := by omega
        split <;> simp [Ne.symm hi, hri, hlt]

end Loop

/-! ## Runs -/

theorem bit_getElem?_append (added : List Bloom) (bloom : Bloom) (i o : ℕ) :
    ((added ++ [bloom])[o]?.map (·.bit i)).getD false =
      ((added[o]?.map (·.bit i)).getD false || (decide (added.length = o) && bloom.bit i)) := by
  rw [List.getElem?_append]
  split
  · have hne : added.length ≠ o := by omega
    simp [hne]
  · have hnone : added[o]? = none := List.getElem?_eq_none (by omega)
    by_cases ho : added.length = o
    · subst ho
      simp
    · have hout : [bloom][o - added.length]? = none :=
        List.getElem?_eq_none (by simp only [List.length_singleton]; omega)
      simp [hnone, ho, hout]

/-- The generator after `AddBloom` has taken the blooms `added` in order: `BloomBitLength`
rows of `sections / 8` bytes, bit `j` of row `i` being bit `i` of the `j`-th bloom added. -/
structure Holds (g : Generator) (added : List Bloom) : Prop where
  sections_mod : g.sections % 8 = 0
  nextBit_eq : g.nextBit = added.length
  le_sections : added.length ≤ g.sections
  length_blooms : g.blooms.length = BloomBitLength
  length_row : ∀ (i : ℕ) (row : List UInt8), g.blooms[i]? = some row → row.length = g.sections / 8
  bit_row : ∀ (i : ℕ) (row : List UInt8), g.blooms[i]? = some row →
    ∀ o, MsbFirst.bit row o = (added[o]?.map (·.bit i)).getD false

theorem holds_new {sections : ℕ} {g : Generator} (h : newGenerator sections = .ok g) :
    Holds g [] := by
  unfold newGenerator at h
  split at h
  · cases h
  · cases h
    constructor <;> simp_all [MsbFirst.bit, List.getElem?_replicate]
    · intro i _ o
      split <;> simp

/-- One `AddBloom` with the next index, while there is room: it succeeds, and the rows
hold one more bloom. -/
theorem Holds.addBloom {g : Generator} {added : List Bloom} (h : Holds g added)
    (hroom : added.length < g.sections) (bloom : Bloom) :
    ∃ g', g.addBloom added.length bloom = some (.ok g') ∧ g'.sections = g.sections ∧
      Holds g' (added ++ [bloom]) := by
  have hmod := h.sections_mod
  have hnext := h.nextBit_eq
  have hk : ∀ (i : ℕ) (row : List UInt8), g.blooms[i]? = some row → g.nextBit / 8 < row.length := by
    intro i row hrow
    rw [h.length_row i row hrow]
    omega
  obtain ⟨r, hr, hlen, hri⟩ := @foldlM_rotateBit (g.nextBit / 8)
    (1 <<< (7 - g.nextBit % 8).toUInt8) bloom g.blooms hk BloomBitLength h.length_blooms.ge
  refine ⟨{ g with blooms := r, nextBit := g.nextBit + 1 }, ?_, rfl, ?_⟩
  · unfold Generator.addBloom
    rw [if_neg (by omega), if_neg (by omega)]
    simp [hr]
  · constructor
    · exact hmod
    · simp [hnext]
    · simp only [List.length_append, List.length_singleton]
      omega
    · rw [hlen, h.length_blooms]
    · intro i row hrow
      rw [hri] at hrow
      obtain ⟨row₀, h₀, rfl⟩ := Option.map_eq_some_iff.mp hrow
      split <;> simp [h.length_row i row₀ h₀]
    · intro i row hrow o
      rw [hri] at hrow
      obtain ⟨row₀, h₀, rfl⟩ := Option.map_eq_some_iff.mp hrow
      have hi : i < BloomBitLength := by
        rw [← h.length_blooms]
        exact (List.getElem?_eq_some_iff.mp h₀).1
      rw [bit_getElem?_append, ← h.bit_row i row₀ h₀ o]
      by_cases hb : bloom.bit i
      · rw [if_pos ⟨hi, hb⟩, MsbFirst.bit_modify (hk i row₀ h₀), hnext]
        simp [hb]
      · simp [hb]

theorem Holds.addBloom_error {g : Generator} {added : List Bloom} (h : Holds g added)
    (index : ℕ) (bloom : Bloom) :
    (g.sections ≤ added.length → g.addBloom index bloom = some (.error .sectionOutOfBounds)) ∧
    (added.length < g.sections → index ≠ added.length →
      g.addBloom index bloom = some (.error .unexpectedIndex)) := by
  have hnext := h.nextBit_eq
  constructor
  · intro hfull
    simp [Generator.addBloom, hnext, hfull]
  · intro hroom hne
    simp [Generator.addBloom, hnext, Nat.not_le.mpr hroom, Ne.symm hne]

theorem Holds.addBlooms {g : Generator} {added : List Bloom} (h : Holds g added) :
    ∀ blooms : List Bloom, added.length + blooms.length ≤ g.sections →
      ∃ g', g.addBlooms added.length blooms = some (.ok g') ∧ g'.sections = g.sections ∧
        Holds g' (added ++ blooms)
  | [], _ => ⟨g, rfl, rfl, by simpa using h⟩
  | bloom :: blooms, hroom => by
    simp only [List.length_cons] at hroom
    obtain ⟨g₁, h₁, hs₁, hh₁⟩ := h.addBloom (by omega) bloom
    obtain ⟨g', h', hs', hh'⟩ :=
      hh₁.addBlooms blooms (by simp only [List.length_append, List.length_singleton]; omega)
    refine ⟨g', ?_, hs'.trans hs₁, by simpa using hh'⟩
    simpa [Generator.addBlooms, h₁] using h'

/-- `Bitset` once every bloom of the section is in: an error for an index at or above the
number of sections, the row below it when there is one, and a panic past the last row. -/
theorem Holds.bitset {g : Generator} {blooms : List Bloom} (h : Holds g blooms)
    (hfull : blooms.length = g.sections) (idx : ℕ) :
    (g.sections ≤ idx → g.bitset idx = some (.error .sectionOutOfBounds)) ∧
    (idx < g.sections → BloomBitLength ≤ idx → g.bitset idx = none) ∧
    (idx < g.sections → idx < BloomBitLength → ∃ row, g.bitset idx = some (.ok row) ∧
      row.length = g.sections / 8 ∧ ∀ j, MsbFirst.bit row j = (blooms[j]?.map (·.bit idx)).getD false) := by
  have hnext : g.nextBit = g.sections := h.nextBit_eq.trans hfull
  refine ⟨fun hle => ?_, fun hlt hge => ?_, fun hlt hrow => ?_⟩
  · simp [Generator.bitset, hnext, hle]
  · have hnone : g.blooms[idx]? = none := List.getElem?_eq_none (by rw [h.length_blooms]; exact hge)
    simp [Generator.bitset, hnext, Nat.not_le.mpr hlt, hnone]
  · have hidx : idx < g.blooms.length := by rw [h.length_blooms]; exact hrow
    have hsome : g.blooms[idx]? = some g.blooms[idx] := List.getElem?_eq_getElem hidx
    refine ⟨g.blooms[idx], ?_, h.length_row idx _ hsome, h.bit_row idx _ hsome⟩
    simp [Generator.bitset, hnext, Nat.not_le.mpr hlt, hsome]

end Generator

/-- What a generator for `s` sections that took the blooms `blooms` hands out: `Bitset(i)`
fails for `i ≥ s`, panics for `2048 ≤ i < s`, and otherwise gives the row whose bit `j`
is bit `i` of the `j`-th bloom; `AddBloom` fails whatever it is given. -/
def Generated (g : Generator) (s : ℕ) (blooms : List Bloom) : Prop :=
  (∀ idx, s ≤ idx → g.bitset idx = some (.error .sectionOutOfBounds)) ∧
  (∀ idx, idx < s → BloomBitLength ≤ idx → g.bitset idx = none) ∧
  (∀ idx, idx < s → idx < BloomBitLength → ∃ row, g.bitset idx = some (.ok row) ∧
    row.length = s / 8 ∧ ∀ j, MsbFirst.bit row j = (blooms[j]?.map (·.bit idx)).getD false) ∧
  ∀ index bloom, g.addBloom index bloom = some (.error .sectionOutOfBounds)

/-- A generator for `s` sections, a multiple of 8, that takes `s` blooms in order with
`AddBloom(j, b_j)`: every call succeeds, and the generator then hands out the rows as
`Generated` says, with its two departures from the bloom bits: `Bitset(i)` refuses
`s ≤ i < 2048` and panics for `2048 ≤ i < s`. -/
theorem bitset_of_run {s : ℕ} (hs : s % 8 = 0) (blooms : List Bloom) (hlen : blooms.length = s) :
    ∃ g, newGenerator s = .ok g ∧ ∃ g', g.addBlooms 0 blooms = some (.ok g') ∧
      Generated g' s blooms := by
  have hnew : newGenerator s =
      .ok ⟨List.replicate BloomBitLength (List.replicate (s / 8) 0), s, 0⟩ := by
    simp [newGenerator, hs]
  obtain ⟨g', hrun, hsec, hh⟩ := (Generator.holds_new hnew).addBlooms blooms (by simp [hlen])
  have hs' : g'.sections = s := hsec
  have hfull : blooms.length = g'.sections := by rw [hs', hlen]
  refine ⟨_, hnew, g', hrun, ?_, ?_, ?_, ?_⟩
  · intro idx hle
    exact (hh.bitset hfull idx).1 (by simpa [hs'] using hle)
  · intro idx hlt hge
    exact (hh.bitset hfull idx).2.1 (by simpa [hs'] using hlt) hge
  · intro idx hlt hrow
    simpa [hs'] using (hh.bitset hfull idx).2.2 (by simpa [hs'] using hlt) hrow
  · intro index bloom
    exact (hh.addBloom_error index bloom).1 (by simp [hfull])

/-- The zero bloom. -/
def Bloom.zero : Bloom := ⟨List.replicate BloomByteLength 0, List.length_replicate⟩

theorem bitset_of_run_eight :
    8 % 8 = 0 ∧ (List.replicate 8 Bloom.zero).length = 8 ∧
      ∃ g, newGenerator 8 = .ok g ∧ ∃ g', g.addBlooms 0 (List.replicate 8 Bloom.zero) = some (.ok g') ∧
        Generated g' 8 (List.replicate 8 Bloom.zero) :=
  ⟨rfl, List.length_replicate, bitset_of_run rfl _ List.length_replicate⟩

end Sphinx.Bloombits
