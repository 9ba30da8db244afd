import Mathlib

/-! # The bloom-bits matcher

`Matcher.Start(begin, end, results)` feeds the sections of the range through a chain of
sub-matchers, one per group of the filter. For a section, a sub-matcher AND-s the three
bit vectors of each clause, OR-s the clauses, AND-s the result into the vector it
received and passes it on unless no bit is set. The results loop then walks the blocks
of the section from `first` to `last` and sends those whose bit is set, skipping a whole
byte when it is zero.

The retrievers and the distributor are not modelled: every sub-matcher receives the
vector of the blooms for each bit and section, which is what a retriever that eventually
delivers the right vectors gives it, in whatever order. Bit vectors are functions from
the offset of a block in its section to its bit; byte `j` of the source's `[]byte` holds
the bits `8 * j` to `8 * j + 7`.

The skip of a zero byte goes to the first block of the next byte only when it starts at
the first block of a byte. `first` is `begin` in the first section, so when `begin` is
not a multiple of 8 and its byte has no match, the blocks of the next byte up to
`begin + 7` are never looked at (`start_skips_match`).
-/

namespace Sphinx.Bloombits

/-- A section's bit vector: the bit of the block at offset `o` in the section. -/
abbrev Bitset := ℕ → Bool

/-- `bloom i b`: block `i`'s bloom has bit `b` set. -/
abbrev Blooms := ℕ → ℕ → Bool

/-- `bloomIndexes`, the three bits of a clause. -/
abbrev BloomIndexes := ℕ × ℕ × ℕ

/-- The vector delivered for a bit and a section, laid out as `Generator.AddBloom`
lays it out. -/
def bitsetOf (bloom : Blooms) (sectionSize bit sec : ℕ) : Bitset :=
  fun o => bloom (sec * sectionSize + o) bit

/-- `ANDBytes`. -/
def andBits (a b : Bitset) : Bitset := fun o => a o && b o

/-- `ORBytes`. -/
def orBits (a b : Bitset) : Bitset := fun o => a o || b o

/-- `TestBytes` over the `sectionSize` bits of a section's vector. -/
def testBits (sectionSize : ℕ) (v : Bitset) : Bool :=
  (List.range sectionSize).any v

/-- One sub-matcher on one section: each clause's vectors AND-ed, the clauses OR-ed
(no clause gives the zero vector), and the result AND-ed into the vector received;
the section is passed on when a bit is set. -/
def subMatch (deliver : ℕ → ℕ → Bitset) (sectionSize : ℕ) (group : List BloomIndexes)
    (res : ℕ × Bitset) : Option (ℕ × Bitset) :=
  let vs := group.map fun (a, b, c) =>
    andBits (andBits (deliver a res.1) (deliver b res.1)) (deliver c res.1)
  let orVector := match vs with
    | [] => fun _ => false
    | v :: rest => rest.foldl orBits v
  let orVector := andBits orVector res.2
  if testBits sectionSize orVector then some (res.1, orVector) else none

/-- The chain of sub-matchers for a section, fed the all-ones vector of `run`. -/
def chain (deliver : ℕ → ℕ → Bitset) (sectionSize : ℕ) (filters : List (List BloomIndexes))
    (sec : ℕ) : Option (ℕ × Bitset) :=
  filters.foldl (fun acc group => acc.bind (subMatch deliver sectionSize group))
    (some (sec, fun _ => true))

/-- Byte `j` of a vector is zero. -/
def byteZero (v : Bitset) (j : ℕ) : Bool :=
  (List.range 8).all fun k => !v (8 * j + k)

/-- The results loop over a section from block `i` to `last`: a zero byte moves `i` on by
8 (`i += 7` and the loop's `i++`), otherwise the block is sent when its bit is set and
`i` moves on by one. `fuel` bounds the iterations. -/
def emit (v : Bitset) (sectionStart last : ℕ) : ℕ → ℕ → List ℕ
  | 0, _ => []
  | fuel + 1, i =>
    if last < i then []
    else if byteZero v ((i - sectionStart) / 8) then emit v sectionStart last fuel (i + 8)
    else (if v (i - sectionStart) then [i] else []) ++ emit v sectionStart last fuel (i + 1)

/-- The sections `run` feeds the chain. -/
def sections (sectionSize begin end_ : ℕ) : List ℕ :=
  List.range' (begin / sectionSize) (end_ / sectionSize + 1 - begin / sectionSize)

/-- What `Start(begin, end, results)` sends on `results` before closing it. -/
def start (deliver : ℕ → ℕ → Bitset) (sectionSize : ℕ) (filters : List (List BloomIndexes))
    (begin end_ : ℕ) : List ℕ :=
  (sections sectionSize begin end_).flatMap fun s =>
    match chain deliver sectionSize filters s with
    | some (sec, v) =>
      let sectionStart := sec * sectionSize
      let first := max begin sectionStart
      let last := min end_ (sectionStart + sectionSize - 1)
      emit v sectionStart last (last + 1 - first) first
    | none => []

/-- The blocks the filter is for: every group has a clause whose three bits are set. -/
def Matches (bloom : Blooms) (filters : List (List BloomIndexes)) (i : ℕ) : Bool :=
  filters.all fun group => group.any fun (a, b, c) => bloom i a && bloom i b && bloom i c

/-- What `Start` is for: the blocks of `[begin, end]` the filter matches, in increasing
order. -/
def matchingBlocks (bloom : Blooms) (filters : List (List BloomIndexes)) (begin end_ : ℕ) :
    List ℕ :=
  (List.range' begin (end_ + 1 - begin)).filter (Matches bloom filters)

/-! ## The chain -/

section Chain

variable {bloom : Blooms} {sectionSize : ℕ}

/-- The bit of a block in a group's vector: some clause has its three bits. -/
def groupBit (bloom : Blooms) (group : List BloomIndexes) (i : ℕ) : Bool :=
  group.any fun (a, b, c) => bloom i a && bloom i b && bloom i c

theorem foldl_orBits (vs : List Bitset) (v : Bitset) (o : ℕ) :
    vs.foldl orBits v o = (v o || vs.any fun w => w o) := by
  induction vs generalizing v with
  | nil => simp
  | cons w ws ih =>
    rw [List.foldl_cons, ih]
    simp [orBits, Bool.or_assoc]

theorem subMatch_eq (group : List BloomIndexes) (s : ℕ) (w : Bitset) :
    subMatch (bitsetOf bloom sectionSize) sectionSize group (s, w) =
      let v : Bitset := fun o => groupBit bloom group (s * sectionSize + o) && w o
      if testBits sectionSize v then some (s, v) else none := by
  have hv : (match group.map fun (x : BloomIndexes) =>
      andBits (andBits (bitsetOf bloom sectionSize x.1 s) (bitsetOf bloom sectionSize x.2.1 s))
        (bitsetOf bloom sectionSize x.2.2 s) with
      | [] => fun _ => false
      | v :: rest => rest.foldl orBits v) =
      fun o => groupBit bloom group (s * sectionSize + o) := by
    funext o
    cases group with
    | nil => rfl
    | cons g gs =>
      simp only [List.map_cons, foldl_orBits, groupBit, List.any_cons, List.any_map]
      rfl
  simp only [subMatch]
  rw [hv]
  rfl

theorem testBits_mono {v w : Bitset} (h : ∀ o, v o = true → w o = true)
    (hv : testBits sectionSize v = true) : testBits sectionSize w = true := by
  simp only [testBits, List.any_eq_true] at hv ⊢
  obtain ⟨o, ho, hvo⟩ := hv
  exact ⟨o, ho, h o hvo⟩

@[simp] theorem Matches_nil (bloom : Blooms) (i : ℕ) : Matches bloom [] i = true := rfl

@[simp] theorem Matches_cons (g : List BloomIndexes) (gs : List (List BloomIndexes)) (i : ℕ) :
    Matches bloom (g :: gs) i = (groupBit bloom g i && Matches bloom gs i) := rfl

theorem foldl_bind_none {f : List BloomIndexes → ℕ × Bitset → Option (ℕ × Bitset)} :
    ∀ gs : List (List BloomIndexes), gs.foldl (fun acc g => acc.bind (f g)) none = none
  | [] => rfl
  | _ :: gs => foldl_bind_none gs

theorem foldl_subMatch (s : ℕ) :
    ∀ (gs : List (List BloomIndexes)) (w : Bitset), testBits sectionSize w = true →
      gs.foldl (fun acc group => acc.bind (subMatch (bitsetOf bloom sectionSize) sectionSize group))
          (some (s, w)) =
        let v : Bitset := fun o => Matches bloom gs (s * sectionSize + o) && w o
        if testBits sectionSize v then some (s, v) else none
  | [], w, hw => by simp [hw]
  | g :: gs, w, _ => by
    rw [List.foldl_cons, Option.bind_some, subMatch_eq]
    by_cases hg : testBits sectionSize (fun o => groupBit bloom g (s * sectionSize + o) && w o)
    · have hv : (fun o => Matches bloom gs (s * sectionSize + o) &&
          (groupBit bloom g (s * sectionSize + o) && w o)) =
          fun o => Matches bloom (g :: gs) (s * sectionSize + o) && w o := by
        funext o
        simp only [Matches_cons, Bool.and_left_comm, Bool.and_assoc]
      rw [if_pos hg, foldl_subMatch s gs _ hg]
      simp only [hv]
    · rw [if_neg hg]
      have hall : ¬ testBits sectionSize
          (fun o => Matches bloom (g :: gs) (s * sectionSize + o) && w o) := by
        intro ht
        apply hg
        apply testBits_mono _ ht
        intro o ho
        simp only [Matches_cons, Bool.and_eq_true] at ho
        simp [ho.1.1, ho.2]
      rw [foldl_bind_none]
      exact (if_neg hall).symm

theorem chain_eq (hpos : 0 < sectionSize) (filters : List (List BloomIndexes)) (s : ℕ) :
    chain (bitsetOf bloom sectionSize) sectionSize filters s =
      let v : Bitset := fun o => Matches bloom filters (s * sectionSize + o)
      if testBits sectionSize v then some (s, v) else none := by
  have hones : testBits sectionSize (fun _ => true) = true := by
    simpa [testBits] using ⟨0, hpos⟩
  simpa [chain] using foldl_subMatch s filters _ hones

end Chain

/-! ## The results loop -/

section Emit

variable {v : Bitset} {sectionStart last : ℕ}

theorem mem_emit_bounds : ∀ {fuel i j : ℕ}, j ∈ emit v sectionStart last fuel i →
    i ≤ j ∧ j ≤ last
  | 0, _, _, h => by simp [emit] at h
  | fuel + 1, i, j, h => by
    unfold emit at h
    split_ifs at h with h₁ h₂ h₃
    · simp at h
    · have := mem_emit_bounds h
      omega
    · rcases List.mem_append.mp h with h | h
      · simp at h
        omega
      · have := mem_emit_bounds h
        omega
    · simp only [List.nil_append] at h
      have := mem_emit_bounds h
      omega

theorem emit_of_byteZero {fuel i : ℕ} (h : byteZero v ((i - sectionStart) / 8) = true) :
    emit v sectionStart last (fuel + 1) i =
      if last < i then [] else emit v sectionStart last fuel (i + 8) := by
  simp [emit, h]

end Emit

/-! ## A match skipped -/

/-- When `begin` is not a multiple of 8, no block of its byte matches and the first block
of the next byte matches and lies in the range and in `begin`'s section, `Start` never
sends that block, which is one of the blocks it is for. -/
theorem start_skips_match {bloom : Blooms} {filters : List (List BloomIndexes)}
    {sectionSize begin end_ : ℕ} (hs : 8 ∣ sectionSize) (hpos : 0 < sectionSize)
    (hb : begin % 8 ≠ 0) (hz : ∀ k < 8, Matches bloom filters (8 * (begin / 8) + k) = false)
    (hm : Matches bloom filters (8 * (begin / 8) + 8) = true) (he : 8 * (begin / 8) + 8 ≤ end_)
    (hsec : (8 * (begin / 8) + 8) % sectionSize ≠ 0) :
    8 * (begin / 8) + 8 ∈ matchingBlocks bloom filters begin end_ ∧
      8 * (begin / 8) + 8 ∉ start (bitsetOf bloom sectionSize) sectionSize filters begin end_ := by
  refine ⟨?_, ?_⟩
  · simp only [matchingBlocks, List.mem_filter, List.mem_range'_1, hm, and_true]
    omega
  intro hmem
  obtain ⟨m, rfl⟩ := hs
  simp only [start, List.mem_flatMap] at hmem
  obtain ⟨s, -, hes⟩ := hmem
  rw [chain_eq hpos] at hes
  dsimp only at hes
  split_ifs at hes with ht
  swap
  · simp at hes
  dsimp only at hes
  have hbounds := mem_emit_bounds hes
  have hss : s * (8 * m) = 8 * (s * m) := by ring
  have hne : s * (8 * m) ≠ 8 * (begin / 8) + 8 := by
    intro h
    apply hsec
    rw [← h, Nat.mul_mod_left]
  have hfirst : max begin (s * (8 * m)) = begin := by
    apply max_eq_left
    have := (le_max_right begin (s * (8 * m))).trans hbounds.1
    omega
  have hbyte : byteZero (fun o => Matches bloom filters (s * (8 * m) + o))
      ((begin - s * (8 * m)) / 8) = true := by
    simp only [byteZero, List.all_eq_true, List.mem_range, Bool.not_eq_true']
    intro k hk
    have hidx : s * (8 * m) + (8 * ((begin - s * (8 * m)) / 8) + k) = 8 * (begin / 8) + k := by
      omega
    rw [hidx, hz k hk]
  rw [hfirst] at hes
  generalize min end_ (s * (8 * m) + 8 * m - 1) + 1 - begin = n at hes
  cases n with
  | zero => simp [emit] at hes
  | succ n =>
    rw [emit_of_byteZero hbyte] at hes
    split_ifs at hes
    · simp at hes
    · have := (mem_emit_bounds hes).1
      omega

/-- Sections of 16 blocks, one clause on bits 1, 2 and 3, which only block 8 has: `Start(3,
15)` sends nothing. -/
theorem start_skips_match_block8 :
    let bloom : Blooms := fun i b => i == 8 && (b == 1 || b == 2 || b == 3)
    8 * (3 / 8) + 8 ∈ matchingBlocks bloom [[(1, 2, 3)]] 3 15 ∧
      8 * (3 / 8) + 8 ∉ start (bitsetOf bloom 16) 16 [[(1, 2, 3)]] 3 15 := by
  intro bloom
  exact start_skips_match (by decide) (by decide) (by decide) (by decide) (by decide)
    (by decide) (by decide)

example : start (bitsetOf (fun i b => i == 8 && (b == 1 || b == 2 || b == 3)) 16) 16
    [[(1, 2, 3)]] 3 15 = [] := by decide

end Sphinx.Bloombits
