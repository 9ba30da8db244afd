import Sphinx.Common.Types
import Sphinx.Lib.MsbFirst

/-! # Sparse bit-set compression

`CompressBytes` writes a byte string as the compressed bit set of its non-zero bytes
followed by those bytes, recursively: the bit set of `n` bytes has `(n + 7) / 8` bytes, a
single byte stands for itself, and a string of zeros compresses to nothing. When that is
not shorter than the input the input is kept as it is. `DecompressBytes` is told the
length of the original and reverses this, refusing a bit set that points past the data or
past the target, a zero where a non-zero byte is expected, and data left over.

Decompression undoes compression (`decompressBytes_compressBytes`), and what
`bitsetDecodeBytes` accepts is exactly what `bitsetEncodeBytes` writes: every input it
decodes is the encoding of its output (`bitsetEncodeBytes_of_decode`). Go's `int`
target cannot be negative here; a negative one makes `make` panic, so it never decodes.
-/

namespace Sphinx.Bitutil

inductive CompressError
  | missingData
  | unreferencedData
  | exceededTarget
  | zeroContent
  deriving DecidableEq, Repr

/-- The texts of the decompression errors. -/
def CompressError.text : CompressError → String
  | missingData => "missing bytes on input"
  | unreferencedData => "extra bytes on input"
  | exceededTarget => "target data size exceeded"
  | zeroContent => "zero byte in input content"

/-! ## Compression -/

/-- One pass of the loop of `bitsetEncodeBytes` over the bit set: when `data[i]` is not
zero, set bit `i`, most significant first. -/
def markNonZero (data bitset : Bytes) (i : ℕ) : Bytes :=
  if data[i]?.getD 0 ≠ 0 then bitset.modify (i / 8) (· ||| 1 <<< (7 - i % 8).toUInt8)
  else bitset

/-- The bit set `bitsetEncodeBytes` builds, of `(len(data) + 7) / 8` bytes. -/
def nonZeroBitset (data : Bytes) : Bytes :=
  (List.range data.length).foldl (markNonZero data) (List.replicate ((data.length + 7) / 8) 0)

/-- The loop of `bitsetEncodeBytes` gathering the non-zero bytes, in order. -/
def nonZeroBytes (data : Bytes) : Bytes := data.filter (· ≠ 0)

theorem foldl_markNonZero (data : Bytes) :
    ∀ k ≤ data.length,
      let r := (List.range k).foldl (markNonZero data) (List.replicate ((data.length + 7) / 8) 0)
      r.length = (data.length + 7) / 8 ∧
        ∀ o, MsbFirst.bit r o = decide (o < k ∧ data[o]?.getD 0 ≠ 0)
  | 0, _ => by simp
  | k + 1, hk => by
    obtain ⟨hlen, hbit⟩ := foldl_markNonZero data k (by omega)
    simp only [List.range_succ, List.foldl_append, List.foldl_cons, List.foldl_nil]
    generalize (List.range k).foldl (markNonZero data)
      (List.replicate ((data.length + 7) / 8) 0) = r at hlen hbit
    unfold markNonZero
    split
    · have hk8 : k / 8 < r.length := by omega
      refine ⟨by simpa using hlen, fun o => ?_⟩
      rw [MsbFirst.bit_modify hk8, hbit]
      by_cases ho : o = k
      · subst ho
        simp_all
      · have : o < k + 1 ↔ o < k := by omega
        simp [Ne.symm ho, this]
    · refine ⟨hlen, fun o => ?_⟩
      rw [hbit]
      by_cases ho : o = k
      · subst ho
        simp_all
      · have : o < k + 1 ↔ o < k := by omega
        simp [this]

theorem length_nonZeroBitset (data : Bytes) :
    (nonZeroBitset data).length = (data.length + 7) / 8 :=
  (foldl_markNonZero data data.length le_rfl).1

theorem bit_nonZeroBitset (data : Bytes) (o : ℕ) :
    MsbFirst.bit (nonZeroBitset data) o = decide (data[o]?.getD 0 ≠ 0) := by
  rw [nonZeroBitset, (foldl_markNonZero data data.length le_rfl).2 o]
  by_cases ho : o < data.length
  · simp [ho]
  · simp [ho]

/-- `bitsetEncodeBytes`. -/
def bitsetEncodeBytes (data : Bytes) : Bytes :=
  if data.length = 0 then []
  else if data.length = 1 then (if data[0]?.getD 0 = 0 then [] else data)
  else if (nonZeroBytes data).length = 0 then []
  else bitsetEncodeBytes (nonZeroBitset data) ++ nonZeroBytes data
termination_by data.length
decreasing_by
  rw [length_nonZeroBitset]
  omega

section Encode

theorem nonZeroBytes_eq_nil_iff {data : Bytes} :
    nonZeroBytes data = [] ↔ data = List.replicate data.length 0 := by
  simp [nonZeroBytes, List.filter_eq_nil_iff, List.eq_replicate_iff]

theorem nonZeroBytes_nonZeroBitset_eq_nil_iff {data : Bytes} :
    nonZeroBytes (nonZeroBitset data) = [] ↔ nonZeroBytes data = [] := by
  rw [nonZeroBytes_eq_nil_iff, nonZeroBytes_eq_nil_iff]
  constructor
  · intro h
    apply List.ext_getElem? fun o => ?_
    have hb := bit_nonZeroBitset data o
    rw [h, MsbFirst.bit_replicate_zero] at hb
    rw [List.getElem?_replicate]
    cases ho : data[o]? with
    | none => simp_all
    | some b =>
      have hlt := (List.getElem?_eq_some_iff.mp ho).1
      simp_all
  · intro h
    apply MsbFirst.ext_bit (by simp) fun o => ?_
    rw [bit_nonZeroBitset, MsbFirst.bit_replicate_zero, h, List.getElem?_replicate]
    split <;> simp

theorem bitsetEncodeBytes_eq_nil_iff (data : Bytes) :
    bitsetEncodeBytes data = [] ↔ nonZeroBytes data = [] := by
  rw [bitsetEncodeBytes]
  by_cases h0 : data.length = 0
  · simp [List.length_eq_zero_iff.mp h0, nonZeroBytes]
  by_cases h1 : data.length = 1
  · obtain ⟨b, rfl⟩ := List.length_eq_one_iff.mp h1
    by_cases hb : b = 0 <;> simp [hb, nonZeroBytes]
  rw [if_neg h0, if_neg h1]
  split <;> simp_all

theorem bitsetEncodeBytes_of_two_le {data : Bytes} (h : 2 ≤ data.length)
    (hnz : nonZeroBytes data ≠ []) :
    bitsetEncodeBytes data = bitsetEncodeBytes (nonZeroBitset data) ++ nonZeroBytes data := by
  rw [bitsetEncodeBytes, if_neg (by omega), if_neg (by omega), if_neg (by simpa using hnz)]

end Encode

/-- `CompressBytes`: the encoding when it is shorter, else a copy of the input. -/
def compressBytes (data : Bytes) : Bytes :=
  let out := bitsetEncodeBytes data
  if out.length < data.length then out else data

/-! ## Decompression -/

/-- One pass of the loop of `bitsetDecodePartialBytes` with the output `decomp` and the
read pointer `ptr`: bit `i` of the bit set takes the next byte of the input. -/
def distribute (data nonZeroBitset : Bytes) : Bytes × ℕ → ℕ → Except CompressError (Bytes × ℕ)
  | (decomp, ptr), i =>
    if (nonZeroBitset[i / 8]?.getD 0) &&& 1 <<< (7 - i % 8).toUInt8 ≠ 0 then
      if ptr ≥ data.length then .error .missingData
      else if i ≥ decomp.length then .error .exceededTarget
      else if data[ptr]?.getD 0 = 0 then .error .zeroContent
      else .ok (decomp.set i (data[ptr]?.getD 0), ptr + 1)
    else .ok (decomp, ptr)

/-- `bitsetDecodePartialBytes`: the output and the length of input it used. -/
def bitsetDecodePartialBytes (data : Bytes) (target : ℕ) : Except CompressError (Bytes × ℕ) :=
  if target = 0 then .ok ([], 0)
  else if data.length = 0 then .ok (List.replicate target 0, 0)
  else if target = 1 then .ok ([data[0]?.getD 0], if data[0]?.getD 0 ≠ 0 then 1 else 0)
  else do
    let (nonZeroBitset, ptr) ← bitsetDecodePartialBytes data ((target + 7) / 8)
    (List.range (8 * nonZeroBitset.length)).foldlM (distribute data nonZeroBitset)
      (List.replicate target 0, ptr)
termination_by target
decreasing_by omega

/-- `bitsetDecodeBytes`: a partial decoding that used the whole input. -/
def bitsetDecodeBytes (data : Bytes) (target : ℕ) : Except CompressError Bytes := do
  let (out, size) ← bitsetDecodePartialBytes data target
  if size ≠ data.length then .error .unreferencedData else .ok out

/-- `DecompressBytes`: an input as long as the target is a copy of it. -/
def decompressBytes (data : Bytes) (target : ℕ) : Except CompressError Bytes :=
  if data.length > target then .error .exceededTarget
  else if data.length = target then .ok data
  else bitsetDecodeBytes data target

/-! ## Non-zero bytes -/

section NonZero

@[simp] theorem nonZeroBytes_nil : nonZeroBytes [] = [] := rfl

@[simp] theorem nonZeroBytes_cons (b : UInt8) (x : Bytes) :
    nonZeroBytes (b :: x) = if b = 0 then nonZeroBytes x else b :: nonZeroBytes x := by
  by_cases hb : b = 0 <;> simp [nonZeroBytes, hb]

@[simp] theorem nonZeroBytes_append (x y : Bytes) :
    nonZeroBytes (x ++ y) = nonZeroBytes x ++ nonZeroBytes y := List.filter_append x y

theorem nonZeroBytes_take_succ (x : Bytes) (k : ℕ) :
    nonZeroBytes (x.take (k + 1)) =
      nonZeroBytes (x.take k) ++ if x[k]?.getD 0 ≠ 0 then [x[k]?.getD 0] else [] := by
  rw [List.take_add_one, nonZeroBytes_append]
  cases x[k]? with
  | none => simp
  | some b => by_cases hb : b = 0 <;> simp [hb]

theorem getElem?_nonZeroBytes {x : Bytes} {k : ℕ} (hk : x[k]?.getD 0 ≠ 0) :
    (nonZeroBytes x)[(nonZeroBytes (x.take k)).length]? = some (x[k]?.getD 0) := by
  have hlt : k < x.length := by
    by_contra h
    simp [List.getElem?_eq_none (Nat.le_of_not_lt h)] at hk
  have hne : x[k] ≠ 0 := by simpa [List.getElem?_eq_getElem hlt] using hk
  have hsplit :
      nonZeroBytes x = nonZeroBytes (x.take k) ++ x[k] :: nonZeroBytes (x.drop (k + 1)) := by
    conv_lhs => rw [← List.take_append_drop k x, List.drop_eq_getElem_cons hlt]
    rw [nonZeroBytes_append, nonZeroBytes_cons, if_neg hne]
  rw [hsplit, List.getElem?_append_right le_rfl]
  simp [List.getElem?_eq_getElem hlt]

theorem nonZeroBytes_set {out : Bytes} {k : ℕ} {v : UInt8}
    (hz : ∀ i, k ≤ i → out[i]?.getD 0 = 0) (hk : k < out.length) (hv : v ≠ 0) :
    nonZeroBytes (out.set k v) = nonZeroBytes out ++ [v] := by
  have hdrop : ∀ j, k ≤ j → nonZeroBytes (out.drop j) = [] := by
    intro j hj
    simp only [nonZeroBytes, List.filter_eq_nil_iff, decide_not, Bool.not_eq_true',
      decide_eq_false_iff_not, not_not]
    intro b hb
    obtain ⟨i, hi⟩ := List.mem_iff_getElem?.mp hb
    rw [List.getElem?_drop] at hi
    simpa [hi] using hz (j + i) (by omega)
  rw [List.set_eq_take_append_cons_drop, if_pos hk, nonZeroBytes_append, nonZeroBytes_cons,
    if_neg hv, hdrop (k + 1) (by omega)]
  conv_rhs => rw [← List.take_append_drop k out, nonZeroBytes_append, hdrop k le_rfl]
  simp

theorem take_drop_succ {data : Bytes} {p q : ℕ} (hpq : p ≤ q) (hq : q < data.length) :
    (data.drop p).take (q + 1 - p) = (data.drop p).take (q - p) ++ [data[q]?.getD 0] := by
  rw [show q + 1 - p = q - p + 1 by omega, List.take_add_one, List.getElem?_drop,
    show p + (q - p) = q by omega, List.getElem?_eq_getElem hq]
  simp

end NonZero

/-! ## The decoding loop -/

section Loop

theorem distribute_eq (data nonZeroBitset decomp : Bytes) (ptr i : ℕ) :
    distribute data nonZeroBitset (decomp, ptr) i =
      if MsbFirst.bit nonZeroBitset i then
        if ptr ≥ data.length then .error .missingData
        else if i ≥ decomp.length then .error .exceededTarget
        else if data[ptr]?.getD 0 = 0 then .error .zeroContent
        else .ok (decomp.set i (data[ptr]?.getD 0), ptr + 1)
      else .ok (decomp, ptr) := by
  have hmask := MsbFirst.and_mask_ne_zero (nonZeroBitset[i / 8]?.getD 0)
    (show 7 - i % 8 < 8 by omega)
  by_cases hb : MsbFirst.bit nonZeroBitset i = true
  · rw [distribute, if_pos (hmask.mpr hb), if_pos hb]
  · rw [distribute, if_neg (mt hmask.mp hb), if_neg hb]

variable {data nonZeroBitset : Bytes}

/-- What a decoding loop that got through the first `k` bits has done: the output holds a
non-zero byte exactly at the set bits below `k`, and these are the input bytes it read
from `p` on, in order. -/
theorem foldlM_distribute_sound {t p : ℕ} (hp : p ≤ data.length) :
    ∀ k (out : Bytes) (q : ℕ),
      (List.range k).foldlM (distribute data nonZeroBitset) (List.replicate t 0, p) =
        .ok (out, q) →
      out.length = t ∧ p ≤ q ∧ q ≤ data.length ∧
        (∀ i, out[i]?.getD 0 ≠ 0 ↔ i < k ∧ MsbFirst.bit nonZeroBitset i = true) ∧
        nonZeroBytes out = (data.drop p).take (q - p)
  | 0, out, q, h => by
    obtain ⟨rfl, rfl⟩ : List.replicate t 0 = out ∧ p = q := by
      simpa [pure, Except.pure] using h
    refine ⟨by simp, le_rfl, hp, fun i => ?_, by simp [nonZeroBytes_eq_nil_iff]⟩
    rw [List.getElem?_replicate]
    split <;> simp
  | k + 1, out, q, h => by
    rw [List.range_succ, List.foldlM_append] at h
    obtain ⟨⟨out₀, q₀⟩, h₀, h₁⟩ := except_bind_eq_ok h
    obtain ⟨hlen, hpq, hq, hnz, hbytes⟩ := foldlM_distribute_sound hp k out₀ q₀ h₀
    simp only [List.foldlM_cons, List.foldlM_nil, bind_pure, distribute_eq] at h₁
    by_cases hb : MsbFirst.bit nonZeroBitset k = true
    · simp only [hb, if_true] at h₁
      split_ifs at h₁ with h1 h2 h3
      obtain ⟨rfl, rfl⟩ : out₀.set k (data[q₀]?.getD 0) = out ∧ q₀ + 1 = q := by
        simpa [pure, Except.pure] using h₁
      have hzero : ∀ i, k ≤ i → out₀[i]?.getD 0 = 0 := fun i hi => by
        by_contra hne
        have := (hnz i).mp hne
        omega
      refine ⟨by simp [hlen], by omega, by omega, fun i => ?_, ?_⟩
      · rw [List.getElem?_set]
        by_cases hi : k = i
        · subst hi
          simp [show k < out₀.length by omega, h3, hb]
        · have hlt : i < k + 1 ↔ i < k := by omega
          simp [hi, hnz i, hlt]
      · rw [nonZeroBytes_set hzero (by omega) h3, hbytes, take_drop_succ hpq (by omega)]
    · simp only [hb, Bool.false_eq_true, if_false] at h₁
      obtain ⟨rfl, rfl⟩ : out₀ = out ∧ q₀ = q := by simpa [pure, Except.pure] using h₁
      refine ⟨hlen, hpq, hq, fun i => ?_, hbytes⟩
      rw [hnz i]
      by_cases hi : i = k
      · subst hi
        simp [hb]
      · have hlt : i < k + 1 ↔ i < k := by omega
        simp [hlt]

/-- The bytes of `x` below `k`, zeros from `k` on: what the decoding loop has written after
`k` bits. -/
def keepBelow (x : Bytes) (k : ℕ) : Bytes := x.mapIdx fun i b => if i < k then b else 0

theorem keepBelow_zero (x : Bytes) : keepBelow x 0 = List.replicate x.length 0 := by
  apply List.ext_getElem? fun i => ?_
  rw [keepBelow, List.getElem?_mapIdx, List.getElem?_replicate]
  cases h : x[i]? with
  | none => simp [(List.getElem?_eq_none_iff.mp h)]
  | some b => simp [(List.getElem?_eq_some_iff.mp h).1]

theorem keepBelow_of_le {x : Bytes} {k : ℕ} (hk : x.length ≤ k) : keepBelow x k = x := by
  apply List.ext_getElem? fun i => ?_
  rw [keepBelow, List.getElem?_mapIdx]
  cases h : x[i]? with
  | none => rfl
  | some b =>
    have hi := (List.getElem?_eq_some_iff.mp h).1
    simp [show i < k by omega]

theorem keepBelow_succ (x : Bytes) (k : ℕ) :
    keepBelow x (k + 1) = if x[k]?.getD 0 ≠ 0 then (keepBelow x k).set k (x[k]?.getD 0)
      else keepBelow x k := by
  apply List.ext_getElem? fun i => ?_
  split
  · rw [List.getElem?_set]
    by_cases hi : k = i
    · subst hi
      cases h : x[k]? with
      | none => simp_all
      | some b => simp_all [keepBelow, (List.getElem?_eq_some_iff.mp h).1]
    · have hle : i ≤ k ↔ i < k := by omega
      simp [keepBelow, List.getElem?_mapIdx, hi, hle]
  · simp only [keepBelow, List.getElem?_mapIdx]
    by_cases hi : i = k
    · subst hi
      cases h : x[i]? <;> simp_all
    · have hlt : i < k + 1 ↔ i < k := by omega
      simp [hlt]

/-- The decoding loop over a bit set that marks the non-zero bytes of `x`, reading from an
input whose bytes from `pre.length` on are those of `x`: after `k` bits it has written the
bytes of `x` below `k` and read one input byte for each non-zero one. -/
theorem foldlM_distribute_complete {x pre rest : Bytes}
    (hbits : ∀ o, MsbFirst.bit nonZeroBitset o = decide (x[o]?.getD 0 ≠ 0))
    (hdata : data = pre ++ nonZeroBytes x ++ rest) :
    ∀ k, (List.range k).foldlM (distribute data nonZeroBitset) (List.replicate x.length 0, pre.length) =
      .ok (keepBelow x k, pre.length + (nonZeroBytes (x.take k)).length)
  | 0 => by simp [keepBelow_zero, pure, Except.pure]
  | k + 1 => by
    rw [List.range_succ, List.foldlM_append, foldlM_distribute_complete hbits hdata k]
    simp only [bind, Except.bind, List.foldlM_cons, List.foldlM_nil, distribute_eq, hbits,
      keepBelow_succ, nonZeroBytes_take_succ]
    by_cases hk : x[k]?.getD 0 ≠ 0
    · have hget := getElem?_nonZeroBytes hk
      have hlt : (nonZeroBytes (x.take k)).length < (nonZeroBytes x).length :=
        (List.getElem?_eq_some_iff.mp hget).1
      have hread : data[pre.length + (nonZeroBytes (x.take k)).length]? = some (x[k]?.getD 0) := by
        rw [hdata, List.append_assoc, List.getElem?_append_right (by omega),
          Nat.add_sub_cancel_left, List.getElem?_append_left hlt, hget]
      have hkx : k < (keepBelow x k).length := by
        by_contra hge
        simp [keepBelow] at hge
        simp [List.getElem?_eq_none hge] at hk
      have hptr : pre.length + (nonZeroBytes (x.take k)).length < data.length := by
        by_contra hge
        simp [List.getElem?_eq_none (Nat.le_of_not_lt hge)] at hread
      simp [hk, hread, Nat.not_le.mpr hptr, Nat.not_le.mpr hkx, Nat.add_assoc, pure, Except.pure]
    · simp [hk, pure, Except.pure]

end Loop

/-! ## Round trip and canonical form -/

section RoundTrip

/-- Decoding, with the length as target, the encoding of a string with a non-zero byte
followed by anything gives the string back and stops at the end of the encoding. -/
theorem decodePartial_encode (n : ℕ) :
    ∀ x : Bytes, x.length = n → nonZeroBytes x ≠ [] → ∀ rest : Bytes,
      bitsetDecodePartialBytes (bitsetEncodeBytes x ++ rest) n =
        .ok (x, (bitsetEncodeBytes x).length) := by
  induction n using Nat.strong_induction_on with
  | _ n ih =>
  intro x hx hnz rest
  have hx0 : x ≠ [] := by rintro rfl; simp at hnz
  rcases Nat.lt_or_ge n 2 with hn | hn
  · have hn1 : x.length = 1 := by
      have := List.length_pos_iff.mpr hx0
      omega
    obtain ⟨b, rfl⟩ := List.length_eq_one_iff.mp hn1
    have hb : b ≠ 0 := by simpa using hnz
    subst hx
    rw [bitsetDecodePartialBytes]
    simp [bitsetEncodeBytes, hb]
  · have hB : (nonZeroBitset x).length = (n + 7) / 8 := by rw [length_nonZeroBitset, hx]
    have hBnz : nonZeroBytes (nonZeroBitset x) ≠ [] :=
      mt nonZeroBytes_nonZeroBitset_eq_nil_iff.mp hnz
    have henc := bitsetEncodeBytes_of_two_le (show 2 ≤ x.length by omega) hnz
    have hrec := ih ((n + 7) / 8) (by omega) (nonZeroBitset x) hB hBnz (nonZeroBytes x ++ rest)
    have hloop := @foldlM_distribute_complete (bitsetEncodeBytes x ++ rest) (nonZeroBitset x) x
      (bitsetEncodeBytes (nonZeroBitset x)) rest (bit_nonZeroBitset x)
      (by rw [henc, List.append_assoc]) (8 * (nonZeroBitset x).length)
    have hdata : bitsetEncodeBytes x ++ rest =
        bitsetEncodeBytes (nonZeroBitset x) ++ (nonZeroBytes x ++ rest) := by
      rw [henc, List.append_assoc]
    have hne : (bitsetEncodeBytes x ++ rest).length ≠ 0 := by
      have := List.length_pos_iff.mpr hnz
      rw [hdata, List.length_append, List.length_append]
      omega
    rw [← hdata] at hrec
    have hcover : x.length ≤ 8 * (nonZeroBitset x).length := by omega
    rw [bitsetDecodePartialBytes, if_neg (by omega), if_neg hne, if_neg (by omega), hrec]
    simp only [bind, Except.bind]
    rw [← hx, hloop, keepBelow_of_le hcover, List.take_of_length_le hcover, henc,
      List.length_append]

/-- What a partial decoding accepts is canonical: the input it used is the encoding of its
output. -/
theorem encode_decodePartial (t : ℕ) :
    ∀ (data out : Bytes) (size : ℕ), bitsetDecodePartialBytes data t = .ok (out, size) →
      out.length = t ∧ size ≤ data.length ∧ bitsetEncodeBytes out = data.take size := by
  induction t using Nat.strong_induction_on with
  | _ t ih =>
  intro data out size h
  rw [bitsetDecodePartialBytes] at h
  by_cases h0 : t = 0
  · obtain ⟨rfl, rfl⟩ : [] = out ∧ 0 = size := by simpa [h0] using h
    simp [h0, bitsetEncodeBytes]
  rw [if_neg h0] at h
  by_cases hd : data.length = 0
  · obtain ⟨rfl, rfl⟩ : List.replicate t 0 = out ∧ 0 = size := by simpa [hd] using h
    refine ⟨by simp, by omega, ?_⟩
    rw [List.take_zero, bitsetEncodeBytes_eq_nil_iff, nonZeroBytes_eq_nil_iff]
    simp
  rw [if_neg hd] at h
  obtain ⟨b, data', rfl⟩ : ∃ b data', data = b :: data' :=
    List.exists_cons_of_ne_nil (by rintro rfl; simp at hd)
  by_cases h1 : t = 1
  · obtain ⟨rfl, rfl⟩ : [b] = out ∧ (if b ≠ 0 then 1 else 0) = size := by simpa [h1] using h
    by_cases hb : b = 0 <;> simp [h1, hb, bitsetEncodeBytes]
  rw [if_neg h1] at h
  obtain ⟨⟨bitset, p⟩, hrec, hloop⟩ := except_bind_eq_ok h
  obtain ⟨hB, hp, hencB⟩ := ih ((t + 7) / 8) (by omega) _ bitset p hrec
  obtain ⟨hlen, hpq, hq, hnz, hbytes⟩ :=
    foldlM_distribute_sound hp (8 * bitset.length) out size hloop
  have hbitset : nonZeroBitset out = bitset := by
    apply MsbFirst.ext_bit (by rw [length_nonZeroBitset, hlen, hB]) fun o => ?_
    rw [bit_nonZeroBitset]
    by_cases ho : o < 8 * bitset.length
    · simp [hnz o, ho]
    · rw [MsbFirst.bit_of_length_le (by omega)]
      simp [hnz o, ho]
  refine ⟨hlen, hq, ?_⟩
  by_cases hout : nonZeroBytes out = []
  · have hsize : size = p := by
      rw [hout, eq_comm, List.take_eq_nil_iff, List.drop_eq_nil_iff] at hbytes
      omega
    rw [(bitsetEncodeBytes_eq_nil_iff out).mpr hout, hsize, ← hencB, ← hbitset,
      (bitsetEncodeBytes_eq_nil_iff _).mpr (nonZeroBytes_nonZeroBitset_eq_nil_iff.mpr hout)]
  · rw [bitsetEncodeBytes_of_two_le (by omega) hout, hbitset, hencB, hbytes, ← List.take_add,
      Nat.add_sub_cancel' hpq]

theorem decompressBytes_compressBytes (data : Bytes) :
    decompressBytes (compressBytes data) data.length = .ok data := by
  unfold compressBytes
  dsimp only
  split_ifs with hlt
  · rw [decompressBytes, if_neg (by omega), if_neg (by omega)]
    by_cases hnz : nonZeroBytes data = []
    · have hdata := nonZeroBytes_eq_nil_iff.mp hnz
      rw [(bitsetEncodeBytes_eq_nil_iff data).mpr hnz] at hlt ⊢
      rw [bitsetDecodeBytes, bitsetDecodePartialBytes, if_neg (by simpa using hlt.ne')]
      simp [bind, Except.bind, ← hdata]
    · have hdec := decodePartial_encode data.length data rfl hnz []
      rw [List.append_nil] at hdec
      simp [bitsetDecodeBytes, hdec, bind, Except.bind]
  · simp [decompressBytes]

theorem length_compressBytes_le (data : Bytes) : (compressBytes data).length ≤ data.length := by
  unfold compressBytes
  dsimp only
  split_ifs with hlt
  · exact hlt.le
  · exact le_rfl

theorem bitsetEncodeBytes_of_decode {c out : Bytes} {t : ℕ} (h : bitsetDecodeBytes c t = .ok out) :
    bitsetEncodeBytes out = c := by
  obtain ⟨⟨out₀, size⟩, hpart, hsize⟩ := except_bind_eq_ok h
  by_cases hs : size = c.length
  · obtain rfl : out₀ = out := by simpa [hs] using hsize
    obtain ⟨-, -, henc⟩ := encode_decodePartial t c out₀ size hpart
    rw [henc, hs, List.take_length]
  · simp [hs] at hsize

/-- Compression is undone by decompression and never lengthens its input, and the decoder
accepts no other encoding of a string than the one the encoder writes. -/
theorem compressBytes_roundtrip_canonical :
    (∀ d : Bytes, decompressBytes (compressBytes d) d.length = .ok d ∧
      (compressBytes d).length ≤ d.length) ∧
    ∀ (c : Bytes) (t : ℕ) (out : Bytes), bitsetDecodeBytes c t = .ok out →
      bitsetEncodeBytes out = c :=
  ⟨fun d => ⟨decompressBytes_compressBytes d, length_compressBytes_le d⟩,
    fun _ _ _ h => bitsetEncodeBytes_of_decode h⟩

theorem compressBytes_roundtrip_canonical_single :
    bitsetDecodeBytes [5] 1 = .ok [5] ∧ bitsetEncodeBytes [5] = [5] :=
  have h : bitsetDecodeBytes [5] 1 = .ok [5] := by
    simp [bitsetDecodeBytes, bitsetDecodePartialBytes, bind, Except.bind]
  ⟨h, compressBytes_roundtrip_canonical.2 [5] 1 [5] h⟩

end RoundTrip

end Sphinx.Bitutil
