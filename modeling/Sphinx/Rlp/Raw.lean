import Sphinx.Rlp.Stream

/-! # Splitting raw RLP

`raw.go` splits a byte slice into the first RLP value and the bytes after it without
decoding it: `readKind` reads the header and `readSize` the size of a long header, and
`Split`, `SplitString`, `SplitList` and `CountValues` are built from them. A Go slice
index out of range panics; the model's functions return `none` for the panic and `some`
of the Go result otherwise.

`readKind` refuses a one-byte string whose byte should have been a single byte by
reading `buf[1]` without a length check, so the one slice `[0x81]` makes `Split` panic
(`split_eq_none_iff`), and with it the three functions built on it.
-/

namespace Sphinx.Rlp.Raw

/-- `readSize`: the big-endian size of a long header from the `slen` bytes after its tag;
sizes below 56 and sizes with a leading zero byte are refused. -/
def readSize (b : List UInt8) (slen : ℕ) : Except Error ℕ :=
  if slen > b.length then .error .unexpectedEOF
  else if BigEndian.ofBytes (b.take slen) < 56 ∨ b.head? = some 0 then .error .canonSize
  else .ok (BigEndian.ofBytes (b.take slen))

/-- The switch of `readKind` on the first byte `b`, with `rest` the bytes after it: the
kind, the tag size and the content size. -/
def readHeader (b : UInt8) (rest : List UInt8) : Option (Except Error (Kind × ℕ × ℕ)) :=
  if b < 0x80 then some (.ok (.byte, 0, 1))
  else if b < 0xB8 then
    if b.toNat - 0x80 = 1 then
      -- `buf[1]` is indexed without a length check
      rest.head?.map fun b1 => if b1 < 128 then .error .canonSize else .ok (.string, 1, 1)
    else some (.ok (.string, 1, b.toNat - 0x80))
  else if b < 0xC0 then
    some ((readSize rest (b.toNat - 0xB7)).map fun s => (.string, b.toNat - 0xB7 + 1, s))
  else if b < 0xF8 then some (.ok (.list, 1, b.toNat - 0xC0))
  else some ((readSize rest (b.toNat - 0xF7)).map fun s => (.list, b.toNat - 0xF7 + 1, s))

/-- `readKind`: the header of the first value, refused when its content runs past the
input. The tag is never longer than the input, so the source's `uint64` subtraction is
the one on `ℕ`. -/
def readKind (buf : List UInt8) : Option (Except Error (Kind × ℕ × ℕ)) :=
  match buf with
  | [] => some (.error .unexpectedEOF)
  | b :: rest =>
    (readHeader b rest).map fun r => r.bind fun (k, tagsize, contentsize) =>
      if contentsize > (b :: rest).length - tagsize then .error .valueTooLarge
      else .ok (k, tagsize, contentsize)

/-- `Split`: the kind, the content and the bytes after the first value. -/
def split (b : List UInt8) : Option (Except Error (Kind × List UInt8 × List UInt8)) :=
  (readKind b).map fun r => r.map fun (k, ts, cs) => (k, (b.drop ts).take cs, b.drop (ts + cs))

def splitString (b : List UInt8) : Option (Except Error (List UInt8 × List UInt8)) :=
  (split b).map fun r => r.bind fun (k, content, rest) =>
    if k = .list then .error .expectedString else .ok (content, rest)

def splitList (b : List UInt8) : Option (Except Error (List UInt8 × List UInt8)) :=
  (split b).map fun r => r.bind fun (k, content, rest) =>
    if k ≠ .list then .error .expectedList else .ok (content, rest)

/-- The loop of `CountValues`, one value a step; `fuel` bounds the steps, and every
step consumes a byte, so the length of the input is enough. -/
def countValuesFrom : ℕ → List UInt8 → Option (Except Error ℕ)
  | _, [] => some (.ok 0)
  | 0, _ :: _ => some (.error .outOfFuel)
  | fuel + 1, b@(_ :: _) =>
    match readKind b with
    | none => none
    | some (.error e) => some (.error e)
    | some (.ok (_, tagsize, size)) =>
      (countValuesFrom fuel (b.drop (tagsize + size))).map fun r => r.map (· + 1)

def countValues (b : List UInt8) : Option (Except Error ℕ) :=
  countValuesFrom b.length b

/-! ## The panic -/

theorem readHeader_eq_none_iff {b : UInt8} {rest : List UInt8} :
    readHeader b rest = none ↔ b = 0x81 ∧ rest = [] := by
  have hlt : ∀ c : UInt8, (b < c ↔ b.toNat < c.toNat) := fun _ => UInt8.lt_iff_toNat_lt
  constructor
  · intro h
    unfold readHeader at h
    split_ifs at h with h₁ h₂ h₃
    simp only [hlt, UInt8.reduceToNat, not_lt] at h₁ h₂
    cases rest with
    | nil => exact ⟨UInt8.toNat_inj.mp (by simp; omega), rfl⟩
    | cons b1 _ => simp at h
  · rintro ⟨rfl, rfl⟩
    decide

theorem readKind_eq_none_iff {buf : List UInt8} : readKind buf = none ↔ buf = [0x81] := by
  cases buf with
  | nil => simp [readKind]
  | cons b rest =>
    simp only [readKind, Option.map_eq_none_iff, readHeader_eq_none_iff, List.cons.injEq]

/-- `Split` panics exactly on the slice `[0x81]`. -/
theorem split_eq_none_iff {b : List UInt8} : split b = none ↔ b = [0x81] := by
  simp [split, readKind_eq_none_iff]

/-! ## Splitting an encoding

`Split` reads back what the encoder writes: the header `puthead` puts in front of a
string or a list is the header `readKind` accepts, of the same size. -/

section Encoded

open BigEndian

theorem readSize_putint {size : ℕ} (hs : 56 ≤ size) (rest : List UInt8) :
    readSize (putint size ++ rest) (intsize size) = .ok size := by
  have hne : size ≠ 0 := by omega
  have hput : putint size = toBytes size := by simp [putint, hne]
  have hlen : (putint size).length = intsize size := length_putint size
  have hhead : (putint size ++ rest).head? ≠ some 0 := by
    have hnz := toBytes_noLeadingZero size
    have hne' : toBytes size ≠ [] := toBytes_ne_nil hne
    rw [hput, List.head?_append_of_ne_nil _ hne']
    exact hnz
  have htake : (putint size ++ rest).take (intsize size) = toBytes size := by
    rw [← hlen, List.take_left', hput]
    rfl
  simp only [readSize, htake, ofBytes_toBytes, List.length_append, hlen]
  rw [if_neg (by omega), if_neg (by simp only [not_or]; exact ⟨by omega, hhead⟩)]

/-- The size of a long header fits the eight bytes a tag can announce. -/
theorem intsize_le_eight {size : ℕ} (h : size < 2 ^ 64) : 1 ≤ intsize size ∧ intsize size ≤ 8 := by
  have h8 : (toBytes size).length ≤ 8 := (length_toBytes_le_iff size 8).mpr (by simpa using h)
  simp only [intsize]
  omega

/-- The tag byte of a long header, as a number. -/
theorem toNat_longTag {large : UInt8} {size : ℕ} (hl : large.toNat + 8 < 256)
    (h : size < 2 ^ 64) :
    (large + (intsize size).toUInt8).toNat = large.toNat + intsize size := by
  have := intsize_le_eight h
  simp only [UInt8.toNat_add, Nat.toUInt8_eq, UInt8.toNat_ofNat']
  omega

theorem readKind_puthead_list {size : ℕ} {payload rest : List UInt8} (hp : payload.length = size)
    (h : size < 2 ^ 64) :
    readKind (puthead 0xC0 0xF7 size ++ payload ++ rest) =
      some (.ok (.list, headsize size, size)) := by
  have hlt : ∀ b c : UInt8, (b < c ↔ b.toNat < c.toNat) := fun _ _ => UInt8.lt_iff_toNat_lt
  by_cases hs : size < 56
  · have htag : (0xC0 + size.toUInt8 : UInt8).toNat = 0xC0 + size := by
      simp only [UInt8.toNat_add, Nat.toUInt8_eq, UInt8.toNat_ofNat', UInt8.reduceToNat]
      omega
    simp only [puthead, hs, if_true, List.cons_append, readKind, readHeader, hlt, htag,
      UInt8.reduceToNat, headsize]
    rw [if_neg (by omega), if_neg (by omega), if_neg (by omega), if_pos (by omega)]
    simp [Option.map, Except.bind, hp]
  · have hti : ((0xF7 : UInt8) + (intsize size).toUInt8).toNat = 0xF7 + intsize size :=
      toNat_longTag (by decide) h
    have hb := intsize_le_eight h
    simp only [puthead, hs, if_false, List.cons_append, readKind, readHeader, hlt, hti,
      UInt8.reduceToNat, headsize]
    rw [if_neg (by omega), if_neg (by omega), if_neg (by omega), if_neg (by omega),
      show 247 + intsize size - 247 = intsize size by omega, List.append_assoc,
      readSize_putint (by omega)]
    simp [Option.map, Except.map, Except.bind, hp, length_putint]
    omega

theorem split_of_readKind {hd payload rest : List UInt8} {k : Kind}
    (h : readKind (hd ++ payload ++ rest) = some (.ok (k, hd.length, payload.length))) :
    split (hd ++ payload ++ rest) = some (.ok (k, payload, rest)) := by
  simp only [split, h, Option.map_some, Except.map]
  rw [List.append_assoc, List.drop_left, ← List.length_append, ← List.append_assoc,
    List.drop_left, List.take_left]

theorem readKind_puthead_string {size : ℕ} {payload rest : List UInt8}
    (hp : payload.length = size) (h1 : size ≠ 1) (h : size < 2 ^ 64) :
    readKind (puthead 0x80 0xB7 size ++ payload ++ rest) =
      some (.ok (.string, headsize size, size)) := by
  have hlt : ∀ b c : UInt8, (b < c ↔ b.toNat < c.toNat) := fun _ _ => UInt8.lt_iff_toNat_lt
  by_cases hs : size < 56
  · have htag : (0x80 + size.toUInt8 : UInt8).toNat = 0x80 + size := by
      simp only [UInt8.toNat_add, Nat.toUInt8_eq, UInt8.toNat_ofNat', UInt8.reduceToNat]
      omega
    simp only [puthead, hs, if_true, List.cons_append, readKind, readHeader, hlt, htag,
      UInt8.reduceToNat, headsize]
    rw [if_neg (by omega), if_pos (by omega), if_neg (by omega)]
    simp [Option.map, Except.bind, hp]
  · have hti : ((0xB7 : UInt8) + (intsize size).toUInt8).toNat = 0xB7 + intsize size :=
      toNat_longTag (by decide) h
    have hb := intsize_le_eight h
    simp only [puthead, hs, if_false, List.cons_append, readKind, readHeader, hlt, hti,
      UInt8.reduceToNat, headsize]
    rw [if_neg (by omega), if_neg (by omega), if_pos (by omega),
      show 183 + intsize size - 183 = intsize size by omega, List.append_assoc,
      readSize_putint (by omega)]
    simp [Option.map, Except.map, Except.bind, hp, length_putint]
    omega

theorem encString_of_length_ne_one {b : List UInt8} (h : b.length ≠ 1) :
    encString b = puthead 0x80 0xB7 b.length ++ b := by
  match b, h with
  | [], _ => rfl
  | [_], h => simp at h
  | _ :: _ :: _, _ => rfl

/-- A string's encoding splits into the string and what follows; a single byte below
0x80 is read as a byte, anything else as a string. -/
theorem split_encString {b rest : List UInt8} (h : b.length < 2 ^ 64) :
    ∃ k, k ≠ .list ∧ (b.length ≠ 1 → k = .string) ∧
      split (encString b ++ rest) = some (.ok (k, b, rest)) := by
  by_cases hb : b.length = 1
  · obtain ⟨c, rfl⟩ := List.length_eq_one_iff.mp hb
    by_cases hc : c ≤ 0x7F
    · refine ⟨.byte, by decide, by simp, ?_⟩
      have hc' : c < 0x80 := by
        rw [UInt8.lt_iff_toNat_lt]
        rw [UInt8.le_iff_toNat_le] at hc
        simp at hc ⊢
        omega
      simp [encString, hc, split, readKind, readHeader, hc', Except.map, Except.bind]
    · refine ⟨.string, by decide, fun _ => rfl, ?_⟩
      have hc' : ¬ c < 128 := by
        rw [UInt8.lt_iff_toNat_lt]
        rw [UInt8.le_iff_toNat_le] at hc
        simp at hc ⊢
        omega
      simp [encString, hc, split, readKind, readHeader, hc', puthead, Except.map, Except.bind]
  · refine ⟨.string, by decide, fun _ => rfl, ?_⟩
    have hk : readKind (puthead 0x80 0xB7 b.length ++ b ++ rest) =
        some (.ok (.string, headsize b.length, b.length)) :=
      readKind_puthead_string rfl hb h
    rw [← length_puthead 0x80 0xB7] at hk
    rw [encString_of_length_ne_one hb]
    exact split_of_readKind hk

/-- A list's encoding splits into its payload and what follows. -/
theorem split_encList {payload rest : List UInt8} (h : payload.length < 2 ^ 64) :
    split (encList payload ++ rest) = some (.ok (.list, payload, rest)) := by
  have hk : readKind (puthead 0xC0 0xF7 payload.length ++ payload ++ rest) =
      some (.ok (.list, headsize payload.length, payload.length)) :=
    readKind_puthead_list rfl h
  rw [← length_puthead 0xC0 0xF7] at hk
  exact split_of_readKind hk

theorem splitList_encList {payload rest : List UInt8} (h : payload.length < 2 ^ 64) :
    splitList (encList payload ++ rest) = some (.ok (payload, rest)) := by
  simp [splitList, split_encList h, Except.bind]

theorem splitString_encString {b rest : List UInt8} (h : b.length < 2 ^ 64) :
    splitString (encString b ++ rest) = some (.ok (b, rest)) := by
  obtain ⟨k, hk, -, hs⟩ := @split_encString b rest h
  simp [splitString, hs, Except.bind, hk]

theorem readKind_of_split {b c rest : List UInt8} {k : Kind}
    (h : split b = some (.ok (k, c, rest))) :
    ∃ ts cs, readKind b = some (.ok (k, ts, cs)) ∧ b.drop (ts + cs) = rest := by
  simp only [split] at h
  cases hk : readKind b with
  | none => simp [hk] at h
  | some r =>
    cases r with
    | error e => simp [hk, Except.map] at h
    | ok x =>
      obtain ⟨k', ts, cs⟩ := x
      simp only [hk, Option.map_some, Except.map, Option.some.injEq, Except.ok.injEq,
        Prod.mk.injEq] at h
      obtain ⟨rfl, -, rfl⟩ := h
      exact ⟨ts, cs, rfl, rfl⟩

theorem countValuesFrom_split {e rest c : List UInt8} {k : Kind} (hne : e ≠ [])
    (h : split (e ++ rest) = some (.ok (k, c, rest))) (fuel : ℕ) :
    countValuesFrom (fuel + 1) (e ++ rest) =
      (countValuesFrom fuel rest).map fun r => r.map (· + 1) := by
  obtain ⟨ts, cs, hk, hd⟩ := readKind_of_split h
  obtain ⟨x, xs, hx⟩ := List.exists_cons_of_ne_nil hne
  have hb : e ++ rest = x :: (xs ++ rest) := by rw [hx, List.cons_append]
  rw [hb] at hk hd ⊢
  simp only [countValuesFrom, hk, hd]

theorem countValuesFrom_flatten {es : List (List UInt8)}
    (h : ∀ e ∈ es, e ≠ [] ∧ ∀ rest, ∃ k c, split (e ++ rest) = some (.ok (k, c, rest))) :
    ∀ fuel, es.length ≤ fuel → countValuesFrom fuel es.flatten = some (.ok es.length) := by
  induction es with
  | nil =>
    intro fuel _
    cases fuel <;> rfl
  | cons e es ih =>
    intro fuel hf
    obtain ⟨fuel, rfl⟩ : ∃ f, fuel = f + 1 := ⟨fuel - 1, by simp at hf; omega⟩
    obtain ⟨hne, hs⟩ := h e List.mem_cons_self
    obtain ⟨k, c, hsplit⟩ := hs es.flatten
    rw [List.flatten_cons, countValuesFrom_split hne hsplit,
      ih (fun e he => h e (List.mem_cons_of_mem _ he)) fuel (by simp at hf; omega)]
    simp [Except.map]

theorem countValues_flatten {es : List (List UInt8)}
    (h : ∀ e ∈ es, e ≠ [] ∧ ∀ rest, ∃ k c, split (e ++ rest) = some (.ok (k, c, rest))) :
    countValues es.flatten = some (.ok es.length) := by
  apply countValuesFrom_flatten h
  have : ∀ es : List (List UInt8), (∀ e ∈ es, e ≠ []) → es.length ≤ es.flatten.length := by
    intro es hes
    induction es with
    | nil => simp
    | cons e es ih =>
      have he : e.length ≠ 0 := by simpa using (hes e List.mem_cons_self)
      simp only [List.length_cons, List.flatten_cons, List.length_append]
      have := ih (fun e' h' => hes e' (List.mem_cons_of_mem _ h'))
      omega
  exact this es (fun e he => (h e he).1)

end Encoded

end Sphinx.Rlp.Raw
