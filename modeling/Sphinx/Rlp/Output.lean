import Sphinx.Rlp.Encode

/-! # The three outputs of the encoder

After a value is written into an `encbuf`, `encode.go` renders it in three ways:
`EncodeToBytes` copies the string data and the list headers into a buffer allocated with
`size()` bytes (`toBytes`), `Encode` writes them piece by piece to an `io.Writer`
(`toWriter`), and `EncodeToReader` hands out an `encReader` whose `Read` resumes inside a
piece across calls, keeping `piece`, `lhpos` and `strpos`.

All three give the bytes `toBytesFrom` renders, for every buffer whose headers are in order
and whose `lhsize` is the sum of their sizes (`Encbuf.Wf`), which every written value
leaves (`wf_writeVal`): `output_paths_agree`.
-/

namespace Sphinx.Rlp

namespace Encbuf

/-! ## `toBytes` as it copies -/

/-- `copy(out[pos:], src)`: `out` with the bytes of `src` that fit written from `pos`, and
their number. -/
def copyAt (out : List UInt8) (pos : ℕ) (src : List UInt8) : List UInt8 × ℕ :=
  let n := min (out.length - pos) src.length
  (out.take pos ++ src.take n ++ out.drop (pos + n), n)

/-- `head.encode(out[pos:])`: the header written into `out` from `pos`; `none` is the index
panic of `puthead` on a buffer too short for it. -/
def encodeAt (head : Listhead) (out : List UInt8) (pos : ℕ) : Option (List UInt8) :=
  if pos + headsize head.size ≤ out.length then
    some (out.take pos ++ head.encode ++ out.drop (pos + headsize head.size))
  else none

/-- The loop of `toBytes` over the remaining headers, with `out`, `strpos` and `pos`;
`none` is a panic, of the slice `w.str[strpos:head.offset]` or of a header write. -/
def toBytesLoop (str : List UInt8) :
    List UInt8 → ℕ → ℕ → List Listhead → Option (List UInt8)
  | out, strpos, pos, [] => some (copyAt out pos (str.drop strpos)).1
  | out, strpos, pos, head :: heads =>
    if head.offset < strpos ∨ str.length < head.offset then none
    else
      let (out, n) := copyAt out pos ((str.drop strpos).take (head.offset - strpos))
      match encodeAt head out (pos + n) with
      | none => none
      | some out => toBytesLoop str out (strpos + n) (pos + n + headsize head.size) heads

/-- `toBytes`, copying into `out := make([]byte, w.size())`. -/
def toBytesCopy (w : Encbuf) : Option (List UInt8) :=
  toBytesLoop w.str (List.replicate w.size 0) 0 0 w.lheads

/-! ## `toWriter` -/

/-- The writes of `toWriter` from string position `strpos` over the remaining headers, to a
writer that takes all it is given. -/
def toWriterFrom (str : List UInt8) : ℕ → List Listhead → List (List UInt8)
  | strpos, [] => if strpos < str.length then [str.drop strpos] else []
  | strpos, head :: heads =>
    if head.offset - strpos > 0 then
      (str.drop strpos).take (head.offset - strpos) :: head.encode ::
        toWriterFrom str (strpos + (head.offset - strpos)) heads
    else head.encode :: toWriterFrom str strpos heads

/-- `toWriter`: the writes it makes. -/
def toWriter (w : Encbuf) : List (List UInt8) :=
  toWriterFrom w.str 0 w.lheads

end Encbuf

/-! ## `encReader` -/

/-- The state of an `encReader`; `buf = none` once it has reached EOF and released the
buffer, and `piece = none` is a nil piece. -/
structure EncReader where
  buf : Option Encbuf
  lhpos : ℕ
  strpos : ℕ
  piece : Option (List UInt8)
  deriving DecidableEq, Repr

namespace EncReader

/-- `next`: the next piece to be read, `none` at EOF. -/
def next (r : EncReader) : Option (List UInt8) × EncReader :=
  match r.buf, r.piece with
  | none, _ => (none, r)
  | some _, some p => (some p, r)
  | some buf, none =>
    match buf.lheads[r.lhpos]? with
    | some head =>
      -- before the last list header: the string data before it, then the header
      if head.offset - r.strpos > 0 then
        (some ((buf.str.drop r.strpos).take (head.offset - r.strpos)),
          { r with strpos := r.strpos + (head.offset - r.strpos) })
      else (some head.encode, { r with lhpos := r.lhpos + 1 })
    | none =>
      -- the string data after all list headers
      if r.strpos < buf.str.length then
        (some (buf.str.drop r.strpos), { r with strpos := buf.str.length })
      else (none, r)

/-- What bounds the calls of `next` still to come: three for each header left (the data
before it and the header itself), one for the data after the last, one for a piece. -/
def pending (r : EncReader) : ℕ :=
  match r.buf with
  | none => 0
  | some buf =>
    3 * (buf.lheads.length - r.lhpos) +
      (match buf.lheads[r.lhpos]? with
        | some head => if r.strpos < head.offset then 1 else 0
        | none => if r.strpos < buf.str.length then 1 else 0) +
      (if r.piece.isSome then 1 else 0)

theorem pending_next_lt {r r' : EncReader} {p : List UInt8} (h : r.next = (some p, r')) :
    ({ r' with piece := none } : EncReader).pending < r.pending := by
  obtain ⟨buf, lhpos, strpos, piece⟩ := r
  cases buf with
  | none => simp [next] at h
  | some buf =>
    cases piece with
    | some q =>
      obtain ⟨-, rfl⟩ := Prod.mk.inj h
      simp [pending]
    | none =>
      simp only [next] at h
      cases hhead : buf.lheads[lhpos]? with
      | some head =>
        have hlt : lhpos < buf.lheads.length := (List.getElem?_eq_some_iff.1 hhead).1
        simp only [hhead] at h
        by_cases hpos : head.offset - strpos > 0
        · rw [if_pos hpos] at h
          obtain ⟨-, rfl⟩ := Prod.mk.inj h
          simp only [pending, hhead]
          split_ifs <;> omega
        · rw [if_neg hpos] at h
          obtain ⟨-, rfl⟩ := Prod.mk.inj h
          simp only [pending, hhead]
          split <;> split_ifs <;> omega
      | none =>
        have hge : buf.lheads.length ≤ lhpos := List.getElem?_eq_none_iff.1 hhead
        simp only [hhead] at h
        by_cases hpos : strpos < buf.str.length
        · rw [if_pos hpos] at h
          obtain ⟨-, rfl⟩ := Prod.mk.inj h
          simp only [pending, hhead]
          split_ifs <;> omega
        · rw [if_neg hpos] at h
          simp at h

/-- The loop of `Read(b)` with `len(b) = size`, having read `n`: the bytes read, and whether
it returns `io.EOF`. -/
def readLoop (size : ℕ) (n : List UInt8) (r : EncReader) : (List UInt8 × Bool) × EncReader :=
  match _hnext : r.next with
  | (none, r') => ((n, true), { r' with piece := none, buf := none })
  | (some p, r') =>
    let nn := min (size - n.length) p.length
    if nn < p.length then ((n ++ p.take nn, false), { r' with piece := some (p.drop nn) })
    else readLoop size (n ++ p) { r' with piece := none }
termination_by r.pending
decreasing_by exact pending_next_lt _hnext

/-- `Read(b)` with `len(b) = size`. -/
def read (size : ℕ) (r : EncReader) : (List UInt8 × Bool) × EncReader :=
  readLoop size [] r

end EncReader

/-! ## The three entry points -/

/-- `Encode(w, val)` for a value `v` of type `t`: the writes it makes to `w`. -/
def encode (t : Ty) (v : Val) : List (List UInt8) :=
  (writeVal t v Encbuf.empty).toWriter

/-- `EncodeToBytes(val)` as `toBytes` computes it. -/
def encodeToBytesCopy (t : Ty) (v : Val) : Option (List UInt8) :=
  (writeVal t v Encbuf.empty).toBytesCopy

/-- `EncodeToReader(val)`: the size and the reader. -/
def encodeToReader (t : Ty) (v : Val) : ℕ × EncReader :=
  let eb := writeVal t v Encbuf.empty
  (eb.size, ⟨some eb, 0, 0, none⟩)

/-- Reading to EOF with buffers of the given sizes, one `Read` each: the bytes read, and
whether EOF was reached. -/
def drain : List ℕ → EncReader → List UInt8 × Bool
  | [], _ => ([], false)
  | size :: sizes, r =>
    match r.read size with
    | ((b, true), _) => (b, true)
    | ((b, false), r') =>
      let (bs, eof) := drain sizes r'
      (b ++ bs, eof)

/-! ## Buffers the writers leave -/

namespace Encbuf

/-- The headers are in order within the string data, and `lhsize` is the sum of their
encoded sizes. -/
def Wf (w : Encbuf) : Prop :=
  InRange 0 w.str.length w.lheads ∧ w.lhsize = hsum w.lheads

theorem wf_writeVal (t : Ty) (v : Val) : (writeVal t v empty).Wf := by
  obtain ⟨S, H, he, hr, -⟩ := writes_writeVal t v empty
  rw [he]
  simpa [Wf, empty] using hr

theorem toBytes_writeVal (t : Ty) (v : Val) : (writeVal t v empty).toBytes = encVal t v :=
  encodeToBytes_eq t v

theorem length_toBytes {w : Encbuf} (hw : w.Wf) : w.toBytes.length = w.size := by
  rw [toBytes, length_toBytesFrom hw.1, size, hw.2, Nat.sub_zero]

/-! ## `toBytes` fills its buffer exactly -/

theorem headsize_pos (size : ℕ) : 0 < headsize size := by
  unfold headsize
  split <;> omega

theorem copyAt_zeros (pre src : List UInt8) {m : ℕ} (hm : src.length ≤ m) :
    copyAt (pre ++ List.replicate m 0) pre.length src =
      (pre ++ src ++ List.replicate (m - src.length) 0, src.length) := by
  have hn : min ((pre ++ List.replicate m 0).length - pre.length) src.length = src.length := by
    simp; omega
  simp only [copyAt, hn, List.take_left', List.take_length, List.drop_append,
    List.drop_eq_nil_of_le (show pre.length ≤ pre.length + src.length by omega),
    List.drop_replicate, List.nil_append, List.append_assoc, Nat.add_sub_cancel_left]

theorem encodeAt_zeros (head : Listhead) (pre : List UInt8) {m : ℕ} (hm : headsize head.size ≤ m) :
    encodeAt head (pre ++ List.replicate m 0) pre.length =
      some (pre ++ head.encode ++ List.replicate (m - headsize head.size) 0) := by
  have hfit : pre.length + headsize head.size ≤ (pre ++ List.replicate m 0).length := by simp; omega
  simp only [encodeAt, if_pos hfit, List.take_left', List.drop_append,
    List.drop_eq_nil_of_le (show pre.length ≤ pre.length + headsize head.size by omega),
    List.drop_replicate, List.nil_append, List.append_assoc, Nat.add_sub_cancel_left]

theorem toBytesLoop_eq (str : List UInt8) (heads : List Listhead) (strpos : ℕ) (pre : List UInt8)
    (hr : InRange strpos str.length heads) :
    toBytesLoop str (pre ++ List.replicate (str.length - strpos + hsum heads) 0) strpos pre.length
      heads = some (pre ++ toBytesFrom str strpos heads) := by
  induction heads generalizing strpos pre with
  | nil =>
    rw [toBytesLoop, hsum_nil, Nat.add_zero, copyAt_zeros pre _ (by simp)]
    simp [toBytesFrom]
  | cons head heads ih =>
    obtain ⟨hlo, hrest⟩ := hr
    have hhi := hrest.le
    set chunk := (str.drop strpos).take (head.offset - strpos) with hchunk
    have hlen : chunk.length = head.offset - strpos := by simp [chunk]; omega
    have hcopy := copyAt_zeros (m := str.length - strpos + hsum (head :: heads)) pre chunk
      (by simp; omega)
    have henc := encodeAt_zeros head (pre ++ chunk)
      (m := str.length - strpos + hsum (head :: heads) - chunk.length) (by simp; omega)
    have hzeros : str.length - strpos + hsum (head :: heads) - chunk.length - headsize head.size =
        str.length - head.offset + hsum heads := by simp; omega
    have hpos : pre.length + chunk.length + headsize head.size = (pre ++ chunk ++ head.encode).length := by
      simp [Listhead.encode]
      omega
    rw [toBytesLoop, if_neg (by omega)]
    simp only [← hchunk, hcopy]
    rw [List.length_append] at henc
    rw [henc]
    dsimp only
    rw [hzeros, hpos, show strpos + chunk.length = head.offset by omega, ih _ _ hrest]
    simp [toBytesFrom, chunk]

theorem toBytesCopy_eq {w : Encbuf} (hw : w.Wf) : w.toBytesCopy = some w.toBytes := by
  have h := toBytesLoop_eq w.str w.lheads 0 [] hw.1
  rw [Nat.sub_zero, ← hw.2, List.nil_append, List.nil_append] at h
  exact h

/-! ## `toWriter` writes the rendering piece by piece -/

theorem flatten_toWriterFrom (str : List UInt8) (heads : List Listhead) (strpos : ℕ)
    (hr : InRange strpos str.length heads) :
    (toWriterFrom str strpos heads).flatten = toBytesFrom str strpos heads := by
  induction heads generalizing strpos with
  | nil =>
    have hle : strpos ≤ str.length := hr
    unfold toWriterFrom
    split_ifs with h
    · simp [toBytesFrom]
    · simp [toBytesFrom, List.drop_eq_nil_of_le (show str.length ≤ strpos by omega)]
  | cons head heads ih =>
    obtain ⟨hlo, hrest⟩ := hr
    unfold toWriterFrom
    split_ifs with h
    · rw [show strpos + (head.offset - strpos) = head.offset by omega]
      simp [toBytesFrom, ih _ hrest]
    · obtain rfl : head.offset = strpos := by omega
      simp [toBytesFrom, ih _ hrest]

theorem flatten_toWriter {w : Encbuf} (hw : w.Wf) : w.toWriter.flatten = w.toBytes :=
  flatten_toWriterFrom w.str w.lheads 0 hw.1

end Encbuf

/-! ## `encReader` hands out the rendering -/

namespace EncReader

open Encbuf

/-- The bytes still to be read: the piece, then what `next` has yet to hand out. -/
def rest (r : EncReader) : List UInt8 :=
  match r.buf with
  | none => []
  | some buf => r.piece.getD [] ++ toBytesFrom buf.str r.strpos (buf.lheads.drop r.lhpos)

/-- The reader's position is within the buffer's rendering, and a piece is never empty. -/
def Inv (r : EncReader) : Prop :=
  match r.buf with
  | none => True
  | some buf => InRange r.strpos buf.str.length (buf.lheads.drop r.lhpos) ∧ ∀ p, r.piece = some p → p ≠ []

theorem rest_piece {r : EncReader} {buf : Encbuf} (hb : r.buf = some buf) (q : List UInt8) :
    ({ r with piece := some q } : EncReader).rest = q ++ ({ r with piece := none } : EncReader).rest := by
  simp [rest, hb]

theorem inv_piece {r : EncReader} {buf : Encbuf} (hb : r.buf = some buf)
    (hr : ({ r with piece := none } : EncReader).Inv) {q : List UInt8} (hq : q ≠ []) :
    ({ r with piece := some q } : EncReader).Inv := by
  simp only [Inv, hb] at hr ⊢
  exact ⟨hr.1, by rintro p ⟨⟩; exact hq⟩

theorem rest_of_next_none {r r' : EncReader} (hr : r.Inv) (h : r.next = (none, r')) :
    r.rest = [] := by
  obtain ⟨buf, lhpos, strpos, piece⟩ := r
  cases buf with
  | none => rfl
  | some buf =>
    cases piece with
    | some q => simp [next] at h
    | none =>
      simp only [next] at h
      cases hhead : buf.lheads[lhpos]? with
      | some head =>
        simp only [hhead] at h
        by_cases hpos : head.offset - strpos > 0
        · rw [if_pos hpos] at h
          cases (Prod.mk.inj h).1
        · rw [if_neg hpos] at h
          cases (Prod.mk.inj h).1
      | none =>
        have hge : buf.lheads.length ≤ lhpos := List.getElem?_eq_none_iff.1 hhead
        simp only [hhead] at h
        by_cases hpos : strpos < buf.str.length
        · rw [if_pos hpos] at h
          cases (Prod.mk.inj h).1
        · simp [rest, List.drop_eq_nil_of_le hge, toBytesFrom, List.drop_eq_nil_of_le (not_lt.1 hpos)]

theorem next_some {r r' : EncReader} {p : List UInt8} (hr : r.Inv) (h : r.next = (some p, r')) :
    p ≠ [] ∧ (∃ buf, r'.buf = some buf) ∧ r.rest = p ++ ({ r' with piece := none } : EncReader).rest ∧
      ({ r' with piece := none } : EncReader).Inv := by
  obtain ⟨buf, lhpos, strpos, piece⟩ := r
  cases buf with
  | none => simp [next] at h
  | some buf =>
    obtain ⟨hrange, hpiece⟩ := hr
    cases piece with
    | some q =>
      obtain ⟨hq, rfl⟩ := Prod.mk.inj h
      obtain rfl := Option.some.inj hq
      exact ⟨hpiece _ rfl, ⟨buf, rfl⟩, by simp [rest], ⟨hrange, by simp⟩⟩
    | none =>
      simp only [next] at h
      cases hhead : buf.lheads[lhpos]? with
      | some head =>
        have hlt : lhpos < buf.lheads.length := (List.getElem?_eq_some_iff.1 hhead).1
        have hdrop : buf.lheads.drop lhpos = head :: buf.lheads.drop (lhpos + 1) := by
          rw [List.drop_eq_getElem_cons hlt, (List.getElem?_eq_some_iff.1 hhead).2]
        simp only [hhead] at h
        simp only [hdrop] at hrange
        obtain ⟨hlo, hrange'⟩ := hrange
        have hhi := hrange'.le
        by_cases hpos : head.offset - strpos > 0
        · rw [if_pos hpos] at h
          obtain ⟨hp, rfl⟩ := Prod.mk.inj h
          obtain rfl := Option.some.inj hp
          refine ⟨by simp; omega, ⟨buf, rfl⟩, ?_, ?_⟩
          · simp [rest, hdrop, toBytesFrom, show strpos + (head.offset - strpos) = head.offset by omega]
          · simp only [Inv, hdrop, show strpos + (head.offset - strpos) = head.offset by omega]
            exact ⟨⟨le_rfl, hrange'⟩, by simp⟩
        · rw [if_neg hpos] at h
          obtain ⟨hp, rfl⟩ := Prod.mk.inj h
          obtain rfl := Option.some.inj hp
          obtain rfl : head.offset = strpos := by omega
          refine ⟨by simp [Listhead.encode, ← List.length_pos_iff, headsize_pos], ⟨buf, rfl⟩, ?_,
            ⟨hrange', by simp⟩⟩
          simp [rest, hdrop, toBytesFrom]
      | none =>
        have hge : buf.lheads.length ≤ lhpos := List.getElem?_eq_none_iff.1 hhead
        simp only [hhead] at h
        by_cases hpos : strpos < buf.str.length
        · rw [if_pos hpos] at h
          obtain ⟨hp, rfl⟩ := Prod.mk.inj h
          obtain rfl := Option.some.inj hp
          refine ⟨by simp; omega, ⟨buf, rfl⟩, ?_, ?_⟩
          · simp [rest, List.drop_eq_nil_of_le hge, toBytesFrom]
          · simp [Inv, List.drop_eq_nil_of_le hge, InRange]
        · rw [if_neg hpos] at h
          cases (Prod.mk.inj h).1

/-- `Read(b)`'s loop, having read `n`, reads the front of what is left until `b` is full,
and reports EOF exactly when what is left fits. -/
theorem readLoop_spec (size : ℕ) (n : List UInt8) (r : EncReader) (hr : r.Inv)
    (hn : n.length ≤ size) :
    ∃ r', readLoop size n r =
        ((n ++ r.rest.take (size - n.length), decide (r.rest.length ≤ size - n.length)), r') ∧
      r'.rest = r.rest.drop (size - n.length) ∧ r'.Inv := by
  fun_induction readLoop size n r with
  | case1 n r r' hnext =>
    have hnil := rest_of_next_none hr hnext
    refine ⟨{ r' with piece := none, buf := none }, ?_, ?_, trivial⟩
    · rw [hnil]
      simp
    · rw [hnil, List.drop_nil]
      rfl
  | case2 n r p r' hnext nn hlt =>
    obtain ⟨hp, ⟨buf, hb⟩, hrest, hinv⟩ := next_some hr hnext
    have hnn : nn = size - n.length := by omega
    refine ⟨{ r' with piece := some (p.drop nn) }, ?_, ?_, inv_piece hb hinv (by simp; omega)⟩
    · rw [hrest, ← hnn, List.take_append, Nat.sub_eq_zero_of_le hlt.le, List.take_zero,
        List.append_nil, List.length_append]
      have hno : ¬ p.length + ({ r' with piece := none } : EncReader).rest.length ≤ nn := by omega
      rw [decide_eq_false hno]
    · rw [rest_piece hb, hrest, ← hnn, List.drop_append, Nat.sub_eq_zero_of_le hlt.le, List.drop_zero]
  | case3 n r p r' hnext nn hge ih =>
    obtain ⟨hp, -, hrest, hinv⟩ := next_some hr hnext
    have hfit : p.length ≤ size - n.length := by omega
    obtain ⟨r'', hloop, hrest'', hinv''⟩ := ih hinv (by simp; omega)
    refine ⟨r'', ?_, ?_, hinv''⟩
    · rw [hloop, hrest, List.take_append, List.take_of_length_le hfit, List.length_append,
        List.length_append, List.append_assoc, Nat.sub_sub]
      simp only [Prod.mk.injEq, true_and, and_true]
      exact decide_eq_decide.2 (by omega)
    · rw [hrest'', hrest, List.drop_append, List.drop_of_length_le hfit, List.nil_append,
        List.length_append]
      congr 1
      omega

theorem read_spec (size : ℕ) (r : EncReader) (hr : r.Inv) :
    ∃ r', r.read size = ((r.rest.take size, decide (r.rest.length ≤ size)), r') ∧
      r'.rest = r.rest.drop size ∧ r'.Inv := by
  simpa [read] using readLoop_spec size [] r hr (Nat.zero_le _)

/-- Reading with buffers of at least one byte gives a prefix of what is left, all of it when
EOF is reached, and EOF is reached within one more read than there are bytes. -/
theorem drain_spec (sizes : List ℕ) (r : EncReader) (hr : r.Inv) (hsizes : ∀ s ∈ sizes, 0 < s) :
    (drain sizes r).1 <+: r.rest ∧ ((drain sizes r).2 = true → (drain sizes r).1 = r.rest) ∧
      (r.rest.length < sizes.length → (drain sizes r).2 = true) := by
  induction sizes generalizing r with
  | nil => exact ⟨List.nil_prefix, by simp [drain], by simp⟩
  | cons size sizes ih =>
    obtain ⟨r', hread, hrest', hinv'⟩ := read_spec size r hr
    have hpos := hsizes size List.mem_cons_self
    by_cases hfit : r.rest.length ≤ size
    · simp only [drain, hread, decide_eq_true hfit, List.take_of_length_le hfit]
      exact ⟨List.prefix_refl _, fun _ => trivial, fun _ => trivial⟩
    · obtain ⟨hpre, heof, hlen⟩ := ih r' hinv' (fun s hs => hsizes s (List.mem_cons_of_mem size hs))
      simp only [drain, hread, decide_eq_false hfit]
      rw [hrest'] at hpre heof hlen
      refine ⟨?_, fun h => ?_, fun h => hlen ?_⟩
      · conv_rhs => rw [← List.take_append_drop size r.rest]
        exact (List.prefix_append_right_inj _).2 hpre
      · rw [heof h, List.take_append_drop]
      · simp only [List.length_drop, List.length_cons] at h ⊢
        omega

end EncReader

theorem inv_encodeToReader (t : Ty) (v : Val) : (encodeToReader t v).2.Inv :=
  ⟨(Encbuf.wf_writeVal t v).1, by simp [encodeToReader]⟩

theorem rest_encodeToReader (t : Ty) (v : Val) : (encodeToReader t v).2.rest = encVal t v := by
  simp [EncReader.rest, encodeToReader, ← Encbuf.toBytes_writeVal, Encbuf.toBytes]

/-- The three output paths of the encoder agree: for every value, the bytes `Encode` writes,
the bytes `EncodeToBytes` copies into the buffer it allocates, and the bytes read from
`EncodeToReader`'s reader with buffers of any sizes of at least one byte are its encoding
(the reader gives a prefix of it, and all of it once it reports EOF, which it does within one
more read than the encoding has bytes); the size `EncodeToReader` returns, `size()`, is the
encoding's length. -/
theorem output_paths_agree (t : Ty) (v : Val) :
    (encode t v).flatten = encVal t v ∧
    encodeToBytesCopy t v = some (encVal t v) ∧
    (∀ sizes : List ℕ, (∀ s ∈ sizes, 0 < s) →
      (drain sizes (encodeToReader t v).2).1 <+: encVal t v ∧
      ((drain sizes (encodeToReader t v).2).2 = true → (drain sizes (encodeToReader t v).2).1 = encVal t v) ∧
      ((encodeToReader t v).1 < sizes.length → (drain sizes (encodeToReader t v).2).2 = true)) ∧
    (encodeToReader t v).1 = (encVal t v).length := by
  have hw := Encbuf.wf_writeVal t v
  have hsize : (encodeToReader t v).1 = (encVal t v).length := by
    rw [← Encbuf.toBytes_writeVal, Encbuf.length_toBytes hw]
    rfl
  refine ⟨?_, ?_, fun sizes hsizes => ?_, hsize⟩
  · rw [encode, Encbuf.flatten_toWriter hw, Encbuf.toBytes_writeVal]
  · rw [encodeToBytesCopy, Encbuf.toBytesCopy_eq hw, Encbuf.toBytes_writeVal]
  · have h := EncReader.drain_spec sizes _ (inv_encodeToReader t v) hsizes
    rw [rest_encodeToReader] at h
    rw [hsize]
    exact h

end Sphinx.Rlp
