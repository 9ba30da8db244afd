import Sphinx.Rlp.Stream

/-! # The RLP decoders

The decoders `makeDecoder` selects for each modelled type, over the stream. A
decoder for a list type is given the decoder of its elements, as the source passes
it; the loops that decode elements until the end of the list run on fuel, and
`DecodeBytes` refuses input left over after the value.
-/

namespace Sphinx.Rlp

open BigEndian

def wrapStreamError : Error → Error
  | .canonInt => .decode "non-canonical integer (leading zero bytes)"
  | .canonSize => .decode "non-canonical size information"
  | .expectedList => .decode "expected input list"
  | .expectedString => .decode "expected input string or byte"
  | .uintOverflow => .decode "input string too long"
  | .notAtEOL => .decode "input list has too many elements"
  | e => e

abbrev Decoder := Stream → Res Val

def decodeUint (bits : ℕ) (s : Stream) : Res Val :=
  match s.uint bits with
  | (.error e, s) => (.error (wrapStreamError e), s)
  | (.ok n, s) => (.ok (.uint n), s)

def decodeBool (s : Stream) : Res Val :=
  match s.bool with
  | (.error e, s) => (.error (wrapStreamError e), s)
  | (.ok b, s) => (.ok (.bool b), s)

def decodeString (s : Stream) : Res Val :=
  match s.bytes with
  | (.error e, s) => (.error (wrapStreamError e), s)
  | (.ok b, s) => (.ok (.bytes b), s)

def decodeBigInt (s : Stream) : Res Val :=
  match s.bytes with
  | (.error e, s) => (.error (wrapStreamError e), s)
  | (.ok b, s) =>
    -- leading zero bytes are refused
    if b.head? = some 0 then (.error (wrapStreamError .canonInt), s)
    else (.ok (.big (ofBytes b)), s)

def decodeByteSlice (s : Stream) : Res Val :=
  match s.bytes with
  | (.error e, s) => (.error (wrapStreamError e), s)
  | (.ok b, s) => (.ok (.bytes b), s)

def decodeByteArray (vlen : ℕ) (s : Stream) : Res Val :=
  match s.kindOf with
  | (.error e, s) => (.error e, s)
  | (.ok (.byte, _), s) =>
    if vlen = 0 then (.error (.decode "input string too long"), s)
    else if vlen > 1 then (.error (.decode "input string too short"), s)
    else
      -- `bv, _ := s.Uint()`: the error is dropped and `bv` is then zero
      match s.uint 64 with
      | (.ok bv, s) => (.ok (.bytes [bv.toUInt8]), s)
      | (.error _, s) => (.ok (.bytes [0]), s)
  | (.ok (.string, size), s) =>
    if vlen < size then (.error (.decode "input string too long"), s)
    else if vlen > size then (.error (.decode "input string too short"), s)
    else
      match s.readFull vlen with
      | (.error e, s) => (.error e, s)
      | (.ok slice, s) =>
        -- single bytes below 0x80 must have been written without a header
        if size = 1 ∧ slice.head?.getD 0 < 128 then (.error (wrapStreamError .canonSize), s)
        else (.ok (.bytes slice), s)
  | (.ok (.list, _), s) => (.error (wrapStreamError .expectedString), s)

/-- The loop of `decodeSliceElems`: elements until the decoder reports the end of the
list. -/
def decodeSliceElems (elemdec : Decoder) : ℕ → Stream → Res (List Val)
  | 0, s => (.error .outOfFuel, s)
  | n + 1, s =>
    match elemdec s with
    | (.error .eol, s) => (.ok [], s)
    | (.error e, s) => (.error e, s)
    | (.ok v, s) =>
      match decodeSliceElems elemdec n s with
      | (.error e, s) => (.error e, s)
      | (.ok vs, s) => (.ok (v :: vs), s)

def decodeListSlice (fuel : ℕ) (elemdec : Decoder) (s : Stream) : Res Val :=
  match s.list with
  | (.error e, s) => (.error (wrapStreamError e), s)
  | (.ok 0, s) =>
    match s.listEnd with
    | (.error e, s) => (.error e, s)
    | (.ok (), s) => (.ok (.list []), s)
  | (.ok _, s) =>
    match decodeSliceElems elemdec fuel s with
    | (.error e, s) => (.error e, s)
    | (.ok vs, s) =>
      match s.listEnd with
      | (.error e, s) => (.error e, s)
      | (.ok (), s) => (.ok (.list vs), s)

/-- The loop of `decodeListArray`, over the array's length. -/
def decodeArrayElems (elemdec : Decoder) : ℕ → Stream → Res (List Val)
  | 0, s => (.ok [], s)
  | k + 1, s =>
    match elemdec s with
    | (.error .eol, s) => (.error (.decode "input list has too few elements"), s)
    | (.error e, s) => (.error e, s)
    | (.ok v, s) =>
      match decodeArrayElems elemdec k s with
      | (.error e, s) => (.error e, s)
      | (.ok vs, s) => (.ok (v :: vs), s)

def decodeListArray (vlen : ℕ) (elemdec : Decoder) (s : Stream) : Res Val :=
  match s.list with
  | (.error e, s) => (.error (wrapStreamError e), s)
  | (.ok _, s) =>
    match decodeArrayElems elemdec vlen s with
    | (.error e, s) => (.error e, s)
    | (.ok vs, s) =>
      match s.listEnd with
      | (.error e, s) => (.error (wrapStreamError e), s)
      | (.ok (), s) => (.ok (.list vs), s)

/-- The field loop of the struct decoder `makeStructDecoder` builds. -/
def decodeFields : List Decoder → Stream → Res (List Val)
  | [], s => (.ok [], s)
  | dec :: decs, s =>
    match dec s with
    | (.error .eol, s) => (.error (.decode "too few elements"), s)
    | (.error e, s) => (.error e, s)
    | (.ok v, s) =>
      match decodeFields decs s with
      | (.error e, s) => (.error e, s)
      | (.ok vs, s) => (.ok (v :: vs), s)

def decodeStruct (decs : List Decoder) (s : Stream) : Res Val :=
  match s.list with
  | (.error e, s) => (.error (wrapStreamError e), s)
  | (.ok _, s) =>
    match decodeFields decs s with
    | (.error e, s) => (.error e, s)
    | (.ok vs, s) =>
      match s.listEnd with
      | (.error e, s) => (.error (wrapStreamError e), s)
      | (.ok (), s) => (.ok (.list vs), s)

/-- A `tail` slice field: the struct decoder has already entered the list. -/
def decodeTail (fuel : ℕ) (elemdec : Decoder) (s : Stream) : Res Val :=
  match decodeSliceElems elemdec fuel s with
  | (.error e, s) => (.error e, s)
  | (.ok vs, s) => (.ok (.list vs), s)

def decodeInterface (fuel : ℕ) (elemdec : Decoder) (s : Stream) : Res Val :=
  match s.kindOf with
  | (.error e, s) => (.error e, s)
  | (.ok (.list, _), s) => decodeListSlice fuel elemdec s
  | (.ok _, s) =>
    match s.bytes with
    | (.error e, s) => (.error e, s)
    | (.ok b, s) => (.ok (.bytes b), s)

/-- The decoder `makeDecoder` builds for a type; nested decoders get the fuel left. -/
def decode : ℕ → Ty → Decoder
  | 0, _, s => (.error .outOfFuel, s)
  | n + 1, t, s =>
    match t with
    | .uint bits => decodeUint bits s
    | .bool => decodeBool s
    | .string => decodeString s
    | .bigInt => decodeBigInt s
    | .byteSlice => decodeByteSlice s
    | .byteArray len => decodeByteArray len s
    | .slice et => decodeListSlice n (decode n et) s
    | .array et len => decodeListArray len (decode n et) s
    | .struct fs => decodeStruct (fs.map (decode n)) s
    | .tail et => decodeTail n (decode n et) s
    | .iface => decodeInterface n (decode n .iface) s

/-- `DecodeBytes(b, &x)` for `x` of type `t`. -/
def decodeBytes (fuel : ℕ) (t : Ty) (b : List UInt8) : Except Error Val :=
  match decode fuel t (Stream.new b) with
  | (.error e, _) => .error e
  | (.ok v, s) => if s.input = [] then .ok v else .error .moreThanOneValue

/-! ## A zero byte in a one-byte array

For a single byte, `decodeByteArray` drops the error of `s.Uint()`. On a zero byte that
error is returned before `uint` rearms the kind, so the byte stays cached and every later
read of the stream sees it again.
-/

theorem decodeByteArray_zero {s s₁ : Stream} {size : ℕ}
    (h₁ : s.kindOf = (.ok (.byte, size), s₁)) (h0 : s₁.byteval = 0) :
    decodeByteArray 1 s = (.ok (.bytes [0]), s₁) := by
  have hu : s₁.uint 64 = (.error .canonInt, s₁) := by
    simp [Stream.uint, Stream.kindOf_idem h₁, h0]
  simp [decodeByteArray, h₁, hu]

theorem decodeSliceElems_stuck {elemdec : Decoder} {s : Stream} {v : Val}
    (h : elemdec s = (.ok v, s)) (n : ℕ) :
    decodeSliceElems elemdec n s = (.error .outOfFuel, s) := by
  induction n with
  | zero => rfl
  | succ n ih => simp [decodeSliceElems, h, ih]

/-- Decoding the encoding of the slice holding the one array `[1]byte{0}` never ends. -/
theorem decodeBytes_byteArray_zero_spins (fuel : ℕ) :
    decodeBytes fuel (.slice (.byteArray 1))
      (encodeToBytes (.slice (.byteArray 1)) (.list [.bytes [0]])) = .error .outOfFuel := by
  let s₁ : Stream := ⟨[0], 1, true, none, 0, 0, none, [⟨0, 1⟩]⟩
  let s₂ : Stream := ⟨[], 0, true, some .byte, 0, 0, none, [⟨1, 1⟩]⟩
  have henc : encodeToBytes (.slice (.byteArray 1)) (.list [.bytes [0]]) = [0xC1, 0] := rfl
  have hlist : (Stream.new [0xC1, 0]).list = (.ok 1, s₁) := rfl
  have hk : s₁.kindOf = (.ok (.byte, 0), s₂) := rfl
  have hfirst : decodeByteArray 1 s₁ = (.ok (.bytes [0]), s₂) := decodeByteArray_zero hk rfl
  have hagain : decodeByteArray 1 s₂ = (.ok (.bytes [0]), s₂) :=
    decodeByteArray_zero (Stream.kindOf_idem hk) rfl
  rcases fuel with _ | _ | n
  · rfl
  · rfl
  · have hloop : decodeSliceElems (fun x => decodeByteArray 1 x) n s₂ = (.error .outOfFuel, s₂) :=
      decodeSliceElems_stuck hagain n
    simp only [decodeBytes, henc, decode, decodeListSlice, hlist, decodeSliceElems, hfirst, hloop]

end Sphinx.Rlp
