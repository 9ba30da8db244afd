import Sphinx.Lib.BigEndian

/-! # The RLP encoder

The encoding buffer of `encode.go`: string data and list headers are kept apart,
a list header is opened by `list`, patched with the size of its payload by `listEnd`
and written into place only by `toBytes`. Values are written by the writers that
`makeWriter` selects for the Go types modelled by `Ty`.
-/

namespace Sphinx.Rlp

open BigEndian

/-- The number of bytes of `i`: the loop of `intsize` divides by 256 until zero. -/
def intsize (i : ℕ) : ℕ :=
  max 1 (toBytes i).length

theorem intsize_eq (i : ℕ) : intsize i = if i / 256 = 0 then 1 else intsize (i / 256) + 1 := by
  unfold intsize
  rw [toBytes_eq i]
  by_cases hi : i = 0
  · simp [hi]
  · by_cases hq : i / 256 = 0
    · simp [hi, hq]
    · have hne : (toBytes (i / 256)).length ≠ 0 := by
        simpa using toBytes_ne_nil hq
      simp only [hi, hq, if_false, List.length_append, List.length_singleton]
      omega

/-- The bytes `putint` writes: `intsize i` bytes of `i`, most significant first. -/
def putint (i : ℕ) : List UInt8 :=
  if i = 0 then [0] else toBytes i

theorem length_putint (i : ℕ) : (putint i).length = intsize i := by
  unfold putint intsize
  split
  · simp_all
  · rename_i hi
    have : (toBytes i).length ≠ 0 := by simpa using toBytes_ne_nil hi
    omega

def headsize (size : ℕ) : ℕ :=
  if size < 56 then 1 else 1 + intsize size

def puthead (smalltag largetag : UInt8) (size : ℕ) : List UInt8 :=
  if size < 56 then [smalltag + size.toUInt8]
  else (largetag + (intsize size).toUInt8) :: putint size

@[simp] theorem length_puthead (smalltag largetag : UInt8) (size : ℕ) :
    (puthead smalltag largetag size).length = headsize size := by
  unfold puthead headsize
  split <;> simp [length_putint]; omega

theorem add_toUInt8_eq {tag b : UInt8} {k : ℕ} (h : b.toNat = tag.toNat + k) :
    tag + k.toUInt8 = b := by
  apply UInt8.toNat_inj.mp
  have := b.toNat_lt
  simp only [UInt8.toNat_add, Nat.toUInt8_eq, UInt8.toNat_ofNat']
  omega

theorem puthead_short {small large b : UInt8} {size : ℕ} (hs : size < 56)
    (hb : b.toNat = small.toNat + size) : puthead small large size = [b] := by
  simp [puthead, hs, add_toUInt8_eq hb]

/-- A long header is its tag byte, then the canonical big-endian size. -/
theorem puthead_long {small large b : UInt8} {c : List UInt8} {size : ℕ} (hs : 56 ≤ size)
    (hc : NoLeadingZero c) (hv : ofBytes c = size) (hb : b.toNat = large.toNat + c.length) :
    puthead small large size = b :: c := by
  have hne : size ≠ 0 := by omega
  have hcb : toBytes size = c := by rw [← hv, toBytes_ofBytes hc]
  have hlen : intsize size = c.length := by
    have : c ≠ [] := by rintro rfl; simp at hv; omega
    have : c.length ≠ 0 := by simpa using this
    simp only [intsize, hcb]
    omega
  simp [puthead, show ¬ size < 56 by omega, putint, hne, hcb, hlen, add_toUInt8_eq hb]

structure Listhead where
  offset : ℕ
  size : ℕ
  deriving DecidableEq, Repr

def Listhead.encode (head : Listhead) : List UInt8 :=
  puthead 0xC0 0xF7 head.size

structure Encbuf where
  str : List UInt8
  lheads : List Listhead
  lhsize : ℕ
  deriving DecidableEq, Repr

namespace Encbuf

/-- The buffer after `reset`. -/
def empty : Encbuf := ⟨[], [], 0⟩

def size (w : Encbuf) : ℕ :=
  w.str.length + w.lhsize

def append (w : Encbuf) (b : List UInt8) : Encbuf :=
  { w with str := w.str ++ b }

def encodeStringHeader (w : Encbuf) (size : ℕ) : Encbuf :=
  if size < 56 then w.append [0x80 + size.toUInt8]
  else w.append ((0xB7 + (intsize size).toUInt8) :: putint size)

def encodeString (w : Encbuf) (b : List UInt8) : Encbuf :=
  match b with
  | [c] => if c ≤ 0x7F then w.append [c] else (w.encodeStringHeader 1).append b
  | _ => (w.encodeStringHeader b.length).append b

/-- `list` opens a header at the current string offset; the header is referred to by
its index, the pointer the source keeps. -/
def list (w : Encbuf) : ℕ × Encbuf :=
  (w.lheads.length, { w with lheads := w.lheads ++ [⟨w.str.length, w.lhsize⟩] })

def listEnd (w : Encbuf) (i : ℕ) : Encbuf :=
  match w.lheads[i]? with
  | some lh =>
    -- the size field still holds `lhsize` as it was when the list was opened
    let size := w.size - lh.offset - lh.size
    { w with lheads := w.lheads.set i { lh with size := size },
             lhsize := w.lhsize + headsize size }
  | none => w

/-- `lh := w.list(); f(w); w.listEnd(lh)`, the list writers' idiom. -/
def withList (f : Encbuf → Encbuf) (w : Encbuf) : Encbuf :=
  (f w.list.2).listEnd w.list.1

/-- The loop of `toBytes` from string position `strpos` over the remaining headers. -/
def toBytesFrom (str : List UInt8) : ℕ → List Listhead → List UInt8
  | strpos, [] => str.drop strpos
  | strpos, head :: heads =>
    (str.drop strpos).take (head.offset - strpos) ++ head.encode ++
      toBytesFrom str head.offset heads

def toBytes (w : Encbuf) : List UInt8 :=
  toBytesFrom w.str 0 w.lheads

end Encbuf

/-- The Go types the writers and decoders are generated for; `tail` is a slice field
tagged `rlp:"tail"`, ignored fields are left out of a struct's field list. A non-nil
pointer is written and read as its target, so pointer types are their target types. -/
inductive Ty where
  | uint (bits : ℕ)
  | bool
  | string
  | bigInt
  | byteSlice
  | byteArray (len : ℕ)
  | slice (elem : Ty)
  | array (elem : Ty) (len : ℕ)
  | struct (fields : List Ty)
  | tail (elem : Ty)
  | iface
  deriving Repr

/-- Go values: strings and byte slices and arrays are bytes, slices, arrays and structs
are lists, a non-nil pointer is its target, and `interface{}` holds bytes or lists. -/
inductive Val where
  | uint (n : ℕ)
  | bool (b : Bool)
  | bytes (b : List UInt8)
  | big (n : ℕ)
  | list (vs : List Val)
  deriving Repr

mutual

def Val.decEq : (a b : Val) → Decidable (a = b)
  | .uint m, .uint n => decidable_of_iff (m = n) (by simp)
  | .bool a, .bool b => decidable_of_iff (a = b) (by simp)
  | .bytes a, .bytes b => decidable_of_iff (a = b) (by simp)
  | .big m, .big n => decidable_of_iff (m = n) (by simp)
  | .list as, .list bs =>
    match Val.listDecEq as bs with
    | isTrue h => isTrue (h ▸ rfl)
    | isFalse h => isFalse (by simpa using h)
  | .uint _, .bool _ | .uint _, .bytes _ | .uint _, .big _ | .uint _, .list _
  | .bool _, .uint _ | .bool _, .bytes _ | .bool _, .big _ | .bool _, .list _
  | .bytes _, .uint _ | .bytes _, .bool _ | .bytes _, .big _ | .bytes _, .list _
  | .big _, .uint _ | .big _, .bool _ | .big _, .bytes _ | .big _, .list _
  | .list _, .uint _ | .list _, .bool _ | .list _, .bytes _ | .list _, .big _ =>
    isFalse (by simp)

def Val.listDecEq : (as bs : List Val) → Decidable (as = bs)
  | [], [] => isTrue rfl
  | [], _ :: _ => isFalse (by simp)
  | _ :: _, [] => isFalse (by simp)
  | a :: as, b :: bs =>
    match Val.decEq a b, Val.listDecEq as bs with
    | isTrue h, isTrue h' => isTrue (h ▸ h' ▸ rfl)
    | isFalse h, _ => isFalse (by simp [h])
    | _, isFalse h' => isFalse (by simp [h'])

end

instance : DecidableEq Val := Val.decEq

namespace Encbuf

def writeUint (w : Encbuf) (i : ℕ) : Encbuf :=
  if i = 0 then w.append [0x80]
  else if i < 128 then w.append [i.toUInt8]
  else w.append ((0x80 + (intsize i).toUInt8) :: putint i)

def writeBool (w : Encbuf) (b : Bool) : Encbuf :=
  if b then w.append [0x01] else w.append [0x80]

/-- `writeBigInt` on a non-negative integer; `i.Bytes()` is its minimal big-endian form. -/
def writeBigInt (w : Encbuf) (i : ℕ) : Encbuf :=
  if i = 0 then w.append [0x80] else w.encodeString (BigEndian.toBytes i)

/-- `writeString` repeats the single-byte and header cases of `encodeString`. -/
def writeString (w : Encbuf) (s : List UInt8) : Encbuf :=
  w.encodeString s

end Encbuf

mutual

/-- The writer `makeWriter` selects for the type, applied to a value of that type. -/
def writeVal : Ty → Val → Encbuf → Encbuf
  | .uint _, .uint n, w => w.writeUint n
  | .bool, .bool b, w => w.writeBool b
  | .string, .bytes s, w => w.writeString s
  | .bigInt, .big n, w => w.writeBigInt n
  | .byteSlice, .bytes b, w => w.encodeString b
  | .byteArray _, .bytes b, w => w.encodeString b
  | .slice et, .list vs, w => w.withList (writeVals et vs)
  | .array et _, .list vs, w => w.withList (writeVals et vs)
  | .struct fs, .list vs, w => w.withList (writeFields fs vs)
  | .iface, .bytes b, w => w.encodeString b
  | .iface, .list vs, w => w.withList (writeVals .iface vs)
  | _, _, w => w

def writeVals : Ty → List Val → Encbuf → Encbuf
  | _, [], w => w
  | t, v :: vs, w => writeVals t vs (writeVal t v w)

/-- The struct writer; a `tail` field writes its elements without a list header. -/
def writeFields : List Ty → List Val → Encbuf → Encbuf
  | .tail et :: fs, .list vs :: rest, w => writeFields fs rest (writeVals et vs w)
  | f :: fs, v :: rest, w => writeFields fs rest (writeVal f v w)
  | _, _, w => w

end

def encodeToBytes (t : Ty) (v : Val) : List UInt8 :=
  (writeVal t v Encbuf.empty).toBytes

end Sphinx.Rlp

/-! ## The encoding the buffer renders

`encVal` is the RLP encoding written out directly: every list header in front of
its payload. The buffer renders exactly this. -/

namespace Sphinx.Rlp

open BigEndian

def encString (b : List UInt8) : List UInt8 :=
  match b with
  | [c] => if c ≤ 0x7F then [c] else puthead 0x80 0xB7 1 ++ b
  | _ => puthead 0x80 0xB7 b.length ++ b

def encList (payload : List UInt8) : List UInt8 :=
  puthead 0xC0 0xF7 payload.length ++ payload

def encUint (i : ℕ) : List UInt8 :=
  if i = 0 then [0x80] else if i < 128 then [i.toUInt8]
  else (0x80 + (intsize i).toUInt8) :: putint i

mutual

def encVal : Ty → Val → List UInt8
  | .uint _, .uint n => encUint n
  | .bool, .bool b => if b then [0x01] else [0x80]
  | .string, .bytes s => encString s
  | .bigInt, .big n => if n = 0 then [0x80] else encString (toBytes n)
  | .byteSlice, .bytes b => encString b
  | .byteArray _, .bytes b => encString b
  | .slice et, .list vs => encList (encVals et vs)
  | .array et _, .list vs => encList (encVals et vs)
  | .struct fs, .list vs => encList (encFields fs vs)
  | .iface, .bytes b => encString b
  | .iface, .list vs => encList (encVals .iface vs)
  | _, _ => []

def encVals : Ty → List Val → List UInt8
  | _, [] => []
  | t, v :: vs => encVal t v ++ encVals t vs

def encFields : List Ty → List Val → List UInt8
  | .tail et :: fs, .list vs :: rest => encVals et vs ++ encFields fs rest
  | f :: fs, v :: rest => encVal f v ++ encFields fs rest
  | _, _ => []

end

/-- An integer of at least 128 is its canonical bytes behind a short string header. -/
theorem encUint_ofBytes {c : List UInt8} (hc : NoLeadingZero c) (h128 : 128 ≤ ofBytes c)
    (h56 : c.length < 56) : encUint (ofBytes c) = puthead 0x80 0xB7 c.length ++ c := by
  have hne : ofBytes c ≠ 0 := by omega
  have hput : putint (ofBytes c) = c := by simp [putint, hne, toBytes_ofBytes hc]
  have hsize : intsize (ofBytes c) = c.length := by rw [← length_putint, hput]
  simp [encUint, hne, show ¬ ofBytes c < 128 by omega, hput, hsize, puthead, h56]

namespace Encbuf

/-- Header offsets ascending within `[lo, hi]`, the shape `toBytes` walks. -/
def InRange : ℕ → ℕ → List Listhead → Prop
  | lo, hi, [] => lo ≤ hi
  | lo, hi, h :: hs => lo ≤ h.offset ∧ InRange h.offset hi hs

/-- The bytes the headers add to the string data. -/
def hsum (hs : List Listhead) : ℕ :=
  (hs.map fun h => headsize h.size).sum

@[simp] theorem hsum_nil : hsum [] = 0 := rfl

@[simp] theorem hsum_append (hs hs' : List Listhead) : hsum (hs ++ hs') = hsum hs + hsum hs' := by
  simp [hsum]

@[simp] theorem hsum_cons (h : Listhead) (hs : List Listhead) :
    hsum (h :: hs) = headsize h.size + hsum hs := by
  simp [hsum]

theorem InRange.le {lo hi : ℕ} {hs : List Listhead} (h : InRange lo hi hs) : lo ≤ hi := by
  induction hs generalizing lo with
  | nil => exact h
  | cons x xs ih => exact h.1.trans (ih h.2)

theorem InRange.append {lo mid hi : ℕ} {hs hs' : List Listhead}
    (h : InRange lo mid hs) (h' : InRange mid hi hs') : InRange lo hi (hs ++ hs') := by
  induction hs generalizing lo with
  | nil =>
    cases hs' with
    | nil => exact le_trans h h'
    | cons x xs => exact ⟨le_trans h h'.1, h'.2⟩
  | cons x xs ih => exact ⟨h.1, ih h.2⟩

theorem length_toBytesFrom {str : List UInt8} {lo : ℕ} {hs : List Listhead}
    (h : InRange lo str.length hs) :
    (toBytesFrom str lo hs).length = str.length - lo + hsum hs := by
  induction hs generalizing lo with
  | nil => simp [toBytesFrom]
  | cons x xs ih =>
    obtain ⟨hlo, hxs⟩ := h
    have hle := hxs.le
    simp only [toBytesFrom, List.length_append, List.length_take, List.length_drop,
      Listhead.encode, length_puthead, ih hxs, hsum_cons]
    omega

theorem take_drop_split (str : List UInt8) {lo mid off : ℕ} (h₁ : lo ≤ mid) (h₂ : mid ≤ off) :
    (str.drop lo).take (off - lo) = (str.drop lo).take (mid - lo) ++ (str.drop mid).take (off - mid) := by
  have hoff : off - lo = (mid - lo) + (off - mid) := by omega
  rw [hoff, List.take_add, List.drop_drop]
  congr 3
  omega

theorem toBytesFrom_append {str : List UInt8} {lo mid : ℕ} {hs hs' : List Listhead}
    (h : InRange lo mid hs) (h' : InRange mid str.length hs') :
    toBytesFrom str lo (hs ++ hs') = toBytesFrom (str.take mid) lo hs ++ toBytesFrom str mid hs' := by
  induction hs generalizing lo with
  | nil =>
    have hlo : lo ≤ mid := h
    cases hs' with
    | nil =>
      simp only [List.nil_append, toBytesFrom, List.drop_take]
      conv_lhs => rw [← List.take_append_drop (mid - lo) (str.drop lo), List.drop_drop]
      congr 2
      omega
    | cons x xs =>
      simp only [List.nil_append, toBytesFrom, List.drop_take, List.append_assoc]
      rw [take_drop_split str hlo h'.1, List.append_assoc]
  | cons x xs ih =>
    simp only [List.cons_append, toBytesFrom, List.append_assoc]
    rw [ih h.2]
    have hx : x.offset ≤ mid := h.2.le
    simp only [List.drop_take, List.take_take]
    congr 2
    omega

/-- `f` writes `out`: it appends string data and headers behind everything already in
the buffer, and those render to `out`. -/
def Writes (f : Encbuf → Encbuf) (out : List UInt8) : Prop :=
  ∀ e : Encbuf, ∃ S H, f e = ⟨e.str ++ S, e.lheads ++ H, e.lhsize + hsum H⟩ ∧
    InRange e.str.length (e.str.length + S.length) H ∧
    toBytesFrom (e.str ++ S) e.str.length H = out

theorem writes_id : Writes id [] := by
  intro e
  exact ⟨[], [], by simp, by simp [InRange], by simp [toBytesFrom]⟩

theorem writes_append (b : List UInt8) : Writes (fun w => w.append b) b := by
  intro e
  exact ⟨b, [], by simp [append], by simp [InRange], by simp [toBytesFrom]⟩

theorem Writes.comp {f g : Encbuf → Encbuf} {a b : List UInt8} (hf : Writes f a)
    (hg : Writes g b) : Writes (fun w => g (f w)) (a ++ b) := by
  intro e
  obtain ⟨S₁, H₁, he₁, hr₁, ho₁⟩ := hf e
  obtain ⟨S₂, H₂, he₂, hr₂, ho₂⟩ := hg (f e)
  rw [he₁] at he₂ hr₂ ho₂
  dsimp only at he₂ hr₂ ho₂
  refine ⟨S₁ ++ S₂, H₁ ++ H₂, ?_, ?_, ?_⟩
  · show g (f e) = _
    rw [he₁, he₂]
    simp only [List.append_assoc, hsum_append, Nat.add_assoc]
  · simp only [List.length_append] at hr₁ hr₂ ⊢
    exact hr₁.append (by simpa [Nat.add_assoc] using hr₂)
  · have hr₂' : InRange (e.str ++ S₁).length (e.str ++ S₁ ++ S₂).length H₂ := by
      simpa [Nat.add_assoc] using hr₂
    rw [← List.append_assoc, toBytesFrom_append (by simpa using hr₁) hr₂',
      List.take_left' (by simp)]
    simp only [List.length_append] at ho₂
    rw [ho₁, ← ho₂]
    simp

theorem Writes.withList {f : Encbuf → Encbuf} {p : List UInt8} (hf : Writes f p) :
    Writes (withList f) (encList p) := by
  intro e
  obtain ⟨S, H, he, hr, ho⟩ := hf ⟨e.str, e.lheads ++ [⟨e.str.length, e.lhsize⟩], e.lhsize⟩
  dsimp only at he hr ho
  have hlen := @length_toBytesFrom (e.str ++ S) e.str.length H
    (by simpa using hr)
  rw [ho] at hlen
  simp only [List.length_append, Nat.add_sub_cancel_left] at hlen
  refine ⟨S, ⟨e.str.length, p.length⟩ :: H, ?_, ⟨le_rfl, hr⟩, ?_⟩
  · show (f ⟨e.str, e.lheads ++ [⟨e.str.length, e.lhsize⟩], e.lhsize⟩).listEnd
      e.lheads.length = _
    rw [he]
    simp only [listEnd, size, List.length_append]
    rw [List.append_assoc, List.getElem?_append_right le_rfl, Nat.sub_self]
    simp only [List.singleton_append, List.getElem?_cons_zero]
    rw [List.set_append_right _ _ le_rfl, Nat.sub_self]
    have hsize : e.str.length + S.length + (e.lhsize + hsum H) - e.str.length - e.lhsize =
        S.length + hsum H := by omega
    simp only [List.set_cons_zero, hsum_cons, hlen, hsize, mk.injEq, true_and]
    omega
  · simp [toBytesFrom, Listhead.encode, encList, ho]

@[simp] theorem append_append (w : Encbuf) (a b : List UInt8) :
    (w.append a).append b = w.append (a ++ b) := by
  simp [append]

theorem encodeStringHeader_eq (w : Encbuf) (size : ℕ) :
    w.encodeStringHeader size = w.append (puthead 0x80 0xB7 size) := by
  unfold encodeStringHeader puthead
  split <;> rfl

theorem encodeString_eq (w : Encbuf) (b : List UInt8) :
    w.encodeString b = w.append (encString b) := by
  unfold encodeString encString
  split
  · split <;> simp [encodeStringHeader_eq]
  · simp [encodeStringHeader_eq]

theorem writeUint_eq (w : Encbuf) (i : ℕ) : w.writeUint i = w.append (encUint i) := by
  unfold writeUint encUint
  split
  · rfl
  · split <;> rfl

theorem writes_encodeString (b : List UInt8) :
    Writes (fun w => w.encodeString b) (encString b) := by
  simpa only [encodeString_eq] using writes_append (encString b)

end Encbuf

open Encbuf

mutual

theorem writes_writeVal : ∀ (t : Ty) (v : Val), Writes (writeVal t v) (encVal t v)
  | t, .list vs => by
    show Writes (fun w => writeVal t (.list vs) w) _
    cases t <;> simp only [writeVal, encVal]
    all_goals first
      | exact (writes_writeVals _ vs).withList
      | exact (writes_writeFields _ vs).withList
      | exact writes_id
  | t, .uint n => by
    show Writes (fun w => writeVal t (.uint n) w) _
    cases t <;> simp only [writeVal, encVal]
    all_goals first
      | simpa only [writeUint_eq] using writes_append (encUint n)
      | exact writes_id
  | t, .bool b => by
    show Writes (fun w => writeVal t (.bool b) w) _
    cases t <;> simp only [writeVal, encVal]
    all_goals first
      | cases b <;> exact writes_append _
      | exact writes_id
  | t, .bytes b => by
    show Writes (fun w => writeVal t (.bytes b) w) _
    cases t <;> simp only [writeVal, encVal]
    all_goals first
      | exact writes_encodeString b
      | exact writes_id
  | t, .big n => by
    show Writes (fun w => writeVal t (.big n) w) _
    cases t <;> simp only [writeVal, encVal]
    all_goals first
      | exact writes_id
      | by_cases hn : n = 0
        · simpa [writeBigInt, hn] using writes_append [0x80]
        · simpa [writeBigInt, hn] using writes_encodeString (toBytes n)

theorem writes_writeVals : ∀ (t : Ty) (vs : List Val), Writes (writeVals t vs) (encVals t vs)
  | t, [] => by
    show Writes (fun w => writeVals t [] w) _
    simp only [writeVals, encVals]
    exact writes_id
  | t, v :: vs => by
    show Writes (fun w => writeVals t (v :: vs) w) _
    simp only [writeVals, encVals]
    exact (writes_writeVal t v).comp (writes_writeVals t vs)

theorem writes_writeFields : ∀ (fs : List Ty) (vs : List Val),
    Writes (writeFields fs vs) (encFields fs vs)
  | [], vs => by
    show Writes (fun w => writeFields [] vs w) _
    simp only [writeFields, encFields]
    exact writes_id
  | _ :: _, [] => by
    show Writes (fun w => writeFields (_ :: _) [] w) _
    simp only [writeFields, encFields]
    exact writes_id
  | f :: fs, v :: rest => by
    show Writes (fun w => writeFields (f :: fs) (v :: rest) w) _
    cases f <;> cases v <;> simp only [writeFields, encFields]
    all_goals first
      | exact (writes_writeVals _ _).comp (writes_writeFields fs rest)
      | exact (writes_writeVal _ _).comp (writes_writeFields fs rest)

end

/-- `EncodeToBytes` renders the buffer into the direct encoding. -/
theorem encodeToBytes_eq (t : Ty) (v : Val) : encodeToBytes t v = encVal t v := by
  obtain ⟨S, H, he, _, ho⟩ := writes_writeVal t v Encbuf.empty
  simp only [encodeToBytes, he, Encbuf.toBytes]
  simpa [Encbuf.empty] using ho

end Sphinx.Rlp
