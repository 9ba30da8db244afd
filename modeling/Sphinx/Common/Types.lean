import Sphinx.Lib.BigEndian

/-! # Byte strings of fixed length

`common.Hash` and `common.Address` are byte arrays of fixed length; a value of
`FixedBytes n` carries the proof of its length. `SetBytes`, which both types define
alike, keeps the last `n` bytes of its input and left-pads a shorter one with zeros.
-/

namespace Sphinx

abbrev Bytes := List UInt8

/-- The bytes of an ASCII string, as `[]byte(s)` has them. -/
def ascii (s : String) : Bytes := s.toList.map fun c => c.toNat.toUInt8

@[ext]
structure FixedBytes (n : ℕ) where
  bytes : Bytes
  length_eq : bytes.length = n
  deriving DecidableEq

namespace FixedBytes

/-- `SetBytes` on a zero value: the last `n` bytes of `b`, left-padded with zeros. -/
def setBytes {n : ℕ} (b : Bytes) : FixedBytes n :=
  ⟨List.replicate (n - (b.drop (b.length - n)).length) 0 ++ b.drop (b.length - n), by
    simp only [List.length_append, List.length_replicate, List.length_drop]
    omega⟩

theorem bytes_setBytes_of_length {n : ℕ} {b : Bytes} (h : b.length = n) :
    (setBytes b : FixedBytes n).bytes = b := by
  simp [setBytes, h]

theorem setBytes_bytes {n : ℕ} (h : FixedBytes n) : setBytes h.bytes = h :=
  FixedBytes.ext (bytes_setBytes_of_length h.length_eq)

end FixedBytes

/-- `common.Hash`. -/
abbrev Hash := FixedBytes 32

/-- `common.Address`. -/
abbrev Address := FixedBytes 20

/-- A fixed-length byte string is a vector of bytes. -/
def FixedBytes.equivVector (n : ℕ) : FixedBytes n ≃ List.Vector UInt8 n where
  toFun h := ⟨h.bytes, h.length_eq⟩
  invFun v := ⟨v.1, v.2⟩
  left_inv _ := rfl
  right_inv _ := rfl

instance (n : ℕ) : Fintype (FixedBytes n) := Fintype.ofEquiv _ (FixedBytes.equivVector n).symm

/-- Fixed-length byte strings ordered as big-endian numbers. -/
instance (n : ℕ) : LinearOrder (FixedBytes n) :=
  LinearOrder.lift' (fun a => BigEndian.ofBytes a.bytes) fun a b h =>
    FixedBytes.ext (BigEndian.ofBytes_injective_of_length (a.length_eq.trans b.length_eq.symm) h)

/-- The zero value `T{}` of a byte array type of length `n`. -/
def FixedBytes.zero (n : ℕ) : FixedBytes n := ⟨List.replicate n 0, List.length_replicate⟩

/-- `common.Hash{}`. -/
def zeroHash : Hash := ⟨List.replicate 32 0, List.length_replicate⟩

/-- `BytesToHash`. -/
def bytesToHash (b : Bytes) : Hash := FixedBytes.setBytes b

/-- `H` maps an input of `xs` and a different input of `ys` to one hash. -/
def Collides (H : Bytes → Bytes) (xs ys : List Bytes) : Prop :=
  ∃ x ∈ xs, ∃ y ∈ ys, x ≠ y ∧ H x = H y

theorem Collides.mono {H : Bytes → Bytes} {xs xs' ys ys' : List Bytes} (hx : xs ⊆ xs')
    (hy : ys ⊆ ys') : Collides H xs ys → Collides H xs' ys' := by
  rintro ⟨x, hxm, y, hym, hne, he⟩
  exact ⟨x, hx hxm, y, hy hym, hne, he⟩

/-- A bind of the decoders' error monad succeeds only through a success of its first step. -/
theorem except_bind_eq_ok {ε α β : Type} {x : Except ε α} {f : α → Except ε β} {b : β}
    (h : (x >>= f) = .ok b) : ∃ a, x = .ok a ∧ f a = .ok b := by
  cases x with
  | error e => cases h
  | ok a => exact ⟨a, rfl, h⟩

end Sphinx
