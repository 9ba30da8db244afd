import Sphinx.Common.Types
import Sphinx.Rlp.Complete

/-! # RLPx frames

`rlpxFrameRW` of `rlpx.go` in its simplified form: a message is written as two
length-prefixed segments, a four-byte big-endian size (`putInt32`) and the RLP encoding of
its code, then a four-byte size and the payload. `ReadMsg` reads the two segments back with
`io.ReadFull` and decodes the code with the RLP stream; the cipher and MAC state of the
frame writer are not used by either.

A connection is the byte string still to be read. `frames_roundtrip`: the frames of a
sequence of messages whose sizes are their payloads' lengths read back as that sequence,
and reading the sequence from any proper prefix of the stream fails.
-/

namespace Sphinx.P2p

open Rlp

/-! ## Sizes -/

/-- `putInt32`. -/
def putInt32 (v : UInt32) : Bytes :=
  [(v >>> 24).toUInt8, (v >>> 16).toUInt8, (v >>> 8).toUInt8, v.toUInt8]

/-- `readInt32` of a four-byte buffer. -/
def readInt32 (b : Bytes) : UInt32 :=
  (b.getD 3 0).toUInt32 ||| (b.getD 2 0).toUInt32 <<< 8 ||| (b.getD 1 0).toUInt32 <<< 16 |||
    (b.getD 0 0).toUInt32 <<< 24

@[simp] theorem length_putInt32 (v : UInt32) : (putInt32 v).length = 4 := rfl

theorem or_mul_two_pow {x k : ℕ} (y : ℕ) (hx : x < 2 ^ k) : x ||| y * 2 ^ k = x + y * 2 ^ k := by
  rw [Nat.or_comm, ← Nat.shiftLeft_eq, ← Nat.shiftLeft_add_eq_or_of_lt hx, Nat.shiftLeft_eq]
  ring

theorem readInt32_putInt32 (v : UInt32) : readInt32 (putInt32 v) = v := by
  apply UInt32.toNat_inj.1
  have hv := v.toNat_lt
  simp only [readInt32, putInt32, List.getD_cons_succ, List.getD_cons_zero, UInt32.toNat_or,
    UInt32.toNat_shiftLeft, UInt32.toNat_shiftRight, UInt8.toNat_toUInt32, UInt32.toNat_toUInt8,
    Nat.shiftRight_eq_div_pow, Nat.shiftLeft_eq, UInt32.reduceToNat, Nat.reduceMod]
  rw [Nat.mod_eq_of_lt (by omega : v.toNat / 2 ^ 8 % 2 ^ 8 * 2 ^ 8 < 4294967296),
    Nat.mod_eq_of_lt (by omega : v.toNat / 2 ^ 16 % 2 ^ 8 * 2 ^ 16 < 4294967296),
    Nat.mod_eq_of_lt (by omega : v.toNat / 2 ^ 24 % 2 ^ 8 * 2 ^ 24 < 4294967296),
    or_mul_two_pow _ (by omega : v.toNat % 2 ^ 8 < 2 ^ 8),
    or_mul_two_pow _ (by omega : v.toNat % 2 ^ 8 + v.toNat / 2 ^ 8 % 2 ^ 8 * 2 ^ 8 < 2 ^ 16),
    or_mul_two_pow _ (by omega : v.toNat % 2 ^ 8 + v.toNat / 2 ^ 8 % 2 ^ 8 * 2 ^ 8 +
      v.toNat / 2 ^ 16 % 2 ^ 8 * 2 ^ 16 < 2 ^ 24)]
  omega

/-! ## Messages and frames -/

/-- A message: its code, its declared size and the bytes its payload reader yields. -/
structure Msg where
  code : UInt64
  size : UInt32
  payload : Bytes
  deriving DecidableEq, Repr

/-- The errors of `ReadMsg`: `io.ReadFull` with nothing to read (`io.EOF`) or with part of
the buffer (`io.ErrUnexpectedEOF`), and what `rlp.Decode` refuses. -/
inductive FrameError where
  | eof
  | unexpectedEOF
  | rlp (e : Rlp.Error)
  deriving DecidableEq, Repr

/-- `io.ReadFull(conn, buf)` with `len(buf) = n`: the first `n` bytes and the rest. -/
def readFull (n : ℕ) (conn : Bytes) : Except FrameError (Bytes × Bytes) :=
  if n ≤ conn.length then .ok (conn.take n, conn.drop n)
  else if conn = [] then .error .eof else .error .unexpectedEOF

/-- `rlp.Decode(bytes.NewReader(codebuf), &msg.Code)`: `decodeUint` for a `uint64` on a
stream over the buffer. -/
def decodeCode (codebuf : Bytes) : Except FrameError UInt64 :=
  match (Stream.new codebuf).uint 64 with
  | (.ok n, _) => .ok (UInt64.ofNat n)
  | (.error e, _) => .error (.rlp (wrapStreamError e))

/-- `WriteMsg`: the bytes it writes. -/
def writeMsg (msg : Msg) : Bytes :=
  let code := encodeToBytes (.uint 64) (.uint msg.code.toNat)
  putInt32 (UInt32.ofNat code.length) ++ code ++ putInt32 msg.size ++ msg.payload

/-- `ReadMsg` on the bytes still to be read: the message and the bytes after it. -/
def readMsg (conn : Bytes) : Except FrameError (Msg × Bytes) := do
  let (sizebuf, conn) ← readFull 4 conn
  let size := readInt32 sizebuf
  let (codebuf, conn) ← readFull size.toNat conn
  let code ← decodeCode codebuf
  let (sizebuf, conn) ← readFull 4 conn
  let size := readInt32 sizebuf
  let (payloadbuf, conn) ← readFull size.toNat conn
  pure ({ code, size := UInt32.ofNat payloadbuf.length, payload := payloadbuf }, conn)

/-- Messages written one after the other. -/
def writeMsgs (msgs : List Msg) : Bytes := msgs.flatMap writeMsg

@[simp] theorem writeMsgs_cons (msg : Msg) (msgs : List Msg) :
    writeMsgs (msg :: msgs) = writeMsg msg ++ writeMsgs msgs := rfl

/-- `n` calls of `ReadMsg` one after the other. -/
def readMsgs : ℕ → Bytes → Except FrameError (List Msg × Bytes)
  | 0, conn => .ok ([], conn)
  | n + 1, conn => do
    let (msg, conn) ← readMsg conn
    let (msgs, conn) ← readMsgs n conn
    pure (msg :: msgs, conn)

/-- A message whose declared size is its payload's length. -/
def Msg.SizeOk (msg : Msg) : Prop := msg.size.toNat = msg.payload.length

instance : DecidablePred Msg.SizeOk := fun _ => inferInstanceAs (Decidable (_ = _))

/-! ## Reads -/

section Reads

theorem readFull_append {n : ℕ} {b : Bytes} (rest : Bytes) (hb : b.length = n) :
    readFull n (b ++ rest) = .ok (b, rest) := by
  subst hb
  simp [readFull]

theorem readFull_ok_append {n : ℕ} {conn b r : Bytes} (h : readFull n conn = .ok (b, r))
    (more : Bytes) : readFull n (conn ++ more) = .ok (b, r ++ more) := by
  unfold readFull at h ⊢
  split_ifs at h with hn
  · cases h
    rw [if_pos (by simp; omega), List.take_append_of_le_length hn, List.drop_append_of_le_length hn]

theorem decodeCode_encode (code : UInt64) :
    decodeCode (encodeToBytes (.uint 64) (.uint code.toNat)) = .ok code := by
  rw [encodeToBytes_eq]
  obtain ⟨s', hu, -⟩ := @Stream.uint_encUint (Stream.new (encUint code.toNat)) code.toNat []
    rfl code.toNat_lt (Stream.tight_new _) (by simp [Stream.new]) (by simp [Stream.Room, Stream.new])
  simp [decodeCode, encVal, hu]

theorem length_encodeCode_lt (code : UInt64) :
    (encodeToBytes (.uint 64) (.uint code.toNat)).length < 2 ^ 32 := by
  have h8 := Raw.intsize_le_eight code.toNat_lt
  rw [encodeToBytes_eq, encVal, encUint]
  split_ifs <;> simp [length_putint]
  omega

theorem readMsg_writeMsg {msg : Msg} (hsize : msg.SizeOk) (rest : Bytes) :
    readMsg (writeMsg msg ++ rest) = .ok (msg, rest) := by
  have hc := length_encodeCode_lt msg.code
  have hmsg : ({ code := msg.code, size := UInt32.ofNat msg.payload.length, payload := msg.payload } : Msg) = msg := by
    rw [← hsize, UInt32.ofNat_toNat]
  simp only [readMsg, writeMsg, List.append_assoc, readFull_append _ (length_putInt32 _), bind,
    Except.bind, readInt32_putInt32, UInt32.toNat_ofNat_of_lt' hc, readFull_append _ rfl,
    decodeCode_encode, readFull_append _ hsize.symm, hmsg]
  rfl

theorem readMsg_ok_append {conn r : Bytes} {msg : Msg} (h : readMsg conn = .ok (msg, r))
    (more : Bytes) : readMsg (conn ++ more) = .ok (msg, r ++ more) := by
  obtain ⟨⟨sizebuf, c₁⟩, h₁, h⟩ := except_bind_eq_ok h
  obtain ⟨⟨codebuf, c₂⟩, h₂, h⟩ := except_bind_eq_ok h
  obtain ⟨code, h₃, h⟩ := except_bind_eq_ok h
  obtain ⟨⟨sizebuf', c₃⟩, h₄, h⟩ := except_bind_eq_ok h
  obtain ⟨⟨payloadbuf, c₄⟩, h₅, h⟩ := except_bind_eq_ok h
  obtain ⟨rfl, rfl⟩ := Prod.mk.inj (Except.ok.inj h)
  simp only [readMsg, bind, Except.bind, readFull_ok_append h₁ more, readFull_ok_append h₂ more, h₃,
    readFull_ok_append h₄ more, readFull_ok_append h₅ more]
  rfl

theorem readMsgs_ok_append {n : ℕ} {conn r : Bytes} {msgs : List Msg}
    (h : readMsgs n conn = .ok (msgs, r)) (more : Bytes) :
    readMsgs n (conn ++ more) = .ok (msgs, r ++ more) := by
  induction n generalizing conn msgs with
  | zero =>
    obtain ⟨rfl, rfl⟩ := Prod.mk.inj (Except.ok.inj h)
    rfl
  | succ n ih =>
    obtain ⟨⟨msg, c₁⟩, h₁, h⟩ := except_bind_eq_ok h
    obtain ⟨⟨msgs', c₂⟩, h₂, h⟩ := except_bind_eq_ok h
    obtain ⟨rfl, rfl⟩ := Prod.mk.inj (Except.ok.inj h)
    simp only [readMsgs, bind, Except.bind, readMsg_ok_append h₁ more, ih h₂]
    rfl

end Reads

/-! ## Streams of frames -/

theorem readMsgs_writeMsgs {msgs : List Msg} (hsize : ∀ msg ∈ msgs, msg.SizeOk) (rest : Bytes) :
    readMsgs msgs.length (writeMsgs msgs ++ rest) = .ok (msgs, rest) := by
  induction msgs with
  | nil => rfl
  | cons msg msgs ih =>
    have hmsg := readMsg_writeMsg (hsize msg List.mem_cons_self) (writeMsgs msgs ++ rest)
    have hrest := ih (fun m hm => hsize m (List.mem_cons_of_mem msg hm))
    rw [writeMsgs_cons, List.append_assoc]
    simp only [List.length_cons, readMsgs, bind, Except.bind, hmsg, hrest]
    rfl

/-- The frames of messages whose sizes are their payloads' lengths read back as the same
messages, with nothing left; and reading them from a proper prefix of the stream fails. -/
theorem frames_roundtrip {msgs : List Msg} (hsize : ∀ msg ∈ msgs, msg.SizeOk) :
    readMsgs msgs.length (writeMsgs msgs) = .ok (msgs, []) ∧
    ∀ p q, p ++ q = writeMsgs msgs → q ≠ [] → ∃ e, readMsgs msgs.length p = .error e := by
  have hall : readMsgs msgs.length (writeMsgs msgs) = .ok (msgs, []) := by
    simpa using readMsgs_writeMsgs hsize []
  refine ⟨hall, fun p q hpq hq => ?_⟩
  cases hp : readMsgs msgs.length p with
  | error e => exact ⟨e, rfl⟩
  | ok res =>
    obtain ⟨ms, r⟩ := res
    have hext := readMsgs_ok_append hp q
    rw [hpq, hall] at hext
    have hnil : r ++ q = [] := (Prod.mk.inj (Except.ok.inj hext)).2.symm
    exact absurd (List.append_eq_nil_iff.1 hnil).2 hq

theorem frames_roundtrip_two :
    (∀ msg ∈ [⟨1, 2, [7, 8]⟩, ⟨300, 0, []⟩], Msg.SizeOk msg) ∧
    readMsgs 2 (writeMsgs [⟨1, 2, [7, 8]⟩, ⟨300, 0, []⟩]) = .ok ([⟨1, 2, [7, 8]⟩, ⟨300, 0, []⟩], []) :=
  ⟨by decide, (@frames_roundtrip [⟨1, 2, [7, 8]⟩, ⟨300, 0, []⟩] (by decide)).1⟩

/-- A single `ReadMsg` on the first frame of two, a proper prefix of their stream, returns
the first message. -/
theorem readMsg_first_of_two_frames :
    writeMsgs [⟨1, 0, []⟩, ⟨1, 0, []⟩] = writeMsg ⟨1, 0, []⟩ ++ writeMsg ⟨1, 0, []⟩ ∧
    writeMsg ⟨1, 0, []⟩ ≠ [] ∧ readMsg (writeMsg ⟨1, 0, []⟩) = .ok (⟨1, 0, []⟩, []) := by
  refine ⟨rfl, by simp [writeMsg, putInt32], ?_⟩
  simpa using @readMsg_writeMsg ⟨1, 0, []⟩ rfl []

end Sphinx.P2p
