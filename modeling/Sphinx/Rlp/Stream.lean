import Sphinx.Rlp.Encode

/-! # The RLP stream

The decoding `Stream` of `decode.go` over a byte slice: the unread input, the input
limit, the stack of enclosing lists with their read positions, and the kind, size and
error of the value ahead, which `Kind` caches until a read rearms it. Every operation
returns the stream as it leaves it, also on an error, since callers may go on reading.
-/

namespace Sphinx.Rlp

inductive Kind where
  | byte
  | string
  | list
  deriving DecidableEq, Repr

/-- The errors of the package; `decode` is a `*decodeError` with its message, and
`outOfFuel` marks a decoding loop cut off by the model's fuel. -/
inductive Error where
  | eol
  | expectedString
  | expectedList
  | canonInt
  | canonSize
  | elemTooLarge
  | valueTooLarge
  | moreThanOneValue
  | notInList
  | notAtEOL
  | uintOverflow
  | eof
  | unexpectedEOF
  | invalidBool (n : ℕ)
  | decode (msg : String)
  | outOfFuel
  deriving DecidableEq, Repr

structure Listpos where
  pos : ℕ
  size : ℕ
  deriving DecidableEq, Repr

/-- A stream reading a byte slice; `kind = none` is the rearmed `kind = -1`, and the
innermost list is the head of `stack`. -/
structure Stream where
  input : List UInt8
  remaining : ℕ
  limited : Bool
  kind : Option Kind
  size : ℕ
  byteval : UInt8
  kinderr : Option Error
  stack : List Listpos
  deriving DecidableEq, Repr

abbrev Res (α : Type) := Except Error α × Stream

namespace Stream

/-- `NewStream(bytes.NewReader(b), uint64(len(b)))`. -/
def new (b : List UInt8) : Stream :=
  ⟨b, b.length, true, none, 0, 0, none, []⟩

/-- The input-limit half of `willRead`. -/
def checkLimit (s : Stream) (n : ℕ) : Res Unit :=
  if s.limited then
    if n > s.remaining then (.error .valueTooLarge, s)
    else (.ok (), { s with remaining := s.remaining - n })
  else (.ok (), s)

def willRead (s : Stream) (n : ℕ) : Res Unit :=
  match s.stack with
  | tos :: rest =>
    if n > tos.size - tos.pos then (.error .elemTooLarge, { s with kind := none })
    else { s with kind := none, stack := ⟨tos.pos + n, tos.size⟩ :: rest }.checkLimit n
  | [] => { s with kind := none }.checkLimit n

def readByte (s : Stream) : Res UInt8 :=
  match s.willRead 1 with
  | (.error e, s) => (.error e, s)
  | (.ok (), s) =>
    match s.input with
    | b :: rest => (.ok b, { s with input := rest })
    | [] => (.error .unexpectedEOF, s)

def readFull (s : Stream) (n : ℕ) : Res (List UInt8) :=
  match s.willRead n with
  | (.error e, s) => (.error e, s)
  | (.ok (), s) =>
    if n ≤ s.input.length then (.ok (s.input.take n), { s with input := s.input.drop n })
    else (.error .unexpectedEOF, { s with input := [] })

def readUint (s : Stream) (size : ℕ) : Res ℕ :=
  match size with
  | 0 => (.ok 0, { s with kind := none })
  | 1 =>
    match s.readByte with
    | (.error e, s) => (.error e, s)
    | (.ok b, s) => (.ok b.toNat, s)
  | k + 2 =>
    match s.readFull (k + 2) with
    | (.error e, s) => (.error e, s)
    | (.ok bs, s) =>
      -- `readUint` is also used for integer values; callers turn the error into
      -- `ErrCanonInt` there
      if bs.head? = some 0 then (.error .canonSize, s) else (.ok (BigEndian.ofBytes bs), s)

/-- `readKind` returns the kind, the size and the error together; on an error the kind
and size it returns are what the caller caches. -/
def readKind (s : Stream) : (Kind × ℕ × Option Error) × Stream :=
  match s.readByte with
  | (.error e, s) =>
    -- at top level an exhausted input is the end of the stream
    let e := if s.stack = [] ∧ (e = .unexpectedEOF ∨ e = .valueTooLarge) then .eof else e
    ((.byte, 0, some e), s)
  | (.ok b, s) =>
    let s := { s with byteval := 0 }
    if b < 0x80 then ((.byte, 0, none), { s with byteval := b })
    else if b < 0xB8 then ((.string, b.toNat - 0x80, none), s)
    else if b < 0xC0 then
      match s.readUint (b.toNat - 0xB7) with
      | (.error e, s) => ((.string, 0, some e), s)
      | (.ok size, s) => ((.string, size, if size < 56 then some .canonSize else none), s)
    else if b < 0xF8 then ((.list, b.toNat - 0xC0, none), s)
    else
      match s.readUint (b.toNat - 0xF7) with
      | (.error e, s) => ((.list, 0, some e), s)
      | (.ok size, s) => ((.list, size, if size < 56 then some .canonSize else none), s)

/-- The size check `Kind` makes after reading a header: against the input left at top
level, against the rest of the innermost list inside one. -/
def sizeCheck (s : Stream) (size : ℕ) : Option Error :=
  match s.stack with
  | [] => if s.limited ∧ size > s.remaining then some .valueTooLarge else none
  | tos :: _ => if size > tos.size - tos.pos then some .elemTooLarge else none

/-- What `Kind` returns once the kind `k` is cached: it, or the cached error. -/
def cached (s : Stream) (k : Kind) : Res (Kind × ℕ) :=
  match s.kinderr with
  | none => (.ok (k, s.size), s)
  | some e => (.error e, s)

/-- The part of `Kind` that reads the next header and caches what `readKind` says. -/
def readAhead (s : Stream) : Res (Kind × ℕ) :=
  match s.readKind with
  | ((k, size, some e), s) => cached { s with kind := some k, size := size, kinderr := some e } k
  | ((k, size, none), s) =>
    cached { s with kind := some k, size := size, kinderr := s.sizeCheck size } k

def kindOf (s : Stream) : Res (Kind × ℕ) :=
  match s.kind with
  | some k => s.cached k
  | none =>
    let s := { s with kinderr := none }
    match s.stack with
    | tos :: _ =>
      if tos.pos = tos.size then (.error .eol, s)
      else s.readAhead
    | [] => s.readAhead

def bytes (s : Stream) : Res (List UInt8) :=
  match s.kindOf with
  | (.error e, s) => (.error e, s)
  | (.ok (.byte, _), s) => (.ok [s.byteval], { s with kind := none })
  | (.ok (.string, size), s) =>
    match s.readFull size with
    | (.error e, s) => (.error e, s)
    | (.ok b, s) =>
      match b with
      | [c] => if c < 128 then (.error .canonSize, s) else (.ok b, s)
      | _ => (.ok b, s)
  | (.ok (.list, _), s) => (.error .expectedString, s)

def uint (s : Stream) (maxbits : ℕ) : Res ℕ :=
  match s.kindOf with
  | (.error e, s) => (.error e, s)
  | (.ok (.byte, _), s) =>
    -- a zero byte is refused without rearming the kind
    if s.byteval = 0 then (.error .canonInt, s)
    else (.ok s.byteval.toNat, { s with kind := none })
  | (.ok (.string, size), s) =>
    if size > maxbits / 8 then (.error .uintOverflow, s)
    else
      match s.readUint size with
      | (.error .canonSize, s) => (.error .canonInt, s)
      | (.error e, s) => (.error e, s)
      | (.ok v, s) => if size > 0 ∧ v < 128 then (.error .canonSize, s) else (.ok v, s)
  | (.ok (.list, _), s) => (.error .expectedString, s)

def bool (s : Stream) : Res Bool :=
  match s.uint 8 with
  | (.error e, s) => (.error e, s)
  | (.ok 0, s) => (.ok false, s)
  | (.ok 1, s) => (.ok true, s)
  | (.ok n, s) => (.error (.invalidBool n), s)

def list (s : Stream) : Res ℕ :=
  match s.kindOf with
  | (.error e, s) => (.error e, s)
  | (.ok (.list, size), s) =>
    (.ok size, { s with stack := ⟨0, size⟩ :: s.stack, kind := none, size := 0 })
  | (.ok _, s) => (.error .expectedList, s)

def listEnd (s : Stream) : Res Unit :=
  match s.stack with
  | [] => (.error .notInList, s)
  | tos :: rest =>
    if tos.pos ≠ tos.size then (.error .notAtEOL, s)
    else
      let rest := match rest with
        | p :: ps => ⟨p.pos + tos.size, p.size⟩ :: ps
        | [] => []
      (.ok (), { s with stack := rest, kind := none, size := 0 })

/-! ## What the reads do

Each successful read consumes a prefix of the input and advances the position of the
innermost list by its length. -/

/-- The stack after `n` bytes are read: the innermost list's position advances. -/
def bump : List Listpos → ℕ → List Listpos
  | [], _ => []
  | tos :: rest, n => ⟨tos.pos + n, tos.size⟩ :: rest

@[simp] theorem bump_zero (st : List Listpos) : bump st 0 = st := by
  cases st <;> simp [bump]

@[simp] theorem bump_bump (st : List Listpos) (m n : ℕ) : bump (bump st m) n = bump st (m + n) := by
  cases st <;> simp [bump, Nat.add_assoc]

/-- `s'` is `s` after reading the bytes `c`. -/
structure Advanced (s s' : Stream) (c : List UInt8) : Prop where
  input : s.input = c ++ s'.input
  stack : s'.stack = bump s.stack c.length

theorem Advanced.trans {s₁ s₂ s₃ : Stream} {c₁ c₂ : List UInt8} (h₁ : Advanced s₁ s₂ c₁)
    (h₂ : Advanced s₂ s₃ c₂) : Advanced s₁ s₃ (c₁ ++ c₂) :=
  ⟨by rw [h₁.input, h₂.input, List.append_assoc], by rw [h₂.stack, h₁.stack, bump_bump]; simp⟩

theorem Advanced.of_eq {s s' : Stream} (hi : s'.input = s.input) (hs : s'.stack = s.stack) :
    Advanced s s' [] :=
  ⟨by simp [hi], by simp [hs]⟩

theorem checkLimit_ok {s s' : Stream} {n : ℕ} (h : s.checkLimit n = (.ok (), s')) :
    s'.input = s.input ∧ s'.stack = s.stack ∧ s'.kind = s.kind ∧ s'.byteval = s.byteval := by
  unfold checkLimit at h
  split at h
  · split at h <;> cases h
    simp
  · cases h; simp

theorem willRead_ok {s s' : Stream} {n : ℕ} (h : s.willRead n = (.ok (), s')) :
    s'.input = s.input ∧ s'.stack = bump s.stack n ∧ s'.kind = none ∧ s'.byteval = s.byteval := by
  unfold willRead at h
  cases hst : s.stack with
  | nil =>
    rw [hst] at h
    obtain ⟨hi, hs, hk, hb⟩ := checkLimit_ok h
    exact ⟨hi, by simp [hs, bump], hk, hb⟩
  | cons tos rest =>
    rw [hst] at h
    dsimp only at h
    split at h
    · cases h
    · obtain ⟨hi, hs, hk, hb⟩ := checkLimit_ok h
      exact ⟨hi, by simp [hs, bump], hk, hb⟩

theorem readByte_ok {s s' : Stream} {b : UInt8} (h : s.readByte = (.ok b, s')) :
    Advanced s s' [b] ∧ s'.kind = none ∧ s'.byteval = s.byteval := by
  unfold readByte at h
  rcases hw : s.willRead 1 with ⟨_ | ⟨⟩, s₁⟩ <;> rw [hw] at h
  · cases h
  · obtain ⟨hi, hs, hk, hb⟩ := willRead_ok hw
    dsimp only at h
    split at h
    · rename_i c rest hc
      cases h
      exact ⟨⟨by simp [← hi, hc], by simp [hs]⟩, hk, hb⟩
    · cases h

theorem readFull_ok {s s' : Stream} {n : ℕ} {bs : List UInt8} (h : s.readFull n = (.ok bs, s')) :
    Advanced s s' bs ∧ bs.length = n ∧ s'.kind = none ∧ s'.byteval = s.byteval := by
  unfold readFull at h
  rcases hw : s.willRead n with ⟨_ | ⟨⟩, s₁⟩ <;> rw [hw] at h
  · cases h
  · obtain ⟨hi, hs, hk, hb⟩ := willRead_ok hw
    dsimp only at h
    split at h
    · rename_i hn
      cases h
      have hlen : (s₁.input.take n).length = n := by simp; omega
      exact ⟨⟨by simp [hi], by simp only [hlen, hs]⟩, hlen, hk, hb⟩
    · cases h

theorem readUint_ok {s s' : Stream} {k v : ℕ} (h : s.readUint k = (.ok v, s')) :
    ∃ c, Advanced s s' c ∧ c.length = k ∧ v = BigEndian.ofBytes c ∧
      (2 ≤ k → BigEndian.NoLeadingZero c) ∧ s'.kind = none ∧ s'.byteval = s.byteval := by
  unfold readUint at h
  split at h
  · cases h
    exact ⟨[], Advanced.of_eq rfl rfl, rfl, rfl, by omega, rfl, rfl⟩
  · rcases hr : s.readByte with ⟨_ | b, s₁⟩ <;> rw [hr] at h
    · cases h
    · cases h
      obtain ⟨ha, hk, hb⟩ := readByte_ok hr
      exact ⟨[b], ha, rfl, by simp [BigEndian.ofBytes], by omega, hk, hb⟩
  · rename_i k
    rcases hr : s.readFull (k + 2) with ⟨_ | bs, s₁⟩ <;> rw [hr] at h
    · cases h
    · obtain ⟨ha, hl, hk, hb⟩ := readFull_ok hr
      dsimp only at h
      split at h
      · cases h
      · rename_i hz
        cases h
        exact ⟨bs, ha, hl, rfl, fun _ => hz, hk, hb⟩

/-- The bytes of a header `readKind` read, and the kind and size it reported. -/
def Header : Kind → ℕ → UInt8 → List UInt8 → Prop
  | .byte, size, bv, h => size = 0 ∧ bv < 0x80 ∧ h = [bv]
  | .string, size, _, h => h = puthead 0x80 0xB7 size
  | .list, size, _, h => h = puthead 0xC0 0xF7 size

theorem readUint_long {s₁ s₂ : Stream} {b : UInt8} (small large : UInt8) (n : ℕ) {size : ℕ}
    (hn : large.toNat = n) (hlo : n < b.toNat) (h : s₁.readUint (b.toNat - n) = (.ok size, s₂))
    (hs : ¬ size < 56) : ∃ c, Advanced s₁ s₂ c ∧ puthead small large size = b :: c ∧
      s₂.kind = none := by
  obtain ⟨c, ha, hl, hv, hnz, hk, -⟩ := readUint_ok h
  have hc : BigEndian.NoLeadingZero c := by
    subst hn
    by_cases h2 : 2 ≤ b.toNat - large.toNat
    · exact hnz h2
    · obtain ⟨x, rfl⟩ : ∃ x, c = [x] := by
        match c, hl with
        | [x], _ => exact ⟨x, rfl⟩
        | [], hl => simp at hl; omega
        | _ :: _ :: _, hl => simp at hl; omega
      intro hx
      simp only [List.head?_cons, Option.some.injEq] at hx
      simp [hx, BigEndian.ofBytes] at hv
      omega
  exact ⟨c, ha, puthead_long (by omega) hc hv.symm (by subst hn; omega), hk⟩

theorem readKind_ok {s s' : Stream} {k : Kind} {size : ℕ}
    (h : s.readKind = ((k, size, none), s')) :
    ∃ hd, Advanced s s' hd ∧ Header k size s'.byteval hd ∧ s'.kind = none := by
  unfold readKind at h
  rcases hr : s.readByte with ⟨_ | b, s₁⟩ <;> rw [hr] at h
  · cases h
  obtain ⟨ha, hk, -⟩ := readByte_ok hr
  have ha' : ∀ bv : UInt8, Advanced s { s₁ with byteval := bv } [b] :=
    fun _ => ⟨ha.input, ha.stack⟩
  have hb := b.toNat_lt
  dsimp only at h
  have hlt : ∀ c : UInt8, (b < c ↔ b.toNat < c.toNat) := fun _ => UInt8.lt_iff_toNat_lt
  split_ifs at h with h₁ h₂ h₃ h₄ <;> simp only [hlt, UInt8.reduceToNat, not_lt] at *
  · simp only [Prod.mk.injEq] at h
    obtain ⟨⟨rfl, rfl, -⟩, rfl⟩ := h
    exact ⟨[b], ha' b, ⟨rfl, by simpa [UInt8.lt_iff_toNat_lt] using h₁, rfl⟩, hk⟩
  · simp only [Prod.mk.injEq] at h
    obtain ⟨⟨rfl, rfl, -⟩, rfl⟩ := h
    exact ⟨[b], ha' 0, (puthead_short (by omega) (by simp; omega)).symm, hk⟩
  · rcases hu : ({ s₁ with byteval := 0 } : Stream).readUint (b.toNat - 0xB7) with
      ⟨_ | size', s₂⟩ <;> rw [hu] at h
    · simp at h
    · by_cases h56 : size' < 56
      · simp [h56] at h
      · simp only [h56, if_false, Prod.mk.injEq] at h
        obtain ⟨⟨rfl, rfl, -⟩, rfl⟩ := h
        obtain ⟨c, hc, hp, hk'⟩ := readUint_long 0x80 0xB7 0xB7 rfl (by omega) hu h56
        exact ⟨[b] ++ c, (ha' 0).trans hc, by simp [Header, hp], hk'⟩
  · simp only [Prod.mk.injEq] at h
    obtain ⟨⟨rfl, rfl, -⟩, rfl⟩ := h
    exact ⟨[b], ha' 0, (puthead_short (by omega) (by simp; omega)).symm, hk⟩
  · rcases hu : ({ s₁ with byteval := 0 } : Stream).readUint (b.toNat - 0xF7) with
      ⟨_ | size', s₂⟩ <;> rw [hu] at h
    · simp at h
    · by_cases h56 : size' < 56
      · simp [h56] at h
      · simp only [h56, if_false, Prod.mk.injEq] at h
        obtain ⟨⟨rfl, rfl, -⟩, rfl⟩ := h
        obtain ⟨c, hc, hp, hk'⟩ := readUint_long 0xC0 0xF7 0xF7 rfl (by omega) hu h56
        exact ⟨[b] ++ c, (ha' 0).trans hc, by simp [Header, hp], hk'⟩

/-! ### The end of a list is only reported by `Kind`'s position check -/

theorem checkLimit_error {s s' : Stream} {n : ℕ} {e : Error}
    (h : s.checkLimit n = (.error e, s')) : e ≠ .eol := by
  unfold checkLimit at h
  split at h
  · split at h <;> simp only [Prod.mk.injEq, Except.error.injEq, reduceCtorEq, false_and] at h
    obtain ⟨rfl, -⟩ := h
    simp
  · simp at h

theorem willRead_error {s s' : Stream} {n : ℕ} {e : Error}
    (h : s.willRead n = (.error e, s')) : e ≠ .eol := by
  unfold willRead at h
  split at h
  · split at h
    · simp only [Prod.mk.injEq, Except.error.injEq] at h
      rw [← h.1]
      simp
    · exact checkLimit_error h
  · exact checkLimit_error h

theorem readByte_error {s s' : Stream} {e : Error} (h : s.readByte = (.error e, s')) :
    e ≠ .eol := by
  unfold readByte at h
  rcases hw : s.willRead 1 with ⟨e' | ⟨⟩, s₁⟩ <;> rw [hw] at h
  · simp only [Prod.mk.injEq, Except.error.injEq] at h
    exact h.1 ▸ willRead_error hw
  · dsimp only at h
    split at h <;> simp only [Prod.mk.injEq, Except.error.injEq, reduceCtorEq, false_and] at h
    obtain ⟨rfl, -⟩ := h
    simp

theorem readFull_error {s s' : Stream} {n : ℕ} {e : Error}
    (h : s.readFull n = (.error e, s')) : e ≠ .eol := by
  unfold readFull at h
  rcases hw : s.willRead n with ⟨e' | ⟨⟩, s₁⟩ <;> rw [hw] at h
  · simp only [Prod.mk.injEq, Except.error.injEq] at h
    exact h.1 ▸ willRead_error hw
  · dsimp only at h
    split at h <;> simp only [Prod.mk.injEq, Except.error.injEq, reduceCtorEq, false_and] at h
    obtain ⟨rfl, -⟩ := h
    simp

theorem readUint_error {s s' : Stream} {k : ℕ} {e : Error}
    (h : s.readUint k = (.error e, s')) : e ≠ .eol := by
  unfold readUint at h
  split at h
  · simp at h
  · rcases hr : s.readByte with ⟨e' | b, s₁⟩ <;> rw [hr] at h
    · simp only [Prod.mk.injEq, Except.error.injEq] at h
      exact h.1 ▸ readByte_error hr
    · simp at h
  · rcases hr : s.readFull _ with ⟨e' | bs, s₁⟩ <;> rw [hr] at h
    · simp only [Prod.mk.injEq, Except.error.injEq] at h
      exact h.1 ▸ readFull_error hr
    · dsimp only at h
      split at h <;> simp only [Prod.mk.injEq, Except.error.injEq, reduceCtorEq, false_and] at h
      obtain ⟨rfl, -⟩ := h
      simp

theorem readKind_error {s s' : Stream} {k : Kind} {size : ℕ} {e : Error}
    (h : s.readKind = ((k, size, some e), s')) : e ≠ .eol := by
  unfold readKind at h
  rcases hr : s.readByte with ⟨e' | b, s₁⟩ <;> rw [hr] at h
  · simp only [Prod.mk.injEq, Option.some.injEq] at h
    rw [← h.1.2.2]
    split
    · simp
    · exact readByte_error hr
  · dsimp only at h
    split_ifs at h
    all_goals first
      | simp at h
      | rcases hu : ({ s₁ with byteval := 0 } : Stream).readUint _ with ⟨e' | v, s₂⟩ <;>
          rw [hu] at h
        · simp only [Prod.mk.injEq, Option.some.injEq] at h
          exact h.1.2.2 ▸ readUint_error hu
        · simp only [Prod.mk.injEq] at h
          obtain ⟨⟨-, -, he⟩, -⟩ := h
          split at he
          · simp only [Option.some.injEq] at he
            rw [← he]
            simp
          · simp at he

theorem sizeCheck_ne_eol (s : Stream) (size : ℕ) : s.sizeCheck size ≠ some .eol := by
  unfold sizeCheck
  split <;> split <;> simp

theorem readAhead_error {s s' : Stream} {e : Error} (h : s.readAhead = (.error e, s')) :
    e ≠ .eol := by
  unfold readAhead at h
  rcases hr : s.readKind with ⟨⟨k, size, _ | e'⟩, s₁⟩ <;> rw [hr] at h
  · simp only [cached] at h
    split at h
    · simp at h
    · rename_i e'' he
      simp only [Prod.mk.injEq, Except.error.injEq] at h
      rw [← h.1]
      intro hc
      exact sizeCheck_ne_eol s₁ size (hc ▸ he)
  · simp only [cached, Prod.mk.injEq, Except.error.injEq] at h
    exact h.1 ▸ readKind_error hr

/-! ### `Kind` and the reads built on it -/

theorem cached_ok {s s' : Stream} {k k' : Kind} {size : ℕ}
    (h : s.cached k = (.ok (k', size), s')) : s' = s ∧ k' = k ∧ size = s.size ∧ s.kinderr = none := by
  unfold cached at h
  split at h
  · rename_i he
    simp only [Prod.mk.injEq, Except.ok.injEq] at h
    obtain ⟨⟨rfl, rfl⟩, rfl⟩ := h
    exact ⟨rfl, rfl, rfl, he⟩
  · simp at h

theorem readAhead_ok {s s' : Stream} {k : Kind} {size : ℕ}
    (h : s.readAhead = (.ok (k, size), s')) :
    ∃ hd, Advanced s s' hd ∧ Header k size s'.byteval hd ∧ s'.kind = some k ∧ s'.size = size ∧
      s'.kinderr = none := by
  unfold readAhead at h
  rcases hr : s.readKind with ⟨⟨k', size', _ | e⟩, s₁⟩ <;> rw [hr] at h
  · obtain ⟨rfl, rfl, rfl, he⟩ := cached_ok h
    obtain ⟨hd, ha, hh, -⟩ := readKind_ok hr
    exact ⟨hd, ⟨ha.input, ha.stack⟩, hh, rfl, rfl, he⟩
  · obtain ⟨-, -, -, he⟩ := cached_ok h
    simp at he

theorem kindOf_none_ok {s s' : Stream} {k : Kind} {size : ℕ} (hk : s.kind = none)
    (h : s.kindOf = (.ok (k, size), s')) :
    ∃ hd, Advanced s s' hd ∧ Header k size s'.byteval hd ∧ s'.kind = some k ∧ s'.size = size ∧
      s'.kinderr = none := by
  unfold kindOf at h
  rw [hk] at h
  dsimp only at h
  have hstep : ∀ {t : Stream} {hd}, Advanced t s' hd → t.input = s.input →
      t.stack = s.stack → Advanced s s' hd :=
    fun ha hi hs => ⟨hi ▸ ha.input, hs ▸ ha.stack⟩
  split at h
  · split at h
    · simp at h
    · obtain ⟨hd, ha, hh⟩ := readAhead_ok h
      exact ⟨hd, hstep ha rfl rfl, hh⟩
  · obtain ⟨hd, ha, hh⟩ := readAhead_ok h
    exact ⟨hd, hstep ha rfl rfl, hh⟩

/-- A successful `Kind` leaves the kind cached: asking again returns the same. -/
theorem kindOf_idem {s s' : Stream} {r : Kind × ℕ} (h : s.kindOf = (.ok r, s')) :
    s'.kindOf = (.ok r, s') := by
  obtain ⟨k, size⟩ := r
  cases hk : s.kind with
  | some k' =>
    have h' := h
    simp only [kindOf, hk] at h'
    obtain ⟨rfl, rfl, rfl, he⟩ := cached_ok h'
    simp [kindOf, hk, cached, he]
  | none =>
    obtain ⟨-, -, -, hk', hs, he⟩ := kindOf_none_ok hk h
    simp [kindOf, hk', cached, he, hs]

theorem kindOf_none_eol {s s' : Stream} (hk : s.kind = none)
    (h : s.kindOf = (.error .eol, s')) :
    s'.input = s.input ∧ s'.stack = s.stack ∧ s'.kind = none ∧
      ∃ tos rest, s.stack = tos :: rest ∧ tos.pos = tos.size := by
  unfold kindOf at h
  rw [hk] at h
  dsimp only at h
  split at h
  · rename_i tos rest hst
    split at h
    · rename_i hp
      simp only [Prod.mk.injEq] at h
      obtain ⟨-, rfl⟩ := h
      exact ⟨rfl, rfl, rfl, tos, rest, hst, hp⟩
    · exact absurd rfl (readAhead_error h)
  · exact absurd rfl (readAhead_error h)

/-- A successful `Bytes` from a rearmed stream consumes exactly the string's encoding. -/
theorem bytes_of_kindOf {s s₁ s' : Stream} {k : Kind} {size : ℕ} {c : List UInt8}
    (hk : s.kind = none) (h₁ : s.kindOf = (.ok (k, size), s₁)) (h : s₁.bytes = (.ok c, s')) :
    Advanced s s' (encString c) ∧ s'.kind = none := by
  obtain ⟨hd, ha, hh, hk₁, hs₁, -⟩ := kindOf_none_ok hk h₁
  unfold bytes at h
  rw [kindOf_idem h₁] at h
  cases k with
  | byte =>
    obtain ⟨-, hbv, rfl⟩ := hh
    simp only [Prod.mk.injEq, Except.ok.injEq] at h
    obtain ⟨rfl, rfl⟩ := h
    have hle : s₁.byteval ≤ 0x7F := by
      simp only [UInt8.lt_iff_toNat_lt, UInt8.le_iff_toNat_le] at hbv ⊢
      simp at hbv ⊢
      omega
    simp only [encString, hle, if_true]
    exact ⟨⟨ha.input, ha.stack⟩, by simp⟩
  | string =>
    dsimp only at h
    rcases hr : s₁.readFull size with ⟨_ | b, s₂⟩ <;> rw [hr] at h
    · simp at h
    obtain ⟨hb, hl, hk₂, -⟩ := readFull_ok hr
    dsimp only [Header] at hh
    have hres : c = b ∧ s' = s₂ ∧ ∀ x, b = [x] → ¬ x < 128 := by
      rcases b with _ | ⟨x, _ | ⟨y, t⟩⟩
      · simp only [Prod.mk.injEq, Except.ok.injEq] at h
        exact ⟨h.1.symm, h.2.symm, by simp⟩
      · dsimp only at h
        split_ifs at h with hx
        · simp at h
        · simp only [Prod.mk.injEq, Except.ok.injEq] at h
          exact ⟨h.1.symm, h.2.symm, by simpa using hx⟩
      · simp only [Prod.mk.injEq, Except.ok.injEq] at h
        exact ⟨h.1.symm, h.2.symm, by simp⟩
    obtain ⟨rfl, rfl, hx⟩ := hres
    have hcat : hd ++ c = encString c := by
      unfold encString
      split
      · rename_i x
        have hx' : ¬ x ≤ 0x7F := by
          have := hx x rfl
          simp only [UInt8.lt_iff_toNat_lt, UInt8.le_iff_toNat_le] at this ⊢
          simp at this ⊢
          omega
        simp only [hx', if_false, hh, ← hl]
        rfl
      · rw [hh, hl]
    exact ⟨hcat ▸ ha.trans hb, hk₂⟩
  | list => simp at h

theorem bytes_ok {s s' : Stream} {c : List UInt8} (hk : s.kind = none)
    (h : s.bytes = (.ok c, s')) : Advanced s s' (encString c) ∧ s'.kind = none := by
  rcases h₁ : s.kindOf with ⟨_ | ⟨k, size⟩, s₁⟩
  · unfold bytes at h
    rw [h₁] at h
    simp at h
  · have he : s.bytes = s₁.bytes := by
      unfold bytes
      rw [h₁, kindOf_idem h₁]
    exact bytes_of_kindOf hk h₁ (he ▸ h)

theorem list_of_kindOf {s s₁ s' : Stream} {size size' : ℕ} (hk : s.kind = none)
    (h₁ : s.kindOf = (.ok (.list, size), s₁)) (h : s₁.list = (.ok size', s')) :
    size' = size ∧ s.input = puthead 0xC0 0xF7 size ++ s'.input ∧
      s'.stack = ⟨0, size⟩ :: bump s.stack (puthead 0xC0 0xF7 size).length ∧ s'.kind = none := by
  obtain ⟨hd, ha, hh, -⟩ := kindOf_none_ok hk h₁
  unfold list at h
  rw [kindOf_idem h₁] at h
  simp only [Prod.mk.injEq, Except.ok.injEq] at h
  obtain ⟨rfl, rfl⟩ := h
  dsimp only [Header] at hh
  subst hh
  exact ⟨rfl, ha.input, by simp [ha.stack], rfl⟩

theorem listEnd_ok {s s' : Stream} (h : s.listEnd = (.ok (), s')) :
    ∃ tos rest, s.stack = tos :: rest ∧ tos.pos = tos.size ∧ s'.stack = bump rest tos.size ∧
      s'.input = s.input ∧ s'.kind = none := by
  unfold listEnd at h
  split at h
  · simp at h
  · rename_i tos rest hst
    split at h
    · simp at h
    · rename_i hp
      simp only [Prod.mk.injEq] at h
      obtain ⟨-, rfl⟩ := h
      refine ⟨tos, rest, hst, not_not.mp hp, ?_, rfl, rfl⟩
      cases rest <;> simp [bump]

theorem listEnd_error {s s' : Stream} {e : Error} (h : s.listEnd = (.error e, s')) :
    e ≠ .eol := by
  unfold listEnd at h
  split at h
  · simp only [Prod.mk.injEq, Except.error.injEq] at h
    rw [← h.1]
    simp
  · split at h
    · simp only [Prod.mk.injEq, Except.error.injEq] at h
      rw [← h.1]
      simp
    · simp at h

/-- A successful `uint` read of at most 64 bits consumes exactly the integer's encoding. -/
theorem uint_ok {s s' : Stream} {maxbits v : ℕ} (hk : s.kind = none) (hm : maxbits ≤ 64)
    (h : s.uint maxbits = (.ok v, s')) : Advanced s s' (encUint v) ∧ s'.kind = none := by
  unfold uint at h
  rcases h₁ : s.kindOf with ⟨_ | ⟨k, size⟩, s₁⟩ <;> rw [h₁] at h
  · simp at h
  obtain ⟨hd, ha, hh, -⟩ := kindOf_none_ok hk h₁
  cases k with
  | byte =>
    obtain ⟨-, hbv, rfl⟩ := hh
    dsimp only at h
    split_ifs at h with h0
    · simp at h
    simp only [Prod.mk.injEq, Except.ok.injEq] at h
    obtain ⟨rfl, rfl⟩ := h
    have hpos := BigEndian.toNat_pos h0
    have hlt : s₁.byteval.toNat < 128 := by simpa [UInt8.lt_iff_toNat_lt] using hbv
    have henc : encUint s₁.byteval.toNat = [s₁.byteval] := by
      simp [encUint, hlt, show s₁.byteval.toNat ≠ 0 by omega]
    rw [henc]
    exact ⟨⟨ha.input, ha.stack⟩, rfl⟩
  | string =>
    dsimp only [Header] at hh
    dsimp only at h
    split_ifs at h with hov
    · simp at h
    rcases hr : s₁.readUint size with ⟨e | v', s₂⟩ <;> rw [hr] at h
    · cases e <;> simp at h
    dsimp only at h
    split_ifs at h with hc
    · simp at h
    simp only [Prod.mk.injEq, Except.ok.injEq] at h
    obtain ⟨rfl, rfl⟩ := h
    obtain ⟨c, hc', hl, hv, hnz, hk₂, -⟩ := readUint_ok hr
    have hcat : hd ++ c = encUint v' := by
      rw [hh, hv]
      rcases Nat.eq_zero_or_pos size with h0 | hpos
      · subst h0
        rw [List.length_eq_zero_iff.mp hl]
        rfl
      · have h128 : 128 ≤ BigEndian.ofBytes c := by rw [← hv]; omega
        have hnz' : BigEndian.NoLeadingZero c := by
          by_cases h2 : 2 ≤ size
          · exact hnz h2
          · obtain ⟨x, rfl⟩ := List.length_eq_one_iff.mp (show c.length = 1 by omega)
            rintro hx
            simp only [List.head?_cons, Option.some.injEq] at hx
            simp [hx, BigEndian.ofBytes] at h128
        rw [← hl, encUint_ofBytes hnz' h128 (by omega)]
    exact ⟨hcat ▸ ha.trans hc', hk₂⟩
  | list => simp at h

theorem bytes_error_of_kindOf {s s₁ s' : Stream} {r : Kind × ℕ} {e : Error}
    (h₁ : s.kindOf = (.ok r, s₁)) (h : s₁.bytes = (.error e, s')) : e ≠ .eol := by
  obtain ⟨k, size⟩ := r
  unfold bytes at h
  rw [kindOf_idem h₁] at h
  cases k with
  | byte => simp at h
  | string =>
    dsimp only at h
    rcases hr : s₁.readFull size with ⟨e' | b, s₂⟩ <;> rw [hr] at h
    · simp only [Prod.mk.injEq, Except.error.injEq] at h
      exact h.1 ▸ readFull_error hr
    · dsimp only at h
      split at h
      · split_ifs at h
        · simp only [Prod.mk.injEq, Except.error.injEq] at h
          rw [← h.1]
          simp
        · simp at h
      · simp at h
  | list =>
    simp only [Prod.mk.injEq, Except.error.injEq] at h
    rw [← h.1]
    simp

theorem list_ok_of_kindOf {s s₁ : Stream} {size : ℕ} (h₁ : s.kindOf = (.ok (.list, size), s₁)) :
    ∃ s₂, s₁.list = (.ok size, s₂) := by
  unfold list
  rw [kindOf_idem h₁]
  exact ⟨_, rfl⟩

/-- Reading a whole list: its header, a payload that fills it, and `ListEnd`. -/
theorem advanced_list {s s₂ s₃ s₄ : Stream} {size : ℕ} {p : List UInt8}
    (hin : s.input = puthead 0xC0 0xF7 size ++ s₂.input)
    (hst : s₂.stack = ⟨0, size⟩ :: bump s.stack (puthead 0xC0 0xF7 size).length)
    (ha : Advanced s₂ s₃ p) (he : s₃.listEnd = (.ok (), s₄)) :
    Advanced s s₄ (encList p) ∧ s₄.kind = none := by
  obtain ⟨tos, rest, h₃, hpos, h₄, hi₄, hk₄⟩ := listEnd_ok he
  rw [ha.stack, hst] at h₃
  obtain ⟨rfl, rfl⟩ := List.cons.inj (show (⟨0 + p.length, size⟩ : Listpos) ::
    bump s.stack (puthead 0xC0 0xF7 size).length = tos :: rest from h₃)
  have hp : p.length = size := by simpa using hpos
  subst hp
  refine ⟨⟨?_, ?_⟩, hk₄⟩
  · rw [hin, ha.input, hi₄, encList, List.append_assoc]
  · rw [h₄, encList, bump_bump, List.length_append]

end Stream

end Sphinx.Rlp
