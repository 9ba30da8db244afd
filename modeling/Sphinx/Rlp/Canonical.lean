import Sphinx.Rlp.Decode

/-! # Only canonical encodings decode

A decoder is sound for a type when every value it returns was read from exactly that
value's encoding: the bytes consumed are `encVal`, the positions of the enclosing lists
advance by their length, and the kind is rearmed. The element loops end on the end of a
list, so a sound element decoder must also report `EOL` only where `Kind` does. Both hold
for the decoders of `interface{}` at every fuel, by induction on the fuel, and for those
of `uint64` and `*big.Int`; `DecodeBytes` then accepts only the encoding of what it
returns.
-/

namespace Sphinx.Rlp

open BigEndian Sphinx.Rlp.Stream

/-- What `dec` returns from a rearmed stream is read from exactly its encoding. -/
def Sound (t : Ty) (dec : Decoder) : Prop :=
  ∀ {s s' : Stream} {v : Val}, s.kind = none → dec s = (.ok v, s') →
    Advanced s s' (encVal t v) ∧ s'.kind = none

/-- `dec` reports the end of a list only at the end of the innermost one, reading nothing. -/
def EolAtEnd (dec : Decoder) : Prop :=
  ∀ {s s' : Stream}, s.kind = none → dec s = (.error .eol, s') →
    s'.input = s.input ∧ s'.stack = s.stack ∧ s'.kind = none ∧
      ∃ tos rest, s.stack = tos :: rest ∧ tos.pos = tos.size

section Elements

variable {t : Ty} {dec : Decoder}

theorem decodeSliceElems_error {n : ℕ} {s s' : Stream} {e : Error}
    (h : decodeSliceElems dec n s = (.error e, s')) : e ≠ .eol := by
  induction n generalizing s s' e with
  | zero =>
    simp only [decodeSliceElems, Prod.mk.injEq, Except.error.injEq] at h
    rw [← h.1]
    simp
  | succ n ih =>
    unfold decodeSliceElems at h
    split at h
    · simp at h
    · rename_i e' _ hne _
      simp only [Prod.mk.injEq, Except.error.injEq] at h
      rw [← h.1]
      exact hne
    · split at h
      · rename_i hr
        simp only [Prod.mk.injEq, Except.error.injEq] at h
        exact h.1 ▸ ih hr
      · simp at h

theorem decodeSliceElems_sound (hs : Sound t dec) (he : EolAtEnd dec) {n : ℕ} {s s' : Stream}
    {vs : List Val} (hk : s.kind = none) (h : decodeSliceElems dec n s = (.ok vs, s')) :
    Advanced s s' (encVals t vs) ∧ s'.kind = none ∧
      ∃ tos rest, s'.stack = tos :: rest ∧ tos.pos = tos.size := by
  induction n generalizing s vs with
  | zero => simp [decodeSliceElems] at h
  | succ n ih =>
    unfold decodeSliceElems at h
    split at h
    · rename_i s₁ hd
      simp only [Prod.mk.injEq, Except.ok.injEq] at h
      obtain ⟨rfl, rfl⟩ := h
      obtain ⟨hi, hst, hk₁, tos, rest, htos, hpos⟩ := he hk hd
      exact ⟨Advanced.of_eq hi hst, hk₁, tos, rest, hst ▸ htos, hpos⟩
    · simp at h
    · rename_i v s₁ hd
      obtain ⟨ha₁, hk₁⟩ := hs hk hd
      split at h
      · simp at h
      · rename_i vs' s₂ hr
        simp only [Prod.mk.injEq, Except.ok.injEq] at h
        obtain ⟨rfl, rfl⟩ := h
        obtain ⟨ha₂, hk₂, hend⟩ := ih hk₁ hr
        exact ⟨ha₁.trans ha₂, hk₂, hend⟩

theorem decodeListSlice_sound (hs : Sound t dec) (he : EolAtEnd dec) {n size : ℕ}
    {s s₁ s' : Stream} {v : Val} (hk : s.kind = none) (h₁ : s.kindOf = (.ok (.list, size), s₁))
    (h : decodeListSlice n dec s₁ = (.ok v, s')) :
    ∃ vs, v = .list vs ∧ Advanced s s' (encList (encVals t vs)) ∧ s'.kind = none := by
  obtain ⟨s₂, hl⟩ := list_ok_of_kindOf h₁
  obtain ⟨-, hin, hst, hk₂⟩ := list_of_kindOf hk h₁ hl
  unfold decodeListSlice at h
  rw [hl] at h
  split at h
  · simp at h
  · rename_i s₂' heq
    simp only [Prod.mk.injEq, Except.ok.injEq] at heq
    obtain ⟨-, rfl⟩ := heq
    split at h
    · simp at h
    · rename_i s₃ hend
      simp only [Prod.mk.injEq, Except.ok.injEq] at h
      obtain ⟨rfl, rfl⟩ := h
      exact ⟨[], rfl, advanced_list hin hst (Advanced.of_eq rfl rfl) hend⟩
  · rename_i s₂' _ heq
    simp only [Prod.mk.injEq, Except.ok.injEq] at heq
    obtain ⟨-, rfl⟩ := heq
    split at h
    · simp at h
    · rename_i vs s₃ hr
      obtain ⟨ha, hk₃, -⟩ := decodeSliceElems_sound hs he hk₂ hr
      split at h
      · simp at h
      · rename_i s₄ hend
        simp only [Prod.mk.injEq, Except.ok.injEq] at h
        obtain ⟨rfl, rfl⟩ := h
        exact ⟨vs, rfl, advanced_list hin hst ha hend⟩

theorem decodeListSlice_error {n size : ℕ} {s s₁ s' : Stream} {e : Error}
    (h₁ : s.kindOf = (.ok (.list, size), s₁)) (h : decodeListSlice n dec s₁ = (.error e, s')) :
    e ≠ .eol := by
  obtain ⟨s₂, hl⟩ := list_ok_of_kindOf h₁
  unfold decodeListSlice at h
  rw [hl] at h
  split at h
  · rename_i heq
    simp at heq
  · rename_i s₂' heq
    simp only [Prod.mk.injEq, Except.ok.injEq] at heq
    obtain ⟨-, rfl⟩ := heq
    split at h
    · rename_i hend
      simp only [Prod.mk.injEq, Except.error.injEq] at h
      exact h.1 ▸ listEnd_error hend
    · simp at h
  · split at h
    · rename_i hr
      simp only [Prod.mk.injEq, Except.error.injEq] at h
      exact h.1 ▸ decodeSliceElems_error hr
    · split at h
      · rename_i hend
        simp only [Prod.mk.injEq, Except.error.injEq] at h
        exact h.1 ▸ listEnd_error hend
      · simp at h

end Elements

/-! ## `interface{}` -/

section Interface

variable {dec : Decoder}

theorem decodeInterface_sound (hs : Sound .iface dec) (he : EolAtEnd dec) (n : ℕ) :
    Sound .iface (decodeInterface n dec) := by
  intro s s' v hk h
  unfold decodeInterface at h
  rcases h₁ : s.kindOf with ⟨e | ⟨k, size⟩, s₁⟩ <;> rw [h₁] at h
  · simp at h
  cases k with
  | list =>
    obtain ⟨vs, rfl, ha, hk'⟩ := decodeListSlice_sound hs he hk h₁ h
    exact ⟨ha, hk'⟩
  | byte | string =>
    dsimp only at h
    split at h
    · simp at h
    · rename_i c s₂ hb
      simp only [Prod.mk.injEq, Except.ok.injEq] at h
      obtain ⟨rfl, rfl⟩ := h
      exact bytes_of_kindOf hk h₁ hb

theorem decodeInterface_eolAtEnd (n : ℕ) : EolAtEnd (decodeInterface n dec) := by
  intro s s' hk h
  unfold decodeInterface at h
  rcases h₁ : s.kindOf with ⟨e | ⟨k, size⟩, s₁⟩ <;> rw [h₁] at h
  · simp only [Prod.mk.injEq, Except.error.injEq] at h
    obtain ⟨rfl, rfl⟩ := h
    exact kindOf_none_eol hk h₁
  cases k with
  | list => exact absurd rfl (decodeListSlice_error h₁ h)
  | byte | string =>
    dsimp only at h
    split at h
    · rename_i e s₂ hb
      simp only [Prod.mk.injEq, Except.error.injEq] at h
      exact absurd h.1 (bytes_error_of_kindOf h₁ hb)
    · simp at h

theorem decode_iface_sound (n : ℕ) :
    Sound .iface (decode n .iface) ∧ EolAtEnd (decode n .iface) := by
  induction n with
  | zero => exact ⟨fun _ h => by simp [decode] at h, fun _ h => by simp [decode] at h⟩
  | succ n ih =>
    have hd : decode (n + 1) .iface = decodeInterface n (decode n .iface) := rfl
    rw [hd]
    exact ⟨decodeInterface_sound ih.1 ih.2 n, decodeInterface_eolAtEnd n⟩

end Interface

/-! ## Integers -/

theorem decode_uint64_sound (n : ℕ) : Sound (.uint 64) (decode n (.uint 64)) := by
  intro s s' v hk h
  cases n with
  | zero => simp [decode] at h
  | succ n =>
    simp only [decode, decodeUint] at h
    split at h
    · simp at h
    · rename_i m s₁ hu
      simp only [Prod.mk.injEq, Except.ok.injEq] at h
      obtain ⟨rfl, rfl⟩ := h
      exact uint_ok hk (le_refl 64) hu

theorem encVal_bigInt_ofBytes {c : List UInt8} (hc : NoLeadingZero c) :
    encVal .bigInt (.big (ofBytes c)) = encString c := by
  by_cases h0 : ofBytes c = 0
  · rw [(ofBytes_eq_zero_iff hc).mp h0]
    rfl
  · simp only [encVal, h0, if_false, toBytes_ofBytes hc]

theorem decode_bigInt_sound (n : ℕ) : Sound .bigInt (decode n .bigInt) := by
  intro s s' v hk h
  cases n with
  | zero => simp [decode] at h
  | succ n =>
    simp only [decode, decodeBigInt] at h
    split at h
    · simp at h
    · rename_i c s₁ hb
      split_ifs at h with hz
      · simp at h
      simp only [Prod.mk.injEq, Except.ok.injEq] at h
      obtain ⟨rfl, rfl⟩ := h
      rw [encVal_bigInt_ofBytes hz]
      exact bytes_ok hk hb

/-! ## `DecodeBytes` -/

theorem decodeBytes_eq_encode {t : Ty} {fuel : ℕ} {b : List UInt8} {v : Val}
    (hs : Sound t (decode fuel t)) (h : decodeBytes fuel t b = .ok v) :
    encodeToBytes t v = b := by
  unfold decodeBytes at h
  split at h
  · simp at h
  · rename_i v' s hd
    split_ifs at h with hin
    cases h
    obtain ⟨ha, -⟩ := hs rfl hd
    rw [encodeToBytes_eq]
    simpa [hin, Stream.new] using ha.input.symm

/-- `DecodeBytes` into `interface{}`, `uint64` or `*big.Int` accepts only the encoding of
the value it returns. -/
theorem decodeBytes_canonical (fuel : ℕ) (b : List UInt8) (v : Val) :
    (decodeBytes fuel .iface b = .ok v → encodeToBytes .iface v = b) ∧
      (decodeBytes fuel (.uint 64) b = .ok v → encodeToBytes (.uint 64) v = b) ∧
      (decodeBytes fuel .bigInt b = .ok v → encodeToBytes .bigInt v = b) :=
  ⟨decodeBytes_eq_encode (decode_iface_sound fuel).1,
    decodeBytes_eq_encode (decode_uint64_sound fuel),
    decodeBytes_eq_encode (decode_bigInt_sound fuel)⟩

theorem decodeBytes_canonical_nested :
    decodeBytes 4 .iface [0xC3, 0x80, 0xC1, 0x05] = .ok (.list [.bytes [], .list [.bytes [5]]]) ∧
      encodeToBytes .iface (.list [.bytes [], .list [.bytes [5]]]) = [0xC3, 0x80, 0xC1, 0x05] :=
  ⟨rfl, (decodeBytes_canonical 4 _ _).1 rfl⟩

end Sphinx.Rlp
