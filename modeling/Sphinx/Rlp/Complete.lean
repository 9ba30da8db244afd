import Sphinx.Rlp.Decode
import Sphinx.Rlp.Raw

/-! # Encodings decode to their values

The other half of `Canonical`: the decoders read back what the encoder writes. A stream
over a byte slice keeps its input limit equal to the input left (`Tight`). From such a
stream, rearmed and with room in the innermost list, each read below consumes exactly
the encoding in front and returns its value. The struct decoder composes the reads of
its fields, and a `tail` field at the end of the list reads nothing.
-/

namespace Sphinx.Rlp

open BigEndian

namespace Stream

/-- The input limit of a stream over a byte slice is the input left. -/
def Tight (s : Stream) : Prop :=
  s.limited = true ∧ s.remaining = s.input.length

/-- The innermost list, if any, has room for `n` more bytes. -/
def Room (s : Stream) (n : ℕ) : Prop :=
  ∀ tos ∈ s.stack.head?, n ≤ tos.size - tos.pos

/-- What `willRead n` leaves when the read is allowed. -/
def skip (s : Stream) (n : ℕ) : Stream :=
  { s with kind := none, stack := bump s.stack n, remaining := s.remaining - n }

/-- The stream after the `n` bytes in front are read. -/
def consume (s : Stream) (n : ℕ) : Stream :=
  { s.skip n with input := s.input.drop n }

@[simp] theorem consume_input (s : Stream) (n : ℕ) : (s.consume n).input = s.input.drop n := rfl
@[simp] theorem consume_stack (s : Stream) (n : ℕ) : (s.consume n).stack = bump s.stack n := rfl
@[simp] theorem consume_kind (s : Stream) (n : ℕ) : (s.consume n).kind = none := rfl
@[simp] theorem consume_byteval (s : Stream) (n : ℕ) : (s.consume n).byteval = s.byteval := rfl
@[simp] theorem consume_limited (s : Stream) (n : ℕ) : (s.consume n).limited = s.limited := rfl
@[simp] theorem consume_remaining (s : Stream) (n : ℕ) :
    (s.consume n).remaining = s.remaining - n := rfl

theorem tight_new (b : List UInt8) : (Stream.new b).Tight := ⟨rfl, rfl⟩

theorem Tight.consume {s : Stream} (ht : s.Tight) (n : ℕ) : (s.consume n).Tight := by
  obtain ⟨hl, hr⟩ := ht
  exact ⟨by simp [hl], by simp [hr]⟩

theorem Room.of_stack {s t : Stream} {m n : ℕ} (hr : s.Room (m + n))
    (h : t.stack = bump s.stack m) : t.Room n := by
  intro tos htos
  cases hs : s.stack with
  | nil => simp [h, hs, bump] at htos
  | cons u rest =>
    have hu := hr u (by simp [hs])
    simp only [h, hs, bump, List.head?_cons, Option.mem_def, Option.some.injEq] at htos
    subst htos
    simp only
    omega

theorem Room.consume {s : Stream} {m n : ℕ} (hr : s.Room (m + n)) : (s.consume m).Room n :=
  hr.of_stack (consume_stack s m)

theorem Room.mono {s : Stream} {m n : ℕ} (hr : s.Room n) (h : m ≤ n) : s.Room m :=
  fun tos htos => le_trans h (hr tos htos)

/-! ## Reading bytes -/

theorem willRead_tight {s : Stream} {n : ℕ} (ht : s.Tight) (hn : n ≤ s.input.length)
    (hr : s.Room n) : s.willRead n = (.ok (), s.skip n) := by
  obtain ⟨hl, hrem⟩ := ht
  unfold willRead checkLimit skip
  cases hs : s.stack with
  | nil => simp [hl, hrem, hn, bump]
  | cons tos rest =>
    have hroom := hr tos (by simp [hs])
    simp [hl, hrem, bump, show ¬ tos.size - tos.pos < n by omega, show ¬ s.input.length < n by omega]

theorem readByte_tight {s : Stream} {b : UInt8} {rest : List UInt8} (ht : s.Tight)
    (hin : s.input = b :: rest) (hr : s.Room 1) : s.readByte = (.ok b, s.consume 1) := by
  have hw := willRead_tight ht (by simp [hin]) hr
  simp [readByte, hw, skip, consume, hin]

theorem readFull_tight {s : Stream} {n : ℕ} (ht : s.Tight) (hn : n ≤ s.input.length)
    (hr : s.Room n) : s.readFull n = (.ok (s.input.take n), s.consume n) := by
  have hw := willRead_tight ht hn hr
  simp [readFull, hw, skip, consume, hn]

theorem readUint_toBytes {s : Stream} {v : ℕ} {rest : List UInt8} (hv : v ≠ 0) (ht : s.Tight)
    (hin : s.input = toBytes v ++ rest) (hr : s.Room (toBytes v).length) :
    s.readUint (toBytes v).length = (.ok v, s.consume (toBytes v).length) := by
  have hnz := toBytes_noLeadingZero v
  have hval := ofBytes_toBytes v
  have hne := toBytes_ne_nil hv
  generalize toBytes v = c at hnz hval hne hin hr ⊢
  have hlen : c.length ≤ s.input.length := by simp [hin]
  have htake : s.input.take c.length = c := by simp [hin]
  match c, hne with
  | [b], _ =>
    have hb : b.toNat = v := by simpa [ofBytes] using hval
    simp [readUint, readByte_tight ht hin hr, hb]
  | b :: b' :: t, _ =>
    have hfull := readFull_tight ht hlen hr
    rw [htake] at hfull
    simp only [List.length_cons] at hfull ⊢
    have hb0 : b ≠ 0 := by simpa [NoLeadingZero] using hnz
    simp [readUint, hfull, hb0, hval]

theorem toNat_tag {tag : UInt8} {k : ℕ} (h : tag.toNat + k < 256) :
    (tag + k.toUInt8).toNat = tag.toNat + k := by
  simp only [UInt8.toNat_add, Nat.toUInt8_eq, UInt8.toNat_ofNat']
  omega

theorem putint_of_long {size : ℕ} (hs : 56 ≤ size) :
    putint size = toBytes size ∧ intsize size = (toBytes size).length := by
  have hne : size ≠ 0 := by omega
  have hlen : (toBytes size).length ≠ 0 := by simpa using toBytes_ne_nil hne
  exact ⟨by simp [putint, hne], by simp only [intsize]; omega⟩

theorem readUint_putint {s : Stream} {size : ℕ} {rest : List UInt8} (hs : 56 ≤ size)
    (ht : s.Tight) (hin : s.input = putint size ++ rest) (hr : s.Room (intsize size)) :
    s.readUint (intsize size) = (.ok size, s.consume (intsize size)) := by
  obtain ⟨hput, hlen⟩ := putint_of_long hs
  rw [hput] at hin
  rw [hlen] at hr ⊢
  exact readUint_toBytes (by omega) ht hin hr

theorem tight_tag {s : Stream} (ht : s.Tight) :
    ({ s.consume 1 with byteval := 0 } : Stream).Tight := ht.consume 1

theorem readKind_header {s : Stream} {k : Kind} {size : ℕ} {bv : UInt8} {hd rest : List UInt8}
    (hh : Header k size bv hd) (h64 : size < 2 ^ 64) (ht : s.Tight) (hin : s.input = hd ++ rest)
    (hr : s.Room hd.length) :
    ∃ s', s.readKind = ((k, size, none), s') ∧ s'.input = rest ∧
      s'.stack = bump s.stack hd.length ∧ s'.Tight ∧ (k = .byte → s'.byteval = bv) := by
  have hlt : ∀ b c : UInt8, (b < c ↔ b.toNat < c.toNat) := fun _ _ => UInt8.lt_iff_toNat_lt
  have hi := Raw.intsize_le_eight h64
  cases k with
  | byte =>
    obtain ⟨rfl, hbv, rfl⟩ := hh
    refine ⟨{ s.consume 1 with byteval := bv }, ?_, by simp [hin], rfl, ht.consume 1,
      fun _ => rfl⟩
    simp [readKind, readByte_tight ht hin hr, hbv]
  | string =>
    dsimp only [Header] at hh
    subst hh
    by_cases hs : size < 56
    · have hb : (0x80 + size.toUInt8 : UInt8).toNat = 0x80 + size := toNat_tag (by simp; omega)
      have hin' : s.input = (0x80 + size.toUInt8) :: rest := by simpa [puthead, hs] using hin
      have hr' : s.Room 1 := by simpa [puthead, hs] using hr
      refine ⟨{ s.consume 1 with byteval := 0 }, ?_, by simp [hin'], by simp [puthead, hs],
        tight_tag ht, by simp⟩
      have h1 : 0x80 + size < 184 := by omega
      simp [readKind, readByte_tight ht hin' hr', hlt, hb, h1]
    · have hb := @Raw.toNat_longTag 0xB7 size (by simp) h64
      have hin' : s.input = (0xB7 + (intsize size).toUInt8) :: (putint size ++ rest) := by
        simpa [puthead, hs] using hin
      have hr' : s.Room (1 + intsize size) := by
        simpa [puthead, hs, length_putint, Nat.add_comm] using hr
      have hread := readByte_tight ht hin' (hr'.mono (by omega))
      have hin₁ : (s.consume 1).input = putint size ++ rest := by simp [hin']
      have hst₁ := consume_stack s 1
      have ht₁ := ht.consume 1
      have hr₁ : (s.consume 1).Room (intsize size) := Room.consume hr'
      generalize s.consume 1 = s₁ at hread hin₁ hst₁ ht₁ hr₁
      have hu := readUint_putint (s := { s₁ with byteval := 0 }) (by omega) ht₁ hin₁ hr₁
      refine ⟨({ s₁ with byteval := 0 } : Stream).consume (intsize size), ?_, ?_, ?_,
        Tight.consume ht₁ _, by simp⟩
      · have h1 : ¬ (0xB7 + (intsize size).toUInt8 : UInt8) < 0x80 := by rw [hlt, hb]; simp; omega
        have h2 : ¬ (0xB7 + (intsize size).toUInt8 : UInt8) < 0xB8 := by rw [hlt, hb]; simp; omega
        have h3 : (0xB7 + (intsize size).toUInt8 : UInt8) < 0xC0 := by rw [hlt, hb]; simp; omega
        have hsz : (0xB7 + (intsize size).toUInt8 : UInt8).toNat - 0xB7 = intsize size := by
          rw [hb]; simp
        unfold readKind
        rw [hread]
        dsimp only
        rw [if_neg h1, if_neg h2, if_pos h3, hsz, hu]
        simp [hs]
      · simp [hin₁, length_putint]
      · simp [hst₁, puthead, hs, bump_bump, length_putint, Nat.add_comm]
  | list =>
    dsimp only [Header] at hh
    subst hh
    by_cases hs : size < 56
    · have hb : (0xC0 + size.toUInt8 : UInt8).toNat = 0xC0 + size := toNat_tag (by simp; omega)
      have hin' : s.input = (0xC0 + size.toUInt8) :: rest := by simpa [puthead, hs] using hin
      have hr' : s.Room 1 := by simpa [puthead, hs] using hr
      refine ⟨{ s.consume 1 with byteval := 0 }, ?_, by simp [hin'], by simp [puthead, hs],
        tight_tag ht, by simp⟩
      have h0 : ¬ 0xC0 + size < 128 := by omega
      have h1 : ¬ 0xC0 + size < 184 := by omega
      have h2 : ¬ 0xC0 + size < 192 := by omega
      have h3 : 0xC0 + size < 248 := by omega
      simp [readKind, readByte_tight ht hin' hr', hlt, hb, h0, h1, h2, h3]
    · have hb := @Raw.toNat_longTag 0xF7 size (by simp) h64
      have hin' : s.input = (0xF7 + (intsize size).toUInt8) :: (putint size ++ rest) := by
        simpa [puthead, hs] using hin
      have hr' : s.Room (1 + intsize size) := by
        simpa [puthead, hs, length_putint, Nat.add_comm] using hr
      have hread := readByte_tight ht hin' (hr'.mono (by omega))
      have hin₁ : (s.consume 1).input = putint size ++ rest := by simp [hin']
      have hst₁ := consume_stack s 1
      have ht₁ := ht.consume 1
      have hr₁ : (s.consume 1).Room (intsize size) := Room.consume hr'
      generalize s.consume 1 = s₁ at hread hin₁ hst₁ ht₁ hr₁
      have hu := readUint_putint (s := { s₁ with byteval := 0 }) (by omega) ht₁ hin₁ hr₁
      refine ⟨({ s₁ with byteval := 0 } : Stream).consume (intsize size), ?_, ?_, ?_,
        Tight.consume ht₁ _, by simp⟩
      · have h1 : ¬ (0xF7 + (intsize size).toUInt8 : UInt8) < 0x80 := by rw [hlt, hb]; simp; omega
        have h2 : ¬ (0xF7 + (intsize size).toUInt8 : UInt8) < 0xB8 := by rw [hlt, hb]; simp; omega
        have h3 : ¬ (0xF7 + (intsize size).toUInt8 : UInt8) < 0xC0 := by rw [hlt, hb]; simp; omega
        have h4 : ¬ (0xF7 + (intsize size).toUInt8 : UInt8) < 0xF8 := by rw [hlt, hb]; simp; omega
        have hsz : (0xF7 + (intsize size).toUInt8 : UInt8).toNat - 0xF7 = intsize size := by
          rw [hb]; simp
        unfold readKind
        rw [hread]
        dsimp only
        rw [if_neg h1, if_neg h2, if_neg h3, if_neg h4, hsz, hu]
        simp [hs]
      · simp [hin₁, length_putint]
      · simp [hst₁, puthead, hs, bump_bump, length_putint, Nat.add_comm]

theorem header_ne_nil {k : Kind} {size : ℕ} {bv : UInt8} {hd : List UInt8}
    (hh : Header k size bv hd) : hd ≠ [] := by
  cases k with
  | byte => obtain ⟨-, -, rfl⟩ := hh; simp
  | string => dsimp only [Header] at hh; subst hh; unfold puthead; split <;> simp
  | list => dsimp only [Header] at hh; subst hh; unfold puthead; split <;> simp

theorem sizeCheck_fits {s : Stream} {size : ℕ} (ht : s.Tight) (hsz : size ≤ s.input.length)
    (hr : s.Room size) : s.sizeCheck size = none := by
  obtain ⟨hl, hrem⟩ := ht
  unfold sizeCheck
  cases hs : s.stack with
  | nil => simp [hl, hrem, hsz]
  | cons tos rest =>
    have := hr tos (by simp [hs])
    simp only
    rw [if_neg (by omega)]

theorem kindOf_rearmed {s : Stream} (hk : s.kind = none)
    (hne : ∀ tos ∈ s.stack.head?, tos.pos ≠ tos.size) :
    s.kindOf = ({ s with kinderr := none } : Stream).readAhead := by
  unfold kindOf
  rw [hk]
  cases hs : s.stack with
  | nil => rfl
  | cons tos r =>
    have := hne tos (by simp [hs])
    simp [this]

theorem kindOf_header {s : Stream} {k : Kind} {size : ℕ} {bv : UInt8} {hd rest : List UInt8}
    (hk : s.kind = none) (hh : Header k size bv hd) (h64 : size < 2 ^ 64) (ht : s.Tight)
    (hin : s.input = hd ++ rest) (hsz : size ≤ rest.length) (hr : s.Room (hd.length + size)) :
    ∃ s₁, s.kindOf = (.ok (k, size), s₁) ∧ s₁.input = rest ∧
      s₁.stack = bump s.stack hd.length ∧ s₁.Tight ∧ s₁.kind = some k ∧ s₁.kinderr = none ∧
      s₁.size = size ∧ (k = .byte → s₁.byteval = bv) := by
  obtain ⟨s₂, hkind, hin₂, hst₂, ht₂, hbv⟩ :=
    readKind_header (s := { s with kinderr := none }) hh h64 ht hin (hr.mono (by omega))
  have hchk : s₂.sizeCheck size = none :=
    sizeCheck_fits ht₂ (by rw [hin₂]; exact hsz) (hr.of_stack hst₂)
  refine ⟨{ s₂ with kind := some k, size := size, kinderr := none }, ?_, hin₂, hst₂, ht₂, rfl,
    rfl, rfl, hbv⟩
  have hahead : ({ s with kinderr := none } : Stream).readAhead =
      (.ok (k, size), { s₂ with kind := some k, size := size, kinderr := none }) := by
    simp [readAhead, hkind, hchk, cached]
  have hlen : 0 < hd.length := List.length_pos_iff.mpr (header_ne_nil hh)
  rw [kindOf_rearmed hk (fun tos htos => by have := hr tos htos; omega)]
  exact hahead

theorem kindOf_string {s : Stream} {b rest : List UInt8} (hk : s.kind = none)
    (h64 : b.length < 2 ^ 64) (ht : s.Tight) (hin : s.input = puthead 0x80 0xB7 b.length ++ b ++ rest)
    (hr : s.Room (puthead 0x80 0xB7 b.length ++ b).length) :
    ∃ s₁, s.kindOf = (.ok (.string, b.length), s₁) ∧
      s₁.readFull b.length = (.ok b, s₁.consume b.length) ∧ (s₁.consume b.length).input = rest ∧
      (s₁.consume b.length).stack = bump s.stack (puthead 0x80 0xB7 b.length ++ b).length ∧
      (s₁.consume b.length).Tight := by
  rw [List.append_assoc] at hin
  obtain ⟨s₁, hkind, hin₁, hst₁, ht₁, -, -, -, -⟩ :=
    @kindOf_header s .string b.length 0 _ (b ++ rest) hk rfl h64 ht hin (by simp)
      (by simpa using hr)
  have hr₁ : s₁.Room b.length := (show s.Room ((puthead 0x80 0xB7 b.length).length +
    b.length) by simpa using hr).of_stack hst₁
  have hfull := readFull_tight ht₁ (by simp [hin₁]) hr₁
  have htk : (b ++ rest).take b.length = b := by simp
  rw [hin₁, htk] at hfull
  exact ⟨s₁, hkind, hfull, by simp [hin₁], by simp [hst₁, bump_bump], ht₁.consume _⟩

theorem bytes_encString {s : Stream} {b rest : List UInt8} (hk : s.kind = none)
    (h64 : b.length < 2 ^ 64) (ht : s.Tight) (hin : s.input = encString b ++ rest)
    (hr : s.Room (encString b).length) :
    ∃ s', s.bytes = (.ok b, s') ∧ s'.input = rest ∧
      s'.stack = bump s.stack (encString b).length ∧ s'.kind = none ∧ s'.Tight := by
  by_cases hsingle : ∃ c, b = [c] ∧ c ≤ 0x7F
  · obtain ⟨c, rfl, hc⟩ := hsingle
    have henc : encString [c] = [c] := by simp [encString, hc]
    have hc' : c < 0x80 := by
      simp only [UInt8.lt_iff_toNat_lt, UInt8.le_iff_toNat_le] at hc ⊢
      simp at hc ⊢
      omega
    rw [henc] at hin hr ⊢
    obtain ⟨s₁, hkind, hin₁, hst₁, ht₁, -, -, -, hbv⟩ :=
      @kindOf_header s .byte 0 c [c] rest hk ⟨rfl, hc', rfl⟩ (by simp) ht hin (by simp) hr
    refine ⟨{ s₁ with kind := none }, ?_, hin₁, hst₁, rfl, ht₁⟩
    simp [bytes, hkind, hbv rfl]
  · have henc : encString b = puthead 0x80 0xB7 b.length ++ b := by
      unfold encString
      split
      · rename_i c
        have hc : ¬ c ≤ 0x7F := fun hc => hsingle ⟨c, rfl, hc⟩
        simp [hc]
      · rfl
    rw [henc] at hin hr ⊢
    obtain ⟨s₁, hkind, hfull, hin', hst', ht'⟩ := kindOf_string hk h64 ht hin hr
    refine ⟨s₁.consume b.length, ?_, hin', hst', rfl, ht'⟩
    have hok : ∀ c, b = [c] → ¬ c < 128 := by
      rintro c rfl hc
      exact hsingle ⟨c, rfl, by
        simp only [UInt8.lt_iff_toNat_lt, UInt8.le_iff_toNat_le] at hc ⊢
        simp at hc ⊢
        omega⟩
    simp only [bytes, hkind]
    rw [hfull]
    dsimp only
    rcases b with _ | ⟨c, _ | ⟨d, l⟩⟩
    · rfl
    · simp [hok c rfl]
    · rfl

theorem decodeByteArray_encString {s : Stream} {b rest : List UInt8} (hk : s.kind = none)
    (h2 : 2 ≤ b.length) (h64 : b.length < 2 ^ 64) (ht : s.Tight)
    (hin : s.input = encString b ++ rest) (hr : s.Room (encString b).length) :
    ∃ s', decodeByteArray b.length s = (.ok (.bytes b), s') ∧ s'.input = rest ∧
      s'.stack = bump s.stack (encString b).length ∧ s'.kind = none ∧ s'.Tight := by
  rw [Raw.encString_of_length_ne_one (by omega)] at hin hr ⊢
  obtain ⟨s₁, hkind, hfull, hin', hst', ht'⟩ := kindOf_string hk h64 ht hin hr
  refine ⟨s₁.consume b.length, ?_, hin', hst', rfl, ht'⟩
  simp [decodeByteArray, hkind, hfull, show b.length ≠ 1 by omega]

/-- `Uint` reads an integer's encoding. -/
theorem uint_encUint {s : Stream} {v : ℕ} {rest : List UInt8} (hk : s.kind = none)
    (hv : v < 2 ^ 64) (ht : s.Tight) (hin : s.input = encUint v ++ rest)
    (hr : s.Room (encUint v).length) :
    ∃ s', s.uint 64 = (.ok v, s') ∧ s'.input = rest ∧
      s'.stack = bump s.stack (encUint v).length ∧ s'.kind = none ∧ s'.Tight := by
  by_cases h0 : v = 0
  · subst h0
    have henc : encUint 0 = puthead 0x80 0xB7 0 := rfl
    rw [henc] at hin hr ⊢
    obtain ⟨s₁, hkind, hin₁, hst₁, ht₁, -, -, -, -⟩ :=
      @kindOf_header s .string 0 0 _ rest hk rfl (by norm_num) ht hin (by simp) (by simpa using hr)
    refine ⟨{ s₁ with kind := none }, ?_, hin₁, hst₁, rfl, ht₁⟩
    simp [uint, hkind, readUint]
  by_cases hsmall : v < 128
  · have henc : encUint v = [v.toUInt8] := by simp [encUint, h0, hsmall]
    have hval : v.toUInt8.toNat = v := by
      simp only [Nat.toUInt8_eq, UInt8.toNat_ofNat']
      omega
    have hbv : v.toUInt8 < 0x80 := by
      rw [UInt8.lt_iff_toNat_lt, hval]
      simpa using hsmall
    have hne : v.toUInt8 ≠ 0 := by
      intro h
      rw [h] at hval
      simp at hval
      omega
    rw [henc] at hin hr ⊢
    obtain ⟨s₁, hkind, hin₁, hst₁, ht₁, -, -, -, hbv'⟩ :=
      @kindOf_header s .byte 0 v.toUInt8 [v.toUInt8] rest hk ⟨rfl, hbv, rfl⟩ (by simp) ht hin
        (by simp) hr
    refine ⟨{ s₁ with kind := none }, ?_, hin₁, hst₁, rfl, ht₁⟩
    simp [uint, hkind, hbv' rfl, hne, hval]
  · have hi := Raw.intsize_le_eight hv
    have hput : putint v = toBytes v := by simp [putint, h0]
    have hlen : intsize v = (toBytes v).length := by
      have : (toBytes v).length ≠ 0 := by simpa using toBytes_ne_nil h0
      simp only [intsize]
      omega
    have henc : encUint v = puthead 0x80 0xB7 (intsize v) ++ toBytes v := by
      simp [encUint, h0, hsmall, puthead, show intsize v < 56 by omega, hput]
    rw [henc, List.append_assoc] at hin
    rw [henc] at hr ⊢
    obtain ⟨s₁, hkind, hin₁, hst₁, ht₁, -, -, -, -⟩ :=
      @kindOf_header s .string (intsize v) 0 _ (toBytes v ++ rest) hk rfl (by omega) ht hin
        (by simp [hlen]) (by simpa [hlen] using hr)
    have hr₁ : s₁.Room (toBytes v).length := (show s.Room ((puthead 0x80 0xB7 (intsize v)).length
      + (toBytes v).length) by simpa using hr).of_stack hst₁
    have hu := readUint_toBytes h0 ht₁ hin₁ hr₁
    rw [← hlen] at hu
    refine ⟨s₁.consume (intsize v), ?_, by simp [hin₁, hlen], by simp [hst₁, bump_bump, hlen],
      rfl, ht₁.consume _⟩
    simp [uint, hkind, show ¬ 8 < intsize v by omega, hu, hsmall]

theorem list_puthead {s : Stream} {size : ℕ} {rest : List UInt8} (hk : s.kind = none)
    (h64 : size < 2 ^ 64) (ht : s.Tight) (hin : s.input = puthead 0xC0 0xF7 size ++ rest)
    (hsz : size ≤ rest.length) (hr : s.Room ((puthead 0xC0 0xF7 size).length + size)) :
    ∃ s', s.list = (.ok size, s') ∧ s'.input = rest ∧
      s'.stack = ⟨0, size⟩ :: bump s.stack (puthead 0xC0 0xF7 size).length ∧ s'.kind = none ∧
      s'.Tight := by
  obtain ⟨s₁, hkind, hin₁, hst₁, ht₁, -, -, -, -⟩ :=
    @kindOf_header s .list size 0 _ rest hk rfl h64 ht hin hsz hr
  exact ⟨{ s₁ with stack := ⟨0, size⟩ :: s₁.stack, kind := none, size := 0 },
    by simp [list, hkind], hin₁, by simp [hst₁], rfl, ht₁⟩

theorem listEnd_atEnd {s : Stream} {size : ℕ} {outer : List Listpos}
    (h : s.stack = ⟨size, size⟩ :: outer) :
    s.listEnd = (.ok (), { s with stack := bump outer size, kind := none, size := 0 }) := by
  unfold listEnd
  rw [h]
  cases outer <;> simp [bump]

theorem decode_tail_atEnd {s : Stream} (n : ℕ) (hk : s.kind = none) {tos : Listpos}
    {outer : List Listpos} (hs : s.stack = tos :: outer) (hend : tos.pos = tos.size) :
    decode (n + 2) (.tail .iface) s = (.ok (.list []), { s with kinderr := none }) := by
  have heol : s.kindOf = (.error .eol, { s with kinderr := none }) := by
    unfold kindOf
    rw [hk]
    simp [hs, hend]
  simp [decode, decodeTail, decodeSliceElems, decodeInterface, heol]

end Stream

/-- `dec` reads the value `v` from its encoding `e`: from a rearmed, tight stream with `e` in
front and room for it in the innermost list, it returns `v` and leaves the stream after `e`. -/
def Reads (dec : Decoder) (e : List UInt8) (v : Val) : Prop :=
  ∀ (s : Stream) (rest : List UInt8), s.kind = none → s.Tight → s.Room e.length →
    s.input = e ++ rest →
    ∃ s', dec s = (.ok v, s') ∧ s'.input = rest ∧ s'.stack = Stream.bump s.stack e.length ∧
      s'.kind = none ∧ s'.Tight

/-- `dec` returns `v` at the end of the innermost list, reading nothing. -/
def ReadsAtEnd (dec : Decoder) (v : Val) : Prop :=
  ∀ (s : Stream) (tos : Listpos) (outer : List Listpos), s.kind = none → s.Tight →
    s.stack = tos :: outer → tos.pos = tos.size →
    ∃ s', dec s = (.ok v, s') ∧ s'.input = s.input ∧ s'.stack = s.stack ∧ s'.kind = none ∧
      s'.Tight

theorem decodeFields_reads {last : Decoder} {lv : Val} (hlast : ReadsAtEnd last lv) :
    ∀ (fs : List (Decoder × List UInt8 × Val)), (∀ f ∈ fs, Reads f.1 f.2.1 f.2.2) →
    ∀ (s : Stream) (pos size : ℕ) (outer : List Listpos) (rest : List UInt8),
      s.kind = none → s.Tight → s.stack = ⟨pos, size⟩ :: outer →
      pos + (fs.flatMap fun f => f.2.1).length = size →
      s.input = (fs.flatMap fun f => f.2.1) ++ rest →
      ∃ s', decodeFields (fs.map Prod.fst ++ [last]) s =
          (.ok (fs.map (fun f => f.2.2) ++ [lv]), s') ∧
        s'.input = rest ∧ s'.stack = ⟨size, size⟩ :: outer ∧ s'.kind = none ∧ s'.Tight
  | [], _, s, pos, size, outer, rest, hk, ht, hs, hsize, hin => by
    simp only [List.flatMap_nil, List.length_nil, Nat.add_zero, List.nil_append] at hsize hin
    subst hsize
    obtain ⟨s', hl, hin', hst', hk', ht'⟩ := hlast s _ outer hk ht hs rfl
    refine ⟨s', ?_, by rw [hin', hin], by rw [hst', hs], hk', ht'⟩
    simp [decodeFields, hl]
  | ⟨dec, e, v⟩ :: fs, hfs, s, pos, size, outer, rest, hk, ht, hs, hsize, hin => by
    simp only [List.flatMap_cons, List.length_append] at hsize hin
    have hroom : s.Room e.length := by
      intro tos htos
      simp only [hs, List.head?_cons, Option.mem_def, Option.some.injEq] at htos
      subst htos
      simp only
      omega
    obtain ⟨s₁, hd, hin₁, hst₁, hk₁, ht₁⟩ :=
      hfs (dec, e, v) (by simp) s (fs.flatMap (fun f => f.2.1) ++ rest) hk ht hroom
        (by rw [hin, List.append_assoc])
    dsimp only at hd hst₁
    have hst₁' : s₁.stack = ⟨pos + e.length, size⟩ :: outer := by rw [hst₁, hs]; rfl
    obtain ⟨s', hrest, hin', hst', hk', ht'⟩ := decodeFields_reads hlast fs
      (fun f hf => hfs f (by simp [hf])) s₁ (pos + e.length) size outer rest hk₁ ht₁ hst₁'
      (by omega) hin₁
    refine ⟨s', ?_, hin', hst', hk', ht'⟩
    simp [decodeFields, hd, hrest]

theorem decodeStruct_reads {last : Decoder} {lv : Val} (hlast : ReadsAtEnd last lv)
    {fs : List (Decoder × List UInt8 × Val)} (hfs : ∀ f ∈ fs, Reads f.1 f.2.1 f.2.2)
    (h64 : (fs.flatMap fun f => f.2.1).length < 2 ^ 64) :
    Reads (decodeStruct (fs.map Prod.fst ++ [last])) (encList (fs.flatMap fun f => f.2.1))
      (.list (fs.map (fun f => f.2.2) ++ [lv])) := by
  intro s rest hk ht hr hin
  set p := fs.flatMap fun f => f.2.1 with hp
  rw [encList, List.append_assoc] at hin
  obtain ⟨s₁, hlist, hin₁, hst₁, hk₁, ht₁⟩ :=
    Stream.list_puthead hk h64 ht hin (by simp) (by simpa [encList] using hr)
  obtain ⟨s₂, hfields, hin₂, hst₂, -, ht₂⟩ :=
    decodeFields_reads hlast fs hfs s₁ 0 p.length _ rest hk₁ ht₁ hst₁ (Nat.zero_add _) hin₁
  refine ⟨{ s₂ with
      stack := Stream.bump (Stream.bump s.stack (puthead 0xC0 0xF7 p.length).length) p.length,
      kind := none, size := 0 }, ?_, hin₂, by simp [encList, Stream.bump_bump], rfl, ht₂⟩
  simp [decodeStruct, hlist, hfields, Stream.listEnd_atEnd hst₂]

/-- The field types whose encodings this module reads back: byte arrays of at least two
bytes, byte slices and 64-bit integers. -/
def Flat : Ty → Val → Prop
  | .byteArray n, .bytes b => b.length = n ∧ 2 ≤ n ∧ n < 2 ^ 64
  | .byteSlice, .bytes b => b.length < 2 ^ 64
  | .uint 64, .uint v => v < 2 ^ 64
  | _, _ => False

theorem reads_flat {t : Ty} {v : Val} (h : Flat t v) (n : ℕ) :
    Reads (decode (n + 1) t) (encVal t v) v := by
  intro s rest hk ht hr hin
  match t, v, h with
  | .byteArray _, .bytes b, ⟨rfl, h2, h64⟩ =>
    exact Stream.decodeByteArray_encString hk h2 h64 ht hin hr
  | .byteSlice, .bytes b, h64 =>
    obtain ⟨s', hb, hs'⟩ := Stream.bytes_encString hk h64 ht hin hr
    exact ⟨s', by simp [decode, decodeByteSlice, hb], hs'⟩
  | .uint 64, .uint v, hv =>
    obtain ⟨s', hu, hs'⟩ := Stream.uint_encUint hk hv ht hin hr
    exact ⟨s', by simp [decode, decodeUint, hu], hs'⟩

theorem readsAtEnd_tail (n : ℕ) : ReadsAtEnd (decode (n + 2) (.tail .iface)) (.list []) :=
  fun _ _ _ hk ht hs hend =>
    ⟨_, Stream.decode_tail_atEnd n hk hs hend, rfl, rfl, hk, ht⟩

theorem flat_fields (n : ℕ) {tys : List Ty} {vs : List Val} (h : List.Forall₂ Flat tys vs) :
    ∃ fs : List (Decoder × List UInt8 × Val), (∀ f ∈ fs, Reads f.1 f.2.1 f.2.2) ∧
      fs.map Prod.fst = tys.map (decode (n + 1)) ∧ fs.map (fun f => f.2.2) = vs ∧
      fs.flatMap (fun f => f.2.1) = encFields (tys ++ [Ty.tail .iface]) (vs ++ [Val.list []]) := by
  induction h with
  | nil => exact ⟨[], by simp, rfl, rfl, by simp [encFields, encVals]⟩
  | @cons t v tys vs hflat _ ih =>
    obtain ⟨fs, hfs, hdec, hval, henc⟩ := ih
    have hcons : encFields (t :: (tys ++ [Ty.tail .iface])) (v :: (vs ++ [Val.list []])) =
        encVal t v ++ encFields (tys ++ [Ty.tail .iface]) (vs ++ [Val.list []]) := by
      match t, v, hflat with
      | .byteArray _, .bytes _, _ => rfl
      | .byteSlice, .bytes _, _ => rfl
      | .uint 64, .uint _, _ => rfl
    refine ⟨(decode (n + 1) t, encVal t v, v) :: fs, ?_, by simp [hdec], by simp [hval], ?_⟩
    · intro f hf
      rcases List.mem_cons.mp hf with rfl | hf
      · exact reads_flat hflat n
      · exact hfs f hf
    · simp only [List.flatMap_cons, henc, List.cons_append, hcons]

theorem reads_flatStruct {tys : List Ty} {vs : List Val} (h : List.Forall₂ Flat tys vs)
    (n : ℕ) (h64 : (encFields (tys ++ [Ty.tail .iface]) (vs ++ [Val.list []])).length < 2 ^ 64) :
    Reads (decode (n + 3) (.struct (tys ++ [Ty.tail .iface])))
      (encVal (.struct (tys ++ [Ty.tail .iface])) (.list (vs ++ [Val.list []])))
      (.list (vs ++ [Val.list []])) := by
  obtain ⟨fs, hfs, hdec, hval, henc⟩ := flat_fields (n + 1) h
  have hr := decodeStruct_reads (readsAtEnd_tail n) hfs (by rw [henc]; exact h64)
  rw [hdec, hval, henc] at hr
  have hstruct : decode (n + 3) (.struct (tys ++ [Ty.tail .iface])) =
      decodeStruct (tys.map (decode (n + 2)) ++ [decode (n + 2) (.tail .iface)]) := by
    funext s
    simp [decode]
  rw [hstruct]
  exact hr

/-- `s.Decode` into a flat struct from a fresh stream over its encoding, whatever follows it. -/
theorem decode_new_flatStruct {tys : List Ty} {vs : List Val} (h : List.Forall₂ Flat tys vs)
    {fuel : ℕ} (hf : 3 ≤ fuel)
    (h64 : (encFields (tys ++ [Ty.tail .iface]) (vs ++ [Val.list []])).length < 2 ^ 64)
    (pad : List UInt8) :
    ∃ s', decode fuel (.struct (tys ++ [Ty.tail .iface])) (Stream.new
      (encVal (.struct (tys ++ [Ty.tail .iface])) (.list (vs ++ [Val.list []])) ++ pad)) =
        (.ok (.list (vs ++ [Val.list []])), s') := by
  obtain ⟨n, rfl⟩ : ∃ n, fuel = n + 3 := ⟨fuel - 3, by omega⟩
  obtain ⟨s', hd, -⟩ := reads_flatStruct h n h64 _ pad rfl (Stream.tight_new _)
    (fun tos htos => by simp [Stream.new] at htos) rfl
  exact ⟨s', hd⟩

/-! ## Encoding sizes -/

theorem headsize_le {size : ℕ} (h : size < 2 ^ 64) : headsize size ≤ 9 := by
  have := Raw.intsize_le_eight h
  unfold headsize
  split <;> omega

/-- A header adds between zero and nine bytes to a string. -/
theorem length_encString_bounds {b : List UInt8} (h : b.length < 2 ^ 64) :
    b.length ≤ (encString b).length ∧ (encString b).length ≤ b.length + 9 := by
  have hh := headsize_le h
  unfold encString
  split
  · split <;> simp [headsize]
  · simp
    omega

theorem length_encList_bounds {p : List UInt8} (h : p.length < 2 ^ 64) :
    p.length < (encList p).length ∧ (encList p).length ≤ p.length + 9 := by
  have hh := headsize_le h
  have hpos : 1 ≤ headsize p.length := by unfold headsize; split <;> omega
  simp only [encList, List.length_append, length_puthead]
  omega

end Sphinx.Rlp
