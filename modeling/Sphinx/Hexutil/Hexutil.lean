import Sphinx.Common.Types

/-! # Hex quantities

`hexutil` writes numbers for the RPC API as `0x` followed by lower-case hex digits without
leading zeros (`0x0` for zero), and reads them back with `DecodeBig` (at most 64 digits)
and `DecodeUint64` (at most 64 bits). `DecodeBig` assembles the number in `big.Word`
limbs of `bigWordNibbles` digits, taken from the right, in the word's own arithmetic;
`DecodeUint64` uses `strconv.ParseUint`.

`Quantity k s n` is the format, stated on its own: `s` is `0x` or `0X`, then one to `k`
hex digits of value `n`, with no leading zero unless the digits are `0`. Both decoders
accept exactly the quantities (`decodeBigWith_eq_ok_iff`, `decodeUint64_eq_ok_iff`), for
every word size, and encoding a decoded number gives the input in lower case.
-/

namespace Sphinx.Hexutil

/-- The byte of an ASCII character. -/
def chr (c : Char) : UInt8 := c.toNat.toUInt8

inductive HexError
  | emptyString
  | invalidSyntax
  | missingPrefix
  | emptyNumber
  | leadingZero
  | uint64Range
  | big256Range
  deriving DecidableEq, Repr

/-- The texts of the errors. -/
def HexError.text : HexError → String
  | emptyString => "empty hex string"
  | invalidSyntax => "invalid hex string"
  | missingPrefix => "hex string without 0x prefix"
  | emptyNumber => "hex string \"0x\""
  | leadingZero => "hex number with leading zero digits"
  | uint64Range => "hex number > 64 bits"
  | big256Range => "hex number > 256 bits"

/-! ## The format -/

/-- The hex digits, lower case, by value. -/
def lowerHex : Bytes := ascii "0123456789abcdef"

/-- ASCII lower case. -/
def toLower (c : UInt8) : UInt8 := if chr 'A' ≤ c ∧ c ≤ chr 'Z' then c + 32 else c

/-- The value of a hex digit of either case. -/
def hexVal (c : UInt8) : Option ℕ := lowerHex.idxOf? (toLower c)

/-- The value of hex digits, most significant first. -/
def digitsValue (ds : Bytes) : ℕ := ds.foldl (fun acc c => acc * 16 + (hexVal c).getD 0) 0

/-- `s` is `0x` or `0X`, then one to `k` hex digits of value `n`, with no leading zero unless
the digits are one zero. -/
def Quantity (k : ℕ) (s : Bytes) (n : ℕ) : Prop :=
  ∃ x ds, s = chr '0' :: x :: ds ∧ toLower x = chr 'x' ∧ ds ≠ [] ∧ ds.length ≤ k ∧
    (∀ c ∈ ds, (hexVal c).isSome) ∧ (1 < ds.length → ds.head? ≠ some (chr '0')) ∧
    n = digitsValue ds

/-! ## Decoding -/

/-- `has0xPrefix`. -/
def has0xPrefix (input : Bytes) : Bool :=
  2 ≤ input.length && input[0]? == some (chr '0') &&
    (input[1]? == some (chr 'x') || input[1]? == some (chr 'X'))

/-- `checkNumber`: the digits after the prefix. -/
def checkNumber (input : Bytes) : Except HexError Bytes :=
  if input.length = 0 then .error .emptyString
  else if !has0xPrefix input then .error .missingPrefix
  else
    let input := input.drop 2
    if input.length = 0 then .error .emptyNumber
    else if 1 < input.length ∧ input[0]? = some (chr '0') then .error .leadingZero
    else .ok input

/-- `decodeNibble`; `none` is `badNibble`. -/
def decodeNibble (c : UInt8) : Option ℕ :=
  if chr '0' ≤ c ∧ c ≤ chr '9' then some (c - chr '0').toNat
  else if chr 'A' ≤ c ∧ c ≤ chr 'F' then some (c - chr 'A' + 10).toNat
  else if chr 'a' ≤ c ∧ c ≤ chr 'f' then some (c - chr 'a' + 10).toNat
  else none

/-- The body of the inner loop of `DecodeBig`: `words[i] *= 16; words[i] += big.Word(nib)`,
in the arithmetic of a word of `bigWordNibbles` nibbles. -/
def accumulateNibble (bigWordNibbles word : ℕ) (c : UInt8) : Except HexError ℕ :=
  match decodeNibble c with
  | none => .error .invalidSyntax
  | some nib => .ok ((word * 16 % 16 ^ bigWordNibbles + nib) % 16 ^ bigWordNibbles)

/-- The inner loop of `DecodeBig` over one limb's digits. -/
def decodeWord (bigWordNibbles : ℕ) (chunk : Bytes) : Except HexError ℕ :=
  chunk.foldlM (accumulateNibble bigWordNibbles) 0

/-- The outer loop of `DecodeBig`: `n` limbs, the first of the digits `raw[start:stop]` with
`start = max (stop - bigWordNibbles) 0`, the next ending at `start`. -/
def decodeWords (bigWordNibbles : ℕ) (raw : Bytes) : ℕ → ℕ → Except HexError (List ℕ)
  | 0, _ => .ok []
  | n + 1, stop => do
    let start := stop - bigWordNibbles
    let word ← decodeWord bigWordNibbles ((raw.take stop).drop start)
    let words ← decodeWords bigWordNibbles raw n start
    pure (word :: words)

/-- `big.Int.SetBits`: the number whose limbs, least significant first, are `words`. -/
def setBits (bigWordNibbles : ℕ) (words : List ℕ) : ℕ :=
  words.foldr (fun word acc => word + 16 ^ bigWordNibbles * acc) 0

/-- `DecodeBig` with limbs of `bigWordNibbles` digits. -/
def decodeBigWith (bigWordNibbles : ℕ) (input : Bytes) : Except HexError ℕ := do
  let raw ← checkNumber input
  if 64 < raw.length then throw .big256Range
  let words ← decodeWords bigWordNibbles raw (raw.length / bigWordNibbles + 1) raw.length
  pure (setBits bigWordNibbles words)

/-- The digits of a `big.Word` on a 64-bit platform, as `init` finds them. -/
def bigWordNibbles : ℕ := 16

/-- `DecodeBig`. -/
def decodeBig (input : Bytes) : Except HexError ℕ := decodeBigWith bigWordNibbles input

/-- The errors of `strconv.ParseUint`. -/
inductive NumError
  | errSyntax
  | errRange
  deriving DecidableEq, Repr

/-- The digit `strconv.ParseUint` reads in base 16: a decimal digit, or a letter whose lower
case (`c | 0x20`) is below `g`. -/
def parseDigit (c : UInt8) : Option ℕ :=
  if chr '0' ≤ c ∧ c ≤ chr '9' then some (c - chr '0').toNat
  else if chr 'a' ≤ (c ||| 0x20) ∧ (c ||| 0x20) ≤ chr 'z' then
    let d := ((c ||| 0x20) - chr 'a' + 10).toNat
    if 16 ≤ d then none else some d
  else none

/-- One pass of the loop of `strconv.ParseUint(s, 16, 64)`: the cutoff `2 ^ 60` before the
multiplication, and `maxVal = 2 ^ 64 - 1` after the addition. -/
def parseUintStep (n : ℕ) (c : UInt8) : Except NumError ℕ :=
  match parseDigit c with
  | none => .error .errSyntax
  | some d =>
    if 2 ^ 60 ≤ n then .error .errRange
    else if 2 ^ 64 - 1 < n * 16 + d then .error .errRange
    else .ok (n * 16 + d)

/-- `strconv.ParseUint(s, 16, 64)`. -/
def parseUint (s : Bytes) : Except NumError ℕ :=
  if s = [] then .error .errSyntax else s.foldlM parseUintStep 0

/-- `mapError` on the errors of `strconv`. -/
def mapError : NumError → HexError
  | .errRange => .uint64Range
  | .errSyntax => .invalidSyntax

/-- `DecodeUint64`. -/
def decodeUint64 (input : Bytes) : Except HexError UInt64 := do
  let raw ← checkNumber input
  match parseUint raw with
  | .ok dec => .ok (UInt64.ofNat dec)
  | .error e => .error (mapError e)

/-! ## Encoding -/

/-- The hex digits `strconv` and `fmt` write for a number: lower case, most significant
first, without leading zeros, and `0` for zero. -/
def formatHex (n : ℕ) : Bytes :=
  if n = 0 then ascii "0" else (Nat.digits 16 n).reverse.map fun d => lowerHex.getD d 0

/-- `EncodeBig` of a non-negative number: `0x0` when it has no bits, else `%#x`. -/
def encodeBig (n : ℕ) : Bytes := if n = 0 then ascii "0x0" else ascii "0x" ++ formatHex n

/-- `EncodeUint64`: `0x` then `strconv.AppendUint(i, 16)`. -/
def encodeUint64 (i : UInt64) : Bytes := ascii "0x" ++ formatHex i.toNat

/-! ## Digits -/

section Digits

theorem decodeNibble_eq_hexVal : ∀ c, decodeNibble c = hexVal c := by decide +kernel

theorem parseDigit_eq_decodeNibble : ∀ c, parseDigit c = decodeNibble c := by decide +kernel

theorem parseDigit_eq_hexVal (c : UInt8) : parseDigit c = hexVal c :=
  (parseDigit_eq_decodeNibble c).trans (decodeNibble_eq_hexVal c)

theorem decodeNibble_lt : ∀ c, (decodeNibble c).getD 0 < 16 := by decide +kernel

theorem hexVal_lt (c : UInt8) : (hexVal c).getD 0 < 16 := by
  rw [← decodeNibble_eq_hexVal]
  exact decodeNibble_lt c

theorem toLower_eq_x : ∀ x, toLower x = chr 'x' ↔ x = chr 'x' ∨ x = chr 'X' := by
  have hx : chr 'x' = 0x78 := rfl
  have hX : chr 'X' = 0x58 := rfl
  rw [hx, hX]
  decide +kernel

theorem decodeNibble_eq_zero : ∀ c, decodeNibble c = some 0 ↔ c = chr '0' := by decide +kernel

theorem hexVal_eq_zero (c : UInt8) : hexVal c = some 0 ↔ c = chr '0' := by
  rw [← decodeNibble_eq_hexVal]
  exact decodeNibble_eq_zero c

theorem hexVal_lowerHex : ∀ d < 16, hexVal (lowerHex.getD d 0) = some d := by decide

theorem lowerHex_decodeNibble : ∀ c, (decodeNibble c).isSome →
    lowerHex.getD ((decodeNibble c).getD 0) 0 = toLower c := by
  decide +kernel

theorem lowerHex_hexVal (c : UInt8) (h : (hexVal c).isSome) :
    lowerHex.getD ((hexVal c).getD 0) 0 = toLower c := by
  rw [← decodeNibble_eq_hexVal] at h ⊢
  exact lowerHex_decodeNibble c h

theorem foldl_digitsValue (acc : ℕ) (ds : Bytes) :
    ds.foldl (fun acc c => acc * 16 + (hexVal c).getD 0) acc = acc * 16 ^ ds.length + digitsValue ds := by
  induction ds generalizing acc with
  | nil => simp [digitsValue]
  | cons c ds ih =>
    have hc : digitsValue (c :: ds) = (hexVal c).getD 0 * 16 ^ ds.length + digitsValue ds := by
      rw [digitsValue, List.foldl_cons, ih]
      simp
    rw [List.foldl_cons, ih, hc, List.length_cons, pow_succ]
    ring

@[simp] theorem digitsValue_nil : digitsValue [] = 0 := rfl

theorem digitsValue_append (ds es : Bytes) :
    digitsValue (ds ++ es) = digitsValue ds * 16 ^ es.length + digitsValue es := by
  rw [digitsValue, List.foldl_append, ← digitsValue, foldl_digitsValue]

@[simp] theorem digitsValue_singleton (c : UInt8) : digitsValue [c] = (hexVal c).getD 0 := by
  simp [digitsValue]

theorem digitsValue_cons (c : UInt8) (ds : Bytes) :
    digitsValue (c :: ds) = (hexVal c).getD 0 * 16 ^ ds.length + digitsValue ds := by
  rw [← List.singleton_append, digitsValue_append, digitsValue_singleton]

theorem digitsValue_lt (ds : Bytes) : digitsValue ds < 16 ^ ds.length := by
  induction ds using List.reverseRecOn with
  | nil => simp
  | append_singleton ds c ih =>
    have hc := hexVal_lt c
    rw [digitsValue_append, digitsValue_singleton, List.length_append, List.length_singleton, pow_one, pow_succ]
    omega

theorem pow_le_digitsValue {c : UInt8} (ds : Bytes) (hc : (hexVal c).isSome)
    (hc0 : c ≠ chr '0') : 16 ^ ds.length ≤ digitsValue (c :: ds) := by
  obtain ⟨d, hd⟩ := Option.isSome_iff_exists.1 hc
  have hd0 : d ≠ 0 := by
    rintro rfl
    exact hc0 ((hexVal_eq_zero c).1 hd)
  have hlead : 16 ^ ds.length ≤ d * 16 ^ ds.length := Nat.le_mul_of_pos_left _ (Nat.pos_of_ne_zero hd0)
  rw [digitsValue_cons, hd, Option.getD_some]
  omega

end Digits

/-! ## The limbs of `DecodeBig` -/

section Limbs

variable {w : ℕ}

theorem foldlM_accumulateNibble (chunk : Bytes) (acc : ℕ) (hlen : chunk.length ≤ w)
    (hacc : acc < 16 ^ (w - chunk.length)) (hv : ∀ c ∈ chunk, (hexVal c).isSome) :
    chunk.foldlM (accumulateNibble w) acc = .ok (acc * 16 ^ chunk.length + digitsValue chunk) := by
  induction chunk generalizing acc with
  | nil => simp [pure, Except.pure]
  | cons c cs ih =>
    obtain ⟨d, hd⟩ := Option.isSome_iff_exists.1 (hv c List.mem_cons_self)
    have hd16 : d < 16 := by simpa [hd] using hexVal_lt c
    have hcs : cs.length < w := by simpa using hlen
    have hroom : w - cs.length = (w - (c :: cs).length) + 1 := by simp; omega
    have hnext : acc * 16 + d < 16 ^ (w - cs.length) := by rw [hroom, pow_succ]; omega
    have hword : 16 ^ (w - cs.length) ≤ 16 ^ w := Nat.pow_le_pow_right (by norm_num) (Nat.sub_le _ _)
    have hstep : accumulateNibble w acc c = .ok (acc * 16 + d) := by
      have hfit : acc * 16 + d < 16 ^ w := by omega
      simp only [accumulateNibble, decodeNibble_eq_hexVal, hd,
        Nat.mod_eq_of_lt (by omega : acc * 16 < 16 ^ w), Nat.mod_eq_of_lt hfit]
    rw [List.foldlM_cons, hstep]
    change cs.foldlM (accumulateNibble w) (acc * 16 + d) = _
    rw [ih _ hcs.le hnext (fun c' h => hv c' (List.mem_cons_of_mem c h)), digitsValue_cons, hd,
      Option.getD_some, List.length_cons, pow_succ]
    congr 1
    ring

theorem hexDigits_of_foldlM_accumulateNibble {chunk : Bytes} {acc r : ℕ}
    (h : chunk.foldlM (accumulateNibble w) acc = .ok r) : ∀ c ∈ chunk, (hexVal c).isSome := by
  induction chunk generalizing acc with
  | nil => simp
  | cons c cs ih =>
    rw [List.foldlM_cons] at h
    obtain ⟨acc', hstep, hrest⟩ := except_bind_eq_ok h
    have hc : (hexVal c).isSome := by
      rw [accumulateNibble, decodeNibble_eq_hexVal] at hstep
      cases hv : hexVal c with
      | none => simp [hv] at hstep
      | some d => rfl
    exact List.forall_mem_cons.2 ⟨hc, ih hrest⟩

theorem decodeWord_eq_ok {chunk : Bytes} (hlen : chunk.length ≤ w)
    (hv : ∀ c ∈ chunk, (hexVal c).isSome) : decodeWord w chunk = .ok (digitsValue chunk) := by
  have h := foldlM_accumulateNibble chunk 0 hlen (Nat.pow_pos (by norm_num)) hv
  simpa [decodeWord] using h

theorem take_eq_take_append_limb (raw : Bytes) (stop : ℕ) :
    raw.take stop = raw.take (stop - w) ++ (raw.take stop).drop (stop - w) := by
  conv_lhs => rw [← List.take_append_drop (stop - w) (raw.take stop)]
  rw [List.take_take, min_eq_left (Nat.sub_le _ _)]

theorem decodeWords_ok (raw : Bytes) (n stop : ℕ) (hlen : stop ≤ raw.length) (hn : stop ≤ n * w)
    (hv : ∀ c ∈ raw.take stop, (hexVal c).isSome) :
    ∃ words, decodeWords w raw n stop = .ok words ∧ setBits w words = digitsValue (raw.take stop) := by
  induction n generalizing stop with
  | zero =>
    obtain rfl : stop = 0 := by simpa using hn
    exact ⟨[], rfl, by simp [setBits]⟩
  | succ n ih =>
    have hsplit := take_eq_take_append_limb (w := w) raw stop
    rw [hsplit] at hv
    have hlimb : ((raw.take stop).drop (stop - w)).length ≤ w := by simp; omega
    obtain ⟨words, hrec, hbits⟩ := ih (stop - w) (by omega) (by rw [Nat.succ_mul] at hn; omega)
      (fun c h => hv c (List.mem_append_left _ h))
    refine ⟨digitsValue ((raw.take stop).drop (stop - w)) :: words, ?_, ?_⟩
    · simp only [decodeWords, decodeWord_eq_ok hlimb (fun c h => hv c (List.mem_append_right _ h)), hrec]
      rfl
    · rw [setBits, List.foldr_cons, ← setBits, hbits]
      conv_rhs => rw [hsplit, digitsValue_append]
      rcases le_or_gt w stop with hws | hws
      · have hfull : ((raw.take stop).drop (stop - w)).length = w := by simp; omega
        rw [hfull]
        ring
      · rw [Nat.sub_eq_zero_of_le hws.le]
        simp

theorem hexDigits_of_decodeWords (raw : Bytes) (n stop : ℕ) {words : List ℕ} (hn : stop ≤ n * w)
    (h : decodeWords w raw n stop = .ok words) : ∀ c ∈ raw.take stop, (hexVal c).isSome := by
  induction n generalizing stop words with
  | zero =>
    obtain rfl : stop = 0 := by simpa using hn
    simp
  | succ n ih =>
    simp only [decodeWords] at h
    obtain ⟨word, hword, h₁⟩ := except_bind_eq_ok h
    obtain ⟨words', hrec, -⟩ := except_bind_eq_ok h₁
    have hlow := ih (stop - w) (by rw [Nat.succ_mul] at hn; omega) hrec
    rw [take_eq_take_append_limb (w := w) raw stop]
    intro c hc
    rcases List.mem_append.1 hc with hc | hc
    · exact hlow c hc
    · exact hexDigits_of_foldlM_accumulateNibble hword c hc

end Limbs

/-! ## The decoders accept exactly the quantities -/

section Decode

theorem checkNumber_eq_ok_iff {input raw : Bytes} :
    checkNumber input = .ok raw ↔ ∃ x, input = chr '0' :: x :: raw ∧ toLower x = chr 'x' ∧
      raw ≠ [] ∧ (1 < raw.length → raw.head? ≠ some (chr '0')) := by
  rcases input with _ | ⟨a, _ | ⟨x, rest⟩⟩
  · simp [checkNumber]
  · simp [checkNumber, has0xPrefix]
  · by_cases hp : a = chr '0' ∧ (x = chr 'x' ∨ x = chr 'X')
    · obtain ⟨rfl, hx⟩ := hp
      have hpfx : has0xPrefix (chr '0' :: x :: rest) = true := by simpa [has0xPrefix] using hx
      simp [checkNumber, hpfx, toLower_eq_x, hx, List.head?_eq_getElem?]
      split_ifs with hn hz
      · simp only [false_iff, not_and]
        rintro rfl hne
        exact absurd hn hne
      · simp only [false_iff, not_and]
        rintro rfl - hlead
        exact hlead hz.1 hz.2
      · simp only [Except.ok.injEq]
        constructor
        · rintro rfl
          exact ⟨rfl, hn, fun h => fun h0 => hz ⟨h, h0⟩⟩
        · rintro ⟨rfl, -, -⟩
          rfl
    · simp [checkNumber, has0xPrefix, toLower_eq_x]
      rw [if_pos (by tauto)]
      simp only [reduceCtorEq, false_iff]
      tauto

theorem length_le_limbs {w : ℕ} (hw : 0 < w) (raw : Bytes) :
    raw.length ≤ (raw.length / w + 1) * w := by
  have h := Nat.lt_div_mul_add (a := raw.length) hw
  rw [Nat.succ_mul]
  omega

theorem decodeBigWith_eq_ok_iff {w : ℕ} (hw : 0 < w) {input : Bytes} {n : ℕ} :
    decodeBigWith w input = .ok n ↔ Quantity 64 input n := by
  constructor
  · intro h
    obtain ⟨raw, hraw, hrest⟩ := except_bind_eq_ok h
    obtain ⟨x, rfl, hx, hne, hlead⟩ := checkNumber_eq_ok_iff.1 hraw
    dsimp only at hrest
    split_ifs at hrest with h64
    · cases hrest
    rw [not_lt] at h64
    obtain ⟨words, hwords, hn⟩ := except_bind_eq_ok hrest
    have hv := hexDigits_of_decodeWords raw _ _ (length_le_limbs hw raw) hwords
    rw [List.take_length] at hv
    obtain ⟨words', hwords', hbits⟩ :=
      decodeWords_ok raw _ raw.length le_rfl (length_le_limbs hw raw) (by rwa [List.take_length])
    obtain rfl : words = words' := by simpa [hwords'] using hwords.symm
    have hn : setBits w words = n := by simpa [pure, Except.pure] using hn
    refine ⟨x, raw, rfl, hx, hne, h64, hv, hlead, ?_⟩
    rw [← hn, hbits, List.take_length]
  · rintro ⟨x, raw, rfl, hx, hne, h64, hv, hlead, rfl⟩
    have hraw : checkNumber (chr '0' :: x :: raw) = .ok raw :=
      checkNumber_eq_ok_iff.2 ⟨x, rfl, hx, hne, hlead⟩
    obtain ⟨words, hwords, hbits⟩ :=
      decodeWords_ok raw _ raw.length le_rfl (length_le_limbs hw raw) (by rwa [List.take_length])
    rw [List.take_length] at hbits
    rw [decodeBigWith, hraw]
    show (if 64 < raw.length then _ else _) = _
    rw [if_neg (by omega), hwords]
    show Except.ok (setBits w words) = _
    rw [hbits]

end Decode

/-! ## Encoding -/

section Encode

theorem digitsValue_eq_ofDigits (ds : Bytes) :
    digitsValue ds = Nat.ofDigits 16 (ds.reverse.map fun c => (hexVal c).getD 0) := by
  induction ds using List.reverseRecOn with
  | nil => rfl
  | append_singleton ds c ih =>
    rw [digitsValue_append, ih, List.reverse_append, List.map_append]
    simp [Nat.ofDigits_cons]
    ring

theorem digitsValue_map_reverse (L : List ℕ) (hL : ∀ d ∈ L, d < 16) :
    digitsValue (L.reverse.map fun d => lowerHex.getD d 0) = Nat.ofDigits 16 L := by
  rw [digitsValue_eq_ofDigits]
  simp only [List.map_reverse, List.reverse_reverse, List.map_map]
  congr 1
  conv_rhs => rw [← List.map_id L]
  refine List.map_congr_left fun d hd => ?_
  simp only [Function.comp_apply, hexVal_lowerHex d (hL d hd), Option.getD_some, id]

theorem length_le_of_digitsValue_lt {ds : Bytes} {k : ℕ} (hk : 0 < k)
    (hv : ∀ c ∈ ds, (hexVal c).isSome) (hlead : 1 < ds.length → ds.head? ≠ some (chr '0'))
    (hlt : digitsValue ds < 16 ^ k) : ds.length ≤ k := by
  by_contra hlong
  rcases ds with _ | ⟨c, cs⟩
  · simp at hlong
  · have hc0 : c ≠ chr '0' := fun h => hlead (by simp at hlong ⊢; omega) (by simp [h])
    have hpow : 16 ^ k ≤ 16 ^ cs.length := Nat.pow_le_pow_right (by norm_num) (by simp at hlong; omega)
    have hge := pow_le_digitsValue cs (hv c List.mem_cons_self) hc0
    omega

theorem hexDigits_formatHex (n : ℕ) : ∀ c ∈ formatHex n, (hexVal c).isSome := by
  unfold formatHex
  split_ifs
  · intro c hc
    obtain rfl : c = chr '0' := by simpa [ascii, chr] using hc
    decide
  · intro c hc
    obtain ⟨d, hd, rfl⟩ := List.mem_map.1 hc
    rw [hexVal_lowerHex d (Nat.digits_lt_base (by norm_num) (List.mem_reverse.1 hd))]
    rfl

theorem digitsValue_formatHex (n : ℕ) : digitsValue (formatHex n) = n := by
  unfold formatHex
  split_ifs with hn
  · subst hn
    rfl
  · rw [digitsValue_map_reverse _ fun d hd => Nat.digits_lt_base (by norm_num) hd, Nat.ofDigits_digits]

theorem formatHex_ne_nil (n : ℕ) : formatHex n ≠ [] := by
  unfold formatHex
  split_ifs with hn
  · simp [ascii]
  · rw [Ne, List.map_eq_nil_iff, List.reverse_eq_nil_iff]
    exact Nat.digits_ne_nil_iff_ne_zero.2 hn

theorem head_formatHex (n : ℕ) (hlen : 1 < (formatHex n).length) :
    (formatHex n).head? ≠ some (chr '0') := by
  unfold formatHex at hlen ⊢
  split_ifs at hlen ⊢ with hn
  · simp [ascii] at hlen
  · have hne : Nat.digits 16 n ≠ [] := Nat.digits_ne_nil_iff_ne_zero.2 hn
    have hlast := Nat.getLast_digit_ne_zero 16 hn
    have hlt := Nat.digits_lt_base (b := 16) (m := n) (by norm_num) (List.getLast_mem hne)
    rw [List.head?_map, List.head?_reverse, List.getLast?_eq_some_getLast hne, Option.map_some]
    intro h
    have h0 := hexVal_lowerHex _ hlt
    rw [Option.some.inj h, (hexVal_eq_zero _).2 rfl] at h0
    exact hlast (Option.some.inj h0).symm

theorem quantity_encode {k n : ℕ} (hk : 0 < k) (hn : n < 16 ^ k) :
    Quantity k (ascii "0x" ++ formatHex n) n := by
  have hlen := length_le_of_digitsValue_lt hk (hexDigits_formatHex n) (head_formatHex n)
    (by rwa [digitsValue_formatHex])
  exact ⟨chr 'x', formatHex n, rfl, by decide, formatHex_ne_nil n, hlen, hexDigits_formatHex n,
    head_formatHex n, (digitsValue_formatHex n).symm⟩

theorem formatHex_digitsValue {ds : Bytes} (hne : ds ≠ []) (hv : ∀ c ∈ ds, (hexVal c).isSome)
    (hlead : 1 < ds.length → ds.head? ≠ some (chr '0')) :
    formatHex (digitsValue ds) = ds.map toLower := by
  by_cases hzero : ds = [chr '0']
  · subst hzero
    decide
  obtain ⟨c, cs, rfl⟩ := List.exists_cons_of_ne_nil hne
  have hc0 : c ≠ chr '0' := by
    rintro rfl
    exact hlead (by cases cs <;> simp_all) rfl
  set L := (c :: cs).reverse.map fun c => (hexVal c).getD 0 with hL
  have hlt : ∀ d ∈ L, d < 16 := by
    intro d hd
    obtain ⟨e, -, rfl⟩ := List.mem_map.1 hd
    exact hexVal_lt e
  have hlast : ∀ h : L ≠ [], L.getLast h ≠ 0 := by
    intro h
    obtain ⟨d, hd⟩ := Option.isSome_iff_exists.1 (hv c List.mem_cons_self)
    simp only [hL, List.getLast_map, List.getLast_reverse, List.head_cons, hd, Option.getD_some]
    rintro rfl
    exact hc0 ((hexVal_eq_zero c).1 hd)
  have hdigits : Nat.digits 16 (digitsValue (c :: cs)) = L := by
    rw [digitsValue_eq_ofDigits, Nat.digits_ofDigits 16 (by norm_num) L hlt hlast]
  have hn : digitsValue (c :: cs) ≠ 0 := by
    rw [← Nat.digits_ne_nil_iff_ne_zero, hdigits]
    simp [hL]
  rw [formatHex, if_neg hn, hdigits, hL]
  simp only [List.map_reverse, List.reverse_reverse, List.map_map]
  refine List.map_congr_left fun e he => ?_
  exact lowerHex_hexVal e (hv e he)

theorem encodeBig_eq (n : ℕ) : encodeBig n = ascii "0x" ++ formatHex n := by
  unfold encodeBig
  split_ifs with hn
  · subst hn
    decide
  · rfl

theorem encode_of_quantity {k : ℕ} {s : Bytes} {n : ℕ} (h : Quantity k s n) :
    ascii "0x" ++ formatHex n = s.map toLower := by
  obtain ⟨x, ds, rfl, hx, hne, -, hv, hlead, rfl⟩ := h
  rw [formatHex_digitsValue hne hv hlead, List.map_cons, List.map_cons, hx]
  rfl

end Encode

/-! ## `DecodeUint64` -/

section Uint64

theorem value_cons (acc : ℕ) {c : UInt8} {d : ℕ} (hd : hexVal c = some d) (cs : Bytes) :
    acc * 16 ^ (c :: cs).length + digitsValue (c :: cs) = (acc * 16 + d) * 16 ^ cs.length + digitsValue cs := by
  rw [digitsValue_cons, hd, Option.getD_some, List.length_cons, pow_succ]
  ring

theorem foldlM_parseUintStep (raw : Bytes) (acc n : ℕ) (hacc : acc < 2 ^ 64) :
    raw.foldlM parseUintStep acc = .ok n ↔
      (∀ c ∈ raw, (hexVal c).isSome) ∧ acc * 16 ^ raw.length + digitsValue raw < 2 ^ 64 ∧
        n = acc * 16 ^ raw.length + digitsValue raw := by
  induction raw generalizing acc with
  | nil =>
    simp only [List.foldlM_nil, List.not_mem_nil, List.length_nil, pow_zero, mul_one,
      digitsValue_nil, add_zero, IsEmpty.forall_iff, forall_const, true_and]
    constructor
    · intro h
      exact ⟨hacc, (Except.ok.inj h).symm⟩
    · rintro ⟨-, rfl⟩
      rfl
  | cons c cs ih =>
    rw [List.foldlM_cons, List.forall_mem_cons]
    cases hd : hexVal c with
    | none => simp [parseUintStep, parseDigit_eq_hexVal, hd, bind, Except.bind]
    | some d =>
      have hd16 : d < 16 := by simpa [hd] using hexVal_lt c
      rw [value_cons acc hd cs]
      have hmono : acc * 16 + d ≤ (acc * 16 + d) * 16 ^ cs.length + digitsValue cs :=
        le_add_right (Nat.le_mul_of_pos_right _ (Nat.pow_pos (by norm_num)))
      by_cases hfit : acc * 16 + d < 2 ^ 64
      · have hstep : parseUintStep acc c = .ok (acc * 16 + d) := by
          simp only [parseUintStep, parseDigit_eq_hexVal, hd]
          rw [if_neg (by omega), if_neg (by omega)]
        rw [hstep]
        change cs.foldlM parseUintStep (acc * 16 + d) = .ok n ↔ _
        rw [ih _ hfit]
        simp
      · have hstep : parseUintStep acc c = .error .errRange := by
          simp only [parseUintStep, parseDigit_eq_hexVal, hd]
          split_ifs <;> first | rfl | omega
        rw [hstep]
        simp only [bind, Except.bind, reduceCtorEq, false_iff, not_and]
        intro _ _ hlt
        omega

theorem parseUint_eq_ok_iff {raw : Bytes} {n : ℕ} :
    parseUint raw = .ok n ↔
      raw ≠ [] ∧ (∀ c ∈ raw, (hexVal c).isSome) ∧ digitsValue raw < 2 ^ 64 ∧ n = digitsValue raw := by
  unfold parseUint
  split_ifs with hraw
  · simp [hraw]
  · rw [foldlM_parseUintStep raw 0 n (by norm_num)]
    simp [hraw]

theorem decodeUint64_eq_ok_iff {input : Bytes} {v : UInt64} :
    decodeUint64 input = .ok v ↔ Quantity 16 input v.toNat := by
  constructor
  · intro h
    obtain ⟨raw, hraw, hrest⟩ := except_bind_eq_ok h
    obtain ⟨x, rfl, hx, hne, hlead⟩ := checkNumber_eq_ok_iff.1 hraw
    split at hrest
    · rename_i dec hdec
      obtain ⟨-, hv, hlt, rfl⟩ := parseUint_eq_ok_iff.1 hdec
      cases hrest
      have hlen := length_le_of_digitsValue_lt (k := 16) (by norm_num) hv hlead (by simpa using hlt)
      refine ⟨x, raw, rfl, hx, hne, hlen, hv, hlead, ?_⟩
      rw [UInt64.toNat_ofNat', Nat.mod_eq_of_lt hlt]
    · cases hrest
  · rintro ⟨x, raw, rfl, hx, hne, hlen, hv, hlead, hn⟩
    have hraw : checkNumber (chr '0' :: x :: raw) = .ok raw :=
      checkNumber_eq_ok_iff.2 ⟨x, rfl, hx, hne, hlead⟩
    have hlt : digitsValue raw < 2 ^ 64 :=
      calc digitsValue raw < 16 ^ raw.length := digitsValue_lt raw
        _ ≤ 16 ^ 16 := Nat.pow_le_pow_right (by norm_num) hlen
        _ = 2 ^ 64 := by norm_num
    have hdec : parseUint raw = .ok v.toNat := parseUint_eq_ok_iff.2 ⟨hne, hv, hlt, hn⟩
    simp only [decodeUint64, hraw, bind, Except.bind, hdec, UInt64.ofNat_toNat]

end Uint64

/-- Hex quantity decoding is exact, for every size of the limbs of `DecodeBig`: it accepts the
quantities of at most 64 digits and returns their value, decodes every encoded number below
`2 ^ 256`, and encodes what it decodes as the input in lower case; `DecodeUint64` and
`EncodeUint64` do the same for quantities of at most 16 digits. -/
theorem hex_quantity_exact {w : ℕ} (hw : 0 < w) :
    (∀ s n, decodeBigWith w s = .ok n ↔ Quantity 64 s n) ∧
    (∀ n, n < 2 ^ 256 → decodeBigWith w (encodeBig n) = .ok n) ∧
    (∀ s n, decodeBigWith w s = .ok n → encodeBig n = s.map toLower) ∧
    (∀ s v, decodeUint64 s = .ok v ↔ Quantity 16 s v.toNat) ∧
    (∀ v, decodeUint64 (encodeUint64 v) = .ok v) ∧
    (∀ s v, decodeUint64 s = .ok v → encodeUint64 v = s.map toLower) := by
  refine ⟨fun s n => decodeBigWith_eq_ok_iff hw, ?_, ?_, fun s v => decodeUint64_eq_ok_iff, ?_, ?_⟩
  · intro n hn
    rw [decodeBigWith_eq_ok_iff hw, encodeBig_eq]
    exact quantity_encode (by norm_num) (by simpa using hn)
  · intro s n h
    rw [encodeBig_eq]
    exact encode_of_quantity ((decodeBigWith_eq_ok_iff hw).1 h)
  · intro v
    rw [decodeUint64_eq_ok_iff]
    exact quantity_encode (by norm_num) (by simpa using v.toNat_lt)
  · intro s v h
    exact encode_of_quantity (decodeUint64_eq_ok_iff.1 h)

theorem hex_quantity_exact_bigWordNibbles :
    0 < bigWordNibbles ∧ decodeBig (encodeBig 255) = .ok 255 :=
  ⟨by decide, (hex_quantity_exact (w := bigWordNibbles) (by decide)).2.1 255 (by norm_num)⟩

end Sphinx.Hexutil
