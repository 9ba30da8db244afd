import Sphinx.Common.Types
import Sphinx.Rlp.Complete

/-! # The RLPx encryption handshake

The handshake of `rlpx.go`. The initiator seals an auth message to the receiver's static
key; the receiver answers with an auth response sealed to the initiator's static key; each
side then derives the session secrets from the ephemeral key agreement, the two nonces and
the two packets. A packet is either in the pre-EIP-8 plain format, of fixed size, or in
the EIP-8 format: a two-byte size, then the RLP encoding of the message and some padding,
encrypted with the size as MAC data.

The primitives of `crypto`, `secp256k1` and `ecies` are abstract (`Crypto`); the laws the
handshake relies on are `Crypto.Lawful`. The random values a party draws are its `Coins`.
Connections are byte strings: a party is a function from the bytes it will read to the
bytes it writes and its result, and `pipe` runs an initiator against a receiver.
-/

namespace Sphinx.P2p

open Rlp

abbrev sigLen : ℕ := 65
abbrev pubLen : ℕ := 64
abbrev shaLen : ℕ := 32

def authMsgLen : ℕ := sigLen + shaLen + pubLen + shaLen + 1
def authRespLen : ℕ := pubLen + shaLen + 1
def eciesOverhead : ℕ := 65 + 16 + 32
def encAuthMsgLen : ℕ := authMsgLen + eciesOverhead
def encAuthRespLen : ℕ := authRespLen + eciesOverhead

/-- A public key as the handshake carries it: the 64 bytes of an uncompressed secp256k1
point without its format byte, as `discover.NodeID` and `exportPubkey` hold it. -/
abbrev Pubkey := FixedBytes pubLen

/-- `copy(a[:], src)` into a fresh `[n]byte` array: the first bytes of `src`, zeros after. -/
def fill (n : ℕ) (src : Bytes) : FixedBytes n :=
  ⟨src.take n ++ List.replicate (n - src.length) 0, by simp; omega⟩

@[simp] theorem fill_bytes {n : ℕ} {src : Bytes} (h : src.length = n) : (fill n src).bytes = src := by
  simp [fill, h]

@[simp] theorem fill_fixed {n : ℕ} (b : FixedBytes n) : fill n b.bytes = b :=
  FixedBytes.ext (fill_bytes b.length_eq)

theorem fill_append {n : ℕ} (b : FixedBytes n) (rest : Bytes) : fill n (b.bytes ++ rest) = b :=
  FixedBytes.ext (by simp [fill, List.take_left' b.length_eq, b.length_eq])

/-- `xor(one, other)`: byte-wise over the length of `one`; it indexes past a shorter `other`
and panics. -/
def xor (one other : Bytes) : Option Bytes :=
  if other.length < one.length then none else some (List.zipWith (· ^^^ ·) one other)

/-- `binary.BigEndian.PutUint16(b, uint16(v))`. -/
def putUint16 (v : ℕ) : Bytes :=
  [((v / 256) % 256).toUInt8, (v % 256).toUInt8]

/-- `binary.BigEndian.Uint16(b)`. -/
def uint16 (b : Bytes) : ℕ :=
  (b.getD 0 0).toNat * 256 + (b.getD 1 0).toNat

/-! ## The primitives -/

/-- The primitives the handshake calls, over private keys of type `K`. -/
structure Crypto (K : Type) where
  /-- the public key of a private key, as `exportPubkey` writes it -/
  pubkey : K → Pubkey
  /-- whether a key is a point of the curve (`NodeID.Pubkey`, `elliptic.Unmarshal`) -/
  onCurve : Pubkey → Bool
  /-- `GenerateShared(pub, sskLen, sskLen)` of a private key: the ECDH shared secret -/
  generateShared : K → Pubkey → Bytes
  /-- `crypto.Sign(hash, prv)` -/
  sign : Bytes → K → Bytes
  /-- `secp256k1.RecoverPubkey(msg, sig)`: the 65-byte public key that signed -/
  recoverPubkey : Bytes → Bytes → Option Bytes
  /-- `ecies.Encrypt(rand, pub, m, nil, s2)`, given the randomness it draws -/
  encrypt : Pubkey → Bytes → Bytes → Bytes → Bytes
  /-- `key.Decrypt(rand, c, nil, s2)` -/
  decrypt : K → Bytes → Bytes → Option Bytes
  /-- `crypto.Keccak256` -/
  keccak256 : Bytes → Bytes

/-- What the handshake relies on: ECDH is symmetric, recovery inverts signing, decryption
inverts encryption with the same MAC data, and the sizes and formats `ecies.go` fixes. -/
structure Crypto.Lawful {K : Type} (C : Crypto K) : Prop where
  onCurve_pubkey : ∀ k, C.onCurve (C.pubkey k) = true
  generateShared_comm : ∀ a b, C.generateShared a (C.pubkey b) = C.generateShared b (C.pubkey a)
  /-- `GenerateShared` writes its secret into `skLen + macLen` bytes -/
  length_generateShared : ∀ k p, (C.generateShared k p).length = 2 * 16
  length_sign : ∀ m k, (C.sign m k).length = sigLen
  recoverPubkey_sign : ∀ m k, C.recoverPubkey m (C.sign m k) = some (4 :: (C.pubkey k).bytes)
  decrypt_encrypt : ∀ k r m s, C.decrypt k (C.encrypt (C.pubkey k) r m s) s = some m
  /-- the ephemeral key, the IV and the MAC around the message -/
  length_encrypt : ∀ p r m s, (C.encrypt p r m s).length = m.length + eciesOverhead
  /-- `Decrypt` reads an uncompressed ephemeral key at the front, format byte 4 -/
  head_of_decrypt : ∀ k c s m, C.decrypt k c s = some m → c.head? = some 4
  length_keccak256 : ∀ b, (C.keccak256 b).length = shaLen

/-! ## An instance of the primitives

A toy instance that satisfies the laws, to run the handshake on: a key's public key repeats it,
ECDH adds the two keys, a signature repeats its key, Keccak-256 pads or cuts to 32 bytes,
and a ciphertext is the format byte, eighty zero bytes, the message and the hash of the MAC
data. -/

def toyHash (b : Bytes) : Bytes := (b ++ List.replicate 32 0).take 32

def toyCrypto : Crypto UInt8 where
  pubkey k := ⟨List.replicate 64 k, by simp [pubLen]⟩
  onCurve _ := true
  generateShared a p := List.replicate 32 (a + p.bytes.headD 0)
  sign _ k := List.replicate 65 k
  recoverPubkey _ sig := some (4 :: List.replicate 64 (sig.headD 0))
  encrypt _ _ m s := 4 :: (List.replicate 80 0 ++ m ++ toyHash s)
  decrypt _ c s :=
    match c with
    | 4 :: rest =>
      if 112 ≤ rest.length ∧ rest.drop (rest.length - 32) = toyHash s then
        some ((rest.drop 80).take (rest.length - 112))
      else none
    | _ => none
  keccak256 := toyHash

theorem length_toyHash (b : Bytes) : (toyHash b).length = 32 := by
  simp [toyHash]

theorem toyCrypto_lawful : toyCrypto.Lawful where
  onCurve_pubkey _ := rfl
  generateShared_comm a b := by simp [toyCrypto, UInt8.add_comm]
  length_generateShared _ _ := by simp [toyCrypto]
  length_sign _ _ := by simp [toyCrypto]
  recoverPubkey_sign _ _ := by simp [toyCrypto]
  decrypt_encrypt _ _ m s := by
    have hl := length_toyHash s
    have hd : (List.replicate 80 (0 : UInt8) ++ m ++ toyHash s).drop (80 + m.length) = toyHash s :=
      List.drop_left' (by rw [List.length_append, List.length_replicate])
    simp only [toyCrypto, List.length_append, List.length_replicate, hl]
    rw [if_pos ⟨by omega, by rw [show 80 + m.length + 32 - 32 = 80 + m.length by omega, hd]⟩]
    simp [show 80 + m.length + 32 - 112 = m.length by omega]
  length_encrypt _ _ m s := by
    simp [toyCrypto, length_toyHash, eciesOverhead]
  head_of_decrypt _ c s m h := by
    simp only [toyCrypto] at h
    split at h
    · rfl
    · cases h
  length_keccak256 := length_toyHash

/-- The errors of the handshake: `io.ReadFull` on a short connection, the size check of
`readHandshakeMsg`, a ciphertext `Decrypt` refuses, a message the RLP decoder refuses, and
the key checks. -/
inductive HandshakeError where
  | badRemoteID
  | unexpectedEOF
  | sizeUnderflow (need : ℕ)
  | ecies
  | rlp (e : Rlp.Error)
  | invalidPubkeyLength (n : ℕ)
  | invalidPubkey
  | recoverPubkey
  deriving DecidableEq, Repr

variable {K : Type}

/-- `importPublicKey`: a 64-byte key, or a 65-byte one with its format byte, on the curve. -/
def importPublicKey (C : Crypto K) (pubKey : Bytes) : Except HandshakeError Pubkey :=
  -- the 65-byte form `crypto.ToECDSAPub` unmarshals
  let pubKey65 : Option Bytes :=
    if pubKey.length = 64 then some (4 :: pubKey)
    else if pubKey.length = 65 then some pubKey else none
  match pubKey65 with
  | none => .error (.invalidPubkeyLength pubKey.length)
  | some (4 :: b) =>
    if h : b.length = pubLen then
      if C.onCurve ⟨b, h⟩ then .ok ⟨b, h⟩ else .error .invalidPubkey
    else .error .invalidPubkey
  | some _ => .error .invalidPubkey

/-! ## Messages -/

/-- `authMsgV4`; `Rest` holds the trailing list elements, here as `interface{}` values. -/
structure AuthMsgV4 where
  gotPlain : Bool
  signature : FixedBytes sigLen
  initiatorPubkey : FixedBytes pubLen
  nonce : FixedBytes shaLen
  version : ℕ
  rand : Bytes
  rest : List Val

/-- `authRespV4`. -/
structure AuthRespV4 where
  randomPubkey : FixedBytes pubLen
  nonce : FixedBytes shaLen
  version : ℕ
  rand : Bytes
  rest : List Val

/-- The RLP type of `authMsgV4`: the unexported `gotPlain` is skipped, `Rest` is a tail. -/
def authMsgTy : Ty :=
  .struct ([.byteArray sigLen, .byteArray pubLen, .byteArray shaLen, .uint 64, .byteSlice] ++
    [.tail .iface])

/-- The RLP type of `authRespV4`. -/
def authRespTy : Ty :=
  .struct ([.byteArray pubLen, .byteArray shaLen, .uint 64, .byteSlice] ++ [.tail .iface])

def AuthMsgV4.toVal (m : AuthMsgV4) : Val :=
  .list ([.bytes m.signature.bytes, .bytes m.initiatorPubkey.bytes, .bytes m.nonce.bytes,
    .uint m.version, .bytes m.rand] ++ [.list m.rest])

def AuthRespV4.toVal (m : AuthRespV4) : Val :=
  .list ([.bytes m.randomPubkey.bytes, .bytes m.nonce.bytes, .uint m.version, .bytes m.rand] ++
    [.list m.rest])

/-- The message `s.Decode(msg)` fills in from a decoded value; the decoder of `authMsgTy`
returns only values of this shape, anything else leaves the zero message. -/
def AuthMsgV4.ofVal : Val → AuthMsgV4
  | .list [.bytes sig, .bytes pub, .bytes nonce, .uint version, .bytes rand, .list rest] =>
    ⟨false, fill sigLen sig, fill pubLen pub, fill shaLen nonce, version, rand, rest⟩
  | _ => ⟨false, fill sigLen [], fill pubLen [], fill shaLen [], 0, [], []⟩

def AuthRespV4.ofVal : Val → AuthRespV4
  | .list [.bytes pub, .bytes nonce, .uint version, .bytes rand, .list rest] =>
    ⟨fill pubLen pub, fill shaLen nonce, version, rand, rest⟩
  | _ => ⟨fill pubLen [], fill shaLen [], 0, [], []⟩

/-- `authMsgV4.sealPlain`: signature, hash of the ephemeral key, static key, nonce and a zero
token flag, sealed to the remote static key. -/
def AuthMsgV4.sealPlain (C : Crypto K) (m : AuthMsgV4) (randomPub remotePub : Pubkey)
    (r : Bytes) : Bytes :=
  C.encrypt remotePub r (m.signature.bytes ++ C.keccak256 randomPub.bytes ++
    m.initiatorPubkey.bytes ++ m.nonce.bytes ++ [0]) []

/-- `authMsgV4.decodePlain`: `input[n:]` panics on an input shorter than a signature and a
hash; `Rand` is not in the plain format and stays empty. -/
def AuthMsgV4.decodePlain (input : Bytes) : Option AuthMsgV4 :=
  let n := min sigLen input.length + shaLen
  if input.length < n then none
  else
    let rest := input.drop n
    some ⟨true, fill sigLen input, fill pubLen rest,
      fill shaLen (rest.drop (min pubLen rest.length)), 4, [], []⟩

/-- `authRespV4.sealPlain`: ephemeral key, nonce and a zero byte. -/
def AuthRespV4.sealPlain (C : Crypto K) (m : AuthRespV4) (remotePub : Pubkey) (r : Bytes) :
    Bytes :=
  C.encrypt remotePub r (m.randomPubkey.bytes ++ m.nonce.bytes ++ [0]) []

/-- `authRespV4.decodePlain`; it never panics. -/
def AuthRespV4.decodePlain (input : Bytes) : Option AuthRespV4 :=
  some ⟨fill pubLen input, fill shaLen (input.drop (min pubLen input.length)), 4, [], []⟩

/-- `sealEIP8`: the message's encoding and `pad + 100` zero bytes, sealed to the remote key
with the two-byte size in front as MAC data; the size is written as a `uint16`. -/
def sealEIP8 (C : Crypto K) (enc : Bytes) (remotePub : Pubkey) (r : Bytes) (pad : ℕ) : Bytes :=
  let buf := enc ++ List.replicate (pad + 100) 0
  let pfx := putUint16 (buf.length + eciesOverhead)
  pfx ++ C.encrypt remotePub r buf pfx

/-- `readHandshakeMsg` from the bytes `r` still to come on the connection. It reads
`plainSize` bytes and decodes them in the plain format if they decrypt; otherwise it reads the
rest of an EIP-8 packet, whose first two bytes give its size, and decodes the message with the
RLP stream, leaving any padding behind it. It returns the message, the whole packet and the
bytes left. -/
def readHandshakeMsg {α : Type} (C : Crypto K) (fuel : ℕ) (ty : Ty) (ofVal : Val → α)
    (decodePlain : Bytes → Option α) (plainSize : ℕ) (prv : K) (r : Bytes) :
    Option (Except HandshakeError (α × Bytes × Bytes)) :=
  if r.length < plainSize then some (.error .unexpectedEOF)
  else
    let buf := r.take plainSize
    match C.decrypt prv buf [] with
    | some dec => (decodePlain dec).map fun msg => .ok (msg, buf, r.drop plainSize)
    | none =>
      let pfx := buf.take 2
      let size := uint16 pfx
      if size < plainSize then some (.error (.sizeUnderflow plainSize))
      else
        let more := size - plainSize + 2
        if (r.drop plainSize).length < more then some (.error .unexpectedEOF)
        else
          let buf := r.take (plainSize + more)
          match C.decrypt prv (buf.drop 2) pfx with
          | none => some (.error .ecies)
          | some dec =>
            match decode fuel ty (Stream.new dec) with
            | (.ok v, _) => some (.ok (ofVal v, buf, r.drop (plainSize + more)))
            | (.error e, _) => some (.error (.rlp e))

/-! ## The two parties -/

/-- The connection secrets; a MAC state is the bytes written into its Keccak-256 hash. -/
structure Secrets where
  remoteID : Pubkey
  aes : Bytes
  mac : Bytes
  egressMAC : Bytes
  ingressMAC : Bytes
  deriving DecidableEq

/-- `encHandshake`. Both roles take `remotePub` from `remoteID`, so it is not kept apart;
`remoteRandomPub` is nil when `importPublicKey` failed. -/
structure EncHandshake (K : Type) where
  initiator : Bool
  remoteID : Pubkey
  initNonce : Bytes
  respNonce : Bytes
  randomPrivKey : K
  remoteRandomPub : Option Pubkey

/-- What a party draws at random: its ephemeral key, its nonce, the randomness `ecies.Encrypt`
draws when it seals, and the padding length `mrand.Intn(200)` of `sealEIP8`. -/
structure Coins (K : Type) where
  randomKey : K
  nonce : FixedBytes shaLen
  sealRand : Bytes
  pad : ℕ

/-- `encHandshake.secrets`: `GenerateShared` dereferences a nil remote key and panics. -/
def EncHandshake.secrets (C : Crypto K) (h : EncHandshake K) (auth authResp : Bytes) :
    Option Secrets :=
  match h.remoteRandomPub with
  | none => none
  | some rpub =>
    let ecdheSecret := C.generateShared h.randomPrivKey rpub
    let sharedSecret := C.keccak256 (ecdheSecret ++ C.keccak256 (h.respNonce ++ h.initNonce))
    let aesSecret := C.keccak256 (ecdheSecret ++ sharedSecret)
    let mac := C.keccak256 (ecdheSecret ++ aesSecret)
    match xor mac h.respNonce, xor mac h.initNonce with
    | some x1, some x2 =>
      let mac1 := x1 ++ auth
      let mac2 := x2 ++ authResp
      some ⟨h.remoteID, aesSecret, mac, if h.initiator then mac1 else mac2,
        if h.initiator then mac2 else mac1⟩
    | _, _ => none

/-- `makeAuthMsg`: the initiator signs its static shared secret xor its nonce with its
ephemeral key. -/
def makeAuthMsg (C : Crypto K) (prv : K) (remoteID : Pubkey) (c : Coins K) :
    Option (Except HandshakeError (EncHandshake K × AuthMsgV4)) :=
  if C.onCurve remoteID = false then some (.error .badRemoteID)
  else
    let token := C.generateShared prv remoteID
    match xor token c.nonce.bytes with
    | none => none
    | some signed =>
      some (.ok (⟨true, remoteID, c.nonce.bytes, [], c.randomKey, none⟩,
        ⟨false, fill sigLen (C.sign signed c.randomKey), fill pubLen (C.pubkey prv).bytes, c.nonce,
          4, [], []⟩))

/-- `initiatorEncHandshake` reading `conn`: the bytes it writes and its result. -/
def initiatorEncHandshake (C : Crypto K) (fuel : ℕ) (prv : K) (remoteID : Pubkey)
    (ourRand : Bytes) (c : Coins K) (conn : Bytes) :
    Bytes × Option (Except HandshakeError (Secrets × Bytes)) :=
  match makeAuthMsg C prv remoteID c with
  -- `authMsg.Rand = append(authMsg.Rand, ourRand...)` runs before the error check, on a nil
  -- message
  | none | some (.error _) => ([], none)
  | some (.ok (h, authMsg)) =>
    let authMsg := { authMsg with rand := authMsg.rand ++ ourRand }
    let authPacket :=
      sealEIP8 C (encodeToBytes authMsgTy authMsg.toVal) remoteID c.sealRand c.pad
    (authPacket,
      match readHandshakeMsg C fuel authRespTy AuthRespV4.ofVal AuthRespV4.decodePlain
          encAuthRespLen prv conn with
      | none => none
      | some (.error e) => some (.error e)
      | some (.ok (authRespMsg, authRespPacket, _)) =>
        -- `handleAuthResp`
        match importPublicKey C authRespMsg.randomPubkey.bytes with
        | .error e => some (.error e)
        | .ok rpub =>
          let h := { h with respNonce := authRespMsg.nonce.bytes, remoteRandomPub := some rpub }
          (h.secrets C authPacket authRespPacket).map fun s => .ok (s, authRespMsg.rand))

/-- `handleAuthMsg`: the receiver recovers the initiator's ephemeral key from the signature. -/
def handleAuthMsg (C : Crypto K) (msg : AuthMsgV4) (prv : K) (c : Coins K) :
    Option (Except HandshakeError (EncHandshake K)) :=
  if C.onCurve msg.initiatorPubkey = false then some (.error .badRemoteID)
  else
    let token := C.generateShared prv msg.initiatorPubkey
    match xor token msg.nonce.bytes with
    | none => none
    | some signedMsg =>
      match C.recoverPubkey signedMsg msg.signature.bytes with
      | none => some (.error .recoverPubkey)
      | some remoteRandomPub =>
        -- the error of `importPublicKey` is dropped, leaving a nil key
        some (.ok ⟨false, msg.initiatorPubkey, msg.nonce.bytes, [], c.randomKey,
          (importPublicKey C remoteRandomPub).toOption⟩)

/-- `makeAuthResp`: the receiver's nonce and ephemeral key. -/
def makeAuthResp (C : Crypto K) (h : EncHandshake K) (c : Coins K) :
    EncHandshake K × AuthRespV4 :=
  ({ h with respNonce := c.nonce.bytes }, ⟨C.pubkey h.randomPrivKey, c.nonce, 4, [], []⟩)

/-- `receiverEncHandshake` reading `conn`: the bytes it writes and its result. It answers in
the format the auth message came in. -/
def receiverEncHandshake (C : Crypto K) (fuel : ℕ) (prv : K) (ourRand : Bytes) (c : Coins K)
    (conn : Bytes) : Bytes × Option (Except HandshakeError (Secrets × Bytes)) :=
  match readHandshakeMsg C fuel authMsgTy AuthMsgV4.ofVal AuthMsgV4.decodePlain encAuthMsgLen
      prv conn with
  | none => ([], none)
  | some (.error e) => ([], some (.error e))
  | some (.ok (authMsg, authPacket, _)) =>
    let t := authMsg.rand
    match handleAuthMsg C authMsg prv c with
    | none => ([], none)
    | some (.error e) => ([], some (.error e))
    | some (.ok h) =>
      let (h, authRespMsg) := makeAuthResp C h c
      let authRespMsg := { authRespMsg with rand := authRespMsg.rand ++ ourRand }
      let authRespPacket :=
        if authMsg.gotPlain then authRespMsg.sealPlain C h.remoteID c.sealRand
        else sealEIP8 C (encodeToBytes authRespTy authRespMsg.toVal) h.remoteID c.sealRand c.pad
      (authRespPacket, (h.secrets C authPacket authRespPacket).map fun s => .ok (s, t))

/-- One run of the two parties over a reliable pipe. -/
structure Run where
  authPacket : Bytes
  authRespPacket : Bytes
  initiator : Option (Except HandshakeError (Secrets × Bytes))
  receiver : Option (Except HandshakeError (Secrets × Bytes))

/-- The receiver reads what the initiator wrote, and the initiator then reads the answer.
The initiator writes before it reads, so what it writes does not depend on what it will read
(`initiatorEncHandshake_fst`). -/
def pipe (initiator receiver : Bytes → Bytes × Option (Except HandshakeError (Secrets × Bytes))) :
    Run :=
  let authPacket := (initiator []).1
  let answer := receiver authPacket
  ⟨authPacket, answer.1, (initiator answer.1).2, answer.2⟩

/-- `initiatorEncHandshake` dialling the node `prvR` against `receiverEncHandshake` on it. -/
def handshake (C : Crypto K) (fuel : ℕ) (prvI prvR : K) (randI randR : Bytes)
    (cI cR : Coins K) : Run :=
  pipe (initiatorEncHandshake C fuel prvI (C.pubkey prvR) randI cI)
    (receiverEncHandshake C fuel prvR randR cR)

/-! ## Packets -/

theorem xor_of_length_le {one other : Bytes} (h : one.length ≤ other.length) :
    xor one other = some (List.zipWith (· ^^^ ·) one other) := by
  simp [xor, Nat.not_lt.mpr h]

theorem uint16_putUint16 {v : ℕ} (h : v < 65536) : uint16 (putUint16 v) = v := by
  simp [uint16, putUint16]
  omega

section Packets

variable {C : Crypto K}

theorem decrypt_eq_none {k : K} {c s : Bytes} {b : UInt8} (hC : C.Lawful)
    (hc : c.head? = some b) (hb : b ≠ 4) : C.decrypt k c s = none := by
  cases hd : C.decrypt k c s with
  | none => rfl
  | some m =>
    have := hC.head_of_decrypt k c s m hd
    rw [hc, Option.some.injEq] at this
    exact absurd this hb

theorem readHandshakeMsg_sealEIP8 {α : Type} (hC : C.Lawful) {fuel : ℕ} {ty : Ty}
    {ofVal : Val → α} {decodePlain : Bytes → Option α} {plainSize : ℕ} {prv : K}
    {enc r : Bytes} {pad : ℕ} {v : Val} (more : Bytes) (h2 : 2 ≤ plainSize)
    (hlo : plainSize ≤ enc.length + (pad + 100) + eciesOverhead)
    (hhi : enc.length + (pad + 100) + eciesOverhead < 1024)
    (hdec : ∃ s', decode fuel ty (Stream.new (enc ++ List.replicate (pad + 100) 0)) = (.ok v, s')) :
    readHandshakeMsg C fuel ty ofVal decodePlain plainSize prv
        (sealEIP8 C enc (C.pubkey prv) r pad ++ more) =
      some (.ok (ofVal v, sealEIP8 C enc (C.pubkey prv) r pad, more)) := by
  obtain ⟨s', hd⟩ := hdec
  generalize hbuf : enc ++ List.replicate (pad + 100) 0 = buf at hd
  have hsize : buf.length + eciesOverhead = enc.length + (pad + 100) + eciesOverhead := by
    simp [← hbuf]
  generalize hsz : enc.length + (pad + 100) + eciesOverhead = size at hlo hhi hsize
  have hpkt : sealEIP8 C enc (C.pubkey prv) r pad =
      putUint16 size ++ C.encrypt (C.pubkey prv) r buf (putUint16 size) := by
    simp only [sealEIP8, hbuf, hsize]
  generalize hct : C.encrypt (C.pubkey prv) r buf (putUint16 size) = ct at hpkt
  have hlen : ct.length = size := by
    rw [← hct, hC.length_encrypt, hsize]
  rw [hpkt]
  have hlen' : (putUint16 size ++ ct).length = size + 2 := by
    simp [putUint16, hlen]
  have hplain : C.decrypt prv ((putUint16 size ++ ct ++ more).take plainSize) [] = none := by
    obtain ⟨k, rfl⟩ : ∃ k, plainSize = k + 1 := ⟨plainSize - 1, by omega⟩
    refine decrypt_eq_none hC (b := ((size / 256) % 256).toUInt8) (by simp [putUint16]) ?_
    intro h4
    have := congrArg UInt8.toNat h4
    simp at this
    omega
  have hpfx : ((putUint16 size ++ ct ++ more).take plainSize).take 2 = putUint16 size := by
    rw [List.take_take, Nat.min_eq_left h2, List.append_assoc, List.take_left']
    rfl
  have htake : (putUint16 size ++ ct ++ more).take (plainSize + (size - plainSize + 2)) =
      putUint16 size ++ ct := by
    rw [show plainSize + (size - plainSize + 2) = (putUint16 size ++ ct).length by omega]
    exact List.take_left' rfl
  have hdrop : (putUint16 size ++ ct ++ more).drop (plainSize + (size - plainSize + 2)) =
      more := by
    rw [show plainSize + (size - plainSize + 2) = (putUint16 size ++ ct).length by omega]
    exact List.drop_left' rfl
  have hmore : ¬ ((putUint16 size ++ ct ++ more).drop plainSize).length <
      size - plainSize + 2 := by
    simp only [List.length_drop, List.length_append, hlen']
    simp [putUint16] at hlen'
    omega
  have hopen : C.decrypt prv ((putUint16 size ++ ct).drop 2) (putUint16 size) = some buf := by
    rw [show (putUint16 size ++ ct).drop 2 = ct by simp [putUint16], ← hct, hC.decrypt_encrypt]
  unfold readHandshakeMsg
  rw [if_neg (by simp only [List.length_append] at hlen' ⊢; omega)]
  dsimp only
  rw [hplain]
  dsimp only
  rw [hpfx, uint16_putUint16 (by omega), if_neg (by omega), if_neg hmore, htake, hopen]
  dsimp only
  rw [hd]
  dsimp only
  rw [hdrop]

end Packets

/-! ## The messages' RLP form -/

theorem AuthMsgV4.ofVal_toVal (m : AuthMsgV4) :
    AuthMsgV4.ofVal m.toVal = { m with gotPlain := false } := by
  simp [AuthMsgV4.ofVal, AuthMsgV4.toVal]

theorem AuthRespV4.ofVal_toVal (m : AuthRespV4) : AuthRespV4.ofVal m.toVal = m := by
  simp [AuthRespV4.ofVal, AuthRespV4.toVal]

theorem encodeToBytes_authMsg (m : AuthMsgV4) :
    encodeToBytes authMsgTy m.toVal =
      encList (encString m.signature.bytes ++ (encString m.initiatorPubkey.bytes ++
        (encString m.nonce.bytes ++ (encUint m.version ++ (encString m.rand ++
          (encVals .iface m.rest ++ [])))))) := by
  rw [encodeToBytes_eq]
  simp [authMsgTy, AuthMsgV4.toVal, encVal, encFields]

theorem encodeToBytes_authResp (m : AuthRespV4) :
    encodeToBytes authRespTy m.toVal =
      encList (encString m.randomPubkey.bytes ++ (encString m.nonce.bytes ++
        (encUint m.version ++ (encString m.rand ++ (encVals .iface m.rest ++ []))))) := by
  rw [encodeToBytes_eq]
  simp [authRespTy, AuthRespV4.toVal, encVal, encFields]

theorem length_encodeToBytes_authMsg {m : AuthMsgV4} (hrest : m.rest = []) (hv : m.version = 4)
    (hr : m.rand.length ≤ 256) :
    161 < (encodeToBytes authMsgTy m.toVal).length ∧
      (encodeToBytes authMsgTy m.toVal).length ≤ m.rand.length + 207 := by
  have hp : m.signature.bytes.length = 65 := m.signature.length_eq
  have hq : m.initiatorPubkey.bytes.length = 64 := m.initiatorPubkey.length_eq
  have hn : m.nonce.bytes.length = 32 := m.nonce.length_eq
  have h1 := length_encString_bounds (b := m.signature.bytes) (by omega)
  have h2 := length_encString_bounds (b := m.initiatorPubkey.bytes) (by omega)
  have h3 := length_encString_bounds (b := m.nonce.bytes) (by omega)
  have h4 := length_encString_bounds (b := m.rand) (by omega)
  rw [encodeToBytes_authMsg, hrest, hv]
  have hl := length_encList_bounds (p := encString m.signature.bytes ++
    (encString m.initiatorPubkey.bytes ++ (encString m.nonce.bytes ++ (encUint 4 ++
      (encString m.rand ++ (encVals .iface [] ++ [])))))) (by
        simp only [List.length_append]
        simp [encVals, encUint]
        omega)
  simp only [List.length_append] at hl ⊢
  simp only [encVals, encUint, List.length_nil] at hl ⊢
  simp at hl ⊢
  omega

theorem length_encodeToBytes_authResp {m : AuthRespV4} (hrest : m.rest = []) (hv : m.version = 4)
    (hr : m.rand.length ≤ 256) :
    96 < (encodeToBytes authRespTy m.toVal).length ∧
      (encodeToBytes authRespTy m.toVal).length ≤ m.rand.length + 133 := by
  have hq : m.randomPubkey.bytes.length = 64 := m.randomPubkey.length_eq
  have hn : m.nonce.bytes.length = 32 := m.nonce.length_eq
  have h1 := length_encString_bounds (b := m.randomPubkey.bytes) (by omega)
  have h2 := length_encString_bounds (b := m.nonce.bytes) (by omega)
  have h4 := length_encString_bounds (b := m.rand) (by omega)
  rw [encodeToBytes_authResp, hrest, hv]
  have hl := length_encList_bounds (p := encString m.randomPubkey.bytes ++
    (encString m.nonce.bytes ++ (encUint 4 ++ (encString m.rand ++ (encVals .iface [] ++ [])))))
      (by
        simp only [List.length_append]
        simp [encVals, encUint]
        omega)
  simp only [List.length_append] at hl ⊢
  simp only [encVals, encUint, List.length_nil] at hl ⊢
  simp at hl ⊢
  omega

theorem decode_authMsg {fuel : ℕ} (hf : 3 ≤ fuel) {m : AuthMsgV4} (hrest : m.rest = [])
    (hv : m.version = 4) (hr : m.rand.length ≤ 256) (pad : Bytes) :
    ∃ s', decode fuel authMsgTy (Stream.new (encodeToBytes authMsgTy m.toVal ++ pad)) =
      (.ok m.toVal, s') := by
  have hflat : List.Forall₂ Flat [.byteArray sigLen, .byteArray pubLen, .byteArray shaLen,
      .uint 64, .byteSlice] [.bytes m.signature.bytes, .bytes m.initiatorPubkey.bytes,
      .bytes m.nonce.bytes, .uint m.version, .bytes m.rand] := by
    simp only [List.forall₂_cons, List.Forall₂.nil, and_true]
    exact ⟨⟨m.signature.length_eq, by decide, by decide⟩,
      ⟨m.initiatorPubkey.length_eq, by decide, by decide⟩,
      ⟨m.nonce.length_eq, by decide, by decide⟩, by simp [Flat, hv],
      show m.rand.length < 2 ^ 64 by omega⟩
  have hval : m.toVal = .list ([Val.bytes m.signature.bytes, .bytes m.initiatorPubkey.bytes,
      .bytes m.nonce.bytes, .uint m.version, .bytes m.rand] ++ [Val.list []]) := by
    simp [AuthMsgV4.toVal, hrest]
  have hb := (length_encodeToBytes_authMsg hrest hv hr).2
  rw [authMsgTy, hval, encodeToBytes_eq] at hb ⊢
  refine decode_new_flatStruct hflat hf ?_ pad
  simp only [encVal, encList, List.length_append, length_puthead] at hb
  omega

theorem decode_authResp {fuel : ℕ} (hf : 3 ≤ fuel) {m : AuthRespV4} (hrest : m.rest = [])
    (hv : m.version = 4) (hr : m.rand.length ≤ 256) (pad : Bytes) :
    ∃ s', decode fuel authRespTy (Stream.new (encodeToBytes authRespTy m.toVal ++ pad)) =
      (.ok m.toVal, s') := by
  have hflat : List.Forall₂ Flat [.byteArray pubLen, .byteArray shaLen, .uint 64, .byteSlice]
      [.bytes m.randomPubkey.bytes, .bytes m.nonce.bytes, .uint m.version, .bytes m.rand] := by
    simp only [List.forall₂_cons, List.Forall₂.nil, and_true]
    exact ⟨⟨m.randomPubkey.length_eq, by decide, by decide⟩,
      ⟨m.nonce.length_eq, by decide, by decide⟩, by simp [Flat, hv],
      show m.rand.length < 2 ^ 64 by omega⟩
  have hval : m.toVal = .list ([Val.bytes m.randomPubkey.bytes, .bytes m.nonce.bytes,
      .uint m.version, .bytes m.rand] ++ [Val.list []]) := by
    simp [AuthRespV4.toVal, hrest]
  have hb := (length_encodeToBytes_authResp hrest hv hr).2
  rw [authRespTy, hval, encodeToBytes_eq] at hb ⊢
  refine decode_new_flatStruct hflat hf ?_ pad
  simp only [encVal, encList, List.length_append, length_puthead] at hb
  omega

/-! ## The honest parties -/

section Parties

variable {C : Crypto K}

/-- The auth message an honest initiator with key `prv` sends to `remoteID`: what
`makeAuthMsg` builds, with `ourRand` appended as `Rand`. -/
def authMsgOf (C : Crypto K) (prv : K) (remoteID : Pubkey) (ourRand : Bytes) (c : Coins K) :
    AuthMsgV4 :=
  ⟨false, fill sigLen (C.sign (List.zipWith (· ^^^ ·) (C.generateShared prv remoteID)
    c.nonce.bytes) c.randomKey), C.pubkey prv, c.nonce, 4, ourRand, []⟩

/-- The auth response an honest receiver sends: what `makeAuthResp` builds, with `ourRand`. -/
def authRespOf (C : Crypto K) (c : Coins K) (ourRand : Bytes) : AuthRespV4 :=
  ⟨C.pubkey c.randomKey, c.nonce, 4, ourRand, []⟩

theorem importPublicKey_pubkey (hC : C.Lawful) (k : K) :
    importPublicKey C (C.pubkey k).bytes = .ok (C.pubkey k) := by
  have hl : (C.pubkey k).bytes.length = 64 := (C.pubkey k).length_eq
  simp [importPublicKey, hl, hC.onCurve_pubkey]

theorem importPublicKey_recovered (hC : C.Lawful) (k : K) :
    importPublicKey C (4 :: (C.pubkey k).bytes) = .ok (C.pubkey k) := by
  have hl : (C.pubkey k).bytes.length = 64 := (C.pubkey k).length_eq
  simp [importPublicKey, hl, hC.onCurve_pubkey]

theorem makeAuthMsg_eq (hC : C.Lawful) (prv : K) {remoteID : Pubkey}
    (hrid : C.onCurve remoteID = true) (c : Coins K) :
    makeAuthMsg C prv remoteID c =
      some (.ok (⟨true, remoteID, c.nonce.bytes, [], c.randomKey, none⟩,
        authMsgOf C prv remoteID [] c)) := by
  have hx : xor (C.generateShared prv remoteID) c.nonce.bytes =
      some (List.zipWith (· ^^^ ·) (C.generateShared prv remoteID) c.nonce.bytes) :=
    xor_of_length_le (by rw [hC.length_generateShared, c.nonce.length_eq])
  simp [makeAuthMsg, hrid, hx, authMsgOf]

theorem initiatorEncHandshake_fst (hC : C.Lawful) (fuel : ℕ) (prv : K) {remoteID : Pubkey}
    (hrid : C.onCurve remoteID = true) (ourRand : Bytes) (c : Coins K) (conn : Bytes) :
    (initiatorEncHandshake C fuel prv remoteID ourRand c conn).1 =
      sealEIP8 C (encodeToBytes authMsgTy (authMsgOf C prv remoteID ourRand c).toVal) remoteID
        c.sealRand c.pad := by
  simp [initiatorEncHandshake, makeAuthMsg_eq hC prv hrid c, authMsgOf]

theorem initiatorEncHandshake_snd (hC : C.Lawful) (fuel : ℕ) (prv : K) {remoteID : Pubkey}
    (hrid : C.onCurve remoteID = true) (ourRand : Bytes) (c : Coins K) {conn : Bytes}
    {resp : AuthRespV4} {authRespPacket rest : Bytes} {rpub : Pubkey}
    (hread : readHandshakeMsg C fuel authRespTy AuthRespV4.ofVal AuthRespV4.decodePlain
      encAuthRespLen prv conn = some (.ok (resp, authRespPacket, rest)))
    (himport : importPublicKey C resp.randomPubkey.bytes = .ok rpub) :
    (initiatorEncHandshake C fuel prv remoteID ourRand c conn).2 =
      ((⟨true, remoteID, c.nonce.bytes, resp.nonce.bytes, c.randomKey, some rpub⟩ :
        EncHandshake K).secrets C (initiatorEncHandshake C fuel prv remoteID ourRand c conn).1
          authRespPacket).map fun s => .ok (s, resp.rand) := by
  simp [initiatorEncHandshake, makeAuthMsg_eq hC prv hrid c, hread, himport, authMsgOf]

theorem handleAuthMsg_eq (hC : C.Lawful) {msg : AuthMsgV4} {prvI prvR k : K} (c : Coins K)
    (hpub : msg.initiatorPubkey = C.pubkey prvI)
    (hsig : msg.signature.bytes = C.sign (List.zipWith (· ^^^ ·)
      (C.generateShared prvI (C.pubkey prvR)) msg.nonce.bytes) k) :
    handleAuthMsg C msg prvR c =
      some (.ok ⟨false, C.pubkey prvI, msg.nonce.bytes, [], c.randomKey, some (C.pubkey k)⟩) := by
  have hx : xor (C.generateShared prvR (C.pubkey prvI)) msg.nonce.bytes =
      some (List.zipWith (· ^^^ ·) (C.generateShared prvI (C.pubkey prvR)) msg.nonce.bytes) := by
    rw [hC.generateShared_comm prvR prvI]
    exact xor_of_length_le (by rw [hC.length_generateShared, msg.nonce.length_eq])
  simp [handleAuthMsg, hpub, hC.onCurve_pubkey, hx, hsig, hC.recoverPubkey_sign,
    importPublicKey_recovered hC, Except.toOption]

theorem receiverEncHandshake_eq (fuel : ℕ) (prv : K) (ourRand : Bytes) (c : Coins K)
    {conn : Bytes} {msg : AuthMsgV4} {authPacket rest : Bytes} {h : EncHandshake K}
    (hread : readHandshakeMsg C fuel authMsgTy AuthMsgV4.ofVal AuthMsgV4.decodePlain
      encAuthMsgLen prv conn = some (.ok (msg, authPacket, rest)))
    (hhandle : handleAuthMsg C msg prv c = some (.ok h)) :
    let authRespPacket :=
      if msg.gotPlain then (authRespOf C ⟨h.randomPrivKey, c.nonce, c.sealRand, c.pad⟩ ourRand).sealPlain
        C h.remoteID c.sealRand
      else sealEIP8 C (encodeToBytes authRespTy
        (authRespOf C ⟨h.randomPrivKey, c.nonce, c.sealRand, c.pad⟩ ourRand).toVal) h.remoteID
        c.sealRand c.pad
    receiverEncHandshake C fuel prv ourRand c conn =
      (authRespPacket, ({ h with respNonce := c.nonce.bytes }.secrets C authPacket
        authRespPacket).map fun s => .ok (s, msg.rand)) := by
  simp [receiverEncHandshake, hread, hhandle, makeAuthResp, authRespOf]

/-- Two handshake states that mirror each other, one per role, derive agreeing secrets:
the same AES and MAC keys, and each side's egress MAC is the other's ingress MAC. -/
theorem secrets_agree (hC : C.Lawful) (rid iid : Pubkey) (ni nr : FixedBytes shaLen) (kI kR : K)
    (auth authResp : Bytes) :
    ∃ sI sR, (⟨true, rid, ni.bytes, nr.bytes, kI, some (C.pubkey kR)⟩ : EncHandshake K).secrets
        C auth authResp = some sI ∧
      (⟨false, iid, ni.bytes, nr.bytes, kR, some (C.pubkey kI)⟩ : EncHandshake K).secrets
        C auth authResp = some sR ∧
      sI.remoteID = rid ∧ sR.remoteID = iid ∧ sI.aes = sR.aes ∧ sI.mac = sR.mac ∧
      sI.egressMAC = sR.ingressMAC ∧ sI.ingressMAC = sR.egressMAC := by
  have hecdhe := hC.generateShared_comm kR kI
  have hx : ∀ (mac : Bytes) (n : FixedBytes shaLen), mac.length = shaLen →
      xor mac n.bytes = some (List.zipWith (· ^^^ ·) mac n.bytes) :=
    fun mac n hm => xor_of_length_le (by rw [hm, n.length_eq])
  simp only [EncHandshake.secrets, hecdhe, hx _ ni (hC.length_keccak256 _),
    hx _ nr (hC.length_keccak256 _)]
  exact ⟨_, _, rfl, rfl, rfl, rfl, rfl, rfl, rfl, rfl⟩

end Parties

/-! ## Agreement -/

section Agreement

variable {C : Crypto K}

theorem receiver_reads_auth (hC : C.Lawful) {fuel : ℕ} (hf : 3 ≤ fuel) (prvI prvR : K)
    (randI : Bytes) (cI cR : Coins K) (hpI : cI.pad < 200) (hrI : randI.length ≤ 256) :
    readHandshakeMsg C fuel authMsgTy AuthMsgV4.ofVal AuthMsgV4.decodePlain encAuthMsgLen prvR
        (sealEIP8 C (encodeToBytes authMsgTy (authMsgOf C prvI (C.pubkey prvR) randI cI).toVal)
          (C.pubkey prvR) cI.sealRand cI.pad) =
      some (.ok (authMsgOf C prvI (C.pubkey prvR) randI cI, sealEIP8 C
        (encodeToBytes authMsgTy (authMsgOf C prvI (C.pubkey prvR) randI cI).toVal)
        (C.pubkey prvR) cI.sealRand cI.pad, [])) ∧
    handleAuthMsg C (authMsgOf C prvI (C.pubkey prvR) randI cI) prvR cR =
      some (.ok ⟨false, C.pubkey prvI, cI.nonce.bytes, [], cR.randomKey,
        some (C.pubkey cI.randomKey)⟩) := by
  have hb : 161 < (encodeToBytes authMsgTy (authMsgOf C prvI (C.pubkey prvR) randI cI).toVal).length ∧
      (encodeToBytes authMsgTy (authMsgOf C prvI (C.pubkey prvR) randI cI).toVal).length ≤
        randI.length + 207 :=
    length_encodeToBytes_authMsg (m := authMsgOf C prvI (C.pubkey prvR) randI cI) rfl rfl hrI
  have hread : readHandshakeMsg C fuel authMsgTy AuthMsgV4.ofVal AuthMsgV4.decodePlain
      encAuthMsgLen prvR (sealEIP8 C (encodeToBytes authMsgTy
        (authMsgOf C prvI (C.pubkey prvR) randI cI).toVal) (C.pubkey prvR) cI.sealRand cI.pad ++
          []) =
      some (.ok (AuthMsgV4.ofVal (authMsgOf C prvI (C.pubkey prvR) randI cI).toVal, sealEIP8 C
        (encodeToBytes authMsgTy (authMsgOf C prvI (C.pubkey prvR) randI cI).toVal)
        (C.pubkey prvR) cI.sealRand cI.pad, [])) :=
    readHandshakeMsg_sealEIP8 hC [] (by decide)
      (by simp only [encAuthMsgLen, authMsgLen, eciesOverhead, sigLen, shaLen, pubLen]; omega)
      (by simp only [eciesOverhead]; omega) (decode_authMsg hf rfl rfl hrI _)
  rw [List.append_nil, AuthMsgV4.ofVal_toVal] at hread
  refine ⟨hread, handleAuthMsg_eq hC cR rfl ?_⟩
  exact fill_bytes (hC.length_sign _ _)

theorem initiator_reads_authResp (hC : C.Lawful) {fuel : ℕ} (hf : 3 ≤ fuel) (prvI : K)
    (randR : Bytes) (cR : Coins K) (hpR : cR.pad < 200) (hrR : randR.length ≤ 256) :
    readHandshakeMsg C fuel authRespTy AuthRespV4.ofVal AuthRespV4.decodePlain encAuthRespLen
        prvI (sealEIP8 C (encodeToBytes authRespTy (authRespOf C cR randR).toVal) (C.pubkey prvI)
          cR.sealRand cR.pad) =
      some (.ok (authRespOf C cR randR, sealEIP8 C (encodeToBytes authRespTy
        (authRespOf C cR randR).toVal) (C.pubkey prvI) cR.sealRand cR.pad, [])) := by
  have hb : 96 < (encodeToBytes authRespTy (authRespOf C cR randR).toVal).length ∧
      (encodeToBytes authRespTy (authRespOf C cR randR).toVal).length ≤ randR.length + 133 :=
    length_encodeToBytes_authResp (m := authRespOf C cR randR) rfl rfl hrR
  have hread : readHandshakeMsg C fuel authRespTy AuthRespV4.ofVal AuthRespV4.decodePlain
      encAuthRespLen prvI (sealEIP8 C (encodeToBytes authRespTy (authRespOf C cR randR).toVal)
        (C.pubkey prvI) cR.sealRand cR.pad ++ []) =
      some (.ok (AuthRespV4.ofVal (authRespOf C cR randR).toVal, sealEIP8 C (encodeToBytes
        authRespTy (authRespOf C cR randR).toVal) (C.pubkey prvI) cR.sealRand cR.pad, [])) :=
    readHandshakeMsg_sealEIP8 hC [] (by decide)
      (by simp only [encAuthRespLen, authRespLen, eciesOverhead, shaLen, pubLen]; omega)
      (by simp only [eciesOverhead]; omega) (decode_authResp hf rfl rfl hrR _)
  rwa [List.append_nil, AuthRespV4.ofVal_toVal] at hread

/-- The RLPx handshake between an honest initiator and an honest receiver over a reliable
pipe: both return without error, their secrets agree, each side's remote ID is the other's
node ID, and each side's token is the other's `ourRand`. The auth message is always sent in
the EIP-8 format; the nonces must keep its size below 1024 bytes. -/
theorem handshake_agree (hC : C.Lawful) {fuel : ℕ} (hf : 3 ≤ fuel) (prvI prvR : K)
    (randI randR : Bytes) (cI cR : Coins K) (hpI : cI.pad < 200) (hpR : cR.pad < 200)
    (hrI : randI.length ≤ 256) (hrR : randR.length ≤ 256) :
    ∃ sI sR, (handshake C fuel prvI prvR randI randR cI cR).initiator = some (.ok (sI, randR)) ∧
      (handshake C fuel prvI prvR randI randR cI cR).receiver = some (.ok (sR, randI)) ∧
      sI.aes = sR.aes ∧ sI.mac = sR.mac ∧ sI.egressMAC = sR.ingressMAC ∧
      sI.ingressMAC = sR.egressMAC ∧ sI.remoteID = C.pubkey prvR ∧
      sR.remoteID = C.pubkey prvI := by
  have hrid := hC.onCurve_pubkey prvR
  obtain ⟨hreadR, hhandle⟩ := receiver_reads_auth hC hf prvI prvR randI cI cR hpI hrI
  have hreadI := initiator_reads_authResp hC hf prvI randR cR hpR hrR
  set authPacket := sealEIP8 C (encodeToBytes authMsgTy
    (authMsgOf C prvI (C.pubkey prvR) randI cI).toVal) (C.pubkey prvR) cI.sealRand cI.pad
  set authRespPacket := sealEIP8 C (encodeToBytes authRespTy (authRespOf C cR randR).toVal)
    (C.pubkey prvI) cR.sealRand cR.pad
  have hwrite : ∀ conn, (initiatorEncHandshake C fuel prvI (C.pubkey prvR) randI cI conn).1 =
      authPacket := initiatorEncHandshake_fst hC fuel prvI hrid randI cI
  have hrecv : receiverEncHandshake C fuel prvR randR cR authPacket =
      (authRespPacket, ((⟨false, C.pubkey prvI, cI.nonce.bytes, cR.nonce.bytes, cR.randomKey,
        some (C.pubkey cI.randomKey)⟩ : EncHandshake K).secrets C authPacket
          authRespPacket).map fun s => .ok (s, randI)) :=
    (receiverEncHandshake_eq fuel prvR randR cR hreadR hhandle).trans rfl
  have hinit : (initiatorEncHandshake C fuel prvI (C.pubkey prvR) randI cI authRespPacket).2 =
      ((⟨true, C.pubkey prvR, cI.nonce.bytes, cR.nonce.bytes, cI.randomKey,
        some (C.pubkey cR.randomKey)⟩ : EncHandshake K).secrets C authPacket
          authRespPacket).map fun s => .ok (s, randR) := by
    rw [initiatorEncHandshake_snd hC fuel prvI hrid randI cI hreadI
      (importPublicKey_pubkey hC cR.randomKey), hwrite]
    rfl
  obtain ⟨sI, sR, hsI, hsR, hidI, hidR, haes, hmac, hegress, hingress⟩ :=
    secrets_agree hC (C.pubkey prvR) (C.pubkey prvI) cI.nonce cR.nonce cI.randomKey cR.randomKey
      authPacket authRespPacket
  refine ⟨sI, sR, ?_, ?_, haes, hmac, hegress, hingress, hidI, hidR⟩
  · simp only [handshake, pipe, hwrite, hrecv, hinit, hsI, Option.map_some]
  · simp only [handshake, pipe, hwrite, hrecv, hsR, Option.map_some]

/-- The agreement at the toy primitives, with one-byte tokens and the smallest padding. -/
theorem handshake_agree_toy :
    let cI : Coins UInt8 := ⟨3, fill shaLen [5], [], 0⟩
    let cR : Coins UInt8 := ⟨4, fill shaLen [6], [], 0⟩
    ∃ sI sR, (handshake toyCrypto 3 1 2 [7] [9] cI cR).initiator = some (.ok (sI, [9])) ∧
      (handshake toyCrypto 3 1 2 [7] [9] cI cR).receiver = some (.ok (sR, [7])) ∧
      sI.aes = sR.aes ∧ sI.mac = sR.mac ∧ sI.egressMAC = sR.ingressMAC ∧
      sI.ingressMAC = sR.egressMAC ∧ sI.remoteID = toyCrypto.pubkey 2 ∧
      sR.remoteID = toyCrypto.pubkey 1 := by
  intro cI cR
  exact handshake_agree toyCrypto_lawful (le_refl 3) 1 2 [7] [9] cI cR (by decide) (by decide)
    (by decide) (by decide)

end Agreement

/-! ## The plain format -/

section Plain

variable {C : Crypto K}

theorem AuthMsgV4.decodePlain_layout (m : AuthMsgV4) {kk : Bytes} (hk : kk.length = shaLen) :
    AuthMsgV4.decodePlain (m.signature.bytes ++ kk ++ m.initiatorPubkey.bytes ++ m.nonce.bytes ++
      [0]) = some ⟨true, m.signature, m.initiatorPubkey, m.nonce, 4, [], []⟩ := by
  have hs : m.signature.bytes.length = 65 := m.signature.length_eq
  have hp : m.initiatorPubkey.bytes.length = 64 := m.initiatorPubkey.length_eq
  have hn : m.nonce.bytes.length = 32 := m.nonce.length_eq
  have hk' : kk.length = 32 := hk
  have hin : m.signature.bytes ++ kk ++ m.initiatorPubkey.bytes ++ m.nonce.bytes ++ [0] =
      m.signature.bytes ++ kk ++ (m.initiatorPubkey.bytes ++ (m.nonce.bytes ++ [0])) := by
    simp only [List.append_assoc]
  have hlen : (m.signature.bytes ++ kk ++ (m.initiatorPubkey.bytes ++ (m.nonce.bytes ++ [0]))).length
      = 194 := by
    simp only [List.length_append, hs, hk', hp, hn, List.length_singleton]
  have h97 : (m.signature.bytes ++ kk ++ (m.initiatorPubkey.bytes ++ (m.nonce.bytes ++
      [0]))).drop 97 = m.initiatorPubkey.bytes ++ (m.nonce.bytes ++ [0]) :=
    List.drop_left' (by simp [hs, hk'])
  unfold AuthMsgV4.decodePlain
  rw [hin, hlen, show min sigLen 194 + shaLen = 97 from rfl, if_neg (by decide), h97]
  dsimp only
  have hlen' : (m.initiatorPubkey.bytes ++ (m.nonce.bytes ++ [0])).length = 97 := by
    simp [hp, hn]
  rw [hlen', show min pubLen 97 = 64 from rfl, List.drop_left' hp, List.append_assoc,
    fill_append, fill_append, fill_append]

theorem readHandshakeMsg_plain {α : Type} {fuel : ℕ} {ty : Ty} {ofVal : Val → α}
    {decodePlain : Bytes → Option α} {plainSize : ℕ} {prv : K} {r dec : Bytes} {msg : α}
    (hr : plainSize ≤ r.length) (hdec : C.decrypt prv (r.take plainSize) [] = some dec)
    (hplain : decodePlain dec = some msg) :
    readHandshakeMsg C fuel ty ofVal decodePlain plainSize prv r =
      some (.ok (msg, r.take plainSize, r.drop plainSize)) := by
  simp [readHandshakeMsg, Nat.not_lt.mpr hr, hdec, hplain]

theorem receiverEncHandshake_plain_token (hC : C.Lawful) (fuel : ℕ) (prvI prvR : K)
    (randI randR : Bytes) (cI cR : Coins K) :
    ∃ s, (receiverEncHandshake C fuel prvR randR cR
      ((authMsgOf C prvI (C.pubkey prvR) randI cI).sealPlain C (C.pubkey cI.randomKey)
        (C.pubkey prvR) cI.sealRand)).2 = some (.ok (s, [])) := by
  obtain ⟨m, hm⟩ : ∃ m, m = authMsgOf C prvI (C.pubkey prvR) randI cI := ⟨_, rfl⟩
  rw [← hm]
  have hs : m.signature.bytes.length = 65 := m.signature.length_eq
  have hp : m.initiatorPubkey.bytes.length = 64 := m.initiatorPubkey.length_eq
  have hn : m.nonce.bytes.length = 32 := m.nonce.length_eq
  have hlen : (m.sealPlain C (C.pubkey cI.randomKey) (C.pubkey prvR) cI.sealRand).length =
      encAuthMsgLen := by
    simp only [AuthMsgV4.sealPlain, hC.length_encrypt, List.length_append, hs, hp, hn,
      hC.length_keccak256, List.length_singleton, encAuthMsgLen, authMsgLen, eciesOverhead,
      sigLen, shaLen, pubLen]
  have hread : readHandshakeMsg C fuel authMsgTy AuthMsgV4.ofVal AuthMsgV4.decodePlain
      encAuthMsgLen prvR (m.sealPlain C (C.pubkey cI.randomKey) (C.pubkey prvR) cI.sealRand) =
      some (.ok (⟨true, m.signature, m.initiatorPubkey, m.nonce, 4, [], []⟩,
        m.sealPlain C (C.pubkey cI.randomKey) (C.pubkey prvR) cI.sealRand, [])) := by
    have h : readHandshakeMsg C fuel authMsgTy AuthMsgV4.ofVal AuthMsgV4.decodePlain
        encAuthMsgLen prvR (m.sealPlain C (C.pubkey cI.randomKey) (C.pubkey prvR) cI.sealRand) =
        some (.ok (⟨true, m.signature, m.initiatorPubkey, m.nonce, 4, [], []⟩,
          (m.sealPlain C (C.pubkey cI.randomKey) (C.pubkey prvR) cI.sealRand).take encAuthMsgLen,
          (m.sealPlain C (C.pubkey cI.randomKey) (C.pubkey prvR) cI.sealRand).drop
            encAuthMsgLen)) :=
      readHandshakeMsg_plain (le_of_eq hlen.symm)
        (by rw [← hlen, List.take_length]; exact hC.decrypt_encrypt prvR _ _ _)
        (AuthMsgV4.decodePlain_layout m (hC.length_keccak256 _))
    rw [← hlen, List.take_length, List.drop_length] at h
    rwa [hlen] at h
  have hsig : m.signature.bytes = C.sign (List.zipWith (· ^^^ ·)
      (C.generateShared prvI (C.pubkey prvR)) m.nonce.bytes) cI.randomKey := by
    rw [hm]
    exact fill_bytes (hC.length_sign _ _)
  have hpub : (⟨true, m.signature, m.initiatorPubkey, m.nonce, 4, [], []⟩ :
      AuthMsgV4).initiatorPubkey = C.pubkey prvI := by
    rw [hm]
    rfl
  have hhandle := handleAuthMsg_eq hC cR hpub hsig
  obtain ⟨-, sR, -, hsR, -⟩ := secrets_agree hC (C.pubkey prvR) (C.pubkey prvI) m.nonce cR.nonce
    cI.randomKey cR.randomKey (m.sealPlain C (C.pubkey cI.randomKey) (C.pubkey prvR) cI.sealRand)
    ((authRespOf C cR randR).sealPlain C (C.pubkey prvI) cR.sealRand)
  refine ⟨sR, ?_⟩
  rw [receiverEncHandshake_eq fuel prvR randR cR hread hhandle]
  simp only [if_true]
  exact congrArg (Option.map _) hsR

/-- At the toy primitives, a receiver that reads an initiator's auth message in the plain
format returns the empty token, not the initiator's nonce [7]. -/
theorem receiverEncHandshake_plain_token_toy :
    ∃ s, (receiverEncHandshake toyCrypto 3 2 [9] ⟨4, fill shaLen [6], [], 0⟩
      ((authMsgOf toyCrypto 1 (toyCrypto.pubkey 2) [7] ⟨3, fill shaLen [5], [], 0⟩).sealPlain
        toyCrypto (toyCrypto.pubkey 3) (toyCrypto.pubkey 2) [])).2 = some (.ok (s, [])) :=
  receiverEncHandshake_plain_token toyCrypto_lawful 3 1 2 [7] [9] ⟨3, fill shaLen [5], [], 0⟩
    ⟨4, fill shaLen [6], [], 0⟩

end Plain

end Sphinx.P2p
