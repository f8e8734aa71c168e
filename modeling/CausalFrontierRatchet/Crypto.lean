import CausalFrontierRatchet.BigEndian

/-!
The cryptographic layer.  BLAKE3, AEGIS-256, Ed25519 and X25519 are foreign code and enter as the
fields of one record, `Primitives`; everything the crate builds on them is defined here as it is
computed there: the length-prefixed stream a hasher absorbs, the labelled hash, key derivation and
MAC, nonces, and the attached form of the cipher with its tag behind the ciphertext.
-/

namespace CausalFrontierRatchet.Crypto

open BigEndian

/-- Any 32-byte value: a digest, a nonce or a symmetric key. -/
abbrev Secret := BitVec 256

/-- An Ed25519 public key, ordered as its bytes are. -/
abbrev SigPublic := BitVec 256

/-- An Ed25519 signature. -/
abbrev Signature := BitVec 512

/-- An X25519 public key. -/
abbrev DhPublic := BitVec 256

/-! Digests, labels and contexts are keys of maps.  Their orders are lawful at these widths. -/

instance transOrd_digest : Std.TransOrd (BitVec 256) := BitVec.instTransOrd

instance transOrd_label : Std.TransOrd (BitVec 64) := BitVec.instTransOrd

instance transOrd_context : Std.TransOrd (BitVec 128) := BitVec.instTransOrd

instance lawfulEqOrd_digest : Std.LawfulEqOrd (BitVec 256) := BitVec.instLawfulEqOrd

instance lawfulBEq_digest : LawfulBEq (BitVec 256) := inferInstance

/-- The foreign primitives.  `aegisSeal` and `aegisOpen` are the detached AEGIS-256 with a 32-byte
tag, the `Short` pair the same cipher with a 16-byte tag. -/
structure Primitives where
  blake3 : Bytes → BitVec 256
  blake3Keyed : Secret → Bytes → BitVec 256
  aegisSeal : Secret → BitVec 256 → Bytes → Bytes → Bytes × BitVec 256
  aegisOpen : Secret → BitVec 256 → Bytes → BitVec 256 → Bytes → Option Bytes
  aegisSealShort : Secret → BitVec 256 → Bytes → Bytes → Bytes × BitVec 128
  aegisOpenShort : Secret → BitVec 256 → Bytes → BitVec 128 → Bytes → Option Bytes
  ed25519Public : Secret → SigPublic
  ed25519Sign : Secret → Bytes → Signature
  ed25519Verify : SigPublic → Bytes → Signature → Bool
  x25519Public : Secret → DhPublic
  x25519Agree : Secret → DhPublic → Option Secret

/-- Width of an AEAD tag. -/
def TAG_LEN : ℕ := 32

/-- Width of the short AEAD tag that audio frames carry. -/
def TAG_LEN_SHORT : ℕ := 16

/-! ## Hash framing -/

/-- The bytes of a domain-separation label. -/
def label (s : String) : Bytes :=
  s.toUTF8.toList

/-- One absorbed field: its length in four bytes, then the field. -/
def field (data : Bytes) : Bytes :=
  beBytes 4 data.length ++ data

/-- Everything a hasher started under a label absorbs for a field list. -/
def absorbed (lab : Bytes) (fields : List Bytes) : Bytes :=
  field lab ++ fields.flatMap field

/-- The first `n` bits of a digest. -/
def leading (n : ℕ) (digest : BitVec 256) : BitVec n :=
  digest.extractLsb' (256 - n) n

variable (P : Primitives)

def hash (lab : String) (fields : List Bytes) : BitVec 256 :=
  P.blake3 (absorbed (label lab) fields)

def kdf (key : Secret) (lab : String) (ctx : List Bytes) : Secret :=
  P.blake3Keyed key (absorbed (label lab) ctx)

/-- The 16-byte MAC: the stream starts under the reserved label, with the caller's label as its
first field. -/
def mac (key : Secret) (lab : String) (fields : List Bytes) : BitVec 128 :=
  leading 128 (P.blake3Keyed key (absorbed (label "cfr/mac") (label lab :: fields)))

def nonce (fields : List Bytes) : BitVec 256 :=
  hash P "cfr/nonce" fields

/-! ## Attached cipher -/

def aeadSeal (key : Secret) (n : BitVec 256) (plaintext ad : Bytes) : Bytes :=
  let (ct, tag) := P.aegisSeal key n plaintext ad
  ct ++ bytesOf tag

def aeadOpen (key : Secret) (n : BitVec 256) (ciphertext ad : Bytes) : Option Bytes :=
  if ciphertext.length < TAG_LEN then none
  else
    let cut := ciphertext.length - TAG_LEN
    P.aegisOpen key n (ciphertext.take cut) (ofBytes 256 (ciphertext.drop cut)) ad

theorem aeadOpen_aeadSeal (key : Secret) (n : BitVec 256) (plaintext ad : Bytes)
    (key' : Secret) (n' : BitVec 256) (ad' : Bytes) :
    aeadOpen P key' n' (aeadSeal P key n plaintext ad) ad' =
      P.aegisOpen key' n' (P.aegisSeal key n plaintext ad).1 (P.aegisSeal key n plaintext ad).2
        ad' := by
  set sealed := P.aegisSeal key n plaintext ad with hsealed
  have hlen : (aeadSeal P key n plaintext ad).length = sealed.1.length + 32 := by
    simp [aeadSeal, ← hsealed]
  have hcut : (aeadSeal P key n plaintext ad).length - TAG_LEN = sealed.1.length := by
    rw [hlen, TAG_LEN]
    omega
  have hshort : ¬(aeadSeal P key n plaintext ad).length < TAG_LEN := by
    rw [hlen, TAG_LEN]
    omega
  have hparts : aeadSeal P key n plaintext ad = sealed.1 ++ bytesOf sealed.2 := by
    simp [aeadSeal, ← hsealed]
  rw [aeadOpen, if_neg hshort]
  simp only [hcut]
  rw [hparts, List.take_left, List.drop_left, ofBytes_bytesOf (by decide)]

/-! ## A concrete instance

Small arithmetic stand-ins, so that the model can be evaluated on concrete inputs. -/

/-- A multiplicative digest of a byte string. -/
def mix (bytes : Bytes) : ℕ :=
  bytes.foldl (fun acc b =>
    (acc + b.toNat + 1) * 0x9E3779B97F4A7C15F39CC0605CEDC8341082276BF3A27251F86C6A11D0C18E95 %
      (2 ^ 256 - 189)) 7

def toyTag (key : Secret) (n : BitVec 256) (plaintext ad : Bytes) : ℕ :=
  mix (bytesOf key ++ bytesOf n ++ field ad ++ plaintext)

/-- The cipher leaves the plaintext readable and authenticates it; a signing key is its own public
key; key agreement is exclusive or. -/
def toy : Primitives where
  blake3 bytes := BitVec.ofNat 256 (mix bytes)
  blake3Keyed key bytes := BitVec.ofNat 256 (mix (bytesOf key ++ bytes))
  aegisSeal key n plaintext ad := (plaintext, BitVec.ofNat 256 (toyTag key n plaintext ad))
  aegisOpen key n ciphertext tag ad :=
    if tag = BitVec.ofNat 256 (toyTag key n ciphertext ad) then some ciphertext else none
  aegisSealShort key n plaintext ad := (plaintext, BitVec.ofNat 128 (toyTag key n plaintext ad))
  aegisOpenShort key n ciphertext tag ad :=
    if tag = BitVec.ofNat 128 (toyTag key n ciphertext ad) then some ciphertext else none
  ed25519Public seed := seed
  ed25519Sign seed msg := BitVec.ofNat 512 (mix (bytesOf seed ++ msg))
  ed25519Verify key msg sig := sig = BitVec.ofNat 512 (mix (bytesOf key ++ msg))
  x25519Public secret := secret
  x25519Agree secret peer := some (secret ^^^ peer)

end CausalFrontierRatchet.Crypto
