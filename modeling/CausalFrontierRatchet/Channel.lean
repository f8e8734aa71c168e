import CausalFrontierRatchet.Operation

/-!
Pairwise contribution channels and one-time prekeys.  A channel is a ratchet whose receiving end
keeps a bounded buffer of early ciphertexts; a prekey generation loses its private half once every
expected peer has been served or its deadline has passed.
-/

namespace CausalFrontierRatchet.Channel

open BigEndian Crypto Tlv Operation

/-- Ceiling on buffered out-of-order ciphertexts per channel. -/
def MAX_BUFFERED : ℕ := 64

/-- One direction of a pairwise channel. -/
structure Chan where
  chain : Secret
  next : UInt64
deriving DecidableEq

structure RecvChan where
  chan : Chan
  buffer : Std.ExtTreeMap UInt64 Bytes

/-- The largest index, which no message uses. -/
def LAST : UInt64 := 0xFFFFFFFFFFFFFFFF

def indexBytes (index : UInt64) : Bytes :=
  beBytes 8 index.toNat

section Ratchet

variable (P : Primitives)

namespace Chan

def new (root : Secret) : Chan :=
  ⟨kdf P root "cfr/channel/chain" [], 0⟩

def currentKey (chan : Chan) : Secret :=
  kdf P chan.chain "cfr/channel/message" [indexBytes chan.next]

def advance (chan : Chan) : Except Error Chan :=
  if chan.next = LAST then .error (.limitExceeded "channel message index exhausted")
  else .ok ⟨kdf P chan.chain "cfr/channel/next" [indexBytes chan.next], chan.next + 1⟩

/-- Advances the sending ratchet; returns the index and its message key. -/
def step (chan : Chan) : Except Error ((UInt64 × Secret) × Chan) := do
  let chan' ← chan.advance P
  pure ((chan.next, chan.currentKey P), chan')

end Chan

namespace RecvChan

def new (root : Secret) : RecvChan :=
  ⟨Chan.new P root, ∅⟩

/-- Offers a ciphertext.  Only the awaited index yields a key, and does not move the ratchet; a
later one is buffered, an earlier one ignored. -/
def offer (c : RecvChan) (index : UInt64) (payload : Bytes) : Option Secret × RecvChan :=
  if index < c.chan.next then (none, c)
  else if c.chan.next < index then
    (none, if c.buffer.size < MAX_BUFFERED then
      { c with buffer := c.buffer.insertIfNew index payload } else c)
  else if index = LAST then (none, c)
  else (some (c.chan.currentKey P), c)

/-- Moves the ratchet past the awaited index; false for any other index. -/
def commit (c : RecvChan) (index : UInt64) : Except Error (Bool × RecvChan) :=
  if index ≠ c.chan.next then .ok (false, c)
  else do
    let chan ← c.chan.advance P
    pure (true, { c with chan })

/-- Takes the buffered ciphertext at the awaited index. -/
def takeNext (c : RecvChan) : Option (UInt64 × Bytes × Secret) × RecvChan :=
  let index := c.chan.next
  if index = LAST then (none, c)
  else
    match c.buffer[index]? with
    | none => (none, c)
    | some payload =>
        (some (index, payload, c.chan.currentKey P), { c with buffer := c.buffer.erase index })

end RecvChan

end Ratchet

/-! ## Prekeys -/

/-- Ticks after which a generation loses its private half. -/
def SEAL_AFTER : UInt32 := 64

structure PrekeyPool where
  generation : UInt32
  secret : Option Secret
  pub : DhPublic
  established : Roster
  age : UInt32

namespace PrekeyPool

/-- A generation with a drawn secret. -/
def at_ (P : Primitives) (generation : UInt32) (secret : Secret) : PrekeyPool :=
  ⟨generation, some secret, P.x25519Public secret, ∅, 0⟩

def isSealed (pool : PrekeyPool) : Bool :=
  pool.secret.isNone

def sealNow (pool : PrekeyPool) : PrekeyPool :=
  { pool with secret := none }

/-- Advances the deadline clock. -/
def tick (pool : PrekeyPool) : PrekeyPool :=
  let age := if pool.age = 0xFFFFFFFF then pool.age else pool.age + 1
  let pool := { pool with age }
  if SEAL_AFTER ≤ age then pool.sealNow else pool

/-- Opens a channel for a peer; seals once every expected identity has been served. -/
def agreeFor (P : Primitives) (pool : PrekeyPool) (peer : SigPublic) (eph : DhPublic)
    (expected : Roster) : Option Secret × PrekeyPool :=
  match pool.secret.bind fun sk => P.x25519Agree sk eph with
  | none => (none, pool)
  | some shared =>
      let pool := { pool with established := pool.established.insert peer }
      let served := !expected.isEmpty && expected.toList.all fun p => pool.established.contains p
      (some shared, if served then pool.sealNow else pool)

/-- Agrees for a one-shot envelope, which does not count towards sealing. -/
def agreeEnvelope (P : Primitives) (pool : PrekeyPool) (eph : DhPublic) : Option Secret :=
  pool.secret.bind fun sk => P.x25519Agree sk eph

/-- The next generation, with a drawn secret. -/
def rotate (P : Primitives) (pool : PrekeyPool) (secret : Secret) : PrekeyPool :=
  at_ P (pool.generation + 1) secret

end PrekeyPool

end CausalFrontierRatchet.Channel
