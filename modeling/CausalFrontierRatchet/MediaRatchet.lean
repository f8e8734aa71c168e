import CausalFrontierRatchet.Crypto

/-!
Per-sender media ratchets and replay suppression.  A sender's chain starts from the group key of a
version and moves one epoch every 256 frames; a receiver follows it, refusing retired epochs and
jumps too far ahead.  The replay window accepts each authenticated frame index once.
-/

namespace CausalFrontierRatchet.MediaRatchet

open BigEndian Crypto

/-- Frames per ratchet epoch. -/
def EPOCH : UInt64 := 256

/-- Largest forward epoch jump accepted in one receive operation. -/
def MAX_EPOCH_JUMP : UInt64 := 1024

/-- Width of the replay acceptance window, in frames. -/
def WINDOW : UInt64 := 64

/-- The eight big-endian bytes of a counter. -/
def u64Bytes (v : UInt64) : Bytes :=
  beBytes 8 v.toNat

@[simp] theorem u64Bytes_length (v : UInt64) : (u64Bytes v).length = 8 :=
  beBytes_length _ _

variable (P : Primitives)

def base (group : Secret) (sender : SigPublic) : Secret :=
  kdf P group "cfr/media/base" [bytesOf sender]

/-- The chain after a number of epoch steps. -/
def advance : ℕ → Secret → Secret
  | 0, chain => chain
  | n + 1, chain => advance n (kdf P chain "cfr/media/epoch" [])

def frameKey (chain : Secret) (index : UInt64) : Secret :=
  kdf P chain "cfr/media/frame" [u64Bytes index]

structure SendRatchet where
  chain : Secret
  epoch : UInt64
  deriving DecidableEq

structure RecvRatchet where
  chain : Secret
  epoch : UInt64
  deriving DecidableEq

def SendRatchet.new (group : Secret) (sender : SigPublic) : SendRatchet :=
  ⟨base P group sender, 0⟩

def RecvRatchet.new (group : Secret) (sender : SigPublic) : RecvRatchet :=
  ⟨base P group sender, 0⟩

/-- The frame key for `index` and the ratchet moved to its epoch; a refused index moves nothing. -/
def SendRatchet.key (r : SendRatchet) (index : UInt64) : Option (Secret × SendRatchet) :=
  let target := index / EPOCH
  if target < r.epoch then none
  else
    let chain := advance P (target - r.epoch).toNat r.chain
    some (frameKey P chain index, ⟨chain, target⟩)

def RecvRatchet.key (r : RecvRatchet) (index : UInt64) : Option (Secret × RecvRatchet) :=
  let target := index / EPOCH
  if target < r.epoch ∨ target - r.epoch > MAX_EPOCH_JUMP then none
  else
    let chain := advance P (target - r.epoch).toNat r.chain
    some (frameKey P chain index, ⟨chain, target⟩)

/-- A sliding window over authenticated frame indices. -/
structure Replay where
  high : UInt64
  seen : UInt64
  started : Bool
  deriving DecidableEq

def Replay.new : Replay :=
  ⟨0, 0, false⟩

/-- The window with `index` recorded, or nothing when the index is refused. -/
def Replay.accept (r : Replay) (index : UInt64) : Option Replay :=
  if !r.started then some ⟨index, 1, true⟩
  else if r.high < index then
    let shift := index - r.high
    let seen := if shift ≥ WINDOW then 0 else r.seen <<< shift
    some { r with high := index, seen := seen ||| 1 }
  else
    let back := r.high - index
    if back ≥ WINDOW then none
    else
      let bit := (1 : UInt64) <<< back
      if r.seen &&& bit ≠ 0 then none else some { r with seen := r.seen ||| bit }

/-! ## The first epoch -/

theorem div_epoch_of_lt {index : UInt64} (h : index < EPOCH) : index / EPOCH = 0 := by
  apply UInt64.toNat_inj.mp
  have hlt : index.toNat < 256 := by simpa [EPOCH] using UInt64.lt_iff_toNat_lt.mp h
  simp [EPOCH, Nat.div_eq_of_lt hlt]

/-- In the first epoch a fresh sending ratchet stays where it is. -/
theorem SendRatchet.key_first {r : SendRatchet} {index : UInt64} (hr : r.epoch = 0)
    (h : index < EPOCH) : r.key P index = some (frameKey P r.chain index, r) := by
  obtain ⟨chain, epoch⟩ := r
  subst hr
  simp [SendRatchet.key, div_epoch_of_lt h, advance]

theorem RecvRatchet.key_first {r : RecvRatchet} {index : UInt64} (hr : r.epoch = 0)
    (h : index < EPOCH) : r.key P index = some (frameKey P r.chain index, r) := by
  obtain ⟨chain, epoch⟩ := r
  subst hr
  simp [RecvRatchet.key, div_epoch_of_lt h, advance, MAX_EPOCH_JUMP]

end CausalFrontierRatchet.MediaRatchet
