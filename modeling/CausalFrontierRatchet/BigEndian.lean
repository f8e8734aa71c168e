import Mathlib.Data.Nat.Basic
import Mathlib.Tactic.Ring
import Mathlib.Tactic.Linarith

/-!
Big-endian byte strings.  A fixed array of `n` bytes is carried by a bit vector of width `8 * n`,
whose unsigned order is the lexicographic order of the array; `beBytes` writes the array out and
`ofBe` reads a byte string back as a number.  The two round trips below are all that the formats
built on top need: writing then reading returns the number modulo the width, and reading then
writing returns the bytes.
-/

namespace CausalFrontierRatchet.BigEndian

/-- A byte string of any length. -/
abbrev Bytes := List UInt8

/-- The low `n` bytes of `v`, most significant first. -/
def beBytes : ℕ → ℕ → Bytes
  | 0, _ => []
  | n + 1, v => UInt8.ofNat (v / 256 ^ n) :: beBytes n v

/-- The number a byte string denotes, most significant byte first. -/
def ofBe : Bytes → ℕ
  | [] => 0
  | b :: bs => b.toNat * 256 ^ bs.length + ofBe bs

@[simp] theorem beBytes_length (n v : ℕ) : (beBytes n v).length = n := by
  induction n with
  | zero => rfl
  | succ n ih => simp [beBytes, ih]

theorem ofBe_append (a b : Bytes) : ofBe (a ++ b) = ofBe a * 256 ^ b.length + ofBe b := by
  induction a with
  | nil => simp [ofBe]
  | cons x a ih =>
      rw [List.cons_append, ofBe, ofBe, ih, List.length_append]
      ring

theorem ofBe_lt (bs : Bytes) : ofBe bs < 256 ^ bs.length := by
  induction bs with
  | nil => simp [ofBe]
  | cons b bs ih =>
      have hb : b.toNat + 1 ≤ 256 := b.toNat_lt
      calc
        ofBe (b :: bs) < b.toNat * 256 ^ bs.length + 256 ^ bs.length := by
          simpa [ofBe] using ih
        _ = (b.toNat + 1) * 256 ^ bs.length := by ring
        _ ≤ 256 * 256 ^ bs.length := Nat.mul_le_mul_right _ hb
        _ = 256 ^ (b :: bs).length := by rw [List.length_cons]; ring

theorem ofBe_beBytes (n v : ℕ) : ofBe (beBytes n v) = v % 256 ^ n := by
  induction n with
  | zero => simp [beBytes, ofBe, Nat.mod_one]
  | succ n ih =>
      have hbyte : (UInt8.ofNat (v / 256 ^ n)).toNat = v / 256 ^ n % 256 := by
        simp [UInt8.toNat_ofNat']
      rw [beBytes, ofBe, ih, hbyte, beBytes_length, pow_succ, Nat.mod_mul]
      ring

theorem ofBe_beBytes_of_lt {n v : ℕ} (h : v < 256 ^ n) : ofBe (beBytes n v) = v := by
  rw [ofBe_beBytes, Nat.mod_eq_of_lt h]

theorem beBytes_add_mul (n v k : ℕ) : beBytes n (v + k * 256 ^ n) = beBytes n v := by
  induction n generalizing k with
  | zero => rfl
  | succ n ih =>
      have hsplit : v + k * 256 ^ (n + 1) = v + (k * 256) * 256 ^ n := by ring
      have hdiv : (v + (k * 256) * 256 ^ n) / 256 ^ n = v / 256 ^ n + k * 256 :=
        Nat.add_mul_div_right _ _ (by positivity)
      have hbyte : UInt8.ofNat (v / 256 ^ n + k * 256) = UInt8.ofNat (v / 256 ^ n) := by
        apply UInt8.toNat_inj.mp
        simp [UInt8.toNat_ofNat']
      rw [beBytes, beBytes, hsplit, ih, hdiv, hbyte]

theorem beBytes_ofBe (bs : Bytes) : beBytes bs.length (ofBe bs) = bs := by
  induction bs with
  | nil => rfl
  | cons b bs ih =>
      have hdiv : (b.toNat * 256 ^ bs.length + ofBe bs) / 256 ^ bs.length = b.toNat := by
        rw [Nat.add_comm, Nat.add_mul_div_right _ _ (by positivity),
          Nat.div_eq_of_lt (ofBe_lt bs), Nat.zero_add]
      rw [List.length_cons, beBytes, ofBe, hdiv, Nat.add_comm, beBytes_add_mul, ih,
        UInt8.ofNat_toNat]

theorem beBytes_inj {n v w : ℕ} (hv : v < 256 ^ n) (hw : w < 256 ^ n)
    (h : beBytes n v = beBytes n w) : v = w := by
  rw [← ofBe_beBytes_of_lt hv, ← ofBe_beBytes_of_lt hw, h]

/-! ## Fixed arrays -/

/-- The array of `w / 8` bytes a bit vector stands for. -/
def bytesOf {w : ℕ} (x : BitVec w) : Bytes :=
  beBytes (w / 8) x.toNat

/-- The fixed array a byte string of the right length spells. -/
def ofBytes (w : ℕ) (bs : Bytes) : BitVec w :=
  BitVec.ofNat w (ofBe bs)

/-- Reads a slice as a fixed array, refusing the wrong length. -/
def fromSlice (w : ℕ) (bs : Bytes) : Option (BitVec w) :=
  if bs.length = w / 8 then some (ofBytes w bs) else none

@[simp] theorem bytesOf_length {w : ℕ} (x : BitVec w) : (bytesOf x).length = w / 8 :=
  beBytes_length _ _

theorem pow_bytes {w : ℕ} (hw : 8 ∣ w) : 256 ^ (w / 8) = 2 ^ w := by
  obtain ⟨n, rfl⟩ := hw
  rw [Nat.mul_div_cancel_left n (by decide), show (256 : ℕ) = 2 ^ 8 from rfl, ← pow_mul]

theorem ofBe_bytesOf {w : ℕ} (hw : 8 ∣ w) (x : BitVec w) : ofBe (bytesOf x) = x.toNat := by
  have hx : x.toNat < 256 ^ (w / 8) := by
    rw [pow_bytes hw]
    exact x.isLt
  rw [bytesOf, ofBe_beBytes_of_lt hx]

theorem ofBytes_bytesOf {w : ℕ} (hw : 8 ∣ w) (x : BitVec w) : ofBytes w (bytesOf x) = x := by
  apply BitVec.eq_of_toNat_eq
  rw [ofBytes, ofBe_bytesOf hw, BitVec.toNat_ofNat, Nat.mod_eq_of_lt x.isLt]

theorem bytesOf_ofBytes {w : ℕ} (hw : 8 ∣ w) {bs : Bytes} (hlen : bs.length = w / 8) :
    bytesOf (ofBytes w bs) = bs := by
  have hbs : ofBe bs < 2 ^ w := by
    rw [← pow_bytes hw, ← hlen]
    exact ofBe_lt bs
  rw [bytesOf, ofBytes, BitVec.toNat_ofNat, Nat.mod_eq_of_lt hbs, ← hlen, beBytes_ofBe]

theorem bytesOf_inj {w : ℕ} (hw : 8 ∣ w) {x y : BitVec w} (h : bytesOf x = bytesOf y) : x = y := by
  rw [← ofBytes_bytesOf hw x, ← ofBytes_bytesOf hw y, h]

end CausalFrontierRatchet.BigEndian
