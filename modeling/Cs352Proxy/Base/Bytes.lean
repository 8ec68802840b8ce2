import Mathlib.Tactic.Common
import Mathlib.Algebra.Group.Int.Defs
import Mathlib.Algebra.Group.Nat.Defs

/-!
# Base.Bytes

Fixed-width unsigned integers as byte strings.

* `leBytes` / `ofLeBytes`: little-endian bytes of a natural number and back; `beBytes` / `ofBeBytes`: big-endian.
* `Endian.store` / `Endian.load`: the bytes an integer object occupies in the memory of a host of
  a given byte order.
* `Endian.hton`: the value whose in-memory bytes are the big-endian bytes of its argument. On a
  big-endian host it is the identity (below `256 ^ k`), on a little-endian host a byte swap; the
  lemmas below hold for both, so no proof about a wire format depends on the host.
-/

namespace Base

abbrev Byte := BitVec 8

/-- The `k` low bytes of `x`, least significant first. -/
def leBytes : Nat → Nat → List Byte
  | 0, _ => []
  | k + 1, x => BitVec.ofNat 8 x :: leBytes k (x / 256)

def ofLeBytes : List Byte → Nat
  | [] => 0
  | b :: bs => b.toNat + 256 * ofLeBytes bs

@[simp] theorem length_leBytes (k x : Nat) : (leBytes k x).length = k := by
  induction k generalizing x with
  | zero => rfl
  | succ k ih => simp [leBytes, ih]

theorem ofLeBytes_leBytes (k x : Nat) : ofLeBytes (leBytes k x) = x % 256 ^ k := by
  induction k generalizing x with
  | zero => simp [leBytes, ofLeBytes, Nat.mod_one]
  | succ k ih =>
    have hpow : 256 ^ (k + 1) = 256 * 256 ^ k := by rw [Nat.pow_succ, Nat.mul_comm]
    simp only [leBytes, ofLeBytes, ih, BitVec.toNat_ofNat]
    rw [hpow, Nat.mod_mul]

theorem ofLeBytes_lt (bs : List Byte) : ofLeBytes bs < 256 ^ bs.length := by
  induction bs with
  | nil => simp [ofLeBytes]
  | cons b bs ih =>
    have hb := b.isLt
    simp only [ofLeBytes, List.length_cons, Nat.pow_succ]
    omega

theorem leBytes_ofLeBytes (bs : List Byte) : leBytes bs.length (ofLeBytes bs) = bs := by
  induction bs with
  | nil => rfl
  | cons b bs ih =>
    have hb := b.isLt
    have hhead : BitVec.ofNat 8 (b.toNat + 256 * ofLeBytes bs) = b := by
      apply BitVec.eq_of_toNat_eq
      simp only [BitVec.toNat_ofNat]
      omega
    have htail : (b.toNat + 256 * ofLeBytes bs) / 256 = ofLeBytes bs := by omega
    simp only [List.length_cons, leBytes, ofLeBytes, hhead, htail, ih]

/-- The `k` low bytes of `x`, most significant first. -/
def beBytes (k x : Nat) : List Byte := (leBytes k x).reverse

def ofBeBytes (bs : List Byte) : Nat := ofLeBytes bs.reverse

@[simp] theorem length_beBytes (k x : Nat) : (beBytes k x).length = k := by simp [beBytes]

theorem ofBeBytes_beBytes (k x : Nat) : ofBeBytes (beBytes k x) = x % 256 ^ k := by simp [ofBeBytes, beBytes, ofLeBytes_leBytes]

theorem beBytes_ofBeBytes (bs : List Byte) : beBytes bs.length (ofBeBytes bs) = bs := by
  have h := leBytes_ofLeBytes bs.reverse
  rw [List.length_reverse] at h
  simp [beBytes, ofBeBytes, h]

theorem ofBeBytes_lt (bs : List Byte) : ofBeBytes bs < 256 ^ bs.length := by
  simpa [ofBeBytes] using ofLeBytes_lt bs.reverse

/-! ## Words -/

theorem ofNat_ofBeBytes_beBytes {w k : Nat} (hw : w = 8 * k) (x : BitVec w) :
    BitVec.ofNat w (ofBeBytes (beBytes k x.toNat)) = x := by
  have h256 : 256 ^ k = 2 ^ w := by rw [hw, Nat.pow_mul]
  apply BitVec.eq_of_toNat_eq
  rw [ofBeBytes_beBytes, h256, BitVec.toNat_ofNat, Nat.mod_mod, Nat.mod_eq_of_lt x.isLt]

theorem beBytes_ofNat_ofBeBytes {w k : Nat} (hw : w = 8 * k) {bs : List Byte} (hbs : bs.length = k) :
    beBytes k (BitVec.ofNat w (ofBeBytes bs)).toNat = bs := by
  have h256 : 256 ^ k = 2 ^ w := by rw [hw, Nat.pow_mul]
  have hlt := ofBeBytes_lt bs
  rw [hbs, h256] at hlt
  rw [BitVec.toNat_ofNat, Nat.mod_eq_of_lt hlt, ← hbs, beBytes_ofBeBytes]

/-! ## Host byte order -/

inductive Endian where
  | little
  | big
deriving DecidableEq

namespace Endian

/-- The bytes of a `k`-byte unsigned object of value `x`. -/
def store : Endian → Nat → Nat → List Byte
  | .little, k, x => leBytes k x
  | .big, k, x => beBytes k x

/-- The value of the unsigned object with these bytes. -/
def load : Endian → List Byte → Nat
  | .little, bs => ofLeBytes bs
  | .big, bs => ofBeBytes bs

/-- Host to network order for a `k`-byte value. -/
def hton (e : Endian) (k x : Nat) : Nat := e.load (beBytes k x)

@[simp] theorem length_store (e : Endian) (k x : Nat) : (e.store k x).length = k := by
  cases e <;> simp [store]

theorem store_load (e : Endian) (bs : List Byte) : e.store bs.length (e.load bs) = bs := by
  cases e
  · exact leBytes_ofLeBytes bs
  · exact beBytes_ofBeBytes bs

theorem load_lt (e : Endian) (bs : List Byte) : e.load bs < 256 ^ bs.length := by
  cases e
  · exact ofLeBytes_lt bs
  · exact ofBeBytes_lt bs

theorem store_hton (e : Endian) (k x : Nat) : e.store k (e.hton k x) = beBytes k x := by
  have h := e.store_load (beBytes k x)
  rwa [length_beBytes] at h

theorem hton_lt (e : Endian) (k x : Nat) : e.hton k x < 256 ^ k := by
  have h := e.load_lt (beBytes k x)
  rwa [length_beBytes] at h

/-- Converting a value just read from memory yields the number its bytes spell big-endian. -/
theorem hton_load (e : Endian) (bs : List Byte) : e.hton bs.length (e.load bs) = ofBeBytes bs := by
  cases e with
  | big => simp [hton, load, beBytes_ofBeBytes]
  | little =>
    have h := leBytes_ofLeBytes bs
    simp [hton, load, beBytes, ofBeBytes, h]

end Endian

end Base
