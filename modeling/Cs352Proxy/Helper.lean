import Cs352Proxy.Packets

/-!
# Helper

The byte-order and MAC-address functions of `helper.c`, with `htons` and `htonl` of the C library.

`comp_mac_addrs` and `comp_mac_zero` return C truth values: the first is `0` when the addresses
are equal, the second is `-1` when the address is zero (`compMacAddrs_eq_zero`,
`compMacZero_ne_zero`).
-/

namespace Cs352Proxy

open Base

/-! ## Byte order -/

def htons (e : Endian) (x : U16) : U16 := BitVec.ofNat 16 (e.hton 2 x.toNat)

def htonl (e : Endian) (x : U32) : U32 := BitVec.ofNat 32 (e.hton 4 x.toNat)

/-- `ntohs` and `ntohl` are the same conversions the other way. -/
def ntohs (e : Endian) (x : U16) : U16 := htons e x

def ntohl (e : Endian) (x : U32) : U32 := htonl e x

/-- Exchange two bytes of the union `x.c`. -/
def swapBytes (c : List U8) (i j : Nat) : List U8 :=
  (c.set i (c.getD j 0)).set j (c.getD i 0)

/-- `helper.c` finds the byte order by looking at where the low byte of `1` lies. -/
def htonll (e : Endian) (src : U64) : U64 :=
  if (e.store 8 1).getD 7 0 = 1 then src
  else
    let c := e.store 8 src.toNat
    let c := swapBytes c 0 7
    let c := swapBytes c 1 6
    let c := swapBytes c 2 5
    let c := swapBytes c 3 4
    BitVec.ofNat 64 (e.load c)

theorem swapBytes_reverse (c : List U8) (hc : c.length = 8) :
    swapBytes (swapBytes (swapBytes (swapBytes c 0 7) 1 6) 2 5) 3 4 = c.reverse := by
  match c, hc with
  | [c0, c1, c2, c3, c4, c5, c6, c7], _ => rfl

theorem htonll_eq (e : Endian) (x : U64) : htonll e x = BitVec.ofNat 64 (e.hton 8 x.toNat) := by
  cases e with
  | big =>
    have h : (Endian.store .big 8 1).getD 7 0 = 1 := by decide
    rw [htonll, if_pos h]
    exact (ofNat_ofBeBytes_beBytes (k := 8) rfl x).symm
  | little =>
    have h : (Endian.store .little 8 1).getD 7 0 ≠ 1 := by decide
    rw [htonll, if_neg h]
    simp only [swapBytes_reverse _ (Endian.length_store .little 8 x.toNat)]
    rfl

theorem store_htons (e : Endian) (x : U16) : e.store 2 (htons e x).toNat = beBytes 2 x.toNat := by
  have hlt : e.hton 2 x.toNat < 2 ^ 16 := e.hton_lt 2 x.toNat
  rw [htons, BitVec.toNat_ofNat, Nat.mod_eq_of_lt hlt, e.store_hton]

theorem store_htonl (e : Endian) (x : U32) : e.store 4 (htonl e x).toNat = beBytes 4 x.toNat := by
  have hlt : e.hton 4 x.toNat < 2 ^ 32 := e.hton_lt 4 x.toNat
  rw [htonl, BitVec.toNat_ofNat, Nat.mod_eq_of_lt hlt, e.store_hton]

theorem store_htonll (e : Endian) (x : U64) : e.store 8 (htonll e x).toNat = beBytes 8 x.toNat := by
  have hlt : e.hton 8 x.toNat < 2 ^ 64 := e.hton_lt 8 x.toNat
  rw [htonll_eq, BitVec.toNat_ofNat, Nat.mod_eq_of_lt hlt, e.store_hton]

theorem toNat_load {e : Endian} {bs : List U8} {w k : Nat} (hw : w = 8 * k) (hbs : bs.length = k) :
    (BitVec.ofNat w (e.load bs)).toNat = e.load bs := by
  have hlt := e.load_lt bs
  rw [hbs] at hlt
  rw [BitVec.toNat_ofNat, Nat.mod_eq_of_lt (by rwa [hw, Nat.pow_mul])]

theorem ntohs_load (e : Endian) {bs : List U8} (hbs : bs.length = 2) :
    ntohs e (BitVec.ofNat 16 (e.load bs)) = BitVec.ofNat 16 (ofBeBytes bs) := by
  rw [ntohs, htons, toNat_load rfl hbs, ← hbs, e.hton_load]

theorem ntohl_load (e : Endian) {bs : List U8} (hbs : bs.length = 4) :
    ntohl e (BitVec.ofNat 32 (e.load bs)) = BitVec.ofNat 32 (ofBeBytes bs) := by
  rw [ntohl, htonl, toNat_load rfl hbs, ← hbs, e.hton_load]

theorem htonll_load (e : Endian) {bs : List U8} (hbs : bs.length = 8) :
    htonll e (BitVec.ofNat 64 (e.load bs)) = BitVec.ofNat 64 (ofBeBytes bs) := by
  rw [htonll_eq, toNat_load rfl hbs, ← hbs, e.hton_load]

/-! ## MAC addresses -/

def compMacAddrsLoop : List U8 → List U8 → Int
  | m1 :: mac1, m2 :: mac2 => if m1 ≠ m2 then -1 else compMacAddrsLoop mac1 mac2
  | _, _ => 0

def compMacAddrs (mac1 mac2 : Mac) : Int := compMacAddrsLoop mac1.bytes mac2.bytes

def compMacZeroLoop : List U8 → Int
  | [] => -1
  | m :: mac => if m ≠ 0 then 0 else compMacZeroLoop mac

def compMacZero (mac1 : Mac) : Int := compMacZeroLoop mac1.bytes

theorem compMacAddrsLoop_eq_zero {m1 m2 : List U8} (h : m1.length = m2.length) :
    compMacAddrsLoop m1 m2 = 0 ↔ m1 = m2 := by
  induction m1 generalizing m2 with
  | nil =>
    have : m2 = [] := List.length_eq_zero_iff.mp h.symm
    simp [this, compMacAddrsLoop]
  | cons a as ih =>
    cases m2 with
    | nil => cases h
    | cons b bs =>
      have hlen : as.length = bs.length := by simpa using h
      by_cases hab : a = b
      · simp [compMacAddrsLoop, hab, ih hlen]
      · simp [compMacAddrsLoop, hab]

@[simp] theorem compMacAddrs_eq_zero {m1 m2 : Mac} : compMacAddrs m1 m2 = 0 ↔ m1 = m2 := by
  rw [compMacAddrs, compMacAddrsLoop_eq_zero (m1.length_bytes.trans m2.length_bytes.symm), Mac.ext_iff]

theorem compMacZeroLoop_cases (m : List U8) :
    (compMacZeroLoop m = -1 ∧ ∀ b ∈ m, b = 0) ∨ (compMacZeroLoop m = 0 ∧ ∃ b ∈ m, b ≠ 0) := by
  induction m with
  | nil => simp [compMacZeroLoop]
  | cons a as ih =>
    by_cases ha : a = 0
    · have hloop : compMacZeroLoop (a :: as) = compMacZeroLoop as := if_neg (not_not.mpr ha)
      rw [hloop]
      rcases ih with ⟨h, hall⟩ | ⟨h, b, hb, hne⟩
      · exact .inl ⟨h, List.forall_mem_cons.mpr ⟨ha, hall⟩⟩
      · exact .inr ⟨h, b, List.mem_cons_of_mem _ hb, hne⟩
    · exact .inr ⟨if_pos ha, a, by simp, ha⟩

theorem Mac.eq_zero_iff {m : Mac} : m = Mac.zero ↔ ∀ b ∈ m.bytes, b = 0 := by
  rw [Mac.ext_iff, show Mac.zero.bytes = List.replicate 6 0 from rfl, List.eq_replicate_iff]
  simp [m.length_bytes]

theorem compMacZero_ne_zero {m : Mac} : compMacZero m ≠ 0 ↔ m = Mac.zero := by
  rw [Mac.eq_zero_iff, compMacZero]
  rcases compMacZeroLoop_cases m.bytes with ⟨h, hall⟩ | ⟨h, b, hb, hne⟩
  · simpa [h] using hall
  · simp only [h, ne_eq, not_true_eq_false, false_iff]
    exact fun hall => hne (hall b hb)

theorem compMacZero_eq_zero {m : Mac} : compMacZero m = 0 ↔ m ≠ Mac.zero := by
  rw [← not_iff_not, not_not, ← compMacZero_ne_zero]

end Cs352Proxy
