import Cs352Proxy.State
import Cs352Proxy.Wire

/-!
# Departure

The codecs of leave and quit packets. `htonLeave` and `htonQuit` write 24 bytes, one for each byte
of the packet's fields, so encoding and decoding are inverse to each other.
-/

namespace Cs352Proxy

open Base

def departureBytes (pkt : DeparturePkt) : Buf :=
  headerBytes pkt.head ++ proxyBytes pkt.localInfo ++ beBytes 8 pkt.ID.toNat

@[simp] theorem length_departureBytes (pkt : DeparturePkt) : (departureBytes pkt).length = 24 := by
  simp [departureBytes]

theorem exists_departureBytes {bs : Buf} (h : bs.length = 24) : ∃ pkt, departureBytes pkt = bs := by
  have h4 : (bs.take 4).length = 4 := by simp [h]
  have h12 : ((bs.drop 4).take 12).length = 12 := by simp [h]
  have h8 : ((bs.drop 4).drop 12).length = 8 := by simp [h]
  obtain ⟨head, hhead⟩ := exists_headerBytes h4
  obtain ⟨localInfo, hlocal⟩ := exists_proxyBytes h12
  refine ⟨{ head, localInfo, ID := BitVec.ofNat 64 (ofBeBytes ((bs.drop 4).drop 12)) }, ?_⟩
  rw [departureBytes, hhead, hlocal, beBytes_ofNat_ofBeBytes rfl h8, List.append_assoc,
    List.take_append_drop, List.take_append_drop]

section Codec

variable (e : Endian)

/-- The encoder writes the bytes of its packet and nothing else. -/
theorem htonDeparture_eq (pkt : DeparturePkt) {buf : Buf} (hfit : 24 ≤ buf.length) :
    htonDeparture e pkt buf = some (departureBytes pkt ++ buf.drop 24) := by
  have h1 := htonHeader_eq e pkt.head buf (by omega)
  have h2 := htonProxyInfo_eq e pkt.localInfo 4 (headerBytes pkt.head) (buf.drop 4) (by simp)
    (by rw [List.length_drop]; omega)
  have h3 := memcpy_append 16 (headerBytes pkt.head ++ proxyBytes pkt.localInfo)
    (beBytes 8 pkt.ID.toNat) (buf.drop 16) (by simp) (by rw [length_beBytes, List.length_drop]; omega)
  rw [List.drop_drop] at h2
  rw [length_beBytes, List.drop_drop] at h3
  simp only [htonDeparture, store_htonll, h1, h2, h3, Option.bind_eq_bind, Option.bind_some]
  rfl

theorem ntohDeparture_eq (pkt : DeparturePkt) (rest : Buf) :
    ntohDeparture e (departureBytes pkt ++ rest) = some pkt := by
  have h1 := ntohHeader_eq e pkt.head (proxyBytes pkt.localInfo ++ (beBytes 8 pkt.ID.toNat ++ rest))
  have h2 := ntohProxyInfo_eq e pkt.localInfo 4 (headerBytes pkt.head) (beBytes 8 pkt.ID.toNat ++ rest)
    (by simp)
  have h3 := readU64_eq e pkt.ID 16 (headerBytes pkt.head ++ proxyBytes pkt.localInfo) rest (by simp)
  rw [List.append_assoc] at h3
  simp only [departureBytes, List.append_assoc, ntohDeparture, h1, h2, h3, Option.bind_eq_bind,
    Option.bind_some]

end Codec

/-- Encoding and decoding are inverse to each other on 24 bytes, whatever the byte orders of the two
hosts and whatever the buffer written to held before. -/
structure Inverse24 (hton : Endian → DeparturePkt → Buf → Option Buf)
    (ntoh : Endian → Buf → Option DeparturePkt) : Prop where
  decodes : ∀ (e e' : Endian) (pkt : DeparturePkt) (buf : Buf), 24 ≤ buf.length →
    ∃ buf', hton e pkt buf = some buf' ∧ ntoh e' buf' = some pkt ∧
      buf'.length = buf.length ∧ ∀ i, 24 ≤ i → buf'[i]? = buf[i]?
  encodes : ∀ (e e' : Endian) (b buf : Buf), b.length = 24 → 24 ≤ buf.length →
    ∃ pkt, ntoh e b = some pkt ∧ hton e' pkt buf = some (b ++ buf.drop 24)
  unique : ∀ (e e' : Endian) (b b' : Buf), b.length = 24 → b'.length = 24 → ntoh e b = ntoh e' b' →
    b = b'

theorem inverse24_departure : Inverse24 htonDeparture ntohDeparture := by
  have hdecode : ∀ (e : Endian) {b : Buf}, b.length = 24 →
      ∃ pkt, departureBytes pkt = b ∧ ntohDeparture e b = some pkt := by
    intro e b hb
    obtain ⟨pkt, hpkt⟩ := exists_departureBytes hb
    have hdec := ntohDeparture_eq e pkt []
    rw [List.append_nil, hpkt] at hdec
    exact ⟨pkt, hpkt, hdec⟩
  refine ⟨?_, ?_, ?_⟩
  · intro e e' pkt buf hfit
    refine ⟨_, htonDeparture_eq e pkt hfit, ntohDeparture_eq e' pkt _, ?_, ?_⟩
    · rw [List.length_append, length_departureBytes, List.length_drop]
      omega
    · intro i hi
      rw [List.getElem?_append_right (by rwa [length_departureBytes]), length_departureBytes,
        List.getElem?_drop, Nat.add_sub_cancel' hi]
  · intro e e' b buf hb hfit
    obtain ⟨pkt, hpkt, hdec⟩ := hdecode e hb
    have henc := htonDeparture_eq e' pkt hfit
    rw [hpkt] at henc
    exact ⟨pkt, hdec, henc⟩
  · intro e e' b b' hb hb' h
    obtain ⟨pkt, hpkt, hdec⟩ := hdecode e hb
    obtain ⟨pkt', hpkt', hdec'⟩ := hdecode e' hb'
    rw [hdec, hdec'] at h
    cases h
    rw [← hpkt, hpkt']

/-- Leave and quit packets and their 24 bytes determine each other. -/
theorem inverse24_leave_quit : Inverse24 htonLeave ntohLeave ∧ Inverse24 htonQuit ntohQuit :=
  ⟨inverse24_departure, inverse24_departure⟩

example : htonLeave .little
    { head := { type := pktLeave, length := 20 }, localInfo := host 2, ID := 258 } (List.replicate 24 255) =
    some [0xAB, 1, 0, 20, 10, 0, 0, 2, 31, 64, 2, 2, 2, 2, 2, 2, 0, 0, 0, 0, 0, 0, 1, 2] := by decide

end Cs352Proxy
