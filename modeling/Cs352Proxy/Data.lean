import Cs352Proxy.State
import Cs352Proxy.Wire

/-!
# Data

The codec of data packets. `ntohData` makes `data` point to the bytes behind the header, but
`htonData` copies from the address of `data`: the eight bytes of the pointer go into the buffer, and
behind them whatever lies behind the packet. So a payload comes back if it is found there.
-/

namespace Cs352Proxy

open Base

/-- The packet at `pkt` is encoded into `buffer` and decoded from it: the header is `head`, and the
bytes that the decoded pointer leads to are `payload`. -/
def DataComesBack (e : Endian) (mem : Ram) (pkt buffer : Nat) (head : PktHeader) (payload : Buf) :
    Prop :=
  ∃ mem', htonData e pkt buffer mem = some mem' ∧ ∃ p, ntohData e buffer mem' = some p ∧
    p.head = head ∧ mem'.load p.data.toNat head.length.toNat = some payload

/-- The `MAX_DATA_LEN` bytes from the pointer on can be read, none of them is to be overwritten, and,
with the header in the buffer, they start with the bytes that the pointer leads to. -/
def PayloadInPlace (mem : Ram) (pkt buffer : Nat) (p : DataPkt) : Prop :=
  mem.Mapped (pkt + offsetData) maxDataLen ∧
    Memory.Separate (buffer + 4) maxDataLen (pkt + offsetData) maxDataLen ∧
    (mem.put buffer (headerBytes p.head)).load (pkt + offsetData) p.head.length.toNat =
      mem.load p.data.toNat p.head.length.toNat

section Codec

variable {e : Endian} {mem mem' : Ram} {pkt buffer : Nat} {head : PktHeader}

/-- The encoder puts the header into the buffer and the bytes from the pointer on behind it. -/
theorem htonData_eq_some_iff (hhead : readHead e mem pkt = some head)
    (hbuffer : mem.Mapped buffer maxPktLen) :
    htonData e pkt buffer mem = some mem' ↔
      Memory.Separate (buffer + 4) maxDataLen (pkt + offsetData) maxDataLen ∧
        ∃ bytes, (mem.put buffer (headerBytes head)).load (pkt + offsetData) maxDataLen =
            some bytes ∧
          mem' = (mem.put buffer (headerBytes head)).put (buffer + 4) bytes := by
  have hmapped : mem.Mapped buffer headerLen := hbuffer.sub (b := 0) (by decide)
  have hrest : mem.Mapped (buffer + 4) maxDataLen := hbuffer.sub (by decide)
  obtain ⟨old, hold⟩ := Memory.exists_load_iff.mpr hmapped
  have hlen : old.length = 4 := Memory.load_length hold
  have hheader : htonHeader e head old = some (headerBytes head) := by
    rw [htonHeader_eq e head old (Nat.le_of_eq hlen.symm),
      List.drop_of_length_le (Nat.le_of_eq hlen), List.append_nil]
  have hstore : mem.store buffer (headerBytes head) = some (mem.put buffer (headerBytes head)) :=
    Memory.store_eq (by rwa [length_headerBytes])
  rw [htonData, hhead]
  simp only [Option.bind_eq_bind, Option.bind_some, hold, hheader, hstore]
  exact Memory.copy_eq_some_iff (Memory.mapped_put.mpr hrest)

theorem ntohData_put (e : Endian) (head : PktHeader) (bytes : Buf)
    (hbuffer : mem.Mapped buffer maxPktLen) :
    ∃ p, ntohData e buffer ((mem.put buffer (headerBytes head)).put (buffer + 4) bytes) = some p ∧
      p.head = head ∧ p.data.toNat = buffer + 4 := by
  have hmapped : mem.Mapped buffer (headerBytes head).length := by
    rw [length_headerBytes]
    exact hbuffer.sub (b := 0) (by decide)
  have hheader := Memory.load_put_self hmapped
  rw [length_headerBytes] at hheader
  have hload : ((mem.put buffer (headerBytes head)).put (buffer + 4) bytes).load buffer headerLen =
      some (headerBytes head) := by
    have hsep : Memory.Separate (buffer + 4) bytes.length buffer headerLen := .inr (Nat.le_refl _)
    rw [Memory.load_put_disjoint hsep]
    exact hheader
  have hdecode := ntohHeader_eq e head []
  rw [List.append_nil] at hdecode
  have haddr : buffer + 4 < 2 ^ 64 := hbuffer.lt (by decide)
  refine ⟨{ head, data := BitVec.ofNat 64 (buffer + 4) }, ?_, rfl, ?_⟩
  · simp only [ntohData, hload, hdecode, Option.bind_eq_bind, Option.bind_some]
  · rw [BitVec.toNat_ofNat, Nat.mod_eq_of_lt haddr]

/-- What comes back are the bytes in the place of the pointer. -/
theorem dataComesBack_iff_load (hhead : readHead e mem pkt = some head)
    (hlen : head.length.toNat ≤ maxDataLen) (hbuffer : mem.Mapped buffer maxPktLen) (payload : Buf) :
    DataComesBack e mem pkt buffer head payload ↔
      mem.Mapped (pkt + offsetData) maxDataLen ∧
        Memory.Separate (buffer + 4) maxDataLen (pkt + offsetData) maxDataLen ∧
        (mem.put buffer (headerBytes head)).load (pkt + offsetData) head.length.toNat =
          some payload := by
  have hrest : mem.Mapped (buffer + 4) maxDataLen := hbuffer.sub (by decide)
  -- the decoded pointer leads to the copied bytes
  have hback : ∀ {bytes : Buf}, (mem.put buffer (headerBytes head)).load (pkt + offsetData)
      maxDataLen = some bytes →
      ((mem.put buffer (headerBytes head)).put (buffer + 4) bytes).load (buffer + 4)
          head.length.toNat =
        (mem.put buffer (headerBytes head)).load (pkt + offsetData) head.length.toNat := by
    intro bytes hbytes
    have hfit : (mem.put buffer (headerBytes head)).Mapped (buffer + 4) bytes.length := by
      rw [Memory.load_length hbytes]
      exact Memory.mapped_put.mpr hrest
    have hall := Memory.load_put_self hfit
    rw [Memory.load_length hbytes] at hall
    rw [Memory.load_take hall hlen, Memory.load_take hbytes hlen]
  constructor
  · intro h
    obtain ⟨mem', henc, p, hdec, _, hload⟩ := h
    obtain ⟨hsep, bytes, hbytes, rfl⟩ := (htonData_eq_some_iff hhead hbuffer).mp henc
    obtain ⟨p', hdec', _, hdata⟩ := ntohData_put e head bytes hbuffer
    rw [hdec] at hdec'
    cases hdec'
    rw [hdata, hback hbytes] at hload
    exact ⟨Memory.mapped_put.mp (Memory.exists_load_iff.mp ⟨bytes, hbytes⟩), hsep, hload⟩
  · intro h
    obtain ⟨hmapped, hsep, hload⟩ := h
    have hmapped' : (mem.put buffer (headerBytes head)).Mapped (pkt + offsetData) maxDataLen :=
      Memory.mapped_put.mpr hmapped
    obtain ⟨bytes, hbytes⟩ := Memory.exists_load_iff.mpr hmapped'
    obtain ⟨p, hdec, hhead', hdata⟩ := ntohData_put e head bytes hbuffer
    refine ⟨_, (htonData_eq_some_iff hhead hbuffer).mpr ⟨hsep, bytes, hbytes, rfl⟩, p, hdec, hhead', ?_⟩
    rw [hdata, hback hbytes, hload]

end Codec

/-- A payload comes back exactly if the bytes in the place of the pointer are the bytes it leads to. -/
theorem dataComesBack_iff {e : Endian} {mem : Ram} {pkt buffer : Nat} {p : DataPkt} {payload : Buf}
    (hpkt : readDataPkt e mem pkt = some p) (hlen : p.head.length.toNat ≤ maxDataLen)
    (hpayload : mem.load p.data.toNat p.head.length.toNat = some payload)
    (hbuffer : mem.Mapped buffer maxPktLen) :
    DataComesBack e mem pkt buffer p.head payload ↔ PayloadInPlace mem pkt buffer p := by
  have hhead : readHead e mem pkt = some p.head := by
    simp only [readDataPkt, Option.bind_eq_bind, Option.bind_eq_some_iff] at hpkt
    obtain ⟨head, hhead, _, _, hp⟩ := hpkt
    cases hp
    exact hhead
  rw [PayloadInPlace, hpayload]
  exact dataComesBack_iff_load hhead hlen hbuffer payload

/-- A memory with a packet at the address 4096, the low byte of its pointer `low` and the next one 16,
and a byte 7 behind it. -/
def dataMemory (length low : U8) : Ram :=
  (Memory.filled 4096 8192 (by decide) 0).put 4096
    [0xCD, 0xAB, length, 0, 0, 0, 0, 0, low, 16, 0, 0, 0, 0, 0, 0, 7]

theorem dataMemory_mapped {length low : U8} {a n : Nat} (hbase : 4096 ≤ a) (hfit : a + n ≤ 12288) :
    (dataMemory length low).Mapped a n := Memory.mapped_put.mpr (Memory.mapped_filled hbase hfit)

/-- The one byte 7 behind the packet is sent: what comes back is the low byte of its address. -/
theorem pointer_is_sent : ∃ (e : Endian) (mem : Ram) (pkt buffer : Nat) (p : DataPkt) (payload : Buf),
    readDataPkt e mem pkt = some p ∧ p.head.length.toNat ≤ maxDataLen ∧
      mem.load p.data.toNat p.head.length.toNat = some payload ∧ mem.Mapped buffer maxPktLen ∧
      ¬ DataComesBack e mem pkt buffer p.head payload := by
  have hpkt : readDataPkt .little (dataMemory 1 16) 4096 =
      some { head := { type := pktData, length := 1 }, data := 4112 } := by decide +kernel
  have hhead : readHead .little (dataMemory 1 16) 4096 = some { type := pktData, length := 1 } := by
    decide +kernel
  have hbuffer : (dataMemory 1 16).Mapped 8192 maxPktLen := dataMemory_mapped (by decide) (by decide)
  refine ⟨.little, dataMemory 1 16, 4096, 8192, _, [7], hpkt, by decide, by decide +kernel, hbuffer, ?_⟩
  rw [dataComesBack_iff_load hhead (by decide) hbuffer]
  rintro ⟨_, _, hload⟩
  revert hload
  decide +kernel

/-- The data of this packet begins with the pointer itself. -/
theorem inline_data_comes_back :
    DataComesBack .little (dataMemory 9 8) 4096 8192 { type := pktData, length := 9 }
      [8, 16, 0, 0, 0, 0, 0, 0, 7] := by
  have hpkt : readDataPkt .little (dataMemory 9 8) 4096 =
      some { head := { type := pktData, length := 9 }, data := 4104 } := by decide +kernel
  have hbuffer : (dataMemory 9 8).Mapped 8192 maxPktLen := dataMemory_mapped (by decide) (by decide)
  exact (dataComesBack_iff hpkt (by decide) (by decide +kernel) hbuffer).mpr
    ⟨dataMemory_mapped (by decide) (by decide), by decide, by decide +kernel⟩

end Cs352Proxy
