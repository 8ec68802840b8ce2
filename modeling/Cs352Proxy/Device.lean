import Cs352Proxy.Config
import Cs352Proxy.Base.Buffer

/-!
# Device

`allocate_tunnel`. It asks for the tap device, writes the path of the device's address file into a
buffer, reads the file over the path, and takes the MAC address out of the buffer with `sscanf`. `fread`
adds no terminator: the string ends where that of the path did, or wherever the stack holds a zero.

* `scanByte`, `scanBytes`: `%hhX` and the format of six of them.
* `scanBytes_addressText`: they read back what the file shows.
* `allocateTunnel_reads_iff`: the address is read whatever the stack held exactly if the file is no
  longer than its path, as it is for six bytes (`allocateTunnel_mac`).
-/

namespace Cs352Proxy

open Base

/-- `MAX_DEV_LINE`. -/
def maxDevLine : Nat := 256

/-- `IFNAMSIZ`. -/
def ifNamSiz : Nat := 16

def colon : U8 := 58

/-! ## Hexadecimal numbers -/

/-- `isxdigit`. -/
def isXdigit (b : U8) : Bool := isDigit b || (65 ≤ b && b ≤ 70) || (97 ≤ b && b ≤ 102)

/-- The value of a hexadecimal digit of either case. -/
def xdigitValue (b : U8) : Nat :=
  if b ≤ 57 then b.toNat - 48 else if b ≤ 70 then b.toNat - 55 else b.toNat - 87

def hexadecimal (digits : Buf) : Nat := digits.foldl (fun n b => 16 * n + xdigitValue b) 0

/-- The sign in front of a number, and what is behind it. -/
def scanSign : Buf → Bool × Buf
  | [] => (false, [])
  | b :: s => if b = 45 then (true, s) else if b = 43 then (false, s) else (false, b :: s)

/-- `0x` may stand in front of the digits. -/
def skipHexPrefix : Buf → Buf
  | b :: b' :: s => if b = 48 ∧ (b' = 88 ∨ b' = 120) then s else b :: b' :: s
  | s => s

/-- `%hhX`: the byte that is stored, and what is behind the number. A number out of range becomes the
largest `unsigned long`. -/
def scanByte (s : Buf) : Option (U8 × Buf) :=
  let (negative, s) := scanSign (s.dropWhile isWhite)
  let s := skipHexPrefix s
  match s.takeWhile isXdigit with
  | [] => none
  | digits =>
    let n := hexadecimal digits
    let value : Int := if 2 ^ 64 ≤ n then 2 ^ 64 - 1 else if negative then -n else n
    some (BitVec.ofInt 8 value, s.dropWhile isXdigit)

/-- `sscanf(s, "%hhX:%hhX:..", ..)` with `n` conversions: the bytes that are stored. -/
def scanBytes : Nat → Buf → List U8
  | 0, _ => []
  | n + 1, s =>
    match scanByte s with
    | none => []
    | some (b, []) => [b]
    | some (b, c :: rest) => if c = colon then b :: scanBytes n rest else [b]

/-! ## The function -/

/-- What the calls into the system return. -/
structure Kernel where
  /-- `open("/dev/net/tun", O_RDWR)`. -/
  openTun : Int
  /-- `ioctl(fd, TUNSETIFF, &ifr)` for `ifr_flags` and the name asked for, and the name it leaves. -/
  tunSetIff : U16 → Buf → Int × Buf
  /-- The files that can be opened. -/
  file : Buf → Option Buf

def addressPath (dev : Buf) : Buf := ascii "/sys/class/net/" ++ dev ++ ascii "/address"

/-- The first bytes of `local_mac` are overwritten. -/
def Mac.overwrite (m : Mac) (bytes : List U8) : Mac where
  bytes := bytes.take 6 ++ m.bytes.drop bytes.length
  length_bytes := by
    simp only [List.length_append, List.length_take, List.length_drop, m.length_bytes]
    omega

/-- `allocate_tunnel(dev, flags, local_mac)`: the result, and what `dev` and `local_mac` hold then.
`dev` is an array with a string in it, `buffer` is what the array was on the stack. It fails where the
program leaves an array or reads through `NULL`. -/
def allocateTunnel (k : Kernel) (buffer dev : Buf) (flags : Int) (localMac : Mac) :
    Option (Int × Buf × Mac) :=
  if k.openTun < 0 then some (k.openTun, dev, localMac)
  else if dev = [] then none
  else
    let ifr := k.tunSetIff (BitVec.ofInt 16 flags) ((cstr dev).take ifNamSiz)
    if ifr.1 < 0 then some (ifr.1, dev, localMac)
    else do
      let dev ← memcpy dev 0 (cstr ifr.2 ++ [0])
      let path := addressPath (cstr dev)
      let buffer ← memcpy buffer 0 (path ++ [0])
      let text ← k.file path
      let buffer ← memcpy buffer 0 (text.take maxDevLine)
      if 0 ∈ buffer then some (k.openTun, dev, localMac.overwrite (scanBytes 6 (cstr buffer)))
      else none

/-! ## The address file -/

def hexDigit (n : Nat) : U8 := BitVec.ofNat 8 (if n < 10 then 48 + n else 87 + n)

def hexByte (b : U8) : Buf := [hexDigit (b.toNat / 16), hexDigit (b.toNat % 16)]

/-- The file shows the bytes of a hardware address in lower case. -/
def addressText : List U8 → Buf
  | [] => [newline]
  | [b] => hexByte b ++ [newline]
  | b :: b' :: hw => hexByte b ++ colon :: addressText (b' :: hw)

theorem length_addressText {hw : List U8} (hhw : hw ≠ []) : (addressText hw).length = 3 * hw.length := by
  induction hw with
  | nil => exact absurd rfl hhw
  | cons b hw ih =>
    cases hw with
    | nil => rfl
    | cons b' hw =>
      have hrest := ih (by simp)
      simp only [addressText, hexByte, List.length_append, List.length_cons, List.length_nil] at hrest ⊢
      omega

theorem length_addressPath (dev : Buf) : (addressPath dev).length = 23 + dev.length := by
  have hdir : (ascii "/sys/class/net/").length = 15 := by decide
  have hfile : (ascii "/address").length = 8 := by decide
  rw [addressPath, List.length_append, List.length_append, hdir, hfile]
  omega

theorem hexDigit_facts : ∀ n < 16, isXdigit (hexDigit n) = true ∧ xdigitValue (hexDigit n) = n ∧
    isWhite (hexDigit n) = false ∧ hexDigit n ≠ 45 ∧ hexDigit n ≠ 43 ∧ hexDigit n ≠ 88 ∧
      hexDigit n ≠ 120 ∧ hexDigit n ≠ 0 := by decide

theorem scanByte_hexByte (b c : U8) (rest : Buf) (hc : isXdigit c = false) :
    scanByte (hexByte b ++ c :: rest) = some (b, c :: rest) := by
  have hlt := b.isLt
  obtain ⟨hx, hv, hw, hm, hp, _, _, _⟩ := hexDigit_facts (b.toNat / 16) (by omega)
  obtain ⟨hx', hv', _, _, _, hX, hx₀, _⟩ := hexDigit_facts (b.toNat % 16) (Nat.mod_lt _ (by decide))
  have hvalue : hexadecimal [hexDigit (b.toNat / 16), hexDigit (b.toNat % 16)] = b.toNat := by
    simp only [hexadecimal, List.foldl_cons, List.foldl_nil, hv, hv']
    omega
  have hsmall : ¬ 2 ^ 64 ≤ b.toNat := by omega
  have hbyte : BitVec.ofInt 8 (b.toNat : Int) = b := by
    rw [BitVec.ofInt_natCast, BitVec.ofNat_toNat, BitVec.setWidth_eq]
  rw [hexByte]
  generalize hexDigit (b.toNat / 16) = d at hx hw hm hp hvalue ⊢
  generalize hexDigit (b.toNat % 16) = d' at hx' hX hx₀ hvalue ⊢
  change scanByte (d :: d' :: c :: rest) = _
  have hblank : (d :: d' :: c :: rest).dropWhile isWhite = d :: d' :: c :: rest :=
    List.dropWhile_cons_of_neg (by rw [hw]; decide)
  have hsign : scanSign (d :: d' :: c :: rest) = (false, d :: d' :: c :: rest) := by
    simp only [scanSign, if_neg hm, if_neg hp]
  have hprefix : skipHexPrefix (d :: d' :: c :: rest) = d :: d' :: c :: rest := by
    simp only [skipHexPrefix, hX, hx₀, or_self, and_false, if_false]
  have hdigits : (d :: d' :: c :: rest).takeWhile isXdigit = [d, d'] := by
    simp only [List.takeWhile_cons, hx, hx', hc, if_true, Bool.false_eq_true, if_false]
  have hrest : (d :: d' :: c :: rest).dropWhile isXdigit = c :: rest := by
    simp only [List.dropWhile_cons, hx, hx', hc, if_true, Bool.false_eq_true, if_false]
  simp only [scanByte, hblank, hsign, hprefix, hdigits, hrest, hvalue, if_neg hsmall,
    Bool.false_eq_true, if_false, hbyte]

/-- The conversions read the first bytes of the address, whatever is behind the text. -/
theorem scanBytes_addressText {hw : List U8} (hhw : hw ≠ []) (n : Nat) (rest : Buf) :
    scanBytes n (addressText hw ++ rest) = hw.take n := by
  induction hw generalizing n with
  | nil => exact absurd rfl hhw
  | cons b hw ih =>
    cases n with
    | zero => rfl
    | succ n =>
      cases hw with
      | nil =>
        have hscan := scanByte_hexByte b newline rest (by decide)
        have hne : newline ≠ colon := by decide
        simp only [addressText, List.append_assoc, List.singleton_append, scanBytes, hscan, if_neg hne,
          List.take_succ_cons, List.take_nil]
      | cons b' hw =>
        have hscan := scanByte_hexByte b colon (addressText (b' :: hw) ++ rest) (by decide)
        simp only [addressText, List.append_assoc, List.cons_append, scanBytes, hscan, if_true,
          ih (by simp) n, List.take_succ_cons]

/-! ## Zeros -/

theorem zero_not_mem_hexByte (b : U8) : (0 : U8) ∉ hexByte b := by
  have hlt := b.isLt
  obtain ⟨_, _, _, _, _, _, _, hhigh⟩ := hexDigit_facts (b.toNat / 16) (by omega)
  obtain ⟨_, _, _, _, _, _, _, hlow⟩ := hexDigit_facts (b.toNat % 16) (Nat.mod_lt _ (by decide))
  rw [hexByte, List.mem_cons, List.mem_singleton, not_or]
  exact ⟨Ne.symm hhigh, Ne.symm hlow⟩

theorem zero_not_mem_addressText (hw : List U8) : (0 : U8) ∉ addressText hw := by
  have hnewline : (0 : U8) ∉ [newline] := by decide
  induction hw with
  | nil => exact hnewline
  | cons b hw ih =>
    cases hw with
    | nil =>
      rw [addressText, List.mem_append, not_or]
      exact ⟨zero_not_mem_hexByte b, hnewline⟩
    | cons b' hw =>
      rw [addressText, List.mem_append, List.mem_cons, not_or, not_or]
      exact ⟨zero_not_mem_hexByte b, by decide, ih⟩

theorem zero_not_mem_addressPath {dev : Buf} (hdev : (0 : U8) ∉ dev) : (0 : U8) ∉ addressPath dev := by
  rw [addressPath, List.mem_append, List.mem_append, not_or, not_or]
  exact ⟨⟨by decide, hdev⟩, by decide⟩

theorem cstr_append_zero {s : Buf} (hs : (0 : U8) ∉ s) (rest : Buf) : cstr (s ++ 0 :: rest) = s := by
  induction s with
  | nil => rfl
  | cons b s ih =>
    obtain ⟨hb, hs⟩ := List.ne_and_not_mem_of_not_mem_cons hs
    rw [List.cons_append, cstr_cons_of_ne _ (Ne.symm hb), ih hs]

/-! ## The buffer -/

section Reads

variable {k : Kernel} {flags : Int} {dev name text buffer : Buf}

/-- A device that can be opened, under a name that fits into `dev`, with the text in its file. -/
structure Opens (k : Kernel) (flags : Int) (dev name text : Buf) : Prop where
  openTun : 0 ≤ k.openTun
  tunSetIff : ∃ result, 0 ≤ result ∧
    k.tunSetIff (BitVec.ofInt 16 flags) ((cstr dev).take ifNamSiz) = (result, name ++ [0])
  terminated : (0 : U8) ∉ name
  short : name.length < ifNamSiz
  fits : name.length < dev.length
  file : k.file (addressPath name) = some text

/-- Up to `fread`. -/
theorem Opens.allocateTunnel_eq (h : Opens k flags dev name text)
    (hbuffer : buffer.length = maxDevLine) (localMac : Mac) :
    allocateTunnel k buffer dev flags localMac =
      (memcpy (addressPath name ++ 0 :: buffer.drop (addressPath name).length.succ) 0
        (text.take maxDevLine)).bind fun buffer =>
          if 0 ∈ buffer then some (k.openTun, name ++ 0 :: dev.drop name.length.succ,
            localMac.overwrite (scanBytes 6 (cstr buffer)))
          else none := by
  obtain ⟨result, hresult, hifr⟩ := h.tunSetIff
  have hfits := h.fits
  have hshort := h.short
  have hpath := length_addressPath name
  have hne : dev ≠ [] := by rintro rfl; cases hfits
  have hopened : ¬ k.openTun < 0 := Int.not_lt.mpr h.openTun
  have hset : ¬ result < 0 := Int.not_lt.mpr hresult
  have hname : cstr (name ++ [0]) = name := cstr_append_zero h.terminated []
  have hdev := memcpy_append 0 [] (name ++ [0]) dev rfl (by simp; omega)
  have hdev' : cstr (name ++ 0 :: dev.drop name.length.succ) = name := cstr_append_zero h.terminated _
  have hwritten := memcpy_append 0 [] (addressPath name ++ [0]) buffer rfl
    (by simp only [List.length_append, hpath, hbuffer, maxDevLine, ifNamSiz] at *; simp; omega)
  simp only [List.nil_append, List.length_append, List.length_singleton, List.append_assoc,
    List.singleton_append] at hdev hwritten
  simp only [allocateTunnel, if_neg hopened, if_neg hne, hifr, if_neg hset, hname, hdev, hdev',
    hwritten, h.file, Option.bind_eq_bind, Option.bind_some]

/-- A text that is no longer than the path ends inside it. -/
theorem Opens.allocateTunnel_scans (h : Opens k flags dev name text)
    (hbuffer : buffer.length = maxDevLine) (htext : (0 : U8) ∉ text)
    (hlen : text.length ≤ (addressPath name).length) (localMac : Mac) :
    allocateTunnel k buffer dev flags localMac =
      some (k.openTun, name ++ 0 :: dev.drop name.length.succ,
        localMac.overwrite (scanBytes 6 (text ++ (addressPath name).drop text.length))) := by
  have hshort := h.short
  have hpath := length_addressPath name
  have hall : text.take maxDevLine = text := by
    refine List.take_of_length_le ?_
    simp only [maxDevLine, ifNamSiz] at *
    omega
  let rest := buffer.drop (addressPath name).length.succ
  have hread := memcpy_append 0 [] text (addressPath name ++ 0 :: rest) rfl
    (by rw [List.length_append]; omega)
  rw [List.nil_append, List.nil_append, List.drop_append_of_le_length hlen, ← List.append_assoc] at hread
  have hzero : (0 : U8) ∈ text ++ (addressPath name).drop text.length ++ 0 :: rest := by simp
  have hend : (0 : U8) ∉ text ++ (addressPath name).drop text.length := by
    rw [List.mem_append, not_or]
    exact ⟨htext, fun hmem => zero_not_mem_addressPath h.terminated (List.mem_of_mem_drop hmem)⟩
  rw [h.allocateTunnel_eq hbuffer, hall, hread, Option.bind_some, if_pos hzero,
    cstr_append_zero hend]

/-- A longer text is written over the end of the path, and over any other zero there may be. -/
theorem Opens.allocateTunnel_overruns (h : Opens k flags dev name text) (htext : (0 : U8) ∉ text)
    (hlen : (addressPath name).length < text.length) (localMac : Mac) :
    allocateTunnel k (List.replicate maxDevLine 1) dev flags localMac = none := by
  have hshort := h.short
  have hpath : (addressPath name).length < maxDevLine := by
    rw [length_addressPath, maxDevLine]
    rw [ifNamSiz] at hshort
    omega
  rw [h.allocateTunnel_eq List.length_replicate]
  generalize addressPath name = path at hlen hpath ⊢
  let rest : Buf := (List.replicate maxDevLine 1).drop path.length.succ
  have hrest : rest.length = maxDevLine - path.length.succ := by
    rw [List.length_drop, List.length_replicate]
  have hn : (text.take maxDevLine).length = min maxDevLine text.length := List.length_take
  have hread := memcpy_append 0 [] (text.take maxDevLine) (path ++ 0 :: rest) rfl
    (by rw [hn, List.length_append, List.length_cons, hrest]; omega)
  have hover : (path ++ [0]).drop (text.take maxDevLine).length = [] :=
    List.drop_eq_nil_of_le (by rw [hn, List.length_append, List.length_singleton]; omega)
  rw [List.append_cons path 0 rest, List.drop_append, hover, List.nil_append, List.nil_append,
    List.nil_append] at hread
  have hnone : ∀ n, (0 : U8) ∉ text.take maxDevLine ++ rest.drop n := by
    intro n
    rw [List.mem_append, not_or]
    refine ⟨fun hmem => htext (List.mem_of_mem_take hmem), fun hmem => ?_⟩
    have hone := List.eq_of_mem_replicate (List.mem_of_mem_drop (List.mem_of_mem_drop hmem))
    exact absurd hone (by decide)
  rw [List.append_cons path 0, hread, Option.bind_some, if_neg (hnone _)]

variable {hw : List U8}

/-- The first six bytes of the device's address are read into `local_mac`, whatever the stack held,
exactly if the file is no longer than its path. -/
theorem allocateTunnel_reads_iff (h : Opens k flags dev name (addressText hw)) (localMac : Mac) :
    (∀ buffer : Buf, buffer.length = maxDevLine → allocateTunnel k buffer dev flags localMac =
      some (k.openTun, name ++ 0 :: dev.drop name.length.succ, localMac.overwrite (hw.take 6))) ↔
        (addressText hw).length ≤ (addressPath name).length := by
  have htext := zero_not_mem_addressText hw
  refine ⟨fun hreads => ?_, fun hlen buffer hbuffer => ?_⟩
  · by_contra hlong
    have hnone := h.allocateTunnel_overruns htext (Nat.lt_of_not_le hlong) localMac
    rw [hreads _ List.length_replicate] at hnone
    cases hnone
  · have hscan : scanBytes 6 (addressText hw ++ (addressPath name).drop (addressText hw).length) =
        hw.take 6 := by
      cases hw with
      | nil => rfl
      | cons b hw => exact scanBytes_addressText (by simp) 6 _
    rw [h.allocateTunnel_scans hbuffer htext hlen, hscan]

/-- A tap device with six bytes, and a device whose address has twenty. -/
def twoDevices : Kernel where
  openTun := 3
  tunSetIff _ name := (0, name ++ [0])
  file path :=
    if path = addressPath (ascii "tap2") then some (addressText [0xde, 0xad, 0xbe, 0xef, 0, 7])
    else if path = addressPath (ascii "ib0") then some (addressText (List.replicate 20 0xfe))
    else none

theorem six_bytes_read :
    (∀ buffer : Buf, buffer.length = maxDevLine →
      allocateTunnel twoDevices buffer (ascii "tap2" ++ [0]) 0x1002 Mac.zero =
        some (3, ascii "tap2" ++ [0], ⟨[0xde, 0xad, 0xbe, 0xef, 0, 7], rfl⟩)) ∧
    ¬ ∀ buffer : Buf, buffer.length = maxDevLine →
      allocateTunnel twoDevices buffer (ascii "ib0" ++ [0]) 0x1002 Mac.zero =
        some (3, ascii "ib0" ++ [0], ⟨[0xfe, 0xfe, 0xfe, 0xfe, 0xfe, 0xfe], rfl⟩) := by
  have htap : Opens twoDevices 0x1002 (ascii "tap2" ++ [0]) (ascii "tap2")
      (addressText [0xde, 0xad, 0xbe, 0xef, 0, 7]) :=
    ⟨by decide, ⟨0, by decide, by decide⟩, by decide, by decide, by decide, by decide⟩
  have hib : Opens twoDevices 0x1002 (ascii "ib0" ++ [0]) (ascii "ib0")
      (addressText (List.replicate 20 0xfe)) :=
    ⟨by decide, ⟨0, by decide, by decide⟩, by decide, by decide, by decide, by decide⟩
  refine ⟨(allocateTunnel_reads_iff htap Mac.zero).mpr (by decide), fun h => ?_⟩
  have hlong : ¬ (addressText (List.replicate 20 0xfe)).length ≤ (addressPath (ascii "ib0")).length := by
    decide
  exact hlong ((allocateTunnel_reads_iff hib Mac.zero).mp h)

/-- An address of six bytes is always read. -/
theorem allocateTunnel_mac {mac : Mac} (h : Opens k flags dev name (addressText mac.bytes))
    (hbuffer : buffer.length = maxDevLine) (localMac : Mac) :
    allocateTunnel k buffer dev flags localMac =
      some (k.openTun, name ++ 0 :: dev.drop name.length.succ, mac) := by
  have hne : mac.bytes ≠ [] := by
    intro hnil
    have hlen := mac.length_bytes
    rw [hnil] at hlen
    cases hlen
  have hover : localMac.overwrite (mac.bytes.take 6) = mac := by
    ext1
    have htake : mac.bytes.take 6 = mac.bytes := List.take_of_length_le (Nat.le_of_eq mac.length_bytes)
    have hdrop : localMac.bytes.drop 6 = [] := List.drop_eq_nil_of_le (Nat.le_of_eq localMac.length_bytes)
    rw [Mac.overwrite]
    simp only [htake, mac.length_bytes, hdrop, List.append_nil]
  have hlen : (addressText mac.bytes).length ≤ (addressPath name).length := by
    rw [length_addressText hne, mac.length_bytes, length_addressPath]
    omega
  have hreads := (allocateTunnel_reads_iff h localMac).mpr hlen buffer hbuffer
  rwa [hover] at hreads

end Reads

end Cs352Proxy
