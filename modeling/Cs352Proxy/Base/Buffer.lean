import Mathlib.Tactic.Common

/-!
# Base.Buffer

Bounds-checked access to a flat buffer. `memcpy` and `slice` fail on an access outside the buffer,
so a program that succeeds touched nothing else. Consecutive writes are followed with
`memcpy_append`: a write at the end of what is already written extends it.
-/

namespace Base

variable {α : Type}

/-- Write `src` into `buf` at offset `off`. -/
def memcpy (buf : List α) (off : Nat) (src : List α) : Option (List α) :=
  if off + src.length ≤ buf.length then
    some (buf.take off ++ src ++ buf.drop (off + src.length))
  else none

/-- Read `n` cells at offset `off`. -/
def slice (buf : List α) (off n : Nat) : Option (List α) :=
  if off + n ≤ buf.length then some ((buf.drop off).take n) else none

theorem memcpy_append (off : Nat) (pre src rest : List α) (hoff : off = pre.length)
    (hfit : src.length ≤ rest.length) :
    memcpy (pre ++ rest) off src = some ((pre ++ src) ++ rest.drop src.length) := by
  subst hoff
  have h : pre.length + src.length ≤ (pre ++ rest).length := by
    rw [List.length_append]; omega
  simp [memcpy, List.drop_append]
  omega

theorem memcpy_length {buf src buf' : List α} {off : Nat} (h : memcpy buf off src = some buf') :
    buf'.length = buf.length ∧ off + src.length ≤ buf.length := by
  simp only [memcpy] at h
  split at h
  · rename_i hle
    cases h
    simp [List.length_take, List.length_drop]
    omega
  · cases h

theorem memcpy_take {buf src buf' : List α} {off k : Nat} (h : memcpy buf off src = some buf')
    (hk : k ≤ off) : buf'.take k = buf.take k := by
  simp only [memcpy] at h
  split at h
  · rename_i hle
    cases h
    have hlen : k ≤ (buf.take off).length := by rw [List.length_take]; omega
    rw [List.append_assoc, List.take_append_of_le_length hlen, List.take_take, Nat.min_eq_left hk]
  · cases h

theorem slice_some {buf bs : List α} {off n : Nat} (h : slice buf off n = some bs) :
    off + n ≤ buf.length := by
  simp only [slice] at h
  split at h
  · assumption
  · cases h

theorem length_slice {buf bs : List α} {off n : Nat} (h : slice buf off n = some bs) :
    bs.length = n := by
  have hfit := slice_some h
  rw [slice, if_pos hfit] at h
  cases h
  rw [List.length_take, List.length_drop]
  omega

theorem slice_append_left {off n : Nat} (buf rest : List α) (hfit : off + n ≤ buf.length) :
    slice (buf ++ rest) off n = slice buf off n := by
  have hfit' : off + n ≤ (buf ++ rest).length := by rw [List.length_append]; omega
  have hn : n ≤ (buf.drop off).length := by rw [List.length_drop]; omega
  rw [slice, slice, if_pos hfit, if_pos hfit', List.drop_append_of_le_length (by omega),
    List.take_append_of_le_length hn]

theorem slice_append {off n : Nat} (pre mid rest : List α) (hoff : off = pre.length)
    (hn : n = mid.length) : slice (pre ++ (mid ++ rest)) off n = some mid := by
  subst hoff hn
  simp [slice]

end Base
