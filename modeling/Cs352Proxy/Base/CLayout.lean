/-!
# Base.CLayout

Size and alignment of C objects under the LP64 data model. A struct places each field at the next
multiple of the field's alignment and is padded at its end to a multiple of its own alignment.
-/

namespace Base

structure CLayout where
  size : Nat
  align : Nat
deriving DecidableEq

namespace CLayout

def uint8 : CLayout := ⟨1, 1⟩
def uint16 : CLayout := ⟨2, 2⟩
def uint32 : CLayout := ⟨4, 4⟩
def uint64 : CLayout := ⟨8, 8⟩
def pointer : CLayout := ⟨8, 8⟩

def array (t : CLayout) (n : Nat) : CLayout := ⟨n * t.size, t.align⟩

def alignUp (off align : Nat) : Nat := (off + align - 1) / align * align

def struct (fields : List CLayout) : CLayout :=
  let off := fields.foldl (fun off f => alignUp off f.align + f.size) 0
  let align := fields.foldl (fun a f => max a f.align) 1
  ⟨alignUp off align, align⟩

end CLayout

end Base
