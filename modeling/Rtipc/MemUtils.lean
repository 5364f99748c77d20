/-
  `src/mem_utils.h`: sizes, and rounding them up.

  All sizes are `size_t`, 64-bit words that wrap around.  The size of a cacheline, which
  `cacheline_size` finds out once, is the parameter `cls` of everything that depends on it.
-/
import Rtipc.Lib.Alignment

namespace Rtipc

/-- `size_t`, and an address (`uintptr_t`). -/
abbrev Size := BitVec 64

/-- `unsigned`, and `uint32_t`. -/
abbrev Unsigned := BitVec 32

/-- `mem_align`. -/
def memAlign (size alignment : Size) : Size := (size + alignment - 1) &&& ~~~(alignment - 1)

/-- `mem_offset`. -/
def memOffset (p offset : Size) : Size := p + offset

/-- `cacheline_aligned`. -/
def cachelineAligned (cls size : Size) : Size := memAlign size cls

/-- `alignof(max_align_t)`. -/
def maxAlign : Size := 16

/-- `mem_maxalign`. -/
def memMaxalign (size : Size) : Size := memAlign size maxAlign

/-- `mem_align` rounds up if nothing wraps. -/
theorem toNat_memAlign {size alignment : Size} {k : Nat} (ha : alignment.toNat = 2 ^ k)
    (h : size.toNat + alignment.toNat - 1 < 2 ^ 64) :
    (memAlign size alignment).toNat = alignUp alignment.toNat size.toNat :=
  toNat_alignWord ha h

theorem toNat_memMaxalign {size : Size} (h : size.toNat < 2 ^ 64 - 15) :
    (memMaxalign size).toNat = alignUp 16 size.toNat :=
  toNat_alignWord (a := maxAlign) (k := 4) rfl (by show size.toNat + 16 - 1 < 2 ^ 64; omega)

end Rtipc
