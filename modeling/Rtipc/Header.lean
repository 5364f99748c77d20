/-
  `src/header.c`: the header of a request.
-/
import Rtipc.Attr

namespace Rtipc

/-- `MAGIC`. -/
def headerMagic : BitVec 16 := 0x1f0c

/-- `HEADER_VERSION`. -/
def headerVersion : BitVec 16 := 2

/-- `ri_request_header_t`. -/
structure RequestHeader where
  magic : BitVec 16
  version : BitVec 16
  cachelineSize : BitVec 16
  atomicSize : BitVec 16
  deriving DecidableEq, Repr

namespace RequestHeader

/-- `sizeof(ri_request_header_t)`. -/
def size : Size := 8

/-- The bytes of a header in memory. -/
def bytes (h : RequestHeader) : List Byte :=
  toBytes 2 h.magic.toNat ++ toBytes 2 h.version.toNat ++ toBytes 2 h.cachelineSize.toNat ++
    toBytes 2 h.atomicSize.toNat

/-- The header these bytes are. -/
def ofBytes (bs : List Byte) : RequestHeader where
  magic := BitVec.ofNat 16 (Rtipc.ofBytes (readAt bs 0 2))
  version := BitVec.ofNat 16 (Rtipc.ofBytes (readAt bs 2 2))
  cachelineSize := BitVec.ofNat 16 (Rtipc.ofBytes (readAt bs 4 2))
  atomicSize := BitVec.ofNat 16 (Rtipc.ofBytes (readAt bs 6 2))

/-- `ri_request_header_validate`. -/
def validate (cls : Size) (h : RequestHeader) : Int :=
  if h.magic ≠ headerMagic then -EINVAL
  else if h.version ≠ headerVersion then -EINVAL
  else if h.cachelineSize.setWidth 64 ≠ cls then -EINVAL
  else if h.atomicSize.setWidth 64 ≠ (4 : Size) then -EINVAL
  else 0

/-- `ri_request_header_init`. -/
def init (cls : Size) : RequestHeader where
  magic := headerMagic
  version := headerVersion
  cachelineSize := cls.setWidth 16
  atomicSize := 4

end RequestHeader

end Rtipc
