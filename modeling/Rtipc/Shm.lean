/-
  `src/shm.c` and `src/unix.c`: the shared memory and the descriptors.

  What the system answers to a call is an `Os`.  A call asks for each thing at most once, so an `Os` is
  any pattern of failures: a block or not, a descriptor or a negative number, the size of a file, an
  address for the mapping.  The checks of a descriptor are one answer each; there is no file behind a
  negative descriptor.

  The reference counter is an `atomic_int`, 32 bits that wrap around.
-/
import Rtipc.Attr

namespace Rtipc

/-- What the system answers. -/
structure Os where
  tables : Allocator
  /-- `calloc` and `malloc` of a block other than the ones of the group data. -/
  block : Block → Bool
  memfdCreate : Int
  ftruncate : Size → Int
  addSeals : Int
  fstat : Int → Option Size
  mmap : Int → Size → Option Size
  mlock : Int
  /-- `ri_eventfd_create` for this channel. -/
  eventfdCreate : Role → Nat → Int
  /-- `ri_memfd_verify`. -/
  memfdVerify : Int → Int
  memfdVerify_neg : ∀ fd, fd < 0 → memfdVerify fd < 0
  /-- `ri_eventfd_verify`. -/
  eventfdVerify : Int → Int
  /-- `ri_set_nonblocking`. -/
  setNonblocking : Int → Int

/-- `ri_shm_t`; `mem` is an address. -/
structure Shm where
  refCnt : Unsigned
  mem : Size
  size : Size
  fd : Int
  deriving DecidableEq, Repr

/-- `close`, if there is a descriptor. -/
def closed (fd : Int) : List Event :=
  if fd ≥ 0 then [.release (.descriptor fd)] else []

/-- `shm_delete`. -/
def shmDelete (shm : Shm) : List Event :=
  [.release .mapping, .release (.descriptor shm.fd), .release (.block .shm)]

/-- `ri_shm_map`.  If the memory cannot be locked it stays mapped. -/
def shmMap (os : Os) (fd : Int) : Option Shm × List Event :=
  if os.block .shm then
    match os.fstat fd with
    | none => (none, [.acquire (.block .shm), .release (.block .shm)])
    | some size =>
      match os.mmap fd size with
      | none => (none, [.acquire (.block .shm), .release (.block .shm)])
      | some mem =>
        if os.mlock < 0 then
          (none, [.acquire (.block .shm), .acquire .mapping, .release (.block .shm)])
        else
          (some { refCnt := 1, mem := mem, size := size, fd := fd },
            [.acquire (.block .shm), .acquire .mapping])
  else (none, [])

/-- `ri_shm_ref`. -/
def shmRef (shm : Shm) : Shm := { shm with refCnt := shm.refCnt + 1 }

/-- `ri_shm_unref`. -/
def shmUnref (shm : Shm) : Shm × List Event :=
  ({ shm with refCnt := shm.refCnt - 1 }, if shm.refCnt = 1 then shmDelete shm else [])

/-- `ri_shm_ptr`. -/
def shmPtr (shm : Shm) (offset : Size) : Option Size :=
  if offset ≥ shm.size then none else some (memOffset shm.mem offset)

/-- `shm_init`, with seals. -/
def shmInit (os : Os) (size : Size) : Int :=
  if os.ftruncate size < 0 then os.ftruncate size else os.addSeals

/-- `ri_shmfd_create`. -/
def shmfdCreate (os : Os) (size : Size) : Int × List Event :=
  if os.memfdCreate < 0 then (os.memfdCreate, [])
  else if shmInit os size < 0 then
    (shmInit os size,
      [.acquire (.descriptor os.memfdCreate), .release (.descriptor os.memfdCreate)])
  else (os.memfdCreate, [.acquire (.descriptor os.memfdCreate)])

/-- `shm_new` of `group.c`. -/
def shmNew (os : Os) (size : Size) : Option Shm × List Event :=
  let (shmfd, events) := shmfdCreate os size
  if shmfd < 0 then (none, events)
  else
    match shmMap os shmfd with
    | (none, events') => (none, events ++ events' ++ [.release (.descriptor shmfd)])
    | (some shm, events') => (some shm, events ++ events')

end Rtipc
