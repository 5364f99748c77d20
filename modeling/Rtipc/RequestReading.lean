/-
  How `ri_request_parse` reads: the reader, the tables and the infos.

  `RequestReader.At` is what is left of the request.  `channelsOf` are the attributes that end up in a
  table; it keeps, as the parser does, a zero attribute for each entry that the request does not have.
  `placeAll` runs through all infos at once, in the order in which `read_infos` copies them.

  Behind the two counts the parser allocates the tables and reads them, `parseGroup`; what it does
  then is `fillInfos`.

  1. **The reader.**  `RequestReader.At` is kept by each read and says what the bytes are that were
     read; a read that runs out of bytes leaves the reader where it is.

  2. **The tables.**  Two loops, one result: `channelsOf` on the bytes from 20 on.  That a missing entry
     leaves its attribute as `calloc` has made it is part of `channelsOf`, so it need not be told apart
     later.

  3. **The infos.**  The functions that place the infos go through the tables channel by channel.
     `InfoReader.placeChannels_eq` turns this into one list of infos, and from there on the tables do
     not matter: there are infos that fit and are there (`placeAll_ok`), and infos that do not fit
     (`placeAll_fault`).
-/
import Rtipc.Request

namespace Rtipc

/-! ## The reader -/

/-- The reader stands in front of the bytes `rest`, which are all that is left of its request. -/
structure RequestReader.At (reader : RequestReader) (rest : List Byte) : Prop where
  offset : reader.offset.toNat ≤ reader.size.toNat
  size : reader.size.toNat ≤ reader.data.length
  small : reader.data.length ≤ ptrdiffMax
  rest : (reader.data.take reader.size.toNat).drop reader.offset.toNat = rest

section reader

variable {reader : RequestReader} {rest src : List Byte} {size : Size}

/-- The reader has read what is not left. -/
theorem RequestReader.At.length (h : reader.At rest) :
    reader.offset.toNat + rest.length = reader.size.toNat := by
  have hlen := congrArg List.length h.rest
  rw [List.length_drop, List.length_take, Nat.min_eq_left h.size] at hlen
  have := h.offset
  omega

/-- A read that the request has the bytes for. -/
theorem RequestReader.At.read (h : reader.At (src ++ rest)) (hsize : size.toNat = src.length) :
    ∃ reader', reader.read size = .ok (0, src, reader') ∧ reader'.At rest := by
  have hlen := h.length
  have hdata := h.size
  have hsmall := h.small
  rw [List.length_append] at hlen
  have hmax : ptrdiffMax < 2 ^ 63 := by decide
  have hsum : (reader.offset + size).toNat = reader.offset.toNat + src.length := by
    rw [BitVec.toNat_add, hsize]
    omega
  have hle : ¬ reader.offset + size > reader.size := by
    rw [gt_iff_lt, BitVec.lt_def, hsum]
    omega
  have hsrc : readAt reader.data reader.offset.toNat size.toNat = src := by
    have hrest := congrArg (List.take src.length) h.rest
    rw [List.take_left, List.drop_take, List.take_take, Nat.min_eq_left (by omega)] at hrest
    rw [readAt, hsize, hrest]
  refine ⟨{ reader with offset := reader.offset + size }, ?_, ?_, hdata, hsmall, ?_⟩
  · rw [RequestReader.read, if_neg hle, loadBytes, if_pos (by omega), hsrc]
    rfl
  · show (reader.offset + size).toNat ≤ reader.size.toNat
    omega
  · show (reader.data.take reader.size.toNat).drop (reader.offset + size).toNat = rest
    rw [hsum, ← List.drop_drop, h.rest, List.drop_left]

/-- A read that runs out of bytes. -/
theorem RequestReader.At.read_short (h : reader.At rest) (hlt : rest.length < size.toNat)
    (hsize : size.toNat < 2 ^ 63) : reader.read size = .ok (-1, [], reader) := by
  have hlen := h.length
  have hdata := h.size
  have hsmall := h.small
  have hmax : ptrdiffMax < 2 ^ 63 := by decide
  have hgt : reader.offset + size > reader.size := by
    rw [gt_iff_lt, BitVec.lt_def, BitVec.toNat_add]
    omega
  rw [RequestReader.read, if_pos hgt]
  rfl

end reader

/-! ## The table of entries

  What the bytes say, as a list, before anything is said about the functions that read them. -/

/-- The attributes of the first `n` entries in the bytes `rest`, and the bytes behind them.  Where
    there is no entry left the attribute is the one that the table was allocated with. -/
def channelsOf : Nat → List Byte → List (ChannelAttr InfoPtr) × List Byte
  | 0, rest => ([], rest)
  | n + 1, rest =>
    if rest.length < 16 then (ChannelAttr.zero :: (channelsOf n rest).1, (channelsOf n rest).2)
    else ((Entry.ofBytes (rest.take 16)).attr :: (channelsOf n (rest.drop 16)).1,
      (channelsOf n (rest.drop 16)).2)

section channels

variable {reader : RequestReader} {rest : List Byte}

/-- From less than one entry no entry is read: all channels stay as the table had them. -/
theorem channelsOf_short {n : Nat} (h : rest.length < 16) :
    channelsOf n rest = (List.replicate n ChannelAttr.zero, rest) := by
  induction n with
  | zero => rfl
  | succ n ih => rw [channelsOf, if_pos h, ih, List.replicate_succ]

/-- The table keeps its length. -/
@[simp] theorem length_channelsOf (n : Nat) (rest : List Byte) :
    (channelsOf n rest).1.length = n := by
  induction n generalizing rest with
  | zero => rfl
  | succ n ih =>
    rw [channelsOf]
    split <;> rw [List.length_cons, ih]

/-- One table behind the other. -/
theorem channelsOf_add (m n : Nat) (rest : List Byte) : (channelsOf (m + n) rest).1 =
    (channelsOf m rest).1 ++ (channelsOf n (channelsOf m rest).2).1 := by
  induction m generalizing rest with
  | zero => rw [Nat.zero_add, channelsOf, List.nil_append]
  | succ m ih =>
    rw [Nat.succ_add, channelsOf, channelsOf]
    split <;> rw [ih, List.cons_append]

/-- Reading an entry that is there. -/
theorem RequestReader.At.readChannel (h : reader.At rest) (hlen : 16 ≤ rest.length) :
    ∃ reader', reader.readChannel = .ok (0, some (Entry.ofBytes (rest.take 16)).attr, reader') ∧
      reader'.At (rest.drop 16) := by
  rw [← List.take_append_drop 16 rest] at h
  have hsize : Entry.size.toNat = (rest.take 16).length := by
    rw [List.length_take, Nat.min_eq_left hlen]
    rfl
  obtain ⟨reader', hread, hat⟩ := h.read hsize
  refine ⟨reader', ?_, hat⟩
  rw [RequestReader.readChannel, hread]
  rfl

/-- An entry that is missing is no error, as `-r` is positive. -/
theorem RequestReader.At.readChannel_short (h : reader.At rest) (hlen : rest.length < 16) :
    reader.readChannel = .ok (1, none, reader) := by
  have hsize : rest.length < Entry.size.toNat := hlen
  rw [RequestReader.readChannel, h.read_short hsize (by decide)]
  rfl

/-- The loops over the tables. -/
theorem RequestReader.At.readChannels (h : reader.At rest) (n : Nat)
    (tail : List (ChannelAttr InfoPtr)) :
    ∃ reader', reader.readChannels n (List.replicate n ChannelAttr.zero ++ tail) =
        .ok (0, (channelsOf n rest).1 ++ tail, reader') ∧
      reader'.At (channelsOf n rest).2 := by
  -- The induction is on the channels still to be read.
  induction n generalizing rest reader with
  | zero => exact ⟨reader, rfl, h⟩
  | succ n ih =>
    -- A request too short for the entry leaves the entry and the place as they are.
    by_cases hlen : rest.length < 16
    · obtain ⟨reader', hloop, hat⟩ := ih h
      refine ⟨reader', ?_, ?_⟩
      · rw [RequestReader.readChannels, h.readChannel_short hlen, List.replicate_succ,
          List.cons_append, channelsOf, if_pos hlen, List.cons_append]
        show (RequestReader.readChannels n (_ ++ tail) reader >>= _) = _
        rw [hloop]
        rfl
      · rw [channelsOf, if_pos hlen]
        exact hat
    · obtain ⟨next, hread, hnext⟩ := h.readChannel (by omega)
      obtain ⟨reader', hloop, hat⟩ := ih hnext
      refine ⟨reader', ?_, ?_⟩
      · rw [RequestReader.readChannels, hread, List.replicate_succ, List.cons_append, channelsOf,
          if_neg hlen, List.cons_append]
        show (RequestReader.readChannels n (_ ++ tail) next >>= _) = _
        rw [hloop]
        rfl
      · rw [channelsOf, if_neg hlen]
        exact hat

/-- The loop over a table without elements: the first entry is stored outside. -/
theorem RequestReader.At.readChannels_nil (h : reader.At rest) {n : Nat} (hn : 0 < n) :
    reader.readChannels n [] =
      if rest.length < 16 then .ok (0, [], reader) else .error .channels := by
  split
  · rename_i hlen
    clear hn
    induction n with
    | zero => rfl
    | succ n ih =>
      rw [RequestReader.readChannels, h.readChannel_short hlen]
      exact ih
  · rename_i hlen
    obtain ⟨m, rfl⟩ := Nat.exists_eq_succ_of_ne_zero hn.ne'
    obtain ⟨next, hread, -⟩ := h.readChannel (by omega)
    rw [Nat.succ_eq_add_one, RequestReader.readChannels, hread]
    rfl

end channels

/-! ## The infos

  The infos are copied to places that are rounded up, one behind the other, in one block. -/

/-- The bytes an info of a group data stands for. -/
def Info.bytesIn (block : List Byte) (info : Info InfoPtr) : List Byte :=
  match info.data with
  | none => []
  | some p => (p.target block).take info.size.toNat

/-- The infos stand for the bytes `rest`, one after the other. -/
def InfosHold (block : List Byte) : List (Info InfoPtr) → List Byte → Prop
  | [], _ => True
  | info :: infos, rest => info.bytesIn block = rest.take info.size.toNat ∧
      InfosHold block infos (rest.drop info.size.toNat)

/-- The infos of sizes `sizes` can be copied into a block of `room` bytes, one after the other from
    `used` on, as far as the `left` bytes of the request go. -/
def InfosFit (room : Nat) : Nat → Nat → List Nat → Prop
  | _, _, [] => True
  | used, left, size :: sizes =>
    if size = 0 then InfosFit room used left sizes
    else left < size ∨
      (used + size ≤ room ∧ InfosFit room (used + alignUp 16 size) (left - size) sizes)

instance (room : Nat) : (used left : Nat) → (sizes : List Nat) →
    Decidable (InfosFit room used left sizes)
  | _, _, [] => isTrue trivial
  | used, left, size :: sizes =>
    have := instDecidableInfosFit room used left sizes
    have := instDecidableInfosFit room (used + alignUp 16 size) (left - size) sizes
    inferInstanceAs (Decidable (if size = 0 then InfosFit room used left sizes
      else left < size ∨
        (used + size ≤ room ∧ InfosFit room (used + alignUp 16 size) (left - size) sizes)))

/-- `place` on all infos at once. -/
def InfoReader.placeAll : List (Info InfoPtr) → InfoReader →
    Checked (Int × List (Info InfoPtr) × InfoReader)
  | [], s => return (0, [], s)
  | info :: infos, s => do
    let (r, info, s) ← s.place info
    if r < 0 then return (r, info :: infos, s)
    let (r, infos, s) ← placeAll infos s
    return (r, info :: infos, s)

/-- The attributes with these infos. -/
def withInfos {π : Type} (attrs : List (ChannelAttr π)) (infos : List (Info π)) :
    List (ChannelAttr π) :=
  List.zipWith (fun attr info => { attr with info := info }) attrs infos

section infos

variable {s : InfoReader} {rest : List Byte} {info : Info InfoPtr}

/-- An attribute with its own info is itself. -/
theorem withInfos_self {π : Type} (attrs : List (ChannelAttr π)) :
    withInfos attrs (attrs.map (·.info)) = attrs := by
  induction attrs with
  | nil => rfl
  | cons attr attrs ih => exact congrArg (attr :: ·) ih

/-- Placing the infos of some channels is placing a list of infos, and dealing them out again. -/
theorem InfoReader.placeChannels_eq (attrs tail : List (ChannelAttr InfoPtr)) (s : InfoReader) :
    s.placeChannels attrs.length (attrs ++ tail) =
      s.placeAll (attrs.map (·.info)) >>= fun x =>
        .ok (x.1, withInfos attrs x.2.1 ++ tail, x.2.2) := by
  induction attrs generalizing s with
  | nil => rfl
  | cons attr attrs ih =>
    rw [List.length_cons, List.cons_append, List.map_cons, InfoReader.placeChannels,
      InfoReader.placeAll]
    rcases s.place attr.info with e | ⟨r, info, s'⟩
    · rfl
    · show (if r < 0 then _ else _) = (if r < 0 then _ else _) >>= _
      split
      · show _ = Except.ok (r, { attr with info := info } :: withInfos attrs (attrs.map (·.info)) ++
          tail, s')
        rw [withInfos_self]
        rfl
      · rw [ih]
        generalize s'.placeAll (attrs.map (·.info)) = placed
        rcases placed with e | ⟨r', infos, s''⟩ <;> rfl

/-- One list of infos behind the other; if the first one fails the second is not touched. -/
theorem InfoReader.placeAll_append (infos infos' : List (Info InfoPtr)) (s : InfoReader) :
    s.placeAll (infos ++ infos') = s.placeAll infos >>= fun x =>
      if x.1 < 0 then .ok (x.1, x.2.1 ++ infos', x.2.2)
      else x.2.2.placeAll infos' >>= fun y => .ok (y.1, x.2.1 ++ y.2.1, y.2.2) := by
  -- The induction is on the first list; an error in it ends both.
  induction infos generalizing s with
  | nil =>
    rw [List.nil_append]
    show _ = s.placeAll infos' >>= fun y => .ok (y.1, y.2.1, y.2.2)
    generalize s.placeAll infos' = placed
    rcases placed with e | ⟨r', infos, s''⟩ <;> rfl
  | cons info infos ih =>
    rw [List.cons_append, InfoReader.placeAll, InfoReader.placeAll]
    rcases s.place info with e | ⟨r, info, s'⟩
    · rfl
    · show (if r < 0 then _ else _) = (if r < 0 then _ else _) >>= _
      split
      · rename_i hr
        show _ = if r < 0 then _ else _
        rw [if_pos hr]
        rfl
      · rw [ih]
        generalize s'.placeAll infos = placed
        rcases placed with e | ⟨r', infos, s''⟩
        · rfl
        · show (if r' < 0 then _ else _) >>= _ = if r' < 0 then _ else _
          split
          · rfl
          · generalize s''.placeAll infos' = placed
            rcases placed with e | ⟨r', infos, s''⟩ <;> rfl

/-- The cursors stand in front of the bytes `rest` and somewhere in a block of `room` bytes, into which
    nothing has been copied from the cursor on. -/
structure InfoReader.Ready (s : InfoReader) (rest : List Byte) (room : Nat) : Prop where
  reader : s.reader.At rest
  length : s.block.length = room
  small : room ≤ ptrdiffMax
  mem : s.mem.toNat ≤ room + 15
  apart : s.copied.Pairwise Region.Apart
  below : ∀ r ∈ s.copied, r.stop ≤ s.mem.toNat

variable {room : Nat}

/-- An empty info is left as it is. -/
theorem InfoReader.place_empty (hsize : info.size = 0) : s.place info = .ok (0, info, s) := by
  rw [InfoReader.place, if_neg (by rw [hsize]; decide)]
  rfl

/-- A size is positive or 0. -/
theorem pos_of_toNat_ne_zero {x : Size} (h : x.toNat ≠ 0) : x > 0 :=
  BitVec.lt_def.mpr (Nat.pos_of_ne_zero h)

/-- An info that does not end in the request fails, after its pointer has been set. -/
theorem InfoReader.Ready.place_short (h : s.Ready rest room) (hlt : rest.length < info.size.toNat)
    (hsize : info.size.toNat < 2 ^ 32) :
    s.place info = .ok (-1, { info with data := some (.block s.mem) }, s) := by
  rw [InfoReader.place, if_pos (pos_of_toNat_ne_zero (by omega))]
  show s.readInfo info.size >>= _ = _
  rw [InfoReader.readInfo, h.reader.read_short hlt (by omega)]
  rfl

/-- Reading the bytes of an info that ends in the request. -/
theorem InfoReader.Ready.read (h : s.Ready rest room) (hle : info.size.toNat ≤ rest.length) :
    ∃ reader', s.reader.read info.size = .ok (0, rest.take info.size.toNat, reader') ∧
      reader'.At (rest.drop info.size.toNat) := by
  have hat := h.reader
  rw [← List.take_append_drop info.size.toNat rest] at hat
  exact hat.read (by rw [List.length_take, Nat.min_eq_left hle])

/-- An info that ends in the request but not in the block is copied over the end of the block. -/
theorem InfoReader.Ready.place_fault (h : s.Ready rest room) (hpos : info.size.toNat ≠ 0)
    (hle : info.size.toNat ≤ rest.length) (hgt : room < s.mem.toNat + info.size.toNat) :
    s.place info = .error .infos := by
  obtain ⟨reader', hread, -⟩ := h.read hle
  have hlen : (rest.take info.size.toNat).length = info.size.toNat := by
    rw [List.length_take, Nat.min_eq_left hle]
  have hstore : storeBytes .infos s.block s.mem (rest.take info.size.toNat) = .error .infos := by
    rw [storeBytes, hlen, h.length, if_neg (by omega)]
  rw [InfoReader.place, if_pos (pos_of_toNat_ne_zero hpos)]
  show s.readInfo info.size >>= _ = _
  rw [InfoReader.readInfo, hread]
  show (storeBytes .infos s.block s.mem (rest.take info.size.toNat) >>= _) >>= _ = _
  rw [hstore]
  rfl

/-- An info that ends in both is copied, and the next place is behind it, rounded up. -/
theorem InfoReader.Ready.place_ok (h : s.Ready rest room) (hpos : info.size.toNat ≠ 0)
    (hle : info.size.toNat ≤ rest.length) (hsize : info.size.toNat < 2 ^ 32)
    (hfit : s.mem.toNat + info.size.toNat ≤ room) :
    ∃ s', s.place info = .ok (0, { info with data := some (.block s.mem) }, s') ∧
      s'.Ready (rest.drop info.size.toNat) room ∧
      s'.mem.toNat = s.mem.toNat + alignUp 16 info.size.toNat ∧
      s'.block = writeAt s.block s.mem.toNat (rest.take info.size.toNat) := by
  obtain ⟨reader', hread, hat⟩ := h.read hle
  have hlen : (rest.take info.size.toNat).length = info.size.toNat := by
    rw [List.length_take, Nat.min_eq_left hle]
  have hroom := h.length
  have hsmall := h.small
  have hmax : ptrdiffMax < 2 ^ 63 := by decide
  have hup := alignUp_lt (n := info.size.toNat) (show 0 < 16 by decide)
  have hge := le_alignUp (n := info.size.toNat) (show 0 < 16 by decide)
  -- The bytes fit in the block,
  have hstore : storeBytes .infos s.block s.mem (rest.take info.size.toNat) =
      .ok (writeAt s.block s.mem.toNat (rest.take info.size.toNat)) := by
    rw [storeBytes, hlen, hroom, if_pos hfit]
  -- and the next place is rounded up.
  have hmem : (memOffset s.mem (infoAlign info.size)).toNat =
      s.mem.toNat + alignUp 16 info.size.toNat := by
    rw [memOffset, BitVec.toNat_add, infoAlign, toNat_memMaxalign (by omega)]
    exact Nat.mod_eq_of_lt (by omega)
  refine ⟨{
      reader := reader'
      block := writeAt s.block s.mem.toNat (rest.take info.size.toNat)
      mem := memOffset s.mem (infoAlign info.size)
      copied := s.copied ++ [⟨s.mem.toNat, info.size.toNat⟩] },
    ?_, ⟨hat, ?_, hsmall, ?_, ?_, ?_⟩, hmem, rfl⟩
  · rw [InfoReader.place, if_pos (pos_of_toNat_ne_zero hpos)]
    show s.readInfo info.size >>= _ = _
    rw [InfoReader.readInfo, hread]
    show (storeBytes .infos s.block s.mem (rest.take info.size.toNat) >>= _) >>= _ = _
    rw [hstore]
    rfl
  · rw [← hroom]
    exact length_writeAt (by omega)
  · show (memOffset s.mem (infoAlign info.size)).toNat ≤ room + 15
    omega
  · -- the new region begins where the others have ended
    refine List.pairwise_append.mpr ⟨h.apart, List.pairwise_singleton _ _, ?_⟩
    intro r hr t ht
    obtain rfl := List.mem_singleton.mp ht
    exact Region.apart_of_le (h.below r hr)
  · intro r hr
    show r.stop ≤ (memOffset s.mem (infoAlign info.size)).toNat
    rcases List.mem_append.mp hr with hr | hr
    · have := h.below r hr
      omega
    · obtain rfl := List.mem_singleton.mp hr
      simp only [Region.stop]
      omega

/-- The sizes of the infos. -/
def infoSizes (infos : List (Info InfoPtr)) : List Nat := infos.map (·.size.toNat)

/-- The infos do not fit: some byte is stored outside the block. -/
theorem InfoReader.Ready.placeAll_fault {infos : List (Info InfoPtr)} (h : s.Ready rest room)
    (hsize : ∀ info ∈ infos, info.size.toNat < 2 ^ 32)
    (hfit : ¬ InfosFit room s.mem.toNat rest.length (infoSizes infos)) :
    s.placeAll infos = .error .infos := by
  induction infos generalizing s rest with
  | nil => exact absurd trivial hfit
  | cons info infos ih =>
    have hsizes := fun i hi => hsize i (List.mem_cons_of_mem _ hi)
    have hthis := hsize info List.mem_cons_self
    rw [infoSizes, List.map_cons, InfosFit, ← infoSizes] at hfit
    rw [InfoReader.placeAll]
    by_cases hzero : info.size.toNat = 0
    · rw [if_pos hzero] at hfit
      rw [InfoReader.place_empty (BitVec.eq_of_toNat_eq hzero)]
      show s.placeAll infos >>= _ = _
      rw [ih h hsizes hfit]
      rfl
    · rw [if_neg hzero] at hfit
      have hle : info.size.toNat ≤ rest.length := by
        by_contra hlt
        exact hfit (Or.inl (by omega))
      -- The first info that does not fit faults, at the store or because the request has ended.
      by_cases hroom : s.mem.toNat + info.size.toNat ≤ room
      · obtain ⟨s', hplace, hready, hmem, -⟩ := h.place_ok hzero hle hthis hroom
        have hrest : ¬ InfosFit room s'.mem.toNat (rest.drop info.size.toNat).length
            (infoSizes infos) := by
          rw [hmem, List.length_drop]
          exact fun hf => hfit (Or.inr ⟨hroom, hf⟩)
        rw [hplace]
        show s'.placeAll infos >>= _ = _
        rw [ih hready hsizes hrest]
        rfl
      · rw [h.place_fault hzero hle (by omega)]
        rfl

/-- All infos have been copied: they stand for the bytes that were in front of the reader. -/
structure InfoReader.Filled (s : InfoReader) (infos : List (Info InfoPtr)) (rest : List Byte)
    (room : Nat) (infos' : List (Info InfoPtr)) (s' : InfoReader) : Prop where
  enough : (infoSizes infos).sum ≤ rest.length
  ready : s'.Ready (rest.drop (infoSizes infos).sum) room
  sizes : infos'.map (·.size) = infos.map (·.size)
  hold : InfosHold s'.block infos' rest
  mem : s.mem.toNat ≤ s'.mem.toNat
  frame : ∀ off len, off + len ≤ s.mem.toNat → readAt s'.block off len = readAt s.block off len

/-- The infos fit: they are copied, or the request ends first. -/
theorem InfoReader.Ready.placeAll_ok {infos : List (Info InfoPtr)} (h : s.Ready rest room)
    (hsize : ∀ info ∈ infos, info.size.toNat < 2 ^ 32 ∧ info.data = none)
    (hfit : InfosFit room s.mem.toNat rest.length (infoSizes infos)) :
    ∃ r infos' s', s.placeAll infos = .ok (r, infos', s') ∧
      ((r = -1 ∧ rest.length < (infoSizes infos).sum ∧ s'.copied.Pairwise Region.Apart) ∨
        (r = 0 ∧ s.Filled infos rest room infos' s')) := by
  induction infos generalizing s rest with
  | nil =>
    exact ⟨0, [], s, rfl, Or.inr ⟨rfl, Nat.zero_le _, h, rfl, trivial, le_rfl, fun _ _ _ => rfl⟩⟩
  | cons info infos ih =>
    have hsizes := fun i hi => hsize i (List.mem_cons_of_mem _ hi)
    obtain ⟨hthis, hdata⟩ := hsize info List.mem_cons_self
    have hsum : (infoSizes (info :: infos)).sum = info.size.toNat + (infoSizes infos).sum := by
      rw [infoSizes, List.map_cons, List.sum_cons, ← infoSizes]
    rw [infoSizes, List.map_cons, InfosFit, ← infoSizes] at hfit
    rw [InfoReader.placeAll]
    -- an empty info takes no place
    by_cases hzero : info.size.toNat = 0
    · rw [if_pos hzero] at hfit
      obtain ⟨r, infos', s', hplace, hcases⟩ := ih h hsizes hfit
      refine ⟨r, info :: infos', s', ?_, ?_⟩
      · rw [InfoReader.place_empty (BitVec.eq_of_toNat_eq hzero)]
        show s.placeAll infos >>= _ = _
        rw [hplace]
        rfl
      · rcases hcases with ⟨hr, hlt, hapart⟩ | ⟨hr, hfilled⟩
        · exact Or.inl ⟨hr, by omega, hapart⟩
        · refine Or.inr ⟨hr, ?_, ?_, ?_, ?_, hfilled.mem, hfilled.frame⟩
          · rw [hsum, hzero, Nat.zero_add]
            exact hfilled.enough
          · rw [hsum, hzero, Nat.zero_add]
            exact hfilled.ready
          · exact congrArg (info.size :: ·) hfilled.sizes
          · rw [InfosHold, hzero, Info.bytesIn, hdata]
            exact ⟨rfl, hfilled.hold⟩
    · rw [if_neg hzero] at hfit
      -- the request ends before the info, or the info fits into the block
      by_cases hshort : rest.length < info.size.toNat
      · refine ⟨-1, { info with data := some (.block s.mem) } :: infos, s, ?_, Or.inl ⟨rfl, by omega, h.apart⟩⟩
        rw [h.place_short hshort hthis]
        rfl
      · obtain ⟨hroom, hfit⟩ := hfit.resolve_left hshort
        obtain ⟨s₁, hplace, hready, hmem, hblock⟩ := h.place_ok hzero (by omega) hthis hroom
        have hge := le_alignUp (n := info.size.toNat) (show 0 < 16 by decide)
        have hlen : (rest.take info.size.toNat).length = info.size.toNat := by
          rw [List.length_take, Nat.min_eq_left (by omega)]
        have hfit₁ : InfosFit room s₁.mem.toNat (rest.drop info.size.toNat).length
            (infoSizes infos) := by
          rw [hmem, List.length_drop]
          exact hfit
        obtain ⟨r, infos', s', hplaceAll, hcases⟩ := ih hready hsizes hfit₁
        refine ⟨r, { info with data := some (.block s.mem) } :: infos', s', ?_, ?_⟩
        · rw [hplace]
          show s₁.placeAll infos >>= _ = _
          rw [hplaceAll]
          rfl
        -- what has been placed before stays: later infos lie behind it
        · have hframe₁ : ∀ off len, off + len ≤ s.mem.toNat →
              readAt s₁.block off len = readAt s.block off len := fun off len hle => by
            rw [hblock]
            exact readAt_writeAt_of_le (by rw [h.length]; omega) hle
          rcases hcases with ⟨hr, hlt, hapart⟩ | ⟨hr, hfilled⟩
          · rw [List.length_drop] at hlt
            exact Or.inl ⟨hr, by omega, hapart⟩
          · have henough := hfilled.enough
            rw [List.length_drop] at henough
            refine Or.inr ⟨hr, by omega, ?_, ?_, ?_, ?_, ?_⟩
            · rw [hsum, ← List.drop_drop]
              exact hfilled.ready
            · exact congrArg (info.size :: ·) hfilled.sizes
            · refine ⟨?_, hfilled.hold⟩
              show readAt s'.block s.mem.toNat info.size.toNat = rest.take info.size.toNat
              rw [hfilled.frame _ _ (by omega), hblock]
              have hread : readAt (writeAt s.block s.mem.toNat (rest.take info.size.toNat))
                  s.mem.toNat (rest.take info.size.toNat).length = rest.take info.size.toNat :=
                readAt_writeAt (by rw [h.length]; omega)
              rwa [hlen] at hread
            · have := hfilled.mem
              omega
            · intro off len hle
              rw [hfilled.frame off len (by omega), hframe₁ off len hle]

end infos

/-! ## The tables -/

/-- The array of a table with the attributes `attrs` and a sentinel. -/
def tableOf (attrs : List (ChannelAttr InfoPtr)) : Option (List (ChannelAttr InfoPtr)) :=
  if attrs = [] then none else some (attrs ++ [ChannelAttr.zero])

/-- The number of channels for which `count + 1` is 0. -/
def unsignedMax : Unsigned := BitVec.allOnes 32

/-- The bytes that the infos need, aligned, of the channels before the first one with messages of
    size 0. -/
def infoRoom {π : Type} (attrs : List (ChannelAttr π)) : Nat :=
  ((attrs.takeWhile (·.msgSize ≠ 0)).map fun attr => alignUp 16 attr.info.size.toNat).sum

section tables

variable {π : Type} {A : Allocator} {n : Unsigned}

/-- The channels of a table are its first elements. -/
theorem elements_tableOf (attrs : List (ChannelAttr InfoPtr)) :
    ∃ tail, elements (tableOf attrs) = attrs ++ tail := by
  unfold tableOf
  split
  · rename_i h
    exact ⟨[], by rw [h]; rfl⟩
  · exact ⟨[ChannelAttr.zero], rfl⟩

/-- The element for the sentinel, unless the count is the largest one. -/
theorem toNat_add_one (h : n ≠ unsignedMax) : (n + 1).toNat = n.toNat + 1 := by
  have hne : n.toNat ≠ 2 ^ 32 - 1 := fun he => h (BitVec.eq_of_toNat_eq he)
  have hlt := n.isLt
  rw [BitVec.toNat_add, show (1 : Unsigned).toNat = 1 from rfl]
  exact Nat.mod_eq_of_lt (by omega)

/-- The table that is allocated. -/
theorem Allocator.channels_eq {role : Role} (hcalloc : A.calloc role (n + 1) = true)
    (h : n ≠ unsignedMax) :
    A.channels role n = some (tableOf (List.replicate n.toNat ChannelAttr.zero)) := by
  rw [Allocator.channels, tableOf]
  by_cases hzero : n = 0
  · subst hzero
    rfl
  · have hpos : n > 0 := BitVec.lt_def.mpr (Nat.pos_of_ne_zero fun h0 => hzero (BitVec.eq_of_toNat_eq h0))
    have hne : ¬ List.replicate n.toNat (ChannelAttr.zero : ChannelAttr InfoPtr) = [] := by
      rw [List.replicate_eq_nil_iff]
      exact fun h0 => hzero (BitVec.eq_of_toNat_eq h0)
    rw [if_pos hpos, if_pos hcalloc, if_neg hne, toNat_add_one h, List.replicate_succ']

/-- For 2³² - 1 channels the table has no element. -/
theorem Allocator.channels_max (hcalloc : ∀ role count, A.calloc role count = true) (role : Role) :
    A.channels role unsignedMax = some (some []) := by
  rw [Allocator.channels, if_pos (by decide), if_pos (hcalloc _ _)]
  rfl

/-- The sum of the rounded sizes, modulo 2⁶⁴. -/
theorem calcChannelsInfoSizeFrom_eq {attrs : List (ChannelAttr π)}
    (hsize : ∀ attr ∈ attrs, attr.info.size.toNat ≤ ptrdiffMax) (size : Size)
    {stop : ChannelAttr π} (hstop : stop.msgSize = 0) (tail : List (ChannelAttr π)) :
    ∃ r, calcChannelsInfoSizeFrom size (attrs ++ stop :: tail) = .ok r ∧
      r.toNat = (size.toNat + infoRoom attrs) % 2 ^ 64 := by
  -- The induction is on the channels; one that looks like the sentinel ends the count.
  induction attrs generalizing size with
  | nil => exact ⟨size, if_pos hstop, (Nat.mod_eq_of_lt size.isLt).symm⟩
  | cons attr attrs ih =>
    rw [List.cons_append, calcChannelsInfoSizeFrom, infoRoom, List.takeWhile_cons]
    by_cases hzero : attr.msgSize = 0
    · rw [if_pos hzero]
      refine ⟨size, rfl, ?_⟩
      simp only [hzero, ne_eq, not_true_eq_false, decide_false, Bool.false_eq_true, if_false,
        List.map_nil, List.sum_nil, Nat.add_zero]
      exact (Nat.mod_eq_of_lt size.isLt).symm
    · rw [if_neg hzero]
      have hthis := hsize attr List.mem_cons_self
      have hmax : ptrdiffMax < 2 ^ 63 := by decide
      obtain ⟨r, hr, htoNat⟩ := ih (fun a ha => hsize a (List.mem_cons_of_mem _ ha))
        (if attr.info.size > 0 then size + infoAlign attr.info.size else size)
      refine ⟨r, hr, ?_⟩
      have hadd : (if attr.info.size > 0 then size + infoAlign attr.info.size else size).toNat =
          (size.toNat + alignUp 16 attr.info.size.toNat) % 2 ^ 64 := by
        split
        · rw [BitVec.toNat_add, infoAlign, toNat_memMaxalign (by omega)]
        · rename_i hpos
          have h0 : attr.info.size.toNat = 0 := by
            by_contra hne
            exact hpos (pos_of_toNat_ne_zero hne)
          rw [h0, show alignUp 16 0 = 0 from rfl, Nat.add_zero, Nat.mod_eq_of_lt size.isLt]
      simp only [ne_eq, hzero, not_false_eq_true, decide_true, if_true, List.map_cons, List.sum_cons]
      rw [htoNat, hadd, Nat.mod_add_mod, Nat.add_assoc]
      rfl

/-- The same for the table of a group data. -/
theorem calcChannelsInfoSize_eq {attrs : List (ChannelAttr InfoPtr)}
    (hsize : ∀ attr ∈ attrs, attr.info.size.toNat < 2 ^ 32) :
    ∃ r, calcChannelsInfoSize (tableOf attrs) = .ok r ∧ r.toNat = infoRoom attrs % 2 ^ 64 := by
  unfold tableOf
  split
  · rename_i h
    subst h
    exact ⟨0, rfl, rfl⟩
  · have hmax : 2 ^ 32 ≤ ptrdiffMax := by decide
    obtain ⟨r, hr, htoNat⟩ := calcChannelsInfoSizeFrom_eq
      (fun attr hattr => ((hsize attr hattr).trans_le hmax).le) 0
      (show (ChannelAttr.zero : ChannelAttr InfoPtr).msgSize = 0 from rfl) []
    refine ⟨r, hr, ?_⟩
    rw [htoNat, show (0 : Size).toNat = 0 from rfl, Nat.zero_add]

/-- An attribute is read from an entry, or it is the one that the table was allocated with. -/
theorem channelsOf_cases {attr : ChannelAttr InfoPtr} {count : Nat} {rest : List Byte}
    (h : attr ∈ (channelsOf count rest).1) : attr = ChannelAttr.zero ∨ ∃ e : Entry, attr = e.attr := by
  induction count generalizing rest with
  | zero => cases h
  | succ count ih =>
    rw [channelsOf] at h
    split at h
    · rcases List.mem_cons.mp h with rfl | h
      · exact Or.inl rfl
      · exact ih h
    · rcases List.mem_cons.mp h with rfl | h
      · exact Or.inr ⟨_, rfl⟩
      · exact ih h

/-- What an entry says about its channel fits into 32 bits. -/
theorem channelsOf_info {attr : ChannelAttr InfoPtr} {count : Nat} {rest : List Byte}
    (h : attr ∈ (channelsOf count rest).1) :
    attr.info.size.toNat < 2 ^ 32 ∧ attr.info.data = none := by
  rcases channelsOf_cases h with rfl | ⟨e, rfl⟩
  · exact ⟨by decide, rfl⟩
  · refine ⟨?_, rfl⟩
    rw [Entry.attr, BitVec.toNat_setWidth]
    exact lt_of_le_of_lt (Nat.mod_le _ _) (BitVec.isLt _)

end tables

/-! ## Behind the counts

  From here on the parse is a function of the bytes behind the counts and of what is allocated. -/

section group

variable {A : Allocator} {reader : RequestReader} {rest : List Byte}
  {groupInfoSize nConsumers nProducers : Unsigned}

/-- The group data when both tables have been read. -/
def filledTables (groupInfoSize nConsumers nProducers : Unsigned)
    (consumers producers : List (ChannelAttr InfoPtr)) : GroupData where
  info := { size := groupInfoSize.setWidth 64, data := none }
  nConsumers := nConsumers
  nProducers := nProducers
  consumers := tableOf consumers
  producers := tableOf producers
  memInfos := none

/-- A table in which all channels have been replaced. -/
theorem map_tableOf {attrs attrs' : List (ChannelAttr InfoPtr)} (h : attrs.length = attrs'.length)
    {tail : List (ChannelAttr InfoPtr)} (htail : elements (tableOf attrs) = attrs ++ tail) :
    ((tableOf attrs).map fun _ => attrs' ++ tail) = tableOf attrs' := by
  unfold tableOf at htail ⊢
  by_cases hnil : attrs = []
  · obtain rfl : attrs' = [] := List.length_eq_zero_iff.mp (h ▸ List.length_eq_zero_iff.mpr hnil)
    rw [if_pos hnil, if_pos rfl]
    rfl
  · have hnil' : attrs' ≠ [] := fun h' => hnil (List.length_eq_zero_iff.mp (by rw [h, h']; rfl))
    rw [if_neg hnil] at htail ⊢
    rw [if_neg hnil']
    obtain rfl := List.append_cancel_left htail
    rfl

/-- A table that has been read. -/
theorem RequestReader.At.readTable (h : reader.At rest) (n : Nat) :
    ∃ reader' attrs, reader.readChannels n
        (elements (tableOf (List.replicate n ChannelAttr.zero))) = .ok (0, attrs, reader') ∧
      (tableOf (List.replicate n ChannelAttr.zero)).map (fun _ => attrs) =
        tableOf (channelsOf n rest).1 ∧
      reader'.At (channelsOf n rest).2 := by
  obtain ⟨tail, htail⟩ := elements_tableOf (List.replicate n ChannelAttr.zero)
  obtain ⟨reader', hloop, hat⟩ := h.readChannels n tail
  refine ⟨reader', (channelsOf n rest).1 ++ tail, ?_, map_tableOf ?_ htail, hat⟩
  · rw [htail, hloop]
  · rw [List.length_replicate, length_channelsOf]

/-- The room for the infos, modulo 2⁶⁴: that of the group comes first. -/
theorem attrCalcInfoSize_eq (groupInfoSize nConsumers nProducers : Unsigned)
    {consumers producers : List (ChannelAttr InfoPtr)}
    (hc : ∀ attr ∈ consumers, attr.info.size.toNat < 2 ^ 32)
    (hp : ∀ attr ∈ producers, attr.info.size.toNat < 2 ^ 32) :
    ∃ room, attrCalcInfoSize (groupDataAttr
        (filledTables groupInfoSize nConsumers nProducers consumers producers)) = .ok room ∧
      room.toNat = (alignUp 16 groupInfoSize.toNat + infoRoom consumers + infoRoom producers) %
        2 ^ 64 := by
  obtain ⟨x, hx, hx'⟩ := calcChannelsInfoSize_eq hc
  obtain ⟨y, hy, hy'⟩ := calcChannelsInfoSize_eq hp
  refine ⟨memMaxalign (groupInfoSize.setWidth 64) + x + y, ?_, ?_⟩
  · rw [attrCalcInfoSize]
    show (calcChannelsInfoSize (tableOf consumers) >>= fun consumers =>
      calcChannelsInfoSize (tableOf producers) >>= _) = _
    rw [hx, hy]
    rfl
  · have hlt := groupInfoSize.isLt
    have hwidth : (groupInfoSize.setWidth 64 : Size).toNat = groupInfoSize.toNat := by
      rw [BitVec.toNat_setWidth]
      exact Nat.mod_eq_of_lt (by omega)
    rw [BitVec.toNat_add, BitVec.toNat_add, toNat_memMaxalign (by omega), hwidth, hx', hy']
    omega

/-- What is left of `ri_request_parse` when the infos have been read. -/
def finishInfos (events : List Event) (parsed : Parsed) : Checked Parsed :=
  if parsed.r < 0 then
    .ok ⟨parsed.r, GroupData.zero, events ++ parsed.events ++ (groupDataDelete parsed.data).2⟩
  else .ok { parsed with events := events ++ parsed.events }

/-- What is left of `ri_request_parse` when both tables have been read. -/
def fillInfos (A : Allocator) (reader : RequestReader) (data : GroupData) (events : List Event)
    (infoSize : Size) : Checked Parsed :=
  match A.malloc infoSize with
  | none => .ok ⟨-ENOMEM, GroupData.zero, events ++ (groupDataDelete data).2⟩
  | some block =>
      readInfos reader block data >>= finishInfos (events ++ [.acquire (.block .infos)])

/-- With memory for both tables the parse comes to the infos. -/
theorem RequestReader.At.parseGroup (h : reader.At rest)
    (hcalloc : ∀ role count, A.calloc role count = true)
    (hc : nConsumers ≠ unsignedMax) (hp : nProducers ≠ unsignedMax) :
    ∃ reader' room,
      requestParseGroup A reader groupInfoSize nConsumers nProducers = fillInfos A reader'
        (filledTables groupInfoSize nConsumers nProducers (channelsOf nConsumers.toNat rest).1
          (channelsOf nProducers.toNat (channelsOf nConsumers.toNat rest).2).1)
        (groupDataNew A nConsumers nProducers).2.2 room ∧
      reader'.At (channelsOf nProducers.toNat (channelsOf nConsumers.toNat rest).2).2 ∧
      room.toNat = (alignUp 16 groupInfoSize.toNat + infoRoom (channelsOf nConsumers.toNat rest).1 +
        infoRoom (channelsOf nProducers.toNat (channelsOf nConsumers.toNat rest).2).1) % 2 ^ 64 := by
  -- Both tables are read, whatever the request says,
  obtain ⟨reader₁, attrs, hread, htable, hat⟩ := h.readTable nConsumers.toNat
  obtain ⟨reader₂, attrs', hread', htable', hat'⟩ := hat.readTable nProducers.toNat
  -- and the room for the infos is counted from them.
  obtain ⟨room, hroom, htoNat⟩ := attrCalcInfoSize_eq groupInfoSize nConsumers nProducers
    (fun attr ha => (channelsOf_info
      (show attr ∈ (channelsOf nConsumers.toNat rest).1 from ha)).1)
    (fun attr ha => (channelsOf_info
      (show attr ∈ (channelsOf nProducers.toNat (channelsOf nConsumers.toNat rest).2).1 from ha)).1)
  refine ⟨reader₂, room, ?_, hat', htoNat⟩
  rw [requestParseGroup, groupDataNew, Allocator.channels_eq (hcalloc _ _) hc,
    Allocator.channels_eq (hcalloc _ _) hp]
  show (reader.readChannels nConsumers.toNat (elements (tableOf _)) >>= _) = _
  rw [hread]
  show (reader₁.readChannels nProducers.toNat (elements (tableOf _)) >>= _) = _
  rw [hread']
  show (attrCalcInfoSize (groupDataAttr { filledTables groupInfoSize nConsumers nProducers [] [] with
    consumers := (tableOf _).map fun _ => attrs
    producers := (tableOf _).map fun _ => attrs' }) >>= _) = _
  rw [htable, htable']
  show (attrCalcInfoSize (groupDataAttr (filledTables groupInfoSize nConsumers nProducers
    (channelsOf nConsumers.toNat rest).1
    (channelsOf nProducers.toNat (channelsOf nConsumers.toNat rest).2).1)) >>= _) = _
  rw [hroom]
  rfl

/-- The group data when the infos have been placed: first that of the group, then those of the
    consumers and of the producers. -/
def GroupData.placed (data : GroupData) (consumers producers : List (ChannelAttr InfoPtr))
    (infos : List (Info InfoPtr)) (block : List Byte) : GroupData :=
  { data with
    info := infos.headD data.info
    consumers := tableOf (withInfos consumers infos.tail)
    producers := tableOf (withInfos producers (infos.tail.drop consumers.length))
    memInfos := some block }

/-- Placing infos keeps their number. -/
theorem InfoReader.length_placeAll {infos infos' : List (Info InfoPtr)} {s s' : InfoReader} {r : Int}
    (h : s.placeAll infos = .ok (r, infos', s')) : infos'.length = infos.length := by
  induction infos generalizing s infos' r with
  | nil =>
    cases h
    rfl
  | cons info infos ih =>
    rw [InfoReader.placeAll] at h
    rcases hplace : s.place info with e | ⟨r₁, info₁, s₁⟩
    · rw [hplace] at h
      cases h
    · rw [hplace] at h
      change (if r₁ < 0 then _ else _) = _ at h
      split at h
      · cases h
        rfl
      · rcases hrest : s₁.placeAll infos with e | ⟨r₂, infos₂, s₂⟩
        · rw [hrest] at h
          cases h
        · rw [hrest] at h
          cases h
          exact congrArg (· + 1) (ih hrest)

/-- Dealing them out keeps the number of channels. -/
theorem length_withInfos {π : Type} {attrs : List (ChannelAttr π)} {infos : List (Info π)}
    (h : attrs.length ≤ infos.length) : (withInfos attrs infos).length = attrs.length := by
  rw [withInfos, List.length_zipWith, Nat.min_eq_left h]

/-- A table whose infos are placed. -/
theorem InfoReader.placeTable (attrs : List (ChannelAttr InfoPtr)) (s : InfoReader) :
    (∀ e, s.placeAll (attrs.map (·.info)) = .error e →
      s.placeChannels attrs.length (elements (tableOf attrs)) = .error e) ∧
    ∀ r infos s', s.placeAll (attrs.map (·.info)) = .ok (r, infos, s') →
      ∃ attrs', s.placeChannels attrs.length (elements (tableOf attrs)) = .ok (r, attrs', s') ∧
        (tableOf attrs).map (fun _ => attrs') = tableOf (withInfos attrs infos) := by
  obtain ⟨tail, htail⟩ := elements_tableOf attrs
  rw [htail, InfoReader.placeChannels_eq]
  refine ⟨fun e he => by rw [he]; rfl, fun r infos s' hplace => ?_⟩
  refine ⟨withInfos attrs infos ++ tail, by rw [hplace]; rfl, map_tableOf ?_ htail⟩
  refine (length_withInfos ?_).symm
  rw [InfoReader.length_placeAll hplace, List.length_map]

/-- Infos that are too many are not used. -/
theorem withInfos_append {π : Type} {attrs : List (ChannelAttr π)} {infos infos' : List (Info π)}
    (h : infos.length = attrs.length) : withInfos attrs (infos ++ infos') = withInfos attrs infos := by
  induction attrs generalizing infos with
  | nil =>
    rw [withInfos, withInfos, List.zipWith_nil_left, List.zipWith_nil_left]
  | cons attr attrs ih =>
    obtain ⟨info, infos, rfl⟩ := List.exists_cons_of_length_eq_add_one h
    exact congrArg ({ attr with info := info } :: ·) (ih (Nat.succ.inj h))

/-- `read_infos` places all infos, one after the other, and if that fails nothing is left. -/
theorem readInfos_eq {consumers producers : List (ChannelAttr InfoPtr)} {data : GroupData}
    (hc : consumers.length = nConsumers.toNat) (hp : producers.length = nProducers.toNat)
    (hdata : data = filledTables groupInfoSize nConsumers nProducers consumers producers)
    (block : List Byte) (events : List Event) :
    (readInfos reader block data >>= finishInfos events) =
    InfoReader.placeAll (data.info :: (consumers.map (·.info) ++ producers.map (·.info)))
        { reader := reader, block := block, mem := 0, copied := [] } >>= fun x =>
      .ok (if x.1 < 0 then ⟨-1, GroupData.zero, events ++ x.2.2.copied.map .copy ++
          (groupDataDelete { data with memInfos := some block }).2⟩
        else ⟨0, data.placed consumers producers x.2.1 x.2.2.block,
          events ++ x.2.2.copied.map .copy⟩) := by
  subst hdata
  -- The three stretches of infos (group, consumers, producers) are one list placed in its order.
  rw [readInfos, InfoReader.placeAll]
  generalize (InfoReader.mk reader block 0 []) = s
  show ((s.place _ >>= _) >>= _) = ((s.place _ >>= _) >>= _)
  rcases s.place _ with e | ⟨r, info, s₁⟩
  · rfl
  · show ((if r < 0 then _ else _) >>= _) = ((if r < 0 then _ else _) >>= _)
    split
    · rename_i hr
      show _ = Except.ok (if r < 0 then _ else _)
      rw [if_pos hr]
      rfl
    · obtain ⟨herr, hok⟩ := InfoReader.placeTable consumers s₁
      show ((s₁.placeChannels nConsumers.toNat (elements (tableOf consumers)) >>= _) >>= _) = _
      rw [← hc, InfoReader.placeAll_append]
      rcases hall : s₁.placeAll (consumers.map (·.info)) with e | ⟨r, infosC, s₂⟩
      · rw [herr e hall, hall]
        rfl
      · obtain ⟨attrsC, hread, htable⟩ := hok r infosC s₂ hall
        have hlen := InfoReader.length_placeAll hall
        rw [List.length_map] at hlen
        rw [hread, hall]
        show ((if r < 0 then _ else _) >>= _) = (((if r < 0 then _ else _) >>= _) >>= _)
        split
        · rename_i hr
          show _ = Except.ok (if r < 0 then _ else _)
          rw [if_pos hr, groupDataDelete, ← freed_map (.table .consumer) fun _ => attrsC]
          rfl
        · obtain ⟨herr, hok⟩ := InfoReader.placeTable producers s₂
          show ((s₂.placeChannels nProducers.toNat (elements (tableOf producers)) >>= _) >>= _) =
            (((s₂.placeAll (producers.map (·.info)) >>= _) >>= _) >>= _)
          rw [← hp]
          rcases hall' : s₂.placeAll (producers.map (·.info)) with e | ⟨r, infosP, s₃⟩
          · rw [herr e hall', hall']
            rfl
          · obtain ⟨attrsP, hread', htable'⟩ := hok r infosP s₃ hall'
            rw [hread', hall']
            show ((if r < 0 then _ else _) >>= _) = Except.ok (if r < 0 then _ else _)
            split
            · rw [groupDataDelete, ← freed_map (.table .consumer) fun _ => attrsC,
                ← freed_map (.table .producer) fun _ => attrsP]
              rfl
            · rw [GroupData.placed, List.tail_cons, withInfos_append hlen, ← hlen, List.drop_left,
                ← htable, ← htable']
              rfl

/-- Reading the entries of one table fails in no other way than by storing one outside. -/
theorem RequestReader.At.readAnyTable (h : reader.At rest)
    (hcalloc : ∀ role count, A.calloc role count = true) (role : Role) (n : Unsigned) :
    ∃ table, A.channels role n = some table ∧
      (reader.readChannels n.toNat (elements table) = .error .channels ∨
        ∃ attrs reader', reader.readChannels n.toNat (elements table) = .ok (0, attrs, reader')) := by
  by_cases hmax : n = unsignedMax
  · subst hmax
    refine ⟨some [], Allocator.channels_max hcalloc role, ?_⟩
    have hread := h.readChannels_nil (show 0 < unsignedMax.toNat by decide)
    split at hread
    · exact Or.inr ⟨_, _, hread⟩
    · exact Or.inl hread
  · obtain ⟨reader', attrs, hread, -⟩ := h.readTable n.toNat
    exact ⟨_, Allocator.channels_eq (hcalloc _ _) hmax, Or.inr ⟨attrs, reader', hread⟩⟩

/-- With 2³² - 1 channels in a table something is stored outside it or read outside it. -/
theorem RequestReader.At.parseGroup_max (h : reader.At rest)
    (hcalloc : ∀ role count, A.calloc role count = true)
    (hmax : nConsumers = unsignedMax ∨ nProducers = unsignedMax) :
    requestParseGroup A reader groupInfoSize nConsumers nProducers = .error .channels := by
  by_cases hc : nConsumers = unsignedMax
  · clear hmax
    subst hc
    have hread := h.readChannels_nil (show 0 < unsignedMax.toNat by decide)
    obtain ⟨table, htable, hcases⟩ := h.readAnyTable hcalloc .producer nProducers
    rw [requestParseGroup, groupDataNew, Allocator.channels_max hcalloc, htable]
    show (reader.readChannels unsignedMax.toNat [] >>= _) = _
    rw [hread]
    split
    · show (reader.readChannels nProducers.toNat (elements table) >>= _) = _
      rcases hcases with hfault | ⟨attrs, reader', hread'⟩
      · rw [hfault]
        rfl
      · rw [hread']
        rfl
    · rfl
  · obtain rfl := hmax.resolve_left hc
    obtain ⟨reader', attrs, hread, htable, hat⟩ := h.readTable nConsumers.toNat
    have hnil := hat.readChannels_nil (show 0 < unsignedMax.toNat by decide)
    obtain ⟨room, hroom, -⟩ := calcChannelsInfoSize_eq fun attr ha =>
      (channelsOf_info (show attr ∈ (channelsOf nConsumers.toNat rest).1 from ha)).1
    rw [requestParseGroup, groupDataNew, Allocator.channels_eq (hcalloc _ _) hc,
      Allocator.channels_max hcalloc]
    show (reader.readChannels nConsumers.toNat (elements (tableOf _)) >>= _) = _
    rw [hread]
    show (reader'.readChannels unsignedMax.toNat [] >>= _) = _
    rw [hnil]
    split
    · show ((calcChannelsInfoSize ((tableOf _).map fun _ => attrs) >>= _) >>= _) = _
      rw [htable, hroom]
      rfl
    · rfl

end group

end Rtipc
