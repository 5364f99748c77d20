/-
  Is `ri_request_parse` memory safe, whatever bytes it is given?

  Not for every request.  The block for the infos is as large as the entries before the first one with
  messages of size 0 say, while the infos of all entries are copied into it; and a table for 2³² - 1
  channels has no element, because its size is computed in 32 bits.

  `requestParse_safe_iff` is the exact condition.  What has to fit are the infos that the request has
  bytes for, `infosPresent`: the parser gives up at the first one that is missing.

  1. **Two lists of infos.**  The block is as large as the infos before the first channel with messages
     of size 0; the infos that are copied are all those that the request has the bytes for.  The first
     list may be shorter than the second.

  2. **The condition.**  `requestParse_safe_iff` compares the room that the two need, rounded as the
     code rounds, and excludes the count 2³² - 1, for which `calloc` is asked for no element at all.
-/
import Mathlib.Algebra.BigOperators.Ring.List
import Rtipc.RequestFormat

namespace Rtipc

/-- The parser returns, so no entry has been stored outside its table, no info outside the block and
    nothing been read behind the end of the request, and no two infos have been copied over each other. -/
def ParseSafe (cls : Size) (A : Allocator) (req : List Byte) (size : Size) : Prop :=
  ∃ parsed, requestParse cls A req size = .ok parsed ∧
    (parsed.events.filterMap Event.copied).Pairwise Region.Apart

/-! ## The infos that are there

  A request may end before its infos do.  `infosPresent` are those in front of its end. -/

/-- The sizes of the infos up to the first one that does not fit into `left` bytes. -/
def infosPresent : Nat → List Nat → List Nat
  | _, [] => []
  | left, size :: sizes => if left < size then [] else size :: infosPresent (left - size) sizes

/-- The room that infos of these sizes take. -/
def alignedRoom (sizes : List Nat) : Nat := (sizes.map (alignUp 16)).sum

/-- The infos fit into the rest of the block if and only if those of which a byte is there fit, rounded
    up. -/
theorem infosFit_iff {room used left : Nat} {sizes : List Nat} (hroom : 16 ∣ room)
    (hused : 16 ∣ used) (hle : used ≤ room) :
    InfosFit room used left sizes ↔ used + alignedRoom (infosPresent left sizes) ≤ room := by
  -- The induction is on the infos still to be placed.
  induction sizes generalizing used left with
  | nil =>
    rw [InfosFit, infosPresent, true_iff]
    exact hle
  | cons size sizes ih =>
    rw [InfosFit, infosPresent]
    by_cases hzero : size = 0
    · subst hzero
      rw [if_pos rfl, if_neg (Nat.not_lt_zero _), Nat.sub_zero, ih hused hle, alignedRoom,
        alignedRoom, List.map_cons, List.sum_cons, show alignUp 16 0 = 0 from rfl, Nat.zero_add]
    · rw [if_neg hzero]
      by_cases hlt : left < size
      · rw [if_pos hlt]
        exact iff_of_true (Or.inl hlt) hle
      · rw [if_neg hlt, alignedRoom, List.map_cons, List.sum_cons, ← alignedRoom]
        have hdvd : 16 ∣ used + alignUp 16 size := Nat.dvd_add hused dvd_alignUp
        constructor
        · intro hfit
          obtain ⟨hend, hrest⟩ := hfit.resolve_left hlt
          -- As both ends are multiples of 16, an info that fits leaves room for its padding.
          have hup : used + alignUp 16 size ≤ room := by
            have hsub := alignUp_le (show 0 < 16 by decide) (show size ≤ room - used by omega)
              (Nat.dvd_sub hroom hused)
            omega
          have := (ih hdvd hup).mp hrest
          omega
        · intro hsum
          have hge := le_alignUp (n := size) (show 0 < 16 by decide)
          exact Or.inr ⟨by omega, (ih hdvd (by omega)).mpr (by omega)⟩

/-- The room for the infos of some channels is a multiple of the alignment. -/
theorem dvd_infoRoom {π : Type} (attrs : List (ChannelAttr π)) : 16 ∣ infoRoom attrs := by
  refine List.dvd_sum fun x hx => ?_
  obtain ⟨attr, -, rfl⟩ := List.mem_map.mp hx
  exact dvd_alignUp

/-- So is the room for all infos. -/
theorem Wire.dvd_room (bs : Wire) : 16 ∣ bs.room :=
  (Nat.dvd_mod_iff (by decide)).mpr
    (Nat.dvd_add (Nat.dvd_add dvd_alignUp (dvd_infoRoom _)) (dvd_infoRoom _))

/-- The room that the infos take which the request has bytes for. -/
def Wire.roomTaken (bs : Wire) : Nat :=
  alignedRoom (infosPresent bs.fromInfos.length (infoSizes bs.infos))

/-- The infos of a request fit into the block that is made for them. -/
theorem Wire.infosFit_iff (bs : Wire) :
    InfosFit bs.room 0 bs.fromInfos.length (infoSizes bs.infos) ↔ bs.roomTaken ≤ bs.room := by
  rw [Rtipc.infosFit_iff bs.dvd_room (dvd_zero 16) (Nat.zero_le _), Nat.zero_add, Wire.roomTaken]

/-! ## The condition -/

/-- Behind a header that is accepted: the tables have elements, and the block has room for the infos
    that are there, if there is such a block at all. -/
structure Wire.Safe (bs : Wire) : Prop where
  consumers : bs.nConsumers ≠ unsignedMax
  producers : bs.nProducers ≠ unsignedMax
  infos : bs.room ≤ ptrdiffMax → bs.roomTaken ≤ bs.room

section safety

variable {cls : Size} {A : Allocator} {req : List Byte} {size : Size} {bs : Wire}

/-- A safe request is parsed without undefined behaviour, whatever else it says. -/
theorem requestParse_safe (hA : A.InRange) (h : Given req size bs)
    (hsafe : bs.Headed cls → bs.Safe) : ParseSafe cls A req size := by
  by_cases hbs : bs.Headed cls
  · obtain ⟨hc, hp, hinfos⟩ := hsafe hbs
    by_cases hroom : bs.room ≤ ptrdiffMax
    · have hfit := bs.infosFit_iff.mpr (hinfos hroom)
      by_cases hlen : (infoSizes bs.infos).sum ≤ bs.fromInfos.length
      · obtain ⟨infos, block, copied, hparse, -, -, hapart⟩ :=
          requestParse_ok hA h hbs hc hp hroom hfit hlen
        exact ⟨_, hparse, hapart⟩
      · obtain ⟨copied, hparse, hapart⟩ :=
          requestParse_infos_short hA h hbs hc hp hroom hfit (Nat.lt_of_not_le hlen)
        exact ⟨_, hparse, hapart⟩
    · obtain ⟨events, hparse, hcopied⟩ :=
        requestParse_noMemory hA h hbs hc hp (Nat.lt_of_not_le hroom)
      exact ⟨_, hparse, hcopied ▸ List.Pairwise.nil⟩
  · obtain ⟨r, -, hparse⟩ := requestParse_not_headed (A := A) h hbs
    exact ⟨_, hparse, List.Pairwise.nil⟩

/-- The parse of any other request with a valid header runs into undefined behaviour. -/
theorem requestParse_unsafe (hA : A.InRange) (h : Given req size bs) (hbs : bs.Headed cls)
    (hfails : ¬ bs.Safe) : ∃ f, requestParse cls A req size = .error f := by
  by_cases hmax : bs.nConsumers = unsignedMax ∨ bs.nProducers = unsignedMax
  · exact ⟨_, requestParse_max hA h hbs hmax⟩
  · obtain ⟨hc, hp⟩ := not_or.mp hmax
    have hinfos : ¬ (bs.room ≤ ptrdiffMax → bs.roomTaken ≤ bs.room) :=
      fun hinfos => hfails ⟨hc, hp, hinfos⟩
    obtain ⟨hroom, htaken⟩ := Classical.not_imp.mp hinfos
    exact ⟨_, requestParse_infos_fault hA h hbs hc hp hroom (fun hfit => htaken (bs.infosFit_iff.mp hfit))⟩

/-- The parser is safe unless the request has a table of 2³² - 1 channels, or infos that the entries
    in front of the first one with messages of size 0 leave no room for. -/
theorem requestParse_safe_iff (hA : A.InRange) (h : Given req size bs) :
    ParseSafe cls A req size ↔ (bs.Headed cls → bs.Safe) := by
  refine ⟨fun hsafe hbs => ?_, requestParse_safe hA h⟩
  by_contra hfails
  obtain ⟨f, hfault⟩ := requestParse_unsafe hA h hbs hfails
  obtain ⟨parsed, hparse, -⟩ := hsafe
  rw [hfault] at hparse
  cases hparse

end safety

/-- One consumer, whose messages have `msgSize` bytes and whose info is one byte. -/
def requestOfInfo (msgSize : Unsigned) : Wire :=
  (RequestHeader.init 64).bytes ++ unsignedBytes 0 ++ unsignedBytes 1 ++ unsignedBytes 0 ++
    (Entry.mk 0 msgSize 0 1).bytes ++ [7]

/-- The bytes of this request are the request. -/
theorem requestOfInfo_given (msgSize : Unsigned) :
    Given (requestOfInfo msgSize) 37 (requestOfInfo msgSize) where
  within := le_rfl
  small := show 37 ≤ ptrdiffMax by decide
  bytes := List.take_of_length_le (show 37 ≤ 37 from le_rfl)

/-- With messages of 4 bytes it is parsed safely. -/
theorem requestParse_safe_iff_small_messages :
    ParseSafe 64 Allocator.zeroed (requestOfInfo 4) 37 :=
  (requestParse_safe_iff Allocator.zeroed_inRange (requestOfInfo_given 4)).mpr
    fun _ => ⟨by decide, by decide, fun _ => by decide⟩

/-- If the messages have size 0 the info is stored behind a block of 0 bytes. -/
theorem requestParse_stores_outside :
    ¬ ∀ (cls : Size) (A : Allocator) (req : List Byte) (size : Size), A.InRange →
      size.toNat ≤ req.length → req.length ≤ ptrdiffMax → ParseSafe cls A req size := by
  intro hall
  have hgiven := requestOfInfo_given 0
  obtain ⟨parsed, hparse, -⟩ := hall 64 Allocator.zeroed (requestOfInfo 0) 37
    Allocator.zeroed_inRange hgiven.within hgiven.small
  have hheaded : (requestOfInfo 0).Headed 64 := by decide
  have hfault := requestParse_infos_fault Allocator.zeroed_inRange hgiven hheaded (by decide)
    (by decide) (by decide) (by decide)
  rw [hfault] at hparse
  cases hparse

end Rtipc
