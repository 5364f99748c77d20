/-
  Does `ri_group_data_from_attr` copy the attributes?

  All infos should go into one block, one after the other, from a place `mem` in the block on.  But behind
  an empty info the place is lost, because `ri_info_copy` returns its destination: the next info that is
  not empty is copied over a `ri_info_t` of the group data.  So all infos are copied only if the empty ones
  are the last ones (`deep_copy_iff`).

  1. **The statement.**  `DeepCopied` is what a caller expects of a copy: it describes the same group,
     all its infos are in the block, at aligned places that do not overlap, and nothing is stored
     elsewhere. `deep_copy_iff` says for which attributes this holds: if there is an info that is not
     empty, then no empty one comes before it.

  2. **Sufficient.**  While no info is empty the writer stands in the block, and the block has room for
     the rest (`InfoWriter.Ready`, `InfoWriter.Ready.copyAll_ok`): the room was computed as the sum of
     the same rounded sizes.

  3. **Necessary.**  Behind an empty info the writer stands at an `ri_info_t`, and whatever it stores
     next is not in the block (`InfoWriter.Nowhere`), so one of the events is an overwrite.
-/
import Rtipc.DataCopy

namespace Rtipc

/-! ## Copying into the block

  How much room is asked for, how much is used, and when the two are the same. -/

/-- The bytes of an info in the block. -/
def Info.region (info : Info InfoPtr) : Option Region :=
  match info.data with
  | some (.block offset) => some ⟨offset.toNat, info.size.toNat⟩
  | _ => none

/-- The bytes of all infos in the block. -/
def regionsOf (infos : List (Info InfoPtr)) : List Region := infos.filterMap Info.region

/-- No info behind an empty one. -/
def EmptyLast {π : Type} (infos : List (Info π)) : Prop :=
  infos.Pairwise fun info behind => info.size = 0 → behind.size = 0

/-- The next info goes to the place `mem` in the block. -/
structure InfoWriter.Ready (w : InfoWriter) (block : List Byte) (mem : Size) : Prop where
  holds : w.block = some block
  stands : w.mem = .block mem
  aligned : 16 ∣ mem.toNat
  inside : mem.toNat ≤ block.length
  whole : 16 ∣ block.length
  small : block.length < 2 ^ 64

/-- All infos have been copied into the block. -/
structure InfoWriter.Copied (w : InfoWriter) (block : List Byte) (start : Nat)
    (srcs : List (Info (List Byte))) (infos : List (Info InfoPtr)) (w' : InfoWriter)
    (block' : List Byte) : Prop where
  holds : w'.block.getD [] = block'
  length : block'.length = block.length
  same : List.Forall₂ (fun src info => info.size = src.size ∧ info.bytesIn block' = src.bytes) srcs infos
  stored : w'.events = w.events ++ (regionsOf infos).map .copy
  strays : w'.strays = w.strays
  aligned : ∀ r ∈ regionsOf infos, 16 ∣ r.start
  above : ∀ r ∈ regionsOf infos, start ≤ r.start
  inside : ∀ r ∈ regionsOf infos, r.stop ≤ block.length
  apart : (regionsOf infos).Pairwise Region.Apart
  frame : ∀ off len, off + len ≤ start → readAt block' off len = readAt block off len

section copy

variable {w w' : InfoWriter} {block block' : List Byte} {mem : Size} {src : Info (List Byte)}
  {srcs : List (Info (List Byte))} {infos : List (Info InfoPtr)}

/-- The room that the infos take. -/
def roomOf {π : Type} (infos : List (Info π)) : Nat := alignedRoom (infos.map (·.size.toNat))

/-- The room for one more info. -/
theorem roomOf_cons {π : Type} (info : Info π) (infos : List (Info π)) :
    roomOf (info :: infos) = alignUp 16 info.size.toNat + roomOf infos := List.sum_cons

/-- No room is needed if and only if all infos are empty. -/
theorem roomOf_eq_zero {π : Type} {infos : List (Info π)} :
    roomOf infos = 0 ↔ ∀ info ∈ infos, info.size = 0 := by
  induction infos with
  | nil => exact iff_of_true rfl (List.forall_mem_nil _)
  | cons info infos ih =>
    have hthis : alignUp 16 info.size.toNat = 0 ↔ info.size = 0 := by
      have hle := le_alignUp (n := info.size.toNat) (show 0 < 16 by decide)
      refine ⟨fun hzero => BitVec.eq_of_toNat_eq (Nat.le_zero.mp (hzero ▸ hle)), fun hzero => ?_⟩
      rw [hzero]
      rfl
    rw [roomOf_cons, Nat.add_eq_zero_iff, hthis, ih, List.forall_mem_cons]

/-- An empty info is skipped, also if it has data. -/
theorem InfoWriter.infoCopy_empty (h : src.size = 0) :
    w.infoCopy src = .ok ({ size := 0, data := none }, w.skip) := by
  unfold infoCopy
  split
  · rfl
  · rw [if_pos h]
    rfl

/-- An info that is not empty is there. -/
theorem Info.Backed.present (h : src.Backed) (hpos : src.size ≠ 0) : ¬ src.Absent := by
  obtain ⟨bytes, hdata, -, -⟩ := h.resolve_left hpos
  rintro (hnone | hzero)
  · rw [hdata] at hnone
    cases hnone
  · exact hpos hzero

/-- Empty infos change nothing but the place. -/
theorem InfoWriter.copyAll_empty (hempty : ∀ src ∈ srcs, src.size = 0) :
    ∃ w', w.copyAll srcs = .ok (srcs.map fun _ => { size := 0, data := none }, w') ∧
      w'.block = w.block ∧ w'.strays = w.strays ∧ w'.events = w.events := by
  induction srcs generalizing w with
  | nil => exact ⟨w, rfl, rfl, rfl, rfl⟩
  | cons src srcs ih =>
    rw [List.forall_mem_cons] at hempty
    obtain ⟨w', hrest, hkept⟩ := ih (w := w.skip) hempty.2
    refine ⟨w', ?_, hkept⟩
    rw [copyAll, infoCopy_empty hempty.1]
    show copyAll srcs w.skip >>= _ = _
    rw [hrest]
    rfl

/-- What has been done stays done. -/
theorem InfoWriter.copyAll_events {e : Event} (h : w.copyAll srcs = .ok (infos, w')) (he : e ∈ w.events) :
    e ∈ w'.events := by
  induction srcs generalizing w infos with
  | nil =>
    cases h
    exact he
  | cons src srcs ih =>
    obtain ⟨⟨info, t⟩, hinfo, h⟩ := checkedBind_ok.mp h
    obtain ⟨⟨rest, u⟩, hrest, h⟩ := checkedBind_ok.mp h
    cases h
    refine ih hrest ?_
    rcases infoCopy_cases hinfo with ⟨-, -, rfl⟩ | ⟨-, data, bytes, p, v, -, -, hcopy, -, rfl⟩
    · exact he
    · rcases memcpy_cases hcopy with ⟨mem, block, -, -, -, -, rfl⟩ | ⟨n, offset, info, -, -, -, rfl⟩ <;>
        exact List.mem_append_left _ he

/-- The next info does not go into a block: there is none, or an info has been skipped. -/
def InfoWriter.Nowhere (w : InfoWriter) : Prop := w.block = none ∨ ∃ n offset, w.mem = .info n offset

/-- Without a place in a block, an info that is not empty is copied over a `ri_info_t`. -/
theorem InfoWriter.Nowhere.empty (hw : w.Nowhere) (hinfos : ∀ src ∈ srcs, src.Backed)
    (h : w.copyAll srcs = .ok (infos, w')) (hnone : ∀ n, .overwrite n ∉ w'.events) :
    ∀ src ∈ srcs, src.size = 0 := by
  induction srcs generalizing w infos with
  | nil => exact List.forall_mem_nil _
  | cons src srcs ih =>
    rw [List.forall_mem_cons] at hinfos ⊢
    obtain ⟨⟨info, t⟩, hinfo, h⟩ := checkedBind_ok.mp h
    obtain ⟨⟨rest, u⟩, hrest, h⟩ := checkedBind_ok.mp h
    cases h
    by_cases hzero : src.size = 0
    · rw [infoCopy_empty hzero] at hinfo
      cases hinfo
      exact ⟨hzero, ih (Or.inr ⟨_, _, rfl⟩) hinfos.2 hrest⟩
    · rcases infoCopy_cases hinfo with ⟨habsent, -⟩ | ⟨-, data, bytes, p, v, -, -, hcopy, -, rfl⟩
      · exact absurd habsent (hinfos.1.present hzero)
      · rcases memcpy_cases hcopy with ⟨mem, block, hmem, hblock, -⟩ | ⟨n, offset, info, -, -, -, rfl⟩
        -- case: there would have to be a block and a place in it
        · rcases hw with hnull | ⟨n, offset, helsewhere⟩
          · rw [hnull] at hblock
            cases hblock
          · rw [helsewhere] at hmem
            cases hmem
        · exact absurd (copyAll_events hrest (List.mem_append_right _ (List.mem_singleton_self _))) (hnone n)

/-- An info that is not empty is copied to `mem`, if there is room. -/
theorem InfoWriter.Ready.infoCopy (h : w.Ready block mem) (hsrc : src.Backed) (hpos : src.size ≠ 0)
    (hfit : mem.toNat + alignUp 16 src.size.toNat ≤ block.length) :
    ∃ w₁ mem₁, w.infoCopy src = .ok ({ size := src.size, data := some (.block mem) }, w₁) ∧
      w₁.Ready (writeAt block mem.toNat src.bytes) mem₁ ∧
      mem₁.toNat = mem.toNat + alignUp 16 src.size.toNat ∧ w₁.strays = w.strays ∧
      w₁.events = w.events ++ [.copy ⟨mem.toNat, src.size.toNat⟩] := by
  have hlen := hsrc.length
  have hle := le_alignUp (n := src.size.toNat) (show 0 < 16 by decide)
  have hsmall := h.small
  have hmax : ptrdiffMax < 2 ^ 63 := by decide
  obtain ⟨bytes, hdata, hbytes, hsize⟩ := hsrc.resolve_left hpos
  have hload : loadBytes .infos bytes 0 src.size = .ok src.bytes := by
    rw [loadBytes_zero _ hbytes, Info.bytes, hdata]
  -- The info fits, so it is stored in the block,
  have hstore : storeBytes .infos block mem src.bytes = .ok (writeAt block mem.toNat src.bytes) := by
    rw [storeBytes, hlen, if_pos (by omega)]
  -- and the next place is behind it, rounded up.
  have hmem : (memOffset mem (infoAlign src.size)).toNat =
      mem.toNat + alignUp 16 src.size.toNat := by
    rw [memOffset, BitVec.toNat_add, infoAlign, toNat_memMaxalign (by omega)]
    exact Nat.mod_eq_of_lt (by omega)
  have hblock : (writeAt block mem.toNat src.bytes).length = block.length :=
    length_writeAt (by omega)
  refine ⟨{ w with
      block := some (writeAt block mem.toNat src.bytes)
      mem := .block (memOffset mem (infoAlign src.size))
      dest := w.dest + 1
      events := w.events ++ [.copy ⟨mem.toNat, src.size.toNat⟩] },
    memOffset mem (infoAlign src.size), ?_, ⟨rfl, rfl, ?_, ?_, ?_, ?_⟩, hmem, rfl, rfl⟩
  · rw [InfoWriter.infoCopy, hdata]
    dsimp only
    rw [if_neg hpos, hload]
    show w.memcpy src.bytes src.size >>= _ = _
    rw [memcpy, h.stands, h.holds]
    dsimp only
    rw [hstore]
    rfl
  · rw [hmem]
    exact Nat.dvd_add h.aligned dvd_alignUp
  · rw [hmem, hblock]
    exact hfit
  · rw [hblock]
    exact h.whole
  · rw [hblock]
    exact hsmall

/-- And only then. -/
theorem InfoWriter.Ready.fits (h : w.Ready block mem) (hsrc : src.Backed) (hpos : src.size ≠ 0)
    {info : Info InfoPtr} (hinfo : w.infoCopy src = .ok (info, w')) :
    mem.toNat + alignUp 16 src.size.toNat ≤ block.length := by
  rcases infoCopy_cases hinfo with ⟨habsent, -⟩ | ⟨-, data, bytes, p, v, -, hload, hcopy, -⟩
  · exact absurd habsent (hsrc.present hpos)
  · rcases memcpy_cases hcopy with ⟨mem', block', hmem, hblock, -, hinside, -⟩ | ⟨n, offset, info, hmem, -⟩
    · rw [h.stands] at hmem
      rw [h.holds] at hblock
      cases hmem
      cases hblock
      rw [(loadBytes_ok hload).2] at hinside
      -- the block is as long as whole multiples of the alignment
      have hup := alignUp_le (show 0 < 16 by decide)
        (show src.size.toNat ≤ block.length - mem.toNat by omega) (Nat.dvd_sub h.whole h.aligned)
      omega
    · rw [h.stands] at hmem
      cases hmem

/-- Where all infos are empty, none comes behind an empty one. -/
theorem emptyLast_of_empty {π : Type} {infos : List (Info π)} (h : ∀ info ∈ infos, info.size = 0) :
    EmptyLast infos :=
  List.Pairwise.imp_of_mem (fun _ hmem _ _ => h _ hmem) (List.pairwise_of_forall fun _ _ => trivial)

/-- The copies of empty infos. -/
theorem forall₂_empty (h : ∀ src ∈ srcs, src.Backed ∧ src.size = 0) :
    List.Forall₂ (fun (src : Info (List Byte)) (info : Info InfoPtr) =>
      info.size = src.size ∧ info.bytesIn block = src.bytes)
      srcs (srcs.map fun _ => { size := 0, data := none }) := by
  induction srcs with
  | nil => exact List.Forall₂.nil
  | cons src srcs ih =>
    rw [List.forall_mem_cons] at h
    obtain ⟨⟨hbacked, hzero⟩, hrest⟩ := h
    have hbytes : src.bytes = [] := by
      have hlen := hbacked.length
      rw [hzero] at hlen
      exact List.length_eq_zero_iff.mp hlen
    exact List.Forall₂.cons ⟨hzero.symm, hbytes.symm⟩ (ih hrest)

/-- Empty infos take no regions. -/
theorem regionsOf_empty (srcs : List (Info (List Byte))) :
    regionsOf (srcs.map fun _ => { size := 0, data := none }) = [] := by
  rw [regionsOf, List.filterMap_map]
  exact List.filterMap_eq_nil_iff.mpr fun _ _ => rfl

/-- Nothing has been copied, because all infos are empty. -/
theorem InfoWriter.copied_empty (hholds : w'.block.getD [] = block) (hstrays : w'.strays = w.strays)
    (hevents : w'.events = w.events) (hempty : ∀ src ∈ srcs, src.Backed ∧ src.size = 0) (start : Nat) :
    w.Copied block start srcs (srcs.map fun _ => { size := 0, data := none }) w' block := by
  have hregions := regionsOf_empty srcs
  have hnone {P : Region → Prop} :
      ∀ r ∈ regionsOf (srcs.map fun _ => { size := 0, data := none }), P r := by
    rw [hregions]
    exact fun r hr => nomatch hr
  refine ⟨hholds, rfl, forall₂_empty hempty, ?_, hstrays, hnone, hnone, hnone, ?_, fun _ _ _ => rfl⟩
  · rw [hregions, List.map_nil, List.append_nil]
    exact hevents
  · rw [hregions]
    exact List.Pairwise.nil

/-- The infos are copied, if the empty ones are the last ones and if there is room. -/
theorem InfoWriter.Ready.copyAll_ok (h : w.Ready block mem) (hinfos : ∀ src ∈ srcs, src.Backed)
    (hlast : EmptyLast srcs) (hfit : mem.toNat + roomOf srcs ≤ block.length) :
    ∃ infos w' block', w.copyAll srcs = .ok (infos, w') ∧
      w.Copied block mem.toNat srcs infos w' block' := by
  induction srcs generalizing w block mem with
  | nil =>
    exact ⟨[], w, block, rfl,
      copied_empty (by rw [h.holds]; rfl) rfl rfl (List.forall_mem_nil _) mem.toNat⟩
  | cons src srcs ih =>
    obtain ⟨hsrc, hsrcs⟩ := List.forall_mem_cons.mp hinfos
    obtain ⟨hbehind, hlast'⟩ := List.pairwise_cons.mp hlast
    rw [roomOf_cons] at hfit
    by_cases hzero : src.size = 0
    · -- all infos are empty
      have hall : ∀ s ∈ src :: srcs, s.size = 0 :=
        List.forall_mem_cons.mpr ⟨hzero, fun s hs => hbehind s hs hzero⟩
      obtain ⟨w', hcopied, hblock, hstrays, hevents⟩ := copyAll_empty (w := w) hall
      exact ⟨(src :: srcs).map fun _ => { size := 0, data := none }, w', block, hcopied,
        copied_empty (w := w) (by rw [hblock, h.holds]; rfl) hstrays hevents
          (fun s hs => ⟨hinfos s hs, hall s hs⟩) mem.toNat⟩
    · obtain ⟨w₁, mem₁, hinfo, hready, hmem₁, hstrays₁, hevents₁⟩ := h.infoCopy hsrc hzero (by omega)
      have hlen := hsrc.length
      have hle := le_alignUp (n := src.size.toNat) (show 0 < 16 by decide)
      have hlength : (writeAt block mem.toNat src.bytes).length = block.length :=
        length_writeAt (by omega)
      obtain ⟨infos, w', block', hrest, hcopied⟩ := ih hready hsrcs hlast' (by omega)
      have hregion : regionsOf ({ size := src.size, data := some (.block mem) } :: infos) =
          ⟨mem.toNat, src.size.toNat⟩ :: regionsOf infos := rfl
      refine ⟨{ size := src.size, data := some (.block mem) } :: infos, w', block', ?_, ?_⟩
      · rw [copyAll, hinfo]
        show w₁.copyAll srcs >>= _ = _
        rw [hrest]
        rfl
      · refine ⟨hcopied.holds, hcopied.length.trans hlength, List.Forall₂.cons ⟨rfl, ?_⟩ hcopied.same,
          ?_, hcopied.strays.trans hstrays₁, ?_, ?_, ?_, ?_, ?_⟩
        all_goals try rw [hregion]
        · -- the later infos are stored behind this one
          show readAt block' mem.toNat src.size.toNat = src.bytes
          rw [hcopied.frame _ _ (by omega), ← hlen]
          exact readAt_writeAt (by omega)
        · rw [hcopied.stored, hevents₁, List.append_assoc]
          rfl
        · exact List.forall_mem_cons.mpr ⟨h.aligned, hcopied.aligned⟩
        · refine List.forall_mem_cons.mpr ⟨le_rfl, fun r hr => ?_⟩
          have := hcopied.above r hr
          omega
        · refine List.forall_mem_cons.mpr ⟨?_, fun r hr => ?_⟩
          · show mem.toNat + src.size.toNat ≤ block.length
            omega
          · rw [← hlength]
            exact hcopied.inside r hr
        · refine List.pairwise_cons.mpr ⟨fun r hr => Region.apart_of_le ?_, hcopied.apart⟩
          have := hcopied.above r hr
          show mem.toNat + src.size.toNat ≤ r.start
          omega
        · intro off len hoff
          rw [hcopied.frame off len (by omega)]
          exact readAt_writeAt_of_le (by omega) hoff

/-- And only then, if none is copied over a `ri_info_t`. -/
theorem InfoWriter.Ready.copyAll_fits (h : w.Ready block mem) (hinfos : ∀ src ∈ srcs, src.Backed)
    (hcopied : w.copyAll srcs = .ok (infos, w')) (hnone : ∀ n, .overwrite n ∉ w'.events) :
    EmptyLast srcs ∧ mem.toNat + roomOf srcs ≤ block.length := by
  induction srcs generalizing w block mem infos with
  | nil => exact ⟨List.Pairwise.nil, h.inside⟩
  | cons src srcs ih =>
    rw [List.forall_mem_cons] at hinfos
    obtain ⟨⟨info, w₁⟩, hinfo, hcopied⟩ := checkedBind_ok.mp hcopied
    obtain ⟨⟨rest, w₂⟩, hrest, hcopied⟩ := checkedBind_ok.mp hcopied
    cases hcopied
    by_cases hzero : src.size = 0
    -- case: behind this one there are only empty ones
    · rw [infoCopy_empty hzero] at hinfo
      cases hinfo
      have hempty := Nowhere.empty (Or.inr ⟨_, _, rfl⟩) hinfos.2 hrest hnone
      have hall : ∀ s ∈ src :: srcs, s.size = 0 := List.forall_mem_cons.mpr ⟨hzero, hempty⟩
      refine ⟨emptyLast_of_empty hall, ?_⟩
      rw [roomOf_eq_zero.mpr hall]
      exact h.inside
    · have hfit := h.fits hinfos.1 hzero hinfo
      obtain ⟨w₂, mem₁, hinfo', hready, hmem₁, -⟩ := h.infoCopy hinfos.1 hzero hfit
      rw [hinfo] at hinfo'
      cases hinfo'
      obtain ⟨hlast, hroom⟩ := ih hready hinfos.2 hrest
      have hlen := hinfos.1.length
      have hle := le_alignUp (n := src.size.toNat) (show 0 < 16 by decide)
      rw [length_writeAt (by omega)] at hroom
      refine ⟨List.pairwise_cons.mpr ⟨fun _ _ hempty => absurd hempty hzero, hlast⟩, ?_⟩
      rw [roomOf_cons]
      omega

/-- The first info goes to the start of a new block. -/
theorem InfoWriter.ready_start (hwhole : 16 ∣ block.length) (hsmall : block.length < 2 ^ 64) :
    InfoWriter.Ready ⟨some block, .block 0, 0, [], []⟩ block 0 :=
  ⟨rfl, rfl, Nat.dvd_zero _, Nat.zero_le _, hwhole, hsmall⟩

/-- A new block, or none, of exactly the room of the infos: all of them are copied into it if none of them
    is behind an empty one. -/
theorem InfoWriter.copyAll_start_ok {start : Option (List Byte)} (hwhole : 16 ∣ (start.getD []).length)
    (hsmall : (start.getD []).length < 2 ^ 64) (hinfos : ∀ src ∈ srcs, src.Backed)
    (hlast : EmptyLast srcs) (hroom : (start.getD []).length = roomOf srcs) :
    ∃ infos w' block', copyAll srcs ⟨start, .block 0, 0, [], []⟩ = .ok (infos, w') ∧
      Copied ⟨start, .block 0, 0, [], []⟩ (start.getD []) 0 srcs infos w' block' := by
  rcases start with _ | block
  · -- there is no block, because there is nothing to copy
    have hempty : ∀ src ∈ srcs, src.size = 0 := roomOf_eq_zero.mp hroom.symm
    obtain ⟨w', hcopied, hw', hstrays, hkept⟩ :=
      copyAll_empty (w := ⟨none, .block 0, 0, [], []⟩) hempty
    exact ⟨_, w', _, hcopied, copied_empty (by rw [hw']) hstrays hkept
      (fun src hsrc => ⟨hinfos src hsrc, hempty src hsrc⟩) 0⟩
  · exact (ready_start hwhole hsmall).copyAll_ok hinfos hlast ((Nat.zero_add _).trans_le hroom.ge)

/-- If nothing is copied over a `ri_info_t`, no info is behind an empty one, and the block has the room. -/
theorem InfoWriter.copyAll_start_fits {start : Option (List Byte)}
    (hwhole : 16 ∣ (start.getD []).length) (hsmall : (start.getD []).length < 2 ^ 64)
    (hinfos : ∀ src ∈ srcs, src.Backed)
    (hcopied : copyAll srcs ⟨start, .block 0, 0, [], []⟩ = .ok (infos, w'))
    (hnone : ∀ n, .overwrite n ∉ w'.events) :
    EmptyLast srcs ∧ roomOf srcs ≤ (start.getD []).length := by
  rcases start with _ | block
  · -- without a block every info is empty
    have hempty := Nowhere.empty (Or.inl rfl) hinfos hcopied hnone
    exact ⟨emptyLast_of_empty hempty, (roomOf_eq_zero.mpr hempty).le⟩
  · obtain ⟨hlast, hfit⟩ := (ready_start hwhole hsmall).copyAll_fits hinfos hcopied hnone
    exact ⟨hlast, (Nat.zero_add _).ge.trans hfit⟩

end copy

/-! ## The group data -/

section data

variable {A : Allocator} {attr : GroupAttr (List Byte)}
  {consumers producers srcs : List (ChannelAttr (List Byte))}

/-- The length of a list as a machine word. -/
theorem toNat_length (h : srcs.length < 2 ^ 32 - 1) :
    (BitVec.ofNat 32 srcs.length).toNat = srcs.length ∧ BitVec.ofNat 32 srcs.length ≠ unsignedMax := by
  have htoNat : (BitVec.ofNat 32 srcs.length).toNat = srcs.length := by
    rw [BitVec.toNat_ofNat]
    exact Nat.mod_eq_of_lt (by omega)
  refine ⟨htoNat, fun hmax => ?_⟩
  rw [hmax] at htoNat
  have : unsignedMax.toNat = 2 ^ 32 - 1 := by decide
  omega

/-- A table that has just been allocated has room for its channels. -/
theorem Allocator.channels_room (hcalloc : ∀ role count, A.calloc role count = true) (role : Role)
    (hlen : srcs.length < 2 ^ 32 - 1) : ∃ table,
      A.channels role (BitVec.ofNat 32 srcs.length) = some table ∧
        srcs.length ≤ (elements table).length := by
  obtain ⟨hn, hmax⟩ := toNat_length hlen
  refine ⟨_, Allocator.channels_eq (hcalloc role _) hmax, ?_⟩
  obtain ⟨zeros, hzeros⟩ := elements_tableOf (List.replicate
    (BitVec.ofNat 32 srcs.length).toNat (ChannelAttr.zero : ChannelAttr InfoPtr))
  rw [hzeros, List.length_append, List.length_replicate, hn]
  exact Nat.le_add_right _ _

/-- The room of the infos of a list. -/
theorem Lists.calcInfoSize {array : Option (List (ChannelAttr (List Byte)))} (h : Lists array srcs)
    (hinfos : ∀ attr ∈ srcs, attr.info.Backed) : ∃ size, calcChannelsInfoSize array = .ok size ∧
      size.toNat = roomOf (srcs.map (·.info)) % 2 ^ 64 := by
  have hroom := infoRoom_used h.used
  cases h with
  | null => exact ⟨0, rfl, rfl⟩
  | array tail used sentinel =>
    obtain ⟨size, hsize, htoNat⟩ := calcChannelsInfoSizeFrom_eq
      (fun attr hattr => (hinfos attr hattr).small) 0 sentinel tail
    refine ⟨size, hsize, ?_⟩
    rw [htoNat, hroom]
    exact congrArg (· % _) (Nat.zero_add _)

/-- `ri_attr_calc_info_size` is the room for all infos, modulo the word. -/
theorem attrCalcInfoSize_room (hc : Lists attr.consumers consumers)
    (hp : Lists attr.producers producers) (hinfo : attr.info.Backed)
    (hinfos : ∀ a ∈ consumers ++ producers, a.info.Backed) :
    ∃ size, attrCalcInfoSize attr = .ok size ∧
      size.toNat = roomOf (infosOf attr consumers producers) % 2 ^ 64 := by
  rw [List.forall_mem_append] at hinfos
  have hsmall := hinfo.small
  have hmax : ptrdiffMax < 2 ^ 63 := by decide
  obtain ⟨sizeC, hsizeC, htoNatC⟩ := hc.calcInfoSize hinfos.1
  obtain ⟨sizeP, hsizeP, htoNatP⟩ := hp.calcInfoSize hinfos.2
  have hsum : roomOf (infosOf attr consumers producers) = alignUp 16 attr.info.size.toNat +
      (roomOf (consumers.map (·.info)) + roomOf (producers.map (·.info))) := by
    rw [infosOf, roomOf_cons, roomOf, List.map_append, alignedRoom_append]
    rfl
  refine ⟨memMaxalign attr.info.size + sizeC + sizeP, ?_, ?_⟩
  · rw [attrCalcInfoSize, hsizeC, hsizeP]
    rfl
  · rw [BitVec.toNat_add, BitVec.toNat_add, toNat_memMaxalign (by omega), htoNatC, htoNatP, hsum]
    omega

/-- Allocating stores no info. -/
theorem overwrite_not_mem_acquired {α : Type} (b : Block) (ptr : Option α) (n : Nat) :
    .overwrite n ∉ acquired b ptr := by
  cases ptr with
  | none => exact List.not_mem_nil
  | some p =>
    intro h
    cases List.mem_singleton.mp h

/-- `ri_group_data_from_attr` copies all infos, with a new block if it needs one. -/
theorem groupDataFromAttr_eq (hc : Lists attr.consumers consumers)
    (hp : Lists attr.producers producers) (hlenC : consumers.length < 2 ^ 32 - 1)
    (hlenP : producers.length < 2 ^ 32 - 1) {infoSize : Size}
    (hsize : attrCalcInfoSize attr = .ok infoSize)
    (hcalloc : ∀ role count, A.calloc role count = true)
    (hmalloc : infoSize > 0 → (A.malloc infoSize).isSome) :
    ∃ events block, events.filterMap Event.copied = [] ∧ (∀ n, .overwrite n ∉ events) ∧
      (block.getD []).length = infoSize.toNat ∧
      groupDataFromAttr A attr = InfoWriter.copyAll (infosOf attr consumers producers)
          { block := block, mem := .block 0, dest := 0, events := [], strays := [] } >>= fun x =>
        .ok (0, GroupData.copied consumers producers (x.2.finalInfos 0 x.1) x.2.block,
          events ++ x.2.events) := by
  -- Both tables are granted.
  obtain ⟨tableC, htableC, hroomC⟩ := Allocator.channels_room hcalloc .consumer hlenC
  obtain ⟨tableP, htableP, hroomP⟩ := Allocator.channels_room hcalloc .producer hlenP
  have hcopy (block : Option (List Byte)) := @groupDataCopy_eq A attr { GroupData.zero with
      nConsumers := BitVec.ofNat 32 consumers.length
      nProducers := BitVec.ofNat 32 producers.length
      consumers := tableC
      producers := tableP
      memInfos := block } consumers producers hc hp (toNat_length hlenC).1 (toNat_length hlenP).1
    htableC htableP hroomC hroomP
  have hevents := groupDataNew_copied A (BitVec.ofNat 32 consumers.length)
    (BitVec.ofNat 32 producers.length)
  have hnew : groupDataNew A (BitVec.ofNat 32 consumers.length)
      (BitVec.ofNat 32 producers.length) = (0, { GroupData.zero with
        nConsumers := BitVec.ofNat 32 consumers.length
        nProducers := BitVec.ofNat 32 producers.length
        consumers := tableC
        producers := tableP }, acquired (.table .consumer) tableC ++
          acquired (.table .producer) tableP) := by
    rw [groupDataNew, htableC, htableP]
  have hnowhere : ∀ n, .overwrite n ∉ acquired (.table .consumer) tableC ++
      acquired (.table .producer) tableP := by
    intro n hn
    rcases List.mem_append.mp hn with hn | hn
    · exact overwrite_not_mem_acquired _ _ n hn
    · exact overwrite_not_mem_acquired _ _ n hn
  rw [hnew] at hevents
  rw [groupDataFromAttr, hc.count (by omega), hp.count (by omega), hsize]
  dsimp only [bind, Except.bind]
  rw [hnew]
  dsimp only
  rw [if_neg (by decide)]
  -- With infos a block for them is taken; without any the copy starts with none.
  by_cases hpos : infoSize > 0
  · obtain ⟨block, hblock⟩ := Option.isSome_iff_exists.mp (hmalloc hpos)
    refine ⟨acquired (.table .consumer) tableC ++ acquired (.table .producer) tableP ++
      [.acquire (.block .infos)], some block, ?_, ?_, A.malloc_length _ _ hblock, ?_⟩
    · rw [List.filterMap_append, hevents]
      rfl
    · intro n hn
      rcases List.mem_append.mp hn with hn | hn
      · exact hnowhere n hn
      · cases List.mem_singleton.mp hn
    · rw [if_pos hpos, hblock]
      dsimp only
      rw [hcopy (some block)]
      generalize InfoWriter.copyAll _ _ = copied
      rcases copied with e | ⟨infos, w⟩ <;> rfl
  · have hzero : infoSize.toNat = 0 := by
      rw [gt_iff_lt, BitVec.lt_def, show (0 : Size).toNat = 0 from rfl] at hpos
      omega
    refine ⟨_, none, hevents, hnowhere, hzero.symm, ?_⟩
    have hnone : groupDataCopy { GroupData.zero with
        nConsumers := BitVec.ofNat 32 consumers.length
        nProducers := BitVec.ofNat 32 producers.length
        consumers := tableC
        producers := tableP } attr = _ := hcopy none
    dsimp only at hnone
    rw [if_neg hpos, hnone]
    generalize InfoWriter.copyAll _ _ = copied
    rcases copied with e | ⟨infos, w⟩ <;> rfl

end data

/-! ## The copy

  The property that is asked of a copy, and when it has it. -/

/-- The group data is a copy of the attribute: it says the same, its infos are in the block, aligned
    and apart, and no info has been stored anywhere else. -/
structure DeepCopy (attr : GroupAttr (List Byte)) (consumers producers : List (ChannelAttr (List Byte)))
    (infoSize : Size) (data : GroupData) (events : List Event) (cs ps : List (ChannelAttr InfoPtr)) :
    Prop where
  tableC : data.consumers = tableOf cs
  tableP : data.producers = tableOf ps
  listsC : Lists data.view.consumers (cs.map (ChannelAttr.resolve (data.memInfos.getD [])))
  listsP : Lists data.view.producers (ps.map (ChannelAttr.resolve (data.memInfos.getD [])))
  equal : describe data.view.info (cs.map (ChannelAttr.resolve (data.memInfos.getD [])))
      (ps.map (ChannelAttr.resolve (data.memInfos.getD []))) =
    describe attr.info consumers producers
  block : (data.memInfos.getD []).length = infoSize.toNat
  stored : events.filterMap Event.copied =
    regionsOf (data.info :: (cs.map (·.info) ++ ps.map (·.info)))
  nowhere : ∀ n, .overwrite n ∉ events
  inside : ∀ r ∈ events.filterMap Event.copied, r.stop ≤ infoSize.toNat
  aligned : ∀ r ∈ events.filterMap Event.copied, maxAlign.toNat ∣ r.start
  apart : (events.filterMap Event.copied).Pairwise Region.Apart

/-- `ri_group_data_from_attr` makes a copy. -/
def DeepCopied (A : Allocator) (attr : GroupAttr (List Byte))
    (consumers producers : List (ChannelAttr (List Byte))) : Prop :=
  ∃ infoSize data events cs ps, attrCalcInfoSize attr = .ok infoSize ∧
    groupDataFromAttr A attr = .ok (0, data, events) ∧
    DeepCopy attr consumers producers infoSize data events cs ps

section deep

variable {A : Allocator} {attr : GroupAttr (List Byte)} {srcs : List (ChannelAttr (List Byte))}
  {infos : List (Info InfoPtr)} {block : List Byte}

/-- Copied channels say the same. -/
theorem desc_copied (h : List.Forall₂ (fun (src : Info (List Byte)) (info : Info InfoPtr) =>
      info.size = src.size ∧ info.bytesIn block = src.bytes) (srcs.map (·.info)) infos) :
    ((copiedChannels srcs infos).map fun attr => attr.desc (attr.info.bytesIn block)) =
      srcs.map fun attr => attr.desc attr.info.bytes := by
  induction srcs generalizing infos with
  | nil => rfl
  | cons src srcs ih =>
    obtain ⟨info, rest, ⟨hsize, hbytes⟩, hrest, rfl⟩ := List.forall₂_cons_left_iff.mp h
    refine List.cons_eq_cons.mpr ⟨?_, ih hrest⟩
    show ChannelDesc.mk src.msgSize src.addMsgs src.eventfd info.size (info.bytesIn block) = _
    rw [hsize, hbytes]
    rfl

/-- Copied channels are no sentinels. -/
theorem used_copied (h : ∀ src ∈ srcs, src.msgSize ≠ 0) :
    ∀ attr ∈ copiedChannels srcs infos, attr.msgSize ≠ 0 := by
  induction srcs generalizing infos with
  | nil => exact List.forall_mem_nil _
  | cons src srcs ih =>
    rcases infos with _ | ⟨info, infos⟩
    · exact List.forall_mem_nil _
    · rw [List.forall_mem_cons] at h
      exact List.forall_mem_cons.mpr ⟨h.1, ih h.2⟩

variable {consumers producers : List (ChannelAttr (List Byte))} {infoSize : Size}
  {events : List Event} {w w' : InfoWriter} {block' : List Byte} {start : Nat}

/-- A copy of all the infos in their room is a deep copy of the attribute. -/
theorem InfoWriter.Copied.deepCopy
    (h : w.Copied block start (infosOf attr consumers producers) infos w' block')
    (hw : w.events = []) (hstrays : w.strays = []) (hc : Lists attr.consumers consumers)
    (hp : Lists attr.producers producers)
    (hblock : block.length = infoSize.toNat) (hevents : events.filterMap Event.copied = [])
    (hnowhere : ∀ n, .overwrite n ∉ events) :
    ∃ cs ps, DeepCopy attr consumers producers infoSize
      (GroupData.copied consumers producers (w'.finalInfos 0 infos) w'.block) (events ++ w'.events)
        cs ps := by
  rw [w'.finalInfos_of_strays (h.strays.trans hstrays)]
  -- The infos are the group's, the consumers' and the producers', in this order.
  obtain ⟨info, rest, ⟨hsize, hbytes⟩, hrest, rfl⟩ := List.forall₂_cons_left_iff.mp h.same
  have hsameC := List.forall₂_take consumers.length hrest
  have hsameP := List.forall₂_drop consumers.length hrest
  rw [List.take_left' (List.length_map _)] at hsameC
  rw [List.drop_left' (List.length_map _)] at hsameP
  have hlenC : (rest.take consumers.length).length = consumers.length := by
    rw [← hsameC.length_eq, List.length_map]
  have hlenP : (rest.drop consumers.length).length = producers.length := by
    rw [← hsameP.length_eq, List.length_map]
  have hcs : copiedChannels consumers rest = copiedChannels consumers (rest.take consumers.length) :=
    copiedChannels_take.symm
  have hstored : w'.events = (regionsOf (info :: rest)).map .copy := by
    rw [h.stored, hw, List.nil_append]
  -- The stores are those of the copied infos.
  have hcopied : (events ++ w'.events).filterMap Event.copied = regionsOf (info :: rest) := by
    rw [List.filterMap_append, hevents, List.nil_append, hstored, filterMap_copied_map]
  have hmem : (GroupData.copied consumers producers (info :: rest) w'.block).memInfos.getD [] = block' :=
    h.holds
  refine ⟨copiedChannels consumers rest, copiedChannels producers (rest.drop consumers.length),
    rfl, rfl, lists_resolve _ (used_copied hc.used), lists_resolve _ (used_copied hp.used), ?_, ?_, ?_,
    ?_, ?_, ?_, ?_⟩
  · rw [hmem, describe, describe, desc_resolve, desc_resolve, desc_copied hsameP, hcs,
      desc_copied hsameC]
    show GroupDesc.mk info.size (info.resolve (w'.block.getD [])).bytes _ _ = _
    rw [Info.bytes_resolve, h.holds, hsize, hbytes]
  · rw [hmem, h.length, hblock]
  · rw [hcopied, hcs, infos_copied hlenC, infos_copied hlenP, List.take_append_drop]
    rfl
  · intro n hn
    rcases List.mem_append.mp hn with hn | hn
    · exact hnowhere n hn
    · rw [hstored] at hn
      obtain ⟨r, -, hr⟩ := List.mem_map.mp hn
      cases hr
  · rw [hcopied, ← hblock]
    exact h.inside
  · rw [hcopied]
    exact h.aligned
  · rw [hcopied]
    exact h.apart

/-- For which attributes does `ri_group_data_from_attr` make a copy? -/
theorem deep_copy_iff (hc : Lists attr.consumers consumers) (hp : Lists attr.producers producers)
    (hinfo : attr.info.Backed) (hinfos : ∀ a ∈ consumers ++ producers, a.info.Backed)
    (hcalloc : ∀ role count, A.calloc role count = true)
    (hmalloc : ∀ infoSize, attrCalcInfoSize attr = .ok infoSize → infoSize > 0 →
      (A.malloc infoSize).isSome) :
    DeepCopied A attr consumers producers ↔
      (consumers.length < 2 ^ 32 - 1 ∧ producers.length < 2 ^ 32 - 1) ∧
        EmptyLast (infosOf attr consumers producers) ∧
        roomOf (infosOf attr consumers producers) < 2 ^ 64 := by
  obtain ⟨infoSize, hsize, htoNat⟩ := attrCalcInfoSize_room hc hp hinfo hinfos
  have hall : ∀ src ∈ infosOf attr consumers producers, src.Backed := by
    rw [infosOf, ← List.map_append, List.forall_mem_cons, List.forall_mem_map]
    exact ⟨hinfo, hinfos⟩
  have hwhole : 16 ∣ infoSize.toNat := by
    have hroom : 16 ∣ roomOf (infosOf attr consumers producers) :=
      List.dvd_sum fun n hn => by
        obtain ⟨size, -, rfl⟩ := List.mem_map.mp hn
        exact dvd_alignUp
    omega
  constructor
  · rintro ⟨infoSize', data, events, cs, ps, -, hok, hdeep⟩
    obtain ⟨consumers', producers', cs', ps', hcopy⟩ := groupDataFromAttr_some hok
    -- the copy says which channels the arrays have
    obtain rfl := hcopy.listsC.usedChannels.symm.trans hc.usedChannels
    obtain rfl := hcopy.listsP.usedChannels.symm.trans hp.usedChannels
    obtain ⟨hlenC, hlenP⟩ := hcopy.length_lt
    refine ⟨⟨hlenC, hlenP⟩, ?_⟩
    obtain ⟨events', block, -, -, hblock, heq⟩ :=
      groupDataFromAttr_eq hc hp hlenC hlenP hsize hcalloc (hmalloc infoSize hsize)
    rw [heq] at hok
    obtain ⟨⟨infos, w⟩, hcopied, hok⟩ := checkedBind_ok.mp hok
    cases hok
    obtain ⟨hlast, hfit⟩ := InfoWriter.copyAll_start_fits (hblock ▸ hwhole) (hblock ▸ infoSize.isLt)
      hall hcopied fun n hn => hdeep.nowhere n (List.mem_append_right _ hn)
    exact ⟨hlast, (hblock ▸ hfit).trans_lt infoSize.isLt⟩
  · rintro ⟨⟨hlenC, hlenP⟩, hlast, hroom⟩
    obtain ⟨events, block, hevents, hnowhere, hblock, heq⟩ :=
      groupDataFromAttr_eq hc hp hlenC hlenP hsize hcalloc (hmalloc infoSize hsize)
    rw [Nat.mod_eq_of_lt hroom] at htoNat
    obtain ⟨infos, w', block', hcopied, hcopy⟩ := InfoWriter.copyAll_start_ok (hblock ▸ hwhole)
      (hblock ▸ infoSize.isLt) hall hlast (hblock.trans htoNat)
    obtain ⟨cs, ps, hdeep⟩ := hcopy.deepCopy rfl rfl hc hp hblock hevents hnowhere
    refine ⟨infoSize, _, _, cs, ps, hsize, ?_, hdeep⟩
    rw [heq, hcopied]
    rfl

end deep

/-- `smallAttr` with an info of the group in front of that of the producer. -/
def orderedAttr : GroupAttr (List Byte) := { smallAttr with info := { size := 1, data := some [7] } }

/-- A small attribute, all whose infos are copied. -/
theorem deep_copy_iff_ordered : DeepCopied Allocator.zeroed orderedAttr [] [smallProducer] := by
  have hbacked : ∀ a ∈ [] ++ [smallProducer], a.info.Backed := by
    intro a ha
    obtain rfl := List.mem_singleton.mp ha
    exact Or.inr ⟨_, rfl, by decide, by decide⟩
  refine (deep_copy_iff Lists.null (Lists.array [] (by decide) rfl)
    (Or.inr ⟨_, rfl, by decide, by decide⟩) hbacked (fun _ _ => rfl)
    (fun infoSize hsize _ => ?_)).mpr ⟨by decide, ?_, by decide⟩
  · obtain rfl : 32 = infoSize := Except.ok.inj hsize
    rfl
  · exact List.pairwise_cons.mpr ⟨fun _ _ hempty => absurd hempty (by decide), List.pairwise_singleton _ _⟩

/-- The info of a producer behind the empty info of the group is stored outside the block, over the info of
    the group. -/
theorem info_behind_empty_stored_outside :
    Lists smallAttr.consumers [] ∧ Lists smallAttr.producers [smallProducer] ∧
      smallAttr.info.Backed ∧ smallProducer.info.Backed ∧
      (∃ data events, groupDataFromAttr Allocator.zeroed smallAttr = .ok (0, data, events) ∧
        .overwrite 0 ∈ events ∧ data.info.size = 513) ∧
      ¬ DeepCopied Allocator.zeroed smallAttr [] [smallProducer] := by
  obtain ⟨data, events, hok, hover, hinfo⟩ : ∃ data events,
      groupDataFromAttr Allocator.zeroed smallAttr = .ok (0, data, events) ∧
        .overwrite 0 ∈ events ∧ data.info.size = 513 := ⟨_, _, rfl, by decide, by decide⟩
  refine ⟨Lists.null, Lists.array [] (by decide) rfl, Or.inl rfl, Or.inr ⟨_, rfl, by decide, by decide⟩,
    ⟨data, events, hok, hover, hinfo⟩, ?_⟩
  rintro ⟨infoSize, data', events', cs, ps, -, hok', hdeep⟩
  rw [hok] at hok'
  cases hok'
  exact hdeep.nowhere 0 hover

end Rtipc
