/-
  What `ri_group_data_from_attr` makes of the attributes.

  The tables have the channels up to the first one with messages of size 0, and the walk up to the
  sentinel finds them all again.  Everything but the infos is copied whatever the attributes are.

  The infos are copied one after the other: first the info of the group, then those of the consumers and
  those of the producers (`infosOf`).  `copyAll` copies them all at once, and a `ri_info_t` that another
  info is copied over gets its bytes at the end (`finalInfos`).  The infos are in the block as long as
  none that is there comes behind one that is not (`AbsentLast`).

  1. **One loop instead of three.**  The code copies the info of the group and then walks the two
     tables. `groupDataCopy_eq` says that this is one walk over the list `infosOf`, with the results
     distributed again.

  2. **A store outside the block.**  After an info that is not there the writer stands at the
     `ri_info_t` that was just filled, and the next info is copied over that, so what the table says in
     the end is read back after all copies (`finalInfos`).  If the writer never strays
     (`finalInfos_of_strays`) it is what was returned at once.

  3. **What always holds.**  Sizes, numbers and eventfd flags of all channels are copied as they are
     (`GroupData.CopyOf`, `bare_copied`), in every attribute for which the call returns.
-/
import Rtipc.DataLedger
import Rtipc.RequestWalks

namespace Rtipc

/-- The attribute without its info. -/
def ChannelAttr.bare {π : Type} (attr : ChannelAttr π) : ChannelAttr Unit :=
  attr.withInfo { size := 0, data := none }

/-- What channels without their infos have in common. -/
theorem ChannelAttr.bare_inj {π π' : Type} {attr : ChannelAttr π} {attr' : ChannelAttr π'}
    (h : attr.bare = attr'.bare) : attr.msgSize = attr'.msgSize ∧ attr.addMsgs = attr'.addMsgs ∧
      attr.eventfd = attr'.eventfd := by
  have hmsg := congrArg ChannelAttr.msgSize h
  have hadd := congrArg ChannelAttr.addMsgs h
  have hfd := congrArg ChannelAttr.eventfd h
  exact ⟨hmsg, hadd, hfd⟩

/-! ## Counting -/

section count

variable {π : Type}

/-- The count stops at the first sentinel. -/
theorem countChannelsFrom_ok {i n : Unsigned} {array : List (ChannelAttr π)}
    (h : countChannelsFrom i array = .ok n) : ∃ attrs stop tail, array = attrs ++ stop :: tail ∧
      (∀ attr ∈ attrs, attr.msgSize ≠ 0) ∧ stop.msgSize = 0 ∧ n.toNat = i.toNat + attrs.length := by
  -- The induction is on the array; the count stops at the sentinel, and faults if the index wraps.
  induction array generalizing i with
  | nil => cases h
  | cons attr array ih =>
    rw [countChannelsFrom] at h
    split at h
    · rename_i hzero
      cases h
      exact ⟨[], attr, array, rfl, fun a ha => (by cases ha), hzero, rfl⟩
    · rename_i hused
      split at h
      · cases h
      · rename_i hwrap
        obtain ⟨attrs, stop, tail, rfl, hall, hstop, hn⟩ := ih h
        have hlt := i.isLt
        have hnext : (i + 1).toNat = i.toNat + 1 := by
          rw [BitVec.toNat_add, show (1 : Unsigned).toNat = 1 from rfl]
          refine Nat.mod_eq_of_lt (Nat.lt_of_le_of_ne hlt fun hmax => hwrap ?_)
          refine BitVec.eq_of_toNat_eq ?_
          rw [BitVec.toNat_add, show (1 : Unsigned).toNat = 1 from rfl, hmax]
          rfl
        refine ⟨attr :: attrs, stop, tail, rfl, ?_, hstop, ?_⟩
        · intro a ha
          rcases List.mem_cons.mp ha with rfl | ha
          · exact hused
          · exact hall a ha
        · rw [hn, hnext, List.length_cons]
          omega

/-- What has been counted is there. -/
theorem countChannels_ok {array : Option (List (ChannelAttr π))} {n : Unsigned}
    (h : countChannels array = .ok n) : ∃ attrs, Lists array attrs ∧ attrs.length = n.toNat := by
  cases array with
  | none =>
    cases h
    exact ⟨[], Lists.null, rfl⟩
  | some array =>
    obtain ⟨attrs, stop, tail, rfl, hall, hstop, hn⟩ := countChannelsFrom_ok h
    refine ⟨attrs, Lists.array tail hall hstop, ?_⟩
    rw [hn]
    exact (Nat.zero_add _).symm

end count

/-! ## All infos at once

  The copy goes through the tables; here it is a walk through one list of infos. -/

/-- `ri_info_copy` for one info after the other. -/
def InfoWriter.copyAll : List (Info (List Byte)) → InfoWriter →
    Checked (List (Info InfoPtr) × InfoWriter)
  | [], w => return ([], w)
  | src :: srcs, w => do
    let (info, w) ← w.infoCopy src
    let (infos, w) ← copyAll srcs w
    return (info :: infos, w)

/-- The channels with the infos that have been copied. -/
def copiedChannels (srcs : List (ChannelAttr (List Byte))) (infos : List (Info InfoPtr)) :
    List (ChannelAttr InfoPtr) :=
  List.zipWith ChannelAttr.withInfo srcs infos

/-- The `ri_info_t`s from number `k` on after all infos have been copied. -/
def InfoWriter.finalInfos (w : InfoWriter) : Nat → List (Info InfoPtr) → List (Info InfoPtr)
  | _, [] => []
  | k, info :: infos => w.final k info :: w.finalInfos (k + 1) infos

section all

variable {w w' : InfoWriter}

/-- Every info has a copy. -/
theorem InfoWriter.length_copyAll {srcs : List (Info (List Byte))} {infos : List (Info InfoPtr)}
    (h : w.copyAll srcs = .ok (infos, w')) : infos.length = srcs.length := by
  induction srcs generalizing w infos with
  | nil =>
    cases h
    rfl
  | cons src srcs ih =>
    obtain ⟨⟨info, t⟩, -, h⟩ := checkedBind_ok.mp h
    obtain ⟨⟨rest, u⟩, hrest, h⟩ := checkedBind_ok.mp h
    cases h
    rw [List.length_cons, List.length_cons, ih hrest]

/-- The loop of `copy_attrs` for channels of which all infos are copied at once. -/
theorem copyAttrs_eq (srcs tail : List (ChannelAttr (List Byte))) {dest : List (ChannelAttr InfoPtr)}
    (hlen : srcs.length ≤ dest.length) (w : InfoWriter) :
    copyAttrs srcs.length dest (srcs ++ tail) w =
      w.copyAll (srcs.map (·.info)) >>= fun x =>
        .ok (copiedChannels srcs x.1 ++ dest.drop srcs.length, x.2) := by
  induction srcs generalizing dest w with
  | nil => rfl
  | cons src srcs ih =>
    obtain ⟨d, dest, rfl⟩ :=
      List.exists_cons_of_length_pos (Nat.lt_of_lt_of_le (Nat.succ_pos _) hlen)
    rw [List.length_cons, List.cons_append, List.map_cons, copyAttrs, InfoWriter.copyAll]
    rcases w.infoCopy src.info with e | ⟨info, t⟩
    · rfl
    · show copyAttrs srcs.length dest (srcs ++ tail) t >>= _ =
        (t.copyAll (srcs.map (·.info)) >>= _) >>= _
      rw [ih (Nat.le_of_succ_le_succ hlen)]
      generalize t.copyAll (srcs.map (·.info)) = copied
      rcases copied with e | ⟨infos, u⟩ <;> rfl

/-- The loop of `copy_attrs` does not leave the table. -/
theorem copyAttrs_fits {n : Nat} {dest dest' : List (ChannelAttr InfoPtr)}
    {srcs : List (ChannelAttr (List Byte))} (h : copyAttrs n dest srcs w = .ok (dest', w')) :
    n ≤ dest.length := by
  induction n generalizing dest srcs w dest' with
  | zero => exact Nat.zero_le _
  | succ n ih =>
    cases dest with
    | nil => cases h
    | cons d dest =>
      cases srcs with
      | nil => cases h
      | cons src srcs =>
        obtain ⟨⟨info, t⟩, -, h⟩ := checkedBind_ok.mp h
        obtain ⟨⟨rest, u⟩, hrest, h⟩ := checkedBind_ok.mp h
        cases h
        exact Nat.succ_le_succ (ih hrest)

/-- Two runs of infos, one behind the other. -/
theorem InfoWriter.copyAll_append (srcs srcs' : List (Info (List Byte))) (w : InfoWriter) :
    w.copyAll (srcs ++ srcs') = w.copyAll srcs >>= fun x =>
      x.2.copyAll srcs' >>= fun y => .ok (x.1 ++ y.1, y.2) := by
  induction srcs generalizing w with
  | nil =>
    show _ = w.copyAll srcs' >>= fun y => .ok (y.1, y.2)
    rw [List.nil_append]
    generalize w.copyAll srcs' = copied
    rcases copied with e | ⟨infos, t⟩ <;> rfl
  | cons src srcs ih =>
    rw [List.cons_append, copyAll, copyAll]
    rcases w.infoCopy src with e | ⟨info, t⟩
    · rfl
    · show t.copyAll (srcs ++ srcs') >>= _ = (t.copyAll srcs >>= _) >>= _
      rw [ih]
      generalize t.copyAll srcs = copied
      rcases copied with e | ⟨infos, u⟩
      · rfl
      · show (u.copyAll srcs' >>= _) >>= _ = u.copyAll srcs' >>= _
        generalize u.copyAll srcs' = copied
        rcases copied with e | ⟨infos', v⟩ <;> rfl

/-- As many infos are read back as were copied. -/
@[simp] theorem InfoWriter.length_finalInfos (w : InfoWriter) (k : Nat) (infos : List (Info InfoPtr)) :
    (w.finalInfos k infos).length = infos.length := by
  induction infos generalizing k with
  | nil => rfl
  | cons info infos ih => rw [finalInfos, List.length_cons, List.length_cons, ih]

/-- Infos of two lists, read back one after the other. -/
theorem InfoWriter.finalInfos_append (w : InfoWriter) (k : Nat) (infos infos' : List (Info InfoPtr)) :
    w.finalInfos k (infos ++ infos') = w.finalInfos k infos ++ w.finalInfos (k + infos.length) infos' := by
  induction infos generalizing k with
  | nil => rfl
  | cons info infos ih =>
    rw [List.cons_append, finalInfos, ih, finalInfos, List.cons_append, List.length_cons,
      Nat.add_assoc k 1, Nat.add_comm 1]

/-- Where no info has been copied over a `ri_info_t`, they stay as they are. -/
theorem InfoWriter.finalInfos_of_strays (h : w.strays = []) (k : Nat) (infos : List (Info InfoPtr)) :
    w.finalInfos k infos = infos := by
  induction infos generalizing k with
  | nil => rfl
  | cons info infos ih =>
    have hfirst : w.final k info = info := by
      rw [final, h]
      rfl
    rw [finalInfos, ih, hfirst]

/-- The table gets the final infos of its channels. -/
theorem InfoWriter.finalAttrs_copied (w : InfoWriter) (k : Nat) {srcs : List (ChannelAttr (List Byte))}
    {infos : List (Info InfoPtr)} (h : infos.length = srcs.length) (tail : List (ChannelAttr InfoPtr)) :
    w.finalAttrs k srcs.length (copiedChannels srcs infos ++ tail) =
      copiedChannels srcs (w.finalInfos k infos) ++ tail := by
  induction srcs generalizing infos k with
  | nil => rfl
  | cons src srcs ih =>
    obtain ⟨info, infos, rfl⟩ := List.exists_cons_of_length_eq_add_one h
    exact congrArg (src.withInfo (w.final k info) :: ·) (ih (k + 1) (Nat.succ.inj h))

end all

/-! ## The channels of the tables -/

section channels

variable {srcs : List (ChannelAttr (List Byte))} {infos : List (Info InfoPtr)}

/-- Infos behind the channels do not matter. -/
theorem copiedChannels_append {infos' : List (Info InfoPtr)} (h : infos.length = srcs.length) :
    copiedChannels srcs (infos ++ infos') = copiedChannels srcs infos := by
  rw [copiedChannels, copiedChannels, List.zipWith_eq_zipWith_take_min,
    List.length_append, Nat.min_eq_left (by omega), List.take_left' h, List.take_length]

/-- So only the first infos of a list do. -/
theorem copiedChannels_take : copiedChannels srcs (infos.take srcs.length) = copiedChannels srcs infos := by
  induction srcs generalizing infos with
  | nil => rfl
  | cons src srcs ih =>
    cases infos with
    | nil => rfl
    | cons info infos => exact congrArg (_ :: ·) ih

/-- As many channels as were copied. -/
theorem length_copiedChannels (h : infos.length = srcs.length) :
    (copiedChannels srcs infos).length = srcs.length := by
  rw [copiedChannels, List.length_zipWith, h, Nat.min_self]

/-- The channels have the infos that they have been given. -/
theorem infos_copied (h : infos.length = srcs.length) :
    (copiedChannels srcs infos).map (·.info) = infos := by
  induction srcs generalizing infos with
  | nil => exact (List.length_eq_zero_iff.mp h).symm
  | cons src srcs ih =>
    obtain ⟨info, infos, rfl⟩ := List.exists_cons_of_length_eq_add_one h
    exact congrArg (info :: ·) (ih (Nat.succ.inj h))

/-- Everything but the infos is copied. -/
theorem bare_copied (h : infos.length = srcs.length) :
    (copiedChannels srcs infos).map ChannelAttr.bare = srcs.map ChannelAttr.bare := by
  induction srcs generalizing infos with
  | nil => rfl
  | cons src srcs ih =>
    obtain ⟨info, infos, rfl⟩ := List.exists_cons_of_length_eq_add_one h
    exact congrArg (src.bare :: ·) (ih (Nat.succ.inj h))

/-- What depends on what is copied holds of the copies. -/
theorem forall_of_bare {dests : List (ChannelAttr InfoPtr)} {P : ChannelAttr Unit → Prop}
    (h : dests.map ChannelAttr.bare = srcs.map ChannelAttr.bare) (hall : ∀ src ∈ srcs, P src.bare) :
    ∀ dest ∈ dests, P dest.bare := by
  have hbare := List.forall_mem_map (f := ChannelAttr.bare).mpr hall
  rw [← h] at hbare
  exact List.forall_mem_map.mp hbare

end channels

/-! ## Infos in the block

  As long as no info is copied behind an empty one, all copies lie in the block, one behind the other. -/

/-- The infos of a group, in the order in which they are copied. -/
def infosOf (attr : GroupAttr (List Byte)) (consumers producers : List (ChannelAttr (List Byte))) :
    List (Info (List Byte)) :=
  attr.info :: (consumers.map (·.info) ++ producers.map (·.info))

/-- No info that is there behind one that is not: all infos are copied into the block. -/
def AbsentLast (infos : List (Info (List Byte))) : Prop :=
  infos.Pairwise fun info behind => info.Absent → behind.Absent

instance (infos : List (Info (List Byte))) : Decidable (AbsentLast infos) :=
  inferInstanceAs (Decidable (List.Pairwise _ infos))

/-- The info `dest` in a block of `len` bytes is a copy of `src`, or empty. -/
structure InfoCopyOf (len : Nat) (src : Info (List Byte)) (dest : Info InfoPtr) : Prop where
  size : dest.size = src.size ∨ dest.size = 0
  absent : src.Absent → dest.size = 0
  empty : dest.data = none → dest.size = 0
  inside : ∀ p, dest.data = some p → ∃ offset, p = .block offset ∧
    offset.toNat + dest.size.toNat ≤ len

/-- The length of the block that is written to. -/
def InfoWriter.len (w : InfoWriter) : Nat := (w.block.getD []).length

section copy

variable {w w' : InfoWriter} {src : Info (List Byte)} {srcs : List (Info (List Byte))}
  {dest : Info InfoPtr} {infos : List (Info InfoPtr)}

/-- The copy of an info that is not there. -/
theorem InfoCopyOf.empty_copy {len : Nat} : InfoCopyOf len src { size := 0, data := none } :=
  ⟨Or.inr rfl, fun _ => rfl, fun _ => rfl, fun p hp => by cases hp⟩

/-- Infos that are not there change nothing but the place. -/
theorem InfoWriter.copyAll_absent (habsent : ∀ src ∈ srcs, src.Absent)
    (h : w.copyAll srcs = .ok (infos, w')) : w'.block = w.block ∧ w'.strays = w.strays ∧
      w'.events = w.events ∧ infos = srcs.map fun _ => { size := 0, data := none } := by
  induction srcs generalizing w infos with
  | nil =>
    cases h
    exact ⟨rfl, rfl, rfl, rfl⟩
  | cons src srcs ih =>
    rw [List.forall_mem_cons] at habsent
    obtain ⟨⟨info, t⟩, hinfo, h⟩ := checkedBind_ok.mp h
    obtain ⟨⟨rest, u⟩, hrest, h⟩ := checkedBind_ok.mp h
    cases h
    rcases infoCopy_cases hinfo with ⟨-, rfl, rfl⟩ | ⟨hpresent, -⟩
    · obtain ⟨hblock, hstrays, hevents, rfl⟩ := ih habsent.2 hrest
      exact ⟨hblock, hstrays, hevents, rfl⟩
    · exact absurd habsent.1 hpresent

/-- An info that is there is copied into the block, if the place is in the block. -/
theorem InfoWriter.infoCopy_block {mem : Size} (hmem : w.mem = .block mem) (hpresent : ¬ src.Absent)
    (h : w.infoCopy src = .ok (dest, w')) : InfoCopyOf w.len src dest ∧ w'.len = w.len ∧
      w'.strays = w.strays ∧ ∃ mem', w'.mem = .block mem' := by
  rcases infoCopy_cases h with ⟨habsent, -⟩ | ⟨-, data, bytes, p, v, -, hload, hcopy, rfl, rfl⟩
  · exact absurd habsent hpresent
  · obtain ⟨-, hlen⟩ := loadBytes_ok hload
    rcases memcpy_cases hcopy with ⟨mem', block, -, hblock, rfl, hle, rfl⟩ |
      ⟨n, offset, info, helsewhere, -⟩
    · have hwlen : w.len = block.length := by rw [InfoWriter.len, hblock, Option.getD_some]
      refine ⟨⟨Or.inl rfl, fun habsent => absurd habsent hpresent, fun hp => (by cases hp),
        fun p hp => ?_⟩, ?_, rfl, _, rfl⟩
      · cases hp
        refine ⟨mem', rfl, ?_⟩
        rw [hwlen, ← hlen]
        exact hle
      · rw [hwlen]
        exact length_writeAt hle
    · rw [hmem] at helsewhere
      cases helsewhere

/-- Infos in order are copied into the block, and none over a `ri_info_t`. -/
theorem InfoWriter.copyAll_block {mem : Size} (hmem : w.mem = .block mem) (hlast : AbsentLast srcs)
    (h : w.copyAll srcs = .ok (infos, w')) :
    List.Forall₂ (InfoCopyOf w.len) srcs infos ∧ w'.len = w.len ∧ w'.strays = w.strays := by
  induction srcs generalizing w infos mem with
  | nil =>
    cases h
    exact ⟨List.Forall₂.nil, rfl, rfl⟩
  | cons src srcs ih =>
    obtain ⟨hbehind, hlast'⟩ := List.pairwise_cons.mp hlast
    by_cases habsent : src.Absent
    -- case: nothing more is there
    · have hall : ∀ s ∈ src :: srcs, s.Absent :=
        List.forall_mem_cons.mpr ⟨habsent, fun s hs => hbehind s hs habsent⟩
      obtain ⟨hblock, hstrays, -, rfl⟩ := copyAll_absent hall h
      refine ⟨?_, by rw [len, hblock, len], hstrays⟩
      rw [List.forall₂_map_right_iff]
      exact List.forall₂_same.mpr fun _ _ => InfoCopyOf.empty_copy
    -- case: into the block, and the next place is there again
    · obtain ⟨⟨info, t⟩, hinfo, h⟩ := checkedBind_ok.mp h
      obtain ⟨⟨rest, u⟩, hrest, h⟩ := checkedBind_ok.mp h
      cases h
      obtain ⟨hcopy, hlen, hstrays, mem', hmem'⟩ := infoCopy_block hmem habsent hinfo
      obtain ⟨hcopies, hlen', hstrays'⟩ := ih hmem' hlast' hrest
      rw [hlen] at hcopies hlen'
      exact ⟨List.Forall₂.cons hcopy hcopies, hlen', hstrays'.trans hstrays⟩

end copy

/-! ## The group data -/

/-- A group data with copies of these channels, that has the infos `infos`. -/
def GroupData.copied (consumers producers : List (ChannelAttr (List Byte)))
    (infos : List (Info InfoPtr)) (block : Option (List Byte)) : GroupData where
  info := infos.headD { size := 0, data := none }
  nConsumers := BitVec.ofNat 32 consumers.length
  nProducers := BitVec.ofNat 32 producers.length
  consumers := tableOf (copiedChannels consumers infos.tail)
  producers := tableOf (copiedChannels producers (infos.tail.drop consumers.length))
  memInfos := block

/-- The group data of an attribute with these channels. -/
structure GroupData.CopyOf (attr : GroupAttr (List Byte))
    (consumers producers : List (ChannelAttr (List Byte))) (data : GroupData)
    (cs ps : List (ChannelAttr InfoPtr)) : Prop where
  listsC : Lists attr.consumers consumers
  listsP : Lists attr.producers producers
  nConsumers : data.nConsumers.toNat = consumers.length
  nProducers : data.nProducers.toNat = producers.length
  sentinelC : data.nConsumers ≠ unsignedMax
  sentinelP : data.nProducers ≠ unsignedMax
  tableC : data.consumers = tableOf cs
  tableP : data.producers = tableOf ps
  copiedC : cs.map ChannelAttr.bare = consumers.map ChannelAttr.bare
  copiedP : ps.map ChannelAttr.bare = producers.map ChannelAttr.bare
  infos : AbsentLast (infosOf attr consumers producers) →
    List.Forall₂ (InfoCopyOf (data.memInfos.getD []).length) (infosOf attr consumers producers)
      (data.info :: (cs.map (·.info) ++ ps.map (·.info)))

section data

variable {A : Allocator} {attr : GroupAttr (List Byte)} {data data' : GroupData} {events : List Event}
  {consumers producers : List (ChannelAttr (List Byte))}

/-- As many channels in the copy. -/
theorem GroupData.CopyOf.length {cs ps : List (ChannelAttr InfoPtr)}
    (h : GroupData.CopyOf attr consumers producers data cs ps) :
    cs.length = consumers.length ∧ ps.length = producers.length := by
  have hc := congrArg List.length h.copiedC
  have hp := congrArg List.length h.copiedP
  rw [List.length_map, List.length_map] at hc hp
  exact ⟨hc, hp⟩

/-- Both counts leave room for the sentinel. -/
theorem GroupData.CopyOf.length_lt {cs ps : List (ChannelAttr InfoPtr)}
    (h : GroupData.CopyOf attr consumers producers data cs ps) :
    consumers.length < 2 ^ 32 - 1 ∧ producers.length < 2 ^ 32 - 1 := by
  have hmax {n : Unsigned} (hn : n ≠ unsignedMax) : n.toNat < 2 ^ 32 - 1 := by
    have hnext := toNat_add_one hn
    have hlt := (n + 1).isLt
    omega
  exact ⟨h.nConsumers ▸ hmax h.sentinelC, h.nProducers ▸ hmax h.sentinelP⟩

/-- The first channels of a table. -/
theorem take_elements_tableOf {attrs : List (ChannelAttr InfoPtr)} {n : Nat} (h : attrs.length = n) :
    (elements (tableOf attrs)).take n = attrs := by
  obtain ⟨tail, htail⟩ := elements_tableOf attrs
  rw [htail, ← h, List.take_left]

/-- A table that has been copied into has room for the sentinel. -/
theorem Allocator.channels_ne_max {role : Role} {n : Unsigned} {table : Option (List (ChannelAttr InfoPtr))}
    (htable : A.channels role n = some table) (hle : n.toNat ≤ (elements table).length) :
    n ≠ unsignedMax := by
  rintro rfl
  unfold Allocator.channels at htable
  rw [if_pos (by decide)] at htable
  split at htable
  · cases htable
    exact absurd hle (by decide)
  · cases htable

/-- A table that has been copied into. -/
theorem tableOf_copied {role : Role} {n : Unsigned} {table : Option (List (ChannelAttr InfoPtr))}
    {copied : List (ChannelAttr InfoPtr)} (htable : A.channels role n = some table)
    (hlen : copied.length = n.toNat) (hle : n.toNat ≤ (elements table).length) :
    (table.map fun _ => copied ++ (elements table).drop n.toNat) = tableOf copied := by
  unfold Allocator.channels at htable
  split at htable
  · rename_i hpos
    split at htable
    · cases htable
      have hle' : n.toNat ≤ (n + 1).toNat := by
        rw [← List.length_replicate (n := (n + 1).toNat) (a := (ChannelAttr.zero : ChannelAttr InfoPtr))]
        exact hle
      have hnat : n.toNat ≠ 0 := by
        intro hzero
        rw [gt_iff_lt, BitVec.lt_def, show (0 : Unsigned).toNat = 0 from rfl] at hpos
        omega
      -- The table has one entry more than channels, the sentinel; the count does not wrap as the
      -- table has room.
      have hnext : (n + 1).toNat = n.toNat + 1 := by
        refine toNat_add_one fun hmax => ?_
        rw [hmax] at hle'
        exact absurd hle' (by decide)
      have hne : copied ≠ [] := fun hnil => hnat (by rw [← hlen, hnil]; rfl)
      show some (copied ++ (List.replicate (n + 1).toNat ChannelAttr.zero).drop n.toNat) = _
      rw [tableOf, if_neg hne, List.drop_replicate, hnext, Nat.add_sub_cancel_left]
      rfl
    · cases htable
  · rename_i hpos
    cases htable
    have hzero : n.toNat = 0 := by
      rw [gt_iff_lt, BitVec.lt_def, show (0 : Unsigned).toNat = 0 from rfl] at hpos
      omega
    rw [tableOf, if_pos (List.length_eq_zero_iff.mp (hlen.trans hzero))]
    rfl

/-- A table that channels with these infos have been copied into. -/
theorem tableOf_filled {role : Role} {n : Unsigned} {table : Option (List (ChannelAttr InfoPtr))}
    {srcs : List (ChannelAttr (List Byte))} {infos : List (Info InfoPtr)}
    (htable : A.channels role n = some table) (hn : n.toNat = srcs.length)
    (hroom : srcs.length ≤ (elements table).length) (hlen : infos.length = srcs.length) :
    (table.map fun _ => copiedChannels srcs infos ++ (elements table).drop srcs.length) =
      tableOf (copiedChannels srcs infos) := by
  have hfill := tableOf_copied htable ((length_copiedChannels hlen).trans hn.symm) (hn.trans_le hroom)
  rwa [hn] at hfill

/-- A count is the machine word of the length that it counts. -/
theorem ofNat_of_toNat {n : Unsigned} {len : Nat} (h : n.toNat = len) : BitVec.ofNat 32 len = n := by
  rw [← h, BitVec.ofNat_toNat]
  rfl

/-- What `ri_group_data_from_attr` copies into the tables that it has been given. -/
theorem groupDataCopy_eq (hc : Lists attr.consumers consumers) (hp : Lists attr.producers producers)
    (hlenC : data.nConsumers.toNat = consumers.length)
    (hlenP : data.nProducers.toNat = producers.length)
    (htableC : A.channels .consumer data.nConsumers = some data.consumers)
    (htableP : A.channels .producer data.nProducers = some data.producers)
    (hroomC : consumers.length ≤ (elements data.consumers).length)
    (hroomP : producers.length ≤ (elements data.producers).length) :
    groupDataCopy data attr =
      InfoWriter.copyAll (infosOf attr consumers producers)
          { block := data.memInfos, mem := .block 0, dest := 0, events := [], strays := [] } >>= fun x =>
        .ok (GroupData.copied consumers producers (x.2.finalInfos 0 x.1) x.2.block, x.2.events) := by
  obtain ⟨tailC, htailC⟩ := hc.elements
  obtain ⟨tailP, htailP⟩ := hp.elements
  rw [groupDataCopy, infosOf, InfoWriter.copyAll]
  generalize (InfoWriter.mk data.memInfos (.block 0) 0 [] []) = w
  show w.infoCopy attr.info >>= _ = _
  rcases w.infoCopy attr.info with e | ⟨info, w₁⟩
  · rfl
  · show copyAttrs data.nConsumers.toNat (elements data.consumers) (elements attr.consumers) w₁ >>= _ =
        (w₁.copyAll _ >>= _) >>= _
    rw [hlenC, htailC, copyAttrs_eq consumers tailC hroomC, InfoWriter.copyAll_append]
    rcases hall : w₁.copyAll (consumers.map (·.info)) with e | ⟨infosC, w₂⟩
    · rw [hall]
      rfl
    · have hlength := InfoWriter.length_copyAll hall
      rw [List.length_map] at hlength
      rw [hall]
      show copyAttrs data.nProducers.toNat (elements data.producers) (elements attr.producers) w₂ >>= _ =
        ((w₂.copyAll _ >>= _) >>= _) >>= _
      rw [hlenP, htailP, copyAttrs_eq producers tailP hroomP]
      rcases hall' : w₂.copyAll (producers.map (·.info)) with e | ⟨infosP, w₃⟩
      · rw [hall']
        rfl
      · have hlength' := InfoWriter.length_copyAll hall'
        rw [List.length_map] at hlength'
        rw [hall']
        have hlenC' : (w₃.finalInfos 1 infosC).length = consumers.length :=
          (w₃.length_finalInfos _ _).trans hlength
        show Except.ok (GroupData.mk (w₃.final 0 info) data.nConsumers data.nProducers
            (data.consumers.map fun _ => w₃.finalAttrs 1 consumers.length
              (copiedChannels consumers infosC ++ _))
            (data.producers.map fun _ => w₃.finalAttrs (1 + consumers.length) producers.length
              (copiedChannels producers infosP ++ _)) w₃.block, w₃.events) =
          Except.ok (GroupData.copied consumers producers
            (w₃.finalInfos 0 (info :: (infosC ++ infosP))) w₃.block, w₃.events)
        rw [InfoWriter.finalAttrs_copied _ _ hlength, InfoWriter.finalAttrs_copied _ _ hlength',
          tableOf_filled htableC hlenC hroomC hlenC',
          tableOf_filled htableP hlenP hroomP ((w₃.length_finalInfos _ _).trans hlength'),
          GroupData.copied, InfoWriter.finalInfos, List.tail_cons, InfoWriter.finalInfos_append,
          Nat.zero_add, copiedChannels_append hlenC', List.drop_left' hlenC', hlength,
          ofNat_of_toNat hlenC, ofNat_of_toNat hlenP]
        rfl

/-- What has been copied is a group data of the attribute. -/
theorem groupDataCopy_ok (hc : Lists attr.consumers consumers) (hp : Lists attr.producers producers)
    (hlenC : data.nConsumers.toNat = consumers.length)
    (hlenP : data.nProducers.toNat = producers.length)
    (htableC : A.channels .consumer data.nConsumers = some data.consumers)
    (htableP : A.channels .producer data.nProducers = some data.producers)
    (h : groupDataCopy data attr = .ok (data', events)) :
    ∃ cs ps, GroupData.CopyOf attr consumers producers data' cs ps := by
  -- The copy has written into both tables, so they have room.
  obtain ⟨hroomC, hroomP⟩ : data.nConsumers.toNat ≤ (elements data.consumers).length ∧
      data.nProducers.toNat ≤ (elements data.producers).length := by
    obtain ⟨⟨info, w₁⟩, -, h⟩ := checkedBind_ok.mp h
    obtain ⟨⟨cs, w₂⟩, hcs, h⟩ := checkedBind_ok.mp h
    obtain ⟨⟨ps, w₃⟩, hps, -⟩ := checkedBind_ok.mp h
    exact ⟨copyAttrs_fits hcs, copyAttrs_fits hps⟩
  have hmaxC := Allocator.channels_ne_max htableC hroomC
  have hmaxP := Allocator.channels_ne_max htableP hroomP
  rw [groupDataCopy_eq hc hp hlenC hlenP htableC htableP (hlenC ▸ hroomC) (hlenP ▸ hroomP)] at h
  obtain ⟨⟨infos, w⟩, hall, h⟩ := checkedBind_ok.mp h
  cases h
  -- The infos read back afterwards are one for the group and one for each channel.
  have hlength := InfoWriter.length_copyAll hall
  set final := w.finalInfos 0 infos with hfinal
  have hfinalLength : final.length = 1 + (consumers.length + producers.length) := by
    rw [hfinal, InfoWriter.length_finalInfos, hlength, infosOf, List.length_cons, List.length_append,
      List.length_map, List.length_map, Nat.add_comm]
  obtain ⟨info, rest, hrest⟩ := List.exists_cons_of_length_pos (show 0 < final.length by omega)
  rw [hrest] at hfinal hfinalLength ⊢
  rw [List.length_cons] at hfinalLength
  have hlenC' : (rest.take consumers.length).length = consumers.length := by
    rw [List.length_take]
    omega
  have hlenP' : (rest.drop consumers.length).length = producers.length := by
    rw [List.length_drop]
    omega
  have hcs : copiedChannels consumers rest = copiedChannels consumers (rest.take consumers.length) :=
    copiedChannels_take.symm
  have hnC := ofNat_of_toNat hlenC
  have hnP := ofNat_of_toNat hlenP
  refine ⟨copiedChannels consumers rest, copiedChannels producers (rest.drop consumers.length),
    hc, hp, (congrArg BitVec.toNat hnC).trans hlenC, (congrArg BitVec.toNat hnP).trans hlenP,
    hnC.trans_ne hmaxC, hnP.trans_ne hmaxP, rfl, rfl, ?_, bare_copied hlenP', fun hlast => ?_⟩
  · rw [hcs]
    exact bare_copied hlenC'
  · -- as long as nothing was stored outside of the block they are those that were copied
    obtain ⟨hcopies, hlen, hstrays⟩ := InfoWriter.copyAll_block rfl hlast hall
    rw [InfoWriter.finalInfos_of_strays hstrays] at hfinal
    rw [hcs, infos_copied hlenC', infos_copied hlenP', List.take_append_drop]
    show List.Forall₂ (InfoCopyOf w.len) _ (info :: rest)
    rw [hlen, hfinal]
    exact hcopies

/-- `ri_group_data_new` fails for want of memory only. -/
theorem groupDataNew_r (A : Allocator) (nConsumers nProducers : Unsigned) :
    (groupDataNew A nConsumers nProducers).1 = -ENOMEM ∨
      ∃ consumers producers, A.channels .consumer nConsumers = some consumers ∧
        A.channels .producer nProducers = some producers ∧
        (groupDataNew A nConsumers nProducers).2.1 = { GroupData.zero with
          nConsumers := nConsumers
          nProducers := nProducers
          consumers := consumers
          producers := producers } := by
  unfold groupDataNew
  split
  · exact Or.inl rfl
  · rename_i consumers hconsumers
    split
    · exact Or.inl rfl
    · rename_i producers hproducers
      exact Or.inr ⟨consumers, producers, hconsumers, hproducers, rfl⟩

/-- A group data that is returned is one of the attribute. -/
theorem groupDataFromAttr_some (h : groupDataFromAttr A attr = .ok (0, data, events)) :
    ∃ consumers producers cs ps, GroupData.CopyOf attr consumers producers data cs ps := by
  obtain ⟨nConsumers, hc, h⟩ := checkedBind_ok.mp h
  obtain ⟨nProducers, hp, h⟩ := checkedBind_ok.mp h
  obtain ⟨consumers, hlistsC, hlenC⟩ := countChannels_ok hc
  obtain ⟨producers, hlistsP, hlenP⟩ := countChannels_ok hp
  dsimp only at h
  split at h
  · cases h
  · rename_i hr
    rcases groupDataNew_r A nConsumers nProducers with
      hfail | ⟨tableC, tableP, htableC, htableP, hdata⟩
    · rw [hfail] at hr
      exact absurd (show -ENOMEM < (0 : Int) by decide) hr
    · rw [hdata] at h
      obtain ⟨infoSize, -, h⟩ := checkedBind_ok.mp h
      split at h
      · split at h
        · cases h
        · obtain ⟨⟨copied, copies⟩, hcopy, h⟩ := checkedBind_ok.mp h
          cases h
          exact ⟨consumers, producers,
            groupDataCopy_ok hlistsC hlistsP hlenC.symm hlenP.symm htableC htableP hcopy⟩
      · obtain ⟨⟨copied, copies⟩, hcopy, h⟩ := checkedBind_ok.mp h
        cases h
        exact ⟨consumers, producers,
          groupDataCopy_ok hlistsC hlistsP hlenC.symm hlenP.symm htableC htableP hcopy⟩

end data

/-! ## The attribute for code that follows the pointers

  The serialisation reads the infos of a group through the pointers.  Here is what it finds there. -/

section view

variable {attr : GroupAttr (List Byte)} {consumers producers : List (ChannelAttr (List Byte))}
  {data : GroupData} {cs ps : List (ChannelAttr InfoPtr)} {block : List Byte}

/-- The info of a copy can be written, if 32 bits are enough for its size. -/
theorem InfoCopyOf.resolve_valid {src : Info (List Byte)} {dest : Info InfoPtr}
    (h : InfoCopyOf block.length src dest) (hsmall : src.size.toNat < 2 ^ 32) :
    (dest.resolve block).Valid := by
  have hdest : dest.size.toNat < 2 ^ 32 := by
    rcases h.size with heq | hzero
    · rw [heq]
      exact hsmall
    · rw [hzero]
      decide
  unfold Info.Valid Info.resolve
  dsimp only
  cases hdata : dest.data with
  | none => exact h.empty hdata
  | some p =>
    obtain ⟨offset, rfl, hinside⟩ := h.inside p hdata
    refine ⟨?_, hdest⟩
    show dest.size.toNat ≤ (block.drop offset.toNat).length
    rw [List.length_drop]
    omega

/-- The listed channels are no sentinels. -/
theorem Lists.used {π : Type} {array : Option (List (ChannelAttr π))} {attrs : List (ChannelAttr π)}
    (h : Lists array attrs) : ∀ attr ∈ attrs, attr.msgSize ≠ 0 := by
  cases h with
  | null => exact fun attr hattr => nomatch hattr
  | array tail used sentinel => exact used

/-- All infos of a copy can be written, if they are in order and 32 bits are enough for their sizes. -/
theorem GroupData.CopyOf.infos_valid (h : GroupData.CopyOf attr consumers producers data cs ps)
    (hlast : AbsentLast (infosOf attr consumers producers))
    (hsmall : ∀ src ∈ infosOf attr consumers producers, src.size.toNat < 2 ^ 32) :
    ∀ info ∈ data.info :: (cs.map (·.info) ++ ps.map (·.info)),
      (info.resolve (data.memInfos.getD [])).Valid := by
  have hcopies := h.infos hlast
  generalize data.info :: (cs.map (·.info) ++ ps.map (·.info)) = infos at hcopies ⊢
  generalize infosOf attr consumers producers = srcs at hcopies hsmall
  induction hcopies with
  | nil => exact List.forall_mem_nil _
  | cons hcopy hcopies ih =>
    rw [List.forall_mem_cons] at hsmall ⊢
    exact ⟨hcopy.resolve_valid hsmall.1, ih hsmall.2⟩

/-- All channels are found again. -/
theorem GroupData.CopyOf.view_lists (h : GroupData.CopyOf attr consumers producers data cs ps) :
    Lists data.view.consumers (cs.map (ChannelAttr.resolve (data.memInfos.getD []))) ∧
      Lists data.view.producers (ps.map (ChannelAttr.resolve (data.memInfos.getD []))) := by
  rw [GroupData.view, h.tableC, h.tableP]
  exact ⟨lists_resolve _ (forall_of_bare (P := fun a => a.msgSize ≠ 0) h.copiedC h.listsC.used),
    lists_resolve _ (forall_of_bare (P := fun a => a.msgSize ≠ 0) h.copiedP h.listsP.used)⟩

end view

end Rtipc
