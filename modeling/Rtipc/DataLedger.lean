/-
  What a group data holds.

  `GroupData.owned` are the blocks of a group data.  The functions of `src/attr.c` and of
  `src/request.c` that make one acquire what it owns, also if they fail, with one exception: without
  memory for the producers `ri_group_data_new` releases the consumers and keeps the pointer to them.
-/
import Rtipc.RequestFormat

namespace Rtipc

/-- The blocks that hold the attribute of a group. -/
def GroupData.owned (data : GroupData) : Multiset Resource :=
  ownedPtr .infos data.memInfos + ownedPtr (.table .consumer) data.consumers +
    ownedPtr (.table .producer) data.producers

/-- `ri_group_data_delete` frees them all. -/
theorem GroupData.delete_settles (data : GroupData) : Settles (groupDataDelete data).2 data.owned 0 := by
  have hinfos := settles_freed .infos data.memInfos
  have hconsumers := settles_freed (.table .consumer) data.consumers
  have hproducers := settles_freed (.table .producer) data.producers
  exact ((hinfos.append_add hconsumers).append_add hproducers)

/-- What a pointer owns does not depend on what it points to. -/
@[simp] theorem ownedPtr_map {α β : Type} (b : Block) (f : α → β) (ptr : Option α) :
    ownedPtr b (ptr.map f) = ownedPtr b ptr := by
  cases ptr <;> rfl

/-- It depends on whether it is NULL. -/
theorem ownedPtr_of_isSome {α β : Type} (b : Block) {ptr : Option α} {ptr' : Option β}
    (h : ptr.isSome = ptr'.isSome) : ownedPtr b ptr = ownedPtr b ptr' := by
  cases ptr <;> cases ptr' <;> first | rfl | cases h

/-! ## Allocation

  The tables and the block for the infos, and what is given back if one of them cannot be had. -/

section new

variable {A : Allocator} {nConsumers nProducers : Unsigned}

/-- There is memory for the consumers, and none for the producers. -/
structure Allocator.LosesTable (A : Allocator) (nConsumers nProducers : Unsigned) : Prop where
  consumers : nConsumers > 0
  producers : nProducers > 0
  granted : A.calloc .consumer (nConsumers + 1) = true
  refused : A.calloc .producer (nProducers + 1) = false

/-- What `ri_group_data_new` acquires, if the table of the consumers is not lost. -/
theorem groupDataNew_settles (h : ¬ A.LosesTable nConsumers nProducers) :
    Settles (groupDataNew A nConsumers nProducers).2.2 0
      (groupDataNew A nConsumers nProducers).2.1.owned := by
  have htable (role : Role) {α : Type} (ptr : Option α) := settles_acquired (.table role) ptr
  unfold groupDataNew
  split
  · exact Settles.nil
  · rename_i consumers hconsumers
    split
    · rename_i hproducers
      -- without consumers there is nothing to lose
      have hnone : consumers = none := by
        unfold Allocator.channels at hconsumers hproducers
        split at hproducers
        · rename_i hp
          split at hproducers
          · cases hproducers
          · rename_i hrefused
            split at hconsumers
            · rename_i hc
              split at hconsumers
              · rename_i hgranted
                exact absurd ⟨hc, hp, hgranted, Bool.not_eq_true _ ▸ hrefused⟩ h
              · cases hconsumers
            · exact (Option.some.inj hconsumers).symm
        · cases hproducers
      subst hnone
      exact Settles.nil
    · rename_i producers hproducers
      refine ((htable .consumer consumers).append_add (htable .producer producers)).of_eq rfl ?_
      show _ = ownedPtr Block.infos (none : Option (List Byte)) + ownedPtr _ consumers +
        ownedPtr _ producers
      rw [ownedPtr, Multiset.zero_add]

/-- The table of the consumers is released, and the pointer to it stays. -/
theorem Allocator.LosesTable.groupDataNew (h : A.LosesTable nConsumers nProducers) :
    (groupDataNew A nConsumers nProducers).1 = -ENOMEM ∧
      Settles (groupDataNew A nConsumers nProducers).2.2 0 0 ∧
      (groupDataNew A nConsumers nProducers).2.1.owned = {.block (.table .consumer)} := by
  have hc : A.channels .consumer nConsumers =
      some (some (List.replicate (nConsumers + 1).toNat ChannelAttr.zero)) := by
    rw [Allocator.channels, if_pos h.consumers, if_pos h.granted]
  have hp : A.channels .producer nProducers = none := by
    rw [Allocator.channels, if_pos h.producers, if_neg (by rw [h.refused]; decide)]
  have hnew : Rtipc.groupDataNew A nConsumers nProducers = (-ENOMEM,
      { GroupData.zero with
        nConsumers := nConsumers
        nProducers := nProducers
        consumers := some (List.replicate (nConsumers + 1).toNat ChannelAttr.zero) },
      [.acquire (.block (.table .consumer)), .release (.block (.table .consumer))]) := by
    rw [Rtipc.groupDataNew, hc]
    simp only [hp]
    rfl
  rw [hnew]
  refine ⟨rfl, (Settles.acquire _).append (Settles.release _), ?_⟩
  show 0 + _ + 0 = _
  rw [Multiset.zero_add, Multiset.add_zero]
  rfl

/-- `ri_group_data_new` leaves the infos to the caller. -/
theorem groupDataNew_memInfos (A : Allocator) (nConsumers nProducers : Unsigned) :
    (groupDataNew A nConsumers nProducers).2.1.memInfos = none := by
  unfold groupDataNew
  split
  · rfl
  · split <;> rfl

/-- The block of the infos in addition. -/
theorem GroupData.owned_memInfos {data : GroupData} (h : data.memInfos = none) (block : List Byte) :
    { data with memInfos := some block }.owned = data.owned + {.block .infos} := by
  rw [owned, owned, h, ownedPtr, ownedPtr, Multiset.zero_add, Multiset.add_comm _ {_},
    Multiset.add_assoc]

end new

/-! ## From attributes -/

section copy

variable {A : Allocator} {attr : GroupAttr (List Byte)} {data data' : GroupData} {events : List Event}

/-- The writer still has the block it was given, if any, and has acquired nothing. -/
def InfoWriter.Holds (held : Bool) (pre : Multiset Resource) (w : InfoWriter) : Prop :=
  w.block.isSome = held ∧ Settles w.events pre pre

/-- Copying an info acquires nothing, wherever it goes to. -/
theorem InfoWriter.Holds.infoCopy {held : Bool} {pre : Multiset Resource} {w w' : InfoWriter}
    {src : Info (List Byte)} {dest : Info InfoPtr} (h : w.infoCopy src = .ok (dest, w'))
    (hw : w.Holds held pre) : w'.Holds held pre := by
  obtain ⟨hblock, hevents⟩ := hw
  rcases infoCopy_cases h with ⟨-, -, rfl⟩ | ⟨-, data, bytes, p, v, -, -, hcopy, -, rfl⟩
  -- case: there is nothing to copy
  · exact ⟨hblock, hevents⟩
  · rcases memcpy_cases hcopy with ⟨mem, block, -, hsome, -, -, rfl⟩ | ⟨n, offset, info, -, -, -, rfl⟩
    -- case: into the block, which stays
    · refine ⟨?_, hevents.append (settles_copies [_])⟩
      rw [← hblock, hsome]
      rfl
    -- case: over a `ri_info_t`
    · exact ⟨hblock, hevents.append Settles.nil⟩

/-- Copying acquires nothing. -/
theorem groupDataCopy_settles (h : groupDataCopy data attr = .ok (data', events))
    (pre : Multiset Resource) : Settles events pre pre ∧ data'.owned = data.owned := by
  obtain ⟨⟨info, w₁⟩, h₁, h⟩ := checkedBind_ok.mp h
  obtain ⟨⟨consumers, w₂⟩, h₂, h⟩ := checkedBind_ok.mp h
  obtain ⟨⟨producers, w₃⟩, h₃, h⟩ := checkedBind_ok.mp h
  cases h
  have hinfo : w₁.Holds data.memInfos.isSome pre := InfoWriter.Holds.infoCopy h₁ ⟨rfl, Settles.nil⟩
  have hconsumers := copyAttrs_keeps InfoWriter.Holds.infoCopy h₂ hinfo
  obtain ⟨hblock, hevents⟩ := copyAttrs_keeps InfoWriter.Holds.infoCopy h₃ hconsumers
  refine ⟨hevents, ?_⟩
  rw [GroupData.owned, GroupData.owned, ownedPtr_map, ownedPtr_map, ownedPtr_of_isSome _ hblock]

/-- What `ri_group_data_from_attr` acquires, whether it succeeds or not. -/
theorem groupDataFromAttr_settles {r : Int} (h : groupDataFromAttr A attr = .ok (r, data, events)) :
    ∃ nConsumers nProducers, countChannels attr.consumers = .ok nConsumers ∧
      countChannels attr.producers = .ok nProducers ∧
      (¬ A.LosesTable nConsumers nProducers → Settles events 0 data.owned) ∧
      (A.LosesTable nConsumers nProducers → r < 0 ∧ Settles events 0 0 ∧
        data.owned = {.block (.table .consumer)}) := by
  obtain ⟨nConsumers, hc, h⟩ := checkedBind_ok.mp h
  obtain ⟨nProducers, hp, h⟩ := checkedBind_ok.mp h
  refine ⟨nConsumers, nProducers, hc, hp, ?_⟩
  -- If the second table cannot be had the first one is left behind.
  by_cases hloses : A.LosesTable nConsumers nProducers
  · obtain ⟨hr, hevents, howned⟩ := hloses.groupDataNew
    refine ⟨fun hkeeps => absurd hloses hkeeps, fun _ => ?_⟩
    rcases hnew : Rtipc.groupDataNew A nConsumers nProducers with ⟨r', data', events'⟩
    rw [hnew] at hr hevents howned h
    simp only [] at hr hevents howned h
    rw [hr, if_pos (by decide)] at h
    cases h
    exact ⟨by decide, hevents, howned⟩
  · refine ⟨fun _ => ?_, fun hloses' => absurd hloses' hloses⟩
    have hsettles := groupDataNew_settles hloses
    have hmem := groupDataNew_memInfos A nConsumers nProducers
    rcases hnew : Rtipc.groupDataNew A nConsumers nProducers with ⟨r', data', events'⟩
    rw [hnew] at hsettles hmem h
    simp only [] at hsettles hmem h
    split at h
    · cases h
      exact hsettles
    · obtain ⟨infoSize, -, h⟩ := checkedBind_ok.mp h
      split at h
      · -- no memory for the infos: everything is freed
        split at h
        · cases h
          exact hsettles.append data'.delete_settles
        · rename_i block hblock
          obtain ⟨⟨copied, copies⟩, hcopy, h⟩ := checkedBind_ok.mp h
          cases h
          obtain ⟨hcopies, howned⟩ := groupDataCopy_settles hcopy (data'.owned + {.block .infos})
          rw [howned, GroupData.owned_memInfos hmem]
          exact (hsettles.append (Settles.acquire _)).append hcopies
      · obtain ⟨⟨copied, copies⟩, hcopy, h⟩ := checkedBind_ok.mp h
        cases h
        obtain ⟨hcopies, howned⟩ := groupDataCopy_settles hcopy data'.owned
        rw [howned]
        exact hsettles.append hcopies

end copy

/-! ## From a request -/

section parse

variable {A : Allocator} {data : GroupData} {reader : RequestReader} {parsed : Parsed}

/-- Placing the infos acquires nothing. -/
theorem readInfos_settles {block : List Byte} (h : readInfos reader block data = .ok parsed)
    (pre : Multiset Resource) : Settles parsed.events pre pre ∧
      parsed.data.owned = { data with memInfos := some block }.owned := by
  -- Which infos are in the tables does not matter for what is owned.
  have howned (info : Info InfoPtr) (f g : List (ChannelAttr InfoPtr) → List (ChannelAttr InfoPtr))
      (b : List Byte) : GroupData.owned { data with
        info := info
        consumers := data.consumers.map f
        producers := data.producers.map g
        memInfos := some b } = { data with memInfos := some block }.owned := by
    rw [GroupData.owned, GroupData.owned, ownedPtr_map, ownedPtr_map]
    rfl
  have hid {α : Type} (ptr : Option α) : ptr.map id = ptr := by cases ptr <;> rfl
  obtain ⟨⟨r₁, info, s₁⟩, h₁, h⟩ := checkedBind_ok.mp h
  simp only [] at h
  split at h
  · cases h
    refine ⟨settles_copies _, ?_⟩
    have := howned info id id s₁.block
    rwa [hid, hid] at this
  · obtain ⟨⟨r₂, consumers, s₂⟩, h₂, h⟩ := checkedBind_ok.mp h
    simp only [] at h
    split at h
    · cases h
      refine ⟨settles_copies _, ?_⟩
      have := howned info (fun _ => consumers) id s₂.block
      rwa [hid] at this
    · obtain ⟨⟨r₃, producers, s₃⟩, h₃, h⟩ := checkedBind_ok.mp h
      simp only [] at h
      split at h
      all_goals
        cases h
        exact ⟨settles_copies _, howned info (fun _ => consumers) (fun _ => producers) s₃.block⟩

variable {groupInfoSize nConsumers nProducers : Unsigned}

/-- What the parser acquires behind the two counts, whether it succeeds or not. -/
theorem requestParseGroup_settles
    (h : requestParseGroup A reader groupInfoSize nConsumers nProducers = .ok parsed) :
    (¬ A.LosesTable nConsumers nProducers → Settles parsed.events 0 parsed.data.owned) ∧
      (A.LosesTable nConsumers nProducers → parsed.r < 0 ∧ Settles parsed.events 0 0 ∧
        parsed.data.owned = {.block (.table .consumer)}) := by
  unfold requestParseGroup at h
  by_cases hloses : A.LosesTable nConsumers nProducers
  · obtain ⟨hr, hevents, howned⟩ := hloses.groupDataNew
    refine ⟨fun hkeeps => absurd hloses hkeeps, fun _ => ?_⟩
    rcases hnew : groupDataNew A nConsumers nProducers with ⟨r', data', events'⟩
    rw [hnew] at hr hevents howned h
    simp only [] at hr hevents howned h
    rw [hr, if_pos (by decide)] at h
    cases h
    exact ⟨by show (-ENOMEM : Int) < 0; decide, hevents, howned⟩
  · refine ⟨fun _ => ?_, fun hloses' => absurd hloses' hloses⟩
    have hsettles := groupDataNew_settles hloses
    have hmem := groupDataNew_memInfos A nConsumers nProducers
    rcases hnew : groupDataNew A nConsumers nProducers with ⟨r', data', events'⟩
    rw [hnew] at hsettles hmem h
    simp only [] at hsettles hmem h
    -- the tables are overwritten, the pointers stay
    have howned (info : Info InfoPtr) (f g : List (ChannelAttr InfoPtr) → List (ChannelAttr InfoPtr)) :
        GroupData.owned { data' with
          info := info
          consumers := data'.consumers.map f
          producers := data'.producers.map g } = data'.owned := by
      rw [GroupData.owned, GroupData.owned, ownedPtr_map, ownedPtr_map]
    have hid {α : Type} (ptr : Option α) : ptr.map id = ptr := by cases ptr <;> rfl
    split at h
    · cases h
      exact hsettles
    · obtain ⟨⟨r₁, consumers, reader₁⟩, -, h⟩ := checkedBind_ok.mp h
      simp only [] at h
      split at h
      · cases h
        have hdata := howned { data'.info with size := groupInfoSize.setWidth 64 }
          (fun _ => consumers) id
        rw [hid] at hdata
        exact (hsettles.of_eq rfl hdata.symm).append (GroupData.delete_settles _)
      · obtain ⟨⟨r₂, producers, reader₂⟩, -, h⟩ := checkedBind_ok.mp h
        simp only [] at h
        have hdata := howned { data'.info with size := groupInfoSize.setWidth 64 }
          (fun _ => consumers) (fun _ => producers)
        split at h
        · cases h
          exact (hsettles.of_eq rfl hdata.symm).append (GroupData.delete_settles _)
        · obtain ⟨infoSize, -, h⟩ := checkedBind_ok.mp h
          split at h
          · cases h
            exact (hsettles.of_eq rfl hdata.symm).append (GroupData.delete_settles _)
          · rename_i block hblock
            obtain ⟨placed, hplaced, h⟩ := checkedBind_ok.mp h
            obtain ⟨hcopies, hplacedOwned⟩ :=
              readInfos_settles hplaced (data'.owned + {.block .infos})
            rw [GroupData.owned_memInfos (by exact hmem), hdata] at hplacedOwned
            have hall := (hsettles.append (Settles.acquire (.block .infos))).append hcopies
            rw [← hplacedOwned] at hall
            split at h
            · cases h
              exact hall.append (GroupData.delete_settles _)
            · cases h
              exact hall

/-- What the parser acquires. -/
theorem requestParse_settles {cls : Size} {req : List Byte} {size : Size} {bs : Wire}
    (hgiven : Given req size bs) (h : requestParse cls A req size = .ok parsed) :
    (¬ (bs.Headed cls ∧ A.LosesTable bs.nConsumers bs.nProducers) →
        Settles parsed.events 0 parsed.data.owned) ∧
      (bs.Headed cls ∧ A.LosesTable bs.nConsumers bs.nProducers →
        parsed.r < 0 ∧ Settles parsed.events 0 0 ∧
          parsed.data.owned = {.block (.table .consumer)}) := by
  by_cases hbs : bs.Headed cls
  · obtain ⟨reader, -, hparse⟩ := requestParse_headed (A := A) hgiven hbs
    rw [hparse] at h
    obtain ⟨hkeeps, hloses⟩ := requestParseGroup_settles h
    exact ⟨fun hnot => hkeeps fun hl => hnot ⟨hbs, hl⟩, fun hl => hloses hl.2⟩
  · obtain ⟨r, hr, hparse⟩ := requestParse_not_headed (A := A) hgiven hbs
    rw [hparse] at h
    cases h
    exact ⟨fun _ => Settles.nil, fun hl => absurd hl.1 hbs⟩

end parse

end Rtipc
