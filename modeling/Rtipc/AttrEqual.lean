/-
  Does `ri_group_attr_equal` decide equality?

  Each loop compares two arrays up to their sentinels, and what it returns is whether the channels in
  front of them are described alike (`channelsEqualFrom_eq`); the index is an `unsigned`, so it never
  returns if more channels are equal than that can count.  But an array is read before it is known to
  be there: an empty list that is the null pointer is not an empty list for it.

  1. **The code.**  `ri_group_attr_equal` compares the infos, then the consumers, then the producers.
     Each list is compared element by element until one of the two sentinels is found; what is compared
     are the sizes, the number of additional messages, whether there is an eventfd, and the info.

  2. **The statement.**  `equal_decides_iff`: for any two groups whose lists end in a sentinel or are
     the null pointer, the call returns, and returns whether the groups say the same, if and only if no
     list that is null is reached and no list is so long that the 32-bit index comes round.

  3. **The crux.**  Two sentinels are described alike, whatever else is in them, and a channel is never
     described like a sentinel (`described_ne`).  So the loop may stop at the first sentinel, and what
     lies behind it does not matter (`ListGiven.cut`, `GroupGiven.cut`).
-/
import Rtipc.RequestWalks

namespace Rtipc

/-! ## Infos and channels -/

section equal

variable {i0 i1 : Info (List Byte)} {c0 c1 : ChannelAttr (List Byte)}

/-- `ri_info_equal` decides whether two infos have the same bytes. -/
theorem infoEqual_eq (h0 : i0.Backed) (h1 : i1.Backed) :
    infoEqual i0 i1 = .ok (decide (i0.size = i1.size ∧ i0.bytes = i1.bytes)) := by
  have hlen0 := h0.length
  have hlen1 := h1.length
  rw [infoEqual]
  by_cases hsize : i0.size = i1.size
  · rw [if_neg (not_not.mpr hsize)]
    by_cases hzero : i0.size = 0
    · have hbytes : i0.bytes = i1.bytes := by
        rw [← hsize, hzero] at hlen1
        rw [hzero] at hlen0
        rw [List.length_eq_zero_iff.mp hlen0, List.length_eq_zero_iff.mp hlen1]
      rw [if_pos hzero, decide_eq_true ⟨hsize, hbytes⟩]
      rfl
    · obtain ⟨data0, hdata0, hle0, -⟩ := h0.resolve_left hzero
      obtain ⟨data1, hdata1, hle1, -⟩ := h1.resolve_left (hsize ▸ hzero)
      rw [if_neg hzero, hdata0, hdata1]
      show (loadBytes .infos data0 0 i0.size >>= fun bytes0 =>
        loadBytes .infos data1 0 i0.size >>= fun bytes1 =>
          Except.ok (decide (bytes0 = bytes1))) = _
      rw [loadBytes_zero _ hle0, loadBytes_zero _ (hsize ▸ hle1)]
      show Except.ok (decide (data0.take i0.size.toNat = data1.take i0.size.toNat)) = _
      have hiff : data0.take i0.size.toNat = data1.take i0.size.toNat ↔
          i0.size = i1.size ∧ i0.bytes = i1.bytes := by
        rw [Info.bytes, Info.bytes, hdata0, hdata1, ← hsize]
        exact (and_iff_right rfl).symm
      exact congrArg Except.ok (decide_eq_decide.mpr hiff)
  · rw [if_pos hsize, decide_eq_false fun heq => hsize heq.1]
    rfl

/-- What is said about a channel. -/
def ChannelAttr.described (attr : ChannelAttr (List Byte)) : ChannelDesc := attr.desc attr.info.bytes

/-- `ri_channel_attr_equal` decides whether two channels say the same. -/
theorem channelAttrEqual_eq (h0 : c0.info.Backed) (h1 : c1.info.Backed) :
    channelAttrEqual c0 c1 = .ok (decide (c0.described = c1.described)) := by
  have hiff : c0.described = c1.described ↔ (c0.info.size = c1.info.size ∧ c0.info.bytes = c1.info.bytes) ∧
      (c0.msgSize = c1.msgSize ∧ c0.addMsgs = c1.addMsgs) ∧ c0.eventfd = c1.eventfd := by
    rw [ChannelAttr.described, ChannelAttr.described, ChannelAttr.desc, ChannelAttr.desc,
      ChannelDesc.mk.injEq]
    tauto
  rw [channelAttrEqual, infoEqual_eq h0 h1]
  by_cases hinfo : c0.info.size = c1.info.size ∧ c0.info.bytes = c1.info.bytes
  · rw [decide_eq_true hinfo]
    show Except.ok (_ && _ && _) = _
    rw [← Bool.decide_and, ← Bool.decide_and]
    exact congrArg Except.ok (decide_eq_decide.mpr (hiff.trans (and_iff_right hinfo)).symm)
  · rw [decide_eq_false hinfo, decide_eq_false fun heq => hinfo (hiff.mp heq).1]
    rfl

end equal

/-! ## A loop

  The loop ends at the first of the two sentinels, or at the first difference. -/

/-- All the channels that an index counts are there and equal. -/
def NeverStops (i : Nat) (ds0 ds1 : List ChannelDesc) : Prop :=
  2 ^ 32 - i ≤ ds0.length ∧ ds0.take (2 ^ 32 - i) = ds1.take (2 ^ 32 - i)

section loop

variable {attrs0 attrs1 : List (ChannelAttr (List Byte))} {stop0 stop1 : ChannelAttr (List Byte)}

/-- Channels with different message sizes say different things; so a sentinel is told from a channel. -/
theorem described_ne {c0 c1 : ChannelAttr (List Byte)} (h : c0.msgSize ≠ c1.msgSize) :
    ¬ c0.described = c1.described :=
  fun heq => h (congrArg ChannelDesc.msgSize heq)

/-- Two arrays are compared up to the sentinels, wherever these are. -/
theorem channelsEqualFrom_eq (tail0 tail1 : List (ChannelAttr (List Byte)))
    (hused0 : ∀ a ∈ attrs0, a.msgSize ≠ 0) (hused1 : ∀ a ∈ attrs1, a.msgSize ≠ 0)
    (hstop0 : stop0.msgSize = 0) (hstop1 : stop1.msgSize = 0)
    (hinfos0 : ∀ a ∈ attrs0 ++ [stop0], a.info.Backed) (hinfos1 : ∀ a ∈ attrs1 ++ [stop1], a.info.Backed)
    {i : Nat} (hi : i < 2 ^ 32) :
    (NeverStops i (attrs0.map ChannelAttr.described) (attrs1.map ChannelAttr.described) →
      channelsEqualFrom (BitVec.ofNat 32 i) (attrs0 ++ stop0 :: tail0) (attrs1 ++ stop1 :: tail1) =
        .error .noReturn) ∧
    (¬ NeverStops i (attrs0.map ChannelAttr.described) (attrs1.map ChannelAttr.described) →
      channelsEqualFrom (BitVec.ofNat 32 i) (attrs0 ++ stop0 :: tail0) (attrs1 ++ stop1 :: tail1) =
        .ok (decide (attrs0.map ChannelAttr.described = attrs1.map ChannelAttr.described))) := by
  obtain ⟨k, hk⟩ : ∃ k, 2 ^ 32 - i = k + 1 := ⟨2 ^ 32 - i - 1, by omega⟩
  -- both arrays are walked together; after `k + 1` rounds the index is 0 again
  induction attrs0 generalizing attrs1 i k with
  | nil =>
    have hstops : ¬ NeverStops i [] (attrs1.map ChannelAttr.described) := by
      rintro ⟨hlen, -⟩
      rw [List.length_nil] at hlen
      omega
    refine ⟨fun hnever => absurd hnever hstops, fun _ => ?_⟩
    cases attrs1 with
    | nil =>
      rw [List.nil_append, List.nil_append, channelsEqualFrom, if_pos ⟨hstop0, hstop1⟩]
      rfl
    | cons c1 attrs1 =>
      rw [List.forall_mem_cons] at hused1
      rw [List.cons_append, List.forall_mem_cons] at hinfos1
      rw [List.nil_append, List.cons_append, channelsEqualFrom, if_neg fun hboth => hused1.1 hboth.2,
        channelAttrEqual_eq (hinfos0 stop0 List.mem_cons_self) hinfos1.1,
        decide_eq_false (described_ne fun heq => hused1.1 (heq ▸ hstop0))]
      rfl
  | cons c0 attrs0 ih =>
    rw [List.forall_mem_cons] at hused0
    rw [List.cons_append, List.forall_mem_cons] at hinfos0
    cases attrs1 with
    | nil =>
      have hstops : ¬ NeverStops i ((c0 :: attrs0).map ChannelAttr.described) [] := by
        rintro ⟨-, htake⟩
        rw [hk, List.map_cons, List.take_succ_cons, List.take_nil] at htake
        cases htake
      refine ⟨fun hnever => absurd hnever hstops, fun _ => ?_⟩
      rw [List.nil_append, List.cons_append, channelsEqualFrom, if_neg fun hboth => hused0.1 hboth.1,
        channelAttrEqual_eq hinfos0.1 (hinfos1 stop1 List.mem_cons_self),
        decide_eq_false (described_ne fun heq => hused0.1 (heq.trans hstop1))]
      rfl
    | cons c1 attrs1 =>
      rw [List.forall_mem_cons] at hused1
      rw [List.cons_append, List.forall_mem_cons] at hinfos1
      rw [List.cons_append, List.cons_append, channelsEqualFrom, if_neg fun hboth => hused0.1 hboth.1,
        channelAttrEqual_eq hinfos0.1 hinfos1.1]
      have hnever : NeverStops i ((c0 :: attrs0).map ChannelAttr.described)
          ((c1 :: attrs1).map ChannelAttr.described) ↔ k ≤ attrs0.length ∧
            c0.described = c1.described ∧ (attrs0.map ChannelAttr.described).take k =
              (attrs1.map ChannelAttr.described).take k := by
        rw [NeverStops, hk, List.map_cons, List.map_cons, List.take_succ_cons, List.take_succ_cons,
          List.cons.injEq, List.length_cons, List.length_map, Nat.succ_le_succ_iff]
      rw [hnever]
      by_cases hfirst : c0.described = c1.described
      · rw [decide_eq_true hfirst]
        show (_ → (if BitVec.ofNat 32 i + 1 = 0 then Except.error Fault.noReturn else _) = _) ∧
          (_ → (if BitVec.ofNat 32 i + 1 = 0 then Except.error Fault.noReturn else _) = _)
        have hnext : BitVec.ofNat 32 i + 1 = BitVec.ofNat 32 (i + 1) := (BitVec.ofNat_add _ _).symm
        have hwrap : BitVec.ofNat 32 i + 1 = 0 ↔ k = 0 := by
          rw [hnext, ← BitVec.toNat_inj, BitVec.toNat_ofNat, show (0 : Unsigned).toNat = 0 from rfl]
          omega
        -- the index has run through all values
        by_cases hzero : k = 0
        · rw [if_pos (hwrap.mpr hzero)]
          refine ⟨fun _ => rfl, fun hstops => absurd ⟨?_, hfirst, ?_⟩ hstops⟩
          · omega
          · rw [hzero, List.take_zero, List.take_zero]
        · rw [if_neg fun hw => hzero (hwrap.mp hw), hnext, List.map_cons, List.map_cons, hfirst]
          obtain ⟨k', rfl⟩ := Nat.exists_eq_succ_of_ne_zero hzero
          have hrest := ih hused0.2 hused1.2 hinfos0.2 hinfos1.2 (i := i + 1) (by omega) k' (by omega)
          have hsplit : NeverStops (i + 1) (attrs0.map ChannelAttr.described)
              (attrs1.map ChannelAttr.described) ↔ k' + 1 ≤ attrs0.length ∧ c1.described = c1.described ∧
                (attrs0.map ChannelAttr.described).take (k' + 1) =
                  (attrs1.map ChannelAttr.described).take (k' + 1) := by
            rw [NeverStops, show 2 ^ 32 - (i + 1) = k' + 1 by omega, List.length_map]
            exact and_congr_right fun _ => (and_iff_right rfl).symm
          rw [hsplit] at hrest
          refine ⟨hrest.1, fun hstops => (hrest.2 hstops).trans ?_⟩
          refine congrArg Except.ok (decide_eq_decide.mpr ?_)
          rw [List.cons.injEq]
          exact (and_iff_right rfl).symm
      · rw [decide_eq_false hfirst]
        refine ⟨fun hnever => absurd hnever.2.1 hfirst, fun _ => ?_⟩
        rw [List.map_cons, List.map_cons, decide_eq_false fun heq => hfirst (List.cons.inj heq).1]
        rfl

end loop

/-! ## Lists and groups -/

/-- An array up to its sentinel. -/
def upToSentinel {π : Type} (array : List (ChannelAttr π)) : List (ChannelAttr π) :=
  usedChannels array ++ (array.drop (usedChannels array).length).take 1

/-- A list of channels, or the null pointer, whose infos are there. -/
structure ListGiven (array : Option (List (ChannelAttr (List Byte))))
    (attrs : List (ChannelAttr (List Byte))) : Prop where
  lists : Lists array attrs
  infos : ∀ a ∈ upToSentinel (elements array), a.info.Backed

/-- Two lists that are not the null pointer, and a loop that ends. -/
structure ListsCompared (array0 array1 : Option (List (ChannelAttr (List Byte))))
    (attrs0 attrs1 : List (ChannelAttr (List Byte))) : Prop where
  there0 : array0.isSome
  there1 : array1.isSome
  stops : ¬ NeverStops 0 (attrs0.map ChannelAttr.described) (attrs1.map ChannelAttr.described)

/-- The group attribute without anything behind the sentinels. -/
def GroupAttr.cut (g : GroupAttr (List Byte)) : GroupAttr (List Byte) where
  consumers := g.consumers.map upToSentinel
  producers := g.producers.map upToSentinel
  info := g.info

section group

variable {array0 array1 : Option (List (ChannelAttr (List Byte)))}
  {attrs0 attrs1 : List (ChannelAttr (List Byte))}

/-- The part of an array up to its sentinel. -/
theorem upToSentinel_eq {attrs : List (ChannelAttr (List Byte))} {stop : ChannelAttr (List Byte)}
    (tail : List (ChannelAttr (List Byte))) (hused : ∀ a ∈ attrs, a.msgSize ≠ 0)
    (hstop : stop.msgSize = 0) : upToSentinel (attrs ++ stop :: tail) = attrs ++ [stop] := by
  have hattrs : usedChannels (attrs ++ stop :: tail) = attrs :=
    (Lists.array tail hused hstop).usedChannels
  rw [upToSentinel, hattrs, List.drop_left]
  rfl

/-- An array with a sentinel is a list that the comparison may be given. -/
theorem listGiven_array {attrs : List (ChannelAttr (List Byte))} {stop : ChannelAttr (List Byte)}
    (tail : List (ChannelAttr (List Byte))) (hused : ∀ a ∈ attrs, a.msgSize ≠ 0)
    (hstop : stop.msgSize = 0) (hinfos : ∀ a ∈ attrs ++ [stop], a.info.Backed) :
    ListGiven (some (attrs ++ stop :: tail)) attrs := by
  refine ⟨Lists.array tail hused hstop, ?_⟩
  rw [← upToSentinel_eq tail hused hstop] at hinfos
  exact hinfos

/-- What is behind the sentinel does not matter. -/
theorem ListGiven.cut (h : ListGiven array0 attrs0) : ListGiven (array0.map upToSentinel) attrs0 := by
  obtain ⟨hlists, hinfos⟩ := h
  cases hlists with
  | null => exact ⟨Lists.null, hinfos⟩
  | @array _ stop tail hused hstop =>
    change ∀ a ∈ upToSentinel (attrs0 ++ stop :: tail), a.info.Backed at hinfos
    show ListGiven (some (upToSentinel _)) attrs0
    rw [upToSentinel_eq tail hused hstop] at hinfos ⊢
    exact listGiven_array [] hused hstop hinfos

/-- The loop over two lists decides whether they say the same, if it ends in them; otherwise it reads
    outside. The induction is on both lists at once, with the index of the loop. -/
theorem channelsEqual_eq (h0 : ListGiven array0 attrs0) (h1 : ListGiven array1 attrs1) :
    (ListsCompared array0 array1 attrs0 attrs1 → channelsEqualFrom 0 (elements array0) (elements array1) =
      .ok (decide (attrs0.map ChannelAttr.described = attrs1.map ChannelAttr.described))) ∧
    (¬ ListsCompared array0 array1 attrs0 attrs1 →
      ∃ f, channelsEqualFrom 0 (elements array0) (elements array1) = .error f) := by
  obtain ⟨hlists0, hinfos0⟩ := h0
  obtain ⟨hlists1, hinfos1⟩ := h1
  cases hlists0 with
  | null => exact ⟨fun h => absurd h.there0 Bool.false_ne_true, fun _ => ⟨.channels, rfl⟩⟩
  | @array _ stop0 tail0 hused0 hstop0 =>
    cases hlists1 with
    | null =>
      refine ⟨fun h => absurd h.there1 Bool.false_ne_true, fun _ => ⟨.channels, ?_⟩⟩
      cases attrs0 <;> rfl
    | @array _ stop1 tail1 hused1 hstop1 =>
      change ∀ a ∈ upToSentinel (attrs0 ++ stop0 :: tail0), a.info.Backed at hinfos0
      change ∀ a ∈ upToSentinel (attrs1 ++ stop1 :: tail1), a.info.Backed at hinfos1
      rw [upToSentinel_eq tail0 hused0 hstop0] at hinfos0
      rw [upToSentinel_eq tail1 hused1 hstop1] at hinfos1
      obtain ⟨hnever, hstops⟩ := channelsEqualFrom_eq tail0 tail1 hused0 hused1 hstop0 hstop1 hinfos0
        hinfos1 (show 0 < 2 ^ 32 by decide)
      refine ⟨fun h => hstops h.stops, fun h => ⟨.noReturn, hnever ?_⟩⟩
      by_contra hends
      exact h ⟨rfl, rfl, hends⟩

variable {g0 g1 : GroupAttr (List Byte)} {cs0 cs1 ps0 ps1 : List (ChannelAttr (List Byte))}

/-- A group attribute with these channels. -/
structure GroupGiven (g : GroupAttr (List Byte)) (cs ps : List (ChannelAttr (List Byte))) : Prop where
  info : g.info.Backed
  consumers : ListGiven g.consumers cs
  producers : ListGiven g.producers ps

/-- What is behind the sentinels of a group does not matter. -/
theorem GroupGiven.cut (h : GroupGiven g0 cs0 ps0) : GroupGiven g0.cut cs0 ps0 :=
  ⟨h.info, h.consumers.cut, h.producers.cut⟩

/-- Every array is read only if it is there. -/
structure GroupsCompared (g0 g1 : GroupAttr (List Byte)) (cs0 ps0 cs1 ps1 : List (ChannelAttr (List Byte))) :
    Prop where
  consumers : g0.info.size = g1.info.size ∧ g0.info.bytes = g1.info.bytes →
    ListsCompared g0.consumers g1.consumers cs0 cs1
  producers : g0.info.size = g1.info.size ∧ g0.info.bytes = g1.info.bytes →
    cs0.map ChannelAttr.described = cs1.map ChannelAttr.described →
      ListsCompared g0.producers g1.producers ps0 ps1

/-- The same for groups: the infos are compared first, then the consumers, then the producers. -/
theorem groupAttrEqual_eq (h0 : GroupGiven g0 cs0 ps0) (h1 : GroupGiven g1 cs1 ps1) :
    (GroupsCompared g0 g1 cs0 ps0 cs1 ps1 →
      groupAttrEqual g0 g1 = .ok (decide (describe g0.info cs0 ps0 = describe g1.info cs1 ps1))) ∧
    (¬ GroupsCompared g0 g1 cs0 ps0 cs1 ps1 → ∃ f, groupAttrEqual g0 g1 = .error f) := by
  have hiff : describe g0.info cs0 ps0 = describe g1.info cs1 ps1 ↔
      (g0.info.size = g1.info.size ∧ g0.info.bytes = g1.info.bytes) ∧
        cs0.map ChannelAttr.described = cs1.map ChannelAttr.described ∧
          ps0.map ChannelAttr.described = ps1.map ChannelAttr.described := by
    rw [describe, describe, GroupDesc.mk.injEq, and_assoc]
    rfl
  obtain ⟨hcOk, hcFault⟩ := channelsEqual_eq h0.consumers h1.consumers
  obtain ⟨hpOk, hpFault⟩ := channelsEqual_eq h0.producers h1.producers
  rw [groupAttrEqual, infoEqual_eq h0.info h1.info]
  by_cases hinfo : g0.info.size = g1.info.size ∧ g0.info.bytes = g1.info.bytes
  swap
  · rw [decide_eq_false hinfo]
    refine ⟨fun _ => ?_, fun hnot => absurd ⟨fun h => absurd h hinfo, fun h => absurd h hinfo⟩ hnot⟩
    exact congrArg Except.ok (decide_eq_false fun heq => hinfo (hiff.mp heq).1).symm
  rw [decide_eq_true hinfo]
  show (_ → (channelsEqualFrom 0 (elements g0.consumers) (elements g1.consumers) >>= _) = _) ∧
    (_ → ∃ f, (channelsEqualFrom 0 (elements g0.consumers) (elements g1.consumers) >>= _) = _)
  by_cases hc : ListsCompared g0.consumers g1.consumers cs0 cs1
  swap
  · obtain ⟨f, hf⟩ := hcFault hc
    rw [hf]
    exact ⟨fun h => absurd (h.consumers hinfo) hc, fun _ => ⟨f, rfl⟩⟩
  rw [hcOk hc]
  by_cases hcs : cs0.map ChannelAttr.described = cs1.map ChannelAttr.described
  swap
  · rw [decide_eq_false hcs]
    refine ⟨fun _ => ?_, fun hnot => absurd ⟨fun _ => hc, fun _ h => absurd h hcs⟩ hnot⟩
    exact congrArg Except.ok (decide_eq_false fun heq => hcs (hiff.mp heq).2.1).symm
  rw [decide_eq_true hcs]
  show (_ → channelsEqualFrom 0 (elements g0.producers) (elements g1.producers) = _) ∧
    (_ → ∃ f, channelsEqualFrom 0 (elements g0.producers) (elements g1.producers) = _)
  by_cases hp : ListsCompared g0.producers g1.producers ps0 ps1
  swap
  · obtain ⟨f, hf⟩ := hpFault hp
    exact ⟨fun h => absurd (h.producers hinfo hcs) hp, fun _ => ⟨f, hf⟩⟩
  refine ⟨fun _ => (hpOk hp).trans ?_, fun hnot => absurd ⟨fun _ => hc, fun _ _ => hp⟩ hnot⟩
  refine congrArg Except.ok (decide_eq_decide.mpr (hiff.trans ?_).symm)
  exact (and_iff_right hinfo).trans (and_iff_right hcs)

/-- `ri_group_attr_equal` returns whether the groups are described alike, and reads nothing behind the
    sentinels. -/
def EqualDecides (g0 g1 : GroupAttr (List Byte)) (cs0 ps0 cs1 ps1 : List (ChannelAttr (List Byte))) :
    Prop :=
  ∃ b, groupAttrEqual g0 g1 = .ok b ∧ groupAttrEqual g0.cut g1.cut = .ok b ∧
    (b = true ↔ describe g0.info cs0 ps0 = describe g1.info cs1 ps1)

/-- It does so exactly if no list that it comes to is the null pointer, or longer than an index. -/
theorem equal_decides_iff (h0 : GroupGiven g0 cs0 ps0) (h1 : GroupGiven g1 cs1 ps1) :
    EqualDecides g0 g1 cs0 ps0 cs1 ps1 ↔ GroupsCompared g0 g1 cs0 ps0 cs1 ps1 := by
  obtain ⟨hok, hfault⟩ := groupAttrEqual_eq h0 h1
  constructor
  · rintro ⟨b, hequal, -⟩
    by_contra hnot
    obtain ⟨f, hf⟩ := hfault hnot
    rw [hequal] at hf
    cases hf
  · intro hcompared
    have hcut : GroupsCompared g0.cut g1.cut cs0 ps0 cs1 ps1 := by
      have hlists {array0 array1 : Option (List (ChannelAttr (List Byte)))}
          {attrs0 attrs1 : List (ChannelAttr (List Byte))}
          (h : ListsCompared array0 array1 attrs0 attrs1) :
          ListsCompared (array0.map upToSentinel) (array1.map upToSentinel) attrs0 attrs1 := by
        refine ⟨?_, ?_, h.stops⟩
        · rw [Option.isSome_map]
          exact h.there0
        · rw [Option.isSome_map]
          exact h.there1
      exact ⟨fun hinfo => hlists (hcompared.consumers hinfo),
        fun hinfo hcs => hlists (hcompared.producers hinfo hcs)⟩
    exact ⟨_, hok hcompared, (groupAttrEqual_eq h0.cut h1.cut).1 hcut, decide_eq_true_iff⟩

end group

/-- The group of `smallAttr` with an array for the consumers as well. -/
def arraysAttr : GroupAttr (List Byte) := { smallAttr with consumers := some ([] ++ ChannelAttr.zero :: []) }

/-- A group with both arrays is compared with itself. -/
theorem equal_decides_iff_arrays :
    EqualDecides arraysAttr arraysAttr [] [smallProducer] [] [smallProducer] := by
  have hsmall : smallProducer.info.Backed := Or.inr ⟨[1, 2], rfl, by decide, by decide⟩
  have hzero : (ChannelAttr.zero : ChannelAttr (List Byte)).info.Backed := Or.inl rfl
  have hgiven : GroupGiven arraysAttr [] [smallProducer] := by
    refine ⟨Or.inl rfl, listGiven_array [] (by decide) rfl ?_, listGiven_array [] (by decide) rfl ?_⟩
    · intro a ha
      obtain rfl := List.mem_singleton.mp ha
      exact hzero
    · intro a ha
      rcases List.mem_cons.mp ha with rfl | ha
      · exact hsmall
      · obtain rfl := List.mem_singleton.mp ha
        exact hzero
  have hstops {ds : List ChannelDesc} (hlen : ds.length ≤ 1) : ¬ NeverStops 0 ds ds := by
    rintro ⟨hle, -⟩
    omega
  exact (equal_decides_iff hgiven hgiven).mpr
    ⟨fun _ => ⟨rfl, rfl, hstops (by decide)⟩, fun _ _ => ⟨rfl, rfl, hstops (by decide)⟩⟩

/-- The group data without channels, as a client gets it, is not even equal to itself. -/
theorem null_lists_dereferenced : ¬ ∀ (g0 g1 : GroupAttr (List Byte))
    (cs0 ps0 cs1 ps1 : List (ChannelAttr (List Byte))), GroupGiven g0 cs0 ps0 → GroupGiven g1 cs1 ps1 →
      EqualDecides g0 g1 cs0 ps0 cs1 ps1 := by
  intro hall
  have hgiven : GroupGiven ⟨none, none, ⟨0, none⟩⟩ [] [] :=
    ⟨Or.inl rfl, ⟨Lists.null, fun a ha => (by cases ha)⟩, ⟨Lists.null, fun a ha => (by cases ha)⟩⟩
  obtain ⟨b, hequal, -⟩ := hall _ _ _ _ _ _ hgiven hgiven
  cases hequal

end Rtipc
