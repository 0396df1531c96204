import VfuKvssd.Controller.Host

/-! # Ring entries in guest memory, and the two ends of each ring -/
namespace VfuKvssd
open Foundations

/-! ## Reading entries -/

theorem NvmeSq.slotAddr_eq (sq : NvmeSq) (slot : BitVec 16) :
    sq.slotAddr slot = sq.dma + BitVec.ofNat 64 (64 * slot.toNat) := by
  have hlt := slot.isLt
  rw [slotAddr]
  congr 1
  apply BitVec.eq_of_toNat_eq
  rw [BitVec.toNat_mul, BitVec.toNat_setWidth, BitVec.toNat_ofNat,
    show (64 : BitVec 64).toNat = 64 from rfl]
  omega

theorem NvmeCq.slotAddr_eq (cq : NvmeCq) (slot : BitVec 16) :
    cq.slotAddr slot = cq.dma + BitVec.ofNat 64 (16 * slot.toNat) := by
  have hlt := slot.isLt
  rw [slotAddr]
  congr 1
  apply BitVec.eq_of_toNat_eq
  rw [BitVec.toNat_mul, BitVec.toNat_setWidth, BitVec.toNat_ofNat,
    show (16 : BitVec 64).toNat = 16 from rfl]
  omega

theorem NvmeCtrl.headEntry_eq (n : NvmeCtrl) (q : QueueId) :
    n.headEntry q = (n.sq q).entry n.world.mem (n.sq q).head.toNat := by
  rw [headEntry, NvmeSq.slotAddr_eq]
  rfl

theorem NvmeSq.entry_congr {sq : NvmeSq} {m m' : Memory} (hm : ∀ a ∈ sq.ring, m' a = m a) {j : ℕ}
    (hj : j < sq.size.toNat) : sq.entry m' j = sq.entry m j := by
  rw [entry, entry, List.map_congr_left fun a ha => hm a (slotSpan_subset hj ha)]

theorem NvmeCq.entry_congr {cq : NvmeCq} {m m' : Memory} {j : ℕ}
    (hm : ∀ a ∈ slotSpan cq.dma 16 j, m' a = m a) : cq.entry m' j = cq.entry m j := by
  rw [entry, entry, List.map_congr_left hm]

theorem NvmeSq.entries_congr {s s' : NvmeSq} {m m' : Memory} (hd : s'.dma = s.dma)
    (hz : s'.size = s.size) (hm : ∀ a ∈ s.ring, m' a = m a) {j : ℕ} (hj : j < s.size.toNat) (k : ℕ) :
    s'.entries m' j k = s.entries m j k := by
  induction k generalizing j with
  | zero => rfl
  | succ k ih =>
    have hentry : s'.entry m' j = s.entry m j := by
      rw [entry, hd]
      exact entry_congr hm hj
    rw [entries, entries, hentry, hz, ih (Nat.mod_lt _ (by omega))]

theorem NvmeSq.between_congr {s s' : NvmeSq} {m m' : Memory} (hd : s'.dma = s.dma)
    (hz : s'.size = s.size) (hm : ∀ x ∈ s.ring, m' x = m x) {a : BitVec 16}
    (ha : a.toNat < s.size.toNat) (b : BitVec 16) : s'.between m' a b = s.between m a b := by
  rw [between, between, hz]
  exact entries_congr hd hz hm ha _

theorem NvmeCtrl.pending_cons {n : NvmeCtrl} {q : QueueId} (hok : (n.sq q).Ok)
    (ht : (n.sq q).tail.toNat < (n.sq q).size.toNat) (hne : (n.sq q).head ≠ (n.sq q).tail) :
    n.pending q = n.headEntry q ::
      (n.sq q).between n.world.mem (n.sq q).nextHead (n.sq q).tail := by
  have hne' : (n.sq q).head.toNat ≠ (n.sq q).tail.toNat := fun h => hne (BitVec.eq_of_toNat_eq h)
  rw [pending, NvmeSq.between, NvmeSq.between, ringDist_pred hok.head_lt ht hne', NvmeSq.entries,
    headEntry_eq, NvmeSq.nextHead_toNat hok]

theorem NvmeSq.between_self (sq : NvmeSq) (mem : Memory) (a : BitVec 16) :
    sq.between mem a a = [] := by
  rw [between, ringDist_self]
  rfl

/-! ## Completion entries as bytes -/

theorem leNat_toNat {w len : ℕ} (hw : 256 ^ len = 2 ^ w) (x : BitVec w) :
    leNat (leBytes len x.toNat) = x.toNat := by
  rw [leNat_leBytes, hw]
  exact Nat.mod_eq_of_lt x.isLt

theorem NvmeCqe.ofBytes_toBytes (cqe : NvmeCqe) : ofBytes cqe.toBytes = cqe := by
  have h32 (x : BitVec 32) : leNat (leBytes 4 x.toNat) = x.toNat := leNat_toNat (by decide) x
  have h16 (x : BitVec 16) : leNat (leBytes 2 x.toNat) = x.toNat := leNat_toNat (by decide) x
  simp only [ofBytes, toBytes, List.append_assoc, List.take_append, List.drop_append,
    leBytes_length]
  simp [List.take_of_length_le, List.drop_of_length_le, h32, h16]

theorem NvmeCqe.blank_tag : (ofBytes (List.replicate 16 0)).tag = false := by decide

theorem cqeFor_tag {cq : NvmeCq} {b : Bool} (h : cq.phase = if b then 1 else 0)
    (sqid sqHead cid : BitVec 16) (cdw0 : BitVec 32) (st : Status) :
    (cqeFor cq sqid sqHead cid cdw0 st).tag = b := by
  cases b <;> simp [NvmeCqe.tag, cqeFor, h]

theorem cqeFor_status {cq : NvmeCq} {b : Bool} (h : cq.phase = if b then 1 else 0)
    (sqid sqHead cid : BitVec 16) (cdw0 : BitVec 32) (st : Status) :
    (cqeFor cq sqid sqHead cid cdw0 st).status >>> 1 = st &&& 0x7fff := by
  have hmask : ∀ i < 16, (0x7fff : BitVec 16).getLsbD i = decide (i < 15) := by decide
  have hbit (i : ℕ) : ((cq.phase &&& 1).setWidth 16).getLsbD (1 + i) = false := by
    cases b <;> simp [h, BitVec.getLsbD_one]
  apply BitVec.eq_of_getLsbD_eq
  intro i hi
  rw [BitVec.getLsbD_ushiftRight, BitVec.getLsbD_and, hmask i hi, cqeFor, BitVec.getLsbD_or, hbit]
  have hlast : (1 + i < 16) = (i < 15) := propext (by omega)
  simp [hlast, Bool.and_comm]

/-! ## The producer's end -/

/-- Tail and phase of a completion queue stand at a position. -/
structure NvmeCq.At (cq : NvmeCq) (pos : Cursor) : Prop where
  tail : cq.tail.toNat = pos.head
  phase : cq.phase = if pos.phase then 1 else 0

theorem NvmeCq.At.advance {cq : NvmeCq} {pos : Cursor} (h : cq.At pos) (hok : cq.Ok)
    (hz : cq.size.toNat < 2 ^ 16) : cq.advance.At (pos.next cq.size.toNat) := by
  have ht := hok.tail_lt
  have hhead := h.tail
  have hcond : (cq.tail + 1).setWidth 32 = cq.size ↔ pos.head + 1 = cq.size.toNat := by
    rw [← BitVec.toNat_inj, BitVec.toNat_setWidth, BitVec.toNat_add,
      show (1 : BitVec 16).toNat = 1 from rfl]
    omega
  rw [NvmeCq.advance, Cursor.next]
  by_cases hw : pos.head + 1 = cq.size.toNat
  · rw [if_pos (hcond.mpr hw), if_pos hw]
    refine ⟨rfl, ?_⟩
    change cq.phase ^^^ 1 = _
    rw [h.phase]
    cases pos.phase <;> rfl
  · rw [if_neg (hcond.not.mpr hw), if_neg hw]
    refine ⟨?_, h.phase⟩
    change (cq.tail + 1).toNat = pos.head + 1
    rw [BitVec.toNat_add, show (1 : BitVec 16).toNat = 1 from rfl]
    omega

theorem NvmeCq.Fresh.at {cq : NvmeCq} (h : cq.Fresh) (n : ℕ) : cq.At (ringPos n 0) := by
  refine ⟨?_, ?_⟩
  · rw [h.tail, ringPos, Nat.zero_mod]
    rfl
  · rw [h.phase]
    simp [ringPos]

/-- The phase ring of a completion queue. -/
def NvmeCq.Carries (cq : NvmeCq) (mem : Memory) (ps : List NvmeCqe) : Prop :=
  PhaseRing NvmeCqe.tag (.ofBytes (List.replicate 16 0)) cq.size.toNat ps (cq.entry mem)

theorem NvmeCq.ring_le {cq : NvmeCq} (h : cq.size.toNat < 2 ^ 16) : 16 * cq.size.toNat ≤ 2 ^ 64 := by
  omega

theorem NvmeCq.Carries.congr {cq : NvmeCq} {m m' : Memory} {ps : List NvmeCqe}
    (h : cq.Carries m ps) (hok : cq.Ok) (hm : ∀ a ∈ cq.ring, m' a = m a) : cq.Carries m' ps :=
  PhaseRing.congr h hok.size_pos fun _ hj =>
    NvmeCq.entry_congr fun a ha => hm a (slotSpan_subset hj ha)

theorem NvmeCq.Ok.tailSlot_subset {cq : NvmeCq} (hok : cq.Ok) :
    span (cq.slotAddr cq.tail) 16 ⊆ cq.ring := by
  rw [NvmeCq.slotAddr_eq]
  exact slotSpan_subset hok.tail_lt

theorem NvmeCq.carries_nil {cq : NvmeCq} {m : Memory} (hm : ∀ a ∈ cq.ring, m a = 0) :
    cq.Carries m [] := by
  refine .nil fun j hj => ?_
  rw [entry]
  congr 1
  rw [List.eq_replicate_iff]
  refine ⟨by simp [slotSpan], fun b hb => ?_⟩
  obtain ⟨a, ha, rfl⟩ := List.mem_map.mp hb
  exact hm a (slotSpan_subset hj ha)

theorem NvmeCq.advance_dma (cq : NvmeCq) : cq.advance.dma = cq.dma := by
  rw [advance]; split <;> rfl

theorem NvmeCq.advance_ring (cq : NvmeCq) : cq.advance.ring = cq.ring := by
  rw [ring, ring, advance_dma, advance_size]

theorem NvmeCq.Carries.advance {cq : NvmeCq} {m : Memory} {ps : List NvmeCqe}
    (h : cq.Carries m ps) : cq.advance.Carries m ps := by
  have hentry : cq.advance.entry m = cq.entry m := by
    funext j
    rw [entry, entry, advance_dma]
  rw [Carries, advance_size, hentry]
  exact h

/-- A completion written at the tail is the next entry of the ring. -/
theorem NvmeCq.Carries.post {cq : NvmeCq} {m : Memory} {ps : List NvmeCqe} (h : cq.Carries m ps)
    (hok : cq.Ok) (hz : cq.size.toNat < 2 ^ 16) (hat : cq.At (ringPos cq.size.toNat ps.length))
    {cqe : NvmeCqe} (htag : cqe.tag = (ringPos cq.size.toNat ps.length).phase) :
    cq.Carries (writeAll m (span (cq.slotAddr cq.tail) 16) cqe.toBytes) (ps ++ [cqe]) := by
  have hslot : ps.length % cq.size.toNat = cq.tail.toNat := hat.tail.symm
  have hspan : span (cq.slotAddr cq.tail) 16 = slotSpan cq.dma 16 cq.tail.toNat := by
    rw [slotAddr_eq]
    rfl
  rw [hspan]
  refine PhaseRing.post h hok.size_pos htag ?_ fun j hj hne => ?_
  · have hnodup : (slotSpan cq.dma 16 cq.tail.toNat).Nodup := span_nodup (by decide)
    rw [hslot, entry, map_writeAll hnodup (by simp [slotSpan]), NvmeCqe.ofBytes_toBytes]
  · rw [hslot] at hne
    refine entry_congr fun a ha => writeAll_outside fun hmem => ?_
    exact slotSpan_disjoint (NvmeCq.ring_le hz) hj hok.tail_lt hne ha hmem

/-! ## The consumer's end -/

/-- The reader has read a first part of the posts and stands right behind it. -/
structure CqReader.Follows (r : CqReader) (size : ℕ) (ps : List NvmeCqe) : Prop where
  cursor : r.cursor = ringPos size r.received.length
  received : r.received <+: ps

theorem CqReader.follows_fresh (size : ℕ) : CqReader.fresh.Follows size [] :=
  ⟨by simp [CqReader.fresh, ringPos], List.prefix_rfl⟩

section Poll
variable {r : CqReader} {cq : NvmeCq} {mem : Memory} {ps : List NvmeCqe}

theorem CqReader.Follows.poll_unread (h : r.Follows cq.size.toNat ps) (hc : cq.Carries mem ps)
    (hlap : ps.length ≤ r.received.length + cq.size.toNat) (hlt : r.received.length < ps.length) :
    (r.poll cq mem).received = r.received ++ [ps[r.received.length]] ∧
      (r.poll cq mem).cursor = r.cursor.next cq.size.toNat := by
  obtain ⟨hentry, htag⟩ := PhaseRing.unread hc hlt hlap
  rw [← h.cursor] at hentry htag
  rw [poll, if_pos htag, hentry]
  exact ⟨rfl, rfl⟩

theorem CqReader.Follows.poll_all (h : r.Follows cq.size.toNat ps) (hc : cq.Carries mem ps)
    (hok : cq.Ok) (heq : r.received.length = ps.length) : r.poll cq mem = r := by
  have htag := PhaseRing.all_read hc hok.size_pos NvmeCqe.blank_tag
  rw [← heq, ← h.cursor] at htag
  rw [poll, if_neg htag]

theorem CqReader.poll_released : (r.poll cq mem).released = r.released := by
  rw [poll]
  split_ifs <;> rfl

theorem CqReader.poll_length_le (r : CqReader) (cq : NvmeCq) (mem : Memory) :
    r.received.length ≤ (r.poll cq mem).received.length := by
  rw [poll]
  split_ifs <;> simp

theorem CqReader.Follows.poll (h : r.Follows cq.size.toNat ps) (hc : cq.Carries mem ps)
    (hok : cq.Ok) (hlap : ps.length ≤ r.received.length + cq.size.toNat) :
    (r.poll cq mem).Follows cq.size.toNat ps := by
  rcases h.received.length_le.lt_or_eq with hlt | heq
  · obtain ⟨hreceived, hcursor⟩ := h.poll_unread hc hlap hlt
    refine ⟨?_, ?_⟩
    · rw [hcursor, hreceived, List.length_append, List.length_singleton, h.cursor,
        ringPos_next hok.size_pos]
    · rw [hreceived]
      obtain ⟨rest, rfl⟩ := h.received
      cases rest with
      | nil => simp at hlt
      | cons x rest =>
        refine ⟨rest, ?_⟩
        simp
  · rw [h.poll_all hc hok heq]
    exact h

end Poll

end VfuKvssd
