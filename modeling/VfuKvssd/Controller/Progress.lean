import VfuKvssd.Controller.Events

/-! # Iterations have an outcome

The namespace stays valid on every run, so the only iteration without a defined
outcome is a Store that would index the slot array beyond the range of `int`.
-/
namespace VfuKvssd
open Foundations

theorem KvNs.Valid.withEdnek {ns : KvNs} (h : ns.Valid) (v : BitVec 32) :
    { ns with ednek := v }.Valid :=
  { h with }

theorem Executed.ns_valid {n n' : NvmeCtrl} {heap : Heap} {q : QueueId} {sqe : NvmeSqe}
    {st : Status} {cdw0 : BitVec 32} (hx : Executed n heap q sqe st cdw0 n') (h : n.ns.Valid) :
    n'.ns.Valid ∧ n'.ns.maxNumKeys = n.ns.maxNumKeys := by
  cases hx with
  | ednek => exact ⟨h.withEdnek _, rfl⟩
  | kv hq ho hh =>
    obtain ⟨hv, hm, -⟩ := kvHandle_valid h hh
    exact ⟨hv, hm⟩
  | _ => exact ⟨h, rfl⟩

/-- Only consumed commands change the namespace. -/
theorem StepCase.ns_eq {d d' : Device} {i : Input} (hs : StepCase d i d') :
    d'.n.ns = d.n.ns ∨ ∃ heap q, i = .iterate heap ∧ d.busy = some q ∧ Consumed d.n heap q d'.n := by
  cases hs with
  | @consumed heap q hb hh hx n hc => exact .inr ⟨heap, q, rfl, hb, hc⟩
  | @register hb offset buf ho v hv =>
    left
    rcases nvmeRegStore_cases d.n offset v buf.length with ⟨-, he⟩ | ⟨-, _, _, _, _, _, he⟩
    · simp only [he, nvmeCcWrite, nvmeCcShutdown, nvmeCcEnable]
      split_ifs <;> rfl
    · simp only [he]
  | _ => exact .inl rfl

theorem Consumed.ns_valid {n n' : NvmeCtrl} {heap : Heap} {q : QueueId} (hc : Consumed n heap q n')
    (h : n.ns.Valid) : n'.ns.Valid ∧ n'.ns.maxNumKeys = n.ns.maxNumKeys := by
  obtain ⟨hsize, hfetch, hx, hp⟩ := hc
  rw [hp.frame.2.1]
  exact hx.ns_valid h

theorem Device.Initial.ns {maxNumKeys : BitVec 32} {d : Device} (h : Initial maxNumKeys d) :
    ∃ heap, kvNsInit heap maxNumKeys = some d.n.ns := by
  obtain ⟨⟨heap, world, hi, -⟩, -⟩ := h
  obtain ⟨ns, hns, hn⟩ := Option.map_eq_some_iff.mp hi
  refine ⟨heap, ?_⟩
  rw [hns, ← hn]

theorem Device.Reachable.ns_valid {maxNumKeys : BitVec 32} {d : Device}
    (h : Reachable maxNumKeys d) : d.n.ns.Valid ∧ d.n.ns.maxNumKeys = maxNumKeys := by
  apply h.invariant (I := fun d => d.n.ns.Valid ∧ d.n.ns.maxNumKeys = maxNumKeys)
  · intro d₀ h₀
    obtain ⟨heap, hns⟩ := h₀.ns
    exact ⟨kvNsInit_valid hns, kvNsInit_maxNumKeys hns⟩
  · rintro d i d' ⟨hv, hm⟩ hs
    rcases hs.ns_eq with he | ⟨heap, q, -, -, hc⟩
    · rw [he]
      exact ⟨hv, hm⟩
    · obtain ⟨hv', hm'⟩ := hc.ns_valid hv
      exact ⟨hv', hm'.trans hm⟩

theorem nvmeExecute_isSome {n : NvmeCtrl} (heap : Heap) {q : QueueId} (sqe : NvmeSqe)
    (hk : q = 0 ∨ n.ns.Valid ∧ (heap .pairsGrown = true → n.ns.entriesAllocated < 2 ^ 31)) :
    (nvmeExecute n heap q sqe).isSome = true := by
  rw [nvmeExecute]
  split
  · rfl
  · rename_i hq
    obtain ⟨hv, hint⟩ := hk.resolve_left hq
    rw [Option.isSome_map, nvmeIoKv]
    dsimp only
    split
    · rfl
    · rw [Option.isSome_map]
      exact kvHandle_isSome hv hint _ _ _ _

theorem nvmePostCqe_isSome {n : NvmeCtrl} {heap : Heap} {cqid : BitVec 16}
    (h : cqid.toNat < nvmeMaxQueues) (sqid sqHead cid : BitVec 16) (cdw0 : BitVec 32) (st : Status) :
    (nvmePostCqe n heap cqid sqid sqHead cid cdw0 st).isSome = true := by
  rw [nvmePostCqe, dif_pos h]
  dsimp only
  split <;> rfl

theorem nvmeConsume_isSome {n : NvmeCtrl} (heap : Heap) {q : QueueId} (sqe : NvmeSqe)
    (hok : (n.sq q).Ok)
    (hk : q = 0 ∨ n.ns.Valid ∧ (heap .pairsGrown = true → n.ns.entriesAllocated < 2 ^ 31)) :
    (nvmeConsume n heap q sqe).isSome = true := by
  have hsize : (n.sq q).size ≠ 0 := by
    intro hz
    have hpos := hok.size_pos
    rw [hz] at hpos
    exact absurd hpos (by decide)
  obtain ⟨⟨st, cdw0, n₁⟩, hx⟩ := Option.isSome_iff_exists.mp
    (nvmeExecute_isSome (n := n.setSq q { n.sq q with head := (n.sq q).nextHead }) heap sqe hk)
  have hself := (nvmeExecute_executed hx).sq_self
  rw [nvmeConsume]
  simp only [hsize, if_false, hx]
  split
  · rfl
  · apply nvmePostCqe_isSome
    simp only [NvmeCtrl.log_sq, hself]
    simpa using hok.cqid_lt

def sqTailWrite (q : QueueId) (val : BitVec 16) : Input :=
  .bar0 true (nvmeRegDoorbell + 8 * q.val) (leBytes 4 val.toNat)

def cqHeadWrite (q : QueueId) (val : BitVec 16) : Input :=
  .bar0 true (nvmeRegDoorbell + 8 * q.val + 4) (leBytes 4 val.toNat)

theorem rdLe_doorbell (val : BitVec 16) :
    ∃ v, rdLe (leBytes 4 val.toNat) = some v ∧ v.setWidth 16 = val := by
  refine ⟨BitVec.ofNat 64 (leNat (leBytes 4 val.toNat)), by simp [rdLe], ?_⟩
  have hv := val.isLt
  apply BitVec.eq_of_toNat_eq
  rw [leNat_leBytes, BitVec.toNat_setWidth, BitVec.toNat_ofNat]
  omega

/-- Any write of an SQ tail doorbell stores the tail and starts the loop on an enabled queue. -/
theorem Device.step_sqDoorbell {d : Device} (hb : d.busy = none) {offset : ℕ} {buf : List Byte}
    {q : QueueId} {val : BitVec 16} (hd : Doorbell offset buf false q val) :
    d.step (.bar0 true offset buf) = some ⟨d.n.setSq q { d.n.sq q with tail := val },
      if (d.n.sq q).enabled then some q else none⟩ := by
  obtain ⟨hrange, hqueue, hside, v, hv, rfl⟩ := hd
  have hq : q.val < 64 := q.isLt
  have heven : ¬ (offset - nvmeRegDoorbell) / 4 % 2 = 1 := of_decide_eq_false hside.symm
  simp only [step, hb, nvmeBar0Access, hv, hqueue]
  rw [if_pos hrange, if_pos trivial, dif_pos hq, if_neg heven]
  simp [NvmeCtrl.reply]

theorem doorbell_sqTailWrite (q : QueueId) (val : BitVec 16) :
    Doorbell (nvmeRegDoorbell + 8 * q.val) (leBytes 4 val.toNat) false q val := by
  obtain ⟨v, hv, hval⟩ := rdLe_doorbell val
  have hq : q.val < 64 := q.isLt
  have hidx : (nvmeRegDoorbell + 8 * q.val - nvmeRegDoorbell) / 4 = 2 * q.val := by omega
  refine ⟨by omega, by omega, ?_, v, hv, hval.symm⟩
  rw [hidx]
  exact (decide_eq_false (by omega)).symm

theorem Device.step_sqTailWrite {d : Device} (hb : d.busy = none) (q : QueueId) (val : BitVec 16) :
    d.step (sqTailWrite q val) = some ⟨d.n.setSq q { d.n.sq q with tail := val },
      if (d.n.sq q).enabled then some q else none⟩ :=
  step_sqDoorbell hb (doorbell_sqTailWrite q val)

theorem Device.step_cqHeadWrite {d : Device} (hb : d.busy = none) (q : QueueId) (val : BitVec 16) :
    d.step (cqHeadWrite q val) =
      some ⟨(d.n.setCq q { d.n.cq q with head := val }).log (.cqHead q val), none⟩ := by
  obtain ⟨v, hv, hval⟩ := rdLe_doorbell val
  have hq : q.val < 64 := q.isLt
  have hidx : (nvmeRegDoorbell + 8 * q.val + 4 - nvmeRegDoorbell) / 4 = 2 * q.val + 1 := by omega
  have hqid : (2 * q.val + 1) / 2 % 2 ^ 16 = q.val := by omega
  simp only [step, cqHeadWrite, hb, nvmeBar0Access, hv, hval, hidx, hqid]
  rw [if_pos (by omega), if_pos trivial, dif_pos hq, if_pos (by omega)]
  simp [NvmeCtrl.reply]

/-- An iteration has an outcome, whatever the entry holds. -/
theorem Device.iterate_isSome {d : Device} (hok : d.Ok) {q : QueueId} (hb : d.busy = some q)
    (heap : Heap)
    (hk : q = 0 ∨ d.n.ns.Valid ∧ (heap .pairsGrown = true → d.n.ns.entriesAllocated < 2 ^ 31)) :
    ∃ d', d.step (.iterate heap) = some d' := by
  rw [step, hb]
  apply Option.isSome_iff_exists.mp
  rw [Option.isSome_map, nvmeProcessSqStep]
  split
  · rfl
  split
  · rfl
  · rw [Option.isSome_map]
    exact nvmeConsume_isSome heap _ (hok.rings.sq q (hok.busy q hb)) hk

theorem Device.consumed_of_busy {d d' : Device} {heap : Heap} {q : QueueId}
    (hs : d.step (.iterate heap) = some d') (hb : d.busy = some q) (hb' : d'.busy = some q) :
    Consumed d.n heap q d'.n := by
  cases step_cases hs with
  | finished | fetchFailed => cases hb'
  | consumed hq hh hx hc =>
    rw [hb] at hq
    exact Option.some.inj hq ▸ hc

theorem Device.iterate_consumes {d : Device} (hok : d.Ok) {q : QueueId} (hb : d.busy = some q)
    (heap : Heap)
    (hk : q = 0 ∨ d.n.ns.Valid ∧ (heap .pairsGrown = true → d.n.ns.entriesAllocated < 2 ^ 31))
    (hne : (d.n.sq q).head ≠ (d.n.sq q).tail) (hsgl : heap .sqeSgl = true)
    (hmap : d.n.world.vfu.reaches ((d.n.sq q).slotAddr (d.n.sq q).head) 64 .read = true) :
    ∃ n, d.step (.iterate heap) = some ⟨n, some q⟩ ∧ Consumed d.n heap q n := by
  obtain ⟨d', hs⟩ := iterate_isSome hok hb heap hk
  have hfetch := nvmeGpaXfer_ok d.n.world (heap .sqeSgl) ((d.n.sq q).slotAddr (d.n.sq q).head)
    (List.replicate 64 0) (by simp) false
  rw [hsgl, List.length_replicate, xferProt, if_neg (by decide), hmap] at hfetch
  cases step_cases hs with
  | finished hb' hh =>
    rw [hb] at hb'
    exact absurd (Option.some.inj hb' ▸ hh) hne
  | fetchFailed hb' hh hx =>
    rw [hb] at hb'
    obtain rfl := Option.some.inj hb'
    rw [hsgl, hfetch] at hx
    cases hx
  | consumed hb' hh hx hc =>
    rw [hb] at hb'
    obtain rfl := Option.some.inj hb'
    exact ⟨_, hs, hc⟩

end VfuKvssd
