import VfuKvssd.Controller.Steps

/-! # Invariants of the queue arrays and of the enable and shutdown machine -/
namespace VfuKvssd
open Foundations

/-! ## What an iteration leaves alone -/

section Frame
variable {n n' : NvmeCtrl} {heap : Heap} {q : QueueId} {sqe : NvmeSqe} {st : Status}
  {cdw0 : BitVec 32}

/-- A command never touches the queue it came from. -/
theorem Executed.sq_self (h : Executed n heap q sqe st cdw0 n') : n'.sq q = n.sq q := by
  cases h with
  | createSq hq ho hs hl => simp [hq, (ioQueue_some hs).1.symm]
  | deleteSq hq ho hs => simp [hq, (ioQueue_some hs).1.symm]
  | _ => rfl

theorem Executed.cq_zero (h : Executed n heap q sqe st cdw0 n') : n'.cq 0 = n.cq 0 := by
  cases h with
  | createCq hq ho hc => simp [(ioQueue_some hc).1.symm]
  | deleteCq hq ho hc => simp [(ioQueue_some hc).1.symm]
  | _ => rfl

theorem Executed.sq_zero (h : Executed n heap q sqe st cdw0 n') : n'.sq 0 = n.sq 0 := by
  cases h with
  | createSq hq ho hs hl => simp [(ioQueue_some hs).1.symm]
  | deleteSq hq ho hs => simp [(ioQueue_some hs).1.symm]
  | _ => rfl

theorem Executed.registers (h : Executed n heap q sqe st cdw0 n') :
    n'.cc = n.cc ∧ n'.csts = n.csts := by
  cases h <;> exact ⟨rfl, rfl⟩

theorem Executed.io (h : Executed n heap q sqe st cdw0 n') (hq : q ≠ 0) :
    n'.sq = n.sq ∧ n'.cq = n.cq := by
  cases h with
  | kv | unsupported => exact ⟨rfl, rfl⟩
  | identify hz | ednek hz | createCq hz | createSq hz | deleteCq hz | deleteSq hz | asyncEvent hz
  | noEffect hz => exact absurd hz hq

@[simp] theorem NvmeCtrl.raise_sq (n : NvmeCtrl) (irq : ℤ) : (n.raise irq).sq = n.sq := by
  rw [raise]; split <;> rfl

@[simp] theorem NvmeCtrl.raise_cq (n : NvmeCtrl) (irq : ℤ) : (n.raise irq).cq = n.cq := by
  rw [raise]; split <;> rfl

@[simp] theorem NvmeCtrl.raise_ns (n : NvmeCtrl) (irq : ℤ) : (n.raise irq).ns = n.ns := by
  rw [raise]; split <;> rfl

@[simp] theorem NvmeCtrl.raise_cc (n : NvmeCtrl) (irq : ℤ) : (n.raise irq).cc = n.cc := by
  rw [raise]; split <;> rfl

@[simp] theorem NvmeCtrl.raise_csts (n : NvmeCtrl) (irq : ℤ) : (n.raise irq).csts = n.csts := by
  rw [raise]; split <;> rfl

/-- Posting touches one completion queue, the guest's memory and the log. -/
theorem nvmePostTo_frame (n : NvmeCtrl) (heap : Heap) (c : QueueId) (cqe : NvmeCqe) :
    (nvmePostTo n heap c cqe).sq = n.sq ∧
    (nvmePostTo n heap c cqe).cq = Function.update n.cq c (n.cq c).advance ∧
    (nvmePostTo n heap c cqe).ns = n.ns ∧ (nvmePostTo n heap c cqe).cc = n.cc ∧
    (nvmePostTo n heap c cqe).csts = n.csts := by
  simp [nvmePostTo]

theorem NvmeCq.advance_enabled (cq : NvmeCq) : cq.advance.enabled = cq.enabled := by
  rw [advance]; split <;> rfl

theorem Completed.frame (h : Completed n heap q sqe cdw0 st n') :
    n'.sq = n.sq ∧ n'.ns = n.ns ∧ n'.cc = n.cc ∧ n'.csts = n.csts ∧
    (∀ c, (n'.cq c).enabled = (n.cq c).enabled) := by
  cases h with
  | silent => exact ⟨rfl, rfl, rfl, rfl, fun _ => rfl⟩
  | dropped => exact ⟨rfl, rfl, rfl, rfl, fun _ => rfl⟩
  | @posted _ c _ _ =>
    obtain ⟨hsq, hcq, hns, hcc, hcsts⟩ := nvmePostTo_frame n heap c
      (cqeFor (n.cq c) (BitVec.ofNat 16 q.val) (n.sq q).head sqe.cid cdw0 st)
    refine ⟨hsq, hns, hcc, hcsts, fun c' => ?_⟩
    rw [hcq]
    by_cases hc : c' = c
    · rw [hc, Function.update_self, NvmeCq.advance_enabled]
    · rw [Function.update_of_ne hc]

end Frame

/-! ## Ring bounds -/

/-- An enabled submission queue has a size, a head within it and a completion queue index. -/
structure NvmeSq.Ok (s : NvmeSq) : Prop where
  size_pos : 1 ≤ s.size.toNat
  size_le : s.size.toNat ≤ 2 ^ 16
  head_lt : s.head.toNat < s.size.toNat
  cqid_lt : s.cqid.toNat < nvmeMaxQueues

/-- An enabled completion queue has a size and a tail within it. -/
structure NvmeCq.Ok (c : NvmeCq) : Prop where
  size_pos : 1 ≤ c.size.toNat
  size_le : c.size.toNat ≤ 2 ^ 16
  tail_lt : c.tail.toNat < c.size.toNat

structure NvmeCtrl.RingsOk (n : NvmeCtrl) : Prop where
  sq : ∀ q, (n.sq q).enabled = true → (n.sq q).Ok
  cq : ∀ c, (n.cq c).enabled = true → (n.cq c).Ok
  admin : (n.sq 0).cqid = 0

theorem size_add_one (x : BitVec 16) : (x.setWidth 32 + 1 : BitVec 32).toNat = x.toNat + 1 := by
  have hx := x.isLt
  rw [BitVec.toNat_add, BitVec.toNat_setWidth, show (1 : BitVec 32).toNat = 1 from rfl]
  omega

theorem adminSize (x : BitVec 32) :
    1 ≤ ((x &&& 0xfff) + 1).toNat ∧ ((x &&& 0xfff) + 1).toNat ≤ 4096 := by
  have hx : (x &&& 0xfff).toNat = x.toNat % 4096 := by
    rw [BitVec.toNat_and]
    exact Nat.and_two_pow_sub_one_eq_mod x.toNat 12
  have hlt := Nat.mod_lt x.toNat (show 0 < 4096 by decide)
  rw [BitVec.toNat_add, hx, show (1 : BitVec 32).toNat = 1 from rfl]
  omega

theorem createdCq_ok (sqe : NvmeSqe) : (createdCq sqe).Ok := by
  have hs : (createdCq sqe).size.toNat = sqe.qsize.toNat + 1 := size_add_one sqe.qsize
  have hlt := sqe.qsize.isLt
  exact ⟨by omega, by omega, by rw [hs]; simp [createdCq]⟩

theorem createdSq_ok {sqe : NvmeSqe} (hc : sqe.target.toNat < nvmeMaxQueues) :
    (createdSq sqe).Ok := by
  have hs : (createdSq sqe).size.toNat = sqe.qsize.toNat + 1 := size_add_one sqe.qsize
  have hlt := sqe.qsize.isLt
  exact ⟨by omega, by omega, by rw [hs]; simp [createdSq], hc⟩

theorem NvmeCq.Ok.advance {cq : NvmeCq} (h : cq.Ok) : cq.advance.Ok := by
  have hs := h.size_pos
  have hl := h.size_le
  have ht := h.tail_lt
  rw [NvmeCq.advance]
  split
  · exact ⟨hs, hl, hs⟩
  · rename_i hne
    refine ⟨hs, hl, ?_⟩
    change (cq.tail + 1).toNat < cq.size.toNat
    have hw : (cq.tail + 1).toNat = (cq.tail.toNat + 1) % 2 ^ 16 := by simp [BitVec.toNat_add]
    have hv : (cq.tail + 1).toNat ≠ cq.size.toNat := by
      intro he
      apply hne
      apply BitVec.eq_of_toNat_eq
      rw [BitVec.toNat_setWidth, he]
      omega
    omega

theorem NvmeSq.nextHead_toNat {sq : NvmeSq} (h : sq.Ok) :
    sq.nextHead.toNat = (sq.head.toNat + 1) % sq.size.toNat := by
  have hlt := Nat.mod_lt (sq.head.toNat + 1) h.size_pos
  have hl := h.size_le
  rw [nextHead, BitVec.toNat_ofNat, Nat.mod_eq_of_lt (by omega)]

theorem NvmeSq.Ok.nextHead {sq : NvmeSq} (h : sq.Ok) :
    { sq with head := sq.nextHead }.Ok := by
  refine ⟨h.size_pos, h.size_le, ?_, h.cqid_lt⟩
  rw [show ({ sq with head := sq.nextHead } : NvmeSq).head = sq.nextHead from rfl,
    NvmeSq.nextHead_toNat h]
  exact Nat.mod_lt _ h.size_pos

theorem liveCq_iff {n : NvmeCtrl} {cqid : BitVec 16} :
    n.liveCq cqid = true ↔ ∃ c : QueueId, cqid.toNat = c.val ∧ (n.cq c).enabled = true := by
  rw [NvmeCtrl.liveCq]
  constructor
  · intro h
    split at h
    · exact ⟨_, rfl, h⟩
    · cases h
  · rintro ⟨c, hc, he⟩
    have hlt : cqid.toNat < nvmeMaxQueues := hc ▸ c.isLt
    rw [dif_pos hlt]
    rwa [show (⟨cqid.toNat, hlt⟩ : QueueId) = c from Fin.ext hc]

namespace NvmeCtrl.RingsOk
variable {n n' : NvmeCtrl}

theorem congr (h : n.RingsOk) (hsq : n'.sq = n.sq) (hcq : n'.cq = n.cq) : n'.RingsOk :=
  ⟨hsq ▸ h.sq, hcq ▸ h.cq, hsq ▸ h.admin⟩

theorem setSq (h : n.RingsOk) {q : QueueId} {s : NvmeSq} (hs : s.enabled = true → s.Ok)
    (ha : q = 0 → s.cqid = 0) : (n.setSq q s).RingsOk := by
  refine ⟨fun p => ?_, h.cq, ?_⟩
  · by_cases hp : p = q
    · simpa [hp] using hs
    · simpa [hp] using h.sq p
  · by_cases hq : 0 = q
    · simpa [← hq] using ha hq.symm
    · simpa [hq] using h.admin

theorem setCq (h : n.RingsOk) {q : QueueId} {c : NvmeCq} (hc : c.enabled = true → c.Ok) :
    (n.setCq q c).RingsOk := by
  refine ⟨h.sq, fun p => ?_, h.admin⟩
  by_cases hp : p = q
  · simpa [hp] using hc
  · simpa [hp] using h.cq p

theorem queuesDown (h : n.RingsOk) : (nvmeQueuesDown n).RingsOk := by
  refine ⟨fun _ he => ?_, fun _ he => ?_, h.admin⟩
  · cases he
  · cases he

theorem enable (h : n.RingsOk) : (nvmeEnable n).RingsOk := by
  have hs := adminSize n.aqa
  have hc := adminSize (n.aqa >>> 16)
  refine ((setCq (setSq h ?_ fun _ => rfl) ?_).congr rfl rfl)
  · intro _
    exact ⟨hs.1, hs.2.trans (by decide), hs.1, (by decide : (0 : ℕ) < nvmeMaxQueues)⟩
  · intro _
    exact ⟨hc.1, hc.2.trans (by decide), hc.1⟩

theorem ccWrite (h : n.RingsOk) (v : BitVec 32) : (nvmeCcWrite n v).RingsOk := by
  have h₁ : (nvmeCcEnable { n with cc := v } n.cc).RingsOk := by
    have h₀ : ({ n with cc := v } : NvmeCtrl).RingsOk := h.congr rfl rfl
    rw [nvmeCcEnable]
    split_ifs
    · exact h₀.enable
    · exact h₀.queuesDown.congr rfl rfl
    · exact h₀
  rw [nvmeCcWrite, nvmeCcShutdown]
  split_ifs
  · exact h₁.queuesDown.congr rfl rfl
  · exact h₁.congr rfl rfl
  · exact h₁

end NvmeCtrl.RingsOk

/-- A register write is a CC write or leaves queues, surroundings, namespace, CC and CSTS alone. -/
theorem nvmeRegStore_cases (n : NvmeCtrl) (offset : ℕ) (v : BitVec 64) (count : ℕ) :
    (offset = nvmeRegCc ∧ nvmeRegStore n offset v count = nvmeCcWrite n (v.setWidth 32)) ∨
    (offset ≠ nvmeRegCc ∧ ∃ intms intmc aqa asq acq, nvmeRegStore n offset v count =
      { n with intms := intms, intmc := intmc, aqa := aqa, asq := asq, acq := acq }) := by
  by_cases hc : offset = nvmeRegCc
  · left
    subst hc
    exact ⟨rfl, rfl⟩
  · right
    refine ⟨hc, ?_⟩
    simp only [nvmeRegStore, hc, if_false]
    split_ifs <;> exact ⟨_, _, _, _, _, rfl⟩

/-- A CC write leaves the surroundings alone, but for the log of an enable. -/
theorem nvmeCcWrite_world (n : NvmeCtrl) (v : BitVec 32) :
    (nvmeCcWrite n v).world = if ccEn v && !ccEn n.cc then
      (n.world.log (.sqInit 0 0)).log (.cqInit 0 (((n.aqa >>> 16) &&& 0xfff) + 1).toNat)
    else n.world := by
  have hshut (m : NvmeCtrl) (old : BitVec 32) : (nvmeCcShutdown m old).world = m.world := by
    rw [nvmeCcShutdown]
    split_ifs <;> rfl
  rw [nvmeCcWrite, hshut, nvmeCcEnable]
  split_ifs <;> rfl

theorem Executed.ringsOk {n n' : NvmeCtrl} {heap : Heap} {q : QueueId} {sqe : NvmeSqe}
    {st : Status} {cdw0 : BitVec 32} (hx : Executed n heap q sqe st cdw0 n') (h : n.RingsOk) :
    n'.RingsOk := by
  cases hx with
  | createCq hq ho hc => exact (h.setCq fun _ => createdCq_ok sqe).congr rfl rfl
  | createSq hq ho hs hl =>
    obtain ⟨c, hc, -⟩ := liveCq_iff.mp hl
    refine (h.setSq (fun _ => createdSq_ok (hc ▸ c.isLt)) fun hz => ?_).congr rfl rfl
    exact absurd hz (ioQueue_some hs).1
  | deleteCq hq ho hc => exact h.setCq fun he => by cases he
  | deleteSq hq ho hs => exact h.setSq (fun he => by cases he) fun hz => absurd hz (ioQueue_some hs).1
  | _ => exact h.congr rfl rfl

theorem Completed.ringsOk {n n' : NvmeCtrl} {heap : Heap} {q : QueueId} {sqe : NvmeSqe}
    {st : Status} {cdw0 : BitVec 32} (hp : Completed n heap q sqe cdw0 st n') (h : n.RingsOk) :
    n'.RingsOk := by
  cases hp with
  | silent | dropped => exact h
  | @posted _ c _ he =>
    obtain ⟨hsq, hcq, -⟩ := nvmePostTo_frame n heap c
      (cqeFor (n.cq c) (BitVec.ofNat 16 q.val) (n.sq q).head sqe.cid cdw0 st)
    exact (h.setCq fun _ => (h.cq c he).advance).congr hsq hcq

theorem NvmeCtrl.RingsOk.fetched {n : NvmeCtrl} {q : QueueId} (h : n.RingsOk)
    (he : (n.sq q).enabled = true) (w : World) : (n.fetched q w).RingsOk := by
  have hw : (n.withWorld w).RingsOk := h.congr rfl rfl
  refine hw.setSq (fun _ => (h.sq q he).nextHead) fun hq => ?_
  rw [hq]
  exact h.admin

/-- Ring bounds, and the queue being drained is enabled. -/
structure Device.Ok (d : Device) : Prop where
  rings : d.n.RingsOk
  busy : ∀ q, d.busy = some q → (d.n.sq q).enabled = true

theorem Consumed.ok {n n' : NvmeCtrl} {heap : Heap} {q : QueueId} (hc : Consumed n heap q n')
    (h : n.RingsOk) (he : (n.sq q).enabled = true) :
    n'.RingsOk ∧ (n'.sq q).enabled = true := by
  obtain ⟨hsize, hfetch, hx, hp⟩ := hc
  rename_i w st cdw0 n₁
  have h₁ := hx.ringsOk (h.fetched he w)
  refine ⟨hp.ringsOk (h₁.congr rfl rfl), ?_⟩
  rw [hp.frame.1, NvmeCtrl.log_sq, hx.sq_self]
  simpa [NvmeCtrl.fetched] using he

theorem StepCase.ok {d d' : Device} {i : Input} (hs : StepCase d i d') (h : d.Ok) : d'.Ok := by
  cases hs with
  | read | msixRead => exact ⟨h.rings.congr rfl rfl, by simp⟩
  | noQueue | msixFailed | finished | fetchFailed => exact ⟨h.rings, by simp⟩
  | @cqHead hb offset buf q val hd =>
    refine ⟨(h.rings.setCq fun he => ?_).congr rfl rfl, by simp⟩
    obtain ⟨h₁, h₂, h₃⟩ := h.rings.cq q he
    exact ⟨h₁, h₂, h₃⟩
  | @sqTail hb offset buf q val hd =>
    refine ⟨h.rings.setSq (fun he => ?_) fun hq => hq ▸ h.rings.admin, fun p hp => ?_⟩
    · obtain ⟨h₁, h₂, h₃, h₄⟩ := h.rings.sq q he
      exact ⟨h₁, h₂, h₃, h₄⟩
    · split at hp
      · rename_i he
        rw [← Option.some.inj hp]
        simpa using he
      · cases hp
  | @register hb offset buf ho v hv =>
    refine ⟨?_, by simp⟩
    rcases nvmeRegStore_cases d.n offset v buf.length with ⟨-, he⟩ | ⟨-, _, _, _, _, _, he⟩
    · rw [he]
      exact h.rings.ccWrite _
    · rw [he]
      exact h.rings.congr rfl rfl
  | msixWrite => exact ⟨h.rings.congr rfl rfl, by simp⟩
  | reset => exact ⟨h.rings.queuesDown.congr rfl rfl, by simp⟩
  | @consumed heap q hb hh hx n hc =>
    obtain ⟨hr, he⟩ := hc.ok h.rings (h.busy q hb)
    exact ⟨hr, fun p hp => Option.some.inj hp ▸ he⟩
  | hostMemory | dmaRegions => exact ⟨h.rings.congr rfl rfl, h.busy⟩

theorem Device.Initial.ok {maxNumKeys : BitVec 32} {d : Device} (h : Initial maxNumKeys d) :
    d.Ok := by
  obtain ⟨⟨heap, world, hi, -⟩, hb⟩ := h
  obtain ⟨ns, -, hn⟩ := Option.map_eq_some_iff.mp hi
  refine ⟨?_, by simp [hb]⟩
  rw [← hn]
  refine ⟨fun _ he => ?_, fun _ he => ?_, rfl⟩
  · cases he
  · cases he

theorem Device.Initial.queues_off {maxNumKeys : BitVec 32} {d : Device}
    (h : Initial maxNumKeys d) :
    (∀ q, (d.n.sq q).enabled = false) ∧ ∀ c, (d.n.cq c).enabled = false := by
  obtain ⟨⟨heap, world, hi, -⟩, -⟩ := h
  obtain ⟨ns, -, hn⟩ := Option.map_eq_some_iff.mp hi
  rw [← hn]
  exact ⟨fun _ => rfl, fun _ => rfl⟩

/-- An invariant of every step case that holds initially holds in every reachable state. -/
theorem Device.Reachable.invariant {I : Device → Prop} {maxNumKeys : BitVec 32} {d : Device}
    (h : Reachable maxNumKeys d) (hinit : ∀ d₀, Initial maxNumKeys d₀ → I d₀)
    (hstep : ∀ d i d', I d → StepCase d i d' → I d') : I d := by
  obtain ⟨d₀, h₀, hr⟩ := h
  exact hr.invariant (fun s e t hi _ hs => hstep s e t hi (step_cases hs)) (hinit d₀ h₀)

theorem Device.Reachable.trans {maxNumKeys : BitVec 32} {d d' : Device} (h : Reachable maxNumKeys d)
    (hr : Reaches step (fun _ _ => True) d d') : Reachable maxNumKeys d' := by
  obtain ⟨d₀, h₀, hr₀⟩ := h
  exact ⟨d₀, h₀, hr₀.trans hr⟩

theorem Device.Reachable.next {maxNumKeys : BitVec 32} {d d' : Device} (h : Reachable maxNumKeys d)
    {i : Input} (hs : d.step i = some d') : Reachable maxNumKeys d' :=
  h.trans (.single i trivial hs)

theorem Device.Reachable.ok {maxNumKeys : BitVec 32} {d : Device} (h : Reachable maxNumKeys d) :
    d.Ok :=
  h.invariant (fun _ h₀ => h₀.ok) fun _ _ _ hi hs => hs.ok hi

end VfuKvssd
