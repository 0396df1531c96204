import VfuKvssd.Controller.Alike
import VfuKvssd.Controller.Progress

/-! # What disabled queues hold is not observable

Deleting a queue, disabling the controller and resetting it only clear flags, and
doorbells keep writing to queues that are down. Two controllers that differ in
nothing but what such queues hold answer every access alike.
-/
namespace VfuKvssd
open Foundations

/-- Both enabled and equal, or both disabled. -/
def sameSq (_ : QueueId) (s s' : NvmeSq) : Prop :=
  s.enabled = s'.enabled ∧ (s.enabled = true → s = s')

def sameCq (_ : QueueId) (x y : NvmeCq) : Prop :=
  x.enabled = y.enabled ∧ (x.enabled = true → x = y)

/-- The controller looks at a queue only once it has found it enabled. -/
theorem queueRel_same : QueueRel sameSq sameCq where
  sqRefl _ _ := ⟨rfl, fun _ => rfl⟩
  sqEnabled h := h.1
  sqView h he := by
    rw [h.2 he]
    exact ⟨rfl, rfl, rfl, rfl⟩
  sqFetch h he := by
    rw [h.2 he]
    exact ⟨rfl, fun _ => rfl⟩
  sqDisable _ := ⟨rfl, fun he => nomatch he⟩
  cqRefl _ _ := ⟨rfl, fun _ => rfl⟩
  cqEnabled h := h.1
  cqView h he := h.2 he
  cqDisable _ := ⟨rfl, fun he => nomatch he⟩

/-! ## Registers -/

namespace NvmeCtrl.Alike
variable {t₁ t₂ : List Event} {n₁ n₂ : NvmeCtrl}

/-- Outside the surroundings and the queues the two are one controller. -/
theorem eq_with (h : Alike sameSq sameCq t₁ t₂ n₁ n₂) :
    n₁ = { n₂ with world := n₁.world, sq := n₁.sq, cq := n₁.cq } :=
  congrArg (fun n : NvmeCtrl => { n with world := n₁.world, sq := n₁.sq, cq := n₁.cq }) h.rest

theorem update (h : Alike sameSq sameCq t₁ t₂ n₁ n₂) (f : NvmeCtrl → NvmeCtrl)
    (hf : ∀ n, (f n).core = f n.core := by intro; rfl)
    (hk : ∀ n, (f n).world = n.world ∧ (f n).sq = n.sq ∧ (f n).cq = n.cq := by
      intro; exact ⟨rfl, rfl, rfl⟩) : Alike sameSq sameCq t₁ t₂ (f n₁) (f n₂) := by
  refine ⟨?_, ?_, ?_, ?_⟩
  · rw [(hk n₁).1, (hk n₂).1]
    exact h.world
  · rw [(hk n₁).2.1, (hk n₂).2.1]
    exact h.sq
  · rw [(hk n₁).2.2, (hk n₂).2.2]
    exact h.cq
  · rw [hf, hf, h.rest]

theorem enable (h : Alike sameSq sameCq t₁ t₂ n₁ n₂) :
    Alike sameSq sameCq t₁ t₂ (nvmeEnable n₁) (nvmeEnable n₂) := by
  have hrdy := h.update fun n => { n with csts := nvmeCstsRdy }
  rw [h.eq_with] at hrdy ⊢
  exact (((hrdy.setSq (queueRel_same.sqRefl _ _)).setCq (queueRel_same.cqRefl _ _)).log _).log _

theorem queuesDown (h : Alike sameSq sameCq t₁ t₂ n₁ n₂) :
    Alike sameSq sameCq t₁ t₂ (nvmeQueuesDown n₁) (nvmeQueuesDown n₂) :=
  ⟨h.world, fun q => queueRel_same.sqDisable (h.sq q), fun c => queueRel_same.cqDisable (h.cq c),
    h.rest⟩

theorem disable (h : Alike sameSq sameCq t₁ t₂ n₁ n₂) :
    Alike sameSq sameCq t₁ t₂ (nvmeDisable n₁) (nvmeDisable n₂) :=
  h.queuesDown.update fun n =>
    { n with csts := n.csts &&& ~~~(nvmeCstsRdy ||| nvmeCstsShstMask) }

theorem ctrlReset (h : Alike sameSq sameCq t₁ t₂ n₁ n₂) :
    Alike sameSq sameCq t₁ t₂ (nvmeCtrlReset n₁) (nvmeCtrlReset n₂) :=
  h.disable.update fun n =>
    { n with cc := 0, csts := 0, aqa := 0, asq := 0, acq := 0, intms := 0, intmc := 0 }

theorem ccEnable (h : Alike sameSq sameCq t₁ t₂ n₁ n₂) (old : BitVec 32) :
    Alike sameSq sameCq t₁ t₂ (nvmeCcEnable n₁ old) (nvmeCcEnable n₂ old) := by
  have hcc : n₁.cc = n₂.cc := (congrArg NvmeCtrl.cc h.rest :)
  simp only [nvmeCcEnable, hcc]
  split_ifs
  · exact h.enable
  · exact h.disable
  · exact h

theorem ccShutdown (h : Alike sameSq sameCq t₁ t₂ n₁ n₂) (old : BitVec 32) :
    Alike sameSq sameCq t₁ t₂ (nvmeCcShutdown n₁ old) (nvmeCcShutdown n₂ old) := by
  have hcc : n₁.cc = n₂.cc := (congrArg NvmeCtrl.cc h.rest :)
  have hshut := h.queuesDown.update fun n =>
    { n with csts := (n.csts &&& ~~~nvmeCstsShstMask) ||| nvmeCstsShstComplete }
  have hback := h.update fun n => { n with csts := n.csts &&& ~~~nvmeCstsShstMask }
  simp only [nvmeCcShutdown]
  rw [show ccShn n₁.cc = ccShn n₂.cc by rw [hcc]]
  split_ifs
  · exact hshut
  · exact hback
  · exact h

theorem ccWrite (h : Alike sameSq sameCq t₁ t₂ n₁ n₂) (v : BitVec 32) :
    Alike sameSq sameCq t₁ t₂ (nvmeCcWrite n₁ v) (nvmeCcWrite n₂ v) := by
  have hcc : n₁.cc = n₂.cc := (congrArg NvmeCtrl.cc h.rest :)
  have hset := h.update fun n => { n with cc := v }
  have hall := (hset.ccEnable n₁.cc).ccShutdown n₁.cc
  rw [nvmeCcWrite, nvmeCcWrite, ← hcc]
  exact hall

theorem regStore (h : Alike sameSq sameCq t₁ t₂ n₁ n₂) (offset : ℕ) (v : BitVec 64) (count : ℕ) :
    Alike sameSq sameCq t₁ t₂ (nvmeRegStore n₁ offset v count) (nvmeRegStore n₂ offset v count) := by
  rw [nvmeRegStore, nvmeRegStore]
  refine related_ite (h.update fun n => { n with intms := v.setWidth 32 }) ?_
  refine related_ite (h.update fun n => { n with intmc := v.setWidth 32 }) ?_
  refine related_ite (h.ccWrite _) ?_
  refine related_ite (h.update fun n => { n with aqa := v.setWidth 32 }) ?_
  refine related_ite (h.update fun n => { n with asq := writeLow n.asq v count }) ?_
  refine related_ite (h.update fun n => { n with asq := writeHigh n.asq v }) ?_
  refine related_ite (h.update fun n => { n with acq := writeLow n.acq v count }) ?_
  exact related_ite (h.update fun n => { n with acq := writeHigh n.acq v }) h

theorem regRead (h : Alike sameSq sameCq t₁ t₂ n₁ n₂) (offset count : ℕ) :
    nvmeRegRead n₁ offset count = nvmeRegRead n₂ offset count := by
  have hregs : nvmeRegs n₁.core = nvmeRegs n₂.core := congrArg nvmeRegs h.rest
  have hc (n : NvmeCtrl) : nvmeRegs n.core = nvmeRegs n := rfl
  rw [hc, hc] at hregs
  rw [nvmeRegRead, nvmeRegRead, hregs]

/-! ## Accesses and iterations -/

theorem reply (h : Alike sameSq sameCq t₁ t₂ n₁ n₂) (isWrite : Bool) (buf : List Byte) :
    Alike sameSq sameCq t₁ t₂ (n₁.reply isWrite buf) (n₂.reply isWrite buf) := by
  rw [NvmeCtrl.reply, NvmeCtrl.reply]
  split
  · exact h
  · exact h.log _

theorem sqTail (h : Alike sameSq sameCq t₁ t₂ n₁ n₂) (q : QueueId) (val : BitVec 16) :
    Alike sameSq sameCq t₁ t₂ (n₁.setSq q { n₁.sq q with tail := val })
      (n₂.setSq q { n₂.sq q with tail := val }) := by
  obtain ⟨hen, heq⟩ := h.sq q
  exact h.setSq ⟨hen, fun he => by rw [heq he]⟩

theorem cqHead (h : Alike sameSq sameCq t₁ t₂ n₁ n₂) (q : QueueId) (val : BitVec 16) :
    Alike sameSq sameCq t₁ t₂ (n₁.setCq q { n₁.cq q with head := val })
      (n₂.setCq q { n₂.cq q with head := val }) := by
  obtain ⟨hen, heq⟩ := h.cq q
  exact h.setCq ⟨hen, fun he => by rw [heq he]⟩

/-- Alike controllers, equal buffers and the same queue to process. -/
def SameAccess (t₁ t₂ : List Event) (r₁ r₂ : NvmeCtrl × List Byte × Option QueueId) : Prop :=
  Alike sameSq sameCq t₁ t₂ r₁.1 r₂.1 ∧ r₁.2 = r₂.2

theorem bar0Access (h : Alike sameSq sameCq t₁ t₂ n₁ n₂) (buf : List Byte) (offset : ℕ)
    (isWrite : Bool) :
    Option.Rel (SameAccess t₁ t₂) (nvmeBar0Access n₁ buf offset isWrite)
      (nvmeBar0Access n₂ buf offset isWrite) := by
  rw [nvmeBar0Access, nvmeBar0Access]
  split
  · split
    · cases rdLe buf with
      | none => exact .none
      | some v =>
        dsimp only
        split
        swap
        · exact .some ⟨h, rfl⟩
        rename_i hq
        split
        · exact .some ⟨(h.cqHead _ _).log _, rfl⟩
        · refine .some ⟨h.sqTail _ _, ?_⟩
          simp only [NvmeCtrl.setSq_sq, Function.update_self, (h.sq _).1]
    · exact .some ⟨h, rfl⟩
  · split
    · rw [nvmeRegWrite, nvmeRegWrite]
      cases rdLe buf with
      | none => exact .none
      | some v => exact .some ⟨h.regStore offset v buf.length, rfl⟩
    · exact .some ⟨h, by rw [h.regRead]⟩

theorem msixAccess (h : Alike sameSq sameCq t₁ t₂ n₁ n₂) (buf : List Byte) (offset : ℕ)
    (isWrite : Bool) :
    (nvmeMsixAccess n₁ buf offset isWrite).1 = (nvmeMsixAccess n₂ buf offset isWrite).1 ∧
      Alike sameSq sameCq t₁ t₂ (nvmeMsixAccess n₁ buf offset isWrite).2.1
        (nvmeMsixAccess n₂ buf offset isWrite).2.1 ∧
      (nvmeMsixAccess n₁ buf offset isWrite).2.2 = (nvmeMsixAccess n₂ buf offset isWrite).2.2 := by
  have hregion : n₁.msixRegion = n₂.msixRegion := (congrArg NvmeCtrl.msixRegion h.rest :)
  have hset := h.update fun n => { n with msixRegion := n.msixRegion.copy offset buf }
  rw [nvmeMsixAccess, nvmeMsixAccess]
  split
  · exact ⟨rfl, h, rfl⟩
  split
  · exact ⟨rfl, hset, rfl⟩
  · exact ⟨rfl, h, by rw [hregion]⟩

theorem iterateSame (h : Alike sameSq sameCq t₁ t₂ n₁ n₂) (heap : Heap) {q : QueueId}
    (he : (n₁.sq q).enabled = true) :
    Option.Rel (SameIteration sameSq sameCq t₁ t₂) (nvmeProcessSqStep n₁ heap q)
      (nvmeProcessSqStep n₂ heap q) := by
  refine h.processSqStep queueRel_same heap he ?_
  rw [(h.sq q).2 he]

end NvmeCtrl.Alike

/-! ## The device -/

namespace Device

/-- The same queue is being drained, and the controllers are alike. -/
structure Alike (t₁ t₂ : List Event) (d₁ d₂ : Device) : Prop where
  n : NvmeCtrl.Alike sameSq sameCq t₁ t₂ d₁.n d₂.n
  busy : d₁.busy = d₂.busy

variable {t₁ t₂ : List Event} {d₁ d₂ : Device}

theorem Alike.step (h : Alike t₁ t₂ d₁ d₂) (hok : d₁.Ok) (i : Input) :
    Option.Rel (Alike t₁ t₂) (d₁.step i) (d₂.step i) := by
  obtain ⟨n₁, busy⟩ := d₁
  obtain ⟨n₂, _⟩ := d₂
  obtain ⟨hn, hb⟩ := h
  dsimp only at hn hb
  subst hb
  cases i with
  | bar0 isWrite offset buf =>
    cases busy with
    | some q => exact .none
    | none =>
      have ha := hn.bar0Access buf offset isWrite
      simp only [Device.step]
      generalize nvmeBar0Access n₁ buf offset isWrite = r₁ at ha ⊢
      generalize nvmeBar0Access n₂ buf offset isWrite = r₂ at ha ⊢
      cases ha with
      | none => exact .none
      | some ha =>
        obtain ⟨hn, hr⟩ := ha
        refine .some ⟨?_, by simp only [hr]⟩
        dsimp only
        rw [hr]
        exact hn.reply _ _
  | msix isWrite offset buf =>
    cases busy with
    | some q => exact .none
    | none =>
      obtain ⟨hfit, ha, hr⟩ := hn.msixAccess buf offset isWrite
      refine .some ⟨?_, rfl⟩
      dsimp only
      rw [hfit, hr]
      split
      · exact ha.reply _ _
      · exact ha
  | reset =>
    cases busy with
    | some q => exact .none
    | none => exact .some ⟨hn.ctrlReset, rfl⟩
  | iterate heap =>
    cases busy with
    | none => exact .none
    | some q =>
      have hp := hn.iterateSame heap (hok.busy q rfl)
      simp only [Device.step]
      generalize nvmeProcessSqStep n₁ heap q = r₁ at hp ⊢
      generalize nvmeProcessSqStep n₂ heap q = r₂ at hp ⊢
      cases hp with
      | none => exact .none
      | some hp => exact .some ⟨hp.1, by simp only [hp.2]⟩
  | hostMemory mem => exact .some ⟨hn.withWorld ⟨hn.world.vfu, rfl, hn.world.trace⟩, rfl⟩
  | dmaRegions vfu => exact .some ⟨hn.withWorld ⟨rfl, hn.world.mem, hn.world.trace⟩, rfl⟩

/-- Devices over the same guest that agree on everything but what their disabled queues hold. -/
structure Equivalent (d₁ d₂ : Device) : Prop where
  vfu : d₁.n.world.vfu = d₂.n.world.vfu
  mem : d₁.n.world.mem = d₂.n.world.mem
  sq : ∀ q, sameSq q (d₁.n.sq q) (d₂.n.sq q)
  cq : ∀ c, sameCq c (d₁.n.cq c) (d₂.n.cq c)
  rest : d₁.n.core = d₂.n.core
  busy : d₁.busy = d₂.busy

theorem Equivalent.alike (h : Equivalent d₁ d₂) :
    Alike d₁.n.world.trace d₂.n.world.trace d₁ d₂ :=
  ⟨⟨⟨h.vfu, h.mem, [], by simp, by simp⟩, h.sq, h.cq, h.rest⟩, h.busy⟩

theorem Alike.equivalent (h : Alike t₁ t₂ d₁ d₂) : Equivalent d₁ d₂ :=
  ⟨h.n.world.vfu, h.n.world.mem, h.n.sq, h.n.cq, h.n.rest, h.busy⟩

theorem Alike.run (h : Alike t₁ t₂ d₁ d₂) (hok : d₁.Ok) (inputs : List Input) :
    Option.Rel (fun e₁ e₂ => Alike t₁ t₂ e₁ e₂ ∧ e₁.Ok) (run Device.step d₁ inputs)
      (run Device.step d₂ inputs) := by
  refine run_related (R := fun e₁ e₂ => Alike t₁ t₂ e₁ e₂ ∧ e₁.Ok) ?_ ⟨h, hok⟩ inputs
  rintro e₁ e₂ i ⟨ha, hok⟩
  have hs := ha.step hok i
  have hnext {e : Device} (he : e₁.step i = some e) : e.Ok := (step_cases he).ok hok
  revert hnext
  generalize e₁.step i = r₁ at hs ⊢
  generalize e₂.step i = r₂ at hs ⊢
  intro hnext
  cases hs with
  | none => exact .none
  | some hs => exact .some ⟨hs, hnext rfl⟩

/-- Reads answered, guest memory written and interrupts raised are events of the log; the two runs
add the same ones and end equivalent, or neither is defined. -/
theorem Reachable.equivalent_run {maxNumKeys : BitVec 32} (h₁ : Reachable maxNumKeys d₁)
    (h : Equivalent d₁ d₂) (inputs : List Input) :
    Option.Rel (fun e₁ e₂ => Equivalent e₁ e₂ ∧ ∃ es, e₁.n.world.trace = d₁.n.world.trace ++ es ∧
        e₂.n.world.trace = d₂.n.world.trace ++ es)
      (run Device.step d₁ inputs) (run Device.step d₂ inputs) := by
  have hr := h.alike.run h₁.ok inputs
  generalize VfuKvssd.Foundations.run Device.step d₁ inputs = r₁ at hr ⊢
  generalize VfuKvssd.Foundations.run Device.step d₂ inputs = r₂ at hr ⊢
  cases hr with
  | none => exact .none
  | some hr => exact .some ⟨hr.1.equivalent, hr.1.n.world.trace⟩

/-- Completion queue 5 of 16 entries at 0x20000, and submission queue 5 at 0x30000 on it. -/
def createFive : List Input :=
  enableAdmin ++ [.hostMemory (memoryOf [(0, 5), (26, 2), (40, 5), (42, 15), (64, 1), (90, 3),
    (104, 5), (106, 15), (110, 5)]), sqTailWrite 0 2] ++ iterations 3

/-- A late doorbell on a queue that is down, which is then created. -/
theorem Reachable.equivalent_run_lateDoorbell :
    ∃ d₁ d₂ e₁ e₂, Reachable 1 d₁ ∧ Reachable 1 d₂ ∧ (d₁.n.sq 5).tail ≠ (d₂.n.sq 5).tail ∧
      Equivalent d₁ d₂ ∧ VfuKvssd.Foundations.run Device.step d₁ createFive = some e₁ ∧
      VfuKvssd.Foundations.run Device.step d₂ createFive = some e₂ ∧
      (e₁.n.sq 5).enabled = true ∧ e₂.n.sq 5 = e₁.n.sq 5 ∧ Equivalent e₁ e₂ ∧
      ∃ es, e₁.n.world.trace = d₁.n.world.trace ++ es ∧
        e₂.n.world.trace = d₂.n.world.trace ++ es := by
  have hrun : ((bootRun 1 (fun _ _ => true) []).bind fun d =>
      (VfuKvssd.Foundations.run Device.step d createFive).map fun e =>
        (d.n.sq 5, d.busy, (e.n.sq 5).enabled)) = some (NvmeSq.zero, none, true) := by
    decide +kernel
  obtain ⟨d, hd, hmap⟩ := Option.bind_eq_some_iff.mp hrun
  obtain ⟨e₁, he₁, hobs⟩ := Option.map_eq_some_iff.mp hmap
  obtain ⟨hsq, hobs⟩ := Prod.mk.inj hobs
  obtain ⟨hb, hen⟩ := Prod.mk.inj hobs
  have hr : Reachable 1 d := reachable_of_bootRun hd
  have hs := step_sqTailWrite hb 5 3
  rw [hsq, if_neg (by decide)] at hs
  have he : Equivalent d ⟨d.n.setSq 5 { NvmeSq.zero with tail := 3 }, none⟩ := by
    refine ⟨rfl, rfl, fun q => ?_, fun c => queueRel_same.cqRefl c _, rfl, hb⟩
    by_cases hq : q = 5
    · subst hq
      rw [hsq, NvmeCtrl.setSq_sq, Function.update_self]
      exact ⟨rfl, fun he => nomatch he⟩
    · rw [NvmeCtrl.setSq_sq, Function.update_of_ne hq]
      exact queueRel_same.sqRefl q _
  have hrel := hr.equivalent_run he createFive
  rw [he₁] at hrel
  generalize h₂ : VfuKvssd.Foundations.run Device.step
    ⟨d.n.setSq 5 { NvmeSq.zero with tail := 3 }, none⟩ createFive = r₂ at hrel
  cases hrel with
  | @some _ e₂ hrel =>
    refine ⟨d, _, e₁, e₂, hr, hr.next hs, ?_, he, he₁, h₂, hen, ?_, hrel⟩
    · rw [hsq, NvmeCtrl.setSq_sq, Function.update_self]
      decide
    · exact ((hrel.1.sq 5).2 hen).symm

end Device

end VfuKvssd
