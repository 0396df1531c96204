import VfuKvssd.Controller.Lifecycle
import VfuKvssd.Controller.Progress

/-! # Readiness

Which runs keep the promise that CC.EN, CSTS.RDY and CSTS.SHST make. The only
step that breaks it withdraws a shutdown notification while EN stays set: it
clears SHST alone, over queues that are down.
-/
namespace VfuKvssd
open Foundations

/-- A CC write that keeps EN set and clears SHN of a controller that has shut down. -/
def withdrawsShutdown (d : Device) : Input → Bool
  | .bar0 true offset buf =>
    match rdLe buf with
    | some v => offset == nvmeRegCc && ccEn d.n.cc && ccEn (v.setWidth 32) &&
        ccShn (v.setWidth 32) == 0 && cstsShst d.n.csts == nvmeCstsShstComplete
    | none => false
  | _ => false

/-- Registers that read EN, RDY and no shutdown. -/
def NvmeCtrl.ClaimsReady (n : NvmeCtrl) : Prop :=
  ccEn n.cc = true ∧ cstsRdy n.csts = true ∧ cstsShst n.csts = 0

/-- The claim is backed by both admin queues. -/
def NvmeCtrl.Ready (n : NvmeCtrl) : Prop :=
  n.ClaimsReady → (n.sq 0).enabled = true ∧ (n.cq 0).enabled = true

theorem nvmeCcWrite_cc (n : NvmeCtrl) (v : BitVec 32) : (nvmeCcWrite n v).cc = v := by
  rw [nvmeCcWrite, nvmeCcShutdown, nvmeCcEnable]
  split_ifs <;> rfl

theorem nvmeCcShutdown_ready {m : NvmeCtrl} {old : BitVec 32}
    (hset : ¬ (ccShn m.cc ≠ 0 ∧ ccShn old = 0))
    (h : (m.sq 0).enabled = true ∧ (m.cq 0).enabled = true) : (nvmeCcShutdown m old).Ready := by
  intro _
  rw [nvmeCcShutdown, if_neg (by simpa using hset)]
  split_ifs <;> exact h

/-- After a shutdown notification nothing is claimed. -/
theorem nvmeCcShutdown_notified {m : NvmeCtrl} {old shn : BitVec 32} (hc : m.CoherentAt shn)
    (hset : ccShn m.cc ≠ 0 ∧ ccShn old = 0) : ¬ (nvmeCcShutdown m old).ClaimsReady := by
  rw [nvmeCcShutdown, if_pos (by simpa using hset)]
  rintro ⟨-, -, hshst⟩
  rcases csts_shutdown hc.csts with ⟨hx, -⟩ | ⟨hx, -⟩
  · exact absurd ((congrArg cstsShst hx).symm.trans hshst) (by decide)
  · exact absurd ((congrArg cstsShst hx).symm.trans hshst) (by decide)

theorem NvmeCtrl.Ready.ccWrite {n : NvmeCtrl} (h : n.Ready) (hc : n.Coherent) {v : BitVec 32}
    (hw : ¬ (ccEn n.cc = true ∧ ccEn v = true ∧ ccShn v = 0 ∧
      cstsShst n.csts = nvmeCstsShstComplete)) : (nvmeCcWrite n v).Ready := by
  have hcc := nvmeCcWrite_cc n v
  by_cases hset : ccShn v ≠ 0 ∧ ccShn n.cc = 0
  · intro hready
    have hm : (nvmeCcEnable { n with cc := v } n.cc).cc = v := by
      rw [nvmeCcEnable]
      split_ifs <;> rfl
    exact absurd hready (nvmeCcShutdown_notified (hc.ccEnable v) (by rw [hm]; exact hset))
  intro hready
  have hen : ccEn v = true := hcc ▸ hready.1
  revert hready
  cases hold : ccEn n.cc with
  | false =>
    have hm : nvmeCcEnable { n with cc := v } n.cc = nvmeEnable { n with cc := v } := by
      simp [nvmeCcEnable, hold, hen]
    rw [nvmeCcWrite, hm]
    exact nvmeCcShutdown_ready hset ⟨rfl, rfl⟩
  | true =>
    have hm : nvmeCcEnable { n with cc := v } n.cc = { n with cc := v } := by
      simp [nvmeCcEnable, hold, hen]
    by_cases hshst : cstsShst n.csts = 0
    · rw [nvmeCcWrite, hm]
      exact nvmeCcShutdown_ready hset (h ⟨hold, hc.ready.trans hold, hshst⟩)
    · -- shut down and staying so: the write does not clear SHN
      have hdone := (csts_shst hc.csts).resolve_left hshst
      have hv : ccShn v ≠ 0 := fun hz => hw ⟨hold, hen, hz, hdone⟩
      rw [nvmeCcWrite, hm, nvmeCcShutdown, if_neg (by simpa using hset),
        if_neg (by simpa using fun hz => absurd hz hv)]
      rintro ⟨-, -, hz⟩
      exact absurd hz hshst

theorem StepCase.ready {d d' : Device} {i : Input} (hs : StepCase d i d') (hok : d.Ok)
    (hc : d.n.Coherent) (hw : withdrawsShutdown d i = false) (h : d.n.Ready) : d'.n.Ready := by
  cases hs with
  | @cqHead hb offset buf q val hd =>
    intro hr
    obtain ⟨h₁, h₂⟩ := h hr
    refine ⟨h₁, ?_⟩
    by_cases hq : 0 = q
    · simpa [← hq] using h₂
    · simpa [hq] using h₂
  | @sqTail hb offset buf q val hd =>
    intro hr
    obtain ⟨h₁, h₂⟩ := h hr
    refine ⟨?_, h₂⟩
    by_cases hq : 0 = q
    · simpa [← hq] using h₁
    · simpa [hq] using h₁
  | @register hb offset buf ho v hv =>
    rcases nvmeRegStore_cases d.n offset v buf.length with ⟨hoff, he⟩ | ⟨-, _, _, _, _, _, he⟩
    · simp only [he]
      refine h.ccWrite hc fun ⟨h₁, h₂, h₃, h₄⟩ => ?_
      simp [withdrawsShutdown, hv, hoff, h₁, h₂, h₃, h₄] at hw
    · rw [he]
      exact h
  | reset hb =>
    rintro ⟨hen, -, -⟩
    exact absurd hen (by decide : ¬ ccEn 0 = true)
  | @consumed heap q hb hh hx n hcons =>
    intro _
    have hlive := (hcons.ok hok.rings (hok.busy q hb)).2
    have hcoh := hcons.coherent hc (hok.busy q hb)
    have hbusy : ¬ n.Quiet := fun hq => by
      rw [(hq q).1] at hlive
      cases hlive
    exact ⟨(hcoh.live hbusy).1, (hcoh.live hbusy).2.1⟩
  | read | noQueue | msixRead | msixFailed | msixWrite | finished | fetchFailed | hostMemory
  | dmaRegions =>
    exact h

theorem Device.ready_of_reaches {maxNumKeys : BitVec 32} {d₀ d : Device}
    (h₀ : Initial maxNumKeys d₀)
    (hr : Reaches step (fun d i => withdrawsShutdown d i = false) d₀ d) :
    d.Ok ∧ d.n.Coherent ∧ d.n.Ready := by
  apply hr.invariant (I := fun d => d.Ok ∧ d.n.Coherent ∧ d.n.Ready)
  · rintro s i t ⟨hok, hc, h⟩ hw hs
    have hcase := step_cases hs
    exact ⟨hcase.ok hok, hcase.coherent hok hc, hcase.ready hok hc hw h⟩
  · refine ⟨h₀.ok, h₀.coherent, ?_⟩
    rintro ⟨hen, hrdy, -⟩
    exfalso
    obtain ⟨⟨heap, world, hi, -⟩, -⟩ := h₀
    obtain ⟨ns, -, hn⟩ := Option.map_eq_some_iff.mp hi
    rw [← hn] at hen
    exact absurd hen (by decide : ¬ ccEn 0 = true)

/-- The next admin command was fetched, run and, unless it is an Asynchronous Event Request,
completed: in guest memory too when the completion slot can be written. -/
structure AdminServed (d : Device) (heap : Heap) (d' : Device) (es : List Event) : Prop where
  trace : d'.n.world.trace = d.n.world.trace ++ es
  command : ∃ cdw0 st, .command 0 0 (d.n.headEntry 0) cdw0 st ∈ es
  posted : (d.n.headEntry 0).opcode ≠ nvmeAdmAsyncEvent → ∃ cqe : NvmeCqe,
    cqe.cid = (d.n.headEntry 0).cid ∧ cqe.sqId = 0 ∧ .posted 0 (d.n.cq 0).tail cqe ∈ es ∧
    (heap .cqeSgl = true →
      d.n.world.vfu.reaches ((d.n.cq 0).slotAddr (d.n.cq 0).tail) 16 .write = true →
      (span ((d.n.cq 0).slotAddr (d.n.cq 0).tail) 16).map d'.n.world.mem = cqe.toBytes)

theorem Served.admin {d : Device} {n : NvmeCtrl} {heap : Heap} {c : QueueId}
    (busy : Option QueueId) (hs : Served d.n heap 0 c n) (hadmin : (d.n.sq 0).cqid = 0)
    (he : (d.n.cq 0).enabled = true) : ∃ es, AdminServed d heap ⟨n, busy⟩ es := by
  have hown {st : Status} {cdw0 : BitVec 32} {n₁ : NvmeCtrl} (hr : Ran d.n heap 0 c st cdw0 n₁) :
      c = 0 := Fin.ext (by rw [← hr.own, hadmin]; rfl)
  cases hs with
  | @unanswered n₁ cdw0 hr =>
    obtain ⟨fs, xs, htr, -⟩ := hr.world
    refine ⟨_, by rw [htr, List.append_assoc, List.append_assoc], ?_, fun ho => ?_⟩
    · exact ⟨cdw0, nvmeNoComplete, by simp [hadmin]⟩
    · exact absurd (hr.noComplete_iff.mp rfl).2 ho
  | dropped hr hst hd =>
    rw [hown hr, he] at hd
    cases hd
  | @posted n₁ st cdw0 hr hst he' =>
    obtain rfl := hown hr
    obtain ⟨fs, xs, htr, -, -, -, hvfu, -⟩ := hr.world
    obtain ⟨es, irqs, hp⟩ := nvmePostTo_effect n₁ heap 0 (d.n.completion 0 0 cdw0 st)
    refine ⟨fs ++ xs ++ [.command 0 (d.n.sq 0).cqid (d.n.headEntry 0) cdw0 st] ++ es ++
      [.posted 0 (n₁.cq 0).tail (d.n.completion 0 0 cdw0 st)] ++ irqs, ?_, ?_, fun _ => ?_⟩
    · rw [hp.trace, htr]
      simp
    · exact ⟨cdw0, st, by simp [hadmin]⟩
    · refine ⟨d.n.completion 0 0 cdw0 st, rfl, rfl, by simp [hr.cq], fun hsgl hmap => ?_⟩
      have hok := nvmeGpaXfer_ok n₁.world (heap .cqeSgl) ((n₁.cq 0).slotAddr (n₁.cq 0).tail)
        (d.n.completion 0 0 cdw0 st).toBytes (by simp) true
      rw [hsgl, hvfu, NvmeCqe.toBytes_length, xferProt, if_pos rfl, hr.cq, hmap] at hok
      have hmem := hp.written (by rw [hsgl, hr.cq]; exact hok)
      rw [hr.cq] at hmem
      change (span _ 16).map (nvmePostTo n₁ heap 0 (d.n.completion 0 0 cdw0 st)).world.mem = _
      rw [hmem]
      exact map_writeAll (span_nodup (by decide)) (by simp)

/-- In every run that never withdraws a shutdown notification under EN, registers that read ready
mean live admin queues, and the next admin command that a tail doorbell submits is served. -/
theorem Device.readiness {maxNumKeys : BitVec 32} {d₀ d : Device} (h₀ : Initial maxNumKeys d₀)
    (hr : Reaches step (fun d i => withdrawsShutdown d i = false) d₀ d)
    (hclaim : ccEn d.n.cc = true ∧ cstsRdy d.n.csts = true ∧ cstsShst d.n.csts = 0) :
    (d.n.sq 0).enabled = true ∧ (d.n.cq 0).enabled = true ∧
    (d.busy = none → ∀ val heap, val ≠ (d.n.sq 0).head → heap .sqeSgl = true →
      d.n.world.vfu.reaches ((d.n.sq 0).slotAddr (d.n.sq 0).head) 64 .read = true →
      ∃ d₁ d₂ es, d.step (sqTailWrite 0 val) = some d₁ ∧ d₁.step (.iterate heap) = some d₂ ∧
        AdminServed d heap d₂ es) := by
  obtain ⟨hok, hc, hready⟩ := ready_of_reaches h₀ hr
  obtain ⟨hsq, hcq⟩ := hready hclaim
  refine ⟨hsq, hcq, fun hb val heap hne hsgl hmap => ?_⟩
  have hs := step_sqTailWrite hb 0 val
  rw [if_pos hsq] at hs
  have hok₁ := (step_cases hs).ok hok
  have hsq₁ : (d.n.setSq 0 { d.n.sq 0 with tail := val }).sq 0 = { d.n.sq 0 with tail := val } := by
    simp
  have hentry : (d.n.setSq 0 { d.n.sq 0 with tail := val }).headEntry 0 = d.n.headEntry 0 := by
    rw [NvmeCtrl.headEntry, hsq₁]
    rfl
  obtain ⟨n, hi, hcons⟩ := iterate_consumes hok₁ rfl heap (.inl rfl)
    (by rw [hsq₁]; exact hne.symm) hsgl (by rw [hsq₁]; exact hmap)
  obtain ⟨c, hserved⟩ := hcons.served hok₁.rings (hok₁.busy 0 rfl)
  obtain ⟨es, ha⟩ := Served.admin (d := ⟨d.n.setSq 0 { d.n.sq 0 with tail := val }, some 0⟩)
    (some 0) hserved hok₁.rings.admin hcq
  refine ⟨_, _, es, hs, hi, ⟨ha.trace, ?_, ?_⟩⟩
  · rw [← hentry]
    exact ha.command
  · rw [← hentry]
    exact ha.posted

theorem Device.readiness_enabled :
    ∃ d₀ d, Initial 1 d₀ ∧ Reaches step (fun d i => withdrawsShutdown d i = false) d₀ d ∧
      (d.n.sq 0).enabled = true ∧ ∃ d₁ d₂ es, d.step (sqTailWrite 0 1) = some d₁ ∧
        d₁.step (.iterate fun _ => true) = some d₂ ∧ AdminServed d (fun _ => true) d₂ es := by
  have hrun : (bootRun 1 (fun d i => !withdrawsShutdown d i) [regWrite nvmeRegCc 1]).map
      (fun d => decide (ccEn d.n.cc = true ∧ cstsRdy d.n.csts = true ∧ cstsShst d.n.csts = 0 ∧
        d.busy = none ∧ 1 ≠ (d.n.sq 0).head ∧
        d.n.world.vfu.reaches ((d.n.sq 0).slotAddr (d.n.sq 0).head) 64 .read = true)) =
      some true := by decide +kernel
  obtain ⟨d, hd, hobs⟩ := Option.map_eq_some_iff.mp hrun
  obtain ⟨h₁, h₂, h₃, hb, hne, hmap⟩ := of_decide_eq_true hobs
  obtain ⟨d₀, h₀, hr⟩ := reaches_of_bootRun
    (C := fun d i => withdrawsShutdown d i = false) (fun _ _ _ hc => by simpa using hc) hd
  obtain ⟨hsq, -, hserve⟩ := readiness h₀ hr ⟨h₁, h₂, h₃⟩
  exact ⟨d₀, d, h₀, hr, hsq, hserve hb 1 (fun _ => true) hne rfl hmap⟩

/-- Enable, notify a shutdown, withdraw it: the registers read ready over dead admin queues. -/
theorem Device.ready_claim_without_queues :
    ∃ d, Reachable 1 d ∧ ccEn d.n.cc = true ∧ cstsRdy d.n.csts = true ∧ cstsShst d.n.csts = 0 ∧
      (d.n.sq 0).enabled = false ∧ (d.n.cq 0).enabled = false := by
  have hrun : (bootRun 1 (fun _ _ => true)
      [regWrite nvmeRegCc 1, regWrite nvmeRegCc 0x4001, regWrite nvmeRegCc 1]).map
      (fun d => decide (ccEn d.n.cc = true ∧ cstsRdy d.n.csts = true ∧ cstsShst d.n.csts = 0 ∧
        (d.n.sq 0).enabled = false ∧ (d.n.cq 0).enabled = false)) = some true := by decide +kernel
  obtain ⟨d, hd, hobs⟩ := Option.map_eq_some_iff.mp hrun
  exact ⟨d, reachable_of_bootRun hd, of_decide_eq_true hobs⟩

end VfuKvssd
