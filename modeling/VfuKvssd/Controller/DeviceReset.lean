import VfuKvssd.Controller.KvRuns
import VfuKvssd.Controller.MsixTable
import VfuKvssd.Controller.StaleQueues

/-! # Device reset

`nvme_ctrl_reset` against a controller fresh from `nvme_ctrl_init` whose namespace
holds the same slots. Registers and queues come back as they were at power-on;
the EDNEK feature and the MSI-X backing store do not.
-/
namespace VfuKvssd
open Foundations

/-! ## What no run changes -/

/-- A namespace with other slots, and the usage that goes with them. -/
def KvNs.holding (ns : KvNs) (pairs : List KvPair) : KvNs :=
  { ns.setNuse (BitVec.ofNat 64 (kvSlotSize * pairs.countP (·.used))) with pairs := pairs }

/-- Capabilities, version and namespace settings are those of `nvme_ctrl_init`, EDNEK apart. -/
structure NvmeCtrl.Factory (maxNumKeys : BitVec 32) (n : NvmeCtrl) : Prop where
  cap : n.cap = nvmeCap
  vs : n.vs = nvmeVs
  settings : ∀ {heap ns₀}, kvNsInit heap maxNumKeys = some ns₀ →
    { n.ns.settings with ednek := 0 } = ns₀.settings

/-- Everything that `Factory` looks at. -/
def NvmeCtrl.constants (n : NvmeCtrl) : BitVec 64 × BitVec 32 × KvNs :=
  (n.cap, n.vs, { n.ns.settings with ednek := 0 })

theorem NvmeCtrl.Factory.congr {maxNumKeys : BitVec 32} {n n' : NvmeCtrl}
    (h : n.Factory maxNumKeys) (he : n'.constants = n.constants) : n'.Factory maxNumKeys := by
  obtain ⟨hcap, he⟩ := Prod.mk.inj he
  obtain ⟨hvs, hns⟩ := Prod.mk.inj he
  exact ⟨hcap.trans h.cap, hvs.trans h.vs, fun h₀ => hns.trans (h.settings h₀)⟩

theorem Executed.constants {n n' : NvmeCtrl} {heap : Heap} {q : QueueId} {sqe : NvmeSqe}
    {st : Status} {cdw0 : BitVec 32} (hx : Executed n heap q sqe st cdw0 n') (hv : n.ns.Valid) :
    n'.constants = n.constants := by
  cases hx with
  | kv hq ho hh =>
    have hs := (kvHandle_settings hv hh).2
    simp only [NvmeCtrl.constants, hs, NvmeCtrl.withWorld]
  | _ => rfl

theorem NvmeCtrl.raise_constants (n : NvmeCtrl) (irq : ℤ) :
    (n.raise irq).constants = n.constants := by
  rw [raise]; split <;> rfl

theorem Completed.constants {n n' : NvmeCtrl} {heap : Heap} {q : QueueId} {sqe : NvmeSqe}
    {st : Status} {cdw0 : BitVec 32} (hp : Completed n heap q sqe cdw0 st n') :
    n'.constants = n.constants := by
  cases hp with
  | silent | dropped => rfl
  | posted => rw [nvmePostTo, NvmeCtrl.raise_constants]; rfl

theorem nvmeCcWrite_constants (n : NvmeCtrl) (v : BitVec 32) :
    (nvmeCcWrite n v).constants = n.constants := by
  rw [nvmeCcWrite, nvmeCcShutdown, nvmeCcEnable]
  split_ifs <;> rfl

theorem StepCase.constants {d d' : Device} {i : Input} (hs : StepCase d i d')
    (hv : d.n.ns.Valid) : d'.n.constants = d.n.constants := by
  cases hs with
  | @register hb offset buf ho v hv =>
    rcases nvmeRegStore_cases d.n offset v buf.length with ⟨-, he⟩ | ⟨-, _, _, _, _, _, he⟩
    · rw [he]
      exact nvmeCcWrite_constants _ _
    · rw [he]
      rfl
  | consumed hb hh hx hc =>
    obtain ⟨hsize, hfetch, hx, hp⟩ := hc
    rw [hp.constants]
    exact hx.constants hv
  | _ => rfl

theorem Device.Reachable.factory {maxNumKeys : BitVec 32} {d : Device}
    (h : Reachable maxNumKeys d) : d.n.Factory maxNumKeys := by
  have hall : d.n.ns.Valid ∧ d.n.Factory maxNumKeys := by
    apply h.invariant (I := fun d => d.n.ns.Valid ∧ d.n.Factory maxNumKeys)
    · intro d₀ h₀
      obtain ⟨⟨heap, world, hi, -⟩, -⟩ := h₀
      obtain ⟨ns, hns, hn⟩ := Option.map_eq_some_iff.mp hi
      rw [← hn]
      refine ⟨kvNsInit_valid hns, rfl, rfl, fun {heap' ns₀} h₀ => ?_⟩
      rw [kvNsInit] at hns h₀
      split at hns <;> split at h₀ <;> simp_all only [Option.some.injEq, reduceCtorEq]
      subst hns h₀
      rfl
    · rintro d i d' ⟨hv, hf⟩ hs
      refine ⟨?_, hf.congr (hs.constants hv)⟩
      rcases hs.ns_eq with he | ⟨heap, q, -, -, hc⟩
      · exact he ▸ hv
      · exact (hc.ns_valid hv).1
  exact hall.2

/-- With EDNEK as it was set up, a namespace is the initial one with its slots. -/
theorem KvNs.eq_holding {ns ns₀ : KvNs} (hv : ns.Valid) (hz : ns.ednek = 0)
    (hs : { ns.settings with ednek := 0 } = ns₀.settings) : ns = ns₀.holding ns.pairs := by
  have hnuse : ns.idNsKv.nuse = BitVec.ofNat 64 (kvSlotSize * ns.pairs.countP (·.used)) := by
    apply BitVec.eq_of_toNat_eq
    have hn := hv.nuse_eq
    rw [KvNs.numUsed] at hn
    rw [BitVec.toNat_ofNat, ← hn]
    exact (Nat.mod_eq_of_lt ns.idNsKv.nuse.isLt).symm
  have hset : ns.settings = ns₀.settings := by
    rw [← hs, ← hz]
    rfl
  have hback (m : KvNs) : m.holding ns.pairs = { m.settings.setNuse (BitVec.ofNat 64
      (kvSlotSize * ns.pairs.countP (·.used))) with pairs := ns.pairs } := rfl
  rw [hback, ← hset, ← hnuse]
  rfl

/-! ## What later accesses show -/

/-- Bytes read, guest memory written, interrupts, and commands with their outcomes. -/
def Event.seen : Event → Bool
  | .dmaWrite _ _ | .irq _ | .command _ _ _ _ _ | .reply _ => true
  | _ => false

/-- The devices cannot be told apart by any sequence of inputs. -/
def Device.SameFuture (d₁ d₂ : Device) : Prop :=
  ∀ inputs, Option.Rel (fun e₁ e₂ =>
      (d₁.newEvents e₁).filter Event.seen = (d₂.newEvents e₂).filter Event.seen)
    (run Device.step d₁ inputs) (run Device.step d₂ inputs)

theorem Device.Equivalent.sameFuture {d₁ d₂ : Device} (h : Equivalent d₁ d₂) (hok : d₁.Ok) :
    SameFuture d₁ d₂ := by
  intro inputs
  have hr := h.alike.run hok inputs
  generalize run Device.step d₁ inputs = r₁ at hr ⊢
  generalize run Device.step d₂ inputs = r₂ at hr ⊢
  cases hr with
  | none => exact .none
  | some hr =>
    obtain ⟨es, h₁, h₂⟩ := hr.1.n.world.trace
    refine .some ?_
    rw [newEvents_eq h₁, newEvents_eq h₂]

/-- A sequence of inputs whose first event that is seen is `e`. -/
def Device.Shows (d : Device) (inputs : List Input) (e : Event) : Prop :=
  ∃ d' es, run Device.step d inputs = some d' ∧ d'.n.world.trace = d.n.world.trace ++ es ∧
    (es.filter Event.seen).head? = some e

theorem Device.SameFuture.shows {d₁ d₂ : Device} (h : SameFuture d₁ d₂) {inputs : List Input}
    {e₁ e₂ : Event} (h₁ : d₁.Shows inputs e₁) (h₂ : d₂.Shows inputs e₂) : e₁ = e₂ := by
  obtain ⟨d₁', es₁, hr₁, ht₁, hs₁⟩ := h₁
  obtain ⟨d₂', es₂, hr₂, ht₂, hs₂⟩ := h₂
  have hi := h inputs
  rw [hr₁, hr₂] at hi
  cases hi with
  | some hi =>
    rw [newEvents_eq ht₁, newEvents_eq ht₂] at hi
    rw [hi, hs₂] at hs₁
    exact (Option.some.inj hs₁).symm

theorem Device.shows_msix {d : Device} (hb : d.busy = none) (i : Fin 4096) :
    d.Shows [.msix false i.val [0]] (.reply [d.n.msixRegion i]) := by
  have hread : nvmeMsixAccess d.n [0] i.val false = (true, d.n, [d.n.msixRegion i]) := by
    have hi := i.isLt
    rw [nvmeMsixAccess, List.length_singleton, if_neg (by omega), if_neg (by decide),
      Buffer.take_one_drop]
  refine ⟨⟨d.n.log (.reply [d.n.msixRegion i]), none⟩, [.reply [d.n.msixRegion i]], ?_, rfl, rfl⟩
  rw [run, Device.step, hb]
  simp only [hread]
  rfl

theorem nvmeConsume_logs {n n' m : NvmeCtrl} {heap : Heap} {q : QueueId} {sqe : NvmeSqe}
    {st : Status} {cdw0 : BitVec 32}
    (hx : nvmeExecute (n.setSq q { n.sq q with head := (n.sq q).nextHead }) heap q sqe =
      some (st, cdw0, m)) (h : nvmeConsume n heap q sqe = some n') :
    ∃ es, n'.world.trace = m.world.trace ++ .command q (m.sq q).cqid sqe cdw0 st :: es := by
  rw [nvmeConsume] at h
  split at h
  · cases h
  rw [hx] at h
  dsimp only at h
  split at h
  · exact ⟨[], by rw [← Option.some.inj h]; rfl⟩
  · rename_i hst
    cases nvmePostCqe_completed hst h with
    | silent | dropped => exact ⟨[], rfl⟩
    | @posted _ c _ _ =>
      obtain ⟨es, irqs, hp⟩ := nvmePostTo_effect (m.log (.command q (m.sq q).cqid sqe cdw0 st))
        heap c (cqeFor (m.cq c) (BitVec.ofNat 16 q.val) (m.sq q).head sqe.cid cdw0 st)
      have ht := hp.trace
      simp only [NvmeCtrl.log_world, World.log_trace, List.append_assoc, List.singleton_append] at ht
      exact ⟨_, ht⟩

/-- An iteration that runs a command without effect logs it right after the fetch. -/
theorem Device.iterate_logs {n : NvmeCtrl} {heap : Heap} {q : QueueId} (hok : (n.sq q).Ok)
    (hk : q = 0 ∨ n.ns.Valid ∧ (heap .pairsGrown = true → n.ns.entriesAllocated < 2 ^ 31))
    (hne : (n.sq q).head ≠ (n.sq q).tail) (hsgl : heap .sqeSgl = true)
    (hmap : n.world.vfu.reaches ((n.sq q).slotAddr (n.sq q).head) 64 .read = true)
    {st : Status} {cdw0 : BitVec 32} (hx : ∀ w, nvmeExecute (n.fetched q w) heap q (n.headEntry q) =
      some (st, cdw0, n.fetched q w)) :
    ∃ n' fs es, Device.step ⟨n, some q⟩ (.iterate heap) = some ⟨n', some q⟩ ∧
      n'.world.trace = n.world.trace ++ fs ++
        .command q (n.sq q).cqid (n.headEntry q) cdw0 st :: es ∧
      XferEvents false (span ((n.sq q).slotAddr (n.sq q).head) 64) fs := by
  have hfetch := nvmeGpaXfer_ok n.world (heap .sqeSgl) ((n.sq q).slotAddr (n.sq q).head)
    (List.replicate 64 0) (by simp) false
  rw [hsgl, List.length_replicate, xferProt, if_neg (by decide), hmap] at hfetch
  have hout := nvmeGpaXfer_outcome n.world (heap .sqeSgl) ((n.sq q).slotAddr (n.sq q).head)
    (List.replicate 64 0) false
  rw [hsgl] at hout
  rcases hf : nvmeGpaXfer n.world true ((n.sq q).slotAddr (n.sq q).head) (List.replicate 64 0) false
    with ⟨ok, buf, w⟩
  rw [hf] at hfetch hout
  obtain rfl : ok = true := hfetch
  cases hout with
  | done hm =>
    obtain ⟨fs, hfs, hread⟩ := hm.trace
    rw [List.length_replicate] at hm hread
    have hsqe : (⟨Buffer.ofBytes buf⟩ : NvmeSqe) = n.headEntry q := by
      rw [NvmeCtrl.headEntry, hm.buf]
      rfl
    obtain ⟨n', hc⟩ := Option.isSome_iff_exists.mp
      (nvmeConsume_isSome (n := n.withWorld w) heap (n.headEntry q) hok hk)
    obtain ⟨es, htr⟩ := nvmeConsume_logs (hx w) hc
    refine ⟨n', fs, es, ?_, ?_, hread⟩
    · simp only [Device.step, nvmeProcessSqStep, if_neg hne, hsgl, hf, hsqe, hc]
      rfl
    · rw [htr, ← hfs]
      simp [NvmeCtrl.fetched]

/-- The entry of a Get Features for EDNEK, at address 0. -/
def getEdnekMemory : Memory := memoryOf [(0, 0x0a), (40, 0x20)]

def getEdnek : NvmeSqe := ⟨Buffer.ofBytes ((span 0 64).map getEdnekMemory)⟩

theorem nvmeExecute_getEdnek (n : NvmeCtrl) (heap : Heap) :
    nvmeExecute n heap 0 getEdnek = some (nvmeSuccess, n.ns.ednek, n) := by
  have hop : getEdnek.opcode = nvmeAdmGetFeatures := by decide +kernel
  have hfid : getEdnek.cdw10.setWidth 8 = nvmeFeatKvEdnek := by decide +kernel
  rw [nvmeExecute, if_pos rfl, nvmeAdminCmd, hop, if_neg (by decide), if_neg (by decide),
    if_pos rfl, nvmeAdminGetFeatures]
  simp only [hfid]
  rw [if_neg (by decide), if_pos trivial]

/-- The admin queues brought up over a flat guest memory and one command submitted. -/
def submitGetEdnek : List Input :=
  [.dmaRegions .flat, .hostMemory getEdnekMemory] ++ enableAdmin ++ [sqTailWrite 0 1]

theorem Device.step_regWrite {d : Device} (hb : d.busy = none) {offset v : ℕ}
    (ho : offset < nvmeRegDoorbell) (hv : v < 2 ^ 32) :
    d.step (regWrite offset v) =
      some ⟨nvmeRegStore d.n offset (BitVec.ofNat 64 v) 4, none⟩ := by
  have hread : rdLe (leBytes 4 v) = some (BitVec.ofNat 64 v) := by
    rw [rdLe, if_pos (by simp), leNat_leBytes, Nat.mod_eq_of_lt (by omega)]
  simp only [step, regWrite, hb, nvmeBar0Access]
  rw [if_neg (by omega), if_pos trivial, nvmeRegWrite, hread, leBytes_length]
  rfl

theorem nvmeCcWrite_one {n : NvmeCtrl} (hcc : n.cc = 0) :
    nvmeCcWrite n 1 = nvmeEnable { n with cc := 1 } := by
  have hen : (ccEn 1 && !ccEn 0) = true := by decide
  have hshut : ¬ (ccShn 1 != 0 && ccShn 0 == 0) = true := by decide
  have hback : ¬ (ccShn 1 == 0 && ccShn 0 != 0) = true := by decide
  rw [nvmeCcWrite, hcc, nvmeCcEnable, if_pos hen, nvmeCcShutdown]
  exact (if_neg hshut).trans (if_neg hback)

theorem Device.run_submitGetEdnek {d : Device} (hb : d.busy = none) (hcc : d.n.cc = 0)
    (hasq : d.n.asq = 0) :
    ∃ n, run Device.step d submitGetEdnek = some ⟨n, some 0⟩ ∧ n.ns = d.n.ns ∧
      n.sq 0 = ⟨0, 16, 0, 0, 0, 1, true⟩ ∧
      n.world = ⟨.flat, getEdnekMemory, d.n.world.trace ++ [.sqInit 0 0, .cqInit 0 16]⟩ := by
  obtain ⟨n, busy⟩ := d
  dsimp only at hb hcc hasq
  subst hb
  let m₀ : NvmeCtrl := { n with world := ⟨.flat, getEdnekMemory, n.world.trace⟩ }
  let m₁ : NvmeCtrl := { m₀ with aqa := 0x000f000f }
  let m₂ : NvmeCtrl := { m₁ with acq := writeLow n.acq 0x10000 4 }
  let m₃ : NvmeCtrl := nvmeEnable { m₂ with cc := 1 }
  have h₁ : step ⟨m₀, none⟩ (regWrite nvmeRegAqa 0x000f000f) = some ⟨m₁, none⟩ :=
    step_regWrite rfl (by decide) (by decide)
  have h₂ : step ⟨m₁, none⟩ (regWrite nvmeRegAcq 0x10000) = some ⟨m₂, none⟩ :=
    step_regWrite rfl (by decide) (by decide)
  have h₃ : step ⟨m₂, none⟩ (regWrite nvmeRegCc 1) = some ⟨m₃, none⟩ :=
    (step_regWrite rfl (by decide) (by decide)).trans
      (congrArg (fun m => some (Device.mk m none)) (nvmeCcWrite_one (n := m₂) hcc))
  have h₄ : step ⟨m₃, none⟩ (sqTailWrite 0 1) =
      some ⟨m₃.setSq 0 { m₃.sq 0 with tail := 1 }, some 0⟩ := step_sqTailWrite rfl 0 1
  refine ⟨m₃.setSq 0 { m₃.sq 0 with tail := 1 }, ?_, rfl, ?_, ?_⟩
  · exact (run_cons rfl _).trans ((run_cons rfl _).trans ((run_cons h₁ _).trans
      ((run_cons h₂ _).trans ((run_cons h₃ _).trans (run_cons h₄ _)))))
  · simp [m₃, m₂, m₁, m₀, nvmeEnable, NvmeSq.zero, hasq]
  · simp [m₃, m₂, m₁, m₀, nvmeEnable, World.log]

theorem Device.shows_ednek {d : Device} (hb : d.busy = none) (hcc : d.n.cc = 0)
    (hasq : d.n.asq = 0) :
    d.Shows (submitGetEdnek ++ [.iterate fun _ => true])
      (.command 0 0 getEdnek d.n.ns.ednek nvmeSuccess) := by
  obtain ⟨n, hrun, hns, hsq, hw⟩ := run_submitGetEdnek hb hcc hasq
  have hentry : n.headEntry 0 = getEdnek := by
    rw [NvmeCtrl.headEntry, hsq, hw]
    rfl
  have hok : (n.sq 0).Ok := by
    rw [hsq]
    exact ⟨by decide, by decide, by decide, by decide⟩
  have hne : (n.sq 0).head ≠ (n.sq 0).tail := by
    rw [hsq]
    decide
  have hmap : n.world.vfu.reaches ((n.sq 0).slotAddr (n.sq 0).head) 64 .read = true := by
    rw [hw]
    rfl
  have hx (w : World) : nvmeExecute (n.fetched 0 w) (fun _ => true) 0 (n.headEntry 0) =
      some (nvmeSuccess, d.n.ns.ednek, n.fetched 0 w) := by
    rw [hentry, nvmeExecute_getEdnek, ← hns]
    rfl
  obtain ⟨n', fs, es, hstep, htr, hfs⟩ := iterate_logs hok (.inl rfl) hne rfl hmap hx
  refine ⟨⟨n', some 0⟩, .sqInit 0 0 :: .cqInit 0 16 :: fs ++
    .command 0 0 getEdnek d.n.ns.ednek nvmeSuccess :: es, ?_, ?_, ?_⟩
  · rw [run_append hrun, run_cons hstep, run]
  · rw [htr, hentry, hw, hsq]
    simp
  · have hskip : fs.filter Event.seen = [] := by
      rw [List.filter_eq_nil_iff]
      intro e he
      rcases hfs e he with ⟨_, _, hf, -, -⟩ | ⟨_, _, -, rfl, -⟩
      · cases hf
      · exact Bool.false_ne_true
    simp [Event.seen, hskip]

/-! ## Reset -/

/-- After a reset the device goes on as a fresh one that holds the same slots exactly when EDNEK
and the MSI-X backing store had been left, or put back, at zero. -/
theorem Device.Reachable.reset_fresh_iff {maxNumKeys : BitVec 32} {d : Device}
    (h : Reachable maxNumKeys d) {heap : Heap} {n₀ : NvmeCtrl}
    (h₀ : nvmeCtrlInit heap d.n.world maxNumKeys = some n₀) :
    SameFuture ⟨nvmeCtrlReset d.n, none⟩ ⟨{ n₀ with ns := n₀.ns.holding d.n.ns.pairs }, none⟩ ↔
      d.n.ns.ednek = 0 ∧ d.n.msixRegion = fun _ => 0 := by
  obtain ⟨ns₀, hns₀, rfl⟩ := Option.map_eq_some_iff.mp h₀
  have hzero : ns₀.ednek = 0 := by
    rw [kvNsInit] at hns₀
    split at hns₀
    · rw [← Option.some.inj hns₀]
    · cases hns₀
  constructor
  · intro hs
    constructor
    · have he := hs.shows (shows_ednek rfl rfl rfl) (shows_ednek rfl rfl rfl)
      simp only [Event.command.injEq] at he
      exact he.2.2.2.1.trans hzero
    · funext i
      have he := hs.shows (shows_msix rfl i) (shows_msix rfl i)
      simp only [Event.reply.injEq, List.cons.injEq, and_true] at he
      exact he
  · rintro ⟨hz, hregion⟩
    have hns := KvNs.eq_holding h.ns_valid.1 hz (h.factory.settings hns₀)
    have hok : Device.Ok ⟨nvmeCtrlReset d.n, none⟩ :=
      ⟨h.ok.rings.queuesDown.congr rfl rfl, fun _ hb => by cases hb⟩
    refine Equivalent.sameFuture ⟨rfl, rfl, fun q => ?_, fun c => ?_, ?_, rfl⟩ hok
    · exact ⟨rfl, fun he => absurd he Bool.false_ne_true⟩
    · exact ⟨rfl, fun he => absurd he Bool.false_ne_true⟩
    · simp only [NvmeCtrl.core, nvmeCtrlReset, nvmeDisable, nvmeQueuesDown, h.factory.cap,
        h.factory.vs, hregion, ← hns]

theorem storeInputs_msix (region : Buffer 4096) :
    ∀ i ∈ storeInputs, msixNext region i = region := by
  simp [storeInputs, enableAdmin, iterations, regWrite, sqTailWrite, msixNext]

/-- A pair that was stored before the reset. -/
theorem Device.Reachable.reset_fresh_iff_stored :
    ∃ d n₀, Reachable 1 d ∧ cstsRdy d.n.csts = true ∧ d.n.ns.contents [0x61] ≠ none ∧
      nvmeCtrlInit (fun _ => true) d.n.world 1 = some n₀ ∧
      SameFuture ⟨nvmeCtrlReset d.n, none⟩ ⟨{ n₀ with ns := n₀.ns.holding d.n.ns.pairs }, none⟩ := by
  have hrun : (bootRun 1 (fun _ _ => true) storeInputs).map
      (fun d => (cstsRdy d.n.csts, (d.n.ns.contents [0x61]).isSome, d.n.ns.ednek)) =
      some (true, true, 0) := by decide +kernel
  obtain ⟨d, hd, hobs⟩ := Option.map_eq_some_iff.mp hrun
  obtain ⟨hrdy, hobs⟩ := Prod.mk.inj hobs
  obtain ⟨hkey, hednek⟩ := Prod.mk.inj hobs
  have hregion : d.n.msixRegion = fun _ => 0 := by
    obtain ⟨d₀, ⟨⟨heap, world, hn, -⟩, -⟩, hr₀⟩ :=
      reaches_of_bootRun (C := fun _ i => i ∈ storeInputs) (fun _ _ hi _ => hi) hd
    refine hr₀.invariant (I := fun d => d.n.msixRegion = fun _ => 0) (fun e i e' he hi hs => ?_) ?_
    · rw [step_msixRegion hs, storeInputs_msix _ i hi, he]
    · obtain ⟨ns, -, hn⟩ := Option.map_eq_some_iff.mp hn
      rw [← hn]
  have hr : Reachable 1 d := reachable_of_bootRun hd
  obtain ⟨n₀, h₀⟩ : ∃ n₀, nvmeCtrlInit (fun _ => true) d.n.world 1 = some n₀ := ⟨_, rfl⟩
  exact ⟨d, n₀, hr, hrdy, Option.isSome_iff_ne_none.mp hkey, h₀,
    (hr.reset_fresh_iff h₀).mpr ⟨hednek, hregion⟩⟩

def setEdnekInputs : List Input :=
  .hostMemory (memoryOf [(0, 0x09), (40, 0x20), (44, 0x01)]) :: enableAdmin ++ [sqTailWrite 0 1] ++
    iterations 2

/-- What one driver set up is there for the next. -/
theorem Device.reset_keeps_ednek :
    ∃ d n₀, Reachable 1 d ∧ d.busy = none ∧
      nvmeCtrlInit (fun _ => true) d.n.world 1 = some n₀ ∧
      ¬ SameFuture ⟨nvmeCtrlReset d.n, none⟩
        ⟨{ n₀ with ns := n₀.ns.holding d.n.ns.pairs }, none⟩ := by
  have hrun : (bootRun 1 (fun _ _ => true) setEdnekInputs).map
      (fun d => (d.busy, d.n.ns.ednek)) = some (none, 1) := by decide +kernel
  obtain ⟨d, hd, hobs⟩ := Option.map_eq_some_iff.mp hrun
  obtain ⟨hb, hednek⟩ := Prod.mk.inj hobs
  refine ⟨d, _, reachable_of_bootRun hd, hb, rfl, fun hs => ?_⟩
  have he := hs.shows (shows_ednek rfl rfl rfl) (shows_ednek rfl rfl rfl)
  simp only [Event.command.injEq] at he
  have hzero : d.n.ns.ednek = 0 := he.2.2.2.1
  rw [hednek] at hzero
  exact absurd hzero (by decide)

end VfuKvssd
