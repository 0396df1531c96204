import VfuKvssd.Controller.Invariants

/-! # Enable, disable, shutdown and reset

The invariant of the CC and CSTS machine over every run.
-/
namespace VfuKvssd
open Foundations

def NvmeCtrl.Quiet (n : NvmeCtrl) : Prop :=
  ∀ q, (n.sq q).enabled = false ∧ (n.cq q).enabled = false

/-- Coherence of CC, CSTS and the queues. The shutdown notification is a parameter because CSTS
follows the previous one between the two halves of a CC write. -/
structure NvmeCtrl.CoherentAt (n : NvmeCtrl) (shn : BitVec 32) : Prop where
  csts : n.csts = 0 ∨ n.csts = 1 ∨ n.csts = 8 ∨ n.csts = 9
  ready : cstsRdy n.csts = ccEn n.cc
  shutdown : cstsShst n.csts = nvmeCstsShstComplete → shn ≠ 0 ∧ n.Quiet
  live : ¬ n.Quiet → (n.sq 0).enabled = true ∧ (n.cq 0).enabled = true ∧ ccEn n.cc = true ∧
    cstsShst n.csts = 0

abbrev NvmeCtrl.Coherent (n : NvmeCtrl) : Prop := n.CoherentAt (ccShn n.cc)

theorem nvmeQueuesDown_quiet (n : NvmeCtrl) : (nvmeQueuesDown n).Quiet := fun _ => ⟨rfl, rfl⟩

section Bits
variable {x : BitVec 32}

theorem cstsRdy_rdy : cstsRdy nvmeCstsRdy = true := by decide

theorem cstsShst_rdy : cstsShst nvmeCstsRdy = 0 := by decide

theorem complete_ne_zero : (0 : BitVec 32) ≠ nvmeCstsShstComplete := by decide

theorem csts_disabled (h : x = 0 ∨ x = 1 ∨ x = 8 ∨ x = 9) :
    x &&& ~~~(nvmeCstsRdy ||| nvmeCstsShstMask) = 0 := by
  rcases h with rfl | rfl | rfl | rfl <;> decide

theorem csts_shutdown (h : x = 0 ∨ x = 1 ∨ x = 8 ∨ x = 9) :
    ((x &&& ~~~nvmeCstsShstMask) ||| nvmeCstsShstComplete = 8 ∧ cstsRdy x = false) ∨
    ((x &&& ~~~nvmeCstsShstMask) ||| nvmeCstsShstComplete = 9 ∧ cstsRdy x = true) := by
  rcases h with rfl | rfl | rfl | rfl <;> decide

theorem csts_cleared (h : x = 0 ∨ x = 1 ∨ x = 8 ∨ x = 9) :
    (x &&& ~~~nvmeCstsShstMask = 0 ∧ cstsRdy x = false) ∨
    (x &&& ~~~nvmeCstsShstMask = 1 ∧ cstsRdy x = true) := by
  rcases h with rfl | rfl | rfl | rfl <;> decide

theorem csts_shst (h : x = 0 ∨ x = 1 ∨ x = 8 ∨ x = 9) :
    cstsShst x = 0 ∨ cstsShst x = nvmeCstsShstComplete := by
  rcases h with rfl | rfl | rfl | rfl <;> decide

end Bits

namespace NvmeCtrl.CoherentAt
variable {n n' : NvmeCtrl} {shn : BitVec 32}

theorem congr (h : n.CoherentAt shn) (hsq : ∀ q, (n'.sq q).enabled = (n.sq q).enabled)
    (hcq : ∀ q, (n'.cq q).enabled = (n.cq q).enabled) (hcc : n'.cc = n.cc)
    (hcsts : n'.csts = n.csts) : n'.CoherentAt shn := by
  have hquiet : n'.Quiet ↔ n.Quiet := by simp only [Quiet, hsq, hcq]
  obtain ⟨h₁, h₂, h₃, h₄⟩ := h
  refine ⟨hcsts ▸ h₁, by rw [hcsts, hcc, h₂], ?_, ?_⟩
  · rwa [hcsts, hquiet]
  · rwa [hcsts, hcc, hquiet, hsq, hcq]

theorem of_quiet (hq : n.Quiet) (hc : n.csts = 0 ∨ n.csts = 1 ∨ n.csts = 8 ∨ n.csts = 9)
    (hr : cstsRdy n.csts = ccEn n.cc) (hs : cstsShst n.csts = nvmeCstsShstComplete → shn ≠ 0) :
    n.CoherentAt shn :=
  ⟨hc, hr, fun h => ⟨hs h, hq⟩, fun h => absurd hq h⟩

theorem of_clear (hq : n.Quiet) (hcc : n.cc = 0) (hcsts : n.csts = 0) : n.CoherentAt shn := by
  refine of_quiet hq (.inl hcsts) ?_ fun hs => ?_
  · rw [hcc, hcsts]
    decide
  · rw [hcsts] at hs
    exact absurd hs complete_ne_zero

theorem ccEnable (h : n.CoherentAt shn) (v : BitVec 32) :
    (nvmeCcEnable { n with cc := v } n.cc).CoherentAt shn := by
  rw [nvmeCcEnable]
  split_ifs with hup hdown
  · -- EN 0 to 1
    have hen : ccEn v = true := by simp_all
    exact ⟨.inr (.inl rfl), cstsRdy_rdy.trans hen.symm,
      fun hs => absurd (cstsShst_rdy.symm.trans hs) complete_ne_zero,
      fun _ => ⟨rfl, rfl, hen, cstsShst_rdy⟩⟩
  · -- EN 1 to 0
    have hen : ccEn v = false := by simp_all
    have hz : (nvmeDisable { n with cc := v }).csts = 0 := csts_disabled h.csts
    refine of_quiet (nvmeQueuesDown_quiet _) (.inl hz) ?_ ?_
    · rw [hz]
      exact Eq.trans (by decide : cstsRdy 0 = false) hen.symm
    · rw [hz]
      intro hs
      exact absurd hs (by decide)
  · -- EN unchanged
    have hen : ccEn v = ccEn n.cc := by
      cases ho : ccEn n.cc <;> cases hn : ccEn v <;> simp_all
    exact ⟨h.csts, h.ready.trans hen.symm, h.shutdown, fun hq => hen ▸ h.live hq⟩

theorem ccShutdown {old : BitVec 32} (h : n.CoherentAt (ccShn old)) :
    (nvmeCcShutdown n old).Coherent ∧ (nvmeCcShutdown n old).cc = n.cc := by
  rw [nvmeCcShutdown]
  split_ifs with hup hdown
  · -- SHN set
    refine ⟨of_quiet (nvmeQueuesDown_quiet _) ?_ ?_ fun _ => ?_, rfl⟩
    · rcases csts_shutdown h.csts with ⟨hx, -⟩ | ⟨hx, -⟩
      · exact .inr (.inr (.inl hx))
      · exact .inr (.inr (.inr hx))
    · rcases csts_shutdown h.csts with ⟨hx, hr⟩ | ⟨hx, hr⟩
      · exact (congrArg cstsRdy hx).trans (Eq.trans (by rw [hr]; decide) h.ready)
      · exact (congrArg cstsRdy hx).trans (Eq.trans (by rw [hr]; decide) h.ready)
    · have hv : ccShn n.cc ≠ 0 := by simp_all
      exact hv
  · -- SHN cleared
    refine ⟨⟨?_, ?_, ?_, ?_⟩, rfl⟩
    · rcases csts_cleared h.csts with ⟨hx, -⟩ | ⟨hx, -⟩
      · exact .inl hx
      · exact .inr (.inl hx)
    · rcases csts_cleared h.csts with ⟨hx, hr⟩ | ⟨hx, hr⟩
      · exact (congrArg cstsRdy hx).trans (Eq.trans (by rw [hr]; decide) h.ready)
      · exact (congrArg cstsRdy hx).trans (Eq.trans (by rw [hr]; decide) h.ready)
    · intro hs
      rcases csts_cleared h.csts with ⟨hx, -⟩ | ⟨hx, -⟩
      · exact absurd ((congrArg cstsShst hx).symm.trans hs) (by decide)
      · exact absurd ((congrArg cstsShst hx).symm.trans hs) (by decide)
    · intro hq
      obtain ⟨h₁, h₂, h₃, -⟩ := h.live hq
      refine ⟨h₁, h₂, h₃, ?_⟩
      rcases csts_cleared h.csts with ⟨hx, -⟩ | ⟨hx, -⟩
      · exact (congrArg cstsShst hx).trans (by decide)
      · exact (congrArg cstsShst hx).trans (by decide)
  · -- SHN stays zero or stays set
    refine ⟨⟨h.csts, h.ready, fun hs => ?_, h.live⟩, rfl⟩
    obtain ⟨ho, hq⟩ := h.shutdown hs
    refine ⟨fun hz => ?_, hq⟩
    simp_all

theorem ccWrite (h : n.Coherent) (v : BitVec 32) : (nvmeCcWrite n v).Coherent :=
  (h.ccEnable v).ccShutdown.1

end NvmeCtrl.CoherentAt

theorem Consumed.coherent {n n' : NvmeCtrl} {heap : Heap} {q : QueueId} (hc : Consumed n heap q n')
    (h : n.Coherent) (he : (n.sq q).enabled = true) : n'.Coherent := by
  obtain ⟨hsize, hfetch, hx, hp⟩ := hc
  rename_i w st cdw0 n₁
  have hbusy : ¬ n.Quiet := fun hq => by
    rw [(hq q).1] at he
    cases he
  obtain ⟨hs, hc, hen, hshst⟩ := h.live hbusy
  obtain ⟨hsq, -, hcc, hcsts, hcq⟩ := hp.frame
  obtain ⟨hcc₁, hcsts₁⟩ := hx.registers
  have h₁ : n'.cc = n.cc := hcc.trans hcc₁
  have h₂ : n'.csts = n.csts := hcsts.trans hcsts₁
  refine ⟨h₂ ▸ h.csts, by rw [h₁, h₂, h.ready], ?_, fun _ => ⟨?_, ?_, h₁ ▸ hen, h₂ ▸ hshst⟩⟩
  · rw [h₂, hshst]
    intro hz
    exact absurd hz (by decide)
  · rw [hsq, NvmeCtrl.log_sq, hx.sq_zero]
    by_cases hq : 0 = q
    · simpa [NvmeCtrl.fetched, ← hq] using hs
    · simpa [NvmeCtrl.fetched, hq] using hs
  · rw [hcq, NvmeCtrl.log_cq, hx.cq_zero]
    exact hc

theorem StepCase.coherent {d d' : Device} {i : Input} (hs : StepCase d i d') (hok : d.Ok)
    (h : d.n.Coherent) : d'.n.Coherent := by
  cases hs with
  | @cqHead hb offset buf q val hd =>
    refine h.congr (fun _ => rfl) (fun p => ?_) rfl rfl
    by_cases hp : p = q <;> simp [hp]
  | @sqTail hb offset buf q val hd =>
    refine h.congr (fun p => ?_) (fun _ => rfl) rfl rfl
    by_cases hp : p = q <;> simp [hp]
  | @register hb offset buf ho v hv =>
    rcases nvmeRegStore_cases d.n offset v buf.length with ⟨-, he⟩ | ⟨-, _, _, _, _, _, he⟩
    · simpa only [he] using h.ccWrite _
    · rw [he]
      exact h.congr (fun _ => rfl) (fun _ => rfl) rfl rfl
  | reset hb => exact .of_clear (nvmeQueuesDown_quiet _) rfl rfl
  | @consumed heap q hb hh hx n hc => exact hc.coherent h (hok.busy q hb)
  | read | noQueue | msixRead | msixFailed | msixWrite | finished | fetchFailed | hostMemory
  | dmaRegions =>
    exact h.congr (fun _ => rfl) (fun _ => rfl) rfl rfl

theorem Device.Initial.coherent {maxNumKeys : BitVec 32} {d : Device} (h : Initial maxNumKeys d) :
    d.n.Coherent := by
  obtain ⟨⟨heap, world, hi, -⟩, -⟩ := h
  obtain ⟨ns, -, hn⟩ := Option.map_eq_some_iff.mp hi
  rw [← hn]
  exact .of_clear (fun _ => ⟨rfl, rfl⟩) rfl rfl

theorem Device.Reachable.coherent {maxNumKeys : BitVec 32} {d : Device}
    (h : Reachable maxNumKeys d) : d.n.Coherent :=
  (h.invariant (I := fun d => d.Ok ∧ d.n.Coherent) (fun _ h₀ => ⟨h₀.ok, h₀.coherent⟩)
    fun _ _ _ hi hs => ⟨hs.ok hi.1, hs.coherent hi.1 hi.2⟩).2

theorem nvmeCcWrite_self (n : NvmeCtrl) : nvmeCcWrite n n.cc = n := by
  simp [nvmeCcWrite, nvmeCcEnable, nvmeCcShutdown]

/-- The CC and CSTS machine, in every state of every run. -/
theorem Device.Reachable.lifecycle {maxNumKeys : BitVec 32} {d : Device}
    (h : Reachable maxNumKeys d) :
    (cstsRdy d.n.csts = true ↔ ccEn d.n.cc = true) ∧
    (cstsShst d.n.csts = 0 ∨ cstsShst d.n.csts = nvmeCstsShstComplete) ∧
    (cstsShst d.n.csts = nvmeCstsShstComplete → ccShn d.n.cc ≠ 0 ∧
      ∀ q, (d.n.sq q).enabled = false ∧ (d.n.cq q).enabled = false) ∧
    (∀ q, (d.n.sq q).enabled = true ∨ (d.n.cq q).enabled = true →
      (d.n.sq 0).enabled = true ∧ (d.n.cq 0).enabled = true ∧ ccEn d.n.cc = true ∧
        cstsShst d.n.csts = 0) ∧
    (d.busy = none → ∀ buf v, rdLe buf = some v → v.setWidth 32 = d.n.cc →
      d.step (.bar0 true nvmeRegCc buf) = some d) := by
  have hc := h.coherent
  refine ⟨by rw [hc.ready], csts_shst hc.csts, hc.shutdown, fun q hq => ?_, ?_⟩
  · apply hc.live
    intro hquiet
    rw [(hquiet q).1, (hquiet q).2] at hq
    simp at hq
  · intro hb buf v hv hcc
    have hw : nvmeRegWrite d.n nvmeRegCc buf = some d.n := by
      rw [nvmeRegWrite, hv, Option.map_some]
      congr 1
      exact (congrArg (nvmeCcWrite d.n) hcc).trans (nvmeCcWrite_self d.n)
    rw [step, hb]
    simp only [nvmeBar0Access, hw]
    rcases d with ⟨n, busy⟩
    subst hb
    rfl

theorem Device.Reachable.lifecycle_enabled :
    ∃ d, Reachable 1 d ∧ d.n.csts = 1 ∧ (cstsRdy d.n.csts = true ↔ ccEn d.n.cc = true) := by
  have hrun : (bootRun 1 (fun _ _ => true) [regWrite nvmeRegCc 1]).map (fun d => d.n.csts) =
      some 1 := by decide +kernel
  obtain ⟨d, hd, hc⟩ := Option.map_eq_some_iff.mp hrun
  have hr : Reachable 1 d := reachable_of_bootRun hd
  exact ⟨d, hr, hc, hr.lifecycle.1⟩

end VfuKvssd
