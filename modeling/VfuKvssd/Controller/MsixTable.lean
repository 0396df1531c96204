import VfuKvssd.Controller.Invariants
import VfuKvssd.Controller.QueueEvents

/-! # BAR4 as memory

The MSI-X table and the pending bits are 4096 bytes that the controller stores and
never looks at. Reads return what was last written to each byte, over any run of
commands, register writes and resets in between; an access that reaches past the
end changes nothing.
-/
namespace VfuKvssd
open Foundations

def msixNext (region : Buffer 4096) : Input → Buffer 4096
  | .msix true offset buf =>
    if offset + buf.length ≤ 4096 then region.copy offset buf else region
  | _ => region

/-- Byte `j` after an input, given what it was before. -/
def lastWrittenNext (j : ℕ) (b : Byte) : Input → Byte
  | .msix true offset buf =>
    if offset + buf.length ≤ 4096 ∧ offset ≤ j ∧ j < offset + buf.length then buf.getD (j - offset) 0
    else b
  | _ => b

/-- The last write to byte `j` of BAR4, and 0 when there was none. -/
def lastWritten (j : ℕ) (inputs : List Input) : Byte := inputs.foldl (lastWrittenNext j) 0

theorem NvmeCtrl.raise_msixRegion (n : NvmeCtrl) (irq : ℤ) :
    (n.raise irq).msixRegion = n.msixRegion := by
  rw [raise]; split <;> rfl

theorem Executed.msixRegion {n n' : NvmeCtrl} {heap : Heap} {q : QueueId} {sqe : NvmeSqe}
    {st : Status} {cdw0 : BitVec 32} (hx : Executed n heap q sqe st cdw0 n') :
    n'.msixRegion = n.msixRegion := by
  cases hx <;> rfl

theorem Completed.msixRegion {n n' : NvmeCtrl} {heap : Heap} {q : QueueId} {sqe : NvmeSqe}
    {st : Status} {cdw0 : BitVec 32} (hp : Completed n heap q sqe cdw0 st n') :
    n'.msixRegion = n.msixRegion := by
  cases hp with
  | silent | dropped => rfl
  | posted => rw [nvmePostTo, NvmeCtrl.raise_msixRegion]; rfl

theorem nvmeRegStore_msixRegion (n : NvmeCtrl) (offset : ℕ) (v : BitVec 64) (count : ℕ) :
    (nvmeRegStore n offset v count).msixRegion = n.msixRegion := by
  rcases nvmeRegStore_cases n offset v count with ⟨-, he⟩ | ⟨-, _, _, _, _, _, he⟩
  · rw [he, nvmeCcWrite, nvmeCcShutdown, nvmeCcEnable]
    split_ifs <;> rfl
  · rw [he]

theorem Device.step_msixRegion {d d' : Device} {i : Input} (hs : d.step i = some d') :
    d'.n.msixRegion = msixNext d.n.msixRegion i := by
  have hcases := step_cases hs
  cases i with
  | msix isWrite offset buf =>
    cases hb : d.busy with
    | some q => simp [step, hb] at hs
    | none =>
      simp only [step, hb, Option.some.injEq] at hs
      rw [← hs]
      cases isWrite with
      | false =>
        simp only [nvmeMsixAccess, msixNext, Bool.false_eq_true, if_false]
        split_ifs <;> rfl
      | true =>
        by_cases hfit : 4096 < offset + buf.length
        · simp [nvmeMsixAccess, msixNext, hfit]
        · simp [nvmeMsixAccess, msixNext, hfit, not_lt.mp hfit, NvmeCtrl.reply]
  | bar0 isWrite offset buf =>
    cases hcases with
    | register => exact nvmeRegStore_msixRegion _ _ _ _
    | read | noQueue | cqHead | sqTail => rfl
  | reset =>
    cases hcases
    rfl
  | iterate heap =>
    cases hcases with
    | finished | fetchFailed => rfl
    | consumed hb hh hx hc =>
      obtain ⟨-, -, hx, hp⟩ := hc
      exact hp.msixRegion.trans hx.msixRegion
  | hostMemory mem | dmaRegions vfu =>
    cases hcases
    rfl

theorem msixNext_apply (region : Buffer 4096) (i : Input) (j : Fin 4096) :
    msixNext region i j = lastWrittenNext j.val (region j) i := by
  cases i with
  | msix isWrite offset buf =>
    cases isWrite with
    | false => rfl
    | true =>
      rw [msixNext, lastWrittenNext]
      by_cases hfit : offset + buf.length ≤ 4096
      · simp only [hfit, if_true, true_and, Buffer.copy]
      · simp only [hfit, if_false, false_and]
  | _ => rfl

theorem Device.run_msixRegion {d d' : Device} {inputs : List Input}
    (hr : run step d inputs = some d') (j : Fin 4096) :
    d'.n.msixRegion j = inputs.foldl (lastWrittenNext j.val) (d.n.msixRegion j) := by
  induction inputs generalizing d with
  | nil =>
    obtain rfl := Option.some.inj hr
    rfl
  | cons i inputs ih =>
    obtain ⟨d₁, h₁, hrest⟩ := Option.bind_eq_some_iff.mp hr
    rw [ih hrest, step_msixRegion h₁, msixNext_apply, List.foldl_cons]

/-- After any run from the start of the controller, a BAR4 read within the region returns for each
byte what the run last wrote to it. -/
theorem Device.msix_last_written {maxNumKeys : BitVec 32} {d₀ d d' : Device} {inputs : List Input}
    (h₀ : Initial maxNumKeys d₀) (hr : run step d₀ inputs = some d) {offset : ℕ} {buf : List Byte}
    (hfit : offset + buf.length ≤ 4096) (hs : d.step (.msix false offset buf) = some d') :
    d.newEvents d' =
      [.reply ((List.range buf.length).map fun i => lastWritten (offset + i) inputs)] := by
  have hbytes : (d.n.msixRegion.bytes.drop offset).take buf.length =
      (List.range buf.length).map fun i => lastWritten (offset + i) inputs := by
    apply List.ext_getElem
    · simp
      omega
    · intro i h₁ h₂
      have hi : i < buf.length := by simpa using h₂
      simp only [List.getElem_take, List.getElem_drop, Buffer.getElem_bytes, List.getElem_map,
        List.getElem_range]
      obtain ⟨⟨heap, world, hn, -⟩, -⟩ := h₀
      obtain ⟨ns, -, hn⟩ := Option.map_eq_some_iff.mp hn
      rw [run_msixRegion hr, ← hn]
      rfl
  cases hb : d.busy with
  | some q => simp [step, hb] at hs
  | none =>
    simp only [step, hb, Option.some.injEq, nvmeMsixAccess, Bool.false_eq_true, if_false, if_true,
      if_neg (not_lt.mpr hfit), hbytes] at hs
    rw [← hs]
    exact newEvents_eq rfl

/-- Two overlapping writes with a reset in between. -/
def msixWrites : List Input :=
  [.msix true 16 [1, 2, 3, 4], .reset, .msix true 18 [5, 6], .msix true 4095 [7, 8]]

theorem Device.msix_last_written_overlap :
    ∃ d₀ d d', Initial 1 d₀ ∧ run step d₀ msixWrites = some d ∧
      d.step (.msix false 15 (List.replicate 6 0)) = some d' ∧
      d.newEvents d' = [.reply [0, 1, 2, 5, 6, 0]] := by
  obtain ⟨n, hn⟩ : ∃ n, nvmeCtrlInit (fun _ => true) ⟨.flat, fun _ => 0, []⟩ 1 = some n := ⟨_, rfl⟩
  have h₀ : Initial 1 ⟨n, none⟩ := ⟨⟨_, _, hn, rfl⟩, rfl⟩
  obtain ⟨d, hd⟩ : ∃ d, run step ⟨n, none⟩ msixWrites = some d := ⟨_, rfl⟩
  have hidle : d.busy = none := by
    rw [← Option.some.inj hd]
  obtain ⟨d', hd'⟩ : ∃ d', d.step (.msix false 15 (List.replicate 6 0)) = some d' := by
    simp [step, hidle]
  have hread : (List.range 6).map (fun i => lastWritten (15 + i) msixWrites) =
      [0, 1, 2, 5, 6, 0] := by decide
  refine ⟨_, d, d', h₀, hd, hd', ?_⟩
  rw [msix_last_written h₀ hd (by decide) hd', List.length_replicate, hread]

end VfuKvssd
