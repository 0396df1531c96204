import VfuKvssd.Controller.Features
import VfuKvssd.Controller.HostRings

/-! # One served entry in full

With its entry and its completion slot reachable, an iteration fetches the entry
at the head, runs it, and leaves the completion in guest memory. `Serves` keeps
the outcome of running the command apart from what the engine adds to it.
-/
namespace VfuKvssd
open Foundations

/-- The iteration from `d` to `n'` ran the entry at the head of `q` to `n₀` and completed it on
`c`. -/
structure Serves (d : Device) (heap : Heap) (q c : QueueId) (st : Status) (cdw0 : BitVec 32)
    (n₀ n' : NvmeCtrl) : Prop where
  ran : ∃ w, w.mem = d.n.world.mem ∧ w.vfu = d.n.world.vfu ∧
    nvmeExecute (d.n.fetched q w) heap q (d.n.headEntry q) = some (st, cdw0, n₀)
  sq : n'.sq = n₀.sq
  cq : n'.cq = Function.update n₀.cq c (d.n.cq c).advance
  ns : n'.ns = n₀.ns
  registers : n'.cc = n₀.cc ∧ n'.csts = n₀.csts
  vfu : n'.world.vfu = d.n.world.vfu
  mem : n'.world.mem = writeAll n₀.world.mem (span ((d.n.cq c).slotAddr (d.n.cq c).tail) 16)
    (d.n.completion q c cdw0 st).toBytes

/-- An iteration changes nothing, or it fetches the entry at the head, runs it and completes it. -/
theorem Device.iterate_inv {d d' : Device} {heap : Heap} (hs : d.step (.iterate heap) = some d') :
    d'.n = d.n ∨ ∃ q buf w st cdw0 n₀, d.busy = some q ∧
      Moved false (span ((d.n.sq q).slotAddr (d.n.sq q).head) 64) (List.replicate 64 0) buf
        d.n.world w ∧
      nvmeExecute (d.n.fetched q w) heap q (d.n.headEntry q) = some (st, cdw0, n₀) ∧
      Completed (n₀.log (.command q (n₀.sq q).cqid (d.n.headEntry q) cdw0 st)) heap q
        (d.n.headEntry q) cdw0 st d'.n := by
  cases hb : d.busy with
  | none => simp [step, hb] at hs
  | some q =>
    simp only [step, hb] at hs
    obtain ⟨⟨n, more⟩, hn, rfl⟩ := Option.map_eq_some_iff.mp hs
    rw [nvmeProcessSqStep] at hn
    have hout := nvmeGpaXfer_outcome d.n.world (heap .sqeSgl)
      ((d.n.sq q).slotAddr (d.n.sq q).head) (List.replicate 64 0) false
    split at hn
    · obtain ⟨rfl, -⟩ := Prod.mk.inj (Option.some.inj hn)
      exact .inl rfl
    split at hn
    · rename_i buf w hx
      rw [hx] at hout
      cases hout
      obtain ⟨rfl, -⟩ := Prod.mk.inj (Option.some.inj hn)
      exact .inl rfl
    · rename_i buf w hx
      rw [hx] at hout
      cases hout with
      | done hm =>
        rw [List.length_replicate] at hm
        have hentry : (⟨Buffer.ofBytes buf⟩ : NvmeSqe) = d.n.headEntry q := by
          rw [NvmeCtrl.headEntry, hm.buf]
          rfl
        rw [hentry] at hn
        obtain ⟨n', hc, hr⟩ := Option.map_eq_some_iff.mp hn
        obtain ⟨rfl, -⟩ := Prod.mk.inj hr
        obtain ⟨fs, hfs, hes⟩ := hm.trace
        obtain ⟨st, cdw0, n₀, -, hx', hp, -, -⟩ := nvmeConsume_command ⟨fs, hfs, hes.isData⟩ hc
        exact .inr ⟨q, buf, w, st, cdw0, n₀, rfl, hm, hx', hp⟩

theorem nvmeProcessSqStep_fetched {n : NvmeCtrl} {heap : Heap} {q : QueueId}
    (hne : (n.sq q).head ≠ (n.sq q).tail) (hsgl : heap .sqeSgl = true)
    (hmap : n.world.vfu.reaches ((n.sq q).slotAddr (n.sq q).head) 64 .read = true) :
    ∃ w fs, w.mem = n.world.mem ∧ w.vfu = n.world.vfu ∧ w.trace = n.world.trace ++ fs ∧
      (∀ e ∈ fs, e.isData = true) ∧
      nvmeProcessSqStep n heap q =
        (nvmeConsume (n.withWorld w) heap q (n.headEntry q)).map fun n => (n, true) := by
  have hok := nvmeGpaXfer_ok n.world (heap .sqeSgl) ((n.sq q).slotAddr (n.sq q).head)
    (List.replicate 64 0) (by simp) false
  rw [List.length_replicate, hsgl, xferProt, if_neg Bool.false_ne_true, hmap] at hok
  have hout := nvmeGpaXfer_outcome n.world (heap .sqeSgl) ((n.sq q).slotAddr (n.sq q).head)
    (List.replicate 64 0) false
  rw [List.length_replicate, hsgl] at hout
  rcases hx : nvmeGpaXfer n.world true ((n.sq q).slotAddr (n.sq q).head) (List.replicate 64 0)
    false with ⟨ok, buf, w⟩
  rw [hx] at hok hout
  obtain rfl : ok = true := hok
  cases hout with
  | done hm =>
    obtain ⟨fs, hfs, hes⟩ := hm.trace
    refine ⟨w, fs, by simpa using hm.mem, hm.vfu, hfs, hes.isData, ?_⟩
    rw [nvmeProcessSqStep, if_neg hne, hsgl, hx]
    simp only [NvmeCtrl.headEntry, hm.buf, if_neg Bool.false_ne_true]

theorem nvmePostTo_lands (n : NvmeCtrl) {heap : Heap} {c : QueueId} (cqe : NvmeCqe)
    (hsgl : heap .cqeSgl = true)
    (hmap : n.world.vfu.reaches ((n.cq c).slotAddr (n.cq c).tail) 16 .write = true) :
    (nvmePostTo n heap c cqe).world.vfu = n.world.vfu ∧
      (nvmePostTo n heap c cqe).world.mem =
        writeAll n.world.mem (span ((n.cq c).slotAddr (n.cq c).tail) 16) cqe.toBytes := by
  obtain ⟨es, irqs, hp⟩ := nvmePostTo_effect n heap c cqe
  refine ⟨hp.vfu, hp.written ?_⟩
  have hok := nvmeGpaXfer_ok n.world (heap .cqeSgl) ((n.cq c).slotAddr (n.cq c).tail) cqe.toBytes
    (by simp) true
  rw [hok, hsgl, NvmeCqe.toBytes_length, xferProt, if_pos rfl, hmap]
  rfl

/-- A pending command with a reachable entry, other than an Asynchronous Event Request, is served
on an enabled completion queue with a reachable slot. -/
theorem Device.iterate_serves {d : Device} (hok : d.Ok) {heap : Heap} {q c : QueueId}
    (hheap : ∀ s, heap s = true) (hb : d.busy = some q)
    (hk : q = 0 ∨ d.n.ns.Valid ∧ d.n.ns.entriesAllocated < 2 ^ 31)
    (hne : (d.n.sq q).head ≠ (d.n.sq q).tail)
    (hread : d.n.world.vfu.reaches ((d.n.sq q).slotAddr (d.n.sq q).head) 64 .read = true)
    (hpair : (d.n.sq q).cqid.toNat = c.val) (hcq : (d.n.cq c).enabled = true)
    (hwrite : d.n.world.vfu.reaches ((d.n.cq c).slotAddr (d.n.cq c).tail) 16 .write = true)
    (haer : ¬ (q = 0 ∧ (d.n.headEntry q).opcode = nvmeAdmAsyncEvent)) :
    ∃ st cdw0 n₀ n', d.step (.iterate heap) = some ⟨n', some q⟩ ∧
      Serves d heap q c st cdw0 n₀ n' := by
  obtain ⟨d', hs⟩ := iterate_isSome hok hb heap (hk.imp_right fun h => ⟨h.1, fun _ => h.2⟩)
  obtain ⟨w, fs, hmem, hvfu, hfs, hdata, heq⟩ := nvmeProcessSqStep_fetched hne (hheap _) hread
  have hstep := hs
  simp only [step, hb, heq, Option.map_map] at hs
  obtain ⟨n', hc, rfl⟩ := Option.map_eq_some_iff.mp hs
  obtain ⟨st, cdw0, n₀, es, hx, hp, -, -⟩ := nvmeConsume_command ⟨fs, hfs, hdata⟩ hc
  have hx' := nvmeExecute_executed hx
  have hsq : n₀.sq q = (d.n.sq q).fetched := by
    rw [hx'.sq_self, NvmeCtrl.fetched, NvmeCtrl.setSq_sq, Function.update_self]
    rfl
  have hown : q = 0 → c = 0 := by
    rintro rfl
    rw [hok.rings.admin] at hpair
    exact Fin.ext hpair.symm
  have hcq₀ : n₀.cq c = d.n.cq c := hx'.cq_own hown
  have hvfu₀ : n₀.world.vfu = d.n.world.vfu := by
    obtain ⟨xs, he⟩ := hx'.effect
    exact he.vfu.trans hvfu
  refine ⟨st, cdw0, n₀, n', hstep, ?_⟩
  cases hp with
  | silent hst => exact absurd (hx'.noComplete_iff.mp hst) haer
  | dropped _ ha he =>
    rw [NvmeCtrl.log_sq, hsq] at ha
    obtain rfl : c = _ := Fin.ext (hpair.symm.trans ha)
    rw [NvmeCtrl.log_cq, hcq₀, hcq] at he
    cases he
  | @posted _ a ha he =>
    rw [NvmeCtrl.log_sq, hsq] at ha
    obtain rfl : c = a := Fin.ext (hpair.symm.trans ha)
    have hcqe : cqeFor ((n₀.log (.command q (n₀.sq q).cqid (d.n.headEntry q) cdw0 st)).cq c)
        (BitVec.ofNat 16 q.val)
        ((n₀.log (.command q (n₀.sq q).cqid (d.n.headEntry q) cdw0 st)).sq q).head
        (d.n.headEntry q).cid cdw0 st = d.n.completion q c cdw0 st := by
      rw [NvmeCtrl.log_cq, NvmeCtrl.log_sq, hcq₀, hsq]
      rfl
    rw [hcqe]
    generalize hn : n₀.log (.command q (n₀.sq q).cqid (d.n.headEntry q) cdw0 st) = n₁
    have hcq₁ : n₁.cq c = d.n.cq c := by rw [← hn, NvmeCtrl.log_cq, hcq₀]
    have hvfu₁ : n₁.world.vfu = d.n.world.vfu := by
      rw [← hn, NvmeCtrl.log_world, World.log_vfu, hvfu₀]
    obtain ⟨hpsq, hpcq, hpns, hpcc, hpcsts⟩ :=
      nvmePostTo_frame n₁ heap c (d.n.completion q c cdw0 st)
    obtain ⟨hpvfu, hpmem⟩ := nvmePostTo_lands n₁ (d.n.completion q c cdw0 st) (hheap .cqeSgl)
      (by rw [hvfu₁, hcq₁]; exact hwrite)
    subst hn
    exact ⟨⟨w, hmem, hvfu, hx⟩, hpsq, by rw [hpcq, hcq₁]; rfl, hpns, ⟨hpcc, hpcsts⟩,
      hpvfu.trans hvfu₁, by rw [hpmem, hcq₁]; rfl⟩

end VfuKvssd
