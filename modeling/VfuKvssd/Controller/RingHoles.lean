import VfuKvssd.Controller.PhaseTags

/-! # Holes in a completion ring

`nvme_post_cqe` does not look at the result of the transfer that writes the
entry. A slot that cannot be mapped is passed over like any other, and what is
written behind it lies behind a slot that was never written.
-/
namespace VfuKvssd
open Foundations

/-! ## What reaches guest memory -/

/-- The entries posted to a completion queue since its creation: how many there are, and the
numbers of those that were written. `writing` is set by a write since the last command. -/
structure Landings where
  writing : Bool
  count : ℕ
  written : List ℕ
deriving DecidableEq

def Landings.next (c : QueueId) (l : Landings) : Event → Landings
  | .dmaWrite _ _ => { l with writing := true }
  | .command .. => { l with writing := false }
  | .cqInit c' _ => if c' = c then { l with count := 0, written := [] } else l
  | .posted c' _ _ =>
    if c' = c then
      { l with
        count := l.count + 1
        written := if l.writing then l.written ++ [l.count] else l.written }
    else l
  | _ => l

def landings (c : QueueId) (es : List Event) : Landings := es.foldl (Landings.next c) ⟨false, 0, []⟩

theorem landings_append (c : QueueId) (es fs : List Event) :
    landings c (es ++ fs) = fs.foldl (Landings.next c) (landings c es) := List.foldl_append

theorem sglCopyLoop_logs (len : ℕ) (sgl : List Sg) (done : ℕ) (buf : List Byte) (w : World) :
    ∃ es, (sglCopyLoop true len sgl done buf w).2.2.trace = w.trace ++ es ∧
      (∀ e ∈ es, ∃ a bytes, e = .dmaWrite a bytes) ∧ (done < len → sgl ≠ [] → es ≠ []) := by
  induction sgl generalizing done w with
  | nil => exact ⟨[], by simp [sglCopyLoop], by simp, fun _ h => absurd rfl h⟩
  | cons s sgl ih =>
    rw [sglCopyLoop]
    split
    · rename_i hd
      obtain ⟨es, htr, hes, -⟩ := ih (done + if len < done + s.len then len - done else s.len)
        (w.dmaWrite s.base ((buf.drop done).take (if len < done + s.len then len - done else s.len)))
      refine ⟨_, htr.trans (List.append_assoc ..), ?_, by simp⟩
      rw [List.singleton_append]
      exact List.forall_mem_cons.mpr ⟨⟨_, _, rfl⟩, hes⟩
    · rename_i hd
      exact ⟨[], by simp, by simp, fun h => absurd h hd⟩

theorem nvmeGpaXfer_logs (w : World) (sglOk : Bool) (gpa : Addr) {buf : List Byte}
    (hb : 0 < buf.length) :
    ∃ es, (nvmeGpaXfer w sglOk gpa buf true).2.2.trace = w.trace ++ es ∧
      (∀ e ∈ es, ∃ a bytes, e = .dmaWrite a bytes) ∧
      (es ≠ [] ↔ (sglOk && w.vfu.reaches gpa buf.length .write) = true) := by
  rw [nvmeGpaXfer, if_neg (by omega), Vfu.reaches, show xferProt true = .write from rfl]
  cases sglOk with
  | false => exact ⟨[], by simp, by simp, by simp⟩
  | true =>
    simp only [Bool.not_true, Bool.false_eq_true, if_false, Bool.true_and]
    cases hsgl : w.vfu.addrToSgl gpa buf.length 8 .write with
    | none => exact ⟨[], by simp, by simp, by simp⟩
    | some sgl =>
      have hne := w.vfu.ne_nil hsgl
      have hlen := w.vfu.length_le hsgl
      have hmax : nvmeMaxSg = 16 := rfl
      simp only [nvmeSglCopy]
      rw [if_neg (by have := List.length_pos_iff.mpr hne; omega)]
      cases hget : w.vfu.sglGet sgl with
      | false => exact ⟨[], by simp, by simp, by simp⟩
      | true =>
        obtain ⟨es, htr, hes, hsome⟩ := sglCopyLoop_logs buf.length sgl 0 buf w
        exact ⟨es, by simpa using htr, hes, by simpa using hsome hb hne⟩

theorem nvmePostTo_logs (n : NvmeCtrl) (heap : Heap) (c : QueueId) (cqe : NvmeCqe) :
    ∃ es irqs, (nvmePostTo n heap c cqe).world.trace =
        n.world.trace ++ (es ++ .posted c (n.cq c).tail cqe :: irqs) ∧
      (∀ e ∈ es, ∃ a bytes, e = .dmaWrite a bytes) ∧ (∀ e ∈ irqs, ∃ v, e = .irq v) ∧
      (es ≠ [] ↔ n.lands heap c = true) := by
  have hlen : 0 < cqe.toBytes.length := by simp
  obtain ⟨es, htr, hes, hlands⟩ := nvmeGpaXfer_logs n.world (heap .cqeSgl)
    ((n.cq c).slotAddr (n.cq c).tail) hlen
  rw [NvmeCqe.toBytes_length] at hlands
  rcases hx : nvmeGpaXfer n.world (heap .cqeSgl) ((n.cq c).slotAddr (n.cq c).tail) cqe.toBytes true
    with ⟨ok, buf, w⟩
  have hw₁ : w.trace = n.world.trace ++ es := by rw [← htr, hx]
  obtain ⟨irqs, hw, hirqs⟩ :=
    (((n.withWorld w).log (.posted c (n.cq c).tail cqe)).setCq c (n.cq c).advance).raise_world
      (n.cq c).irq
  refine ⟨es, irqs, ?_, hes, hirqs, hlands⟩
  simp only [nvmePostTo, hx, hw]
  simp [hw₁]

/-! ## The log of a queue -/

namespace Landings
variable {c : QueueId} {es : List Event}

theorem foldl_quiet (h : ∀ e ∈ es, ¬ e.Concerns c) (l : Landings) :
    (es.foldl (next c) l).count = l.count ∧ (es.foldl (next c) l).written = l.written := by
  induction es generalizing l with
  | nil => exact ⟨rfl, rfl⟩
  | cons e es ih =>
    obtain ⟨he, hes⟩ := List.forall_mem_cons.mp h
    have hnext : (next c l e).count = l.count ∧ (next c l e).written = l.written := by
      cases e with
      | cqInit c' | posted c' =>
        have hc : c' ≠ c := he
        rw [next, if_neg hc]
        exact ⟨rfl, rfl⟩
      | _ => exact ⟨rfl, rfl⟩
    rw [← hnext.1, ← hnext.2]
    exact ih hes _

theorem foldl_empty (h : ∀ slot cqe, .posted c slot cqe ∉ es) {l : Landings} (hc : l.count = 0)
    (hw : l.written = []) :
    (es.foldl (next c) l).count = 0 ∧ (es.foldl (next c) l).written = [] := by
  induction es generalizing l with
  | nil => exact ⟨hc, hw⟩
  | cons e es ih =>
    have hnext : (next c l e).count = 0 ∧ (next c l e).written = [] := by
      cases e with
      | posted c' slot cqe =>
        have hne : c' ≠ c := fun he => h slot cqe (by rw [he]; exact List.mem_cons_self ..)
        rw [next, if_neg hne]
        exact ⟨hc, hw⟩
      | cqInit c' k =>
        rw [next]
        split
        · exact ⟨rfl, rfl⟩
        · exact ⟨hc, hw⟩
      | _ => exact ⟨hc, hw⟩
    exact ih (fun slot cqe hm => h slot cqe (List.mem_cons_of_mem _ hm)) hnext.1 hnext.2

theorem foldl_started {k : ℕ} (hi : .cqInit c k ∈ es) (h : ∀ slot cqe, .posted c slot cqe ∉ es)
    (l : Landings) :
    (es.foldl (next c) l).count = 0 ∧ (es.foldl (next c) l).written = [] := by
  obtain ⟨as, bs, rfl⟩ := List.append_of_mem hi
  have hbs (slot : BitVec 16) (cqe : NvmeCqe) : .posted c slot cqe ∉ bs := fun hm =>
    h slot cqe (List.mem_append_right _ (List.mem_cons_of_mem _ hm))
  rw [List.foldl_append, List.foldl_cons, next, if_pos rfl]
  exact foldl_empty hbs rfl rfl

theorem foldl_writes (h : ∀ e ∈ es, ∃ a bytes, e = .dmaWrite a bytes) (l : Landings) :
    es.foldl (next c) l = { l with writing := l.writing || !es.isEmpty } := by
  induction es generalizing l with
  | nil => simp
  | cons e es ih =>
    obtain ⟨⟨a, bytes, rfl⟩, hes⟩ := List.forall_mem_cons.mp h
    rw [List.foldl_cons, ih hes]
    simp [next]

theorem foldl_irqs (h : ∀ e ∈ es, ∃ v, e = .irq v) (l : Landings) : es.foldl (next c) l = l := by
  induction es generalizing l with
  | nil => rfl
  | cons e es ih =>
    obtain ⟨⟨v, rfl⟩, hes⟩ := List.forall_mem_cons.mp h
    exact ih hes l

/-- An entry behind a command counts, and is written when there was a write. -/
theorem foldl_post {pre ws irqs : List Event} (hpre : ∀ e ∈ pre, ¬ e.Concerns c)
    (hws : ∀ e ∈ ws, ∃ a bytes, e = .dmaWrite a bytes) (hirqs : ∀ e ∈ irqs, ∃ v, e = .irq v)
    (q : QueueId) (cqid : BitVec 16) (sqe : NvmeSqe) (cdw0 : BitVec 32) (st : Status)
    (slot : BitVec 16) (cqe : NvmeCqe) (l : Landings) :
    let l' := (pre ++ .command q cqid sqe cdw0 st :: (ws ++ .posted c slot cqe :: irqs)).foldl
      (next c) l
    l'.count = l.count + 1 ∧
      l'.written = if ws = [] then l.written else l.written ++ [l.count] := by
  intro l'
  obtain ⟨hc, hw⟩ := foldl_quiet hpre l
  have hl' : l' = next c ⟨!ws.isEmpty, l.count, l.written⟩ (.posted c slot cqe) := by
    simp only [l', List.foldl_append, List.foldl_cons, foldl_irqs hirqs, foldl_writes hws]
    simp only [next, hc, hw, Bool.false_or]
  rw [hl', next, if_pos rfl]
  cases ws with
  | nil => exact ⟨rfl, rfl⟩
  | cons => exact ⟨rfl, rfl⟩

end Landings

/-! ## Runs -/

/-- The input posts no completion, or one whose slot can be written. -/
def postsLand (d : Device) : Input → Bool
  | .iterate heap => (d.postsTo heap).all (d.n.lands heap)
  | _ => true

/-- Every entry that the tail and the phase have passed was written. -/
structure NvmeCtrl.Gapless (n : NvmeCtrl) (c : QueueId) : Prop where
  written : (landings c n.world.trace).written = List.range (landings c n.world.trace).count
  stands : (n.cq c).At (cqPos (n.cq c).size.toNat (landings c n.world.trace).count)

namespace NvmeCtrl.Gapless
variable {n n' : NvmeCtrl} {c : QueueId}

theorem change (h : (n.cq c).enabled = true → n.Gapless c) (hc : CqChange n n' c)
    (he : (n'.cq c).enabled = true) : n'.Gapless c := by
  cases hc with
  | kept htr hes hcq =>
    obtain ⟨hcount, hwritten⟩ := Landings.foldl_quiet hes (landings c n.world.trace)
    rw [hcq] at he
    obtain ⟨hw, hs⟩ := h he
    refine ⟨?_, ?_⟩
    · rw [htr, landings_append, hcount, hwritten]
      exact hw
    · rw [htr, landings_append, hcount, hcq]
      exact ⟨hs.tail, hs.phase⟩
  | stopped htr hes hoff =>
    rw [hoff] at he
    cases he
  | created htr hes hi hf =>
    obtain ⟨hcount, hwritten⟩ := Landings.foldl_started hi hes (landings c n.world.trace)
    refine ⟨?_, ?_⟩
    · rw [htr, landings_append, hcount, hwritten]
      rfl
    · rw [htr, landings_append, hcount]
      exact hf.at_cqPos _

theorem post (h : n.Gapless c) (hok : (n.cq c).Ok) {n₁ : NvmeCtrl} (hcq : n₁.cq c = n.cq c)
    {pre : List Event} (hpre : ∀ e ∈ pre, ¬ e.Concerns c) {q : QueueId} {cqid : BitVec 16}
    {sqe : NvmeSqe} {cdw0 : BitVec 32} {st : Status}
    (htr : n₁.world.trace = n.world.trace ++ pre ++ [.command q cqid sqe cdw0 st]) {heap : Heap}
    (hlands : n₁.lands heap c = true) (cqe : NvmeCqe) :
    (nvmePostTo n₁ heap c cqe).Gapless c := by
  obtain ⟨ws, irqs, hlog, hws, hirqs, hsome⟩ := nvmePostTo_logs n₁ heap c cqe
  obtain ⟨hcount, hwritten⟩ := Landings.foldl_post hpre hws hirqs q cqid sqe cdw0 st (n₁.cq c).tail
    cqe (landings c n.world.trace)
  rw [if_neg (hsome.mpr hlands), h.written] at hwritten
  have htrace : (nvmePostTo n₁ heap c cqe).world.trace = n.world.trace ++
      (pre ++ .command q cqid sqe cdw0 st :: (ws ++ .posted c (n₁.cq c).tail cqe :: irqs)) := by
    rw [hlog, htr]
    simp
  refine ⟨?_, ?_⟩
  · rw [htrace, landings_append, hcount, hwritten, List.range_succ]
  · rw [htrace, landings_append, hcount, (nvmePostTo_frame n₁ heap c cqe).2.1, Function.update_self,
      hcq, NvmeCq.advance_size]
    exact h.stands.advance_cqPos hok

end NvmeCtrl.Gapless

theorem StepCase.gapless {d d' : Device} {i : Input} (hs : StepCase d i d') (hok : d.Ok)
    (hland : postsLand d i = true) {c : QueueId}
    (h : (d.n.cq c).enabled = true → d.n.Gapless c) (he : (d'.n.cq c).enabled = true) :
    d'.n.Gapless c := by
  cases hs.cqStep hok c with
  | changed hc => exact .change h hc he
  | @posted heap q st cdw0 n₁ pre hi hf hr hst hen htr hpre hn =>
    subst hi
    rw [postsLand, Device.postsTo_eq hf hr hst hen, Option.all_some] at hland
    rw [hn]
    exact (h hen).post (hok.rings.cq c hen) hr.cq hpre htr (hr.lands.trans hland) _

/-- In every run whose completions are all posted to slots that can be written, every entry that
the tail and the phase of a completion queue have passed since its creation was written, and each
is in guest memory, in the slot it was posted to, when the step that posts it ends. -/
theorem Device.no_holes {maxNumKeys : BitVec 32} {d₀ d : Device} (h₀ : Initial maxNumKeys d₀)
    (hr : Reaches step (fun d i => postsLand d i = true) d₀ d) {c : QueueId} :
    ((d.n.cq c).enabled = true → d.n.Gapless c) ∧
    ∀ i d' slot cqe, postsLand d i = true → d.step i = some d' →
      .posted c slot cqe ∈ d.newEvents d' →
      (d'.n.cq c).entry d'.n.world.mem slot.toNat = cqe := by
  obtain ⟨hok, hg⟩ : d.Ok ∧ ∀ c, (d.n.cq c).enabled = true → d.n.Gapless c := by
    apply hr.invariant (I := fun d => d.Ok ∧ ∀ c, (d.n.cq c).enabled = true → d.n.Gapless c)
    · rintro s i t ⟨hok, h⟩ hland hs
      have hcase := step_cases hs
      exact ⟨hcase.ok hok, fun c => hcase.gapless hok hland (h c)⟩
    · exact ⟨h₀.ok, fun c he => by simp [h₀.queues_off.2] at he⟩
  refine ⟨hg c, fun i d' slot cqe hland hs hmem => ?_⟩
  obtain ⟨heap, rfl, hto, -, hentry⟩ := (step_cases hs).posting hok (mem_postings hmem)
  rw [postsLand, hto, Option.all_some] at hland
  exact hentry hland

/-- One completion in an admin queue that is mapped. -/
theorem Device.no_holes_one :
    ∃ d₀ d, Initial 1 d₀ ∧ Reaches step (fun d i => postsLand d i = true) d₀ d ∧
      (d.n.cq 0).enabled = true ∧ (landings 0 d.n.world.trace).count = 1 ∧
      (landings 0 d.n.world.trace).written = [0] := by
  have hrun : (bootRun 1 postsLand (smallCqInputs 1)).map
      (fun d => decide ((d.n.cq 0).enabled = true ∧ (landings 0 d.n.world.trace).count = 1)) =
      some true := by decide +kernel
  obtain ⟨d, hd, hobs⟩ := Option.map_eq_some_iff.mp hrun
  obtain ⟨he, hone⟩ := of_decide_eq_true hobs
  obtain ⟨d₀, h₀, hr⟩ := reaches_of_bootRun (C := fun d i => postsLand d i = true)
    (fun _ _ _ hok => hok) hd
  refine ⟨d₀, d, h₀, hr, he, hone, ?_⟩
  rw [((no_holes h₀ hr).1 he).written, hone]
  rfl

/-- One region below 0x40000 and one from 0x41000 on. -/
def Vfu.holed : Vfu where
  addrToSgl a n maxSg _ :=
    if 0 < maxSg ∧ (a.toNat + n ≤ 0x40000 ∨ 0x41000 ≤ a.toNat) then some [⟨a, n⟩] else none
  sglGet _ := true
  ne_nil h := by
    split at h
    · rw [← Option.some.inj h]
      exact List.cons_ne_nil _ _
    · cases h
  length_le h := by
    split at h
    · rename_i hm
      rw [← Option.some.inj h]
      exact hm.1
    · cases h
  covers h := by
    split at h
    · rw [← Option.some.inj h]
      simp [Sg.addrs]
    · cases h

/-- A completion queue of 16 entries at 0x40ff0, with a submission queue on it, and two commands:
the first slot lies in the page that is not mapped. -/
def holedInputs : List Input :=
  enableAdmin ++ [.dmaRegions .holed, .hostMemory (memoryOf [(0, 5), (24, 0xf0), (25, 0x0f), (26, 4),
    (40, 1), (42, 15), (64, 1), (90, 3), (104, 1), (106, 15), (110, 1)]), sqTailWrite 0 2] ++
    iterations 3 ++ [sqTailWrite 1 2] ++ iterations 2

/-- The queue is created, the first completion is lost, and the second is written behind the slot
that the host waits at. -/
theorem Device.hole_in_ring :
    ∃ d, Reachable 1 d ∧ (d.n.cq 1).enabled = true ∧ (d.n.cq 1).tail = 2 ∧
      landings 1 d.n.world.trace = ⟨true, 2, [1]⟩ ∧ ¬ d.n.Gapless 1 := by
  have hrun : (bootRun 1 (fun _ _ => true) holedInputs).map
      (fun d => decide ((d.n.cq 1).enabled = true ∧ (d.n.cq 1).tail = 2 ∧
        landings 1 d.n.world.trace = ⟨true, 2, [1]⟩)) = some true := by decide +kernel
  obtain ⟨d, hd, hobs⟩ := Option.map_eq_some_iff.mp hrun
  obtain ⟨he, htail, hland⟩ := of_decide_eq_true hobs
  refine ⟨d, reachable_of_bootRun hd, he, htail, hland, fun h => ?_⟩
  have hw := h.written
  rw [hland] at hw
  exact absurd hw (by decide)

end VfuKvssd
