import VfuKvssd.Controller.CqSteps
import VfuKvssd.Controller.Drain
import VfuKvssd.Controller.Features

/-! # The phase tag over the life of a completion queue

`nvme_post_cqe` compares a 16-bit tail with a 32-bit size after the increment.
A queue of 2^16 entries is accepted by Create I/O CQ; its tail wraps to 0 without
ever being equal to the size, so that its phase never flips.
-/
namespace VfuKvssd
open Foundations

def Event.posting (c : QueueId) : Event → Option (BitVec 16 × NvmeCqe)
  | .posted c' slot cqe => if c' = c then some (slot, cqe) else none
  | _ => none

def postings (c : QueueId) (es : List Event) : List (BitVec 16 × NvmeCqe) :=
  es.filterMap (Event.posting c)

theorem postings_append (c : QueueId) (es fs : List Event) :
    postings c (es ++ fs) = postings c es ++ postings c fs := List.filterMap_append

theorem mem_postings {c : QueueId} {es : List Event} {slot : BitVec 16} {cqe : NvmeCqe}
    (h : .posted c slot cqe ∈ es) : (slot, cqe) ∈ postings c es :=
  List.mem_filterMap.mpr ⟨_, h, if_pos rfl⟩

theorem of_mem_postings {c : QueueId} {es : List Event} {slot : BitVec 16} {cqe : NvmeCqe}
    (h : (slot, cqe) ∈ postings c es) : .posted c slot cqe ∈ es := by
  obtain ⟨e, he, hp⟩ := List.mem_filterMap.mp h
  cases e with
  | posted c' slot' cqe' =>
    rw [Event.posting] at hp
    split at hp
    · rename_i hc
      obtain ⟨rfl, rfl⟩ := Prod.mk.inj (Option.some.inj hp)
      exact hc ▸ he
    · cases hp
  | _ => cases hp

theorem postings_eq_nil {c : QueueId} {es : List Event}
    (h : ∀ slot cqe, .posted c slot cqe ∉ es) : postings c es = [] := by
  rw [postings, List.filterMap_eq_nil_iff]
  intro e he
  cases e with
  | posted c' slot cqe =>
    refine if_neg fun hc => h slot cqe ?_
    rwa [← hc]
  | _ => rfl

theorem postings_quiet {c : QueueId} {es : List Event} (h : ∀ e ∈ es, ¬ e.Concerns c) :
    postings c es = [] :=
  postings_eq_nil fun _ _ hm => h _ hm rfl

theorem postings_queueEvents (c : QueueId) (es : List Event) :
    postings c (queueEvents es) = postings c es := by
  rw [postings, queueEvents, List.filterMap_filter]
  congr 1
  funext e
  cases e <;> rfl

theorem nvmePostTo_postings {n : NvmeCtrl} {tr pre : List Event} {q c : QueueId}
    {cqid : BitVec 16} {sqe : NvmeSqe} {cdw0 : BitVec 32} {st : Status}
    (htr : n.world.trace = tr ++ pre ++ [.command q cqid sqe cdw0 st])
    (hpre : ∀ e ∈ pre, ¬ e.Concerns c) (heap : Heap) (cqe : NvmeCqe) :
    ∃ fs, (nvmePostTo n heap c cqe).world.trace = tr ++ fs ∧
      postings c fs = [((n.cq c).tail, cqe)] ∧ ∀ k, .cqInit c k ∉ fs := by
  obtain ⟨es, irqs, hp⟩ := nvmePostTo_effect n heap c cqe
  have hown := hp.queueEvents
  generalize hgs : es ++ [.posted c (n.cq c).tail cqe] ++ irqs = gs at hown
  have htrace : (nvmePostTo n heap c cqe).world.trace =
      tr ++ (pre ++ ([.command q cqid sqe cdw0 st] ++ gs)) := by
    rw [hp.trace, htr, ← hgs]
    simp
  refine ⟨_, htrace, ?_, fun k hk => ?_⟩
  · rw [postings_append, postings_quiet hpre, postings_append, ← postings_queueEvents c gs, hown]
    simp [postings, Event.posting]
  · rw [List.mem_append, List.mem_append, List.mem_singleton] at hk
    rcases hk with hk | hk | hk
    · exact hpre _ hk rfl
    · cases hk
    · rw [← mem_queueEvents rfl, hown, List.mem_singleton] at hk
      cases hk

/-! ## Entries in guest memory -/

/-- The slot at the tail of a completion queue can be written. -/
def NvmeCtrl.lands (n : NvmeCtrl) (heap : Heap) (c : QueueId) : Bool :=
  heap .cqeSgl && n.world.vfu.reaches ((n.cq c).slotAddr (n.cq c).tail) 16 .write

/-- The entry of a post that lands is in guest memory. -/
theorem nvmePostTo_entry {n : NvmeCtrl} {heap : Heap} {c : QueueId}
    (h : n.lands heap c = true) (cqe : NvmeCqe) :
    ((nvmePostTo n heap c cqe).cq c).entry (nvmePostTo n heap c cqe).world.mem
      (n.cq c).tail.toNat = cqe := by
  obtain ⟨es, irqs, hp⟩ := nvmePostTo_effect n heap c cqe
  have hok := nvmeGpaXfer_ok n.world (heap .cqeSgl) ((n.cq c).slotAddr (n.cq c).tail) cqe.toBytes
    (by simp) true
  rw [NvmeCqe.toBytes_length, show xferProt true = .write from rfl] at hok
  have hspan : span ((n.cq c).slotAddr (n.cq c).tail) 16 =
      slotSpan (n.cq c).dma 16 (n.cq c).tail.toNat := by
    rw [NvmeCq.slotAddr_eq]
    rfl
  have hnodup : (slotSpan (n.cq c).dma 16 (n.cq c).tail.toNat).Nodup := span_nodup (by decide)
  rw [hp.written (hok.trans h), (nvmePostTo_frame n heap c cqe).2.1, Function.update_self,
    NvmeCq.entry, NvmeCq.advance_dma, hspan, map_writeAll hnodup (by simp [slotSpan]),
    NvmeCqe.ofBytes_toBytes]

/-- The slot that a command's completion goes to is the one before the command. -/
theorem Ran.lands {n n₁ : NvmeCtrl} {heap : Heap} {q c : QueueId} {st : Status} {cdw0 : BitVec 32}
    (h : Ran n heap q c st cdw0 n₁) : n₁.lands heap c = n.lands heap c := by
  obtain ⟨fs, xs, -, -, -, -, hvfu, -⟩ := h.world
  rw [NvmeCtrl.lands, NvmeCtrl.lands, h.cq, hvfu]

theorem CqChange.not_posted {n n' : NvmeCtrl} {c : QueueId} (h : CqChange n n' c) {es : List Event}
    (htr : n'.world.trace = n.world.trace ++ es) (slot : BitVec 16) (cqe : NvmeCqe) :
    .posted c slot cqe ∉ es := by
  cases h with
  | kept htr' hes =>
    obtain rfl := List.append_cancel_left (htr.symm.trans htr')
    exact fun hm => hes _ hm rfl
  | stopped htr' hes | created htr' hes =>
    obtain rfl := List.append_cancel_left (htr.symm.trans htr')
    exact hes slot cqe

/-- The completion queue that an iteration posts to. -/
def Device.postsTo (d : Device) (heap : Heap) : Option QueueId :=
  match d.busy with
  | none => none
  | some q =>
    if h : (d.n.sq q).cqid.toNat < nvmeMaxQueues then
      if d.fetches heap q && !(q == 0 && (d.n.headEntry q).opcode == nvmeAdmAsyncEvent) &&
          (d.n.cq ⟨(d.n.sq q).cqid.toNat, h⟩).enabled then
        some ⟨(d.n.sq q).cqid.toNat, h⟩
      else none
    else none

theorem Device.postsTo_eq {d : Device} {heap : Heap} {q c : QueueId} {st : Status}
    {cdw0 : BitVec 32} {n₁ : NvmeCtrl} (hf : d.fetches heap q = true)
    (hr : Ran d.n heap q c st cdw0 n₁) (hst : st ≠ nvmeNoComplete)
    (he : (d.n.cq c).enabled = true) : d.postsTo heap = some c := by
  have hb := (fetches_iff.mp hf).1
  have hlt : (d.n.sq q).cqid.toNat < nvmeMaxQueues := hr.own ▸ c.isLt
  have hc : (⟨(d.n.sq q).cqid.toNat, hlt⟩ : QueueId) = c := Fin.ext hr.own
  have ha := not_and_or.mp fun ha => hst (hr.noComplete_iff.mpr ha)
  simp [postsTo, hb, hlt, hc, hf, he, ha]

/-- A step that posts to a queue is an iteration that posts one entry, and the entry is in guest
memory afterwards if its slot can be written. -/
theorem StepCase.posting {d d' : Device} {i : Input} (hs : StepCase d i d') (hok : d.Ok)
    {c : QueueId} {slot : BitVec 16} {cqe : NvmeCqe}
    (hmem : (slot, cqe) ∈ postings c (d.newEvents d')) :
    ∃ heap, i = .iterate heap ∧ d.postsTo heap = some c ∧
      postings c (d.newEvents d') = [(slot, cqe)] ∧
      (d.n.lands heap c = true → (d'.n.cq c).entry d'.n.world.mem slot.toNat = cqe) := by
  cases hs.cqStep hok c with
  | changed hc =>
    obtain ⟨es, htr⟩ := hs.trace hok
    rw [Device.newEvents_eq htr, postings_eq_nil (hc.not_posted htr)] at hmem
    cases hmem
  | @posted heap q st cdw0 n₁ pre hi hf hr hst hen htr hpre hn =>
    obtain ⟨fs, hfs, hposts, -⟩ := nvmePostTo_postings htr hpre heap (d.n.completion q c cdw0 st)
    rw [← hn] at hfs
    rw [Device.newEvents_eq hfs, hposts] at hmem ⊢
    obtain ⟨rfl, rfl⟩ := Prod.mk.inj (List.mem_singleton.mp hmem)
    refine ⟨heap, hi, Device.postsTo_eq hf hr hst hen, rfl, fun hland => ?_⟩
    rw [hn]
    exact nvmePostTo_entry (hr.lands.trans hland) _

/-- Entry number `k` of a queue is posted by one iteration of a run. -/
theorem Device.Reachable.posting_at {maxNumKeys : BitVec 32} {d₁ d : Device}
    (h₁ : d₁.Reachable maxNumKeys) (hr : Reaches step (fun _ _ => True) d₁ d) {c : QueueId} {k : ℕ}
    {slot : BitVec 16} {cqe : NvmeCqe}
    (hk : (postings c (d₁.newEvents d))[k]? = some (slot, cqe)) :
    ∃ e e' heap, Reaches step (fun _ _ => True) d₁ e ∧ e.step (.iterate heap) = some e' ∧
      Reaches step (fun _ _ => True) e' d ∧ (postings c (d₁.newEvents e)).length = k ∧
      .posted c slot cqe ∈ e.newEvents e' ∧
      (e.n.lands heap c = true → (e'.n.cq c).entry e'.n.world.mem slot.toNat = cqe) := by
  induction hr with
  | refl => simp [newEvents_eq (List.append_nil _).symm, postings] at hk
  | @tail t u i ht _ hs ih =>
    have hok := (h₁.trans ht).ok
    obtain ⟨es, hes⟩ := h₁.trace ht
    obtain ⟨fs, hfs⟩ := (step_cases hs).trace hok
    have hnew : d₁.newEvents u = es ++ fs :=
      newEvents_eq (by rw [hfs, hes, List.append_assoc])
    rw [hnew, postings_append] at hk
    rw [newEvents_eq hes] at ih
    rcases lt_or_ge k (postings c es).length with hlt | hge
    · rw [List.getElem?_append_left hlt] at hk
      obtain ⟨e, e', heap, he, hs', he', hrest⟩ := ih hk
      exact ⟨e, e', heap, he, hs', he'.tail _ trivial hs, hrest⟩
    · rw [List.getElem?_append_right hge] at hk
      have hmem := List.mem_of_getElem? hk
      rw [← newEvents_eq hfs] at hk hmem
      obtain ⟨heap, rfl, -, hone, hentry⟩ := (step_cases hs).posting hok hmem
      rw [hone, List.getElem?_singleton] at hk
      split at hk
      · refine ⟨t, u, heap, ht, hs, .refl, ?_, of_mem_postings hmem, hentry⟩
        rw [newEvents_eq hes]
        omega
      · cases hk

/-! ## Positions -/

/-- Where entry number `k` of a completion queue goes. -/
def cqPos (size k : ℕ) : Cursor := if size = 2 ^ 16 then ⟨k % size, true⟩ else ringPos size k

theorem cqPos_eq_ringPos_iff {size k : ℕ} :
    cqPos size k = ringPos size k ↔ (size = 2 ^ 16 → k / size % 2 = 0) := by
  rw [cqPos]
  split_ifs with hs
  · rw [ringPos, Cursor.mk.injEq, and_iff_right rfl, imp_iff_right hs, eq_comm, beq_iff_eq]
  · exact iff_of_true rfl fun h => absurd h hs

theorem NvmeCq.Fresh.at_cqPos {cq : NvmeCq} (h : cq.Fresh) (size : ℕ) : cq.At (cqPos size 0) := by
  rw [cqPos_eq_ringPos_iff.mpr (by simp)]
  exact h.at size

/-- One entry further, for every size that Create I/O CQ accepts. -/
theorem NvmeCq.At.advance_cqPos {cq : NvmeCq} {k : ℕ} (h : cq.At (cqPos cq.size.toNat k))
    (hok : cq.Ok) : cq.advance.At (cqPos cq.size.toNat (k + 1)) := by
  by_cases hs : cq.size.toNat = 2 ^ 16
  · -- a 16-bit tail is never equal to the size
    have hne : (cq.tail + 1).setWidth 32 ≠ cq.size := by
      intro he
      have hlt := (cq.tail + 1).isLt
      rw [← he, BitVec.toNat_setWidth] at hs
      omega
    have hphase := h.phase
    rw [cqPos, if_pos hs] at hphase ⊢
    refine ⟨?_, ?_⟩
    · have htail : cq.tail.toNat = k % cq.size.toNat := by
        have ht := h.tail
        rwa [cqPos, if_pos hs] at ht
      rw [NvmeCq.advance_tail hok, htail, Nat.mod_add_mod]
    · rw [NvmeCq.advance, if_neg hne]
      exact hphase
  · have hle := hok.size_le
    rw [cqPos, if_neg hs] at h ⊢
    rw [← ringPos_next hok.size_pos]
    exact h.advance hok (by omega)

/-! ## Runs -/

/-- The completions `ps` posted to a queue since its creation, and where it stands as long as it
is up. -/
structure Tracks (c : QueueId) (size : ℕ) (ps : List (BitVec 16 × NvmeCqe)) (n : NvmeCtrl) :
    Prop where
  placed : ∀ k slot cqe, ps[k]? = some (slot, cqe) → ⟨slot.toNat, cqe.tag⟩ = cqPos size k
  live : (n.cq c).enabled = true →
    (n.cq c).size.toNat = size ∧ (n.cq c).At (cqPos size ps.length)

theorem Tracks.fresh {c : QueueId} {n : NvmeCtrl} (h : (n.cq c).Fresh) :
    Tracks c (n.cq c).size.toNat [] n :=
  ⟨by simp, fun _ => ⟨rfl, h.at_cqPos _⟩⟩

/-- Changes that do not start the queue afresh. -/
theorem Tracks.change {c : QueueId} {size : ℕ} {ps : List (BitVec 16 × NvmeCqe)} {n n' : NvmeCtrl}
    (h : Tracks c size ps n) (hc : CqChange n n' c) {es : List Event}
    (htr : n'.world.trace = n.world.trace ++ es) (hno : ∀ k, .cqInit c k ∉ es) :
    Tracks c size (ps ++ postings c es) n' := by
  cases hc with
  | kept htr' hes hcq =>
    obtain rfl := List.append_cancel_left (htr.symm.trans htr')
    rw [postings_quiet hes, List.append_nil]
    refine ⟨h.placed, fun he => ?_⟩
    rw [hcq] at he ⊢
    obtain ⟨hsize, hat⟩ := h.live he
    exact ⟨hsize, hat.tail, hat.phase⟩
  | stopped htr' hes hoff =>
    obtain rfl := List.append_cancel_left (htr.symm.trans htr')
    rw [postings_eq_nil hes, List.append_nil]
    refine ⟨h.placed, fun he => ?_⟩
    rw [hoff] at he
    cases he
  | created htr' hes hi =>
    obtain rfl := List.append_cancel_left (htr.symm.trans htr')
    exact absurd hi (hno _)

theorem Tracks.post {c : QueueId} {size : ℕ} {ps : List (BitVec 16 × NvmeCqe)} {n n' : NvmeCtrl}
    (h : Tracks c size ps n) (he : (n.cq c).enabled = true) (hok : (n.cq c).Ok) {cqe : NvmeCqe}
    (htag : ∀ b, (n.cq c).phase = (if b then 1 else 0) → cqe.tag = b)
    (hcq : n'.cq c = (n.cq c).advance) : Tracks c size (ps ++ [((n.cq c).tail, cqe)]) n' := by
  obtain ⟨hsize, hat⟩ := h.live he
  refine ⟨fun k slot x hk => ?_, fun _ => ?_⟩
  · rcases lt_or_ge k ps.length with hlt | hge
    · rw [List.getElem?_append_left hlt] at hk
      exact h.placed k slot x hk
    · rw [List.getElem?_append_right hge, List.getElem?_singleton] at hk
      split at hk
      · rename_i hz
        obtain rfl : k = ps.length := by omega
        obtain ⟨rfl, rfl⟩ := Prod.mk.inj (Option.some.inj hk)
        rw [hat.tail, htag _ hat.phase]
      · cases hk
  · rw [hcq, NvmeCq.advance_size, List.length_append, List.length_singleton]
    subst hsize
    exact ⟨rfl, hat.advance_cqPos hok⟩

theorem Tracks.step {c : QueueId} {size : ℕ} {ps : List (BitVec 16 × NvmeCqe)} {d d' : Device}
    {i : Input} (h : Tracks c size ps d.n) (hs : StepCase d i d') (hok : d.Ok)
    (hno : ∀ k, .cqInit c k ∉ d.newEvents d') :
    Tracks c size (ps ++ postings c (d.newEvents d')) d'.n := by
  cases hs.cqStep hok c with
  | changed hc =>
    obtain ⟨es, htr⟩ := hs.trace hok
    rw [Device.newEvents_eq htr] at hno ⊢
    exact h.change hc htr hno
  | @posted heap q st cdw0 n₁ pre _ _ hr hst he htr hpre hn =>
    obtain ⟨fs, hfs, hposts, -⟩ :=
      nvmePostTo_postings htr hpre heap (d.n.completion q c cdw0 st)
    rw [← hn] at hfs
    rw [Device.newEvents_eq hfs, hposts, hr.cq]
    refine h.post he (hok.rings.cq c he) (fun b hb => cqeFor_tag hb ..) ?_
    rw [hn, (nvmePostTo_frame n₁ heap c _).2.1, Function.update_self, hr.cq]

/-- A completion queue created by a Create I/O CQ command that succeeds, and a run in which it is
not created again. -/
structure CqRun (maxNumKeys : BitVec 32) (c : QueueId) (size : ℕ) (d₀ d₁ d : Device) : Prop where
  start : d₀.Reachable maxNumKeys
  creates : ∃ sqe cdw0, d₀.Completes d₁ sqe cdw0 nvmeSuccess ∧ sqe.opcode = nvmeAdmCreateCq ∧
    sqe.qid.toNat = c.val ∧ size = sqe.qsize.toNat + 1
  run : Reaches Device.step (fun _ _ => True) d₁ d
  kept : ∀ k, .cqInit c k ∉ d₁.newEvents d

theorem nvmeExecute_createCq {n : NvmeCtrl} {heap : Heap} {sqe : NvmeSqe}
    (ho : sqe.opcode = nvmeAdmCreateCq) :
    nvmeExecute n heap 0 sqe =
      some ((nvmeAdminCreateCq n sqe).1, 0, (nvmeAdminCreateCq n sqe).2) := by
  rw [nvmeExecute, if_pos rfl, nvmeAdminCmd, ho, if_neg (by decide), if_neg (by decide),
    if_neg (by decide), if_pos rfl]

/-- The queue that such a command leaves. -/
theorem Device.Completes.createCq {maxNumKeys : BitVec 32} {d d' : Device} {sqe : NvmeSqe}
    {cdw0 : BitVec 32} (h : d.Completes d' sqe cdw0 nvmeSuccess) (hd : d.Reachable maxNumKeys)
    (ho : sqe.opcode = nvmeAdmCreateCq) {c : QueueId} (hc : sqe.qid.toNat = c.val) :
    d'.n.cq c = createdCq sqe := by
  obtain ⟨⟨heap, hs⟩, cqid, hmem⟩ := h
  obtain ⟨w, n₀, hx, hp⟩ := iterate_command hs hmem
  rw [nvmeExecute_createCq ho, Option.some.injEq, Prod.mk.injEq, Prod.mk.injEq] at hx
  obtain ⟨hst, -, hn₀⟩ := hx
  rw [nvmeAdminCreateCq] at hst hn₀
  split at hst
  · exact absurd hst (show nvmeStatusInvalidQid ||| nvmeDnr ≠ nvmeSuccess by decide)
  rename_i b hb
  obtain ⟨hb0, hval⟩ := ioQueue_some hb
  obtain rfl : c = b := Fin.ext (hc.symm.trans hval)
  simp only [hb] at hn₀
  have hcq : n₀.cq c = createdCq sqe := by
    rw [← hn₀, NvmeCtrl.log_cq, NvmeCtrl.setCq_cq, Function.update_self]
  generalize d'.n = n' at hp ⊢
  cases hp with
  | silent | dropped => exact hcq
  | @posted _ a ha =>
    -- the command came in on the admin queue, which completes on queue 0
    have hsq : (n₀.sq 0).cqid = (d.n.sq 0).cqid := by
      rw [← hn₀, NvmeCtrl.log_sq, NvmeCtrl.setCq_sq, NvmeCtrl.fetched, NvmeCtrl.setSq_sq,
        Function.update_self]
    rw [NvmeCtrl.log_sq, hsq, hd.ok.rings.admin] at ha
    obtain rfl : a = 0 := Fin.ext ha.symm
    rw [(nvmePostTo_frame _ heap 0 _).2.1, Function.update_of_ne hb0]
    exact hcq

theorem CqRun.tracks {maxNumKeys : BitVec 32} {c : QueueId} {size : ℕ} {d₀ d₁ d : Device}
    (h : CqRun maxNumKeys c size d₀ d₁ d) : Tracks c size (postings c (d₁.newEvents d)) d.n := by
  obtain ⟨sqe, cdw0, hdone, ho, hc, rfl⟩ := h.creates
  have hcq := hdone.createCq h.start ho hc
  have hd₁ := hdone.reachable h.start
  have hfresh : Tracks c (sqe.qsize.toNat + 1) [] d₁.n := by
    have hf := Tracks.fresh (n := d₁.n) (c := c) (hcq ▸ ⟨rfl, rfl, rfl, rfl⟩)
    rwa [hcq, createdCq, size_add_one] at hf
  obtain ⟨es, htr, htracks⟩ : ∃ es, d.n.world.trace = d₁.n.world.trace ++ es ∧
      ((∀ k, .cqInit c k ∉ es) → Tracks c (sqe.qsize.toNat + 1) (postings c es) d.n) := by
    refine h.run.relates (R := fun d₁ d => ∃ es, d.n.world.trace = d₁.n.world.trace ++ es ∧
      ((∀ k, .cqInit c k ∉ es) → Tracks c (sqe.qsize.toNat + 1) (postings c es) d.n)) ?_ ?_
    · exact ⟨[], by simp, fun _ => hfresh⟩
    rintro t i u ht ⟨es, htr, htracks⟩ - hstep
    have hcase := Device.step_cases hstep
    have hok := (hd₁.trans ht).ok
    obtain ⟨fs, hfs⟩ := hcase.trace hok
    have hnew := Device.newEvents_eq hfs
    refine ⟨es ++ fs, by rw [hfs, htr, List.append_assoc], fun hno => ?_⟩
    rw [postings_append, ← hnew]
    exact (htracks fun k hk => hno k (List.mem_append_left _ hk)).step hcase hok
      fun k hk => hno k (List.mem_append_right _ (hnew ▸ hk))
  have hnew := Device.newEvents_eq htr
  have hkept := h.kept
  rw [hnew] at hkept ⊢
  exact htracks hkept

/-- The completions of a created queue go to the slots in order, with the phase tag of their lap,
exactly as long as the queue has less than 2^16 entries or is in an even lap. Each is posted by one
iteration, which leaves it in guest memory if its slot can be written. -/
theorem CqRun.phase_tag_iff {maxNumKeys : BitVec 32} {c : QueueId} {size : ℕ} {d₀ d₁ d : Device}
    (h : CqRun maxNumKeys c size d₀ d₁ d) {k : ℕ} {slot : BitVec 16} {cqe : NvmeCqe}
    (hk : (postings c (d₁.newEvents d))[k]? = some (slot, cqe)) :
    (slot.toNat = k % size ∧ cqe.tag = (k / size % 2 == 0) ↔
      (size = 2 ^ 16 → k / size % 2 = 0)) ∧
    ∃ e e' heap, Reaches Device.step (fun _ _ => True) d₁ e ∧
      e.step (.iterate heap) = some e' ∧ Reaches Device.step (fun _ _ => True) e' d ∧
      (postings c (d₁.newEvents e)).length = k ∧ .posted c slot cqe ∈ e.newEvents e' ∧
      (e.n.lands heap c = true → (e'.n.cq c).entry e'.n.world.mem slot.toNat = cqe) := by
  obtain ⟨sqe, cdw0, hdone, -⟩ := h.creates
  refine ⟨?_, (hdone.reachable h.start).posting_at h.run hk⟩
  rw [← cqPos_eq_ringPos_iff, ← h.tracks.placed k slot cqe hk, ringPos, Cursor.mk.injEq]

/-! ## Runs of any length -/

/-- An idle device with an I/O queue pair that is up. -/
structure Serving (maxNumKeys : BitVec 32) (q c : QueueId) (d : Device) : Prop where
  reachable : d.Reachable maxNumKeys
  idle : d.busy = none
  io : q ≠ 0
  sq : (d.n.sq q).enabled = true
  room : 2 ≤ (d.n.sq q).size.toNat
  pair : (d.n.sq q).cqid.toNat = c.val
  cq : (d.n.cq c).enabled = true

theorem NvmeSq.Ok.nextHead_ne {sq : NvmeSq} (h : sq.Ok) (hroom : 2 ≤ sq.size.toNat) :
    sq.head ≠ sq.nextHead := by
  intro he
  have hlt := h.head_lt
  have hnext := NvmeSq.nextHead_toNat h
  rw [← he] at hnext
  rcases Nat.lt_or_ge (sq.head.toNat + 1) sq.size.toNat with hin | hout
  · rw [Nat.mod_eq_of_lt hin] at hnext
    omega
  · rw [show sq.head.toNat + 1 = sq.size.toNat by omega, Nat.mod_self] at hnext
    omega

theorem Consumed.posted {n n' : NvmeCtrl} {heap : Heap} {q c : QueueId} (hc : Consumed n heap q n')
    (hok : n.RingsOk) (hq : q ≠ 0) (hsq : (n.sq q).enabled = true)
    (hpair : (n.sq q).cqid.toNat = c.val) (hcq : (n.cq c).enabled = true) :
    (n'.cq c).enabled = true ∧ ∃ es, n'.world.trace = n.world.trace ++ es ∧
      (∀ k, .cqInit c k ∉ es) ∧ (postings c es).length = 1 := by
  obtain ⟨b, hserved⟩ := hc.served hok hsq
  obtain rfl : b = c := Fin.ext (hserved.own.symm.trans hpair)
  cases hserved with
  | unanswered hr => exact absurd (hr.noComplete_iff.mp rfl).1 hq
  | dropped hr hst he =>
    rw [hcq] at he
    cases he
  | @posted n₁ st cdw0 hr hst he =>
    obtain ⟨pre, htr, hpre⟩ := hr.command_last hok.admin
    obtain ⟨fs, hfs, hposts, hno⟩ := nvmePostTo_postings htr hpre heap (n.completion q b cdw0 st)
    refine ⟨?_, fs, hfs, hno, by rw [hposts]; rfl⟩
    rw [(nvmePostTo_frame n₁ heap b _).2.1, Function.update_self, NvmeCq.advance_enabled, hr.cq]
    exact he

/-- The host submits one entry, whatever it says, and the loop ends right after it. -/
theorem Serving.submit {maxNumKeys : BitVec 32} {q c : QueueId} {d : Device}
    (h : Serving maxNumKeys q c d) (hflat : d.n.world.vfu = .flat) :
    ∃ d' es, Reaches Device.step (fun _ _ => True) d d' ∧ Serving maxNumKeys q c d' ∧
      d'.n.world.trace = d.n.world.trace ++ es ∧ (∀ k, .cqInit c k ∉ es) ∧
      (postings c es).length = 1 := by
  have hring := h.reachable.ok.rings.sq q h.sq
  have hbell := Device.step_sqTailWrite h.idle q (d.n.sq q).nextHead
  rw [if_pos h.sq] at hbell
  have hr := h.reachable.next hbell
  have hne := hring.nextHead_ne h.room
  obtain ⟨n, hs, hc⟩ := Device.iterate_consumes hr.ok rfl noGrowth
    (.inr ⟨hr.ns_valid.1, fun hg => absurd hg (by decide)⟩) (by simpa using hne) rfl
    (by simp [hflat, Vfu.reaches, Vfu.flat])
  have hsq := hc.sq_self
  simp only [NvmeCtrl.setSq_sq, Function.update_self] at hsq
  obtain ⟨hcq, es, htr, hno, hposts⟩ := hc.posted hr.ok.rings h.io (by simpa using h.sq)
    (by simpa using h.pair) h.cq
  -- the head has met the tail
  have hdone : Device.step ⟨n, some q⟩ (.iterate noGrowth) = some ⟨n, none⟩ := by
    simp [Device.step, nvmeProcessSqStep, hsq, NvmeSq.fetched, NvmeSq.nextHead]
  refine ⟨⟨n, none⟩, es, ?_, ⟨(hr.next hs).next hdone, rfl, h.io, ?_, ?_, ?_, hcq⟩, htr, hno, hposts⟩
  · exact ((Reaches.single _ trivial hbell).tail _ trivial hs).tail _ trivial hdone
  · rw [hsq]
    exact h.sq
  · rw [hsq]
    exact h.room
  · rw [hsq]
    exact h.pair

/-- Any number of completions can be posted. -/
theorem Serving.many {maxNumKeys : BitVec 32} {q c : QueueId} {d : Device}
    (h : Serving maxNumKeys q c d) (m : ℕ) :
    ∃ d' es, Reaches Device.step (fun _ _ => True) d d' ∧ Serving maxNumKeys q c d' ∧
      d'.n.world.trace = d.n.world.trace ++ es ∧ (∀ k, .cqInit c k ∉ es) ∧
      (postings c es).length = m := by
  induction m with
  | zero => exact ⟨d, [], .refl, h, by simp, by simp, rfl⟩
  | succ m ih =>
    obtain ⟨d', es, hr, h', htr, hno, hlen⟩ := ih
    -- the host maps everything before it goes on
    have hmap : d'.step (.dmaRegions .flat) = some _ := rfl
    obtain ⟨d'', fs, hr', h'', htr', hno', hlen'⟩ :=
      Serving.submit ⟨h'.reachable.next hmap, h'.idle, h'.io, h'.sq, h'.room, h'.pair, h'.cq⟩ rfl
    refine ⟨d'', es ++ fs, (hr.tail _ trivial hmap).trans hr', h'', ?_, fun k hk => ?_, ?_⟩
    · rw [htr', ← List.append_assoc, ← htr]
      rfl
    · rcases List.mem_append.mp hk with hk | hk
      · exact hno k hk
      · exact hno' k hk
    · rw [postings_append, List.length_append, hlen, hlen']

/-- Create CQ 1, its size given by two bytes, and Create SQ 1 of 16 entries on it. -/
def queuePairMemory (lo hi : ℕ) : Memory :=
  memoryOf [(0, 5), (26, 0x20), (40, 1), (42, lo), (43, hi), (64, 1), (90, 3), (104, 1), (106, 15),
    (110, 1)]

def createCqSqe (lo hi : ℕ) : NvmeSqe :=
  ⟨Buffer.ofBytes ((span 0 64).map (queuePairMemory lo hi))⟩

/-- Both commands succeed and leave an idle device. -/
def createsPair (lo hi : ℕ) : Bool :=
  ((bootRun 1 (fun _ _ => true)
    (enableAdmin ++ [.hostMemory (queuePairMemory lo hi), sqTailWrite 0 2])).bind fun d₀ =>
      (d₀.step (.iterate fun _ => true)).bind fun d₁ =>
        (execute Device.step (fun _ _ => true) d₁ (iterations 2)).map fun d₂ =>
          decide (adminCommands (d₀.newEvents d₁) = [(createCqSqe lo hi, 0, nvmeSuccess)] ∧
            d₂.busy = none ∧ (d₂.n.sq 1).enabled = true ∧ (d₂.n.sq 1).size = 16 ∧
            (d₂.n.sq 1).cqid = 1 ∧ (d₂.n.cq 1).enabled = true ∧
            ∀ e ∈ d₁.newEvents d₂, ¬ e.Concerns 1)) = some true

theorem cqRun_of_createsPair (lo hi : ℕ) (hp : createsPair lo hi = true)
    (ho : (createCqSqe lo hi).opcode = nvmeAdmCreateCq) (hc : (createCqSqe lo hi).qid = 1) (m : ℕ) :
    ∃ d₀ d₁ d slot cqe, CqRun 1 1 ((createCqSqe lo hi).qsize.toNat + 1) d₀ d₁ d ∧
      (postings 1 (d₁.newEvents d))[m]? = some (slot, cqe) := by
  obtain ⟨d₀, hd₀, hrest⟩ := Option.bind_eq_some_iff.mp (of_decide_eq_true hp)
  obtain ⟨d₁, hd₁, hrest⟩ := Option.bind_eq_some_iff.mp hrest
  obtain ⟨d₂, hd₂, hobs⟩ := Option.map_eq_some_iff.mp hrest
  obtain ⟨hcmd, hidle, hsq, hsize, hpair, hcq, hquiet⟩ := of_decide_eq_true hobs
  have hmem : (createCqSqe lo hi, 0, nvmeSuccess) ∈ adminCommands (d₀.newEvents d₁) := by
    rw [hcmd]
    exact List.mem_singleton_self _
  have hr₀ : d₀.Reachable 1 := reachable_of_bootRun hd₀
  have hr₁ := hr₀.next hd₁
  have hrun : Reaches Device.step (fun _ _ => True) d₁ d₂ :=
    reaches_of_execute (fun _ _ _ _ => trivial) hd₂
  obtain ⟨es, hes⟩ := hr₁.trace hrun
  rw [Device.newEvents_eq hes] at hquiet
  have hserving : Serving 1 1 1 d₂ :=
    ⟨hr₁.trans hrun, hidle, by decide, hsq, by rw [hsize]; decide, by rw [hpair]; decide, hcq⟩
  obtain ⟨d, fs, hmany, -, hfs, hno, hlen⟩ := hserving.many (m + 1)
  have hnew : d₁.newEvents d = es ++ fs :=
    Device.newEvents_eq (by rw [hfs, hes, List.append_assoc])
  have hposts : postings 1 (d₁.newEvents d) = postings 1 fs := by
    rw [hnew, postings_append, postings_quiet hquiet, List.nil_append]
  refine ⟨d₀, d₁, d, (postings 1 fs)[m].1, (postings 1 fs)[m].2, ⟨hr₀, ⟨_, 0,
    ⟨⟨_, hd₁⟩, mem_of_adminCommands hmem⟩, ho, by rw [hc]; decide, rfl⟩, hrun.trans hmany,
    fun k hk => ?_⟩, ?_⟩
  · rw [hnew, List.mem_append] at hk
    rcases hk with hk | hk
    · exact hquiet _ hk rfl
    · exact hno k hk
  · rw [hposts]
    exact List.getElem?_eq_getElem (by omega)

/-- In a queue of 16 entries, entry number 16 goes to slot 0 with the other tag. -/
theorem CqRun.phase_tag_second_lap :
    ∃ d₀ d₁ d slot cqe, CqRun 1 1 16 d₀ d₁ d ∧
      (postings 1 (d₁.newEvents d))[16]? = some (slot, cqe) ∧ slot.toNat = 0 ∧ cqe.tag = false := by
  obtain ⟨d₀, d₁, d, slot, cqe, h, hk⟩ := cqRun_of_createsPair 15 0
    (by decide +kernel) (by decide +kernel) (by decide +kernel) 16
  rw [show (createCqSqe 15 0).qsize.toNat + 1 = 16 by decide +kernel] at h
  exact ⟨d₀, d₁, d, slot, cqe, h, hk, (h.phase_tag_iff hk).1.mpr (by decide)⟩

/-- In a queue of 2^16 entries, entry number 2^16 goes to slot 0 with the tag of the first lap. -/
theorem CqRun.phase_not_flipped :
    ∃ d₀ d₁ d slot cqe, CqRun 1 1 (2 ^ 16) d₀ d₁ d ∧
      (postings 1 (d₁.newEvents d))[2 ^ 16]? = some (slot, cqe) ∧
      ¬ (slot.toNat = 2 ^ 16 % 2 ^ 16 ∧ cqe.tag = (2 ^ 16 / 2 ^ 16 % 2 == 0)) := by
  obtain ⟨d₀, d₁, d, slot, cqe, h, hk⟩ := cqRun_of_createsPair 0xff 0xff
    (by decide +kernel) (by decide +kernel) (by decide +kernel) (2 ^ 16)
  rw [show (createCqSqe 0xff 0xff).qsize.toNat + 1 = 2 ^ 16 by decide +kernel] at h
  have hpos := h.tracks.placed _ slot cqe hk
  rw [cqPos, if_pos rfl, Cursor.mk.injEq] at hpos
  refine ⟨d₀, d₁, d, slot, cqe, h, hk, fun hgood => ?_⟩
  rw [hpos.2] at hgood
  exact absurd hgood.2 (by decide)

end VfuKvssd
