import VfuKvssd.Controller.QueueViews

/-! # Exactly-once execution and completion

For each submission queue, what was executed followed by what is pending is what
the host submitted. For each completion queue, the ring carries one entry for
each command that is owed one, and the host has read a first part of them.
-/
namespace VfuKvssd
open Foundations

/-! ## Agreement of one queue -/

structure SqAgrees (n : NvmeCtrl) (busy : Option QueueId) (q : QueueId) (w : SqWriter) : Prop where
  split : executed q n.world.trace ++ n.pending q = w.submitted
  tail : w.tail = (n.sq q).tail
  idle : busy ≠ some q → (n.sq q).head = (n.sq q).tail

structure CqAgrees (n : NvmeCtrl) (c : QueueId) (r : CqReader) : Prop where
  stands : (n.cq c).At (ringPos (n.cq c).size.toNat (posts c n.world.trace).length)
  carries : (n.cq c).Carries n.world.mem (posts c n.world.trace)
  follows : r.Follows (n.cq c).size.toNat (posts c n.world.trace)
  answers : List.Forall₂ Answers (posts c n.world.trace) (due c n.world.trace)

theorem NvmeCtrl.pending_idle {n : NvmeCtrl} {q : QueueId} (h : (n.sq q).head = (n.sq q).tail) :
    n.pending q = [] := by
  rw [pending, h, NvmeSq.between_self]

theorem NvmeCtrl.pending_congr {n n' : NvmeCtrl} {q : QueueId} (hok : (n.sq q).Ok)
    (hsq : n'.sq q = n.sq q) (hm : ∀ a ∈ (n.sq q).ring, n'.world.mem a = n.world.mem a) :
    n'.pending q = n.pending q := by
  rw [pending, pending, hsq]
  exact NvmeSq.between_congr rfl rfl hm hok.head_lt _

theorem SqAgrees.fresh {n : NvmeCtrl} {busy : Option QueueId} {q : QueueId}
    (hf : (n.sq q).Fresh) (hex : executed q n.world.trace = []) : SqAgrees n busy q .fresh := by
  have hidle : (n.sq q).head = (n.sq q).tail := hf.head.trans hf.tail.symm
  exact ⟨by rw [hex, NvmeCtrl.pending_idle hidle]; rfl, hf.tail.symm, fun _ => hidle⟩

theorem CqAgrees.fresh {n : NvmeCtrl} {c : QueueId} (hf : (n.cq c).Fresh)
    (hp : posts c n.world.trace = []) (hd : due c n.world.trace = [])
    (hm : ∀ a ∈ (n.cq c).ring, n.world.mem a = 0) : CqAgrees n c .fresh := by
  refine ⟨?_, ?_, ?_, ?_⟩ <;> rw [hp]
  · exact hf.at _
  · exact NvmeCq.carries_nil hm
  · exact CqReader.follows_fresh _
  · rw [hd]
    exact .nil

theorem CqAgrees.congr {n n' : NvmeCtrl} {c : QueueId} {r : CqReader} (h : CqAgrees n c r)
    (hok : (n.cq c).Ok) (hcq : n'.cq c = n.cq c)
    (hp : posts c n'.world.trace = posts c n.world.trace)
    (hd : due c n'.world.trace = due c n.world.trace)
    (hm : ∀ a ∈ (n.cq c).ring, n'.world.mem a = n.world.mem a) : CqAgrees n' c r := by
  refine ⟨?_, ?_, ?_, ?_⟩ <;> rw [hp]
  · rw [hcq]
    exact h.stands
  · rw [hcq]
    exact h.carries.congr hok hm
  · rw [hcq]
    exact h.follows
  · rw [hd]
    exact h.answers

/-! ## Agreement of the system -/

structure System.Agrees (s : System) : Prop where
  sq : ∀ q, (s.d.n.sq q).enabled = true → SqAgrees s.d.n s.d.busy q (s.host.writer q)
  cq : ∀ c, (s.d.n.cq c).enabled = true → CqAgrees s.d.n c (s.host.reader c)

namespace System.Agrees
variable {s : System} {i : Input} {d' : Device} {es : List Event}

theorem sq_view (h : s.Agrees) (htr : d'.n.world.trace = s.d.n.world.trace ++ es) {q : QueueId}
    (hi : i.sqTail q = none) (hview : SqView s.d.n d'.n q (queueEvents es))
    (he : (d'.n.sq q).enabled = true)
    (hpend : d'.n.sq q = s.d.n.sq q → d'.n.pending q = s.d.n.pending q)
    (hb : d'.busy ≠ some q → s.d.busy ≠ some q ∨ (s.d.n.sq q).head = (s.d.n.sq q).tail) :
    SqAgrees d'.n d'.busy q ((s.host.after i s.d d').writer q) := by
  rw [Host.after_writer htr, hi, SqWriter.ring]
  cases hview with
  | kept hsq hex hw =>
    rw [hsq] at he
    obtain ⟨hsplit, htail, hidle⟩ := h.sq q he
    rw [hw]
    refine ⟨?_, ?_, fun hne => ?_⟩
    · rw [htr, executed_append, hex, hpend hsq, hsplit]
    · rw [hsq, htail]
    · rw [hsq]
      exact (hb hne).elim hidle id
  | created hf hex hw =>
    rw [hw]
    exact .fresh hf (by rw [htr, executed_append, hex])

/-- A completion queue over a step that leaves it alone or creates it. -/
theorem cq_view (h : s.Agrees) (hok : s.d.Ok)
    (htr : d'.n.world.trace = s.d.n.world.trace ++ es) {c : QueueId}
    (hview : CqView s.d.n d'.n c (queueEvents es)) (he : (d'.n.cq c).enabled = true)
    (hz : ZeroedCqs s.d d')
    (hm : ∀ a ∈ (d'.n.cq c).ring, d'.n.world.mem a = s.d.n.world.mem a) :
    CqAgrees d'.n c ((s.host.after i s.d d').reader c) := by
  rw [Host.after_reader htr]
  cases hview with
  | kept hcq hp hd hr =>
    rw [hcq] at he hm
    rw [hr]
    exact (h.cq c he).congr (hok.rings.cq c he) hcq (by rw [htr, posts_append, hp])
      (by rw [htr, due_append, hd]) hm
  | created hf hi hp hd hr =>
    obtain ⟨k, hk⟩ := hi
    rw [hr]
    refine .fresh hf (by rw [htr, posts_append, hp]) (by rw [htr, due_append, hd]) fun a ha => ?_
    rw [hm a ha]
    refine hz (.cqInit c k) ?_ a ha
    rw [Device.newEvents_eq htr]
    exact (mem_queueEvents rfl).mp hk

/-- A step that leaves the queue arrays and the log of the queues alone. -/
theorem calm (h : s.Agrees) (hok : s.d.Ok) (es : List Event)
    (htr : d'.n.world.trace = s.d.n.world.trace ++ es) (hes : queueEvents es = [])
    (hi : ∀ q, i.sqTail q = none) (hsq : d'.n.sq = s.d.n.sq) (hcq : d'.n.cq = s.d.n.cq)
    (hz : ZeroedCqs s.d d')
    (hpend : ∀ q, (s.d.n.sq q).enabled = true → d'.n.pending q = s.d.n.pending q)
    (hm : ∀ c, (s.d.n.cq c).enabled = true → ∀ a ∈ (s.d.n.cq c).ring,
      d'.n.world.mem a = s.d.n.world.mem a)
    (hb : ∀ q, d'.busy ≠ some q → s.d.busy ≠ some q ∨ (s.d.n.sq q).head = (s.d.n.sq q).tail) :
    Agrees ⟨d', s.host.after i s.d d'⟩ := by
  refine ⟨fun q he => ?_, fun c he => ?_⟩
  · refine h.sq_view htr (hi q) ?_ he (fun _ => hpend q (by rw [← hsq]; exact he)) (hb q)
    rw [hes]
    exact .kept (congrFun hsq q) (fun _ => rfl) fun _ => rfl
  · refine h.cq_view hok htr ?_ he hz ?_
    · rw [hes]
      exact .kept (congrFun hcq c) (fun _ => rfl) (fun _ => rfl) fun _ _ => rfl
    · have hc := congrFun hcq c
      rw [hc] at he ⊢
      exact hm c he

/-- Queues are switched by a register write or a reset. -/
theorem switched (h : s.Agrees) (hok : s.d.Ok) (hb : s.d.busy = none)
    (hs : Switched s.d.n d'.n es) (htr : d'.n.world.trace = s.d.n.world.trace ++ es)
    (hi : ∀ q, i.sqTail q = none) (hmem : d'.n.world.mem = s.d.n.world.mem)
    (hz : ZeroedCqs s.d d') : Agrees ⟨d', s.host.after i s.d d'⟩ := by
  refine ⟨fun q he => ?_, fun c he => ?_⟩
  · refine h.sq_view htr (hi q) (hs.sqView he) he (fun hsq => ?_) fun _ => .inl (by simp [hb])
    have hen : (s.d.n.sq q).enabled = true := hsq ▸ he
    exact NvmeCtrl.pending_congr (hok.rings.sq q hen) hsq fun a _ => congrFun hmem a
  · exact h.cq_view hok htr (hs.cqView he) he hz fun a _ => congrFun hmem a

/-- The host moves the tail of a submission queue: the queue is idle, so the new entries are
exactly those that become pending. -/
theorem sqTail (h : s.Agrees) (hok : s.d.Ok) (hb : s.d.busy = none) {q : QueueId} {val : BitVec 16}
    (hi : ∀ p, i.sqTail p = if p = q then some val else none)
    (hn : d'.n = s.d.n.setSq q { s.d.n.sq q with tail := val })
    (hb' : (s.d.n.sq q).enabled = true → d'.busy = some q) (hz : ZeroedCqs s.d d') :
    Agrees ⟨d', s.host.after i s.d d'⟩ := by
  have hworld : d'.n.world = s.d.n.world := by rw [hn, NvmeCtrl.setSq_world]
  have htr : d'.n.world.trace = s.d.n.world.trace ++ [] := by rw [hworld, List.append_nil]
  refine ⟨fun p he => ?_, fun c he => ?_⟩
  · by_cases hp : p = q
    · subst hp
      have hsq : d'.n.sq p = { s.d.n.sq p with tail := val } := by
        rw [hn, NvmeCtrl.setSq_sq, Function.update_self]
      have hen : (s.d.n.sq p).enabled = true := by simpa [hsq] using he
      obtain ⟨hsplit, htail, hidle⟩ := h.sq p hen
      have hht := hidle (by simp [hb])
      rw [NvmeCtrl.pending_idle hht, List.append_nil] at hsplit
      rw [Host.after_writer htr, hi, if_pos rfl]
      refine ⟨?_, ?_, fun hne => absurd (hb' hen) hne⟩
      have hpend : d'.n.pending p = (s.d.n.sq p).between s.d.n.world.mem (s.d.n.sq p).tail val := by
        rw [NvmeCtrl.pending, hsq, hworld, ← hht]
        have hdma : ({ s.d.n.sq p with tail := val } : NvmeSq).dma = (s.d.n.sq p).dma := rfl
        exact NvmeSq.between_congr hdma rfl (fun _ _ => rfl) (hok.rings.sq p hen).head_lt val
      · rw [hpend, hworld, hsplit, ← htail]
        rfl
      · rw [hsq]
        rfl
    · have hsq : d'.n.sq p = s.d.n.sq p := by rw [hn, NvmeCtrl.setSq_sq, Function.update_of_ne hp]
      have hen : (s.d.n.sq p).enabled = true := hsq ▸ he
      refine h.sq_view htr (by rw [hi, if_neg hp]) (.kept hsq (fun _ => rfl) fun _ => rfl) he
        (fun _ => ?_) fun _ => .inl (by simp [hb])
      exact NvmeCtrl.pending_congr (hok.rings.sq p hen) hsq fun _ _ => by rw [hworld]
  · refine h.cq_view hok htr (.kept ?_ (fun _ => rfl) (fun _ => rfl) fun _ _ => rfl) he hz
      fun _ _ => by rw [hworld]
    rw [hn, NvmeCtrl.setSq_cq]

theorem cqHead (h : s.Agrees) (hok : s.d.Ok) (hb : s.d.busy = none) {c : QueueId} {val : BitVec 16}
    (hi : ∀ q, i.sqTail q = none)
    (hn : d'.n = (s.d.n.setCq c { s.d.n.cq c with head := val }).log (.cqHead c val))
    (hz : ZeroedCqs s.d d') : Agrees ⟨d', s.host.after i s.d d'⟩ := by
  have htr : d'.n.world.trace = s.d.n.world.trace ++ [.cqHead c val] := by rw [hn]; rfl
  have hmem : d'.n.world.mem = s.d.n.world.mem := by rw [hn]; rfl
  have hsq : d'.n.sq = s.d.n.sq := by rw [hn]; rfl
  refine ⟨fun p he => ?_, fun b he => ?_⟩
  · have hen : (s.d.n.sq p).enabled = true := hsq ▸ he
    refine h.sq_view htr (hi p) (.kept (congrFun hsq p) (fun _ => rfl) fun _ => rfl) he
      (fun hsq => ?_) fun _ => .inl (by simp [hb])
    exact NvmeCtrl.pending_congr (hok.rings.sq p hen) hsq fun _ _ => by rw [hmem]
  · by_cases hbc : b = c
    · subst hbc
      have hcq : d'.n.cq b = { s.d.n.cq b with head := val } := by rw [hn]; simp
      have hen : (s.d.n.cq b).enabled = true := by simpa [hcq] using he
      obtain ⟨hstands, hcarries, hfollows, hanswers⟩ := h.cq b hen
      have hposts : posts b d'.n.world.trace = posts b s.d.n.world.trace := by
        rw [htr, posts_append]
        rfl
      have hdue : due b d'.n.world.trace = due b s.d.n.world.trace := by
        rw [htr, due_append]
        rfl
      refine ⟨?_, ?_, ?_, ?_⟩ <;> rw [hposts]
      · rw [hcq]
        exact ⟨hstands.tail, hstands.phase⟩
      · rw [hcq, hmem]
        exact hcarries
      · rw [hcq, Host.after_reader htr, queueEvents_single rfl]
        simp only [List.foldl_cons, List.foldl_nil, readerNext, if_true]
        exact ⟨hfollows.cursor, hfollows.received⟩
      · rw [hdue]
        exact hanswers
    · refine h.cq_view hok htr (.kept ?_ ?_ ?_ ?_) he hz fun _ _ => by rw [hmem]
      · rw [hn]
        simp [hbc]
      · exact fun _ => rfl
      · exact fun _ => rfl
      · intro size r
        simp [queueEvents, Event.isData, readerNext, Ne.symm hbc]

/-- An iteration under the ring rules that consumes an entry of `q`, whose completion queue is
`c`. -/
structure Iterates (s : System) (d' : Device) (q c : QueueId) : Prop where
  busy : s.d.busy = some q
  pending : (s.d.n.sq q).head ≠ (s.d.n.sq q).tail
  own : (s.d.n.sq q).cqid.toNat = c.val
  enabled : (s.d.n.cq c).enabled = true
  busy' : d'.busy = some q
  zeroed : ZeroedCqs s.d d'
  buffer : ∀ a ∈ dataBuffer q (s.d.n.headEntry q),
    (∀ b, (d'.n.cq b).enabled = true → a ∉ (d'.n.cq b).ring) ∧
    ∀ p, (d'.n.sq p).enabled = true → a ∉ (d'.n.sq p).ring

theorem Iterates.cq_zero {q c : QueueId} (hi : Iterates s d' q c) (hok : s.d.Ok) (hq : q = 0) :
    c = 0 := by
  apply Fin.ext
  rw [← hi.own, hq, hok.rings.admin]
  rfl

/-- The queue being drained has executed its head. -/
theorem drained_sq (h : s.Agrees) (hok : s.d.Ok) (hin : s.InOrder) {q c : QueueId}
    (hi : Iterates s d' q c) {xs ys : List Event} (hxs : SqQuiet q xs)
    (hself : d'.n.sq q = (s.d.n.sq q).fetched)
    (htr : d'.n.world.trace = s.d.n.world.trace ++ es) {cqid : BitVec 16} {cdw0 : BitVec 32}
    {st : Status} (hes : queueEvents es = xs ++ .command q cqid (s.d.n.headEntry q) cdw0 st :: ys)
    (hys : SqQuiet q ys)
    (hmem : ∀ a ∈ (s.d.n.sq q).ring, d'.n.world.mem a = s.d.n.world.mem a) :
    SqAgrees d'.n d'.busy q ((s.host.after (.iterate heap) s.d d').writer q) := by
  have hen := hok.busy q hi.busy
  have hring := hok.rings.sq q hen
  have hex : executed q d'.n.world.trace =
      executed q s.d.n.world.trace ++ [s.d.n.headEntry q] := by
    rw [htr, executed_append, hes, List.foldl_append, hxs.executed, List.foldl_cons, hys.executed]
    simp [executedNext]
  have hwriter : (s.host.after (.iterate heap) s.d d').writer q = s.host.writer q := by
    rw [Host.after_writer htr, hes, List.foldl_append, hxs.writer, List.foldl_cons, hys.writer]
    rfl
  have hpend : d'.n.pending q =
      (s.d.n.sq q).between s.d.n.world.mem (s.d.n.sq q).nextHead (s.d.n.sq q).tail := by
    rw [NvmeCtrl.pending, hself]
    have hdma : (s.d.n.sq q).fetched.dma = (s.d.n.sq q).dma := rfl
    exact NvmeSq.between_congr hdma rfl hmem hring.nextHead.head_lt _
  obtain ⟨hsplit, htail, -⟩ := h.sq q hen
  rw [NvmeCtrl.pending_cons hring (hin.1 q hen) hi.pending] at hsplit
  rw [hwriter]
  refine ⟨?_, ?_, fun hne => absurd hi.busy' hne⟩
  · rw [hex, hpend, List.append_assoc]
    exact hsplit
  · rw [hself, htail]
    rfl

theorem consumed_sq (h : s.Agrees) (hok : s.d.Ok) (hin : s.InOrder) {q c : QueueId}
    (hi : Iterates s d' q c) {m n₁ : NvmeCtrl} {xs ys : List Event}
    (hmsq : m.sq = Function.update s.d.n.sq q (s.d.n.sq q).fetched) (hm : Managed m n₁ xs)
    (hio : q ≠ 0 → xs = []) (hself : n₁.sq q = (s.d.n.sq q).fetched) (hsq' : d'.n.sq = n₁.sq)
    (htr : d'.n.world.trace = s.d.n.world.trace ++ es) {cqid : BitVec 16} {cdw0 : BitVec 32}
    {st : Status} (hes : queueEvents es = xs ++ .command q cqid (s.d.n.headEntry q) cdw0 st :: ys)
    (hys : ∀ p, SqQuiet p ys)
    (hmem : ∀ p, (d'.n.sq p).enabled = true → ∀ a ∈ (d'.n.sq p).ring,
      d'.n.world.mem a = s.d.n.world.mem a) {p : QueueId} (he : (d'.n.sq p).enabled = true) :
    SqAgrees d'.n d'.busy p ((s.host.after (.iterate heap) s.d d').writer p) := by
  by_cases hp : p = q
  · subst hp
    have hfetched : d'.n.sq p = (s.d.n.sq p).fetched := by rw [hsq', hself]
    refine h.drained_sq hok hin hi (hm.sqQuiet hio) hfetched htr hes (hys p) fun a ha => ?_
    exact hmem p he a (by rw [hfetched]; exact ha)
  · have hview : SqView s.d.n d'.n p (queueEvents es) := by
      rw [hes]
      have hv := hm.sqView (p := p) (by rw [← hsq']; exact he)
      refine SqView.append ?_ ⟨fun l => ?_, fun w => (hys p).writer w⟩
      · cases hv with
        | kept hsq h₁ h₂ =>
          refine .kept ?_ h₁ h₂
          rw [hsq', hsq, hmsq, Function.update_of_ne hp]
        | created hf h₁ h₂ => exact .created (by rw [hsq']; exact hf) h₁ h₂
      · rw [List.foldl_cons, (hys p).executed]
        simp [executedNext, Ne.symm hp]
    refine h.sq_view htr rfl hview he (fun hsq => ?_) fun _ => .inl (by simp [hi.busy, Ne.symm hp])
    have hen : (s.d.n.sq p).enabled = true := hsq ▸ he
    refine NvmeCtrl.pending_congr (hok.rings.sq p hen) hsq fun a ha => hmem p he a ?_
    rw [hsq]
    exact ha

/-- The completion queue of an entry that is left unanswered. -/
theorem unanswered_cq (h : s.Agrees) (hok : s.d.Ok) {q c : QueueId}
    (hen : (s.d.n.cq c).enabled = true) {xs : List Event} (hxs : CqQuiet c xs)
    (hcq : d'.n.cq c = s.d.n.cq c) (htr : d'.n.world.trace = s.d.n.world.trace ++ es)
    {cqid : BitVec 16} {cdw0 : BitVec 32} {st : Status}
    (hes : queueEvents es = xs ++ [.command q cqid (s.d.n.headEntry q) cdw0 st])
    (haer : q = 0 ∧ (s.d.n.headEntry q).opcode = nvmeAdmAsyncEvent)
    (hm : ∀ a ∈ (s.d.n.cq c).ring, d'.n.world.mem a = s.d.n.world.mem a) :
    CqAgrees d'.n c ((s.host.after (.iterate heap) s.d d').reader c) := by
  rw [Host.after_reader htr, hes, List.foldl_append, hxs.reader]
  refine (h.cq c hen).congr (hok.rings.cq c hen) hcq ?_ ?_ hm
  · rw [htr, posts_append, hes, List.foldl_append, hxs.posts]
    rfl
  · rw [htr, due_append, hes, List.foldl_append, hxs.due]
    simp only [List.foldl_cons, List.foldl_nil, dueNext]
    rw [if_neg fun hd => hd.2 haer]

/-- The completion queue of an entry that is answered: the ring carries one more entry, and it
answers the command. -/
theorem posted_cq (h : s.Agrees) (hok : s.d.Ok) (hin : s.InOrder) {q c : QueueId}
    (hen : (s.d.n.cq c).enabled = true) {xs : List Event} (hxs : CqQuiet c xs)
    (hcq : d'.n.cq c = (s.d.n.cq c).advance) (htr : d'.n.world.trace = s.d.n.world.trace ++ es)
    {cqid slot : BitVec 16} {cdw0 : BitVec 32} {st : Status} (hown : cqid.toNat = c.val)
    (hes : queueEvents es = xs ++ [.command q cqid (s.d.n.headEntry q) cdw0 st,
      .posted c slot (s.d.n.completion q c cdw0 st)])
    (haer : ¬ (q = 0 ∧ (s.d.n.headEntry q).opcode = nvmeAdmAsyncEvent)) {mem : Memory}
    (hm : ∀ a ∈ (s.d.n.cq c).ring, mem a = s.d.n.world.mem a)
    (hw : d'.n.world.mem = writeAll mem (span ((s.d.n.cq c).slotAddr (s.d.n.cq c).tail) 16)
      (s.d.n.completion q c cdw0 st).toBytes) :
    CqAgrees d'.n c ((s.host.after (.iterate heap) s.d d').reader c) := by
  have hring := hok.rings.cq c hen
  have hsize := hin.2.1 c hen
  obtain ⟨hstands, hcarries, hfollows, hanswers⟩ := h.cq c hen
  have hposts : posts c d'.n.world.trace =
      posts c s.d.n.world.trace ++ [s.d.n.completion q c cdw0 st] := by
    rw [htr, posts_append, hes, List.foldl_append, hxs.posts]
    simp [postsNext]
  have hdue : due c d'.n.world.trace =
      due c s.d.n.world.trace ++ [⟨q, s.d.n.headEntry q, cdw0, st⟩] := by
    rw [htr, due_append, hes, List.foldl_append, hxs.due]
    simp only [List.foldl_cons, List.foldl_nil, dueNext]
    rw [if_pos ⟨hown, haer⟩]
  have hreader : (s.host.after (.iterate heap) s.d d').reader c = s.host.reader c := by
    rw [Host.after_reader htr, hes, List.foldl_append, hxs.reader]
    rfl
  rw [hreader]
  refine ⟨?_, ?_, ?_, ?_⟩
  · rw [hcq, hposts, List.length_append, List.length_singleton, NvmeCq.advance_size,
      ← ringPos_next hring.size_pos]
    exact hstands.advance hring hsize
  · rw [hcq, hposts, hw]
    refine NvmeCq.Carries.advance ((hcarries.congr hring hm).post hring hsize hstands ?_)
    exact cqeFor_tag hstands.phase ..
  · rw [hcq, hposts, NvmeCq.advance_size]
    exact ⟨hfollows.cursor, hfollows.received.trans (List.prefix_append _ _)⟩
  · rw [hposts, hdue]
    refine List.rel_append hanswers (.cons ?_ .nil)
    exact ⟨rfl, rfl, rfl, cqeFor_status hstands.phase ..⟩

theorem other_cq (h : s.Agrees) (hok : s.d.Ok) {q c b : QueueId} (hi : Iterates s d' q c)
    (hbc : b ≠ c) {m n₁ : NvmeCtrl} {xs ys : List Event} (hmcq : m.cq = s.d.n.cq)
    (hm : Managed m n₁ xs) (hcq' : d'.n.cq b = n₁.cq b)
    (htr : d'.n.world.trace = s.d.n.world.trace ++ es) {cdw0 : BitVec 32} {st : Status}
    (hes : queueEvents es =
      xs ++ .command q (s.d.n.sq q).cqid (s.d.n.headEntry q) cdw0 st :: ys)
    (hys : CqQuiet b ys) (he : (d'.n.cq b).enabled = true)
    (hmem : ∀ a ∈ (d'.n.cq b).ring, d'.n.world.mem a = s.d.n.world.mem a) :
    CqAgrees d'.n b ((s.host.after (.iterate heap) s.d d').reader b) := by
  have hne : (s.d.n.sq q).cqid.toNat ≠ b.val := fun hx => hbc (Fin.ext (hx.symm.trans hi.own))
  refine h.cq_view hok htr ?_ he hi.zeroed hmem
  rw [hes]
  have hv := hm.cqView (c := b) (by rw [← hcq']; exact he)
  refine CqView.append ?_ ⟨fun l => hys.posts l, fun l => ?_, fun size r => hys.reader size r⟩
  · cases hv with
    | kept hcq h₁ h₂ h₃ => exact .kept (by rw [hcq', hcq, hmcq]) h₁ h₂ h₃
    | created hf hi h₁ h₂ h₃ => exact .created (by rw [hcq']; exact hf) hi h₁ h₂ h₃
  · rw [List.foldl_cons, hys.due]
    simp [dueNext, hne]

theorem unanswered (h : s.Agrees) (hok : s.d.Ok) (hin : s.InOrder) {heap : Heap} {q c : QueueId}
    (hi : Iterates s d' q c) {cdw0 : BitVec 32}
    (hr : Ran s.d.n heap q c nvmeNoComplete cdw0 d'.n) :
    Agrees ⟨d', s.host.after (.iterate heap) s.d d'⟩ := by
  obtain ⟨m, es, xs, hmsq, hmcq, hm, hio, htr, hes⟩ := hr.managed
  have haer := hr.noComplete_iff.mp rfl
  obtain ⟨_, _, -, -, -, -, -, hout, -⟩ := hr.world
  have hxs : q ≠ 0 → xs = [] := fun hq => (hio hq).2.2
  refine ⟨fun p he => ?_, fun b he => ?_⟩
  · refine h.consumed_sq hok hin hi hmsq hm hxs hr.sq rfl htr hes (fun p => .nil p)
      (fun p he a ha => hout a fun hd => ?_) he
    exact (hi.buffer a hd).2 p he ha
  · by_cases hbc : b = c
    · subst hbc
      refine h.unanswered_cq hok hi.enabled (hm.cqQuiet hxs (hi.cq_zero hok)) hr.cq htr hes haer
        fun a ha => hout a fun hd => ?_
      exact (hi.buffer a hd).1 b he (by rw [hr.cq]; exact ha)
    · exact h.other_cq hok hi hbc hmcq hm rfl htr hes (.nil b) he
        fun a ha => hout a fun hd => (hi.buffer a hd).1 b he ha

/-- An entry that is answered keeps the agreement: its completion slot is reachable, so the
completion is written. -/
theorem posted (h : s.Agrees) (hok : s.d.Ok) (hin : s.InOrder) {heap : Heap} {q c : QueueId}
    (hi : Iterates s d' q c) {n₁ : NvmeCtrl} {st : Status} {cdw0 : BitVec 32}
    (hr : Ran s.d.n heap q c st cdw0 n₁) (hst : st ≠ nvmeNoComplete)
    (hn : d'.n = nvmePostTo n₁ heap c (s.d.n.completion q c cdw0 st)) (hcqe : heap .cqeSgl = true)
    (hapart : d'.n.RingsApart) : Agrees ⟨d', s.host.after (.iterate heap) s.d d'⟩ := by
  obtain ⟨m, es, xs, hmsq, hmcq, hm, hio, htr, hes⟩ := hr.managed
  have haer : ¬ (q = 0 ∧ (s.d.n.headEntry q).opcode = nvmeAdmAsyncEvent) :=
    fun ha => hst (hr.noComplete_iff.mpr ha)
  have hxs : q ≠ 0 → xs = [] := fun hq => (hio hq).2.2
  have hring := hok.rings.cq c hi.enabled
  obtain ⟨_, _, -, -, -, -, hvfu, hout, -⟩ := hr.world
  obtain ⟨ps, irqs, hp⟩ := nvmePostTo_effect n₁ heap c (s.d.n.completion q c cdw0 st)
  obtain ⟨hsq', hcq', -⟩ := nvmePostTo_frame n₁ heap c (s.d.n.completion q c cdw0 st)
  rw [← hn] at hp hsq' hcq'
  have hcq : d'.n.cq c = (s.d.n.cq c).advance := by rw [hcq', Function.update_self, hr.cq]
  have hcen : (d'.n.cq c).enabled = true := by rw [hcq, NvmeCq.advance_enabled, hi.enabled]
  have hringc : (d'.n.cq c).ring = (s.d.n.cq c).ring := by rw [hcq, NvmeCq.advance_ring]
  have hframe (a : Addr) (hd : a ∉ dataBuffer q (s.d.n.headEntry q))
      (hx : a ∉ (s.d.n.cq c).ring) : d'.n.world.mem a = s.d.n.world.mem a := by
    refine (hp.outside a fun hs => hx (hring.tailSlot_subset ?_)).trans (hout a hd)
    rwa [← hr.cq]
  have hwritten : d'.n.world.mem = writeAll n₁.world.mem
      (span ((s.d.n.cq c).slotAddr (s.d.n.cq c).tail) 16)
      (s.d.n.completion q c cdw0 st).toBytes := by
    rw [← hr.cq]
    apply hp.written
    rw [nvmeGpaXfer_ok _ _ _ _ (by simp), hcqe, hvfu, hr.cq, NvmeCq.slotAddr_eq,
      NvmeCqe.toBytes_length]
    exact hin.2.2.2.1.2 c hi.enabled _ hring.tail_lt
  have htr' : d'.n.world.trace = s.d.n.world.trace ++
      (es ++ (ps ++ [.posted c (n₁.cq c).tail (s.d.n.completion q c cdw0 st)] ++ irqs)) := by
    rw [hp.trace, htr]
    simp only [List.append_assoc]
  have hes' : queueEvents (es ++ (ps ++ [.posted c (n₁.cq c).tail
      (s.d.n.completion q c cdw0 st)] ++ irqs)) = xs ++ [.command q (s.d.n.sq q).cqid
      (s.d.n.headEntry q) cdw0 st, .posted c (n₁.cq c).tail (s.d.n.completion q c cdw0 st)] := by
    rw [queueEvents_append, hes, hp.queueEvents, List.append_assoc]
    rfl
  refine ⟨fun p he => ?_, fun b he => ?_⟩
  · refine h.consumed_sq hok hin hi hmsq hm hxs hr.sq hsq' htr' hes'
      (fun p => ⟨fun _ => rfl, fun _ => rfl⟩)
      (fun p he a ha => hframe a (fun hd => ?_) fun hx => ?_) he
    · exact (hi.buffer a hd).2 p he ha
    · exact (hapart c hcen).2 p he ha (hringc ▸ hx)
  · by_cases hbc : b = c
    · subst hbc
      refine h.posted_cq hok hin hi.enabled (hm.cqQuiet hxs (hi.cq_zero hok)) hcq htr' hi.own hes'
        haer (fun a ha => hout a fun hd => ?_) hwritten
      exact (hi.buffer a hd).1 b hcen (by rw [hringc]; exact ha)
    · refine h.other_cq hok hi hbc hmcq hm (by rw [hcq', Function.update_of_ne hbc]) htr' hes'
        ⟨fun _ => by simp [postsNext, Ne.symm hbc], fun _ => rfl, fun _ _ => rfl⟩ he
        fun a ha => hframe a (fun hd => (hi.buffer a hd).1 b he ha) fun hx => ?_
      exact (hapart c hcen).1 b he hbc ha (hringc ▸ hx)

theorem consumed (h : s.Agrees) (hok : s.d.Ok) (hlink : s.d.n.Linked) (hin : s.InOrder)
    {heap : Heap} {q : QueueId} (hb : s.d.busy = some q)
    (hne : (s.d.n.sq q).head ≠ (s.d.n.sq q).tail) (hc : Consumed s.d.n heap q d'.n)
    (hb' : d'.busy = some q) (hz : ZeroedCqs s.d d') (hk : KeepsRings s.d d' (.iterate heap))
    (hin' : InOrder ⟨d', s.host.after (.iterate heap) s.d d'⟩) :
    Agrees ⟨d', s.host.after (.iterate heap) s.d d'⟩ := by
  have hen := hok.busy q hb
  obtain ⟨c, hserved⟩ := hc.served hok.rings hen
  have hown := hserved.own
  have hcen : (s.d.n.cq c).enabled = true := by
    obtain ⟨c₀, hc₀, hcen⟩ := hlink q hen
    rwa [show c = c₀ from Fin.ext (hown.symm.trans hc₀)]
  obtain ⟨-, hcqe, -, hbuf⟩ := hk
  have hi : Iterates s d' q c := ⟨hb, hne, hown, hcen, hb', hz, hbuf q hb⟩
  generalize hn : d'.n = n' at hserved
  cases hserved with
  | unanswered hr => exact h.unanswered hok hin hi (hn ▸ hr)
  | dropped _ _ hoff =>
    rw [hcen] at hoff
    cases hoff
  | posted hr hst he => exact h.posted hok hin hi hr hst hn hcqe hin'.2.2.1

theorem poll (h : s.Agrees) (hok : s.d.Ok) (hrel : s.Released) (c : QueueId) (host : Host)
    (hwriter : host.writer = s.host.writer)
    (hreader : host.reader = Function.update s.host.reader c
      ((s.host.reader c).poll (s.d.n.cq c) s.d.n.world.mem)) : Agrees ⟨s.d, host⟩ := by
  refine ⟨fun q he => ?_, fun b he => ?_⟩
  · rw [hwriter]
    exact h.sq q he
  · rw [hreader]
    by_cases hbc : b = c
    · subst hbc
      obtain ⟨hstands, hcarries, hfollows, hanswers⟩ := h.cq b he
      obtain ⟨hread, hroom⟩ := hrel b he
      rw [Function.update_self]
      exact ⟨hstands, hcarries, hfollows.poll hcarries (hok.rings.cq b he) (by omega), hanswers⟩
    · rw [Function.update_of_ne hbc]
      exact h.cq b he

end System.Agrees

/-- Every step of the device under the ring rules keeps the agreement. -/
theorem StepCase.agrees_host {s : System} {i : Input} {d' : Device} (hs : StepCase s.d i d')
    (h : s.Agrees) (hok : s.d.Ok) (hlink : s.d.n.Linked) (hin : s.InOrder) (hz : ZeroedCqs s.d d')
    (hk : KeepsRings s.d d' i) (hin' : System.InOrder ⟨d', s.host.after i s.d d'⟩) :
    System.Agrees ⟨d', s.host.after i s.d d'⟩ := by
  have hpend {n' : NvmeCtrl} (hsq : n'.sq = s.d.n.sq) (hmem : n'.world.mem = s.d.n.world.mem)
      (q : QueueId) (he : (s.d.n.sq q).enabled = true) : n'.pending q = s.d.n.pending q :=
    NvmeCtrl.pending_congr (hok.rings.sq q he) (congrFun hsq q) fun a _ => congrFun hmem a
  cases hs with
  | read hb | msixRead hb =>
    exact h.calm hok [.reply _] rfl rfl (fun _ => rfl) rfl rfl hz (hpend rfl rfl)
      (fun _ _ _ _ => rfl) fun _ _ => .inl (by simp [hb])
  | noQueue hb _ hq =>
    exact h.calm hok [] (by simp) rfl (Input.sqTail_noQueue hq) rfl rfl hz (hpend rfl rfl)
      (fun _ _ _ _ => rfl) fun _ _ => .inl (by simp [hb])
  | msixFailed hb | msixWrite hb =>
    exact h.calm hok [] (by simp) rfl (fun _ => rfl) rfl rfl hz (hpend rfl rfl)
      (fun _ _ _ _ => rfl) fun _ _ => .inl (by simp [hb])
  | cqHead hb hd => exact h.cqHead hok hb hd.sqTail_cq rfl hz
  | sqTail hb hd => exact h.sqTail hok hb hd.sqTail rfl (fun he => if_pos he) hz
  | @register hb offset buf ho v hv =>
    obtain ⟨es, hw, hsw⟩ := nvmeRegStore_switched s.d.n offset v buf.length
    exact h.switched hok hb hsw (by rw [hw]) (Input.sqTail_register ho) (by rw [hw]) hz
  | reset hb =>
    have hdown : Switched s.d.n (nvmeCtrlReset s.d.n) [] := .down (fun _ => rfl) fun _ => rfl
    exact h.switched hok hb hdown (List.append_nil _).symm (fun _ => rfl) rfl hz
  | @finished heap q hb hh =>
    refine h.calm hok [] (by simp) rfl (fun _ => rfl) rfl rfl hz (hpend rfl rfl)
      (fun _ _ _ _ => rfl) fun p _ => ?_
    by_cases hp : p = q
    · rw [hp]
      exact .inr hh
    · exact .inl (by simp [hb, Ne.symm hp])
  | @fetchFailed heap q hb hh hx =>
    -- ruled out: the slot at the head is reachable
    have hen := hok.busy q hb
    rw [nvmeGpaXfer_ok _ _ _ _ (by simp), hk.1, NvmeSq.slotAddr_eq, List.length_replicate] at hx
    have hreach := hin.2.2.2.1.1 q hen _ (hok.rings.sq q hen).head_lt
    rw [show xferProt false = .read from rfl, hreach] at hx
    cases hx
  | consumed hb hh hx hc => exact h.consumed hok hlink hin hb hh hc rfl hz hk hin'
  | hostMemory mem =>
    exact h.calm hok [] (by simp) rfl (fun _ => rfl) rfl rfl hz hk.2 hk.1 fun _ hb => .inl hb
  | dmaRegions vfu =>
    exact h.calm hok [] (by simp) rfl (fun _ => rfl) rfl rfl hz (hpend rfl rfl)
      (fun _ _ _ _ => rfl) fun _ hb => .inl hb

/-! ## Runs -/

/-- Everything that holds along runs under the ring rules. -/
structure System.Inv (maxNumKeys : BitVec 32) (s : System) : Prop where
  reachable : s.d.Reachable maxNumKeys
  linked : s.d.n.Linked
  inOrder : s.InOrder
  agrees : s.Agrees

theorem System.Initial.inv {maxNumKeys : BitVec 32} {s : System} (h : s.Initial maxNumKeys) :
    s.Inv maxNumKeys := by
  have hoff := h.device.queues_off
  have hsq {P : Prop} {q : QueueId} (he : (s.d.n.sq q).enabled = true) : P := by simp [hoff.1] at he
  have hcq {P : Prop} {c : QueueId} (he : (s.d.n.cq c).enabled = true) : P := by simp [hoff.2] at he
  exact ⟨⟨s.d, h.device, .refl⟩, fun _ he => hsq he,
    ⟨fun _ he => hsq he, fun _ he => hcq he, fun _ he => hcq he,
      ⟨fun _ he => hsq he, fun _ he => hcq he⟩, fun _ he => hcq he⟩,
    ⟨fun _ he => hsq he, fun _ he => hcq he⟩⟩

theorem deletesUsedCq_of_rules {d d' : Device} {i : Input} (hk : KeepsRings d d' i) :
    deletesUsedCq d i = false := by
  cases i with
  | iterate heap => exact hk.2.2.1
  | _ => rfl

theorem System.Inv.step {maxNumKeys : BitVec 32} {s s' : System} {a : Action}
    (h : s.Inv maxNumKeys) (hr : FollowsRules s a) (hs : s.step a = some s') :
    s'.Inv maxNumKeys := by
  cases a with
  | device i =>
    obtain ⟨d', hd, rfl⟩ := Option.map_eq_some_iff.mp hs
    obtain ⟨hz, hk, hin'⟩ := hr d' hd
    have hcase := Device.step_cases hd
    refine ⟨h.reachable.next hd, ?_, hin', ?_⟩
    · exact hcase.linked h.linked (deletesUsedCq_of_rules hk)
    · exact hcase.agrees_host h.agrees h.reachable.ok h.linked h.inOrder hz hk hin'
  | poll c =>
    obtain rfl := Option.some.inj hs
    obtain ⟨h₁, h₂, h₃, h₄, hrel⟩ := h.inOrder
    have hag := h.agrees.poll h.reachable.ok hrel c { s.host with
      reader := Function.update s.host.reader c
        ((s.host.reader c).poll (s.d.n.cq c) s.d.n.world.mem) } rfl rfl
    refine ⟨h.reachable, h.linked, ⟨h₁, h₂, h₃, h₄, fun b he => ?_⟩, hag⟩
    obtain ⟨hread, hroom⟩ := hrel b he
    by_cases hbc : b = c
    · subst hbc
      have hle := (s.host.reader b).poll_length_le (s.d.n.cq b) s.d.n.world.mem
      simp only [Function.update_self, CqReader.poll_released]
      exact ⟨by omega, hroom⟩
    · simp only [Function.update_of_ne hbc]
      exact ⟨hread, hroom⟩

theorem System.Inv.of_reaches {maxNumKeys : BitVec 32} {s₀ s : System}
    (h₀ : s₀.Initial maxNumKeys) (hr : Reaches System.step FollowsRules s₀ s) : s.Inv maxNumKeys :=
  hr.invariant (fun _ _ _ h hc hs => h.step hc hs) h₀.inv

/-- Polling until nothing is left reads every completion. -/
theorem System.Inv.poll_all {maxNumKeys : BitVec 32} {s : System} (h : s.Inv maxNumKeys)
    {c : QueueId} (he : (s.d.n.cq c).enabled = true) :
    ∃ s', Reaches System.step (fun _ a => a = .poll c) s s' ∧ s'.d = s.d ∧
      (s'.host.reader c).received = posts c s.d.n.world.trace ∧
      (s'.host.reader c).poll (s.d.n.cq c) s.d.n.world.mem = s'.host.reader c := by
  -- induction on the number of unread entries
  induction hk : (posts c s.d.n.world.trace).length - (s.host.reader c).received.length
    generalizing s with
  | zero =>
    obtain ⟨-, hcarries, hfollows, -⟩ := h.agrees.cq c he
    have hle := hfollows.received.length_le
    refine ⟨s, .refl, rfl, hfollows.received.eq_of_length (by omega), ?_⟩
    exact hfollows.poll_all hcarries (h.reachable.ok.rings.cq c he) (by omega)
  | succ k ih =>
    obtain ⟨-, hcarries, hfollows, -⟩ := h.agrees.cq c he
    obtain ⟨hread, hroom⟩ := h.inOrder.2.2.2.2 c he
    obtain ⟨hreceived, -⟩ := hfollows.poll_unread hcarries (by omega) (by omega)
    have hstep := h.step (a := .poll c) he rfl
    obtain ⟨s', hr, hd, hall, hlast⟩ := ih hstep he (by
      simp only [Function.update_self, hreceived, List.length_append, List.length_singleton]
      omega)
    have hone : Reaches System.step (fun _ a => a = .poll c) s ⟨s.d, { s.host with
        reader := Function.update s.host.reader c
          ((s.host.reader c).poll (s.d.n.cq c) s.d.n.world.mem) }⟩ :=
      Reaches.single (.poll c) rfl rfl
    exact ⟨s', hone.trans hr, hd, hall, hlast⟩

/-- Under the ring rules, for every interleaving of the host's and the device's steps: each
submission queue has executed exactly what was submitted to it, in order, up to what is pending
in the queue being drained; an iteration of that queue executes the next pending entry or ends the
loop; and each completion queue has given the host, in execution order, one entry for each command
that is owed one, as far as it has polled, and gives it all of them when it polls on. -/
theorem System.exactly_once {maxNumKeys : BitVec 32} {s₀ s : System} (h₀ : s₀.Initial maxNumKeys)
    (hr : Reaches System.step FollowsRules s₀ s) :
    (∀ q, (s.d.n.sq q).enabled = true →
      executed q s.d.n.world.trace ++ s.d.n.pending q = s.host.submitted q ∧
      (s.d.busy ≠ some q → executed q s.d.n.world.trace = s.host.submitted q)) ∧
    (∀ q heap, s.d.busy = some q → heap .sqeSgl = true → s.d.n.ns.entriesAllocated < 2 ^ 31 →
      ∃ d', s.d.step (.iterate heap) = some d' ∧
        ((s.d.n.pending q = [] ∧ d'.busy = none) ∨
          ∃ sqe rest cqid cdw0 st, s.d.n.pending q = sqe :: rest ∧ d'.busy = some q ∧
            .command q cqid sqe cdw0 st ∈ s.d.newEvents d')) ∧
    ∀ c, (s.d.n.cq c).enabled = true →
      List.Forall₂ Answers (s.host.reader c).received
        ((due c s.d.n.world.trace).take (s.host.reader c).received.length) ∧
      ∃ s', Reaches System.step (fun _ a => a = .poll c) s s' ∧ s'.d = s.d ∧
        List.Forall₂ Answers (s'.host.reader c).received (due c s.d.n.world.trace) ∧
        (s'.host.reader c).poll (s.d.n.cq c) s.d.n.world.mem = s'.host.reader c := by
  have h := System.Inv.of_reaches h₀ hr
  have hok := h.reachable.ok
  refine ⟨fun q he => ?_, fun q heap hb hsgl hint => ?_, fun c he => ?_⟩
  · obtain ⟨hsplit, -, hidle⟩ := h.agrees.sq q he
    refine ⟨hsplit, fun hb => ?_⟩
    rw [NvmeCtrl.pending_idle (hidle hb), List.append_nil] at hsplit
    exact hsplit
  · have hen := hok.busy q hb
    have hring := hok.rings.sq q hen
    by_cases hne : (s.d.n.sq q).head = (s.d.n.sq q).tail
    · obtain ⟨d', hs⟩ := Device.iterate_isSome hok hb heap
        (.inr ⟨h.reachable.ns_valid.1, fun _ => hint⟩)
      refine ⟨d', hs, .inl ⟨NvmeCtrl.pending_idle hne, ?_⟩⟩
      cases Device.step_cases hs with
      | finished | fetchFailed => rfl
      | consumed hb' hh =>
        rw [hb] at hb'
        exact absurd (Option.some.inj hb' ▸ hne) hh
    · have hreach := h.inOrder.2.2.2.1.1 q hen _ hring.head_lt
      rw [← NvmeSq.slotAddr_eq] at hreach
      obtain ⟨n', hs, hc⟩ := Device.iterate_consumes hok hb heap
        (.inr ⟨h.reachable.ns_valid.1, fun _ => hint⟩) hne hsgl hreach
      obtain ⟨c, hserved⟩ := hc.served hok.rings hen
      obtain ⟨st, cdw0, xs, ys, es, htr, hes, -⟩ := hserved.events
      refine ⟨_, hs, .inr ⟨_, _, (s.d.n.sq q).cqid, cdw0, st,
        NvmeCtrl.pending_cons hring (h.inOrder.1 q hen) hne, rfl, ?_⟩⟩
      rw [Device.newEvents_eq htr, ← mem_queueEvents rfl, hes]
      simp
  · obtain ⟨-, -, hfollows, hanswers⟩ := h.agrees.cq c he
    obtain ⟨s', hr', hd, hall, hlast⟩ := h.poll_all he
    refine ⟨?_, s', hr', hd, hall ▸ hanswers, hlast⟩
    have htake := List.forall₂_take (s.host.reader c).received.length hanswers
    rwa [← List.prefix_iff_eq_take.mp hfollows.received] at htake

/-- A completion queue of three entries at 0x20000, and submission queues of two entries at 0x30000
and 0x40000 on it. -/
def sharedCqMemory : Memory :=
  memoryOf [(0, 5), (26, 2), (40, 1), (42, 2), (64, 1), (90, 3), (104, 1), (106, 1), (110, 1),
    (128, 1), (154, 4), (168, 2), (170, 1), (174, 1)]

/-- One command on each submission queue; both completions are read and released. -/
def sharedCqRound (k : ℕ) : List Action :=
  ([sqTailWrite 1 (BitVec.ofNat 16 ((k + 1) % 2))] ++ iterations 2 ++
    [sqTailWrite 2 (BitVec.ofNat 16 ((k + 1) % 2))] ++ iterations 2).map .device ++
    [.poll 1, .poll 1, .device (cqHeadWrite 1 (BitVec.ofNat 16 ((2 * k + 2) % 3)))]

def sharedCqRun (rounds : ℕ) : List Action :=
  ([regWrite nvmeRegAqa 0x00030003, regWrite nvmeRegAcq 0x10000, regWrite nvmeRegCc 1,
    .hostMemory sharedCqMemory, sqTailWrite 0 3] ++ iterations 4).map .device ++
    (List.range rounds).flatMap sharedCqRound

/-- Two laps of the completion queue. -/
theorem System.exactly_once_sharedCq :
    ∃ s₀ s, Initial 1 s₀ ∧ Reaches step FollowsRules s₀ s ∧
      (s.d.n.sq 1).cqid = (s.d.n.sq 2).cqid ∧ (s.d.n.cq 1).size = 3 ∧
      (executed 1 s.d.n.world.trace).length = 3 ∧
      executed 1 s.d.n.world.trace = s.host.submitted 1 ∧
      (executed 2 s.d.n.world.trace).length = 3 ∧
      executed 2 s.d.n.world.trace = s.host.submitted 2 ∧
      (s.host.reader 1).received.length = 6 ∧
      List.Forall₂ Answers (s.host.reader 1).received
        ((due 1 s.d.n.world.trace).take (s.host.reader 1).received.length) := by
  have hrun : ((nvmeCtrlInit (fun _ => true) ⟨.flat, fun _ => 0, []⟩ 1).bind fun n =>
      (execute step followsRules ⟨⟨n, none⟩, ⟨fun _ => .fresh, fun _ => .fresh⟩⟩
        (sharedCqRun 3)).map fun s =>
        decide (s.d.busy = none ∧ (s.d.n.sq 1).enabled = true ∧ (s.d.n.sq 2).enabled = true ∧
          (s.d.n.cq 1).enabled = true ∧ (s.d.n.sq 1).cqid = (s.d.n.sq 2).cqid ∧
          (s.d.n.cq 1).size = 3 ∧ (executed 1 s.d.n.world.trace).length = 3 ∧
          (executed 2 s.d.n.world.trace).length = 3 ∧
          (s.host.reader 1).received.length = 6)) = some true := by decide +kernel
  obtain ⟨n, hn, hmap⟩ := Option.bind_eq_some_iff.mp hrun
  obtain ⟨s, hs, hobs⟩ := Option.map_eq_some_iff.mp hmap
  obtain ⟨hidle, hsq₁, hsq₂, hcq, hshared, hsize, hone, htwo, hread⟩ := of_decide_eq_true hobs
  have h₀ : Initial 1 ⟨⟨n, none⟩, ⟨fun _ => .fresh, fun _ => .fresh⟩⟩ :=
    ⟨⟨⟨_, _, hn, rfl⟩, rfl⟩, rfl⟩
  have hr := reaches_of_execute (fun _ _ _ h => followsRules_sound h) hs
  obtain ⟨hsubmitted, -, hreceived⟩ := exactly_once h₀ hr
  exact ⟨_, s, h₀, hr, hshared, hsize, hone, (hsubmitted 1 hsq₁).2 (by simp [hidle]), htwo,
    (hsubmitted 2 hsq₂).2 (by simp [hidle]), hread, (hreceived 1 hcq).1⟩

end VfuKvssd
