import VfuKvssd.Controller.Progress
import VfuKvssd.KeyValue.KvMap

/-! # The namespace along runs of the device

The KV commands of a run are read off the log, with the EDNEK setting and the
data that moved. Replaying them on a map gives the contents of the namespace:
no register write, admin command, reset or queue operation touches it.
-/
namespace VfuKvssd
open Foundations

/-- One KV command consumed from an I/O queue. -/
structure KvRecord where
  sqe : NvmeSqe
  ednek : BitVec 32
  io : KvIo
  status : Status

/-- Bookkeeping over the log: the EDNEK setting, data moved since the last command, and the
commands so far. -/
structure KvLog where
  ednek : BitVec 32
  io : KvIo
  records : List KvRecord

def NvmeSqe.setsEdnek (sqe : NvmeSqe) : Prop :=
  sqe.opcode = nvmeAdmSetFeatures ∧ sqe.cdw10.setWidth 8 = nvmeFeatKvEdnek

instance (sqe : NvmeSqe) : Decidable sqe.setsEdnek := inferInstanceAs (Decidable (_ ∧ _))

def KvLog.next (l : KvLog) : Event → KvLog
  | .h2c ok bytes => { l with io := .received ok bytes }
  | .c2h ok bytes => { l with io := .sent ok bytes }
  | .command q _ sqe _ st =>
    if q = 0 then { l with ednek := if sqe.setsEdnek then sqe.cdw11 else l.ednek }
    else { l with io := .none, records := l.records ++ [⟨sqe, l.ednek, l.io, st⟩] }
  | _ => l

def kvLog (es : List Event) : KvLog := es.foldl KvLog.next ⟨0, .none, []⟩

/-- What a consumed command does to the map. -/
inductive KvRecord.Step (cap : ℕ) (r : KvRecord) (m : KvMap) : KvMap → Prop
  | unsupported (ho : ∀ op : KvOp, r.sqe.opcode ≠ op.opcode) (hio : r.io = .none)
      (hst : r.status = nvmeInvalidOpcode ||| nvmeDnr) : KvRecord.Step cap r m m
  | kv {op : KvOp} {m' : KvMap} (ho : r.sqe.opcode = op.opcode)
      (h : KvSpec cap (r.ednek &&& 0x01 != 0) m (.ofSqe r.sqe) op r.io r.status m') :
      KvRecord.Step cap r m m'

/-- Commands replayed in order on the empty map. -/
inductive KvRun (cap : ℕ) : List KvRecord → KvMap → Prop
  | nil : KvRun cap [] fun _ => none
  | snoc {rs : List KvRecord} {r : KvRecord} {m m' : KvMap} (h : KvRun cap rs m)
      (hr : r.Step cap m m') : KvRun cap (rs ++ [r]) m'

/-! ## Events that the bookkeeping ignores -/

/-- Neither a transfer outcome nor a command. -/
def Event.kvInert : Event → Bool
  | .h2c _ _ => false
  | .c2h _ _ => false
  | .command _ _ _ _ _ => false
  | _ => true

theorem KvLog.next_inert (l : KvLog) {e : Event} (h : e.kvInert = true) : l.next e = l := by
  cases e <;> first | rfl | cases h

theorem KvLog.foldl_inert (l : KvLog) {es : List Event} (h : ∀ e ∈ es, e.kvInert = true) :
    es.foldl KvLog.next l = l := by
  induction es with
  | nil => rfl
  | cons e es ih =>
    rw [List.foldl_cons, l.next_inert (h e (by simp))]
    exact ih fun x hx => h x (by simp [hx])

theorem XferEvents.kvInert {toHost : Bool} {as : List Addr} {es : List Event}
    (h : XferEvents toHost as es) : ∀ e ∈ es, e.kvInert = true := by
  intro e he
  rcases h e he with ⟨a, bytes, -, rfl, -⟩ | ⟨a, n, -, rfl, -⟩ <;> rfl

/-! ## One command -/

theorem kvdmaH2c_length (heap : Heap) (w : World) (cmd : NvmeKVCmd) (dst : List Byte) :
    (kvdmaH2c heap w cmd dst).2.1.length = dst.length := by
  have ho := (nvmePrpXfer_outcome w (heap .dataSgl) cmd.prp1 cmd.prp2 dst false).1
  change (nvmePrpXfer w (heap .dataSgl) cmd.prp1 cmd.prp2 dst false).2.1.length = _
  generalize nvmePrpXfer w (heap .dataSgl) cmd.prp1 cmd.prp2 dst false = r at ho
  cases ho with
  | failed => rfl
  | done hm => simp [hm.buf]

theorem kvdmaH2c_trace {heap : Heap} {w w' : World} {cmd : NvmeKVCmd} {dst bytes : List Byte}
    {ok : Bool} (h : kvdmaH2c heap w cmd dst = (ok, bytes, w')) :
    ∃ fs, w'.trace = w.trace ++ (fs ++ [.h2c ok bytes]) ∧ ∀ e ∈ fs, e.kvInert = true := by
  obtain ⟨as, fs, ht, -, -⟩ := nvmePrpXfer_touched w (heap .dataSgl) cmd.prp1 cmd.prp2 dst false
  simp only [kvdmaH2c, Prod.mk.injEq] at h
  obtain ⟨hok, hb, hw⟩ := h
  refine ⟨fs, ?_, ht.events.kvInert⟩
  rw [← hw, hok, hb, World.log_trace, ht.trace, List.append_assoc]

theorem kvdmaC2h_trace {heap : Heap} {w w' : World} {cmd : NvmeKVCmd} {src : List Byte} {ok : Bool}
    (h : kvdmaC2h heap w cmd src = (ok, w')) :
    ∃ fs, w'.trace = w.trace ++ (fs ++ [.c2h ok src]) ∧ ∀ e ∈ fs, e.kvInert = true := by
  obtain ⟨as, fs, ht, -, -⟩ := nvmePrpXfer_touched w (heap .dataSgl) cmd.prp1 cmd.prp2 src true
  simp only [kvdmaC2h, Prod.mk.injEq] at h
  obtain ⟨hok, hw⟩ := h
  refine ⟨fs, ?_, ht.events.kvInert⟩
  rw [← hw, hok, World.log_trace, ht.trace, List.append_assoc]

/-- The events of a handler's transfer put exactly that transfer on record. -/
theorem KvIo.Performed.log {heap : Heap} {cmd : NvmeKVCmd} {w w' : World} {io : KvIo}
    (h : Performed (kvdma heap) cmd w io w') (l : KvLog) (hl : l.io = .none) :
    ∃ xs, w'.trace = w.trace ++ xs ∧ xs.foldl KvLog.next l = { l with io := io } ∧
      ∀ bytes, io = .received false bytes → .h2c false bytes ∈ xs := by
  cases h with
  | none => exact ⟨[], by simp, by rw [← hl]; rfl, by simp⟩
  | @received dst bytes ok _ hlen hx =>
    obtain ⟨fs, htr, hfs⟩ := kvdmaH2c_trace hx
    refine ⟨_, htr, ?_, ?_⟩
    · rw [List.foldl_append, l.foldl_inert hfs]
      rfl
    · intro b he
      simp only [KvIo.received.injEq] at he
      simp [he]
  | @sent src ok _ hx =>
    obtain ⟨fs, htr, hfs⟩ := kvdmaC2h_trace hx
    refine ⟨_, htr, ?_, by simp⟩
    rw [List.foldl_append, l.foldl_inert hfs]
    rfl

theorem KvIo.Performed.received_bytes {heap : Heap} {cmd : NvmeKVCmd} {w w' : World} {io : KvIo}
    (h : Performed (kvdma heap) cmd w io w') {xs : List Event} (htr : w'.trace = w.trace ++ xs)
    {bytes : List Byte} (hb : .h2c true bytes ∈ xs) :
    bytes = (prpAddrs cmd.prp1 cmd.prp2 cmd.hbs).map w.mem := by
  cases h with
  | none =>
    have hnil : xs = [] := by simpa using htr
    rw [hnil] at hb
    cases hb
  | @received dst bs ok _ hlen hx =>
    obtain ⟨fs, hw, hfs⟩ := kvdmaH2c_trace hx
    rw [← List.append_cancel_left (hw.symm.trans htr), List.mem_append, List.mem_singleton] at hb
    rcases hb with hb | hb
    · exact absurd (hfs _ hb) (by simp [Event.kvInert])
    obtain ⟨rfl, rfl⟩ : ok = true ∧ bs = bytes := by simpa [eq_comm] using hb
    have ho := (nvmePrpXfer_outcome w (heap .dataSgl) cmd.prp1 cmd.prp2 dst false).1
    have hx' : kvdmaH2c heap w cmd dst = (true, bs, w') := hx
    simp only [kvdmaH2c, Prod.mk.injEq] at hx'
    obtain ⟨hok, hbs, -⟩ := hx'
    generalize nvmePrpXfer w (heap .dataSgl) cmd.prp1 cmd.prp2 dst false = r at ho hok hbs
    cases ho with
    | failed => cases hok
    | done hm => rw [← hbs, hm.buf, if_neg Bool.false_ne_true, hlen]
  | @sent src ok _ hx =>
    obtain ⟨fs, hw, hfs⟩ := kvdmaC2h_trace hx
    rw [← List.append_cancel_left (hw.symm.trans htr), List.mem_append, List.mem_singleton] at hb
    rcases hb with hb | hb
    · exact absurd (hfs _ hb) (by simp [Event.kvInert])
    · cases hb

/-- The namespace agrees with the bookkeeping of the log. -/
structure KvAgrees (cap : ℕ) (n : NvmeCtrl) : Prop where
  valid : n.ns.Valid
  capacity : n.ns.maxNumKeys.toNat = cap
  ednek : (kvLog n.world.trace).ednek = n.ns.ednek
  io : (kvLog n.world.trace).io = .none
  run : KvRun cap (kvLog n.world.trace).records n.ns.contents

theorem KvAgrees.congr {cap : ℕ} {n n' : NvmeCtrl} {es : List Event} (h : KvAgrees cap n)
    (hns : n'.ns = n.ns) (htr : n'.world.trace = n.world.trace ++ es)
    (hes : ∀ e ∈ es, e.kvInert = true) : KvAgrees cap n' := by
  have hlog : kvLog n'.world.trace = kvLog n.world.trace := by
    rw [htr, kvLog, List.foldl_append]
    exact KvLog.foldl_inert _ hes
  obtain ⟨h₁, h₂, h₃, h₄, h₅⟩ := h
  exact ⟨hns ▸ h₁, hns ▸ h₂, by rw [hlog, h₃, hns], by rw [hlog, h₄], by rwa [hlog, hns]⟩

/-- An admin command changes at most the EDNEK setting, and adds nothing to the bookkeeping before
its own event. -/
theorem Executed.admin_inert {n n' : NvmeCtrl} {heap : Heap} {sqe : NvmeSqe} {st : Status}
    {cdw0 : BitVec 32} (hx : Executed n heap 0 sqe st cdw0 n') :
    (∃ xs, n'.world.trace = n.world.trace ++ xs ∧ ∀ e ∈ xs, e.kvInert = true) ∧
    n'.ns = { n.ns with ednek := if sqe.setsEdnek then sqe.cdw11 else n.ns.ednek } := by
  have hother {op : Byte} (ho : sqe.opcode = op) (hne : op ≠ nvmeAdmSetFeatures) :
      n.ns = { n.ns with ednek := if sqe.setsEdnek then sqe.cdw11 else n.ns.ednek } := by
    rw [if_neg fun h => hne (ho.symm.trans h.1)]
  cases hx with
  | identify hq ho hst hp =>
    obtain ⟨as, es, ht, -, -⟩ := nvmePrpXfer_touched n.world (heap .dataSgl) sqe.prp1 sqe.prp2 _ true
    rw [hp] at ht
    exact ⟨⟨es, ht.trace, ht.events.kvInert⟩, hother ho (by decide)⟩
  | ednek hq ho hf => exact ⟨⟨[], by simp, by simp⟩, by rw [if_pos ⟨ho, hf⟩]⟩
  | createCq hq ho hc => exact ⟨⟨_, rfl, by simp [Event.kvInert]⟩, hother ho (by decide)⟩
  | createSq hq ho hs hl => exact ⟨⟨_, rfl, by simp [Event.kvInert]⟩, hother ho (by decide)⟩
  | deleteCq hq ho => exact ⟨⟨[], by simp, by simp⟩, hother ho (by decide)⟩
  | deleteSq hq ho => exact ⟨⟨[], by simp, by simp⟩, hother ho (by decide)⟩
  | asyncEvent hq ho => exact ⟨⟨[], by simp, by simp⟩, hother ho (by decide)⟩
  | noEffect hq hst hf => exact ⟨⟨[], by simp, by simp⟩, by rw [if_neg (show ¬ sqe.setsEdnek from hf)]⟩
  | kv hq | unsupported hq => exact absurd rfl hq

theorem KvNs.contents_withEdnek (ns : KvNs) (v : BitVec 32) :
    ({ ns with ednek := v } : KvNs).contents = ns.contents := rfl

theorem kvLog_snoc (es : List Event) (e : Event) : kvLog (es ++ [e]) = (kvLog es).next e := by
  rw [kvLog, List.foldl_append]
  rfl

theorem kvLog_append_inert {es xs : List Event} (h : ∀ e ∈ xs, e.kvInert = true) :
    kvLog (es ++ xs) = kvLog es := by
  rw [kvLog, List.foldl_append]
  exact KvLog.foldl_inert _ h

theorem Executed.agrees_admin {cap : ℕ} {n n' : NvmeCtrl} {heap : Heap} {cqid : BitVec 16}
    {sqe : NvmeSqe} {st : Status} {cdw0 : BitVec 32} (h : KvAgrees cap n)
    (hx : Executed n heap 0 sqe st cdw0 n') :
    KvAgrees cap (n'.log (.command 0 cqid sqe cdw0 st)) := by
  obtain ⟨⟨xs, htr, hxs⟩, hns⟩ := hx.admin_inert
  have hlog : kvLog (n'.log (.command 0 cqid sqe cdw0 st)).world.trace =
      { kvLog n.world.trace with
        ednek := if sqe.setsEdnek then sqe.cdw11 else (kvLog n.world.trace).ednek } := by
    simp only [NvmeCtrl.log_world, World.log_trace, kvLog_snoc, htr, kvLog_append_inert hxs]
    rfl
  have hv := (hx.ns_valid h.valid).1
  refine ⟨hv, ?_, ?_, ?_, ?_⟩
  · rw [NvmeCtrl.log_ns, hns]
    exact h.capacity
  · rw [hlog, NvmeCtrl.log_ns, hns, h.ednek]
  · rw [hlog]
    exact h.io
  · rw [hlog, NvmeCtrl.log_ns, hns, KvNs.contents_withEdnek]
    exact h.run

theorem Executed.agrees_kv {cap : ℕ} {n n' : NvmeCtrl} {heap : Heap} {q : QueueId}
    {cqid : BitVec 16} {sqe : NvmeSqe} {st : Status} {cdw0 : BitVec 32} (h : KvAgrees cap n)
    (hx : Executed n heap q sqe st cdw0 n') (hq : q ≠ 0) (hheap : ∀ s, heap s = true)
    (hin : ∀ bytes, .h2c false bytes ∉ n'.world.trace) :
    KvAgrees cap (n'.log (.command q cqid sqe cdw0 st)) := by
  have hsnoc {xs : List Event} {io : KvIo} (htr : n'.world.trace = n.world.trace ++ xs)
      (hxs : xs.foldl KvLog.next (kvLog n.world.trace) = { kvLog n.world.trace with io := io }) :
      kvLog (n'.log (.command q cqid sqe cdw0 st)).world.trace =
        { kvLog n.world.trace with
          io := .none
          records := (kvLog n.world.trace).records ++
            [⟨sqe, (kvLog n.world.trace).ednek, io, st⟩] } := by
    rw [NvmeCtrl.log_world, World.log_trace, kvLog_snoc, htr, kvLog, List.foldl_append]
    rw [show List.foldl KvLog.next ⟨0, .none, []⟩ n.world.trace = kvLog n.world.trace from rfl, hxs]
    simp [KvLog.next, hq]
  cases hx with
  | @kv _ op ho _ ns' w' hh =>
    obtain ⟨io, hio, hspec⟩ := kvHandle_spec h.valid hheap (kvdmaH2c_length heap · _) hh
    obtain ⟨xs, htr, hxs, hbad⟩ := hio.log (kvLog n.world.trace) h.io
    have hlog := hsnoc htr hxs
    obtain ⟨hv, hm, he⟩ := kvHandle_valid h.valid hh
    have hok : ∀ bytes, io ≠ .received false bytes := by
      intro bytes hb
      refine hin bytes ?_
      rw [show ({ n.withWorld w' with ns := ns' } : NvmeCtrl).world.trace = w'.trace from rfl, htr]
      exact List.mem_append_right _ (hbad bytes hb)
    refine ⟨hv, ?_, ?_, by rw [hlog], ?_⟩
    · exact (congrArg BitVec.toNat hm).trans h.capacity
    · rw [hlog]
      exact h.ednek.trans he.symm
    · rw [hlog]
      refine .snoc h.run (.kv (kvOpOf_eq ho) ?_)
      rw [h.ednek, ← h.capacity]
      exact hspec hok
  | unsupported _ ho =>
    have hlog := @hsnoc [] .none (by simp) (by rw [← h.io]; rfl)
    refine ⟨h.valid, h.capacity, by rw [hlog]; exact h.ednek, by rw [hlog], ?_⟩
    rw [hlog]
    refine .snoc h.run (.unsupported (fun op hop => ?_) rfl rfl)
    exact absurd (ho.symm.trans (kvOpOf_of_opcode hop)) (by simp)
  | identify hz | ednek hz | createCq hz | createSq hz | deleteCq hz | deleteSq hz | asyncEvent hz
  | noEffect hz => exact absurd hz hq

theorem Ran.agrees {cap : ℕ} {n n₁ : NvmeCtrl} {heap : Heap} {q c : QueueId} {st : Status}
    {cdw0 : BitVec 32} (hr : Ran n heap q c st cdw0 n₁) (h : KvAgrees cap n)
    (hheap : ∀ s, heap s = true) (hin : ∀ bytes, .h2c false bytes ∉ n₁.world.trace) :
    KvAgrees cap n₁ := by
  obtain ⟨-, ⟨buf, w, hm, n₀, hex, rfl⟩, -, -⟩ := hr
  obtain ⟨fs, hf⟩ := hm.touched
  have hfetch : KvAgrees cap (n.fetched q w) := h.congr rfl hf.trace hf.events.kvInert
  by_cases hq : q = 0
  · subst hq
    exact hex.agrees_admin hfetch
  · refine hex.agrees_kv hfetch hq hheap fun bytes hb => hin bytes ?_
    rw [NvmeCtrl.log_world, World.log_trace]
    exact List.mem_append_left _ hb

theorem Executed.received_bytes {n n' : NvmeCtrl} {heap : Heap} {q : QueueId} {sqe : NvmeSqe}
    {st : Status} {cdw0 : BitVec 32} (hx : Executed n heap q sqe st cdw0 n') (hv : n.ns.Valid)
    (hheap : ∀ s, heap s = true) {xs : List Event}
    (htr : n'.world.trace = n.world.trace ++ xs) {bytes : List Byte}
    (hb : .h2c true bytes ∈ xs) :
    bytes = (prpAddrs sqe.prp1 sqe.prp2 (NvmeKVCmd.ofSqe sqe).hbs).map n.world.mem := by
  by_cases hq : q = 0
  · subst hq
    obtain ⟨⟨ys, hys, hinert⟩, -⟩ := hx.admin_inert
    rw [hys] at htr
    rw [← List.append_cancel_left htr] at hb
    exact absurd (hinert _ hb) (by simp [Event.kvInert])
  · cases hx with
    | @kv _ op ho _ ns' w' hh =>
      obtain ⟨io, hio, -⟩ := kvHandle_spec hv hheap (kvdmaH2c_length heap · _) hh
      exact hio.received_bytes htr hb
    | unsupported =>
      have hnil : xs = [] := by simpa using htr
      rw [hnil] at hb
      cases hb
    | identify hz | ednek hz | createCq hz | createSq hz | deleteCq hz | deleteSq hz
    | asyncEvent hz | noEffect hz => exact absurd hz hq

theorem Ran.received_bytes {n n₁ : NvmeCtrl} {heap : Heap} {q c : QueueId} {st : Status}
    {cdw0 : BitVec 32} (hr : Ran n heap q c st cdw0 n₁) (hv : n.ns.Valid)
    (hheap : ∀ s, heap s = true) {es : List Event}
    (htr : n₁.world.trace = n.world.trace ++ es) {bytes : List Byte}
    (hb : .h2c true bytes ∈ es) :
    bytes = (prpAddrs (n.headEntry q).prp1 (n.headEntry q).prp2
      (NvmeKVCmd.ofSqe (n.headEntry q)).hbs).map n.world.mem := by
  obtain ⟨-, ⟨buf, w, hm, n₀, hex, rfl⟩, -, -⟩ := hr
  obtain ⟨fs, hf⟩ := hm.touched
  obtain ⟨xs, he⟩ := hex.effect
  have htr₀ : n₀.world.trace = w.trace ++ xs := he.trace
  rw [NvmeCtrl.log_world, World.log_trace, htr₀, hf.trace, List.append_assoc,
    List.append_assoc] at htr
  rw [← List.append_cancel_left htr, List.mem_append, List.mem_append, List.mem_singleton] at hb
  rcases hb with hb | hb | hb
  · exact absurd (hf.events.kvInert _ hb) (by simp [Event.kvInert])
  · have hmem : (n.fetched q w).world.mem = n.world.mem := hf.inward rfl
    have hbytes := hex.received_bytes hv hheap htr₀ hb
    rwa [hmem] at hbytes
  · cases hb

/-- A completion adds nothing to the bookkeeping and leaves the namespace alone. -/
theorem Served.ran {n n' : NvmeCtrl} {heap : Heap} {q c : QueueId} (hs : Served n heap q c n') :
    ∃ n₁ st cdw0 ps, Ran n heap q c st cdw0 n₁ ∧ n'.ns = n₁.ns ∧
      n'.world.trace = n₁.world.trace ++ ps ∧ ∀ e ∈ ps, e.kvInert = true := by
  cases hs with
  | unanswered hr => exact ⟨_, _, _, [], hr, rfl, by simp, by simp⟩
  | dropped hr => exact ⟨_, _, _, [], hr, rfl, by simp, by simp⟩
  | @posted n₁ st cdw0 hr hst he =>
    obtain ⟨es, irqs, hp⟩ := nvmePostTo_effect n₁ heap c (n.completion q c cdw0 st)
    refine ⟨n₁, st, cdw0, es ++ [.posted c (n₁.cq c).tail (n.completion q c cdw0 st)] ++ irqs, hr,
      (nvmePostTo_frame n₁ heap c _).2.2.1, by rw [hp.trace]; simp, fun e hm => ?_⟩
    simp only [List.mem_append, List.mem_singleton] at hm
    rcases hm with (hm | rfl) | hm
    · exact hp.events.kvInert e hm
    · rfl
    · obtain ⟨v, rfl⟩ := hp.irqs e hm
      rfl

theorem Ran.trace {n n₁ : NvmeCtrl} {heap : Heap} {q c : QueueId} {st : Status} {cdw0 : BitVec 32}
    (hr : Ran n heap q c st cdw0 n₁) : ∃ es, n₁.world.trace = n.world.trace ++ es := by
  obtain ⟨fs, xs, htr, -⟩ := hr.world
  exact ⟨_, by rw [htr, List.append_assoc, List.append_assoc]⟩

theorem Served.received_bytes {n n' : NvmeCtrl} {heap : Heap} {q c : QueueId}
    (hs : Served n heap q c n') (hv : n.ns.Valid) (hheap : ∀ s, heap s = true) {es : List Event}
    (htr : n'.world.trace = n.world.trace ++ es) {bytes : List Byte} (hb : .h2c true bytes ∈ es) :
    bytes = (prpAddrs (n.headEntry q).prp1 (n.headEntry q).prp2
      (NvmeKVCmd.ofSqe (n.headEntry q)).hbs).map n.world.mem := by
  obtain ⟨n₁, st, cdw0, ps, hr, -, hps, hin⟩ := hs.ran
  obtain ⟨xs, hxs⟩ := hr.trace
  rw [hps, hxs, List.append_assoc] at htr
  rw [← List.append_cancel_left htr, List.mem_append] at hb
  rcases hb with hb | hb
  · exact hr.received_bytes hv hheap hxs hb
  · exact absurd (hin _ hb) (by simp [Event.kvInert])

theorem Served.agrees {cap : ℕ} {n n' : NvmeCtrl} {heap : Heap} {q c : QueueId}
    (hs : Served n heap q c n') (h : KvAgrees cap n) (hheap : ∀ s, heap s = true)
    (hin : ∀ bytes, .h2c false bytes ∉ n'.world.trace) : KvAgrees cap n' := by
  obtain ⟨n₁, st, cdw0, ps, hr, hns, hps, hinert⟩ := hs.ran
  have h₁ := hr.agrees h hheap fun bytes hb => hin bytes (by simp [hps, hb])
  exact h₁.congr hns hps hinert

/-! ## Runs -/

/-- Outside iterations the namespace is left alone and the bookkeeping sees nothing. -/
theorem StepCase.kvInert {d d' : Device} {i : Input} (hs : StepCase d i d')
    (hi : ∀ heap, i ≠ .iterate heap) :
    d'.n.ns = d.n.ns ∧ ∃ es, d'.n.world.trace = d.n.world.trace ++ es ∧
      ∀ e ∈ es, e.kvInert = true := by
  have hns : d'.n.ns = d.n.ns := hs.ns_eq.resolve_right fun ⟨heap, _, h, _⟩ => hi heap h
  refine ⟨hns, ?_⟩
  cases hs with
  | read | msixRead => exact ⟨[.reply _], rfl, by simp [Event.kvInert]⟩
  | cqHead => exact ⟨[.cqHead _ _], rfl, by simp [Event.kvInert]⟩
  | noQueue | sqTail | msixFailed | msixWrite | reset | hostMemory | dmaRegions =>
    exact ⟨[], (List.append_nil _).symm, by simp⟩
  | @register hb offset buf ho v hv =>
    rcases nvmeRegStore_cases d.n offset v buf.length with ⟨-, he⟩ | ⟨-, _, _, _, _, _, he⟩
    · rw [he, nvmeCcWrite_world]
      split_ifs
      · refine ⟨[.sqInit 0 0, .cqInit 0 (((d.n.aqa >>> 16) &&& 0xfff) + 1).toNat], ?_,
          by simp [Event.kvInert]⟩
        rw [World.log_trace, World.log_trace, List.append_assoc]
        rfl
      · exact ⟨[], by simp, by simp⟩
    · rw [he]
      exact ⟨[], by simp, by simp⟩
  | finished | fetchFailed | consumed => exact absurd rfl (hi _)

theorem Served.trace {n n' : NvmeCtrl} {heap : Heap} {q c : QueueId} (hs : Served n heap q c n') :
    ∃ es, n'.world.trace = n.world.trace ++ es := by
  obtain ⟨n₁, st, cdw0, ps, hr, -, hps, -⟩ := hs.ran
  obtain ⟨xs, hxs⟩ := hr.trace
  exact ⟨xs ++ ps, by rw [hps, hxs, List.append_assoc]⟩

/-- The log only grows. -/
theorem StepCase.trace {d d' : Device} {i : Input} (hs : StepCase d i d') (hok : d.Ok) :
    ∃ es, d'.n.world.trace = d.n.world.trace ++ es := by
  by_cases hi : ∀ heap, i ≠ .iterate heap
  · exact (hs.kvInert hi).2.imp fun _ h => h.1
  · push Not at hi
    obtain ⟨heap, rfl⟩ := hi
    cases hs with
    | finished | fetchFailed => exact ⟨[], (List.append_nil _).symm⟩
    | @consumed _ q hb hh hx n hc =>
      obtain ⟨c, hserved⟩ := hc.served hok.rings (hok.busy q hb)
      exact hserved.trace

theorem Device.Reachable.trace {maxNumKeys : BitVec 32} {d₁ d₂ : Device}
    (h : Reachable maxNumKeys d₁) (hr : Reaches step (fun _ _ => True) d₁ d₂) :
    ∃ es, d₂.n.world.trace = d₁.n.world.trace ++ es := by
  refine hr.relates (R := fun d₁ d₂ => ∃ es, d₂.n.world.trace = d₁.n.world.trace ++ es)
    ⟨[], by simp⟩ ?_
  rintro t i u ht ⟨es, htr⟩ - hs
  obtain ⟨fs, hfs⟩ := (step_cases hs).trace (h.trans ht).ok
  exact ⟨es ++ fs, by rw [hfs, htr, List.append_assoc]⟩

/-- Allocations succeed and the slot array is within the range of `int`. -/
def Provisioned (d : Device) (i : Input) : Prop :=
  (∀ heap, i = .iterate heap → ∀ s, heap s = true) ∧ d.n.ns.entriesAllocated < 2 ^ 31

theorem Device.Initial.agrees {maxNumKeys : BitVec 32} {d : Device} (h : Initial maxNumKeys d) :
    KvAgrees maxNumKeys.toNat d.n := by
  obtain ⟨heap, hns⟩ := h.ns
  obtain ⟨⟨heap', world, hi, htr⟩, -⟩ := h
  obtain ⟨ns, -, hn⟩ := Option.map_eq_some_iff.mp hi
  have htrace : d.n.world.trace = [] := by rw [← hn, htr]
  have hinit : d.n.ns.pairs = List.replicate kvInitialEntries KvPair.zero ∧ d.n.ns.ednek = 0 := by
    rw [kvNsInit] at hns
    split at hns
    · rw [← Option.some.inj hns]
      exact ⟨rfl, rfl⟩
    · cases hns
  have hempty : d.n.ns.contents = fun _ => none := by
    rw [KvNs.contents, KvNs.table, hinit.1, List.map_replicate, KvPair.entry_zero]
    funext k
    rw [SlotTable.lookup_eq_none_iff, SlotTable.keys_replicate_none]
    exact List.not_mem_nil
  refine ⟨kvNsInit_valid hns, by rw [kvNsInit_maxNumKeys hns], ?_, ?_, ?_⟩
  · rw [htrace, hinit.2]
    rfl
  · rw [htrace]
    rfl
  · rw [htrace, hempty]
    exact .nil

theorem StepCase.agrees {cap : ℕ} {d d' : Device} {i : Input} (hs : StepCase d i d') (hok : d.Ok)
    (h : KvAgrees cap d.n) (hp : Provisioned d i)
    (hin : ∀ bytes, .h2c false bytes ∉ d'.n.world.trace) : KvAgrees cap d'.n := by
  by_cases hi : ∀ heap, i ≠ .iterate heap
  · obtain ⟨hns, es, htr, hes⟩ := hs.kvInert hi
    exact h.congr hns htr hes
  · push Not at hi
    obtain ⟨heap, rfl⟩ := hi
    cases hs with
    | finished | fetchFailed => exact h
    | @consumed _ q hb hh hx n hc =>
      obtain ⟨c, hserved⟩ := hc.served hok.rings (hok.busy q hb)
      exact hserved.agrees h (hp.1 heap rfl) hin

/-- In every run with successful allocations, a table within the range of `int` and no failed
transfer of a Store, the namespace is the map obtained by replaying, in order, the KV commands
consumed from I/O queues; its keys have at most 16 bytes; no such run gets stuck in a command;
and the bytes that a Store brings in are the guest's at its PRPs. -/
theorem Device.kv_refines_map {maxNumKeys : BitVec 32} {d₀ d : Device}
    (h₀ : Initial maxNumKeys d₀) (hr : Reaches step Provisioned d₀ d)
    (hin : ∀ bytes, .h2c false bytes ∉ d.n.world.trace) :
    KvRun maxNumKeys.toNat (kvLog d.n.world.trace).records d.n.ns.contents ∧
    (∀ k, d.n.ns.contents k ≠ none → k.length ≤ 16) ∧
    (d.n.ns.entriesAllocated < 2 ^ 31 → ∀ q, d.busy = some q →
      ∀ heap, ∃ d', d.step (.iterate heap) = some d') ∧
    (∀ q heap d' es bytes, d.busy = some q → (∀ s, heap s = true) →
      d.step (.iterate heap) = some d' → d'.n.world.trace = d.n.world.trace ++ es →
      .h2c true bytes ∈ es →
      bytes = (prpAddrs (d.n.headEntry q).prp1 (d.n.headEntry q).prp2
        (NvmeKVCmd.ofSqe (d.n.headEntry q)).hbs).map d.n.world.mem) := by
  obtain ⟨hok, hagree⟩ : d.Ok ∧ ((∀ bytes, .h2c false bytes ∉ d.n.world.trace) →
      KvAgrees maxNumKeys.toNat d.n) := by
    apply hr.invariant (I := fun d => d.Ok ∧ ((∀ bytes, .h2c false bytes ∉ d.n.world.trace) →
      KvAgrees maxNumKeys.toNat d.n))
    · rintro s i t ⟨hok, h⟩ hp hs
      have hcase := step_cases hs
      refine ⟨hcase.ok hok, fun hin => hcase.agrees hok (h fun bytes hb => hin bytes ?_) hp hin⟩
      obtain ⟨es, htr⟩ := hcase.trace hok
      rw [htr]
      exact List.mem_append_left _ hb
    · exact ⟨h₀.ok, fun _ => h₀.agrees⟩
  have h := hagree hin
  refine ⟨h.run, fun k hk => h.valid.contents_key_length hk,
    fun hint q hb heap => iterate_isSome hok hb heap (.inr ⟨h.valid, fun _ => hint⟩), ?_⟩
  intro q heap d' es bytes hb hheap hs htr hmem
  cases step_cases hs with
  | finished | fetchFailed =>
    have hnil : es = [] := by simpa using htr
    rw [hnil] at hmem
    cases hmem
  | consumed hb' hh hx hc =>
    rw [hb] at hb'
    obtain rfl := Option.some.inj hb'
    obtain ⟨c, hserved⟩ := hc.served hok.rings (hok.busy q hb)
    exact hserved.received_bytes h.valid hheap htr hmem

/-- Create CQ 1 and SQ 1, then a Store of two bytes under a one-byte key. -/
def storeMemory : Memory :=
  memoryOf [(0, 5), (26, 2), (40, 1), (42, 15), (64, 1), (90, 3), (104, 1), (106, 15), (110, 1),
    (0x30000, 1), (0x30008, 0x61), (0x3001a, 4), (0x30028, 2), (0x3002c, 1), (0x40000, 7),
    (0x40001, 9)]

def storeInputs : List Input :=
  enableAdmin ++ [.hostMemory storeMemory, sqTailWrite 0 2] ++ iterations 3 ++ [sqTailWrite 1 1] ++
    iterations 1

def Event.isFailedStore : Event → Bool
  | .h2c ok _ => !ok
  | _ => false

theorem Device.kv_refines_map_store :
    ∃ d₀ d, Initial 1 d₀ ∧ Reaches step Provisioned d₀ d ∧
      (kvLog d.n.world.trace).records.length = 1 ∧
      KvRun 1 (kvLog d.n.world.trace).records d.n.ns.contents := by
  have hrun : (bootRun 1 (fun d _ => decide (d.n.ns.entriesAllocated < 2 ^ 31)) storeInputs).map
      (fun d => decide ((kvLog d.n.world.trace).records.length = 1 ∧
        ∀ e ∈ d.n.world.trace, e.isFailedStore = false)) = some true := by decide +kernel
  obtain ⟨d, hd, hobs⟩ := Option.map_eq_some_iff.mp hrun
  obtain ⟨hone, hgood⟩ := of_decide_eq_true hobs
  have hprov : ∀ d, ∀ i ∈ storeInputs, decide (d.n.ns.entriesAllocated < 2 ^ 31) = true →
      Provisioned d i := by
    intro d i hi hsize
    refine ⟨fun heap he s => ?_, of_decide_eq_true hsize⟩
    subst he
    simp only [storeInputs, enableAdmin, iterations, regWrite, sqTailWrite, List.mem_append,
      List.mem_cons, List.mem_replicate, List.not_mem_nil] at hi
    simp at hi
    rw [hi]
  obtain ⟨d₀, h₀, hr⟩ := reaches_of_bootRun hprov hd
  have href := kv_refines_map h₀ hr fun bytes hb => absurd (hgood _ hb) (by simp [Event.isFailedStore])
  exact ⟨d₀, d, h₀, hr, hone, href.1⟩

end VfuKvssd
