import VfuKvssd.Controller.Invariants
import VfuKvssd.KeyValue.Outcomes

/-! # What each part of an iteration adds to the log and to guest memory -/
namespace VfuKvssd
open Foundations

/-- Events that no bookkeeping over the log looks at: memory accesses, transfer outcomes,
interrupts and replies. -/
def Event.isData : Event → Bool
  | .dmaRead _ _ => true
  | .dmaWrite _ _ => true
  | .irq _ => true
  | .h2c _ _ => true
  | .c2h _ _ => true
  | .reply _ => true
  | _ => false

theorem XferEvents.isData {toHost : Bool} {as : List Addr} {es : List Event}
    (h : XferEvents toHost as es) : ∀ e ∈ es, e.isData = true := by
  intro e he
  rcases h e he with ⟨a, bytes, -, rfl, -⟩ | ⟨a, n, -, rfl, -⟩ <;> rfl

theorem XferEvents.isData_log {toHost : Bool} {as : List Addr} {es : List Event}
    (h : XferEvents toHost as es) {e : Event} (he : e.isData = true) :
    ∀ x ∈ es ++ [e], x.isData = true := by
  intro x hx
  rcases List.mem_append.mp hx with hx | hx
  · exact h.isData x hx
  · rw [List.mem_singleton.mp hx]
    exact he

/-- What a transfer, whatever its outcome, does to its surroundings. -/
structure Touched (toHost : Bool) (as : List Addr) (w w' : World) (es : List Event) : Prop where
  vfu : w'.vfu = w.vfu
  outside : ∀ a, a ∉ as → w'.mem a = w.mem a
  inward : toHost = false → w'.mem = w.mem
  trace : w'.trace = w.trace ++ es
  events : XferEvents toHost as es

theorem Touched.none (toHost : Bool) (w : World) : Touched toHost [] w w [] :=
  ⟨rfl, fun _ _ => rfl, fun _ => rfl, by simp, by simp [XferEvents]⟩

theorem Moved.touched {toHost : Bool} {as : List Addr} {buf buf' : List Byte} {w w' : World}
    (h : Moved toHost as buf buf' w w') : ∃ es, Touched toHost as w w' es := by
  obtain ⟨es, htr, hes⟩ := h.trace
  refine ⟨es, h.vfu, fun a ha => ?_, fun ht => ?_, htr, hes⟩
  · rw [h.mem]
    split
    · exact writeAll_outside ha
    · rfl
  · rw [h.mem, ht]
    rfl

/-- The page of the first PRP from its offset on and the page of the second. -/
def prpWindow (prp1 prp2 : Addr) : List Addr :=
  span prp1 (kvssdPageSize - prp1.toNat % kvssdPageSize) ++ span prp2 kvssdPageSize

/-- A PRP transfer touches only addresses of its own range and of its two pages. -/
theorem nvmePrpXfer_touched (w : World) (sglOk : Bool) (prp1 prp2 : Addr) (buf : List Byte)
    (toHost : Bool) :
    ∃ as es, Touched toHost as w (nvmePrpXfer w sglOk prp1 prp2 buf toHost).2.2 es ∧
      as ⊆ prpAddrs prp1 prp2 buf.length ∧ as ⊆ prpWindow prp1 prp2 := by
  obtain ⟨ho, hpage⟩ := nvmePrpXfer_outcome w sglOk prp1 prp2 buf toHost
  generalize nvmePrpXfer w sglOk prp1 prp2 buf toHost = r at ho hpage
  cases ho with
  | failed => exact ⟨[], [], .none toHost w, by simp, by simp⟩
  | done hm =>
    obtain ⟨es, ht⟩ := hm.touched
    refine ⟨_, es, ht, List.Subset.refl _, fun a ha => ?_⟩
    rw [prpAddrs, List.mem_append] at ha
    rw [prpWindow, List.mem_append]
    rcases ha with ha | ha
    · exact .inl (span_subset (prpFirst_le_page prp1 buf.length) ha)
    · exact .inr (span_subset (hpage rfl) ha)

/-! ## A command -/

/-- Guest addresses that a command may write: the Identify page, the bytes a Retrieve returns, and
for a List at least its four-byte header. -/
def dataBuffer (q : QueueId) (sqe : NvmeSqe) : List Addr :=
  let cmd := NvmeKVCmd.ofSqe sqe
  if q = 0 then
    if sqe.opcode = nvmeAdmIdentify then prpAddrs sqe.prp1 sqe.prp2 kvssdPageSize else []
  else
    match kvOpOf sqe.opcode with
    | some .retrieve => prpAddrs cmd.prp1 cmd.prp2 (min cmd.hbs nvmeKvMaxValSize)
    | some .list => prpAddrs cmd.prp1 cmd.prp2 (max cmd.hbs 4)
    | _ => []

/-- Commands that write guest memory other than a completion. -/
def WritesData (q : QueueId) (sqe : NvmeSqe) : Prop :=
  (q = 0 ∧ sqe.opcode = nvmeAdmIdentify) ∨
  (q ≠ 0 ∧ (sqe.opcode = nvmeCmdKvRetrieve ∨ sqe.opcode = nvmeCmdKvList))

/-- The surroundings after a command. -/
structure CommandEffect (q : QueueId) (sqe : NvmeSqe) (w w' : World) (es : List Event) : Prop where
  vfu : w'.vfu = w.vfu
  trace : w'.trace = w.trace ++ es
  outside : ∀ a, a ∉ dataBuffer q sqe → w'.mem a = w.mem a
  changed : ∀ a, w'.mem a ≠ w.mem a → WritesData q sqe ∧ a ∈ prpWindow sqe.prp1 sqe.prp2
  reads : ∀ e ∈ es, ∀ a ∈ e.reads, (q ≠ 0 ∧ sqe.opcode = nvmeCmdKvStore) ∧
    a ∈ prpWindow sqe.prp1 sqe.prp2
  writes : ∀ e ∈ es, ∀ a ∈ e.writes, WritesData q sqe ∧ a ∈ prpWindow sqe.prp1 sqe.prp2

theorem CommandEffect.none (q : QueueId) (sqe : NvmeSqe) (w : World) :
    CommandEffect q sqe w w [] :=
  ⟨rfl, by simp, fun _ _ => rfl, fun _ h => absurd rfl h, by simp, by simp⟩

def KvOp.opcode : KvOp → Byte
  | .store => nvmeCmdKvStore
  | .retrieve => nvmeCmdKvRetrieve
  | .delete => nvmeCmdKvDelete
  | .exist => nvmeCmdKvExist
  | .list => nvmeCmdKvList

theorem kvOpOf_eq {opcode : Byte} {op : KvOp} (h : kvOpOf opcode = some op) :
    opcode = op.opcode := by
  rw [kvOpOf] at h
  split_ifs at h <;> rw [← Option.some.inj h] <;> assumption

theorem kvOpOf_of_opcode {opcode : Byte} {op : KvOp} (h : opcode = op.opcode) :
    kvOpOf opcode = some op := by
  rw [h]
  cases op <;> rfl

theorem Touched.commandEffect_out {q : QueueId} {sqe : NvmeSqe} {as : List Addr} {w w' : World}
    {es : List Event} (h : Touched true as w w' es) (hd : WritesData q sqe)
    (hb : as ⊆ dataBuffer q sqe) (hw : as ⊆ prpWindow sqe.prp1 sqe.prp2) :
    CommandEffect q sqe w w' es := by
  refine ⟨h.vfu, h.trace, fun a ha => h.outside a fun hm => ha (hb hm), fun a ha => ?_, ?_, ?_⟩
  · exact ⟨hd, hw (not_not.mp fun hn => ha (h.outside a hn))⟩
  · intro e he a ha
    rcases h.events e he with ⟨_, _, -, rfl, -⟩ | ⟨_, _, hf, -, -⟩
    · simp [Event.reads] at ha
    · cases hf
  · intro e he a ha
    rcases h.events e he with ⟨_, _, -, rfl, hs⟩ | ⟨_, _, hf, -, -⟩
    · exact ⟨hd, hw (hs ha)⟩
    · cases hf

theorem Touched.commandEffect_in {q : QueueId} {sqe : NvmeSqe} {as : List Addr} {w w' : World}
    {es : List Event} (h : Touched false as w w' es) (hq : q ≠ 0)
    (ho : sqe.opcode = nvmeCmdKvStore) (hw : as ⊆ prpWindow sqe.prp1 sqe.prp2) :
    CommandEffect q sqe w w' es := by
  refine ⟨h.vfu, h.trace, fun a _ => by rw [h.inward rfl], fun a ha => ?_, ?_, ?_⟩
  · rw [h.inward rfl] at ha
    exact absurd rfl ha
  · intro e he a ha
    rcases h.events e he with ⟨_, _, hf, -, -⟩ | ⟨_, _, -, rfl, hs⟩
    · cases hf
    · exact ⟨⟨hq, ho⟩, hw (hs ha)⟩
  · intro e he a ha
    rcases h.events e he with ⟨_, _, hf, -, -⟩ | ⟨_, _, -, rfl, hs⟩
    · cases hf
    · simp [Event.writes] at ha

theorem CommandEffect.log {q : QueueId} {sqe : NvmeSqe} {w w' : World} {es : List Event}
    (h : CommandEffect q sqe w w' es) {e : Event} (hr : e.reads = []) (hw : e.writes = []) :
    CommandEffect q sqe w (w'.log e) (es ++ [e]) := by
  refine ⟨h.vfu, by simp [h.trace], h.outside, h.changed, ?_, ?_⟩
  · intro x hx a ha
    rcases List.mem_append.mp hx with hx | hx
    · exact h.reads x hx a ha
    · rw [List.mem_singleton.mp hx, hr] at ha
      cases ha
  · intro x hx a ha
    rcases List.mem_append.mp hx with hx | hx
    · exact h.writes x hx a ha
    · rw [List.mem_singleton.mp hx, hw] at ha
      cases ha

section Kv
variable {heap : Heap} {q : QueueId} {sqe : NvmeSqe} {w w' : World} {op : KvOp}

/-- What an I/O command does to the surroundings, and its events are all data. -/
theorem kvHandle_effect (hq : q ≠ 0) (ho : kvOpOf sqe.opcode = some op)
    (hc : KvContext op (.ofSqe sqe) (kvdma heap) w w') :
    ∃ es, CommandEffect q sqe w w' es ∧ ∀ e ∈ es, e.isData = true := by
  have hop := kvOpOf_eq ho
  cases hc with
  | same => exact ⟨[], .none q sqe w, by simp⟩
  | @received hs dst hl =>
    subst hs
    obtain ⟨as, es, ht, -, hw⟩ := nvmePrpXfer_touched w (heap .dataSgl) sqe.prp1 sqe.prp2 dst false
    exact ⟨_, (ht.commandEffect_in hq hop hw).log (e := .h2c _ _) rfl rfl,
      ht.events.isData_log rfl⟩
  | @retrieved hr src hl =>
    subst hr
    obtain ⟨as, es, ht, hp, hw⟩ := nvmePrpXfer_touched w (heap .dataSgl) sqe.prp1 sqe.prp2 src true
    have hb : as ⊆ dataBuffer q sqe := by
      rw [dataBuffer, if_neg hq, ho]
      exact hl ▸ hp
    exact ⟨_, (ht.commandEffect_out (.inr ⟨hq, .inl hop⟩) hb hw).log (e := .c2h _ _) rfl rfl,
      ht.events.isData_log rfl⟩
  | @listed hr src hl =>
    subst hr
    obtain ⟨as, es, ht, hp, hw⟩ := nvmePrpXfer_touched w (heap .dataSgl) sqe.prp1 sqe.prp2 src true
    have hb : as ⊆ dataBuffer q sqe := by
      rw [dataBuffer, if_neg hq, ho]
      exact List.Subset.trans hp (prpAddrs_mono hl)
    exact ⟨_, (ht.commandEffect_out (.inr ⟨hq, .inr hop⟩) hb hw).log (e := .c2h _ _) rfl rfl,
      ht.events.isData_log rfl⟩

end Kv

theorem identify_effect {n : NvmeCtrl} {q : QueueId} {sqe : NvmeSqe} {page : IdPage} {sglOk ok : Bool}
    {buf : List Byte} {w : World} (hq : q = 0) (ho : sqe.opcode = nvmeAdmIdentify)
    (hx : nvmePrpXfer n.world sglOk sqe.prp1 sqe.prp2 page.bytes true = (ok, buf, w)) :
    ∃ es, CommandEffect q sqe n.world w es ∧ ∀ e ∈ es, e.isData = true := by
  obtain ⟨as, es, ht, hp, hw⟩ := nvmePrpXfer_touched n.world sglOk sqe.prp1 sqe.prp2 page.bytes true
  rw [hx] at ht
  have hb : as ⊆ dataBuffer q sqe := by
    rw [dataBuffer, if_pos hq, if_pos ho]
    rw [Buffer.bytes_length] at hp
    exact hp
  exact ⟨es, ht.commandEffect_out (.inl ⟨hq, ho⟩) hb hw, ht.events.isData⟩

theorem Executed.effect {n n' : NvmeCtrl} {heap : Heap} {q : QueueId} {sqe : NvmeSqe} {st : Status}
    {cdw0 : BitVec 32} (hx : Executed n heap q sqe st cdw0 n') :
    ∃ es, CommandEffect q sqe n.world n'.world es := by
  cases hx with
  | identify hq ho hst hx => exact (identify_effect hq ho hx).imp fun _ h => h.1
  | createCq hq ho hc => exact ⟨_, (CommandEffect.none q sqe n.world).log rfl rfl⟩
  | createSq hq ho hs hl => exact ⟨_, (CommandEffect.none q sqe n.world).log rfl rfl⟩
  | kv hq ho hh => exact (kvHandle_effect hq ho (kvHandle_context hh).2).imp fun _ h => h.1
  | _ => exact ⟨[], .none q sqe n.world⟩

theorem kvStatuses_complete {st : Status} (h : st ∈ kvStatuses) : st ≠ nvmeNoComplete := by
  rintro rfl
  exact absurd h (by decide)

/-- Exactly the Asynchronous Event Request is left without a completion. -/
theorem Executed.noComplete_iff {n n' : NvmeCtrl} {heap : Heap} {q : QueueId} {sqe : NvmeSqe}
    {st : Status} {cdw0 : BitVec 32} (hx : Executed n heap q sqe st cdw0 n') :
    st = nvmeNoComplete ↔ q = 0 ∧ sqe.opcode = nvmeAdmAsyncEvent := by
  have hcomplete (hst : st ≠ nvmeNoComplete)
      (ho : ¬ (q = 0 ∧ sqe.opcode = nvmeAdmAsyncEvent)) :
      st = nvmeNoComplete ↔ q = 0 ∧ sqe.opcode = nvmeAdmAsyncEvent :=
    ⟨fun h => absurd h hst, fun h => absurd h ho⟩
  cases hx with
  | identify hq ho hst => exact hcomplete hst fun h => absurd (ho.symm.trans h.2) (by decide)
  | ednek hq ho | createCq hq ho | createSq hq ho | deleteCq hq ho | deleteSq hq ho =>
    exact hcomplete nvmeSuccess_completes fun h => absurd (ho.symm.trans h.2) (by decide)
  | asyncEvent hq ho => exact ⟨fun _ => ⟨hq, ho⟩, fun _ => rfl⟩
  | noEffect hq hst hf ha => exact hcomplete hst fun h => ha h.2
  | kv hq ho hh => exact hcomplete (kvStatuses_complete (kvHandle_context hh).1) fun h => hq h.1
  | unsupported hq => exact hcomplete invalidOpcode_completes fun h => hq h.1

/-! ## A completion -/

/-- The surroundings after a post: the slot is written, or nothing is when the write fails. -/
structure PostEffect (n : NvmeCtrl) (heap : Heap) (c : QueueId) (cqe : NvmeCqe) (w' : World)
    (es irqs : List Event) : Prop where
  vfu : w'.vfu = n.world.vfu
  trace : w'.trace = n.world.trace ++ es ++ [.posted c (n.cq c).tail cqe] ++ irqs
  events : XferEvents true (span ((n.cq c).slotAddr (n.cq c).tail) 16) es
  irqs : ∀ e ∈ irqs, ∃ v, e = .irq v
  outside : ∀ a, a ∉ span ((n.cq c).slotAddr (n.cq c).tail) 16 → w'.mem a = n.world.mem a
  written : (nvmeGpaXfer n.world (heap .cqeSgl) ((n.cq c).slotAddr (n.cq c).tail) cqe.toBytes
    true).1 = true →
    w'.mem = writeAll n.world.mem (span ((n.cq c).slotAddr (n.cq c).tail) 16) cqe.toBytes

theorem NvmeCtrl.raise_world (n : NvmeCtrl) (irq : ℤ) :
    ∃ irqs, (n.raise irq).world = { n.world with trace := n.world.trace ++ irqs } ∧
      ∀ e ∈ irqs, ∃ v, e = .irq v := by
  rw [raise]
  split
  · exact ⟨[.irq irq], rfl, fun e he => ⟨irq, List.mem_singleton.mp he⟩⟩
  · exact ⟨[], by simp, by simp⟩

theorem nvmePostTo_effect (n : NvmeCtrl) (heap : Heap) (c : QueueId) (cqe : NvmeCqe) :
    ∃ es irqs, PostEffect n heap c cqe (nvmePostTo n heap c cqe).world es irqs := by
  have ho := nvmeGpaXfer_outcome n.world (heap .cqeSgl) ((n.cq c).slotAddr (n.cq c).tail)
    cqe.toBytes true
  rw [NvmeCqe.toBytes_length] at ho
  rcases hx : nvmeGpaXfer n.world (heap .cqeSgl) ((n.cq c).slotAddr (n.cq c).tail) cqe.toBytes true
    with ⟨ok, buf, w⟩
  obtain ⟨irqs, hw, hirqs⟩ :=
    (((n.withWorld w).log (.posted c (n.cq c).tail cqe)).setCq c (n.cq c).advance).raise_world
      (n.cq c).irq
  simp only [nvmePostTo, hx, hw]
  rw [hx] at ho
  cases ho with
  | failed => exact ⟨[], irqs, rfl, by simp, by simp [XferEvents], hirqs, fun _ _ => rfl, by simp [hx]⟩
  | done hm =>
    obtain ⟨es, htr, hes⟩ := hm.trace
    refine ⟨es, irqs, hm.vfu, by simp [htr], hes, hirqs, fun a ha => ?_, fun _ => hm.mem⟩
    exact (congrFun hm.mem a).trans (writeAll_outside ha)

/-! ## A whole iteration -/

def NvmeSq.fetched (sq : NvmeSq) : NvmeSq := { sq with head := sq.nextHead }

/-- A consumed entry up to its completion: fetched, run and logged. `c` is the completion queue of
the submission queue, which the command has left alone. -/
structure Ran (n : NvmeCtrl) (heap : Heap) (q c : QueueId) (st : Status) (cdw0 : BitVec 32)
    (n₁ : NvmeCtrl) : Prop where
  own : (n.sq q).cqid.toNat = c.val
  run : ∃ buf w, Moved false (span ((n.sq q).slotAddr (n.sq q).head) 64) (List.replicate 64 0) buf
    n.world w ∧ ∃ n₀, Executed (n.fetched q w) heap q (n.headEntry q) st cdw0 n₀ ∧
      n₁ = n₀.log (.command q (n.sq q).cqid (n.headEntry q) cdw0 st)
  sq : n₁.sq q = (n.sq q).fetched
  cq : n₁.cq c = n.cq c

def NvmeCtrl.completion (n : NvmeCtrl) (q c : QueueId) (cdw0 : BitVec 32) (st : Status) : NvmeCqe :=
  cqeFor (n.cq c) (BitVec.ofNat 16 q.val) (n.sq q).nextHead (n.headEntry q).cid cdw0 st

/-- An iteration that consumes an entry: no completion is due, the completion queue drops it, or
it is posted. -/
inductive Served (n : NvmeCtrl) (heap : Heap) (q c : QueueId) : NvmeCtrl → Prop
  | unanswered {n₁ : NvmeCtrl} {cdw0 : BitVec 32} (hr : Ran n heap q c nvmeNoComplete cdw0 n₁) :
      Served n heap q c n₁
  | dropped {n₁ : NvmeCtrl} {st : Status} {cdw0 : BitVec 32} (hr : Ran n heap q c st cdw0 n₁)
      (hst : st ≠ nvmeNoComplete) (he : (n.cq c).enabled = false) : Served n heap q c n₁
  | posted {n₁ : NvmeCtrl} {st : Status} {cdw0 : BitVec 32} (hr : Ran n heap q c st cdw0 n₁)
      (hst : st ≠ nvmeNoComplete) (he : (n.cq c).enabled = true) :
      Served n heap q c (nvmePostTo n₁ heap c (n.completion q c cdw0 st))

theorem Ran.noComplete_iff {n n₁ : NvmeCtrl} {heap : Heap} {q c : QueueId} {st : Status}
    {cdw0 : BitVec 32} (hr : Ran n heap q c st cdw0 n₁) :
    st = nvmeNoComplete ↔ q = 0 ∧ (n.headEntry q).opcode = nvmeAdmAsyncEvent := by
  obtain ⟨-, ⟨_, _, -, _, hx, -⟩, -, -⟩ := hr
  exact hx.noComplete_iff

theorem Served.own {n n' : NvmeCtrl} {heap : Heap} {q c : QueueId} (hs : Served n heap q c n') :
    (n.sq q).cqid.toNat = c.val := by
  cases hs with
  | unanswered hr | dropped hr | posted hr => exact hr.own

theorem Executed.cq_own {n n' : NvmeCtrl} {heap : Heap} {q c : QueueId} {sqe : NvmeSqe}
    {st : Status} {cdw0 : BitVec 32} (hx : Executed n heap q sqe st cdw0 n')
    (hown : q = 0 → c = 0) : n'.cq c = n.cq c := by
  by_cases hq : q = 0
  · rw [hown hq]
    exact hx.cq_zero
  · rw [(hx.io hq).2]

theorem Consumed.served {n n' : NvmeCtrl} {heap : Heap} {q : QueueId} (hc : Consumed n heap q n')
    (hok : n.RingsOk) (he : (n.sq q).enabled = true) :
    ∃ c : QueueId, Served n heap q c n' := by
  obtain ⟨hsize, hfetch, hx, hp⟩ := hc
  rename_i buf w st cdw0 n₁
  have hlt := (hok.sq q he).cqid_lt
  have hsq : n₁.sq q = (n.sq q).fetched := by
    rw [hx.sq_self, NvmeCtrl.fetched]
    simp [NvmeSq.fetched]
  have hcqid : (n₁.sq q).cqid = (n.sq q).cqid := by rw [hsq]; rfl
  have hran {c : QueueId} (hown : (n.sq q).cqid.toNat = c.val) :
      Ran n heap q c st cdw0 (n₁.log (.command q (n.sq q).cqid (n.headEntry q) cdw0 st)) := by
    refine ⟨hown, ⟨buf, w, hfetch, n₁, hx, rfl⟩, hsq, hx.cq_own fun hq => ?_⟩
    apply Fin.ext
    rw [← hown, hq, hok.admin]
    rfl
  rw [hcqid] at hp
  cases hp with
  | silent hst =>
    subst hst
    exact ⟨⟨(n.sq q).cqid.toNat, hlt⟩, .unanswered (hran rfl)⟩
  | @dropped hst c hc he' =>
    have hr := hran (c := c) (by rw [← hc, NvmeCtrl.log_sq, hcqid])
    exact ⟨c, .dropped hr hst (hr.cq ▸ he')⟩
  | @posted hst c hc he' =>
    have hr := hran (c := c) (by rw [← hc, NvmeCtrl.log_sq, hcqid])
    refine ⟨c, ?_⟩
    have hpost := Served.posted hr hst (hr.cq ▸ he')
    rw [NvmeCtrl.completion, ← hr.cq, show (n.sq q).nextHead = (n.sq q).fetched.head from rfl,
      ← hr.sq] at hpost
    exact hpost

/-- The log up to the completion: the fetch, what the command adds, and the command itself. -/
theorem Ran.world {n n₁ : NvmeCtrl} {heap : Heap} {q c : QueueId} {st : Status} {cdw0 : BitVec 32}
    (h : Ran n heap q c st cdw0 n₁) :
    ∃ fs xs, n₁.world.trace = n.world.trace ++ fs ++ xs ++
        [.command q (n.sq q).cqid (n.headEntry q) cdw0 st] ∧
      XferEvents false (span ((n.sq q).slotAddr (n.sq q).head) 64) fs ∧
      (∀ e ∈ xs, ∀ a ∈ e.reads, (q ≠ 0 ∧ (n.headEntry q).opcode = nvmeCmdKvStore) ∧
        a ∈ prpWindow (n.headEntry q).prp1 (n.headEntry q).prp2) ∧
      (∀ e ∈ xs, ∀ a ∈ e.writes, WritesData q (n.headEntry q) ∧
        a ∈ prpWindow (n.headEntry q).prp1 (n.headEntry q).prp2) ∧
      n₁.world.vfu = n.world.vfu ∧
      (∀ a, a ∉ dataBuffer q (n.headEntry q) → n₁.world.mem a = n.world.mem a) ∧
      ∀ a, n₁.world.mem a ≠ n.world.mem a → WritesData q (n.headEntry q) ∧
        a ∈ prpWindow (n.headEntry q).prp1 (n.headEntry q).prp2 := by
  obtain ⟨-, ⟨buf, w, hm, n₀, hx, rfl⟩, -, -⟩ := h
  obtain ⟨fs, hf⟩ := hm.touched
  obtain ⟨xs, he⟩ := hx.effect
  have hmem : w.mem = n.world.mem := hf.inward rfl
  refine ⟨fs, xs, ?_, hf.events, he.reads, he.writes, he.vfu.trans hf.vfu, fun a ha => ?_,
    fun a ha => he.changed a fun h => ha (h.trans (congrFun hmem a))⟩
  · have htr := he.trace
    simp only [NvmeCtrl.fetched, NvmeCtrl.setSq_world, NvmeCtrl.withWorld_world, hf.trace] at htr
    simp [htr]
  · exact (he.outside a ha).trans (congrFun hmem a)

/-! ## Data handed to the host -/

/-- The command hands these bytes to the host and ends with the status of that transfer. -/
def NvmeCtrl.Hands (n : NvmeCtrl) (heap : Heap) (sqe : NvmeSqe) (bytes : List Byte) : Prop :=
  nvmeIoKv n heap sqe = some (transferStatus (kvdmaC2h heap n.world (.ofSqe sqe) bytes).1,
    n.withWorld (kvdmaC2h heap n.world (.ofSqe sqe) bytes).2)

theorem NvmeCtrl.Hands.unique {n : NvmeCtrl} {heap : Heap} {sqe : NvmeSqe} {bs cs : List Byte}
    (hb : n.Hands heap sqe bs) (hc : n.Hands heap sqe cs) : bs = cs := by
  have hw := congrArg (fun m : NvmeCtrl => m.world.trace.getLast?)
    (Prod.mk.inj (Option.some.inj (hb.symm.trans hc))).2
  simp only [withWorld_world, kvdmaC2h, World.log_trace, List.getLast?_append,
    List.getLast?_singleton, Option.some_or, Option.some.injEq, Event.c2h.injEq] at hw
  exact hw.2

end VfuKvssd
