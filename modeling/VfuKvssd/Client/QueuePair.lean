import VfuKvssd.Client.Hammer

/-! # One command at a time through a queue pair

A client that keeps one command in flight puts the entry into the slot at the
tail, rings, and finds the completion in the slot of the same number. `Answered`
says what one such exchange leaves, for a queue pair of any depth at any place in
the mapped memory.
-/
namespace VfuKvssd
open Foundations

/-- Where a client keeps a submission queue and the completion queue of the same depth. -/
structure QueuePair where
  q : QueueId
  c : QueueId
  depth : ℕ
  sqIova : ℕ
  cqIova : ℕ

def peek (iova n : ℕ) : Client (List Byte) := do
  let c ← get
  return (span (BitVec.ofNat 64 iova) n).map c.dev.n.world.mem

/-- A triple may be shown one device at a time. -/
theorem runs_of_each {α : Type} {P : Device → Prop} {prog : Client α} {Q : α → Ctx → Prop}
    (h : ∀ d, P d → Runs (On (· = d)) prog Q) : Runs (On P) prog Q :=
  fun c hc => h c.dev hc c rfl

theorem runs_poke_to {d d' : Device} {iova : ℕ} {bytes : List Byte}
    (h : d' = d.setMemory (stored d.n.world.mem iova bytes)) :
    Runs (On (· = d)) (poke iova bytes) fun _ => On (· = d') :=
  runs_poke fun e he => by subst he; exact h.symm

theorem runs_peek {d : Device} (iova n : ℕ) :
    Runs (On (· = d)) (peek iova n) fun bytes c =>
      c.dev = d ∧ bytes = (span (BitVec.ofNat 64 iova) n).map d.n.world.mem := by
  refine Runs.get.bind fun c => Runs.pure ?_
  rintro s ⟨rfl, rfl⟩
  exact ⟨rfl, rfl⟩

theorem runs_peek_ensure {α : Type} {d : Device} {iova n : ℕ} {test : List Byte → Bool}
    {e : Failure} {prog : Client α} {Q : α → Ctx → Prop}
    (ht : test ((span (BitVec.ofNat 64 iova) n).map d.n.world.mem) = true)
    (h : Runs (On (· = d)) prog Q) :
    Runs (On (· = d)) (peek iova n >>= fun bytes => ensure (test bytes) e >>= fun _ => prog) Q := by
  refine (runs_peek iova n).bind fun bytes => Runs.seq (Runs.ensure ?_) h
  rintro c ⟨hc, rfl⟩
  exact ⟨ht, hc⟩

namespace QueuePair

def sqSlot (p : QueuePair) (j : ℕ) : ℕ := p.sqIova + 64 * j

def cqSlot (p : QueuePair) (j : ℕ) : ℕ := p.cqIova + 16 * j

/-- Fill the entry at the client's position, ring the tail doorbell, and look at the completion. -/
def exchange (p : QueuePair) (v : Cursor) (entry : List Byte) : Client NvmeCqe := do
  poke (p.sqSlot v.head) entry
  regWr32 (nvmeRegDoorbell + 8 * p.q.val) (BitVec.ofNat 32 (v.next p.depth).head)
  peekCqe (p.cqSlot v.head)

/-- Write the position after `v` to the head doorbell. -/
def release (p : QueuePair) (v : Cursor) : Client Unit :=
  regWr32 (nvmeRegDoorbell + 8 * p.c.val + 4) (BitVec.ofNat 32 (v.next p.depth).head)

def sqEntry (p : QueuePair) (mem : Memory) (j : ℕ) : NvmeSqe :=
  ⟨Buffer.ofBytes ((span (BitVec.ofNat 64 (p.sqSlot j)) 64).map mem)⟩

def cqSpan (p : QueuePair) (j : ℕ) : List Addr := span (BitVec.ofNat 64 (p.cqSlot j)) 16

def cqEntry (p : QueuePair) (mem : Memory) (j : ℕ) : NvmeCqe := .ofBytes ((p.cqSpan j).map mem)

/-- Both rings lie in the first `size` bytes of the address space. -/
structure Within (p : QueuePair) (size : ℕ) : Prop where
  depth_ge : 2 ≤ p.depth
  depth_lt : p.depth < 2 ^ 16
  sq : p.sqIova + 64 * p.depth ≤ size
  cq : p.cqIova + 16 * p.depth ≤ size
  size : size < 2 ^ 64

/-- Both rings stand at command number `k`. -/
structure At (p : QueuePair) (k : ℕ) (n : NvmeCtrl) : Prop where
  sqOn : (n.sq p.q).enabled = true
  sqDma : (n.sq p.q).dma = BitVec.ofNat 64 p.sqIova
  sqSize : (n.sq p.q).size.toNat = p.depth
  sqHead : (n.sq p.q).head.toNat = k % p.depth
  linked : (n.sq p.q).cqid.toNat = p.c.val
  cqOn : (n.cq p.c).enabled = true
  cqDma : (n.cq p.c).dma = BitVec.ofNat 64 p.cqIova
  cqSize : (n.cq p.c).size.toNat = p.depth
  cqAt : (n.cq p.c).At (ringPos p.depth k)

/-- The device is idle, and the pair is ready for command number `k`. -/
structure Ready (p : QueuePair) (size : ℕ) (maxNumKeys : BitVec 32) (k : ℕ) (d : Device) : Prop where
  reachable : d.Reachable maxNumKeys
  idle : d.busy = none
  mapped : d.n.world.vfu.MapsBelow size
  rings : p.At k d.n
  caughtUp : (d.n.sq p.q).tail = (d.n.sq p.q).head

/-- What the exchange of command number `k` leaves: the entry ran to `n₀`, and its completion is in
the slot of its number. -/
structure Answered (p : QueuePair) (k : ℕ) (d : Device) (st : Status) (cdw0 : BitVec 32)
    (n₀ : NvmeCtrl) (d' : Device) : Prop where
  ran : ∃ n : NvmeCtrl, n.world.mem = d.n.world.mem ∧ n.world.vfu = d.n.world.vfu ∧
    n.ns = d.n.ns ∧ n.cq = d.n.cq ∧ (∀ q ≠ p.q, n.sq q = d.n.sq q) ∧
    nvmeExecute n (fun _ => true) p.q (p.sqEntry d.n.world.mem (k % p.depth)) =
      some (st, cdw0, n₀)
  sq : d'.n.sq = n₀.sq
  cq : d'.n.cq = Function.update n₀.cq p.c (d.n.cq p.c).advance
  ns : d'.n.ns = n₀.ns
  outside : ∀ a ∉ p.cqSpan (k % p.depth), d'.n.world.mem a = n₀.world.mem a
  tag : (p.cqEntry d'.n.world.mem (k % p.depth)).tag = (ringPos p.depth k).phase
  cid : (p.cqEntry d'.n.world.mem (k % p.depth)).cid =
    (p.sqEntry d.n.world.mem (k % p.depth)).cid
  status : (p.cqEntry d'.n.world.mem (k % p.depth)).status >>> 1 = st &&& 0x7fff

/-- A command of an I/O pair leaves the other queues alone. -/
theorem Answered.others {p : QueuePair} {k : ℕ} {d d' : Device} {st : Status} {cdw0 : BitVec 32}
    {n₀ : NvmeCtrl} (h : p.Answered k d st cdw0 n₀ d') (hq : p.q ≠ 0) :
    (∀ q ≠ p.q, d'.n.sq q = d.n.sq q) ∧ ∀ c ≠ p.c, d'.n.cq c = d.n.cq c := by
  obtain ⟨n, -, -, -, hcq, hsq, hx⟩ := h.ran
  obtain ⟨hsq₀, hcq₀⟩ := (nvmeExecute_executed hx).io hq
  refine ⟨fun q hne => ?_, fun c hne => ?_⟩
  · rw [h.sq, hsq₀, hsq q hne]
  · rw [h.cq, Function.update_of_ne hne, hcq₀, hcq]

section Rings
variable {p : QueuePair} {k size : ℕ} {n : NvmeCtrl}

theorem Within.slot_lt (hp : p.Within size) (k : ℕ) : k % p.depth < p.depth :=
  Nat.mod_lt k (by have := hp.depth_ge; omega)

theorem At.sqSlot_eq (h : p.At k n) :
    (n.sq p.q).slotAddr (n.sq p.q).head = BitVec.ofNat 64 (p.sqSlot (k % p.depth)) := by
  rw [NvmeSq.slotAddr_eq, h.sqDma, h.sqHead, ← BitVec.ofNat_add]
  rfl

theorem At.cqSlot_eq (h : p.At k n) :
    (n.cq p.c).slotAddr (n.cq p.c).tail = BitVec.ofNat 64 (p.cqSlot (k % p.depth)) := by
  rw [NvmeCq.slotAddr_eq, h.cqDma, h.cqAt.tail, ← BitVec.ofNat_add]
  rfl

theorem At.headEntry_eq (h : p.At k n) :
    n.headEntry p.q = p.sqEntry n.world.mem (k % p.depth) := by
  rw [NvmeCtrl.headEntry, h.sqSlot_eq]
  rfl

theorem Within.sqReaches (hp : p.Within size) (hm : n.world.vfu.MapsBelow size) (h : p.At k n) :
    n.world.vfu.reaches ((n.sq p.q).slotAddr (n.sq p.q).head) 64 .read = true := by
  have hk := hp.slot_lt k
  have hsq := hp.sq
  have hsize := hp.size
  rw [h.sqSlot_eq]
  apply hm.reaches (by norm_num)
  rw [BitVec.toNat_ofNat, sqSlot]
  omega

theorem Within.cqReaches (hp : p.Within size) (hm : n.world.vfu.MapsBelow size) (h : p.At k n) :
    n.world.vfu.reaches ((n.cq p.c).slotAddr (n.cq p.c).tail) 16 .write = true := by
  have hk := hp.slot_lt k
  have hcq := hp.cq
  have hsize := hp.size
  rw [h.cqSlot_eq]
  apply hm.reaches (by norm_num)
  rw [BitVec.toNat_ofNat, cqSlot]
  omega

theorem At.setTail (h : p.At k n) (tail : BitVec 16) :
    p.At k (n.setSq p.q { n.sq p.q with tail := tail }) :=
  ⟨by simpa using h.sqOn, by simpa using h.sqDma, by simpa using h.sqSize, by simpa using h.sqHead,
    by simpa using h.linked, h.cqOn, h.cqDma, h.cqSize, h.cqAt⟩

theorem At.setHead (h : p.At k n) (head : BitVec 16) :
    p.At k (n.setCq p.c { n.cq p.c with head := head }) :=
  ⟨h.sqOn, h.sqDma, h.sqSize, h.sqHead, h.linked, by simpa using h.cqOn, by simpa using h.cqDma,
    by simpa using h.cqSize, by simpa using h.cqAt.tail, by simpa using h.cqAt.phase⟩

theorem At.congr {n' : NvmeCtrl} (h : p.At k n) (hsq : n'.sq p.q = n.sq p.q)
    (hcq : n'.cq p.c = n.cq p.c) : p.At k n' :=
  ⟨hsq ▸ h.sqOn, hsq ▸ h.sqDma, hsq ▸ h.sqSize, hsq ▸ h.sqHead, hsq ▸ h.linked, hcq ▸ h.cqOn,
    hcq ▸ h.cqDma, hcq ▸ h.cqSize, hcq ▸ h.cqAt⟩

/-- The pair stays ready while another one is used, when its own queues are left alone. -/
theorem Ready.frame {p' : QueuePair} {j : ℕ} {maxNumKeys : BitVec 32} {d d' : Device}
    (h : p.Ready size maxNumKeys j d) (h' : p'.Ready size maxNumKeys k d')
    (hsq : d'.n.sq p.q = d.n.sq p.q) (hcq : d'.n.cq p.c = d.n.cq p.c) :
    p.Ready size maxNumKeys j d' :=
  ⟨h'.reachable, h'.idle, h'.mapped, h.rings.congr hsq hcq, by rw [hsq]; exact h.caughtUp⟩

theorem Within.succ_mod_ne (hp : p.Within size) (k : ℕ) :
    k % p.depth ≠ (k + 1) % p.depth := by
  have hdepth := hp.depth_ge
  have hlt := hp.slot_lt k
  rw [← Nat.mod_add_mod]
  rcases Nat.lt_or_ge (k % p.depth + 1) p.depth with hl | hl
  · rw [Nat.mod_eq_of_lt hl]
    omega
  · rw [show k % p.depth + 1 = p.depth by omega, Nat.mod_self]
    omega

end Rings

section Serve
variable {p : QueuePair} {k size : ℕ} {d : Device} {heap : Heap} {st : Status} {cdw0 : BitVec 32}
  {n₀ n' : NvmeCtrl}

theorem sq_of_serves (hs : Serves d heap p.q p.c st cdw0 n₀ n') :
    n'.sq p.q = (d.n.sq p.q).fetched := by
  obtain ⟨w, -, -, hx⟩ := hs.ran
  rw [hs.sq, (nvmeExecute_executed hx).sq_self]
  simp [NvmeCtrl.fetched, NvmeSq.fetched]

theorem At.serve (hp : p.Within size) (hok : d.Ok) (h : p.At k d.n)
    (hs : Serves d heap p.q p.c st cdw0 n₀ n') : p.At (k + 1) n' := by
  have hsq := sq_of_serves hs
  have hcq : n'.cq p.c = (d.n.cq p.c).advance := by rw [hs.cq, Function.update_self]
  have hdepth := hp.depth_ge
  refine ⟨hsq ▸ h.sqOn, hsq ▸ h.sqDma, hsq ▸ h.sqSize, ?_, hsq ▸ h.linked, ?_, ?_, ?_, ?_⟩
  · rw [hsq, NvmeSq.fetched, NvmeSq.nextHead_toNat (hok.rings.sq p.q h.sqOn), h.sqHead, h.sqSize,
      Nat.mod_add_mod]
  · rw [hcq, NvmeCq.advance_enabled, h.cqOn]
  · rw [hcq, NvmeCq.advance_dma, h.cqDma]
  · rw [hcq, NvmeCq.advance_size, h.cqSize]
  · have hat := h.cqAt.advance (hok.rings.cq p.c h.cqOn) (by rw [h.cqSize]; exact hp.depth_lt)
    rw [h.cqSize, ringPos_next (by omega)] at hat
    exact hcq ▸ hat

theorem At.cqEntry_serve (h : p.At k d.n) (hs : Serves d heap p.q p.c st cdw0 n₀ n') :
    p.cqEntry n'.world.mem (k % p.depth) = d.n.completion p.q p.c cdw0 st := by
  rw [cqEntry, cqSpan, hs.mem, h.cqSlot_eq, map_writeAll (span_nodup (by norm_num)) (by simp),
    NvmeCqe.ofBytes_toBytes]

/-- What a served entry leaves is what the exchange leaves. -/
theorem At.answered (h : p.At k d.n)
    (hs : Serves d (fun _ => true) p.q p.c st cdw0 n₀ n') (busy : Option QueueId) :
    p.Answered k d st cdw0 n₀ ⟨n', busy⟩ := by
  obtain ⟨w, hmem, hvfu, hx⟩ := hs.ran
  have hcqe := h.cqEntry_serve hs
  rw [h.headEntry_eq] at hx
  refine ⟨⟨d.n.fetched p.q w, hmem, hvfu, rfl, rfl, fun q hq => ?_, hx⟩, hs.sq, hs.cq, hs.ns, ?_,
    ?_, ?_, ?_⟩
  · rw [NvmeCtrl.fetched, NvmeCtrl.setSq_sq, Function.update_of_ne hq]
    rfl
  · intro a ha
    rw [hs.mem, h.cqSlot_eq, ← cqSpan, writeAll_outside ha]
  · rw [hcqe]
    exact cqeFor_tag h.cqAt.phase ..
  · rw [hcqe, ← h.headEntry_eq]
    rfl
  · rw [hcqe]
    exact cqeFor_status h.cqAt.phase ..

end Serve

/-- With one entry behind the head, the loop serves it and ends. -/
theorem At.settles {p : QueuePair} {k size : ℕ} {maxNumKeys : BitVec 32} {n : NvmeCtrl}
    (hp : p.Within size) (hd : Device.Reachable maxNumKeys ⟨n, some p.q⟩)
    (hm : n.world.vfu.MapsBelow size) (h : p.At k n)
    (htail : (n.sq p.q).tail.toNat = (k + 1) % p.depth)
    (hk : p.q = 0 ∨ n.ns.entriesAllocated < 2 ^ 31)
    (haer : p.q = 0 → (n.headEntry p.q).opcode ≠ nvmeAdmAsyncEvent) :
    ∃ st cdw0 n₀ n', settle settleFuel ⟨n, some p.q⟩ = some ⟨n', none⟩ ∧
      p.Ready size maxNumKeys (k + 1) ⟨n', none⟩ ∧
      Serves ⟨n, some p.q⟩ (fun _ => true) p.q p.c st cdw0 n₀ n' := by
  have hne : (n.sq p.q).head ≠ (n.sq p.q).tail := by
    intro heq
    have heq := congrArg BitVec.toNat heq
    rw [h.sqHead, htail] at heq
    exact hp.succ_mod_ne k heq
  obtain ⟨st, cdw0, n₀, n', hstep, hserve⟩ := Device.iterate_serves (d := ⟨n, some p.q⟩)
    hd.ok (fun _ => rfl) rfl (hk.imp_right fun hlt => ⟨hd.ns_valid.1, hlt⟩) hne
    (hp.sqReaches hm h) h.linked h.cqOn (hp.cqReaches hm h) fun hx => haer hx.1 hx.2
  have hnext := At.serve (d := ⟨n, some p.q⟩) hp hd.ok h hserve
  have hcaught : (n'.sq p.q).tail = (n'.sq p.q).head := by
    apply BitVec.eq_of_toNat_eq
    rw [hnext.sqHead, sq_of_serves hserve, ← htail]
    rfl
  have hdone := Device.step_finished (d := ⟨n', some p.q⟩) rfl hcaught.symm fun _ => true
  refine ⟨st, cdw0, n₀, n', ?_, ⟨(hd.next hstep).next hdone, rfl, ?_, hnext, hcaught⟩, hserve⟩
  · rw [show settleFuel = 65534 + 1 + 1 + 1 from rfl, settle_busy rfl hstep, settle_busy rfl hdone,
      settle_idle rfl]
  · rw [show n'.world.vfu = n.world.vfu from hserve.vfu]
    exact hm

/-- The tail of the pair's own queue is no part of what an exchange says. -/
theorem Answered.of_tail {p : QueuePair} {k : ℕ} {d d' : Device} {tail : BitVec 16} {st : Status}
    {cdw0 : BitVec 32} {n₀ : NvmeCtrl} {busy : Option QueueId}
    (h : p.Answered k ⟨d.n.setSq p.q { d.n.sq p.q with tail := tail }, busy⟩ st cdw0 n₀ d') :
    p.Answered k d st cdw0 n₀ d' := by
  obtain ⟨⟨n, hmem, hvfu, hns, hcq, hsq, hx⟩, hsq', hcq', hns', houtside, htag, hcid, hst⟩ := h
  refine ⟨⟨n, hmem, hvfu, hns, hcq, fun q hq => ?_, hx⟩, hsq', hcq', hns', houtside, htag, hcid, hst⟩
  rw [hsq q hq, NvmeCtrl.setSq_sq, Function.update_of_ne hq]

/-- The tail doorbell with one new entry: the entry is run and answered before the reply. -/
theorem Ready.submit {p : QueuePair} {k size : ℕ} {maxNumKeys : BitVec 32} {d : Device}
    (hp : p.Within size) (hready : p.Ready size maxNumKeys k d)
    (hk : p.q = 0 ∨ d.n.ns.entriesAllocated < 2 ^ 31)
    (haer : p.q = 0 → (p.sqEntry d.n.world.mem (k % p.depth)).opcode ≠ nvmeAdmAsyncEvent)
    {tail : BitVec 16} (htail : tail.toNat = (k + 1) % p.depth) :
    ∃ d₁ d' st cdw0 n₀, d.step (sqTailWrite p.q tail) = some d₁ ∧
      settle settleFuel d₁ = some d' ∧ p.Ready size maxNumKeys (k + 1) d' ∧
      p.Answered k d st cdw0 n₀ d' := by
  obtain ⟨hd, hb, hm, h, -⟩ := hready
  have hs := Device.step_sqTailWrite hb p.q tail
  rw [h.sqOn, if_pos rfl] at hs
  have h₁ := h.setTail tail
  have hhead := h₁.headEntry_eq
  obtain ⟨st, cdw0, n₀, n', hset, hnext, hserve⟩ := h₁.settles hp (hd.next hs) hm (by simpa using htail)
    hk fun hq => by rw [hhead]; exact haer hq
  exact ⟨_, ⟨n', none⟩, st, cdw0, n₀, hs, hset, hnext,
    (At.answered (d := ⟨_, some p.q⟩) h₁ hserve none).of_tail⟩

/-! ## Triples -/

section Triples
variable {p : QueuePair} {size k : ℕ} {maxNumKeys : BitVec 32} {d : Device}

theorem Ready.setMemory (h : p.Ready size maxNumKeys k d) (mem : Memory) :
    p.Ready size maxNumKeys k (d.setMemory mem) :=
  ⟨h.reachable.next (i := .hostMemory mem) rfl, h.idle, h.mapped, h.rings.congr rfl rfl, h.caughtUp⟩

theorem sqEntry_stored (p : QueuePair) (mem : Memory) {entry : List Byte} (hl : entry.length = 64)
    (j : ℕ) : p.sqEntry (stored mem (p.sqSlot j) entry) j = ⟨Buffer.ofBytes entry⟩ := by
  rw [sqEntry, stored, hl, map_writeAll (span_nodup (by norm_num)) (by simp [hl])]

theorem toNat_position (hp : p.Within size) (k : ℕ) :
    (BitVec.ofNat 32 ((ringPos p.depth k).next p.depth).head).toNat = (k + 1) % p.depth ∧
      (BitVec.ofNat 16 ((k + 1) % p.depth)).toNat = (k + 1) % p.depth := by
  have hdepth := hp.depth_lt
  have hlt := hp.slot_lt (k + 1)
  have hpos := hp.depth_ge
  rw [ringPos_next (by omega), BitVec.toNat_ofNat, BitVec.toNat_ofNat]
  refine ⟨Nat.mod_eq_of_lt (lt_trans hlt (by omega)), Nat.mod_eq_of_lt (lt_trans hlt (by omega))⟩

theorem sqDoorbell_eq (hp : p.Within size) (k : ℕ) :
    Input.bar0 true (nvmeRegDoorbell + 8 * p.q.val)
      (leBytes 4 (BitVec.ofNat 32 ((ringPos p.depth k).next p.depth).head).toNat) =
      sqTailWrite p.q (BitVec.ofNat 16 ((k + 1) % p.depth)) := by
  rw [sqTailWrite, (toNat_position hp k).1, (toNat_position hp k).2]

theorem cqDoorbell_eq (hp : p.Within size) (k : ℕ) :
    Input.bar0 true (nvmeRegDoorbell + 8 * p.c.val + 4)
      (leBytes 4 (BitVec.ofNat 32 ((ringPos p.depth k).next p.depth).head).toNat) =
      cqHeadWrite p.c (BitVec.ofNat 16 ((k + 1) % p.depth)) := by
  rw [cqHeadWrite, (toNat_position hp k).1, (toNat_position hp k).2]

theorem doorbell_lt (q : QueueId) : nvmeRegDoorbell + 8 * q.val + 4 + 4 ≤ nvmeBar0Size := by
  have hq : q.val < 64 := q.isLt
  rw [show nvmeRegDoorbell = 0x1000 from rfl, show nvmeBar0Size = 0x4000 from rfl]
  omega

/-- An exchange: the device has answered the entry, and the client has its completion. -/
theorem runs_exchange {entry : List Byte} (hp : p.Within size) (h : p.Ready size maxNumKeys k d)
    (hk : p.q = 0 ∨ d.n.ns.entriesAllocated < 2 ^ 31) (hl : entry.length = 64)
    (haer : p.q = 0 → (⟨Buffer.ofBytes entry⟩ : NvmeSqe).opcode ≠ nvmeAdmAsyncEvent)
    {d₁ : Device}
    (hd₁ : d₁ = d.setMemory (stored d.n.world.mem (p.sqSlot (k % p.depth)) entry)) :
    ∃ d' st cdw0 n₀, p.Ready size maxNumKeys (k + 1) d' ∧ p.Answered k d₁ st cdw0 n₀ d' ∧
      Runs (On (· = d)) (p.exchange (ringPos p.depth k) entry) fun cqe c =>
        c.dev = d' ∧ cqe = p.cqEntry d'.n.world.mem (k % p.depth) := by
  have h₁ : p.Ready size maxNumKeys k d₁ := hd₁ ▸ h.setMemory _
  have hentry : p.sqEntry d₁.n.world.mem (k % p.depth) = ⟨Buffer.ofBytes entry⟩ := by
    rw [hd₁]
    exact p.sqEntry_stored d.n.world.mem hl (k % p.depth)
  have hns₁ : d₁.n.ns = d.n.ns := by rw [hd₁]; rfl
  obtain ⟨e, d', st, cdw0, n₀, hs, hset, hnext, hans⟩ :=
    h₁.submit hp (hns₁ ▸ hk) (fun hq => hentry ▸ haer hq) (toNat_position hp k).2
  refine ⟨d', st, cdw0, n₀, hnext, hans, ?_⟩
  have hpoke : Runs (On (· = d)) (poke (p.sqSlot (ringPos p.depth k).head) entry)
      fun _ => On (· = d₁) := runs_poke_to hd₁
  have hring : Runs (On (· = d₁)) (regWr32 (nvmeRegDoorbell + 8 * p.q.val)
      (BitVec.ofNat 32 ((ringPos p.depth k).next p.depth).head)) fun _ => On (· = d') := by
    have := doorbell_lt p.q
    refine runs_regWr32 (by omega) fun x hx => ⟨e, d', ?_, hset, rfl⟩
    rw [hx, sqDoorbell_eq hp, hs]
  refine hpoke.seq (hring.seq ((runs_peekCqe _).post ?_))
  rintro cqe c ⟨rfl, rfl⟩
  exact ⟨rfl, rfl⟩

theorem runs_release (hp : p.Within size) (h : p.Ready size maxNumKeys k d) (j : ℕ) :
    ∃ d', p.Ready size maxNumKeys k d' ∧ d'.n.ns = d.n.ns ∧ d'.n.world.mem = d.n.world.mem ∧
      d'.n.sq = d.n.sq ∧ (∀ c ≠ p.c, d'.n.cq c = d.n.cq c) ∧
      Runs (On (· = d)) (p.release (ringPos p.depth j)) fun _ => On (· = d') := by
  have hs := Device.step_cqHeadWrite h.idle p.c (BitVec.ofNat 16 ((j + 1) % p.depth))
  refine ⟨_, ⟨h.reachable.next hs, rfl, h.mapped, ?_, h.caughtUp⟩, rfl, rfl, rfl, ?_, ?_⟩
  · exact (h.rings.setHead _).congr rfl rfl
  · intro c hc
    simp [Function.update_of_ne hc]
  · refine runs_regWr32 (doorbell_lt p.c) fun x hx => ⟨_, _, ?_, settle_register _, rfl⟩
    rw [hx, cqDoorbell_eq hp, hs]

end Triples

end QueuePair

end VfuKvssd
