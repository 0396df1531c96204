import VfuKvssd.Client.Driver
import VfuKvssd.Controller.Iterations

/-! # The admin queues as the client drives them

Rings of 16 entries in the first two pages. Command number `k` since the enable
takes slot `k % 16` of both rings, and its completion carries the phase tag of
its lap, whatever the command says, as long as its data stays off the rings.
-/
namespace VfuKvssd
open Foundations

/-! ## Requests until their reply -/

theorem settle_idle {d : Device} (h : d.busy = none) (fuel : ℕ) :
    settle (fuel + 1) d = some d := by
  rw [settle, h]

theorem settle_busy {d d' : Device} {q : QueueId} (hb : d.busy = some q)
    (hs : d.step (.iterate fun _ => true) = some d') (fuel : ℕ) :
    settle (fuel + 1) d = settle fuel d' := by
  rw [settle, hb]
  exact congrArg (Option.bind · (settle fuel)) hs

/-- What a property of the device says of a client. -/
def On (P : Device → Prop) (c : Ctx) : Prop := P c.dev

theorem Device.access_isSome {d d' d'' : Device} {isWrite : Bool} {offset : ℕ} {buf : List Byte}
    (hs : d.step (.bar0 isWrite offset buf) = some d') (hd : settle settleFuel d' = some d'') :
    ∃ reply, d.access isWrite offset buf = some (reply, d'') := by
  cases hb : d.busy with
  | some q => simp [step, hb] at hs
  | none =>
    have hs' := hs
    simp only [step, hb] at hs'
    obtain ⟨r, hr, -⟩ := Option.map_eq_some_iff.mp hs'
    exact ⟨r.2.1, by rw [access, hr, Option.bind_some, hs, Option.bind_some, hd, Option.map_some]⟩

section Requests
variable {P Q : Device → Prop} {off : ℕ}

/-- A request within BAR0 takes the device from `P` to `Q`. -/
theorem runs_accessRegion {isWrite : Bool} {data : List Byte}
    (ho : off + data.length ≤ nvmeBar0Size)
    (h : ∀ d, P d → ∃ d' d'', d.step (.bar0 isWrite off data) = some d' ∧
      settle settleFuel d' = some d'' ∧ Q d'') :
    Runs (On P) (accessRegion isWrite off data) fun r c => r.isSome = true ∧ Q c.dev := by
  intro c hc
  obtain ⟨d', d'', hs, hd, hq⟩ := h c.dev hc
  obtain ⟨reply, ha⟩ := Device.access_isSome hs hd
  refine ⟨some reply, { c with dev := d'' }, ?_, rfl, hq⟩
  rw [StateT.run, accessRegion, if_neg (by omega), ha]

theorem runs_regWr32 {v : BitVec 32} (ho : off + 4 ≤ nvmeBar0Size)
    (h : ∀ d, P d → ∃ d' d'', d.step (.bar0 true off (leBytes 4 v.toNat)) = some d' ∧
      settle settleFuel d' = some d'' ∧ Q d'') :
    Runs (On P) (regWr32 off v) fun _ => On Q := by
  refine (runs_accessRegion (by rw [leBytes_length]; exact ho) h).bind fun r => ?_
  refine Runs.assume fun hr => ?_
  obtain ⟨reply, rfl⟩ := Option.isSome_iff_exists.mp hr
  exact Runs.pure fun _ => id

theorem runs_regWr64 {v : BitVec 64} (ho : off + 8 ≤ nvmeBar0Size)
    (h : ∀ d, P d → ∃ d' d'', d.step (.bar0 true off (leBytes 8 v.toNat)) = some d' ∧
      settle settleFuel d' = some d'' ∧ Q d'') :
    Runs (On P) (regWr64 off v) fun _ => On Q := by
  refine (runs_accessRegion (by rw [leBytes_length]; exact ho) h).bind fun r => ?_
  refine Runs.assume fun hr => ?_
  obtain ⟨reply, rfl⟩ := Option.isSome_iff_exists.mp hr
  exact Runs.pure fun _ => id

theorem settle_register (n : NvmeCtrl) : settle settleFuel ⟨n, none⟩ = some ⟨n, none⟩ :=
  settle_idle rfl _

theorem runs_store32 {v : BitVec 32} (ho : off < nvmeRegDoorbell) (hidle : ∀ d, P d → d.busy = none)
    (h : ∀ d, P d → Q ⟨nvmeRegStore d.n off (v.setWidth 64) 4, none⟩) :
    Runs (On P) (regWr32 off v) fun _ => On Q := by
  have hlt : off + 4 ≤ nvmeBar0Size := by
    rw [show nvmeRegDoorbell = 0x1000 from rfl] at ho
    rw [show nvmeBar0Size = 0x4000 from rfl]
    omega
  refine runs_regWr32 hlt fun d hd => ⟨_, _, Device.step_regStore (hidle d hd) ho (by simp),
    settle_register _, ?_⟩
  have hv : BitVec.ofNat 64 (leNat (leBytes 4 v.toNat)) = v.setWidth 64 := by
    rw [leNat_toNat (w := 32) (by norm_num)]
    exact BitVec.eq_of_toNat_eq (by simp)
  rw [hv, leBytes_length]
  exact h d hd

theorem runs_store64 {v : BitVec 64} (ho : off < nvmeRegDoorbell) (hidle : ∀ d, P d → d.busy = none)
    (h : ∀ d, P d → Q ⟨nvmeRegStore d.n off v 8, none⟩) :
    Runs (On P) (regWr64 off v) fun _ => On Q := by
  have hlt : off + 8 ≤ nvmeBar0Size := by
    rw [show nvmeRegDoorbell = 0x1000 from rfl] at ho
    rw [show nvmeBar0Size = 0x4000 from rfl]
    omega
  refine runs_regWr64 hlt fun d hd => ⟨_, _, Device.step_regStore (hidle d hd) ho (by simp),
    settle_register _, ?_⟩
  rw [ofNat_leBytes, leBytes_length]
  exact h d hd

end Requests

/-! ## The rings -/

/-- One mapped region that starts at 0 and has `size` bytes. -/
structure Vfu.MapsBelow (v : Vfu) (size : ℕ) : Prop where
  entry : ∀ {a n g p}, 0 < n → a.toNat + n ≤ size → 0 < g →
    v.addrToSgl a n g p = some [⟨a, n⟩]
  get : ∀ {a n}, a.toNat + n ≤ size → v.sglGet [⟨a, n⟩] = true

theorem Vfu.MapsBelow.reaches {v : Vfu} {size : ℕ} (h : v.MapsBelow size) {a : Addr} {n : ℕ}
    (hn : 0 < n) (ha : a.toNat + n ≤ size) (prot : Prot) : v.reaches a n prot = true := by
  rw [Vfu.reaches, h.entry hn ha (by norm_num)]
  exact h.get ha

theorem Vfu.MapsBelow.xfer {w : World} {size : ℕ} (hm : w.vfu.MapsBelow size) {a : Addr}
    {b : List Byte} (hpage : a.toNat % kvssdPageSize + b.length ≤ kvssdPageSize)
    (hlt : a.toNat + b.length ≤ size) (prp2 : Addr) (toHost : Bool) :
    ∃ b' w', nvmePrpXfer w true a prp2 b toHost = (true, b', w') ∧
      Moved toHost (span a b.length) b b' w w' := by
  have hfirst : prpFirst a b.length = b.length := by
    rw [prpFirst_eq]
    omega
  have haddrs : prpAddrs a prp2 b.length = span a b.length := by
    rw [prpAddrs, hfirst, Nat.sub_self, span_zero, List.append_nil]
  have hok : (nvmePrpXfer w true a prp2 b toHost).1 = true := by
    by_cases hz : b.length = 0
    · rw [nvmePrpXfer, if_pos hz]
    · have hsgl := hm.entry (a := a) (g := nvmeMaxSg) (p := xferProt toHost)
        (Nat.pos_of_ne_zero hz) hlt (by decide)
      rw [nvmePrpXfer, if_neg hz, if_neg (by decide)]
      simp only [hfirst, hsgl, Nat.sub_self, if_true]
      rw [nvmeSglCopy_ok _ toHost (by simp) (by simp [nvmeMaxSg]) (by simp [Sg.addrs])]
      exact hm.get hlt
  have hout := (nvmePrpXfer_outcome w true a prp2 b toHost).1
  rw [haddrs] at hout
  rcases hx : nvmePrpXfer w true a prp2 b toHost with ⟨ok, b', w'⟩
  rw [hx] at hok hout
  obtain rfl : ok = true := hok
  cases hout with
  | done hmoved => exact ⟨b', w', rfl, hmoved⟩

theorem Vfu.flat_mapsBelow (size : ℕ) : Vfu.flat.MapsBelow size :=
  ⟨fun _ _ hs => if_pos hs, fun _ => rfl⟩

/-- The controller is disabled and idle. -/
structure Down (maxNumKeys : BitVec 32) (d : Device) : Prop where
  reachable : d.Reachable maxNumKeys
  idle : d.busy = none
  mapped : d.n.world.vfu.MapsBelow memSize
  cc : d.n.cc = 0

/-- Both admin rings stand at command number `k` since the enable. -/
structure AdminRings (k : ℕ) (n : NvmeCtrl) : Prop where
  mapped : n.world.vfu.MapsBelow memSize
  cc : n.cc = ccEnable
  csts : n.csts = nvmeCstsRdy
  sqOn : (n.sq 0).enabled = true
  sqDma : (n.sq 0).dma = BitVec.ofNat 64 asqIova
  sqSize : (n.sq 0).size = 16
  sqHead : (n.sq 0).head.toNat = k % 16
  cqOn : (n.cq 0).enabled = true
  cqDma : (n.cq 0).dma = BitVec.ofNat 64 acqIova
  cqSize : (n.cq 0).size = 16
  cqAt : (n.cq 0).At (ringPos 16 k)

/-- The controller is enabled and idle, and has executed `k` admin commands. -/
structure Up (maxNumKeys : BitVec 32) (k : ℕ) (d : Device) : Prop where
  reachable : d.Reachable maxNumKeys
  idle : d.busy = none
  rings : AdminRings k d.n
  caughtUp : (d.n.sq 0).tail = (d.n.sq 0).head

def asqEntry (mem : Memory) (j : ℕ) : NvmeSqe :=
  ⟨Buffer.ofBytes ((span (BitVec.ofNat 64 (asqSlot j)) 64).map mem)⟩

def acqEntry (mem : Memory) (j : ℕ) : NvmeCqe :=
  .ofBytes ((span (BitVec.ofNat 64 (acqSlot j)) 16).map mem)

def acqSpan (j : ℕ) : List Addr := span (BitVec.ofNat 64 (acqSlot j)) 16

/-- A command that is answered and whose data stays off both rings. -/
structure Harmless (sqe : NvmeSqe) : Prop where
  answered : sqe.opcode ≠ nvmeAdmAsyncEvent
  data : ∀ a ∈ dataBuffer 0 sqe, dataIova ≤ a.toNat

/-- Identify Controller into the data page. -/
structure IdentifiesCtrl (sqe : NvmeSqe) : Prop where
  opcode : sqe.opcode = nvmeAdmIdentify
  cns : sqe.cdw10.setWidth 8 = nvmeIdCnsCtrl
  prp1 : sqe.prp1 = BitVec.ofNat 64 dataIova

section Slots

theorem asqSlot_lt {j : ℕ} (hj : j < 16) : asqSlot j + 64 ≤ page := by
  simp only [asqSlot, asqIova, page]
  omega

theorem acqSlot_lt {j : ℕ} (hj : j < 16) : page ≤ acqSlot j ∧ acqSlot j + 16 ≤ dataIova := by
  simp only [acqSlot, acqIova, dataIova, page]
  omega

/-- Addresses of a range below the top of the address space, as numbers. -/
theorem mem_span_ofNat {base n : ℕ} (h : base + n ≤ 2 ^ 64) {a : Addr} :
    a ∈ span (BitVec.ofNat 64 base) n ↔ base ≤ a.toNat ∧ a.toNat < base + n := by
  rw [mem_span]
  constructor
  · rintro ⟨i, hi, rfl⟩
    rw [BitVec.toNat_add, BitVec.toNat_ofNat, BitVec.toNat_ofNat]
    omega
  · rintro ⟨hl, hu⟩
    refine ⟨a.toNat - base, by omega, BitVec.eq_of_toNat_eq ?_⟩
    rw [BitVec.toNat_add, BitVec.toNat_ofNat, BitVec.toNat_ofNat]
    omega

theorem mem_acqSpan {j : ℕ} (hj : j < 16) {a : Addr} :
    a ∈ acqSpan j ↔ acqSlot j ≤ a.toNat ∧ a.toNat < acqSlot j + 16 := by
  have h := acqSlot_lt hj
  simp only [dataIova, page] at h
  exact mem_span_ofNat (by omega)

theorem acqSpan_disjoint {i j : ℕ} (hi : i < 16) (hj : j < 16) (hij : i ≠ j) {a : Addr}
    (ha : a ∈ acqSpan i) : a ∉ acqSpan j := by
  rw [mem_acqSpan hi] at ha
  rw [mem_acqSpan hj]
  simp only [acqSlot] at ha ⊢
  omega

theorem asqEntry_congr {m m' : Memory} (hm : ∀ a : Addr, a.toNat < page → m' a = m a) {j : ℕ}
    (hj : j < 16) : asqEntry m' j = asqEntry m j := by
  have hlt := asqSlot_lt hj
  simp only [page] at hlt
  rw [asqEntry, asqEntry]
  congr 2
  refine List.map_congr_left fun a ha => hm a ?_
  rw [mem_span_ofNat (by omega)] at ha
  simp only [page]
  omega

theorem acqEntry_congr {m m' : Memory} {j : ℕ} (hm : ∀ a ∈ acqSpan j, m' a = m a) :
    acqEntry m' j = acqEntry m j := by
  rw [acqEntry, acqEntry]
  exact congrArg NvmeCqe.ofBytes (List.map_congr_left hm)

end Slots

/-! ## Serving the ring -/

namespace AdminRings
variable {k : ℕ} {n : NvmeCtrl}

theorem sqSlot (h : AdminRings k n) :
    (n.sq 0).slotAddr (n.sq 0).head = BitVec.ofNat 64 (asqSlot (k % 16)) := by
  rw [NvmeSq.slotAddr_eq, h.sqDma, h.sqHead, ← BitVec.ofNat_add]
  rfl

theorem cqSlot (h : AdminRings k n) :
    (n.cq 0).slotAddr (n.cq 0).tail = BitVec.ofNat 64 (acqSlot (k % 16)) := by
  rw [NvmeCq.slotAddr_eq, h.cqDma, h.cqAt.tail, ← BitVec.ofNat_add]
  rfl

theorem headEntry (h : AdminRings k n) : n.headEntry 0 = asqEntry n.world.mem (k % 16) := by
  rw [NvmeCtrl.headEntry, h.sqSlot]
  rfl

theorem sqReaches (h : AdminRings k n) :
    n.world.vfu.reaches ((n.sq 0).slotAddr (n.sq 0).head) 64 .read = true := by
  have hlt := asqSlot_lt (Nat.mod_lt k (by norm_num : 16 > 0))
  rw [h.sqSlot]
  refine h.mapped.reaches (by norm_num) ?_ _
  rw [BitVec.toNat_ofNat]
  simp only [memSize, page] at hlt ⊢
  omega

theorem cqReaches (h : AdminRings k n) :
    n.world.vfu.reaches ((n.cq 0).slotAddr (n.cq 0).tail) 16 .write = true := by
  have hlt := acqSlot_lt (Nat.mod_lt k (by norm_num : 16 > 0))
  rw [h.cqSlot]
  refine h.mapped.reaches (by norm_num) ?_ _
  rw [BitVec.toNat_ofNat]
  simp only [memSize, page, dataIova] at hlt ⊢
  omega

end AdminRings

/-- The completion of an admin command in the client's ring. -/
structure AdminDone (k : ℕ) (sqe : NvmeSqe) (cqe : NvmeCqe) : Prop where
  tag : cqe.tag = (ringPos 16 k).phase
  cid : cqe.cid = sqe.cid
  identified : IdentifiesCtrl sqe → cqe.status >>> 1 = 0

/-- Identify into a mapped page of the client puts the page there. -/
theorem nvmeExecute_identify {n n' : NvmeCtrl} {size : ℕ} (hm : n.world.vfu.MapsBelow size)
    {sqe : NvmeSqe} (ho : sqe.opcode = nvmeAdmIdentify) {p : IdPage}
    (hp : nvmeIdentifyPage n (sqe.cdw10.setWidth 8) ((sqe.cdw11 >>> 24).setWidth 8) = some p)
    (haligned : sqe.prp1.toNat % kvssdPageSize = 0) (hlt : sqe.prp1.toNat + kvssdPageSize ≤ size)
    {st : Status} {cdw0 : BitVec 32}
    (hx : nvmeExecute n (fun _ => true) 0 sqe = some (st, cdw0, n')) :
    st = nvmeSuccess ∧ ∃ w, n' = n.withWorld w ∧
      w.mem = writeAll n.world.mem (span sqe.prp1 kvssdPageSize) p.bytes := by
  have hlen : p.bytes.length = kvssdPageSize := Buffer.bytes_length _
  obtain ⟨buf, w, hxfer, hmoved⟩ := hm.xfer (a := sqe.prp1) (b := p.bytes)
    (by rw [haligned, hlen]; exact le_of_eq (Nat.zero_add _)) (by rw [hlen]; exact hlt) sqe.prp2 true
  rw [nvmeExecute, if_pos rfl, Option.some.injEq, nvmeAdminCmd, if_pos ho, nvmeAdminIdentify,
    hp] at hx
  simp only [hxfer, if_true, Prod.mk.injEq] at hx
  obtain ⟨rfl, -, rfl⟩ := hx
  exact ⟨rfl, w, rfl, by simpa [hlen] using hmoved.mem⟩

theorem nvmeAdminIdentify_ctrl {n n' : NvmeCtrl} (hm : n.world.vfu.MapsBelow memSize)
    {sqe : NvmeSqe} (hi : IdentifiesCtrl sqe) {st : Status} {cdw0 : BitVec 32}
    (hx : nvmeExecute n (fun _ => true) 0 sqe = some (st, cdw0, n')) : st = nvmeSuccess := by
  have hpage : nvmeIdentifyPage n (sqe.cdw10.setWidth 8) ((sqe.cdw11 >>> 24).setWidth 8) =
      some nvmeFillIdCtrl := by rw [nvmeIdentifyPage, if_pos hi.cns]
  exact (nvmeExecute_identify hm hi.opcode hpage (by rw [hi.prp1]; decide)
    (by rw [hi.prp1]; decide) hx).1

/-- One admin command is run and its completion is left in its slot. -/
theorem AdminRings.serve {maxNumKeys : BitVec 32} {k : ℕ} {d : Device}
    (hd : d.Reachable maxNumKeys) (hb : d.busy = some 0) (h : AdminRings k d.n)
    (hne : (d.n.sq 0).head ≠ (d.n.sq 0).tail)
    (hsqe : Harmless (asqEntry d.n.world.mem (k % 16))) :
    ∃ n', d.step (.iterate fun _ => true) = some ⟨n', some 0⟩ ∧ AdminRings (k + 1) n' ∧
      (n'.sq 0).tail = (d.n.sq 0).tail ∧
      (∀ a : Addr, a.toNat < dataIova → a ∉ acqSpan (k % 16) →
        n'.world.mem a = d.n.world.mem a) ∧
      AdminDone k (asqEntry d.n.world.mem (k % 16)) (acqEntry n'.world.mem (k % 16)) := by
  have hadmin : (d.n.sq 0).cqid.toNat = (0 : QueueId).val := by rw [hd.ok.rings.admin]; rfl
  obtain ⟨st, cdw0, n₀, n', hs, hserve⟩ := Device.iterate_serves hd.ok (fun _ => rfl) hb (.inl rfl)
    hne h.sqReaches hadmin h.cqOn h.cqReaches fun hx => hsqe.answered (h.headEntry ▸ hx.2)
  obtain ⟨w, hwmem, hwvfu, hx⟩ := hserve.ran
  have hex := nvmeExecute_executed hx
  have hsq : n'.sq 0 = (d.n.sq 0).fetched := by
    rw [hserve.sq, hex.sq_self]
    simp [NvmeCtrl.fetched, NvmeSq.fetched]
  have hcq : n'.cq 0 = (d.n.cq 0).advance := by rw [hserve.cq, Function.update_self]
  have hcqok := hd.ok.rings.cq 0 h.cqOn
  have hsqok := hd.ok.rings.sq 0 h.sqOn
  have hcc : n'.cc = d.n.cc := hserve.registers.1.trans hex.registers.1
  have hcsts : n'.csts = d.n.csts := hserve.registers.2.trans hex.registers.2
  have hk : k % 16 < 16 := Nat.mod_lt k (by norm_num)
  refine ⟨n', hs, ?_, by rw [hsq]; rfl, ?_, ?_⟩
  · have hsize : (d.n.cq 0).size.toNat = 16 := by rw [h.cqSize]; rfl
    have hat := h.cqAt.advance hcqok (by rw [hsize]; norm_num)
    rw [hsize, ringPos_next (by norm_num)] at hat
    refine ⟨hserve.vfu ▸ h.mapped, hcc ▸ h.cc, hcsts ▸ h.csts, hsq ▸ h.sqOn, hsq ▸ h.sqDma, hsq ▸ h.sqSize, ?_,
      ?_, ?_, ?_, hcq ▸ hat⟩
    · rw [hsq, NvmeSq.fetched, NvmeSq.nextHead_toNat hsqok, h.sqHead, h.sqSize]
      change (k % 16 + 1) % 16 = (k + 1) % 16
      omega
    · rw [hcq, NvmeCq.advance_enabled, h.cqOn]
    · rw [hcq, NvmeCq.advance_dma, h.cqDma]
    · rw [hcq, NvmeCq.advance_size, h.cqSize]
  · intro a ha hout
    obtain ⟨xs, heff⟩ := hex.effect
    rw [hserve.mem, h.cqSlot, ← acqSpan, writeAll_outside hout]
    refine (heff.outside a fun hdata => ?_).trans (congrFun hwmem a)
    rw [h.headEntry] at hdata
    exact absurd (hsqe.data a hdata) (not_le.mpr ha)
  · have hlt := acqSlot_lt hk
    have hcqe : acqEntry n'.world.mem (k % 16) = d.n.completion 0 0 cdw0 st := by
      rw [acqEntry, hserve.mem, h.cqSlot, map_writeAll (span_nodup (by norm_num)) (by simp),
        NvmeCqe.ofBytes_toBytes]
    rw [hcqe]
    refine ⟨cqeFor_tag h.cqAt.phase .., congrArg NvmeSqe.cid h.headEntry, fun hi => ?_⟩
    rw [NvmeCtrl.completion, cqeFor_status h.cqAt.phase]
    have hst := nvmeAdminIdentify_ctrl
      (by rw [NvmeCtrl.fetched]; exact hwvfu ▸ h.mapped) (h.headEntry ▸ hi) hx
    rw [hst]
    rfl

/-- What `m` served commands leave in the client's rings: only completion slots have changed, and
each holds the completion of its command. -/
structure AdminBatch (k m : ℕ) (mem mem' : Memory) : Prop where
  outside : ∀ a : Addr, a.toNat < dataIova → (∀ j < m, a ∉ acqSpan ((k + j) % 16)) →
    mem' a = mem a
  done : ∀ j < m, AdminDone (k + j) (asqEntry mem ((k + j) % 16)) (acqEntry mem' ((k + j) % 16))

theorem AdminBatch.asqEntry {k m : ℕ} {mem mem' : Memory} (h : AdminBatch k m mem mem') {j : ℕ}
    (hj : j < 16) : asqEntry mem' j = asqEntry mem j := by
  refine asqEntry_congr (fun a ha => h.outside a ?_ fun i _ hi => ?_) hj
  · exact lt_trans ha (by decide)
  · have hslot : (k + i) % 16 < 16 := Nat.mod_lt _ (by norm_num)
    rw [mem_acqSpan hslot] at hi
    have := (acqSlot_lt hslot).1
    omega

theorem Device.step_finished {d : Device} {q : QueueId} (hb : d.busy = some q)
    (h : (d.n.sq q).head = (d.n.sq q).tail) (heap : Heap) :
    d.step (.iterate heap) = some ⟨d.n, none⟩ := by
  simp only [step, hb]
  rw [nvmeProcessSqStep, if_pos h]
  rfl

/-- Up to 15 commands are served in order, and then the loop ends. -/
theorem AdminRings.drain {maxNumKeys : BitVec 32} {k m : ℕ} {d : Device}
    (hd : d.Reachable maxNumKeys) (hb : d.busy = some 0) (h : AdminRings k d.n)
    (htail : (d.n.sq 0).tail.toNat = (k + m) % 16) (hm : m ≤ 15)
    (hsqe : ∀ j < m, Harmless (asqEntry d.n.world.mem ((k + j) % 16))) (fuel : ℕ) :
    ∃ d', settle (fuel + m + 2) d = some d' ∧ Up maxNumKeys (k + m) d' ∧
      AdminBatch k m d.n.world.mem d'.n.world.mem := by
  induction m generalizing k d with
  | zero =>
    have heq : (d.n.sq 0).head = (d.n.sq 0).tail :=
      BitVec.eq_of_toNat_eq (by rw [h.sqHead, htail, Nat.add_zero])
    have hs := Device.step_finished hb heq fun _ => true
    refine ⟨⟨d.n, none⟩, ?_, ⟨hd.next hs, rfl, h, heq.symm⟩, fun _ _ _ => rfl, by simp⟩
    rw [settle_busy hb hs, settle_idle rfl]
  | succ m ih =>
    have hne : (d.n.sq 0).head ≠ (d.n.sq 0).tail := by
      intro heq
      have := congrArg BitVec.toNat heq
      rw [h.sqHead, htail] at this
      omega
    obtain ⟨n', hs, hrings, htail', hmem, hdone⟩ :=
      h.serve hd hb hne (by simpa using hsqe 0 (by omega))
    have hk : k % 16 < 16 := Nat.mod_lt k (by norm_num)
    have hfirst : AdminBatch k 1 d.n.world.mem n'.world.mem := by
      refine ⟨fun a ha ho => hmem a ha (by simpa using ho 0 (by omega)), fun j hj => ?_⟩
      obtain rfl : j = 0 := by omega
      exact hdone
    obtain ⟨d', hset, hup, hrest⟩ := ih (hd.next hs) rfl hrings
      (by rw [htail', htail]; congr 1; omega) (by omega) fun j hj => by
        rw [hfirst.asqEntry (Nat.mod_lt _ (by norm_num)), show k + 1 + j = k + (j + 1) by omega]
        exact hsqe (j + 1) (by omega)
    refine ⟨d', ?_, by rw [show k + (m + 1) = k + 1 + m by omega]; exact hup, ?_, ?_⟩
    · rw [show fuel + (m + 1) + 2 = fuel + m + 2 + 1 by omega, settle_busy hb hs]
      exact hset
    · intro a ha ho
      rw [hrest.outside a ha fun j hj => ?_, hmem a ha (by simpa using ho 0 (by omega))]
      rw [show k + 1 + j = k + (j + 1) by omega]
      exact ho (j + 1) (by omega)
    · intro j hj
      cases j with
      | zero =>
        rw [Nat.add_zero, acqEntry_congr (m := n'.world.mem)]
        · exact hdone
        · intro a ha
          have hlt := (mem_acqSpan hk).mp ha
          have hslot := acqSlot_lt hk
          refine hrest.outside a (by omega) fun j hj => ?_
          exact acqSpan_disjoint hk (Nat.mod_lt _ (by norm_num)) (by omega) ha
      | succ j =>
        have hj' := hrest.done j (by omega)
        rw [hfirst.asqEntry (Nat.mod_lt _ (by norm_num))] at hj'
        rwa [show k + (j + 1) = k + 1 + j by omega]

/-! ## Doorbells -/

/-- The tail doorbell: every entry up to the tail is served before the reply. -/
theorem Up.ring {maxNumKeys : BitVec 32} {k m : ℕ} {d : Device} (h : Up maxNumKeys k d)
    (hm : m ≤ 15) {tail : BitVec 16} (htail : tail.toNat = (k + m) % 16)
    (hsqe : ∀ j < m, Harmless (asqEntry d.n.world.mem ((k + j) % 16))) :
    ∃ d' d'', d.step (sqTailWrite 0 tail) = some d' ∧ settle settleFuel d' = some d'' ∧
      Up maxNumKeys (k + m) d'' ∧ AdminBatch k m d.n.world.mem d''.n.world.mem := by
  have hs := Device.step_sqTailWrite h.idle 0 tail
  rw [h.rings.sqOn, if_pos rfl] at hs
  have hr := h.rings
  obtain ⟨d'', hset, hup, hbatch⟩ := AdminRings.drain (k := k) (m := m) (h.reachable.next hs) rfl
    ⟨hr.mapped, hr.cc, hr.csts, by simpa using hr.sqOn, by simpa using hr.sqDma,
      by simpa using hr.sqSize, by simpa using hr.sqHead, hr.cqOn, hr.cqDma, hr.cqSize, hr.cqAt⟩
    (by simpa using htail) hm hsqe (settleFuel - m - 2)
  refine ⟨_, d'', hs, ?_, hup, hbatch⟩
  rw [show settleFuel - m - 2 + m + 2 = settleFuel by
    rw [show settleFuel = 65537 from rfl]; omega] at hset
  exact hset

theorem Up.release {maxNumKeys : BitVec 32} {k : ℕ} {d : Device} (h : Up maxNumKeys k d)
    (v : BitVec 16) :
    ∃ d' d'', d.step (cqHeadWrite 0 v) = some d' ∧ settle settleFuel d' = some d'' ∧
      Up maxNumKeys k d'' ∧ d''.n.world.mem = d.n.world.mem := by
  have hs := Device.step_cqHeadWrite h.idle 0 v
  have hr := h.rings
  refine ⟨_, _, hs, settle_register _, ⟨h.reachable.next hs, rfl, ?_, h.caughtUp⟩, rfl⟩
  refine ⟨hr.mapped, hr.cc, hr.csts, hr.sqOn, hr.sqDma, hr.sqSize, hr.sqHead, ?_, ?_, ?_, ?_⟩
  · simpa using hr.cqOn
  · simpa using hr.cqDma
  · simpa using hr.cqSize
  · exact ⟨by simpa using hr.cqAt.tail, by simpa using hr.cqAt.phase⟩

end VfuKvssd
