import VfuKvssd.Client.Session
import VfuKvssd.Controller.LastWriter
import VfuKvssd.Controller.PhaseTags

/-! # The client harness

The harness enables the controller, identifies it, creates one I/O queue pair,
stores a value and reads it back. It passes on every idle, disabled device that
has room for its key.
-/
namespace VfuKvssd.Harness
open Foundations

def checkCqe (cqe : NvmeCqe) (expectCid : BitVec 16) (what : String) : Client Unit := do
  ensure (cqe.status &&& 1 == 1) (.errx (what ++ ": phase bit not set (status=%#x)"))
  ensure (cqe.status >>> 1 == 0) (.errx (what ++ ": non-zero status %#x"))
  ensure (cqe.cid == expectCid) (.errx (what ++ ": cid mismatch %u != %u"))

/-- Submit the entry in a slot of the first lap, and validate its completion. -/
def command (p : QueuePair) (slot : ℕ) (entry : List Byte) (cid : BitVec 16) (what : String) :
    Client Unit := do
  let cqe ← p.exchange ⟨slot, true⟩ entry
  checkCqe cqe cid what
  p.release ⟨slot, true⟩

def adminIdentify (slot : ℕ) (cid : BitVec 16) (cns : BitVec 32) (what : String) : Client Unit :=
  command adminPair slot (nvmeSqe 0x06 cid 1 dataIova cns 0) cid what

def enable : Client Unit := do
  regWr32 nvmeRegAqa (BitVec.ofNat 32 (qDepth - 1) ||| (BitVec.ofNat 32 (qDepth - 1) <<< 16))
  regWr64 nvmeRegAsq (BitVec.ofNat 64 asqIova)
  regWr64 nvmeRegAcq (BitVec.ofNat 64 acqIova)
  regWr32 nvmeRegCc ((4#32 <<< 20) ||| (6#32 <<< 16) ||| 1#32)
  let csts ← regRd32 nvmeRegCsts
  ensure (csts &&& 1 != 0) (.errx "controller did not become ready (CSTS.RDY)")

/-- Dword 10 of the two Create commands: the size and queue 1. -/
def createDword : BitVec 32 := (BitVec.ofNat 32 (qDepth - 1) <<< 16) ||| 1

def setup : Client Unit := do
  enable
  command adminPair 0 (nvmeSqe 0x06 1 0 dataIova 0x01 0) 1 "identify-controller"
  let mn ← peek (dataIova + 0x18) 15
  ensure (mn == asciiBytes "vfio-user-kvssd") (.errx "identify MN mismatch")
  command adminPair 1 (nvmeSqe 0x05 2 0 iocqIova createDword 1) 2 "create-io-cq"
  command adminPair 2 (nvmeSqe 0x01 3 0 iosqIova createDword ((1#32 <<< 16) ||| 1)) 3 "create-io-sq"
  poke dataIova (List.replicate page 0)
  adminIdentify 3 4 0x08 "identify-cs-ind-ns"
  let nstat ← peek (dataIova + 14) 1
  ensure (nstat == [0x01]) (.errx "cs-ind-ns: nstat not ready (%#x)")
  poke dataIova (List.replicate page 0)
  adminIdentify 4 5 0x1c "identify-io-cmd-set"
  let set ← peek dataIova 1
  ensure (set.headD 0 &&& 0x01 != 0) (.errx "io-cmd-set: NVM bit not set (%#x)")

def harnessKey : List Byte := asciiBytes "abc"

/-- `"hello-kv-value"` with its terminating zero. -/
def harnessValue : List Byte := asciiBytes "hello-kv-value" ++ [0]

def storeRequest : KvRequest :=
  ⟨.store, 10, harnessKey, BitVec.ofNat 32 harnessValue.length, 0, harnessValue⟩

def retrieveRequest : KvRequest := ⟨.retrieve, 11, harnessKey, BitVec.ofNat 32 page, 0, []⟩

/-- `main` of the harness once the shared memory is mapped. -/
def harness : Client Unit := do
  setup
  poke valIova storeRequest.page
  command ioPair 0 storeRequest.entry 10 "kv-store"
  poke valIova retrieveRequest.page
  command ioPair 1 retrieveRequest.entry 11 "kv-retrieve"
  let val ← peek valIova harnessValue.length
  ensure (val == harnessValue) (.errx "kv-retrieve: value mismatch (got \"%s\")")

/-- The device before the harness: idle and disabled, the memory mapped, and room for the key. -/
structure Start (maxNumKeys : BitVec 32) (d : Device) : Prop where
  reachable : d.Reachable maxNumKeys
  idle : d.busy = none
  mapped : d.n.world.vfu.MapsBelow memSize
  cc : d.n.cc = 0
  room : d.n.ns.contents harnessKey ≠ none ∨ d.n.ns.contents.card < maxNumKeys.toNat

/-! ## Enable -/

section Enable
variable {maxNumKeys : BitVec 32} {ns : KvNs}

/-- The device is disabled, with a given namespace. -/
structure Off (maxNumKeys : BitVec 32) (ns : KvNs) (d : Device) : Prop where
  reachable : d.Reachable maxNumKeys
  idle : d.busy = none
  mapped : d.n.world.vfu.MapsBelow memSize
  cc : d.n.cc = 0
  ns : d.n.ns = ns

theorem Off.next {d d' : Device} {i : Input} (h : Off maxNumKeys ns d) (hs : d.step i = some d')
    (hb : d'.busy = none) (hv : d'.n.world.vfu = d.n.world.vfu) (hcc : d'.n.cc = d.n.cc)
    (hns : d'.n.ns = d.n.ns) : Off maxNumKeys ns d' :=
  ⟨h.reachable.next hs, hb, hv ▸ h.mapped, hcc.trans h.cc, hns.trans h.ns⟩

theorem adminPair_at_enable {n : NvmeCtrl} (haqa : n.aqa = 0x00070007)
    (hasq : n.asq = BitVec.ofNat 64 asqIova) (hacq : n.acq = BitVec.ofNat 64 acqIova) :
    adminPair.At 0 (nvmeEnable n) := by
  have hsq : (nvmeEnable n).sq adminPair.q =
      { NvmeSq.zero with dma := n.asq, size := (n.aqa &&& 0xfff) + 1, enabled := true } := rfl
  have hcq : (nvmeEnable n).cq adminPair.c =
      { NvmeCq.zero with
        dma := n.acq, size := ((n.aqa >>> 16) &&& 0xfff) + 1, phase := 1, enabled := true } := rfl
  rw [haqa, hasq] at hsq
  rw [haqa, hacq] at hcq
  constructor <;> simp only [hsq, hcq]
  · rfl
  · decide
  · rfl
  · rfl
  · rfl
  · decide
  · exact ⟨rfl, rfl⟩

theorem runs_enable : Runs (On (Off maxNumKeys ns)) enable fun _ => On fun d =>
    adminPair.Ready memSize maxNumKeys 0 d ∧ d.n.ns = ns := by
  have haqa : Runs (On (Off maxNumKeys ns))
      (regWr32 nvmeRegAqa (BitVec.ofNat 32 (qDepth - 1) ||| (BitVec.ofNat 32 (qDepth - 1) <<< 16)))
      fun _ => On fun d => Off maxNumKeys ns d ∧ d.n.aqa = 0x00070007 :=
    runs_store32 (by decide) (fun d h => h.idle) fun d h =>
      ⟨h.next (Device.step_store32 h.idle (by decide) _) rfl rfl rfl rfl, rfl⟩
  have hasq : Runs (On fun d => Off maxNumKeys ns d ∧ d.n.aqa = 0x00070007)
      (regWr64 nvmeRegAsq (BitVec.ofNat 64 asqIova)) fun _ => On fun d =>
        Off maxNumKeys ns d ∧ d.n.aqa = 0x00070007 ∧ d.n.asq = BitVec.ofNat 64 asqIova :=
    runs_store64 (by decide) (fun d h => h.1.idle) fun d h =>
      ⟨h.1.next (Device.step_store64 h.1.idle (by decide) _) rfl rfl rfl rfl, h.2, rfl⟩
  have hacq : Runs (On fun d => Off maxNumKeys ns d ∧ d.n.aqa = 0x00070007 ∧
        d.n.asq = BitVec.ofNat 64 asqIova)
      (regWr64 nvmeRegAcq (BitVec.ofNat 64 acqIova)) fun _ => On fun d =>
        Off maxNumKeys ns d ∧ d.n.aqa = 0x00070007 ∧ d.n.asq = BitVec.ofNat 64 asqIova ∧
          d.n.acq = BitVec.ofNat 64 acqIova :=
    runs_store64 (by decide) (fun d h => h.1.idle) fun d h =>
      ⟨h.1.next (Device.step_store64 h.1.idle (by decide) _) rfl rfl rfl rfl, h.2.1, h.2.2, rfl⟩
  have hcc : Runs (On fun d => Off maxNumKeys ns d ∧ d.n.aqa = 0x00070007 ∧
        d.n.asq = BitVec.ofNat 64 asqIova ∧ d.n.acq = BitVec.ofNat 64 acqIova)
      (regWr32 nvmeRegCc ((4#32 <<< 20) ||| (6#32 <<< 16) ||| 1#32)) fun _ => On fun d =>
        adminPair.Ready memSize maxNumKeys 0 d ∧ d.n.ns = ns ∧ d.n.csts = nvmeCstsRdy := by
    refine runs_store32 (by decide) (fun d h => h.1.idle) ?_
    rintro d ⟨hoff, hq⟩
    have hs := Device.step_store32 hoff.idle (o := nvmeRegCc) (by decide) ccEnable
    have hn : nvmeRegStore d.n nvmeRegCc (ccEnable.setWidth 64) 4 =
        nvmeEnable { d.n with cc := ccEnable } := by
      change nvmeCcWrite d.n ((ccEnable.setWidth 64).setWidth 32) = _
      rw [show (ccEnable.setWidth 64).setWidth 32 = ccEnable by decide, nvmeCcWrite_enable hoff.cc]
    rw [hn] at hs
    change _ ∧ _
    rw [show (4#32 <<< 20) ||| (6#32 <<< 16) ||| 1#32 = ccEnable from rfl, hn]
    exact ⟨⟨hoff.reachable.next hs, rfl, hoff.mapped, adminPair_at_enable hq.1 hq.2.1 hq.2.2, rfl⟩,
      hoff.ns, rfl⟩
  refine haqa.seq (hasq.seq (hacq.seq (hcc.seq ?_)))
  have hread := runs_rdCsts (P := fun d => adminPair.Ready memSize maxNumKeys 0 d ∧ d.n.ns = ns ∧
      d.n.csts = nvmeCstsRdy) (Q := fun d => adminPair.Ready memSize maxNumKeys 0 d ∧ d.n.ns = ns ∧
      d.n.csts = nvmeCstsRdy) (fun d h => h.1.idle) fun d d' bytes h hs hd => by
    subst hd
    exact ⟨⟨h.1.reachable.next hs, rfl, h.1.mapped, h.1.rings.congr rfl rfl, h.1.caughtUp⟩, h.2.1,
      h.2.2⟩
  refine hread.bind fun v => Runs.ensure ?_
  rintro c ⟨rfl, h⟩
  refine ⟨?_, h.1, h.2.1⟩
  rw [h.2.2]
  rfl

end Enable

/-! ## Commands -/

section Commands
variable {p : QueuePair} {size k : ℕ} {maxNumKeys : BitVec 32} {d : Device} {entry : List Byte}
  {cid : BitVec 16}

/-- What a command of the first lap leaves beside its completion. -/
structure Left (p : QueuePair) (size : ℕ) (maxNumKeys : BitVec 32) (k : ℕ) (d' d'' : Device) : Prop where
  ready : p.Ready size maxNumKeys k d''
  ns : d''.n.ns = d'.n.ns
  mem : d''.n.world.mem = d'.n.world.mem
  sq : d''.n.sq = d'.n.sq
  cq : ∀ c ≠ p.c, d''.n.cq c = d'.n.cq c

/-- A command that the device answers with success passes the checks. -/
theorem runs_command (what : String) (hp : p.Within size) (h : p.Ready size maxNumKeys k d)
    (hk : p.q = 0 ∨ d.n.ns.entriesAllocated < 2 ^ 31) (hl : entry.length = 64)
    (haer : p.q = 0 → (⟨Buffer.ofBytes entry⟩ : NvmeSqe).opcode ≠ nvmeAdmAsyncEvent)
    (hslot : k < p.depth) (hcid : (⟨Buffer.ofBytes entry⟩ : NvmeSqe).cid = cid) {d₁ : Device}
    (hd₁ : d₁ = d.setMemory (stored d.n.world.mem (p.sqSlot k) entry))
    (hst : ∀ st cdw0 n₀ d', p.Answered k d₁ st cdw0 n₀ d' → st &&& 0x7fff = 0) :
    ∃ st cdw0 n₀ d' d'', p.Answered k d₁ st cdw0 n₀ d' ∧ Left p size maxNumKeys (k + 1) d' d'' ∧
      Runs (On (· = d)) (command p k entry cid what) fun _ => On (· = d'') := by
  have hpos : ringPos p.depth k = ⟨k, true⟩ := by
    rw [ringPos, Nat.mod_eq_of_lt hslot, Nat.div_eq_of_lt hslot]
    rfl
  have hmod : k % p.depth = k := Nat.mod_eq_of_lt hslot
  obtain ⟨d', st, cdw0, n₀, hready, hans, hexchange⟩ :=
    QueuePair.runs_exchange hp h hk hl haer (hmod.symm ▸ hd₁)
  obtain ⟨d'', hready', hns, hmem, hsq, hcq, hrelease⟩ := QueuePair.runs_release hp hready k
  rw [hpos] at hexchange hrelease
  refine ⟨st, cdw0, n₀, d', d'', hans, ⟨hready', hns, hmem, hsq, hcq⟩, ?_⟩
  refine hexchange.bind fun cqe => Runs.seq (R := On (· = d')) ?_ hrelease
  have hentry : p.sqEntry d₁.n.world.mem (k % p.depth) = ⟨Buffer.ofBytes entry⟩ := by
    rw [hd₁, hmod]
    exact p.sqEntry_stored _ hl k
  intro c hc
  obtain ⟨rfl, rfl⟩ := hc
  refine ⟨(), c, ?_, rfl⟩
  have htag : (p.cqEntry c.dev.n.world.mem (k % p.depth)).status &&& 1 = 1 := by
    rw [NvmeCqe.status_and_one, hans.tag, hpos, if_pos rfl]
  have hstatus : (p.cqEntry c.dev.n.world.mem (k % p.depth)).status >>> 1 = 0 := by
    rw [hans.status, hst st cdw0 n₀ c.dev hans]
  have hcid' : (p.cqEntry c.dev.n.world.mem (k % p.depth)).cid = cid := by
    rw [hans.cid, hentry, hcid]
  rw [checkCqe, htag, hstatus, hcid']
  simp [ensure]
  rfl

end Commands

/-! ## The admin commands of the harness -/

section Admin
variable {maxNumKeys : BitVec 32} {j : ℕ} {d : Device}

theorem adminPair_within : adminPair.Within memSize := by
  refine ⟨?_, ?_, ?_, ?_, ?_⟩ <;> decide

theorem runs_admin (what : String) (opcode : Byte) (cid : BitVec 16) (nsid : BitVec 32) (iova : ℕ)
    (cdw10 cdw11 : BitVec 32) (h : adminPair.Ready memSize maxNumKeys j d) (hj : j < 8)
    (haer : opcode ≠ nvmeAdmAsyncEvent) (Q : NvmeCtrl → NvmeCtrl → Prop)
    (hQ : ∀ n st cdw0 n₀ sqe, n.world.vfu.MapsBelow memSize →
      SqeDecodes sqe opcode cid iova cdw10 cdw11 → n.cq 1 = d.n.cq 1 →
      nvmeExecute n (fun _ => true) 0 sqe = some (st, cdw0, n₀) → st = nvmeSuccess ∧ Q n n₀) :
    ∃ n n₀ d', Q n n₀ ∧ n.ns = d.n.ns ∧ n.sq 1 = d.n.sq 1 ∧ n.cq 1 = d.n.cq 1 ∧
      adminPair.Ready memSize maxNumKeys (j + 1) d' ∧ d'.n.ns = n₀.ns ∧ d'.n.sq 1 = n₀.sq 1 ∧
      d'.n.cq 1 = n₀.cq 1 ∧
      (∀ a : Addr, dataIova ≤ a.toNat → d'.n.world.mem a = n₀.world.mem a) ∧
      Runs (On (· = d)) (command adminPair j (nvmeSqe opcode cid nsid iova cdw10 cdw11) cid what)
        fun _ => On (· = d') := by
  have hlen := nvmeSqe_length opcode cid nsid iova cdw10 cdw11
  have hdec := nvmeSqe_decodes opcode cid nsid iova cdw10 cdw11
  obtain ⟨d₁, hd₁⟩ : ∃ d₁, d₁ = d.setMemory (stored d.n.world.mem (adminPair.sqSlot j)
    (nvmeSqe opcode cid nsid iova cdw10 cdw11)) := ⟨_, rfl⟩
  have hmod : j % adminPair.depth = j := Nat.mod_eq_of_lt hj
  have hentry : adminPair.sqEntry d₁.n.world.mem (j % adminPair.depth) =
      ⟨Buffer.ofBytes (nvmeSqe opcode cid nsid iova cdw10 cdw11)⟩ := by
    rw [hd₁, hmod]
    exact adminPair.sqEntry_stored _ hlen j
  have hran {st : Status} {cdw0 : BitVec 32} {n₀ : NvmeCtrl} {d' : Device}
      (hans : adminPair.Answered j d₁ st cdw0 n₀ d') : st = nvmeSuccess ∧ ∃ n, Q n n₀ ∧
        n.ns = d.n.ns ∧ n.sq 1 = d.n.sq 1 ∧ n.cq 1 = d.n.cq 1 := by
    obtain ⟨n, -, hvfu, hns, hcq, hsq, hx⟩ := hans.ran
    rw [hentry] at hx
    have hvfu' : n.world.vfu = d.n.world.vfu := by rw [hvfu, hd₁]; rfl
    have hcq' : n.cq 1 = d.n.cq 1 := by rw [hcq, hd₁]; rfl
    obtain ⟨hst, hq⟩ := hQ n st cdw0 n₀ _ (hvfu' ▸ h.mapped) hdec hcq' hx
    refine ⟨hst, n, hq, by rw [hns, hd₁]; rfl, ?_, hcq'⟩
    rw [hsq 1 (by decide), hd₁]
    rfl
  obtain ⟨st, cdw0, n₀, d', d'', hans, hleft, hruns⟩ := runs_command what
    adminPair_within h (.inl rfl) hlen (fun _ => by rw [hdec.opcode]; exact haer) hj hdec.cid hd₁
    fun st cdw0 n₀ d' hans => by rw [(hran hans).1]; rfl
  obtain ⟨-, n, hq, hns, hsq, hcq⟩ := hran hans
  refine ⟨n, n₀, d'', hq, hns, hsq, hcq, hleft.ready, hleft.ns.trans hans.ns, ?_, ?_, ?_, hruns⟩
  · rw [hleft.sq, hans.sq]
  · rw [hleft.cq 1 (by decide), hans.cq, Function.update_of_ne (by decide)]
  · intro a ha
    rw [hleft.mem]
    apply hans.outside
    rw [hmod, QueuePair.cqSpan]
    have hslot : adminPair.cqSlot j = 4096 + 16 * j := by
      rw [QueuePair.cqSlot]
      rfl
    have hdata : dataIova = 16384 := rfl
    rw [mem_span_ofNat (by omega), hslot]
    omega

theorem runs_identify (what : String) (cid : BitVec 16) (nsid cns : BitVec 32)
    (h : adminPair.Ready memSize maxNumKeys j d) (hj : j < 8) {p : IdPage}
    (hp : ∀ n, nvmeIdentifyPage n (cns.setWidth 8) 0 = some p) :
    ∃ d', adminPair.Ready memSize maxNumKeys (j + 1) d' ∧ d'.n.ns = d.n.ns ∧
      d'.n.sq 1 = d.n.sq 1 ∧ d'.n.cq 1 = d.n.cq 1 ∧
      (span (BitVec.ofNat 64 dataIova) kvssdPageSize).map d'.n.world.mem = p.bytes ∧
      Runs (On (· = d)) (command adminPair j (nvmeSqe 0x06 cid nsid dataIova cns 0) cid what)
        fun _ => On (· = d') := by
  have hran (n : NvmeCtrl) (st : Status) (cdw0 : BitVec 32) (n₀ : NvmeCtrl) (sqe : NvmeSqe)
      (hm : n.world.vfu.MapsBelow memSize) (hdec : SqeDecodes sqe 0x06 cid dataIova cns 0)
      (_ : n.cq 1 = d.n.cq 1) (hx : nvmeExecute n (fun _ => true) 0 sqe = some (st, cdw0, n₀)) :
      st = nvmeSuccess ∧ ∃ w, n₀ = n.withWorld w ∧ w.mem =
        writeAll n.world.mem (span (BitVec.ofNat 64 dataIova) kvssdPageSize) p.bytes := by
    have hp' : nvmeIdentifyPage n (sqe.cdw10.setWidth 8) ((sqe.cdw11 >>> 24).setWidth 8) =
        some p := by
      rw [hdec.cdw10, hdec.cdw11]
      exact hp n
    have hprp : sqe.prp1.toNat = dataIova := by rw [hdec.prp1]; rfl
    have hx' := nvmeExecute_identify hm hdec.opcode hp' (by rw [hprp]; rfl)
      (by rw [hprp]; decide) hx
    rwa [hdec.prp1] at hx'
  obtain ⟨n, n₀, d', ⟨w, rfl, hw⟩, hns, hsq, hcq, hready, hns', hsq', hcq', hmem, hruns⟩ :=
    runs_admin what 0x06 cid nsid dataIova cns 0 h hj (by decide) _ hran
  refine ⟨d', hready, hns'.trans hns, hsq'.trans hsq, hcq'.trans hcq, ?_, hruns⟩
  have hpage : ∀ a ∈ span (BitVec.ofNat 64 dataIova) kvssdPageSize,
      d'.n.world.mem a = w.mem a := fun a ha => by
    rw [mem_span_ofNat (by decide)] at ha
    exact hmem a ha.1
  rw [List.map_congr_left hpage, hw, map_writeAll (span_nodup (by decide)) (by
    rw [span_length, Buffer.bytes_length]; rfl)]

theorem runs_createCq (what : String) (cid : BitVec 16)
    (h : adminPair.Ready memSize maxNumKeys j d) (hj : j < 8) :
    ∃ d', adminPair.Ready memSize maxNumKeys (j + 1) d' ∧ d'.n.ns = d.n.ns ∧
      d'.n.cq 1 = ⟨BitVec.ofNat 64 iocqIova, 8, 1, 0, 0, 1, 0, true⟩ ∧
      Runs (On (· = d)) (command adminPair j (nvmeSqe 0x05 cid 0 iocqIova createDword 1) cid what)
        fun _ => On (· = d') := by
  have hran (n : NvmeCtrl) (st : Status) (cdw0 : BitVec 32) (n₀ : NvmeCtrl) (sqe : NvmeSqe)
      (_ : n.world.vfu.MapsBelow memSize) (hdec : SqeDecodes sqe 0x05 cid iocqIova createDword 1)
      (_ : n.cq 1 = d.n.cq 1) (hx : nvmeExecute n (fun _ => true) 0 sqe = some (st, cdw0, n₀)) :
      st = nvmeSuccess ∧ n₀.cq 1 = ⟨BitVec.ofNat 64 iocqIova, 8, 1, 0, 0, 1, 0, true⟩ ∧
        n₀.ns = n.ns := by
    have hqid : ioQueue sqe.qid = some 1 := by rw [NvmeSqe.qid, hdec.cdw10]; decide
    have hcq : createdCq sqe = ⟨BitVec.ofNat 64 iocqIova, 8, 1, 0, 0, 1, 0, true⟩ := by
      rw [createdCq, NvmeSqe.qsize, NvmeSqe.qid, NvmeSqe.target, hdec.prp1, hdec.cdw10, hdec.cdw11]
      decide
    rw [nvmeExecute_createCq hdec.opcode, nvmeAdminCreateCq, hqid, hcq] at hx
    obtain ⟨rfl, -, rfl⟩ : _ ∧ _ ∧ _ := by simpa using hx
    exact ⟨rfl, by simp, rfl⟩
  obtain ⟨n, n₀, d', ⟨hq, hqn⟩, hns, -, -, hready, hns', -, hcq', -, hruns⟩ :=
    runs_admin what 0x05 cid 0 iocqIova createDword 1 h hj (by decide) _ hran
  exact ⟨d', hready, hns'.trans (hqn.trans hns), hcq'.trans hq, hruns⟩

theorem runs_createSq (what : String) (cid : BitVec 16)
    (h : adminPair.Ready memSize maxNumKeys j d) (hj : j < 8) (hon : (d.n.cq 1).enabled = true) :
    ∃ d', adminPair.Ready memSize maxNumKeys (j + 1) d' ∧ d'.n.ns = d.n.ns ∧
      d'.n.cq 1 = d.n.cq 1 ∧ d'.n.sq 1 = ⟨BitVec.ofNat 64 iosqIova, 8, 1, 1, 0, 0, true⟩ ∧
      Runs (On (· = d)) (command adminPair j
        (nvmeSqe 0x01 cid 0 iosqIova createDword ((1#32 <<< 16) ||| 1)) cid what)
        fun _ => On (· = d') := by
  have hran (n : NvmeCtrl) (st : Status) (cdw0 : BitVec 32) (n₀ : NvmeCtrl) (sqe : NvmeSqe)
      (_ : n.world.vfu.MapsBelow memSize)
      (hdec : SqeDecodes sqe 0x01 cid iosqIova createDword ((1#32 <<< 16) ||| 1))
      (hcq : n.cq 1 = d.n.cq 1)
      (hx : nvmeExecute n (fun _ => true) 0 sqe = some (st, cdw0, n₀)) :
      st = nvmeSuccess ∧ n₀.sq 1 = ⟨BitVec.ofNat 64 iosqIova, 8, 1, 1, 0, 0, true⟩ ∧
        n₀.cq = n.cq ∧ n₀.ns = n.ns := by
    have hqid : ioQueue sqe.qid = some 1 := by rw [NvmeSqe.qid, hdec.cdw10]; decide
    have htarget : sqe.target = 1 := by rw [NvmeSqe.target, hdec.cdw11]; decide
    have hlive : n.liveCq sqe.target = true := by
      rw [htarget, NvmeCtrl.liveCq, dif_pos (by decide)]
      exact (congrArg NvmeCq.enabled hcq).trans hon
    have hsq : createdSq sqe = ⟨BitVec.ofNat 64 iosqIova, 8, 1, 1, 0, 0, true⟩ := by
      rw [createdSq, NvmeSqe.qsize, NvmeSqe.qid, NvmeSqe.target, hdec.prp1, hdec.cdw10, hdec.cdw11]
      decide
    have hx' : nvmeExecute n (fun _ => true) 0 sqe =
        some ((nvmeAdminCreateSq n sqe).1, 0, (nvmeAdminCreateSq n sqe).2) := by
      rw [nvmeExecute, if_pos rfl, nvmeAdminCmd, hdec.opcode, if_neg (by decide),
        if_neg (by decide), if_neg (by decide), if_neg (by decide), if_pos (by decide)]
    have hcreate : nvmeAdminCreateSq n sqe = (nvmeSuccess,
        (n.setSq 1 ⟨BitVec.ofNat 64 iosqIova, 8, 1, 1, 0, 0, true⟩).log (.sqInit 1 sqe.target)) := by
      simp only [nvmeAdminCreateSq, hqid]
      rw [if_pos hlive, hsq]
    rw [hx', hcreate] at hx
    obtain ⟨rfl, -, rfl⟩ : _ ∧ _ ∧ _ := by simpa using hx
    exact ⟨rfl, by simp, rfl, rfl⟩
  obtain ⟨n, n₀, d', ⟨hq, hqc, hqn⟩, hns, -, hcq, hready, hns', hsq', hcq', -, hruns⟩ :=
    runs_admin what 0x01 cid 0 iosqIova createDword ((1#32 <<< 16) ||| 1) h hj (by decide) _ hran
  exact ⟨d', hready, hns'.trans (hqn.trans hns), hcq'.trans ((congrFun hqc 1).trans hcq),
    hsq'.trans hq, hruns⟩

theorem map_window (mem : Memory) (base : ℕ) {off n size : ℕ} (h : off + n ≤ size) :
    (span (BitVec.ofNat 64 (base + off)) n).map mem =
      (((span (BitVec.ofNat 64 base) size).map mem).drop off).take n := by
  apply List.ext_getElem (by simp; omega)
  intro i h₁ h₂
  simp [span, BitVec.ofNat_add, BitVec.add_assoc]

theorem ioPair_at {n : NvmeCtrl} (hsq : n.sq 1 = ⟨BitVec.ofNat 64 iosqIova, 8, 1, 1, 0, 0, true⟩)
    (hcq : n.cq 1 = ⟨BitVec.ofNat 64 iocqIova, 8, 1, 0, 0, 1, 0, true⟩) : ioPair.At 0 n := by
  have hsq' : n.sq ioPair.q = _ := hsq
  have hcq' : n.cq ioPair.c = _ := hcq
  constructor <;> simp only [hsq', hcq']
  · rfl
  · rfl
  · rfl
  · rfl
  · rfl
  · rfl
  · exact ⟨rfl, rfl⟩

theorem runs_setup {ns : KvNs} : Runs (On (Off maxNumKeys ns)) setup fun _ => On fun d =>
    ioPair.Ready memSize maxNumKeys 0 d ∧ d.n.ns = ns := by
  refine runs_enable.seq (runs_of_each fun d h => ?_)
  obtain ⟨h, hns⟩ := h
  obtain ⟨d₁, h₁, hns₁, -, -, hpage₁, hrun₁⟩ := runs_identify "identify-controller" 1 0 0x01 h
    (by norm_num) (p := nvmeFillIdCtrl) fun n => rfl
  obtain ⟨d₂, h₂, hns₂, hcq₂, hrun₂⟩ := runs_createCq "create-io-cq" 2 h₁ (by norm_num)
  obtain ⟨d₃, h₃, hns₃, hcq₃, hsq₃, hrun₃⟩ := runs_createSq "create-io-sq" 3 h₂ (by norm_num)
    (by rw [hcq₂])
  obtain ⟨d₄, hd₄⟩ : ∃ d₄, d₄ =
    d₃.setMemory (stored d₃.n.world.mem dataIova (List.replicate page 0)) := ⟨_, rfl⟩
  have h₄ : adminPair.Ready memSize maxNumKeys 3 d₄ := hd₄ ▸ h₃.setMemory _
  obtain ⟨d₅, h₅, hns₅, hsq₅, hcq₅, hpage₅, hrun₅⟩ := runs_identify "identify-cs-ind-ns" 4 1 0x08 h₄
    (by norm_num) fun n => rfl
  obtain ⟨d₆, hd₆⟩ : ∃ d₆, d₆ =
    d₅.setMemory (stored d₅.n.world.mem dataIova (List.replicate page 0)) := ⟨_, rfl⟩
  have h₆ : adminPair.Ready memSize maxNumKeys 4 d₆ := hd₆ ▸ h₅.setMemory _
  obtain ⟨d₇, h₇, hns₇, hsq₇, hcq₇, hpage₇, hrun₇⟩ := runs_identify "identify-io-cmd-set" 5 1 0x1c h₆
    (by norm_num) fun n => rfl
  have hsq : d₇.n.sq 1 = ⟨BitVec.ofNat 64 iosqIova, 8, 1, 1, 0, 0, true⟩ := by
    rw [hsq₇, hd₆, Device.setMemory_sq, hsq₅, hd₄, Device.setMemory_sq, hsq₃]
  have hcq : d₇.n.cq 1 = ⟨BitVec.ofNat 64 iocqIova, 8, 1, 0, 0, 1, 0, true⟩ := by
    rw [hcq₇, hd₆, Device.setMemory_cq, hcq₅, hd₄, Device.setMemory_cq, hcq₃, hcq₂]
  have hns' : d₇.n.ns = ns := by
    rw [hns₇, hd₆, Device.setMemory_ns, hns₅, hd₄, Device.setMemory_ns, hns₃, hns₂, hns₁, hns]
  refine hrun₁.seq (runs_peek_ensure ?_ (hrun₂.seq (hrun₃.seq ((runs_poke_to hd₄).seq
    (hrun₅.seq (runs_peek_ensure ?_ ((runs_poke_to hd₆).seq (hrun₇.seq ?_))))))))
  · rw [map_window _ _ (by norm_num [kvssdPageSize] : 0x18 + 15 ≤ kvssdPageSize), hpage₁]
    decide +kernel
  · rw [map_window _ _ (by norm_num [kvssdPageSize] : 14 + 1 ≤ kvssdPageSize), hpage₅]
    decide +kernel
  · refine (runs_peek _ _).bind fun bytes => Runs.ensure ?_
    rintro c ⟨rfl, rfl⟩
    refine ⟨?_, ⟨h₇.reachable, h₇.idle, h₇.mapped, ioPair_at hsq hcq, ?_⟩, hns'⟩
    · rw [← span_take _ (by norm_num [kvssdPageSize] : 1 ≤ kvssdPageSize), List.map_take, hpage₇]
      decide +kernel
    · change (c.dev.n.sq 1).tail = (c.dev.n.sq 1).head
      rw [hsq]

end Admin

/-! ## The two KV commands -/

section Kv
variable {maxNumKeys : BitVec 32} {ednek : Bool} {k : ℕ} {m : KvMap} {d : Device} {r : KvRequest}

/-- A KV command that the map answers with success passes the checks. -/
theorem runs_kvCommand (what : String) (hcap : maxNumKeys.toNat < 2 ^ 30) (hr : r.Fits)
    (h : Live maxNumKeys ednek k m d) (hk : k < 8)
    (hpage : (span (BitVec.ofNat 64 valIova) kvssdPageSize).map d.n.world.mem = r.page)
    (hok : (answer maxNumKeys.toNat ednek m r).1.status = nvmeSuccess) :
    ∃ d', Live maxNumKeys ednek (k + 1) (answer maxNumKeys.toNat ednek m r).2 d' ∧
      (span (BitVec.ofNat 64 valIova) kvssdPageSize).map d'.n.world.mem =
        (answer maxNumKeys.toNat ednek m r).1.page ∧
      Runs (On (· = d)) (command ioPair k r.entry r.cid what) fun _ => On (· = d') := by
  have hentry : r.entry.length = 64 := kvCmd_length ..
  have hmod : k % ioPair.depth = k := Nat.mod_eq_of_lt hk
  obtain ⟨d₁, hd₁⟩ : ∃ d₁, d₁ = d.setMemory (stored d.n.world.mem (ioPair.sqSlot k) r.entry) :=
    ⟨_, rfl⟩
  have h₁ : Live maxNumKeys ednek k m d₁ := hd₁ ▸ h.setMemory _
  have hmem₁ : d₁.n.world.mem = stored d.n.world.mem (ioPair.sqSlot k) r.entry := by rw [hd₁, Device.setMemory_mem]
  have hentry₁ : ioPair.sqEntry d₁.n.world.mem (k % ioPair.depth) = ⟨Buffer.ofBytes r.entry⟩ := by
    rw [hmem₁, hmod, QueuePair.sqEntry_stored _ _ hentry]
  have hpage₁ : (span (BitVec.ofNat 64 valIova) kvssdPageSize).map d₁.n.world.mem = r.page := by
    have := valPage_stored d.n.world.mem k hentry
    rw [hmod] at this
    rw [hmem₁, this, hpage]
  have hcid : (⟨Buffer.ofBytes r.entry⟩ : NvmeSqe).cid = r.cid := kvCmd_cid ..
  obtain ⟨st, cdw0, n₀, d', d'', hans, hleft, hruns⟩ := runs_command what ioPair_within h.ready
    (.inr (entriesAllocated_lt h.ready.reachable hcap)) hentry (fun hq => absurd hq (by decide)) hk
    hcid hd₁ fun st cdw0 n₀ d' hans => by
      rw [(Answered_kv h₁ hr hans hentry₁ hpage₁).1] at hok
      exact hok
  obtain ⟨hanswer, hednek⟩ := Answered_kv h₁ hr hans hentry₁ hpage₁
  rw [hanswer]
  refine ⟨d'', ⟨hleft.ready, ?_, ?_⟩, ?_, hruns⟩
  · rw [hleft.ns, hednek]
  · rw [hleft.ns]
  · rw [hleft.mem]

theorem storeRequest_fits : storeRequest.Fits := by
  refine ⟨?_, ?_, ?_⟩ <;> decide

theorem retrieveRequest_fits : retrieveRequest.Fits := by
  refine ⟨?_, ?_, ?_⟩ <;> decide

/-- With room for the key, the map takes the value. -/
theorem answer_store {cap : ℕ} (ednek : Bool) (hroom : m harnessKey ≠ none ∨ m.card < cap) :
    answer cap ednek m storeRequest = (⟨nvmeSuccess, storeRequest.page⟩, Function.update m harnessKey
      (some (((m harnessKey).getD fun _ => 0).copy 0 harnessValue))) := by
  have hop : storeRequest.op = .store := rfl
  have hkey : storeRequest.key = harnessKey := rfl
  have hhbs : storeRequest.hbs.toNat = 15 := by decide
  have hro : storeRequest.ro = 0 := rfl
  have htake : storeRequest.page.take 15 = harnessValue := by decide +kernel
  cases hm : m harnessKey with
  | none =>
    have hfree := hroom.resolve_left (not_not.mpr hm)
    simp only [answer, hop, hkey, hm, hhbs, hro, htake, Option.getD_none]
    rw [if_neg (by norm_num), if_neg (by decide), if_neg (not_le.mpr hfree)]
  | some b =>
    simp only [answer, hop, hkey, hm, hhbs, hro, htake, Option.getD_some]
    rw [if_neg (by norm_num), if_neg (by decide)]

theorem answer_retrieve (cap : ℕ) (ednek : Bool) {b : Buffer 4096} (hm : m harnessKey = some b) :
    answer cap ednek m retrieveRequest = (⟨nvmeSuccess, b.bytes⟩, m) := by
  have hop : retrieveRequest.op = .retrieve := rfl
  have hkey : retrieveRequest.key = harnessKey := rfl
  have hhbs : retrieveRequest.hbs.toNat = 4096 := by decide
  have hlen : retrieveRequest.page.length = 4096 := retrieveRequest.page_length retrieveRequest_fits
  simp only [answer, hop, hkey, hm, hhbs]
  rw [List.take_of_length_le (by rw [Buffer.bytes_length]), List.drop_of_length_le hlen.le,
    List.append_nil]

end Kv

/-- On every reachable device that is idle and disabled, has the client's memory mapped and room
for the key, the harness passes, whatever the namespace holds; allocations succeed, and the
capacity keeps the table within the range of `int`. Afterwards the namespace holds the value at the
front of what was under the key, and every other key as before. -/
theorem harness_passes {maxNumKeys : BitVec 32} (hcap : maxNumKeys.toNat < 2 ^ 30) {d : Device}
    (hd : Start maxNumKeys d) :
    Runs (On (· = d)) harness fun _ => On fun e => e.Reachable maxNumKeys ∧ e.n.ns.contents =
      Function.update d.n.ns.contents harnessKey
        (some (((d.n.ns.contents harnessKey).getD fun _ => 0).copy 0 harnessValue)) := by
  have hsetup : Runs (On (· = d)) setup fun _ => On fun e =>
      ioPair.Ready memSize maxNumKeys 0 e ∧ e.n.ns = d.n.ns :=
    runs_setup.pre fun c hc => by
      cases hc
      exact ⟨hd.reachable, hd.idle, hd.mapped, hd.cc, rfl⟩
  refine hsetup.seq (runs_of_each fun d₀ h => ?_)
  obtain ⟨hready, hns⟩ := h
  have hlive : Live maxNumKeys (d.n.ns.ednek &&& 0x01 != 0) 0 d.n.ns.contents d₀ :=
    ⟨hready, by rw [hns], by rw [hns]⟩
  obtain ⟨d₁, hd₁⟩ : ∃ d₁, d₁ = d₀.setMemory (stored d₀.n.world.mem valIova storeRequest.page) :=
    ⟨_, rfl⟩
  obtain ⟨hlive₁, hpage₁⟩ := hlive.fill storeRequest_fits hd₁
  have hstore := answer_store (d.n.ns.ednek &&& 0x01 != 0) hd.room
  have hlen : harnessValue.length ≤ kvssdPageSize := by decide
  have hfront := Buffer.bytes_copy_zero ((d.n.ns.contents harnessKey).getD fun _ => 0) hlen
  generalize ((d.n.ns.contents harnessKey).getD fun _ => 0).copy 0 harnessValue = v
    at hstore hfront ⊢
  obtain ⟨d₂, hlive₂, -, hrun₂⟩ := runs_kvCommand "kv-store" hcap storeRequest_fits hlive₁
    (by norm_num) hpage₁ (by rw [hstore])
  rw [hstore] at hlive₂
  obtain ⟨d₃, hd₃⟩ : ∃ d₃, d₃ = d₂.setMemory (stored d₂.n.world.mem valIova retrieveRequest.page) :=
    ⟨_, rfl⟩
  obtain ⟨hlive₃, hpage₃⟩ := hlive₂.fill retrieveRequest_fits hd₃
  have hretrieve := answer_retrieve maxNumKeys.toNat (d.n.ns.ednek &&& 0x01 != 0)
    (Function.update_self harnessKey (some v) d.n.ns.contents)
  obtain ⟨d₄, hlive₄, hpage₄, hrun₄⟩ := runs_kvCommand "kv-retrieve" hcap retrieveRequest_fits
    hlive₃ (by norm_num) hpage₃ (by rw [hretrieve])
  rw [hretrieve] at hlive₄ hpage₄
  refine (runs_poke_to hd₁).seq (hrun₂.seq ((runs_poke_to hd₃).seq (hrun₄.seq ?_)))
  refine (runs_peek _ _).bind fun bytes => Runs.ensure ?_
  rintro c ⟨rfl, rfl⟩
  refine ⟨?_, hlive₄.ready.reachable, hlive₄.contents⟩
  rw [← span_take _ hlen, List.map_take, hpage₄, hfront, List.take_left]
  exact beq_self_eq_true _

theorem harness_passes_booted : ∃ d, Start 1 d ∧ ∃ c, harness.run ⟨d, 1, 0⟩ = .ok ((), c) ∧
    c.dev.n.ns.contents harnessKey ≠ none := by
  have hrun : (bootRun 1 (fun _ _ => true) []).map
      (fun d => (d.busy.isNone, d.n.cc, d.n.ns.numUsed)) = some (true, 0, 0) := by decide +kernel
  obtain ⟨d, hd, hobs⟩ := Option.map_eq_some_iff.mp hrun
  obtain ⟨hidle, hcc, hused⟩ : _ ∧ _ ∧ _ := by simpa only [Prod.mk.injEq] using hobs
  have hr := reachable_of_bootRun hd
  have hcard : d.n.ns.contents.card < (1 : BitVec 32).toNat := by
    rw [hr.ns_valid.1.card_contents, hused]
    decide
  have hstart : Start 1 { d with n := d.n.withWorld { d.n.world with vfu := .flat } } :=
    ⟨hr.next (i := .dmaRegions .flat) rfl, Option.isNone_iff_eq_none.mp hidle,
      Vfu.flat_mapsBelow memSize, hcc, .inr hcard⟩
  obtain ⟨_, c, hpass, -, hcontents⟩ := harness_passes (by decide) hstart ⟨_, 1, 0⟩ rfl
  refine ⟨_, hstart, c, hpass, ?_⟩
  rw [hcontents, Function.update_self]
  exact Option.some_ne_none _

end VfuKvssd.Harness
