import VfuKvssd.Controller.Host
import VfuKvssd.Controller.RegisterAccess
import VfuKvssd.Foundations.Programs

/-! # A client of the device and the stress programs it runs

The client reaches the device through BAR0 accesses and resets, and through the
memory that both share. A request is answered when the callback is done, so a
doorbell write comes back with every command executed. A program stops with
`errx` as the source does, and is `stuck` if the device has no defined outcome or
does not come back.
-/
namespace VfuKvssd
open Foundations

/-- Iterations of the loop in `nvme_process_sq` to its end. -/
def settle : ℕ → Device → Option Device
  | 0, _ => none
  | fuel + 1, d =>
    match d.busy with
    | none => some d
    | some _ => (d.step (.iterate fun _ => true)).bind (settle fuel)

/-- Iterations that the longest queue takes. -/
def settleFuel : ℕ := 2 ^ 16 + 1

/-- A BAR0 access until the reply: the buffer and the device. -/
def Device.access (d : Device) (isWrite : Bool) (offset : ℕ) (buf : List Byte) :
    Option (List Byte × Device) :=
  (nvmeBar0Access d.n buf offset isWrite).bind fun r =>
    (d.step (.bar0 isWrite offset buf)).bind fun d' =>
      (settle settleFuel d').map fun d'' => (r.2.1, d'')

/-- `struct ctx`, with the device in place of the socket to it. -/
structure Ctx where
  dev : Device
  seed : BitVec 32
  ops : BitVec 32

inductive Failure
  | stuck
  | errx (msg : String)

abbrev Client := Prog Ctx Failure

def page : ℕ := 4096
def memSize : ℕ := 32 * page
def asqIova : ℕ := 0
def acqIova : ℕ := page
def dataIova : ℕ := 2 * page
def dbAsqTail : ℕ := 0x1000
def dbAcqHead : ℕ := 0x1004
def qDepth : ℕ := 16

/-! ## Shared memory -/

def Device.setMemory (d : Device) (mem : Memory) : Device :=
  { d with n := d.n.withWorld { d.n.world with mem := mem } }

@[simp] theorem Device.setMemory_sq (d : Device) (mem : Memory) :
    (d.setMemory mem).n.sq = d.n.sq := rfl

@[simp] theorem Device.setMemory_cq (d : Device) (mem : Memory) :
    (d.setMemory mem).n.cq = d.n.cq := rfl

@[simp] theorem Device.setMemory_ns (d : Device) (mem : Memory) :
    (d.setMemory mem).n.ns = d.n.ns := rfl

@[simp] theorem Device.setMemory_mem (d : Device) (mem : Memory) :
    (d.setMemory mem).n.world.mem = mem := rfl

/-- A memory with bytes stored from an address on. -/
def stored (mem : Memory) (iova : ℕ) (bytes : List Byte) : Memory :=
  writeAll mem (span (BitVec.ofNat 64 iova) bytes.length) bytes

def poke (iova : ℕ) (bytes : List Byte) : Client Unit :=
  modify fun c => { c with dev := c.dev.setMemory (stored c.dev.n.world.mem iova bytes) }

def peekCqe (iova : ℕ) : Client NvmeCqe := do
  let c ← get
  return .ofBytes ((span (BitVec.ofNat 64 iova) 16).map c.dev.n.world.mem)

/-- A zeroed submission entry with some fields set: opcode at 0, CID at 2, NSID at 4, PRP1 at 24,
dwords 10 and 11 at 40. -/
def nvmeSqe (opcode : Byte) (cid : BitVec 16) (nsid : BitVec 32) (prp1 : ℕ)
    (cdw10 cdw11 : BitVec 32) : List Byte :=
  [opcode, 0] ++ leBytes 2 cid.toNat ++ leBytes 4 nsid.toNat ++ List.replicate 16 0 ++
    leBytes 8 (BitVec.ofNat 64 prp1).toNat ++ List.replicate 8 0 ++ leBytes 4 cdw10.toNat ++
    leBytes 4 cdw11.toNat ++ List.replicate 16 0

def asqSlot (slot : ℕ) : ℕ := asqIova + 64 * slot

def acqSlot (slot : ℕ) : ℕ := acqIova + 16 * slot

/-! ## Requests -/

/-- `none` is a request that libvfio-user rejects: it checks the range of a region. -/
def accessRegion (isWrite : Bool) (offset : ℕ) (data : List Byte) : Client (Option (List Byte)) :=
  fun c =>
    if nvmeBar0Size < offset + data.length then .ok (none, c)
    else
      match c.dev.access isWrite offset data with
      | none => .error .stuck
      | some (reply, dev) => .ok (some reply, { c with dev := dev })

def regRd32 (off : ℕ) : Client (BitVec 32) := do
  match ← accessRegion false off (leBytes 4 0) with
  | none => throw (.errx "reg read %#lx")
  | some data => return BitVec.ofNat 32 (leNat data)

def regWr32 (off : ℕ) (v : BitVec 32) : Client Unit := do
  match ← accessRegion true off (leBytes 4 v.toNat) with
  | none => throw (.errx "reg write %#lx")
  | some _ => return

def regWr64 (off : ℕ) (v : BitVec 64) : Client Unit := do
  match ← accessRegion true off (leBytes 8 v.toNat) with
  | none => throw (.errx "reg write64 %#lx")
  | some _ => return

/-- `VFIO_USER_DEVICE_RESET`, which the device answers with 0. -/
def deviceReset : Client Bool := fun c =>
  match c.dev.step .reset with
  | none => .error .stuck
  | some dev => .ok (true, { c with dev := dev })

/-- CC with IOCQES = 4, IOSQES = 6 and EN. -/
def ccEnable : BitVec 32 := (4#32 <<< 20) ||| (6#32 <<< 16) ||| nvmeCcEn

def ccShnNormal : BitVec 32 := 0x1#32 <<< 14

def controllerEnable : Client Unit := do
  regWr32 nvmeRegAqa (BitVec.ofNat 32 (qDepth - 1) ||| (BitVec.ofNat 32 (qDepth - 1) <<< 16))
  regWr64 nvmeRegAsq (BitVec.ofNat 64 asqIova)
  regWr64 nvmeRegAcq (BitVec.ofNat 64 acqIova)
  regWr32 nvmeRegCc ccEnable
  let csts ← regRd32 nvmeRegCsts
  ensure (csts &&& nvmeCstsRdy != 0) (.errx "enable: CSTS.RDY did not go high")

def controllerDisable : Client Unit := do
  regWr32 nvmeRegCc 0
  let csts ← regRd32 nvmeRegCsts
  ensure (csts &&& nvmeCstsRdy == 0) (.errx "disable: CSTS.RDY did not go low")

/-- Identify Controller into the data page. -/
def identifySqe (cid : BitVec 16) : List Byte :=
  nvmeSqe nvmeAdmIdentify cid 0 dataIova 0x01 0

def sanityIdentify (cid : BitVec 16) : Client Unit := do
  poke (acqSlot 0) (List.replicate 16 0)
  poke (asqSlot 0) (identifySqe cid)
  regWr32 dbAsqTail 1
  let cqe ← peekCqe (acqSlot 0)
  ensure (cqe.status &&& 1 == 1 && cqe.status >>> 1 == 0)
    (.errx "sanity: bad CQE status %#x after identify")
  ensure (cqe.cid == cid) (.errx "sanity: cid mismatch %u != %u")
  regWr32 dbAcqHead 1

/-! ## Modes of the hammer -/

def countOps (k : ℕ) : Client Unit := modify fun c => { c with ops := c.ops + BitVec.ofNat 32 k }

def Ctx.reseed (c : Ctx) : Ctx := { c with seed := c.seed * 1103515245 + 12345 }

theorem Ctx.reseed_dev (c : Ctx) : c.reseed.dev = c.dev := by rw [reseed]

def xrand : Client ℕ := do
  modify Ctx.reseed
  let c ← get
  return ((c.seed >>> 16) &&& 0x7fff).toNat

def modeFlr (iters : BitVec 32) : Client Unit :=
  forLoop iters.toNat (fun _ _ => do
    let ok ← deviceReset
    ensure ok (.errx "flr[%u]: VFIO_USER_DEVICE_RESET failed")
    countOps 1) ()

def modeCc (iters : BitVec 32) : Client Unit :=
  forLoop iters.toNat (fun _ _ => do
    controllerEnable
    controllerDisable
    countOps 2) ()

def modeShn (iters : BitVec 32) : Client Unit :=
  forLoop iters.toNat (fun _ _ => do
    controllerEnable
    regWr32 nvmeRegCc (ccEnable ||| ccShnNormal)
    let csts ← regRd32 nvmeRegCsts
    ensure (csts &&& nvmeCstsShstMask == nvmeCstsShstComplete)
      (.errx "shn[%u]: CSTS.SHST did not reach complete")
    controllerDisable
    countOps 3) ()

/-- Local variables of `mode_doorbell`. -/
structure DoorbellVars where
  phase : BitVec 16
  head : BitVec 16
  tail : BitVec 16
  cid : BitVec 16

def nextSlot (slot : BitVec 16) : BitVec 16 := BitVec.ofNat 16 ((slot.toNat + 1) % qDepth)

def fillEntry (v : DoorbellVars) : Client DoorbellVars := do
  poke (asqSlot v.tail.toNat) (identifySqe v.cid)
  return { v with tail := nextSlot v.tail, cid := v.cid + 1 }

def drainEntry (v : DoorbellVars) : Client DoorbellVars := do
  let cqe ← peekCqe (acqSlot v.head.toNat)
  ensure (cqe.status &&& 1 == v.phase) (.errx "doorbell[%u]: cqe[%u].phase=%u expected %u")
  ensure (cqe.status >>> 1 == 0) (.errx "doorbell[%u]: status=%#x")
  return { v with
    head := nextSlot v.head
    phase := if nextSlot v.head = 0 then v.phase ^^^ 1 else v.phase }

/-- A batch of Identify commands, one doorbell, and its completions. -/
def doorbellRound (v : DoorbellVars) : Client DoorbellVars := do
  let r ← xrand
  let batch := r % (qDepth - 1) + 1
  let v ← forLoop batch (fun _ => fillEntry) v
  regWr32 dbAsqTail (v.tail.setWidth 32)
  let v ← whileLoop (fun v => v.head != v.tail) drainEntry .stuck qDepth v
  regWr32 dbAcqHead (v.head.setWidth 32)
  countOps batch
  return v

def modeDoorbell (iters : BitVec 32) : Client Unit := do
  controllerEnable
  poke acqIova (List.replicate (qDepth * 16) 0)
  let _ ← forLoop iters.toNat (fun _ => doorbellRound) ⟨1, 0, 0, 100⟩
  controllerDisable

def modeGarbage (iters : BitVec 32) : Client Unit := do
  forLoop iters.toNat (fun _ _ => do
    let _ ← accessRegion true nvmeRegCap (leBytes 8 0xdeadbeefdeadbeef)
    let _ ← accessRegion true nvmeRegVs (leBytes 4 0xdeadbeef)
    let _ ← accessRegion true 0x1f00 (leBytes 4 0xdeadbeef)
    let _ ← accessRegion true (nvmeRegCc + 1) [0x5a]
    let _ ← accessRegion false 0x1f00 (leBytes 4 0xdeadbeef)
    countOps 5) ()
  controllerEnable
  sanityIdentify 0xdeae
  controllerDisable

/-- Head and phase of the rings that `submit_drain_admin` keeps. -/
structure DrainVars where
  head : BitVec 16
  phase : BitVec 16

/-- Submit one command and read its completion: the status field and the rings after it. -/
def submitDrainAdmin (v : DrainVars) (cmd : List Byte) : Client (BitVec 16 × DrainVars) := do
  let tail := nextSlot v.head
  poke (asqSlot v.head.toNat) cmd
  regWr32 dbAsqTail (tail.setWidth 32)
  let cqe ← peekCqe (acqSlot v.head.toNat)
  ensure (cqe.status &&& 1 == v.phase)
    (.errx "submit_drain: cqe[%u].phase=%u expected %u status=%#x")
  regWr32 dbAcqHead (tail.setWidth 32)
  return (cqe.status, ⟨tail, if tail = 0 then v.phase ^^^ 1 else v.phase⟩)

def cidOf (base : BitVec 16) (i : ℕ) : BitVec 16 := base + BitVec.ofNat 16 (i % 0x1000)

def modeBadDma (iters : BitVec 32) : Client Unit := do
  controllerEnable
  poke acqIova (List.replicate (qDepth * 16) 0)
  let _ ← forLoop iters.toNat (fun i v => do
    let r ← submitDrainAdmin v (nvmeSqe nvmeAdmIdentify (cidOf 0xb000 i) 0
      (0xdeadbeef0000 + i * 0x1000) 0x01 0)
    countOps 1
    return r.2) ⟨0, 1⟩
  controllerDisable

def modeBadQueue (iters : BitVec 32) : Client Unit := do
  controllerEnable
  poke acqIova (List.replicate (qDepth * 16) 0)
  let _ ← forLoop iters.toNat (fun i v => do
    let _ ← accessRegion true 0x1500 (leBytes 4 1)
    let r ← submitDrainAdmin v
      (nvmeSqe nvmeAdmCreateCq (cidOf 0xb100 i) 0 0xfeedfeed000 ((15#32 <<< 16) ||| 1) 1)
    let r ← submitDrainAdmin r.2
      (nvmeSqe nvmeAdmCreateSq (cidOf 0xb200 i) 0 asqIova ((15#32 <<< 16) ||| 1)
        ((63#32 <<< 16) ||| 1))
    countOps 3
    return r.2) ⟨0, 1⟩
  controllerDisable

/-- The modes that go through BAR0 and the reset. -/
inductive Mode
  | flr
  | cc
  | shn
  | doorbell
  | garbage
  | badDma
  | badQueue

def Mode.fn : Mode → BitVec 32 → Client Unit
  | .flr => modeFlr
  | .cc => modeCc
  | .shn => modeShn
  | .doorbell => modeDoorbell
  | .garbage => modeGarbage
  | .badDma => modeBadDma
  | .badQueue => modeBadQueue

/-- A mode and the round trip of an Identify command that `main` makes after each. -/
def modeAndSanity (m : Mode) (iters : BitVec 32) (cid : BitVec 16) : Client Unit := do
  m.fn iters
  controllerEnable
  sanityIdentify cid
  controllerDisable

/-- Modes one after the other, each with its number of rounds and the CID of its sanity check. -/
def hammer : List (Mode × BitVec 32 × BitVec 16) → Client Unit
  | [] => return
  | (m, iters, cid) :: jobs => do
    modeAndSanity m iters cid
    hammer jobs

end VfuKvssd
