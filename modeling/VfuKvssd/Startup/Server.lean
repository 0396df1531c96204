import VfuKvssd.Startup.Options
import VfuKvssd.Controller.RegisterAccess

/-! # The life of the server process

`main` sets the device up with one library call after the other, then attaches a
client, serves it until it leaves, and waits for the next. A failed setup call
jumps to the label that undoes what was done before it. SIGINT and SIGTERM only
set a flag, which is looked at between two library calls. A step of the process
is the return of the call under way, a callback made by `vfu_run_ctx`, or a
signal.
-/
namespace VfuKvssd
open Foundations

/-! ## The calls -/

def nvmeNumIrqs : ℕ := nvmeMaxQueues
def nvmeMsixBar : ℕ := 4
def nvmeMsixTableOffset : ℕ := 0
def nvmeMsixPbaOffset : ℕ := 1024
def nvmeMsixBarSize : ℕ := 4096

/-- The fields of the MSI-X capability: table and PBA as a BAR and an offset in units of 8 bytes. -/
structure MsixCap where
  id : ℕ
  next : ℕ
  ts : ℕ
  tbir : ℕ
  tableOffset : ℕ
  pbir : ℕ
  pbaOffset : ℕ

def msixCap : MsixCap where
  id := 0x11
  next := 0
  ts := nvmeNumIrqs - 1
  tbir := nvmeMsixBar
  tableOffset := nvmeMsixTableOffset >>> 3
  pbir := nvmeMsixBar
  pbaOffset := nvmeMsixPbaOffset >>> 3

-- table and pending bits lie one behind the other in the same BAR, within its size
example :
    msixCap.tbir = msixCap.pbir ∧
      8 * msixCap.tableOffset + 16 * (msixCap.ts + 1) ≤ 8 * msixCap.pbaOffset ∧
      8 * msixCap.pbaOffset + 8 * ((msixCap.ts + 1 + 63) / 64) ≤ nvmeMsixBarSize := by decide

/-- The calls that `main` makes: those into the library, and those that start and end the
controller. -/
inductive Call
  | createCtx (path : CString)
  | setupLog
  | pciInit
  | setId (vendor device : ℕ)
  /-- revision, programming interface, subclass and class in the configuration space -/
  | setClass (bytes : List Byte)
  | setupRegion (bar size : ℕ)
  | addCapability (cap : MsixCap)
  | setupDma
  | setupResetCb
  | setupNrIrqs (count : ℕ)
  | ctrlInit (maxNumKeys : BitVec 32)
  | realize
  | attach
  | run
  | teardown
  | destroy

/-- Calls between the creation of the context and the controller's own start. -/
def configuration : List Call :=
  [.setupLog, .pciInit, .setId 0x1b36 0x0010, .setClass [0x00, 0x02, 0x08, 0x01],
    .setupRegion 0 nvmeBar0Size, .setupRegion nvmeMsixBar nvmeMsixBarSize, .addCapability msixCap,
    .setupDma, .setupResetCb, .setupNrIrqs nvmeNumIrqs]

def setupCalls (path : CString) (k : BitVec 32) : List Call :=
  .createCtx path :: configuration ++ [.ctrlInit k, .realize]

/-- The calls made before `main` returns 1 when this one fails; `none` when its result is not
looked at. -/
def Call.cleanup : Call → Option (List Call)
  | .createCtx _ => some []
  | .setupLog | .setId _ _ | .setClass _ => none
  | .realize => some [.teardown, .destroy]
  | _ => some [.destroy]

/-! ## The process -/

/-- `errno` after a failed call. -/
inductive Errno
  | eagain
  | eintr
  | enotconn
  | other
deriving DecidableEq

inductive Phase
  /-- the first of these calls is under way -/
  | setup (todo : List Call)
  | attaching
  | running
  | exited (code : ℕ)

structure Process where
  phase : Phase
  /-- `g_stop` -/
  stop : Bool
  /-- calls that have returned, with their error -/
  log : List (Call × Option Errno)
  /-- the controller between its start and its teardown -/
  ctrl : Option Device

inductive Happening
  /-- the library call under way returns -/
  | returns (e : Option Errno)
  /-- `nvme_ctrl_init` runs -/
  | initialises (heap : Heap) (vfu : Vfu) (mem : Memory)
  /-- `vfu_run_ctx` serves a request, or the guest acts on its memory -/
  | request (i : Input)
  /-- SIGINT or SIGTERM, once their handler is installed -/
  | signal

namespace Process

def returned (p : Process) (c : Call) (e : Option Errno) : Process :=
  { p with log := p.log ++ [(c, e)] }

/-- Both ways out: the last calls, and the exit status. -/
def leave (p : Process) (calls : List Call) (code : ℕ) : Process where
  phase := .exited code
  stop := p.stop
  log := p.log ++ calls.map fun c => (c, none)
  ctrl := none

def loop (p : Process) : Process :=
  if p.stop then p.leave [.teardown, .destroy] 0 else { p with phase := .attaching }

/-- The next setup call; after the last one the handlers are installed and the loop starts. -/
def proceed (p : Process) : List Call → Process
  | [] => p.loop
  | todo => { p with phase := .setup todo }

def bail (p : Process) (c : Call) (e : Errno) (todo : List Call) : Process :=
  match c.cleanup with
  | none => (p.returned c (some e)).proceed todo
  | some calls => (p.returned c (some e)).leave calls 1

def step (p : Process) : Happening → Option Process
  | .signal =>
    match p.phase with
    | .attaching | .running => some { p with stop := true }
    | _ => none
  | .request i =>
    match p.phase, p.ctrl with
    | .running, some d => (d.step i).map fun d => { p with ctrl := some d }
    | _, _ => none
  | .initialises heap vfu mem =>
    match p.phase with
    | .setup (.ctrlInit k :: todo) =>
      match nvmeCtrlInit heap ⟨vfu, mem, []⟩ k with
      | none => some (p.bail (.ctrlInit k) .other todo)
      | some n => some (({ p with ctrl := some ⟨n, none⟩ }.returned (.ctrlInit k) none).proceed todo)
    | _ => none
  | .returns e =>
    match p.phase with
    | .setup (.ctrlInit _ :: _) => none
    | .setup (c :: todo) =>
      match e with
      | none => some ((p.returned c none).proceed todo)
      | some e => some (p.bail c e todo)
    | .attaching =>
      match e with
      | none => some { p.returned .attach none with phase := .running }
      | some .eagain => some (p.returned .attach e).loop
      | some .eintr => some (p.returned .attach e).loop
      | some _ => some ((p.returned .attach e).leave [.teardown, .destroy] 0)
    | .running =>
      -- callbacks run inside the call, so it returns with no doorbell being served
      match p.ctrl with
      | some ⟨_, none⟩ =>
        let p := p.returned .run e
        match e with
        | none => some (if p.stop then p.loop else p)
        | some .enotconn => some p.loop
        | some .eintr => some p.loop
        | some _ => some (p.leave [.teardown, .destroy] 0)
      | _ => none
    | _ => none

/-- The process once the options are read. -/
def start (opts : List Opt) : Process :=
  match mainArguments opts with
  | .error e => ⟨.exited e.code, false, [], none⟩
  | .ok (path, k) => ⟨.setup (setupCalls path k), false, [], none⟩

end Process

end VfuKvssd
