import VfuKvssd.Startup.Server

/-! # What the process holds

libvfio-user asks for an order of calls: a context is created, configured,
realized, used and destroyed, and the controller that its callbacks act on lives
from before the realization to before the destruction. Every run of the process
keeps to this order, on the error paths as well, and ends with nothing held.
-/
namespace VfuKvssd
open Foundations

/-- What the process holds. -/
structure Held where
  ctx : Bool
  ctrl : Bool
  realized : Bool
  client : Bool
deriving DecidableEq

def Held.nothing : Held := ⟨false, false, false, false⟩

/-- A call at the right moment, and what is held after it; `none` is a call out of turn. A context
is configured before it is realized, the controller starts before the context is realized and ends
before it is destroyed, and clients are served in between. A client may be attached while one is
held, as after an `EINTR` from the serving call. -/
def Held.after (h : Held) : Call × Option Errno → Option Held
  | (.createCtx _, e) => if h.ctx then none else some { h with ctx := e.isNone }
  | (.ctrlInit _, e) =>
    if h.ctx && !h.ctrl && !h.realized then some { h with ctrl := e.isNone } else none
  | (.realize, e) =>
    if h.ctrl && !h.realized then some { h with realized := e.isNone } else none
  | (.attach, e) =>
    if h.ctrl && h.realized then some { h with client := h.client || e.isNone } else none
  | (.run, e) =>
    if h.ctrl && h.client then some { h with client := decide (e ≠ some .enotconn) } else none
  | (.teardown, _) => if h.ctrl then some { h with ctrl := false } else none
  | (.destroy, _) => if h.ctx && !h.ctrl then some .nothing else none
  | _ => if h.ctx && !h.realized then some h else none

/-- What is held after a list of calls. -/
def held (log : List (Call × Option Errno)) : Option Held := log.foldlM Held.after .nothing

theorem held_append {log : List (Call × Option Errno)} {h : Held} (hl : held log = some h)
    (rs : List (Call × Option Errno)) : held (log ++ rs) = rs.foldlM Held.after h := by
  rw [held, List.foldlM_append]
  change (held log).bind _ = _
  rw [hl, Option.bind_some]

theorem held_concat {log : List (Call × Option Errno)} {h : Held} (hl : held log = some h)
    (r : Call × Option Errno) : held (log ++ [r]) = h.after r := by
  simp [held_append hl]

/-- Calls that configure the context. -/
def Call.Configures : Call → Prop
  | .setupLog | .pciInit | .setId _ _ | .setClass _ | .setupRegion _ _ | .addCapability _
  | .setupDma | .setupResetCb | .setupNrIrqs _ => True
  | _ => False

theorem configuration_configures : ∀ c ∈ configuration, c.Configures := by
  simp [configuration, Call.Configures]

/-- A configuration call changes nothing that is held, and its failure destroys the context. -/
theorem Call.Configures.after {c : Call} (hc : c.Configures) (e : Option Errno) :
    Held.after ⟨true, false, false, false⟩ (c, e) = some ⟨true, false, false, false⟩ := by
  cases c <;> first | rfl | cases hc

theorem Call.Configures.cleanup {c : Call} (hc : c.Configures) :
    c.cleanup = none ∨ c.cleanup = some [.destroy] := by
  cases c <;> first | exact .inl rfl | exact .inr rfl | cases hc

theorem Call.Configures.step {c : Call} (hc : c.Configures) {p : Process} {todo : List Call}
    (hp : p.phase = .setup (c :: todo)) (e : Option Errno) :
    p.step (.returns e) = match e with
      | none => some ((p.returned c none).proceed todo)
      | some e => some (p.bail c e todo) := by
  cases c <;> first | exact hc.elim | cases e <;> simp only [Process.step, hp]

/-- Setup calls still to be made, and what is held then. -/
inductive SetupAt (path : CString) (k : BitVec 32) : List Call → Held → Prop
  | create : SetupAt path k (setupCalls path k) .nothing
  | configure {cs : List Call} (hcs : cs <:+ configuration) :
      SetupAt path k (cs ++ [.ctrlInit k, .realize]) ⟨true, false, false, false⟩
  | realize : SetupAt path k [.realize] ⟨true, true, false, false⟩

/-- Whether the controller exists, and that it is one the device model reaches. -/
structure Controls (k : BitVec 32) (ctrl : Option Device) (held : Bool) : Prop where
  isSome : held = ctrl.isSome
  reachable : ∀ d, ctrl = some d → d.Reachable k

/-- Between the start and the end of the serving loop. -/
structure Process.Serving (k : BitVec 32) (p : Process) (client : Bool) : Prop where
  held : held p.log = some ⟨true, true, true, client⟩
  realized : (.realize, none) ∈ p.log
  ctrl : Controls k p.ctrl true

/-- What is held agrees with the phase. -/
inductive Process.Stands (path : CString) (k : BitVec 32) (p : Process) : Prop
  | setup {todo : List Call} {h : Held} (hp : p.phase = .setup todo) (hat : SetupAt path k todo h)
      (hl : held p.log = some h) (hs : p.stop = false) (hr : (.realize, none) ∉ p.log)
      (hc : Controls k p.ctrl h.ctrl)
  | attaching {client : Bool} (hp : p.phase = .attaching) (hs : p.Serving k client)
  | running (hp : p.phase = .running) (hs : p.Serving k true)
  | exited {code : ℕ} (hp : p.phase = .exited code) (hl : held p.log = some .nothing)
      (hc : p.ctrl = none) (hcode : code = 0 ∧ (.realize, none) ∈ p.log ∨
        code = 1 ∧ (.realize, none) ∉ p.log ∧ p.stop = false)

namespace Process
variable {path : CString} {k : BitVec 32} {p : Process} {client : Bool}

theorem Serving.leave (h : p.Serving k client) :
    (p.leave [.teardown, .destroy] 0).Stands path k := by
  refine .exited rfl ?_ rfl (.inl ⟨rfl, List.mem_append_left _ h.realized⟩)
  exact held_append h.held [(.teardown, none), (.destroy, none)]

theorem Serving.loop (h : p.Serving k client) : p.loop.Stands path k := by
  rw [Process.loop]
  split
  · exact h.leave
  · exact .attaching rfl ⟨h.held, h.realized, h.ctrl⟩

theorem Serving.returned (h : p.Serving k client) {c : Call} {e : Option Errno} {client' : Bool}
    (hc : Held.after ⟨true, true, true, client⟩ (c, e) = some ⟨true, true, true, client'⟩) :
    (p.returned c e).Serving k client' :=
  ⟨(held_concat h.held _).trans hc, List.mem_append_left _ h.realized, h.ctrl⟩

/-- A client is attached, or there was none to attach. -/
theorem Stands.attach_returns (h : p.Serving k client) (hp : p.phase = .attaching)
    {e : Option Errno} {p' : Process} (hs : p.step (.returns e) = some p') :
    p'.Stands path k := by
  simp only [step, hp] at hs
  cases e with
  | none =>
    rw [← Option.some.inj hs]
    have hret : (p.returned .attach none).Serving k (client || true) := h.returned rfl
    rw [Bool.or_true] at hret
    exact .running rfl ⟨hret.held, hret.realized, hret.ctrl⟩
  | some e =>
    have hret : (p.returned .attach (some e)).Serving k (client || false) := h.returned rfl
    cases e with
    | eagain | eintr => exact Option.some.inj hs ▸ hret.loop
    | enotconn | other => exact Option.some.inj hs ▸ hret.leave

/-- The client is still there, or has left. -/
theorem Stands.run_returns (h : p.Serving k true) (hp : p.phase = .running) {e : Option Errno}
    {p' : Process} (hs : p.step (.returns e) = some p') : p'.Stands path k := by
  have hret : (p.returned .run e).Serving k (decide (e ≠ some .enotconn)) := h.returned rfl
  simp only [step, hp] at hs
  split at hs
  swap
  · cases hs
  cases e with
  | none =>
    rw [← Option.some.inj hs]
    split
    · exact hret.loop
    · exact .running hp hret
  | some e =>
    cases e with
    | enotconn | eintr => exact Option.some.inj hs ▸ hret.loop
    | eagain | other => exact Option.some.inj hs ▸ hret.leave

/-! ### Setup -/

theorem Stands.proceed {h : Held} {todo : List Call} (hat : SetupAt path k todo h)
    (hl : VfuKvssd.held p.log = some h) (hs : p.stop = false) (hr : (.realize, none) ∉ p.log)
    (hc : Controls k p.ctrl h.ctrl) : (p.proceed todo).Stands path k := by
  cases todo with
  | nil =>
    -- the last call is still to be made
    generalize htodo : ([] : List Call) = todo at hat
    cases hat with
    | create | realize => cases htodo
    | configure => simp at htodo
  | cons c todo => exact .setup rfl hat hl hs hr hc

/-- A failed call whose cleanup releases what is held. -/
theorem Stands.leave_one {h : Held} {calls : List Call} (hl : VfuKvssd.held p.log = some h)
    (hrelease : (calls.map fun c => (c, (none : Option Errno))).foldlM Held.after h = some .nothing)
    (hr : (.realize, none) ∉ p.log) (hcalls : .realize ∉ calls) (hs : p.stop = false) :
    (p.leave calls 1).Stands path k := by
  refine .exited rfl ((held_append hl _).trans hrelease) rfl (.inr ⟨rfl, fun hm => ?_, hs⟩)
  rcases List.mem_append.mp hm with hm | hm
  · exact hr hm
  · obtain ⟨c, hc, he⟩ := List.mem_map.mp hm
    rw [Prod.mk.injEq] at he
    exact hcalls (he.1 ▸ hc)

theorem returned_not_realized {c : Call} {e : Option Errno} (hr : (.realize, none) ∉ p.log)
    (hc : (c, e) ≠ (.realize, none)) : (.realize, none) ∉ (p.returned c e).log := by
  intro hm
  rcases List.mem_append.mp hm with hm | hm
  · exact hr hm
  · exact hc (List.mem_singleton.mp hm).symm

theorem Stands.setup_returns {todo : List Call} {h : Held} (hp : p.phase = .setup todo)
    (hat : SetupAt path k todo h) (hl : VfuKvssd.held p.log = some h) (hs : p.stop = false)
    (hr : (.realize, none) ∉ p.log) (hc : Controls k p.ctrl h.ctrl) {e : Option Errno}
    {p' : Process} (hstep : p.step (.returns e) = some p') : p'.Stands path k := by
  cases hat with
  | create =>
    simp only [step, hp, setupCalls, List.cons_append] at hstep
    have hnew := returned_not_realized (c := .createCtx path) (e := e) hr (by simp)
    cases e with
    | none =>
      rw [← Option.some.inj hstep]
      exact proceed (.configure List.suffix_rfl) (held_concat hl _) hs hnew hc
    | some e =>
      rw [← Option.some.inj hstep]
      exact leave_one (held_concat hl _) rfl hnew (by simp) hs
  | @configure cs hcs =>
    cases cs with
    | nil => simp [step, hp] at hstep
    | cons c cs =>
      have hconf := configuration_configures c (hcs.subset (by simp))
      have hrest : cs <:+ configuration := (List.suffix_cons c cs).trans hcs
      have hheld := (held_concat hl (c, e)).trans (hconf.after e)
      have hnew := returned_not_realized (c := c) (e := e) hr fun he => by
        rw [(Prod.mk.inj he).1] at hconf
        exact hconf
      have hgo : ((p.returned c e).proceed (cs ++ [.ctrlInit k, .realize])).Stands path k :=
        proceed (.configure hrest) hheld hs hnew hc
      rw [hconf.step hp e] at hstep
      cases e with
      | none => exact Option.some.inj hstep ▸ hgo
      | some e =>
        rw [← Option.some.inj hstep, bail]
        rcases hconf.cleanup with hcl | hcl
        · rw [hcl]
          exact hgo
        · rw [hcl]
          exact leave_one hheld rfl hnew (by simp) hs
  | realize =>
    simp only [step, hp] at hstep
    cases e with
    | none =>
      rw [← Option.some.inj hstep]
      have hserving : (p.returned .realize none).Serving k false :=
        ⟨held_concat hl _, by simp [returned], hc⟩
      exact hserving.loop
    | some e =>
      rw [← Option.some.inj hstep]
      exact leave_one (held_concat hl _) rfl (returned_not_realized hr (by simp)) (by simp) hs

theorem Stands.setup_initialises {todo : List Call} {h : Held} (hp : p.phase = .setup todo)
    (hat : SetupAt path k todo h) (hl : VfuKvssd.held p.log = some h) (hs : p.stop = false)
    (hr : (.realize, none) ∉ p.log) {heap : Heap} {vfu : Vfu} {mem : Memory} {p' : Process}
    (hstep : p.step (.initialises heap vfu mem) = some p') : p'.Stands path k := by
  cases hat with
  | create => simp [step, hp, setupCalls] at hstep
  | realize => simp [step, hp] at hstep
  | @configure cs hcs =>
    cases cs with
    | cons c cs =>
      have hconf := configuration_configures c (hcs.subset (by simp))
      cases c <;> first | exact hconf.elim | simp [step, hp] at hstep
    | nil =>
      simp only [step, hp, List.nil_append] at hstep
      split at hstep
      · rw [← Option.some.inj hstep]
        exact leave_one (held_concat hl _) rfl (returned_not_realized hr (by simp)) (by simp) hs
      · rename_i n hn
        rw [← Option.some.inj hstep]
        refine proceed .realize (held_concat hl _) hs (returned_not_realized hr (by simp)) ?_
        refine ⟨rfl, fun d hd => ?_⟩
        rw [← Option.some.inj hd]
        exact ⟨_, ⟨⟨heap, _, hn, rfl⟩, rfl⟩, .refl⟩

/-! ### Runs -/

theorem Stands.step {p' : Process} {x : Happening} (h : p.Stands path k)
    (hstep : p.step x = some p') : p'.Stands path k := by
  cases h with
  | setup hp hat hl hs hr hc =>
    cases x with
    | returns e => exact setup_returns hp hat hl hs hr hc hstep
    | initialises heap vfu mem => exact setup_initialises hp hat hl hs hr hstep
    | request i => simp [Process.step, hp] at hstep
    | signal => simp [Process.step, hp] at hstep
  | attaching hp hs =>
    cases x with
    | returns e => exact attach_returns hs hp hstep
    | initialises heap vfu mem => simp [Process.step, hp] at hstep
    | request i => simp [Process.step, hp] at hstep
    | signal =>
      simp only [Process.step, hp, Option.some.injEq] at hstep
      exact hstep ▸ .attaching rfl ⟨hs.held, hs.realized, hs.ctrl⟩
  | running hp hs =>
    cases x with
    | returns e => exact run_returns hs hp hstep
    | initialises heap vfu mem => simp [Process.step, hp] at hstep
    | request i =>
      obtain ⟨d, hc⟩ := Option.isSome_iff_exists.mp hs.ctrl.isSome.symm
      simp only [Process.step, hp, hc] at hstep
      obtain ⟨d', hd', rfl⟩ := Option.map_eq_some_iff.mp hstep
      refine .running rfl ⟨hs.held, hs.realized, rfl, fun d'' hd'' => ?_⟩
      rw [← Option.some.inj hd'']
      exact (hs.ctrl.reachable d hc).next hd'
    | signal =>
      simp only [Process.step, hp, Option.some.injEq] at hstep
      exact hstep ▸ .running rfl ⟨hs.held, hs.realized, hs.ctrl⟩
  | exited hp =>
    cases x <;> simp [Process.step, hp] at hstep

theorem Stands.holds (h : p.Stands path k) :
    ∃ h, VfuKvssd.held p.log = some h ∧ Controls k p.ctrl h.ctrl ∧
      ∀ code, p.phase = .exited code → h = .nothing := by
  cases h with
  | setup hp hat hl hs hr hc => exact ⟨_, hl, hc, by simp [hp]⟩
  | attaching hp hs | running hp hs => exact ⟨_, hs.held, hs.ctrl, by simp [hp]⟩
  | exited hp hl hc => exact ⟨_, hl, ⟨by rw [hc]; rfl, by simp [hc]⟩, fun _ _ => rfl⟩

/-- With options that are accepted, every run keeps to the life cycle. -/
theorem stands {opts : List Opt} (hm : mainArguments opts = .ok (path, k))
    (hr : Reaches step (fun _ _ => True) (start opts) p) : p.Stands path k := by
  refine hr.invariant (I := fun p => p.Stands path k) (fun _ _ _ h _ hs => h.step hs) ?_
  rw [start, hm]
  exact .setup rfl .create rfl rfl (by simp) ⟨rfl, by simp⟩

theorem refused {opts : List Opt} {e : Refusal} (hm : mainArguments opts = .error e)
    (hr : Reaches step (fun _ _ => True) (start opts) p) :
    p = ⟨.exited e.code, false, [], none⟩ := by
  refine hr.invariant (I := fun p => p = ⟨.exited e.code, false, [], none⟩) ?_ ?_
  · rintro _ x _ rfl - hs
    cases x <;> simp [step] at hs
  · rw [start, hm]

end Process

/-- In every state of every run of the process the calls so far were made in turn; the controller
exists exactly while it is held and is in a state that the device reaches from the capacity of the
options; and the process exits with nothing held, with status 0 exactly when the context was
realized or an option asked for no more. -/
theorem Process.acquires_and_releases {opts : List Opt} {p : Process}
    (hr : Reaches step (fun _ _ => True) (start opts) p) :
    (∃ h, held p.log = some h ∧ h.ctrl = p.ctrl.isSome ∧
      ∀ code, p.phase = .exited code → h = .nothing) ∧
    (∀ d, p.ctrl = some d → ∃ k,
      maxNumKeysOf (opts.foldl capacityNext vfuKvssdDefaultCapacity) = some k ∧ d.Reachable k) ∧
    ∀ code, p.phase = .exited code →
      (code = 0 ↔ (.realize, none) ∈ p.log ∨ ∃ e, mainArguments opts = .error e ∧ e.code = 0) := by
  cases hm : mainArguments opts with
  | error e =>
    obtain rfl := refused hm hr
    refine ⟨⟨.nothing, rfl, rfl, fun _ _ => rfl⟩, by simp, ?_⟩
    rintro code ⟨⟩
    simp
  | ok r =>
    obtain ⟨path, k⟩ := r
    obtain ⟨-, -, hk⟩ := mainArguments_ok_iff.mp hm
    have hstands := stands hm hr
    obtain ⟨h, hl, hc, hexit⟩ := hstands.holds
    refine ⟨⟨h, hl, hc.isSome, hexit⟩, fun d hd => ⟨k, hk, hc.reachable d hd⟩, fun code hcode => ?_⟩
    cases hstands with
    | setup hp | attaching hp | running hp =>
      rw [hp] at hcode
      cases hcode
    | exited hp _ _ hstatus =>
      rw [hp] at hcode
      cases hcode
      rcases hstatus with ⟨rfl, hm⟩ | ⟨rfl, hm, -⟩
      · simp [hm]
      · simp [hm]

def socketOption : List Opt := [.socket ⟨[ascii 's'], by decide⟩]

/-- Setup, the controller's start and the realized context. -/
def setupRun : List Happening :=
  List.replicate 11 (.returns none) ++ [.initialises (fun _ => true) .flat fun _ => 0, .returns none]

/-- A process that has set up, attached a client and waits for its requests. -/
theorem Process.acquires_and_releases_served :
    ∃ p, Reaches step (fun _ _ => True) (start socketOption) p ∧ p.phase = .running ∧
      ∃ d, p.ctrl = some d ∧ ∃ k, d.Reachable k := by
  have hctrl : (run step (start socketOption) (setupRun ++ [.returns none])).map
      (fun p => p.ctrl.isSome) = some true := by decide +kernel
  have hphase : (run step (start socketOption) (setupRun ++ [.returns none])).map
      Process.phase = some .running := rfl
  obtain ⟨p, hp, hsome⟩ := Option.map_eq_some_iff.mp hctrl
  rw [hp, Option.map_some, Option.some.injEq] at hphase
  have hr := reaches_of_run hp
  obtain ⟨d, hd⟩ := Option.isSome_iff_exists.mp hsome
  obtain ⟨k, -, hk⟩ := (acquires_and_releases hr).2.1 d hd
  exact ⟨p, hr, hphase, d, hd, k, hk⟩

/-! ## Shutdown -/

/-- Library calls that still return once the flag is set. -/
def Phase.calls : Phase → ℕ
  | .attaching => 2
  | .running => 1
  | .setup _ | .exited _ => 0

def Happening.isReturn : Happening → Bool
  | .returns _ => true
  | _ => false

namespace Process
variable {path : CString} {k : BitVec 32} {p p' : Process} {x : Happening}

/-- With the flag set, the head of the loop is the way out. -/
theorem loop_stop (h : p.stop = true) : p.loop = p.leave [.teardown, .destroy] 0 := if_pos h

theorem loop_returned_stop (hstop : p.stop = true) (c : Call) (e : Option Errno) :
    (p.returned c e).loop.stop = true ∧ (p.returned c e).loop.phase.calls = 0 := by
  rw [loop_stop (show (p.returned c e).stop = true from hstop)]
  exact ⟨hstop, rfl⟩

/-- A client that is attached after the signal is served once. -/
theorem attach_returns_stop (hp : p.phase = .attaching) (hstop : p.stop = true) {e : Option Errno}
    (hs : p.step (.returns e) = some p') : p'.stop = true ∧ 1 + p'.phase.calls ≤ 2 := by
  have hloop := loop_returned_stop hstop
  simp only [step, hp] at hs
  split at hs
  · rw [← Option.some.inj hs]
    exact ⟨hstop, le_refl 2⟩
  · rw [← Option.some.inj hs, (hloop _ _).2]
    exact ⟨(hloop _ _).1, by decide⟩
  · rw [← Option.some.inj hs, (hloop _ _).2]
    exact ⟨(hloop _ _).1, by decide⟩
  · rw [← Option.some.inj hs]
    exact ⟨hstop, by simp [Phase.calls, leave]⟩

/-- A client that is served when the signal comes is not served again. -/
theorem run_returns_stop (hp : p.phase = .running) (hstop : p.stop = true) {e : Option Errno}
    (hs : p.step (.returns e) = some p') : p'.stop = true ∧ 1 + p'.phase.calls ≤ 1 := by
  have hloop := loop_returned_stop hstop
  simp only [step, hp] at hs
  split at hs
  swap
  · cases hs
  rw [show (p.returned .run e).stop = true from hstop] at hs
  split at hs
  · rw [← Option.some.inj hs, if_pos rfl, (hloop _ _).2]
    exact ⟨(hloop _ _).1, by decide⟩
  · rw [← Option.some.inj hs, (hloop _ _).2]
    exact ⟨(hloop _ _).1, by decide⟩
  · rw [← Option.some.inj hs, (hloop _ _).2]
    exact ⟨(hloop _ _).1, by decide⟩
  · rw [← Option.some.inj hs]
    exact ⟨hstop, by simp [Phase.calls, leave]⟩

/-- Once the flag is set it stays set, and every call that returns is one fewer to come. -/
theorem step_stop (h : p.Stands path k) (hstop : p.stop = true) (hs : p.step x = some p') :
    p'.stop = true ∧ x.isReturn.toNat + p'.phase.calls ≤ p.phase.calls := by
  cases h with
  | setup _ _ _ hnot => simp [hnot] at hstop
  | exited hp => cases x <;> simp [step, hp] at hs
  | attaching hp =>
    cases x with
    | initialises heap vfu mem => simp [step, hp] at hs
    | request i => simp [step, hp] at hs
    | signal =>
      simp only [step, hp, Option.some.injEq] at hs
      rw [← hs]
      exact ⟨rfl, by simp [Happening.isReturn, Phase.calls, hp]⟩
    | returns e =>
      rw [hp]
      exact attach_returns_stop hp hstop hs
  | running hp hserving =>
    cases x with
    | initialises heap vfu mem => simp [step, hp] at hs
    | request i =>
      obtain ⟨d, hc⟩ := Option.isSome_iff_exists.mp hserving.ctrl.isSome.symm
      simp only [step, hp, hc] at hs
      obtain ⟨d', -, rfl⟩ := Option.map_eq_some_iff.mp hs
      exact ⟨hstop, by simp [Happening.isReturn, Phase.calls, hp]⟩
    | signal =>
      simp only [step, hp, Option.some.injEq] at hs
      rw [← hs]
      exact ⟨rfl, by simp [Happening.isReturn, Phase.calls, hp]⟩
    | returns e =>
      rw [hp]
      exact run_returns_stop hp hstop hs

theorem run_stop {xs : List Happening} (h : p.Stands path k) (hstop : p.stop = true)
    (hs : run step p xs = some p') :
    p'.Stands path k ∧ p'.stop = true ∧
      xs.countP Happening.isReturn + p'.phase.calls ≤ p.phase.calls := by
  induction xs generalizing p with
  | nil =>
    obtain rfl := Option.some.inj hs
    exact ⟨h, hstop, by simp⟩
  | cons x xs ih =>
    obtain ⟨p₁, h₁, hrest⟩ := Option.bind_eq_some_iff.mp hs
    obtain ⟨hstop₁, hle₁⟩ := step_stop h hstop h₁
    obtain ⟨hstands, hstop', hle⟩ := ih (h.step h₁) hstop₁ hrest
    refine ⟨hstands, hstop', ?_⟩
    rw [List.countP_cons]
    cases hx : x.isReturn <;> simp only [hx, Bool.toNat_true, Bool.toNat_false] at hle₁ ⊢
    · simp only [Bool.false_eq_true, if_false]
      omega
    · simp only [if_true]
      omega

end Process

/-- After a signal the process needs no more than two returns of a library call, whatever they
return and whatever is requested meanwhile, to exit with status 0 and nothing held; serving a
client it needs one. -/
theorem Process.stops_after_signal {opts : List Opt} {p p' : Process} {xs : List Happening}
    (hr : Reaches step (fun _ _ => True) (start opts) p) (hstop : p.stop = true)
    (hs : run step p xs = some p') :
    xs.countP Happening.isReturn + p'.phase.calls ≤ p.phase.calls ∧
      (p'.phase.calls = 0 → p'.phase = .exited 0 ∧ held p'.log = some .nothing) := by
  cases hm : mainArguments opts with
  | error e =>
    rw [refused hm hr] at hstop
    cases hstop
  | ok r =>
    obtain ⟨path, k⟩ := r
    obtain ⟨hstands, hstop', hle⟩ := run_stop (stands hm hr) hstop hs
    refine ⟨hle, fun hzero => ?_⟩
    cases hstands with
    | setup _ _ _ hnot => simp [hnot] at hstop'
    | attaching hp | running hp => simp [hp, Phase.calls] at hzero
    | exited hp hl _ hcode =>
      rcases hcode with ⟨rfl, -⟩ | ⟨-, -, hnot⟩
      · exact ⟨hp, hl⟩
      · rw [hnot] at hstop'
        cases hstop'

/-- A client is being served when the signal comes; the next return ends the process. -/
theorem Process.stops_after_signal_served :
    ∃ p p', Reaches step (fun _ _ => True) (start socketOption) p ∧ p.stop = true ∧
      run step p [.returns (some .eintr)] = some p' ∧ p'.phase = .exited 0 ∧
      held p'.log = some .nothing := by
  have hrun : ((run step (start socketOption) (setupRun ++ [.returns none, .signal])).bind fun p =>
      (run step p [.returns (some .eintr)]).map fun p' =>
        p.stop && decide (p.phase.calls = 1)) = some true := by decide +kernel
  obtain ⟨p, hp, hrest⟩ := Option.bind_eq_some_iff.mp hrun
  obtain ⟨p', hp', hobs⟩ := Option.map_eq_some_iff.mp hrest
  rw [Bool.and_eq_true, decide_eq_true_eq] at hobs
  obtain ⟨hstop, hcalls⟩ := hobs
  have hr := reaches_of_run hp
  obtain ⟨hle, hexit⟩ := stops_after_signal hr hstop hp'
  have hzero : p'.phase.calls = 0 := by
    rw [hcalls] at hle
    have hcount : [Happening.returns (some .eintr)].countP Happening.isReturn = 1 := rfl
    omega
  exact ⟨p, p', hr, hstop, hp', hexit hzero⟩

end VfuKvssd
