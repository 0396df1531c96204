import VfuKvssd.Startup.Capacity

/-! # The options of `main`

`getopt_long` hands over one option after the other. The first option that ends
the program decides its exit status; otherwise the last socket and the last
capacity count, and every capacity has to parse.
-/
namespace VfuKvssd

/-- An option with its argument; `other` is the `?` of `getopt_long`. -/
inductive Opt
  | socket (path : CString)
  | capacity (arg : CString)
  | help
  | version
  | other

/-- Why `main` returns before it creates anything. -/
inductive Refusal
  | help
  | version
  | badCapacity (arg : CString)
  | usage
  /-- not even one slot fits -/
  | tooSmall

def Refusal.code : Refusal → ℕ
  | .help | .version => 0
  | .badCapacity _ | .usage | .tooSmall => 2

/-- The option loop, at the socket and capacity so far. -/
def mainOptions (sock : Option CString) (capacity : BitVec 64) :
    List Opt → Except Refusal (CString × BitVec 64)
  | [] =>
    match sock with
    | none => .error .usage
    | some path => .ok (path, capacity)
  | .socket path :: opts => mainOptions (some path) capacity opts
  | .capacity arg :: opts =>
    match parseSize arg with
    | none => .error (.badCapacity arg)
    | some c => mainOptions sock c opts
  | .help :: _ => .error .help
  | .version :: _ => .error .version
  | .other :: _ => .error .usage

/-- What `main` needs to set the device up: the socket and the number of keys. -/
def mainArguments (opts : List Opt) : Except Refusal (CString × BitVec 32) :=
  match mainOptions none vfuKvssdDefaultCapacity opts with
  | .error e => .error e
  | .ok (path, capacity) =>
    match maxNumKeysOf capacity with
    | none => .error .tooSmall
    | some k => .ok (path, k)

/-! ## Which options are accepted -/

def Opt.Goes : Opt → Prop
  | .socket _ => True
  | .capacity arg => (parseSize arg).isSome
  | .help | .version | .other => False

def socketNext (sock : Option CString) : Opt → Option CString
  | .socket path => some path
  | _ => sock

def capacityNext (capacity : BitVec 64) : Opt → BitVec 64
  | .capacity arg => (parseSize arg).getD capacity
  | _ => capacity

theorem mainOptions_ok_iff {opts : List Opt} {sock : Option CString} {capacity c : BitVec 64}
    {path : CString} :
    mainOptions sock capacity opts = .ok (path, c) ↔
      (∀ o ∈ opts, o.Goes) ∧ opts.foldl socketNext sock = some path ∧
        opts.foldl capacityNext capacity = c := by
  induction opts generalizing sock capacity with
  | nil =>
    cases sock with
    | none => simp [mainOptions]
    | some s => simp [mainOptions, eq_comm]
  | cons o opts ih =>
    rw [List.forall_mem_cons, List.foldl_cons, List.foldl_cons]
    cases o with
    | socket path => simp [mainOptions, ih, Opt.Goes, socketNext, capacityNext]
    | capacity arg =>
      cases hp : parseSize arg with
      | none => simp [mainOptions, hp, Opt.Goes]
      | some c' => simp [mainOptions, hp, ih, Opt.Goes, socketNext, capacityNext]
    | help | version | other => simp [mainOptions, Opt.Goes]

/-- `main` sets the device up exactly when no option stops it, some option names a socket and the
last capacity, by default 2 GiB, holds a slot. -/
theorem mainArguments_ok_iff {opts : List Opt} {path : CString} {k : BitVec 32} :
    mainArguments opts = .ok (path, k) ↔
      (∀ o ∈ opts, o.Goes) ∧ opts.foldl socketNext none = some path ∧
        maxNumKeysOf (opts.foldl capacityNext vfuKvssdDefaultCapacity) = some k := by
  rw [mainArguments]
  constructor
  · intro h
    cases hm : mainOptions none vfuKvssdDefaultCapacity opts with
    | error e => simp [hm] at h
    | ok r =>
      obtain ⟨path', c⟩ := r
      obtain ⟨hgo, hsock, rfl⟩ := mainOptions_ok_iff.mp hm
      cases hk : maxNumKeysOf (opts.foldl capacityNext vfuKvssdDefaultCapacity) with
      | none => simp [hm, hk] at h
      | some k' =>
        simp only [hm, hk, Except.ok.injEq, Prod.mk.injEq] at h
        exact ⟨hgo, h.1 ▸ hsock, by rw [h.2]⟩
  · rintro ⟨hgo, hsock, hk⟩
    rw [mainOptions_ok_iff.mpr ⟨hgo, hsock, rfl⟩]
    simp only [hk]

end VfuKvssd
