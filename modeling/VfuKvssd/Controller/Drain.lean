import VfuKvssd.Controller.Progress
import VfuKvssd.Foundations.Rings

/-! # Draining a submission queue

The loop of `nvme_process_sq` stops when the head, which moves modulo the size of
the queue, meets the tail that the guest wrote. A tail within the ring is met
after at most one round; a tail outside it never is.
-/
namespace VfuKvssd
open Foundations

/-- If there is an entry at the head, it can be fetched. -/
def Device.Readable (d : Device) (heap : Heap) (q : QueueId) : Prop :=
  (d.n.sq q).head ≠ (d.n.sq q).tail → heap .sqeSgl = true ∧
    d.n.world.vfu.reaches ((d.n.sq q).slotAddr (d.n.sq q).head) 64 .read = true

/-- A run of the loop over readable entries: the slots it has consumed, its iterations so far, and
the device. The guest may change its memory and its mappings between iterations. -/
inductive Drain (q : QueueId) (d : Device) : List ℕ → ℕ → Device → Prop
  | start : Drain q d [] 0 d
  | consume {slots : List ℕ} {k : ℕ} {e e' : Device} {heap : Heap} (h : Drain q d slots k e)
      (hf : e.Readable heap q) (hb : e.busy = some q) (hs : e.step (.iterate heap) = some e')
      (hb' : e'.busy = some q) : Drain q d (slots ++ [(e.n.sq q).head.toNat]) (k + 1) e'
  | finish {slots : List ℕ} {k : ℕ} {e e' : Device} {heap : Heap} (h : Drain q d slots k e)
      (hf : e.Readable heap q) (hb : e.busy = some q) (hs : e.step (.iterate heap) = some e')
      (hb' : e'.busy = none) : Drain q d slots (k + 1) e'
  | hostMemory {slots : List ℕ} {k : ℕ} {e e' : Device} {mem : Memory} (h : Drain q d slots k e)
      (hs : e.step (.hostMemory mem) = some e') : Drain q d slots k e'
  | dmaRegions {slots : List ℕ} {k : ℕ} {e e' : Device} {vfu : Vfu} (h : Drain q d slots k e)
      (hs : e.step (.dmaRegions vfu) = some e') : Drain q d slots k e'

/-- The loop ends within as many iterations as the queue has slots, consumes no slot twice and
always less than a whole round. -/
def DrainEnds (q : QueueId) (d : Device) : Prop :=
  ∀ slots k e, Drain q d slots k e → k ≤ (d.n.sq q).size.toNat ∧ slots.Nodup ∧
    slots.length ≤ (d.n.sq q).size.toNat - 1

theorem Drain.reaches {q : QueueId} {d e : Device} {slots : List ℕ} {k : ℕ}
    (h : Drain q d slots k e) : Reaches Device.step (fun _ _ => True) d e := by
  induction h with
  | start => exact .refl
  | consume _ _ _ hs _ ih | finish _ _ _ hs _ ih | hostMemory _ hs ih | dmaRegions _ hs ih =>
    exact .tail _ ih trivial hs

theorem Drain.reachable {q : QueueId} {d e : Device} {slots : List ℕ} {k : ℕ}
    (h : Drain q d slots k e) {maxNumKeys : BitVec 32} (hd : Device.Reachable maxNumKeys d) :
    Device.Reachable maxNumKeys e :=
  hd.trans h.reaches

theorem Consumed.sq_self {n n' : NvmeCtrl} {heap : Heap} {q : QueueId} (hc : Consumed n heap q n') :
    n'.sq q = (n.sq q).fetched := by
  obtain ⟨hsize, hfetch, hx, hp⟩ := hc
  rw [hp.frame.1, NvmeCtrl.log_sq, hx.sq_self, NvmeCtrl.fetched]
  simp [NvmeSq.fetched]

theorem Consumed.ring {n n' : NvmeCtrl} {heap : Heap} {q : QueueId} (hc : Consumed n heap q n')
    (hok : (n.sq q).Ok) :
    (n'.sq q).size = (n.sq q).size ∧ (n'.sq q).tail = (n.sq q).tail ∧
      (n'.sq q).head.toNat = ((n.sq q).head.toNat + 1) % (n.sq q).size.toNat := by
  rw [hc.sq_self]
  exact ⟨rfl, rfl, NvmeSq.nextHead_toNat hok⟩

/-! ## A tail within the ring -/

/-- The queue that is drained `slots.length` entries after it started `dist` entries behind its
tail. -/
structure DrainState (q : QueueId) (len dist : ℕ) (slots : List ℕ) (k : ℕ) (e : Device) : Prop where
  ok : e.Ok
  enabled : (e.n.sq q).enabled = true
  size : (e.n.sq q).size.toNat = len
  tail : (e.n.sq q).tail.toNat < len
  behind : slots = ringSlots len (e.n.sq q).head.toNat slots.length
  left : slots.length + ringDist len (e.n.sq q).head.toNat (e.n.sq q).tail.toNat = dist
  nodup : slots.Nodup
  count : k ≤ slots.length + 1
  busy : e.busy = some q → k = slots.length

/-- Each consumed entry brings the head one step closer to the tail. -/
theorem DrainState.consume {q : QueueId} {len dist : ℕ} {slots : List ℕ} {k : ℕ} {e e' : Device}
    {heap : Heap} (h : DrainState q len dist slots k e) (hdist : dist < len)
    (hb : e.busy = some q) (hne : (e.n.sq q).head ≠ (e.n.sq q).tail) (hok : e'.Ok)
    (hc : Consumed e.n heap q e'.n) :
    DrainState q len dist (slots ++ [(e.n.sq q).head.toNat]) (k + 1) e' := by
  have hring := h.ok.rings.sq q h.enabled
  have hhead : (e.n.sq q).head.toNat < len := h.size ▸ hring.head_lt
  obtain ⟨hsize, htail, hnext⟩ := hc.ring hring
  rw [h.size] at hnext
  have hstep := ringDist_pred hhead h.tail fun he => hne (BitVec.eq_of_toNat_eq he)
  have hleft := h.left
  refine ⟨hok, ?_, ?_, ?_, ?_, ?_, ?_, ?_, ?_⟩
  · rw [hc.sq_self]
    exact h.enabled
  · rw [hsize]
    exact h.size
  · rw [htail]
    exact h.tail
  · rw [hnext, List.length_append, List.length_singleton, ← ringSlots_snoc hhead (by omega),
      ← h.behind]
  · rw [hnext, htail, List.length_append, List.length_singleton]
    omega
  · have hfresh : (e.n.sq q).head.toNat ∉ slots := by
      rw [h.behind]
      exact not_mem_ringSlots hhead (by omega)
    rw [List.nodup_append]
    refine ⟨h.nodup, List.nodup_singleton _, fun a ha b hb' => ?_⟩
    rw [List.mem_singleton.mp hb']
    exact fun he => hfresh (he ▸ ha)
  · have hk := h.busy hb
    rw [List.length_append, List.length_singleton]
    omega
  · intro _
    rw [h.busy hb, List.length_append, List.length_singleton]

theorem Drain.state {q : QueueId} {d e : Device} {slots : List ℕ} {k dist : ℕ}
    (h : Drain q d slots k e) (hdist : dist < (d.n.sq q).size.toNat)
    (hd : DrainState q (d.n.sq q).size.toNat dist [] 0 d) :
    DrainState q (d.n.sq q).size.toNat dist slots k e := by
  induction h with
  | start => exact hd
  | @consume slots k e e' heap _ hf hb hs hb' ih =>
    have hok := (Device.step_cases hs).ok ih.ok
    have hc := Device.consumed_of_busy hs hb hb'
    cases Device.step_cases hs with
    | finished | fetchFailed => cases hb'
    | consumed hq hh _ _ =>
      rw [hb] at hq
      obtain rfl := Option.some.inj hq
      exact ih.consume hdist hb hh hok hc
  | @finish slots k e e' heap _ hf hb hs hb' ih =>
    have hok := (Device.step_cases hs).ok ih.ok
    have hk := ih.busy hb
    cases Device.step_cases hs with
    | finished | fetchFailed =>
      exact { ih with ok := hok, count := by omega, busy := fun hb => nomatch hb }
    | consumed => cases hb'
  | @hostMemory slots k e e' mem _ hs ih | @dmaRegions slots k e e' mem _ hs ih =>
    have hok := (Device.step_cases hs).ok ih.ok
    obtain rfl := Option.some.inj hs
    exact { ih with ok := hok }

theorem drainEnds_of_lt {q : QueueId} {d : Device} (hok : d.Ok) (he : (d.n.sq q).enabled = true)
    (ht : (d.n.sq q).tail.toNat < (d.n.sq q).size.toNat) : DrainEnds q d := by
  intro slots k e h
  have hdist := ringDist_lt (hok.rings.sq q he).size_pos (d.n.sq q).head.toNat (d.n.sq q).tail.toNat
  have hstart : DrainState q (d.n.sq q).size.toNat
      (ringDist (d.n.sq q).size.toNat (d.n.sq q).head.toNat (d.n.sq q).tail.toNat) [] 0 d :=
    ⟨hok, he, rfl, ht, rfl, Nat.zero_add _, List.nodup_nil, Nat.zero_le _, fun _ => rfl⟩
  have hs := h.state hdist hstart
  have hleft := hs.left
  have hcount := hs.count
  exact ⟨by omega, hs.nodup, by omega⟩

theorem drainEnds_of_idle {q : QueueId} {d : Device} (hb : d.busy = none) : DrainEnds q d := by
  intro slots k e h
  have hidle : slots = [] ∧ k = 0 ∧ e.busy = none := by
    induction h with
    | start => exact ⟨rfl, rfl, hb⟩
    | consume _ _ hq _ _ ih | finish _ _ hq _ _ ih =>
      rw [ih.2.2] at hq
      cases hq
    | hostMemory _ hs ih | dmaRegions _ hs ih =>
      obtain rfl := Option.some.inj hs
      exact ih
  obtain ⟨rfl, rfl, -⟩ := hidle
  exact ⟨Nat.zero_le _, List.nodup_nil, Nat.zero_le _⟩

/-! ## A tail outside the ring -/

/-- Every allocation but that of a larger slot array succeeds. -/
def noGrowth : Heap := fun site => decide (site ≠ .pairsGrown)

/-- A head that stays within the ring never meets a tail outside it. -/
theorem Drain.endless {maxNumKeys : BitVec 32} {q : QueueId} {d : Device}
    (hd : Device.Reachable maxNumKeys d) (hb : d.busy = some q)
    (ht : (d.n.sq q).size.toNat ≤ (d.n.sq q).tail.toNat) (m : ℕ) :
    ∃ slots e, Drain q d slots m e ∧ slots.length = m ∧ e.busy = some q ∧
      (e.n.sq q).size = (d.n.sq q).size ∧ (e.n.sq q).tail = (d.n.sq q).tail := by
  induction m with
  | zero => exact ⟨[], d, .start, rfl, hb, rfl, rfl⟩
  | succ m ih =>
    obtain ⟨slots, e, h, hlen, hbe, hsize, htail⟩ := ih
    -- with everything mapped, the next entry can be fetched
    have hmap : e.step (.dmaRegions .flat) = some _ := rfl
    have hflat := h.dmaRegions hmap
    have hr := hflat.reachable hd
    have hlt := (hr.ok.rings.sq q (hr.ok.busy q hbe)).head_lt
    have hne : (e.n.sq q).head ≠ (e.n.sq q).tail := by
      intro he
      change (e.n.sq q).head.toNat < (e.n.sq q).size.toNat at hlt
      rw [he, htail, hsize] at hlt
      omega
    obtain ⟨n, hs, hc⟩ := Device.iterate_consumes hr.ok hbe noGrowth
      (.inr ⟨hr.ns_valid.1, fun hg => absurd hg (by decide)⟩) hne rfl rfl
    obtain ⟨hsize', htail', -⟩ := hc.ring (hr.ok.rings.sq q (hr.ok.busy q hbe))
    refine ⟨_, _, hflat.consume (fun _ => ⟨rfl, rfl⟩) hbe hs rfl, ?_, rfl, hsize'.trans hsize,
      htail'.trans htail⟩
    rw [List.length_append, hlen, List.length_singleton]

theorem not_drainEnds {maxNumKeys : BitVec 32} {q : QueueId} {d : Device}
    (hd : Device.Reachable maxNumKeys d) (hb : d.busy = some q)
    (ht : (d.n.sq q).size.toNat ≤ (d.n.sq q).tail.toNat) : ¬ DrainEnds q d := by
  intro hends
  obtain ⟨slots, e, h, -⟩ := Drain.endless hd hb ht ((d.n.sq q).size.toNat + 1)
  have hk := (hends _ _ _ h).1
  omega

/-! ## Doorbells -/

/-- A doorbell write starts a loop that is never stuck, and that ends exactly when the queue is
disabled or the value lies within its ring. -/
theorem Device.Reachable.drain_ends_iff {maxNumKeys : BitVec 32} {d : Device}
    (h : Reachable maxNumKeys d) (hb : d.busy = none) {offset : ℕ} {buf : List Byte} {q : QueueId}
    {val : BitVec 16} (hd : Doorbell offset buf false q val) :
    ∃ d₁, d.step (.bar0 true offset buf) = some d₁ ∧
      (∀ slots k e heap, Drain q d₁ slots k e → e.busy = some q → e.Readable heap q →
        (heap .pairsGrown = true → e.n.ns.entriesAllocated < 2 ^ 31) →
        ∃ e', e.step (.iterate heap) = some e') ∧
      (DrainEnds q d₁ ↔
        ((d.n.sq q).enabled = true → val.toNat < (d.n.sq q).size.toNat)) := by
  have hs := step_sqDoorbell hb hd
  have h₁ := h.next hs
  refine ⟨_, hs, fun slots k e heap hdrain hbe _ hint => ?_, ?_⟩
  · have he := hdrain.reachable h₁
    exact iterate_isSome he.ok hbe heap (.inr ⟨he.ns_valid.1, hint⟩)
  · cases hen : (d.n.sq q).enabled with
    | false =>
      refine ⟨fun _ hf => absurd hf (by decide), fun _ => drainEnds_of_idle ?_⟩
      simp
    | true =>
      rw [hen, if_pos rfl] at h₁
      constructor
      · intro hends _
        by_contra hge
        exact not_drainEnds h₁ rfl (by simpa using hge) (by simpa using hends)
      · intro hlt
        exact drainEnds_of_lt (by simpa using h₁.ok) (by simpa using hen) (by simpa using hlt rfl)

theorem enableAdmin_reachable :
    ∃ d, Device.Reachable 1 d ∧ d.busy = none ∧ (d.n.sq 0).enabled = true ∧ (d.n.sq 0).head = 0 ∧
      (d.n.sq 0).size = 16 := by
  have hrun : (bootRun 1 (fun _ _ => true) enableAdmin).map
      (fun d => (d.busy, (d.n.sq 0).enabled, (d.n.sq 0).head, (d.n.sq 0).size)) =
      some (none, true, 0, 16) := by decide +kernel
  obtain ⟨d, hd, hobs⟩ := Option.map_eq_some_iff.mp hrun
  simp only [Prod.mk.injEq] at hobs
  exact ⟨d, reachable_of_bootRun hd, hobs⟩

/-- Three entries of 16. -/
theorem Device.Reachable.drain_ends_iff_three :
    ∃ d d₁, Reachable 1 d ∧ d.busy = none ∧ (d.n.sq 0).enabled = true ∧
      d.step (sqTailWrite 0 3) = some d₁ ∧ DrainEnds 0 d₁ := by
  obtain ⟨d, hr, hb, hen, -, hsize⟩ := enableAdmin_reachable
  obtain ⟨d₁, hs, -, hiff⟩ := hr.drain_ends_iff hb (doorbell_sqTailWrite 0 3)
  refine ⟨d, d₁, hr, hb, hen, hs, hiff.mpr fun _ => ?_⟩
  rw [hsize]
  decide

/-- A tail just past the last of 16 slots. -/
theorem Device.tail_past_ring_never_met :
    ∃ d d₁, Reachable 1 d ∧ d.busy = none ∧ d.step (sqTailWrite 0 16) = some d₁ ∧
      ¬ DrainEnds 0 d₁ := by
  obtain ⟨d, hr, hb, hen, -, hsize⟩ := enableAdmin_reachable
  have hs := step_sqTailWrite hb 0 16
  rw [hen, if_pos rfl] at hs
  refine ⟨d, _, hr, hb, hs, not_drainEnds (hr.next hs) rfl ?_⟩
  simp [hsize]

end VfuKvssd
