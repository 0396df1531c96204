import VfuKvssd.Controller.Alike
import VfuKvssd.Controller.Drain

/-! # Doorbell batching

Ringing a submission queue at a tail on the way and then at the last one leaves
the device as ringing it once. Allocation outcomes are indexed by the commands
consumed so far, so that both sides meet the same ones.
-/
namespace VfuKvssd
open Foundations

def NvmeCtrl.setTail (n : NvmeCtrl) (q : QueueId) (tail : BitVec 16) : NvmeCtrl :=
  n.setSq q { n.sq q with tail := tail }

@[simp] theorem NvmeCtrl.setTail_sq (n : NvmeCtrl) (q : QueueId) (tail : BitVec 16) :
    (n.setTail q tail).sq q = { n.sq q with tail := tail } := by
  simp [setTail]

@[simp] theorem NvmeCtrl.setTail_setTail (n : NvmeCtrl) (q : QueueId) (s t : BitVec 16) :
    (n.setTail q s).setTail q t = n.setTail q t := by
  simp [setTail, setSq]

/-! ## The tail of the queue being drained -/

/-- Equal, but for the tail of `q`. -/
def upToTail (q p : QueueId) (s s' : NvmeSq) : Prop :=
  ∃ tail, s' = { s with tail := tail } ∧ (p ≠ q → s' = s)

/-- A fetched command is run without a look at the tail of its queue. -/
theorem queueRel_upToTail (q : QueueId) : QueueRel (upToTail q) (fun _ => Eq) where
  sqRefl _ s := ⟨s.tail, rfl, fun _ => rfl⟩
  sqEnabled := by
    rintro _ _ _ ⟨_, rfl, -⟩
    rfl
  sqView := by
    rintro _ _ _ ⟨_, rfl, -⟩ -
    exact ⟨rfl, rfl, rfl, rfl⟩
  sqFetch := by
    rintro _ _ _ ⟨tail, rfl, heq⟩ -
    exact ⟨tail, rfl, fun hp => by rw [heq hp]⟩
  sqDisable := by
    rintro _ _ _ ⟨tail, rfl, heq⟩
    exact ⟨tail, rfl, fun hp => by rw [heq hp]⟩
  cqRefl _ _ := rfl
  cqEnabled h := by rw [h]
  cqView h _ := h
  cqDisable h := by rw [h]

theorem NvmeCtrl.alike_setTail (n : NvmeCtrl) (q : QueueId) (tail : BitVec 16) :
    Alike (upToTail q) (fun _ => Eq) [] [] n (n.setTail q tail) := by
  refine ⟨⟨rfl, rfl, _, rfl, rfl⟩, fun p => ?_, fun _ => rfl, rfl⟩
  by_cases hp : p = q
  · subst hp
    exact ⟨tail, n.setTail_sq p tail, fun hne => absurd rfl hne⟩
  · rw [NvmeCtrl.setTail, NvmeCtrl.setSq_sq, Function.update_of_ne hp]
    exact (queueRel_upToTail q).sqRefl p _

/-- Alike up to the tail of one queue, and that queue is known. -/
theorem NvmeCtrl.Alike.eq_setTail {q : QueueId} {n₁ n₂ : NvmeCtrl} {tail : BitVec 16}
    (h : Alike (upToTail q) (fun _ => Eq) [] [] n₁ n₂)
    (hsq : n₂.sq q = { n₁.sq q with tail := tail }) : n₂ = n₁.setTail q tail := by
  have hworld : n₂.world = n₁.world := by
    obtain ⟨es, h₁, h₂⟩ := h.world.trace
    have heta (w : World) : w = ⟨w.vfu, w.mem, w.trace⟩ := rfl
    rw [heta n₂.world, heta n₁.world, h.world.vfu, h.world.mem, h₁, h₂]
  have hall : n₂.sq = (n₁.setTail q tail).sq := by
    funext p
    by_cases hp : p = q
    · subst hp
      rw [hsq, NvmeCtrl.setTail_sq]
    · obtain ⟨_, -, heq⟩ := h.sq p
      rw [heq hp, NvmeCtrl.setTail, NvmeCtrl.setSq_sq, Function.update_of_ne hp]
  have hcq : n₂.cq = n₁.cq := funext fun c => (h.cq c).symm
  have hback (m : NvmeCtrl) : m = { m.core with world := m.world, sq := m.sq, cq := m.cq } := rfl
  rw [hback n₂, hworld, hall, hcq, ← h.rest]
  rfl

/-- An iteration leaves its queue alone, but for the head if it consumes an entry. -/
theorem nvmeProcessSqStep_sq {n m : NvmeCtrl} {heap : Heap} {q : QueueId} {more : Bool}
    (h : nvmeProcessSqStep n heap q = some (m, more)) :
    m.sq q = if more then (n.sq q).fetched else n.sq q := by
  have hs : Device.step ⟨n, some q⟩ (.iterate heap) = some ⟨m, if more then some q else none⟩ := by
    simp [Device.step, h]
  cases more with
  | true => exact (Device.consumed_of_busy hs rfl rfl).sq_self
  | false =>
    cases Device.step_cases hs with
    | finished | fetchFailed => rfl

/-- While there is an entry before either tail, an iteration does not tell them apart. -/
theorem Device.step_setTail {n : NvmeCtrl} {q : QueueId} (he : (n.sq q).enabled = true)
    (heap : Heap) {tail : BitVec 16} (hne : (n.sq q).head ≠ (n.sq q).tail)
    (hne' : (n.sq q).head ≠ tail) :
    Device.step ⟨n.setTail q tail, some q⟩ (.iterate heap) =
      (Device.step ⟨n, some q⟩ (.iterate heap)).map fun d => ⟨d.n.setTail q tail, d.busy⟩ := by
  have hempty : (n.sq q).head = (n.sq q).tail ↔
      ((n.setTail q tail).sq q).head = ((n.setTail q tail).sq q).tail := by
    rw [NvmeCtrl.setTail_sq]
    exact ⟨fun h => absurd h hne, fun h => absurd h hne'⟩
  have hrel := (n.alike_setTail q tail).processSqStep (queueRel_upToTail q) heap he hempty
  have hsq₁ {m : NvmeCtrl} {more : Bool} (hm : nvmeProcessSqStep n heap q = some (m, more)) :=
    nvmeProcessSqStep_sq hm
  have hsq₂ {m : NvmeCtrl} {more : Bool}
      (hm : nvmeProcessSqStep (n.setTail q tail) heap q = some (m, more)) :=
    nvmeProcessSqStep_sq hm
  simp only [Device.step]
  revert hsq₁ hsq₂
  generalize nvmeProcessSqStep n heap q = r₁ at hrel ⊢
  generalize nvmeProcessSqStep (n.setTail q tail) heap q = r₂ at hrel ⊢
  intro hsq₁ hsq₂
  cases hrel with
  | none => rfl
  | @some r₁ r₂ hr =>
    obtain ⟨m₁, more⟩ := r₁
    obtain ⟨m₂, _⟩ := r₂
    obtain ⟨halike, rfl⟩ := hr
    have hm : m₂ = m₁.setTail q tail := by
      apply halike.eq_setTail
      rw [hsq₂ rfl, hsq₁ rfl, NvmeCtrl.setTail_sq]
      cases more <;> rfl
    simp only [Option.map_some, hm]

/-! ## Whole runs of the loop -/

/-- The loop run to its end. The counts are the commands consumed before and after it. -/
inductive Drained (heaps : ℕ → Heap) : ℕ → Device → ℕ → Device → Prop
  | idle {k : ℕ} {d : Device} (hb : d.busy = none) : Drained heaps k d k d
  | finish {k : ℕ} {d d' : Device} (hs : d.step (.iterate (heaps k)) = some d')
      (hb : d'.busy = none) : Drained heaps k d k d'
  | consume {k k' : ℕ} {d d' e : Device} (hs : d.step (.iterate (heaps k)) = some d')
      (hb : d'.busy ≠ none) (h : Drained heaps (k + 1) d' k' e) : Drained heaps k d k' e

/-- A write of an SQ tail doorbell, with all it sets off. -/
def Rings (heaps : ℕ → Heap) (k : ℕ) (d : Device) (q : QueueId) (tail : BitVec 16) (k' : ℕ)
    (d' : Device) : Prop :=
  ∃ d₁, d.step (sqTailWrite q tail) = some d₁ ∧ Drained heaps k d₁ k' d'

section Drained
variable {heaps : ℕ → Heap} {k k' : ℕ} {d e : Device}

theorem Drained.idle_end (h : Drained heaps k d k' e) : e.busy = none := by
  induction h with
  | idle hb => exact hb
  | finish _ hb => exact hb
  | consume _ _ _ ih => exact ih

theorem Drained.reaches (h : Drained heaps k d k' e) :
    Reaches Device.step (fun _ _ => True) d e := by
  induction h with
  | idle => exact .refl
  | finish hs _ => exact .single _ trivial hs
  | consume hs _ _ ih => exact (Reaches.single _ trivial hs).trans ih

theorem drained_busy {q : QueueId} (hb : d.busy = some q) :
    Drained heaps k d k' e ↔ ∃ d', d.step (.iterate (heaps k)) = some d' ∧
      (d'.busy = none ∧ k = k' ∧ d' = e ∨ d'.busy ≠ none ∧ Drained heaps (k + 1) d' k' e) := by
  constructor
  · intro h
    cases h with
    | idle hidle => rw [hb] at hidle; cases hidle
    | finish hs hb' => exact ⟨_, hs, .inl ⟨hb', rfl, rfl⟩⟩
    | consume hs hb' h => exact ⟨_, hs, .inr ⟨hb', h⟩⟩
  · rintro ⟨d', hs, ⟨hb', rfl, rfl⟩ | ⟨hb', h⟩⟩
    · exact .finish hs hb'
    · exact .consume hs hb' h

theorem drained_last {q : QueueId} (hb : d.busy = some q) {n : NvmeCtrl}
    (hs : d.step (.iterate (heaps k)) = some ⟨n, none⟩) :
    Drained heaps k d k' e ↔ k = k' ∧ ⟨n, none⟩ = e := by
  rw [drained_busy hb, hs]
  simp

theorem drained_more {q : QueueId} (hb : d.busy = some q) {d' : Device}
    (hs : d.step (.iterate (heaps k)) = some d') (hb' : d'.busy = some q) :
    Drained heaps k d k' e ↔ Drained heaps (k + 1) d' k' e := by
  rw [drained_busy hb, hs]
  simp [hb']

theorem Drained.enabled {q : QueueId} (h : Drained heaps k d k' e) (hb : d.busy = some q)
    (he : (d.n.sq q).enabled = true) : (e.n.sq q).enabled = true := by
  induction h with
  | idle => exact he
  | finish hs hb' =>
    cases Device.step_cases hs with
    | finished | fetchFailed => exact he
    | consumed => cases hb'
  | consume hs hb' _ ih =>
    cases Device.step_cases hs with
    | finished | fetchFailed => exact absurd rfl hb'
    | consumed hq _ _ hc =>
      obtain rfl := Option.some.inj (hq.symm.trans hb)
      apply ih rfl
      rw [hc.sq_self]
      exact he

end Drained

/-- The run to the last tail, and the runs to one on the way and on from there. -/
def SplitsAt (heaps : ℕ → Heap) (q : QueueId) (tail : BitVec 16) (n : NvmeCtrl) (k : ℕ) : Prop :=
  ∀ k' e, Drained heaps k ⟨n.setTail q tail, some q⟩ k' e ↔
    ∃ k₁ n₁, Drained heaps k ⟨n, some q⟩ k₁ ⟨n₁, none⟩ ∧
      Drained heaps k₁ ⟨n₁.setTail q tail, some q⟩ k' e

section Split
variable {heaps : ℕ → Heap} {q : QueueId} {tail : BitVec 16} {n : NvmeCtrl} {k : ℕ}

/-- A loop that stops at once leaves everything to the second doorbell. -/
theorem splitsAt_last (hs : Device.step ⟨n, some q⟩ (.iterate (heaps k)) = some ⟨n, none⟩) :
    SplitsAt heaps q tail n k := by
  intro k' e
  constructor
  · intro h
    exact ⟨k, n, (drained_last rfl hs).mpr ⟨rfl, rfl⟩, h⟩
  · rintro ⟨k₁, n₁, h₁, h₂⟩
    obtain ⟨rfl, hn⟩ := (drained_last rfl hs).mp h₁
    obtain rfl := (Device.mk.inj hn).1
    exact h₂

theorem splitsAt_consume (he : (n.sq q).enabled = true)
    (hne : (n.sq q).head ≠ (n.sq q).tail) (hne' : (n.sq q).head ≠ tail) {n' : NvmeCtrl}
    (hs : Device.step ⟨n, some q⟩ (.iterate (heaps k)) = some ⟨n', some q⟩)
    (h : SplitsAt heaps q tail n' (k + 1)) : SplitsAt heaps q tail n k := by
  intro k' e
  have hs' := Device.step_setTail he (heaps k) hne hne'
  rw [hs] at hs'
  rw [drained_more rfl hs' rfl, h k' e]
  simp only [drained_more rfl hs rfl]

theorem splitsAt_stuck (he : (n.sq q).enabled = true)
    (hne : (n.sq q).head ≠ (n.sq q).tail) (hne' : (n.sq q).head ≠ tail)
    (hs : Device.step ⟨n, some q⟩ (.iterate (heaps k)) = none) : SplitsAt heaps q tail n k := by
  have hs' := Device.step_setTail he (heaps k) hne hne'
  rw [hs] at hs'
  have hnone {d : Device} (hb : d.busy = some q) (hd : d.step (.iterate (heaps k)) = none) (k' e) :
      ¬ Drained heaps k d k' e := by
    rw [drained_busy hb, hd]
    rintro ⟨d', hd', -⟩
    cases hd'
  intro k' e
  constructor
  · exact fun h => absurd h (hnone rfl hs' k' e)
  · rintro ⟨k₁, n₁, h, -⟩
    exact absurd h (hnone rfl hs k₁ _)

end Split

/-- Up to a tail on the way, the loop does what it does on its way to the last one. -/
theorem splitsAt_of_path {heaps : ℕ → Heap} {q : QueueId} {tail : BitVec 16} {n : NvmeCtrl} {k : ℕ}
    (hok : (n.sq q).Ok) (he : (n.sq q).enabled = true)
    (ht : (n.sq q).tail.toNat < (n.sq q).size.toNat) (ht' : tail.toNat < (n.sq q).size.toNat)
    (hpath : ringDist (n.sq q).size.toNat (n.sq q).head.toNat (n.sq q).tail.toNat ≤
      ringDist (n.sq q).size.toNat (n.sq q).head.toNat tail.toNat) : SplitsAt heaps q tail n k := by
  induction hm : ringDist (n.sq q).size.toNat (n.sq q).head.toNat (n.sq q).tail.toNat
    generalizing n k with
  | zero =>
    have heq : (n.sq q).head = (n.sq q).tail := by
      by_contra hne
      have hstep := ringDist_pred hok.head_lt ht fun h => hne (BitVec.eq_of_toNat_eq h)
      omega
    exact splitsAt_last (by simp [Device.step, nvmeProcessSqStep, heq])
  | succ m ih =>
    have hne : (n.sq q).head ≠ (n.sq q).tail := by
      intro heq
      rw [heq, ringDist_self] at hm
      omega
    have hne' : (n.sq q).head ≠ tail := by
      intro heq
      rw [← heq, ringDist_self] at hpath
      omega
    have hdist := ringDist_pred hok.head_lt ht fun h => hne (BitVec.eq_of_toNat_eq h)
    have hdist' := ringDist_pred hok.head_lt ht' fun h => hne' (BitVec.eq_of_toNat_eq h)
    cases hs : Device.step ⟨n, some q⟩ (.iterate (heaps k)) with
    | none => exact splitsAt_stuck he hne hne' hs
    | some d' =>
      cases Device.step_cases hs with
      | finished hb hh =>
        obtain rfl := Option.some.inj hb
        exact absurd hh hne
      | fetchFailed => exact splitsAt_last hs
      | @consumed heap p hb _ _ n' hc =>
        obtain rfl := Option.some.inj hb
        refine splitsAt_consume he hne hne' hs ?_
        obtain ⟨hsize, htail, hhead⟩ := Consumed.ring (n := n) hc hok
        apply ih
        · rw [hc.sq_self]
          exact hok.nextHead
        · rw [hc.sq_self]
          exact he
        · rw [hsize, htail]
          exact ht
        · rw [hsize]
          exact ht'
        · rw [hsize, htail, hhead]
          omega
        · rw [hsize, htail, hhead]
          omega

/-! ## Doorbells -/

theorem rings_iff {heaps : ℕ → Heap} {k k' : ℕ} {d e : Device} {q : QueueId} {tail : BitVec 16}
    (hb : d.busy = none) (he : (d.n.sq q).enabled = true) :
    Rings heaps k d q tail k' e ↔ Drained heaps k ⟨d.n.setTail q tail, some q⟩ k' e := by
  rw [Rings, Device.step_sqTailWrite hb, he, if_pos rfl]
  simp [NvmeCtrl.setTail]

/-- A loop towards a tail within the ring comes to its end. -/
theorem Drained.exists_end {maxNumKeys : BitVec 32} (hmax : maxNumKeys.toNat < 2 ^ 30)
    (heaps : ℕ → Heap) {q : QueueId} {d : Device} (hd : Device.Reachable maxNumKeys d)
    (hb : d.busy = some q) (ht : (d.n.sq q).tail.toNat < (d.n.sq q).size.toNat) (k : ℕ) :
    ∃ k' e, Drained heaps k d k' e := by
  induction hm : ringDist (d.n.sq q).size.toNat (d.n.sq q).head.toNat (d.n.sq q).tail.toNat
    using Nat.strong_induction_on generalizing d k with
  | h m ih =>
    obtain ⟨hvalid, hkeys⟩ := hd.ns_valid
    have hint : d.n.ns.entriesAllocated < 2 ^ 31 := by
      have hle := hvalid.allocated_le
      rw [hkeys, show kvInitialEntries = 16 from rfl] at hle
      omega
    have hring := hd.ok.rings.sq q (hd.ok.busy q hb)
    obtain ⟨d', hs⟩ := Device.iterate_isSome hd.ok hb (heaps k) (.inr ⟨hvalid, fun _ => hint⟩)
    have hr' := hd.next hs
    cases Device.step_cases hs with
    | finished | fetchFailed => exact ⟨k, _, .finish hs rfl⟩
    | @consumed heap p hb' hne _ n' hc =>
      obtain rfl := Option.some.inj (hb'.symm.trans hb)
      have hdist := ringDist_pred hring.head_lt ht fun h => hne (BitVec.eq_of_toNat_eq h)
      obtain ⟨hsize, htail, hhead⟩ := hc.ring hring
      have hcloser : ringDist (n'.sq p).size.toNat (n'.sq p).head.toNat (n'.sq p).tail.toNat < m := by
        rw [hsize, htail, hhead]
        omega
      obtain ⟨k', e, h⟩ := ih _ hcloser hr' rfl (by simpa only [hsize, htail] using ht) (k + 1) rfl
      exact ⟨k', e, .consume hs (fun hn => nomatch hn) h⟩

/-- Ringing at a tail on the ring path and then at the last one is ringing once: the same
controller, guest memory and log, interrupts included. -/
theorem Device.Reachable.doorbell_batching {maxNumKeys : BitVec 32} {d : Device}
    (h : Reachable maxNumKeys d) (hb : d.busy = none) {q : QueueId}
    (he : (d.n.sq q).enabled = true) {t₁ t₂ : BitVec 16}
    (h₁ : t₁.toNat < (d.n.sq q).size.toNat) (h₂ : t₂.toNat < (d.n.sq q).size.toNat)
    (hpath : ringDist (d.n.sq q).size.toNat (d.n.sq q).head.toNat t₁.toNat ≤
      ringDist (d.n.sq q).size.toNat (d.n.sq q).head.toNat t₂.toNat) (heaps : ℕ → Heap) (k : ℕ) :
    (∀ k' e, Rings heaps k d q t₂ k' e ↔
      ∃ k₁ d₁, Rings heaps k d q t₁ k₁ d₁ ∧ Rings heaps k₁ d₁ q t₂ k' e) ∧
    (maxNumKeys.toNat < 2 ^ 30 → ∃ k' e, Rings heaps k d q t₂ k' e) := by
  have hring := h.ok.rings.sq q he
  have hsplit : SplitsAt heaps q t₂ (d.n.setTail q t₁) k := by
    apply splitsAt_of_path
    · simpa using { hring with : NvmeSq.Ok { d.n.sq q with tail := t₁ } }
    · simpa using he
    · simpa using h₁
    · simpa using h₂
    · simpa using hpath
  constructor
  · intro k' e
    have hs := hsplit k' e
    rw [NvmeCtrl.setTail_setTail] at hs
    rw [rings_iff hb he, hs]
    constructor
    · rintro ⟨k₁, n₁, hd, hrest⟩
      refine ⟨k₁, ⟨n₁, none⟩, (rings_iff hb he).mpr hd, (rings_iff rfl ?_).mpr hrest⟩
      exact hd.enabled rfl (by simpa using he)
    · rintro ⟨k₁, d₁, hd, hrest⟩
      rw [rings_iff hb he] at hd
      obtain ⟨n₁, busy⟩ := d₁
      obtain rfl : busy = none := hd.idle_end
      exact ⟨k₁, n₁, hd, (rings_iff rfl (hd.enabled rfl (by simpa using he))).mp hrest⟩
  · intro hmax
    have hs := step_sqTailWrite hb q t₂
    rw [he, if_pos rfl] at hs
    obtain ⟨k', e, hd⟩ := Drained.exists_end hmax heaps (h.next hs) rfl (by simpa using h₂) k
    exact ⟨k', e, _, hs, hd⟩

/-- One entry and then two more of an admin queue. -/
theorem Device.Reachable.doorbell_batching_three :
    ∃ d, Reachable 1 d ∧ (d.n.sq 0).enabled = true ∧
      (∀ k' e, Rings (fun _ _ => true) 0 d 0 3 k' e ↔ ∃ k₁ d₁,
        Rings (fun _ _ => true) 0 d 0 1 k₁ d₁ ∧ Rings (fun _ _ => true) k₁ d₁ 0 3 k' e) ∧
      ∃ k' e, Rings (fun _ _ => true) 0 d 0 3 k' e := by
  obtain ⟨d, hr, hb, hen, hhead, hsize⟩ := enableAdmin_reachable
  have h₁ : (1 : BitVec 16).toNat < (d.n.sq 0).size.toNat := by rw [hsize]; decide
  have h₂ : (3 : BitVec 16).toNat < (d.n.sq 0).size.toNat := by rw [hsize]; decide
  obtain ⟨hall, hexists⟩ := hr.doorbell_batching hb hen h₁ h₂ (by rw [hsize, hhead]; decide)
    (fun _ _ => true) 0
  exact ⟨d, hr, hen, hall, hexists (by decide)⟩

end VfuKvssd
