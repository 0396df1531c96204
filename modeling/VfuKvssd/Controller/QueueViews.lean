import VfuKvssd.Controller.HostRings

/-! # The host's and the log's view of one queue over a step -/
namespace VfuKvssd
open Foundations

/-! ## Observers and steps -/

theorem executed_append (q : QueueId) (es fs : List Event) :
    executed q (es ++ fs) = (queueEvents fs).foldl (executedNext q) (executed q es) := by
  rw [executed, List.foldl_append]
  exact foldl_queueEvents (fun _ e h => by cases e <;> first | rfl | cases h) _ fs

theorem due_append (c : QueueId) (es fs : List Event) :
    due c (es ++ fs) = (queueEvents fs).foldl (dueNext c) (due c es) := by
  rw [due, List.foldl_append]
  exact foldl_queueEvents (fun _ e h => by cases e <;> first | rfl | cases h) _ fs

theorem posts_append (c : QueueId) (es fs : List Event) :
    posts c (es ++ fs) = (queueEvents fs).foldl (postsNext c) (posts c es) := by
  rw [posts, List.foldl_append]
  exact foldl_queueEvents (fun _ e h => by cases e <;> first | rfl | cases h) _ fs

section After
variable {h : Host} {i : Input} {d d' : Device} {es : List Event}

theorem Host.after_writer (htr : d'.n.world.trace = d.n.world.trace ++ es) (q : QueueId) :
    (h.after i d d').writer q = (queueEvents es).foldl (writerNext q)
      ((h.writer q).ring (d.n.sq q) d.n.world.mem (i.sqTail q)) := by
  rw [after, Device.newEvents_eq htr]
  exact foldl_queueEvents (fun _ e h => by cases e <;> first | rfl | cases h) _ es

theorem Host.after_reader (htr : d'.n.world.trace = d.n.world.trace ++ es) (c : QueueId) :
    (h.after i d d').reader c =
      (queueEvents es).foldl (readerNext c (d.n.cq c).size.toNat) (h.reader c) := by
  rw [after, Device.newEvents_eq htr]
  exact foldl_queueEvents (fun _ e h => by cases e <;> first | rfl | cases h) _ es

end After

/-! ## Doorbell writes -/

theorem Doorbell.sqTail {offset : ℕ} {buf : List Byte} {q : QueueId} {val : BitVec 16}
    (hd : Doorbell offset buf false q val) (p : QueueId) :
    (Input.bar0 true offset buf).sqTail p = if p = q then some val else none := by
  obtain ⟨hrange, hqueue, hside, v, hv, rfl⟩ := hd
  have heven : (offset - nvmeRegDoorbell) / 4 % 2 = 0 := by
    have hne := of_decide_eq_false hside.symm
    omega
  have hval : BitVec.ofNat 16 (leNat buf) = v.setWidth 16 := by
    rw [rdLe] at hv
    split at hv
    · rw [← Option.some.inj hv, BitVec.setWidth_ofNat_of_le (by decide)]
    · cases hv
  simp only [Input.sqTail, hrange, hqueue, heven, hval, true_and, and_true]
  by_cases hp : p = q
  · simp [hp]
  · rw [if_neg fun h => hp (Fin.ext h.symm), if_neg hp]

theorem Doorbell.sqTail_cq {offset : ℕ} {buf : List Byte} {c : QueueId} {val : BitVec 16}
    (hd : Doorbell offset buf true c val) (q : QueueId) :
    (Input.bar0 true offset buf).sqTail q = none := by
  have hodd := of_decide_eq_true hd.side.symm
  exact if_neg fun h => by omega

theorem Input.sqTail_noQueue {offset : ℕ} {buf : List Byte}
    (hq : nvmeMaxQueues ≤ (offset - nvmeRegDoorbell) / 4 / 2 % 2 ^ 16) (q : QueueId) :
    (Input.bar0 true offset buf).sqTail q = none :=
  if_neg fun h => absurd (h.2.1 ▸ hq) (not_le.mpr q.isLt)

theorem Input.sqTail_register {offset : ℕ} {buf : List Byte} (ho : offset < nvmeRegDoorbell)
    (q : QueueId) : (Input.bar0 true offset buf).sqTail q = none :=
  if_neg fun h => absurd h.1 (not_le.mpr ho)

/-- A submission queue over a change of the arrays: it is left alone and the queue events are not
about it, or it is created. -/
inductive SqView (n n' : NvmeCtrl) (q : QueueId) (xs : List Event) : Prop
  | kept (hsq : n'.sq q = n.sq q) (hex : ∀ l, xs.foldl (executedNext q) l = l)
      (hw : ∀ w, xs.foldl (writerNext q) w = w)
  | created (hf : (n'.sq q).Fresh) (hex : ∀ l, xs.foldl (executedNext q) l = [])
      (hw : ∀ w, xs.foldl (writerNext q) w = .fresh)

/-- The same for a completion queue. -/
inductive CqView (n n' : NvmeCtrl) (c : QueueId) (xs : List Event) : Prop
  | kept (hcq : n'.cq c = n.cq c) (hp : ∀ l, xs.foldl (postsNext c) l = l)
      (hd : ∀ l, xs.foldl (dueNext c) l = l) (hr : ∀ size r, xs.foldl (readerNext c size) r = r)
  | created (hf : (n'.cq c).Fresh) (hi : ∃ k, .cqInit c k ∈ xs)
      (hp : ∀ l, xs.foldl (postsNext c) l = []) (hd : ∀ l, xs.foldl (dueNext c) l = [])
      (hr : ∀ size r, xs.foldl (readerNext c size) r = .fresh)

/-- Queue events that are not about a submission queue. -/
structure SqQuiet (q : QueueId) (zs : List Event) : Prop where
  executed : ∀ l, zs.foldl (executedNext q) l = l
  writer : ∀ w, zs.foldl (writerNext q) w = w

/-- Queue events that are not about a completion queue. -/
structure CqQuiet (c : QueueId) (zs : List Event) : Prop where
  posts : ∀ l, zs.foldl (postsNext c) l = l
  due : ∀ l, zs.foldl (dueNext c) l = l
  reader : ∀ size r, zs.foldl (readerNext c size) r = r

theorem SqQuiet.nil (q : QueueId) : SqQuiet q [] := ⟨fun _ => rfl, fun _ => rfl⟩

theorem CqQuiet.nil (c : QueueId) : CqQuiet c [] := ⟨fun _ => rfl, fun _ => rfl, fun _ _ => rfl⟩

theorem SqView.append {n n' : NvmeCtrl} {q : QueueId} {xs zs : List Event} (h : SqView n n' q xs)
    (hz : SqQuiet q zs) : SqView n n' q (xs ++ zs) := by
  cases h with
  | kept hsq h₁ h₂ =>
    exact .kept hsq (fun l => by rw [List.foldl_append, h₁, hz.executed])
      fun l => by rw [List.foldl_append, h₂, hz.writer]
  | created hf h₁ h₂ =>
    exact .created hf (fun l => by rw [List.foldl_append, h₁, hz.executed])
      fun l => by rw [List.foldl_append, h₂, hz.writer]

theorem CqView.append {n n' : NvmeCtrl} {c : QueueId} {xs zs : List Event} (h : CqView n n' c xs)
    (hz : CqQuiet c zs) : CqView n n' c (xs ++ zs) := by
  cases h with
  | kept hcq h₁ h₂ h₃ =>
    exact .kept hcq (fun l => by rw [List.foldl_append, h₁, hz.posts])
      (fun l => by rw [List.foldl_append, h₂, hz.due])
      fun _ _ => by rw [List.foldl_append, h₃, hz.reader]
  | created hf hi h₁ h₂ h₃ =>
    exact .created hf (hi.imp fun _ hm => List.mem_append_left _ hm)
      (fun l => by rw [List.foldl_append, h₁, hz.posts])
      (fun l => by rw [List.foldl_append, h₂, hz.due])
      fun _ _ => by rw [List.foldl_append, h₃, hz.reader]

theorem Managed.sqView {m n' : NvmeCtrl} {xs : List Event} (hm : Managed m n' xs) {p : QueueId}
    (he : (n'.sq p).enabled = true) : SqView m n' p xs := by
  cases hm with
  | same hsq | createCq _ _ hsq | deleteCq _ hsq =>
    exact .kept (congrFun hsq p) (fun _ => rfl) fun _ => rfl
  | @createSq s _ x hx hsq =>
    by_cases hp : p = s
    · subst hp
      have hsq' : n'.sq p = x := by rw [hsq, Function.update_self]
      exact .created (hsq'.symm ▸ hx) (fun _ => by simp [executedNext])
        fun _ => by simp [writerNext]
    · exact .kept (by rw [hsq, Function.update_of_ne hp]) (fun _ => by simp [executedNext, Ne.symm hp])
        fun _ => by simp [writerNext, Ne.symm hp]
  | @deleteSq s _ hsq =>
    by_cases hp : p = s
    · subst hp
      simp [hsq] at he
    · exact .kept (by rw [hsq, Function.update_of_ne hp]) (fun _ => rfl) fun _ => rfl

theorem Managed.cqView {m n' : NvmeCtrl} {xs : List Event} (hm : Managed m n' xs) {c : QueueId}
    (he : (n'.cq c).enabled = true) : CqView m n' c xs := by
  cases hm with
  | same _ hcq | createSq _ _ _ hcq | deleteSq _ _ hcq =>
    exact .kept (congrFun hcq c) (fun _ => rfl) (fun _ => rfl) fun _ _ => rfl
  | @createCq c' _ x hx _ hcq =>
    by_cases hc : c = c'
    · subst hc
      have hcq' : n'.cq c = x := by rw [hcq, Function.update_self]
      exact .created (hcq'.symm ▸ hx) ⟨_, List.mem_singleton.mpr rfl⟩
        (fun _ => by simp [postsNext]) (fun _ => by simp [dueNext]) fun _ _ => by simp [readerNext]
    · exact .kept (by rw [hcq, Function.update_of_ne hc]) (fun _ => by simp [postsNext, Ne.symm hc])
        (fun _ => by simp [dueNext, Ne.symm hc]) fun _ _ => by simp [readerNext, Ne.symm hc]
  | @deleteCq c' _ _ hcq =>
    by_cases hc : c = c'
    · subst hc
      simp [hcq] at he
    · exact .kept (by rw [hcq, Function.update_of_ne hc]) (fun _ => rfl) (fun _ => rfl)
        fun _ _ => rfl

theorem Switched.sqView {n n' : NvmeCtrl} {es : List Event} (hs : Switched n n' es) {p : QueueId}
    (he : (n'.sq p).enabled = true) : SqView n n' p (queueEvents es) := by
  cases hs with
  | same hsq => exact .kept (congrFun hsq p) (fun _ => rfl) fun _ => rfl
  | down hsq =>
    rw [hsq] at he
    cases he
  | @start x y hx _ _ hsq =>
    by_cases hp : p = 0
    · subst hp
      have hsq' : n'.sq 0 = x := by rw [hsq, Function.update_self]
      exact .created (hsq'.symm ▸ hx) (fun _ => by simp [queueEvents, Event.isData, executedNext])
        fun _ => by simp [queueEvents, Event.isData, writerNext]
    · exact .kept (by rw [hsq, Function.update_of_ne hp])
        (fun _ => by simp [queueEvents, Event.isData, executedNext, Ne.symm hp])
        fun _ => by simp [queueEvents, Event.isData, writerNext, Ne.symm hp]

theorem Switched.cqView {n n' : NvmeCtrl} {es : List Event} (hs : Switched n n' es) {c : QueueId}
    (he : (n'.cq c).enabled = true) : CqView n n' c (queueEvents es) := by
  cases hs with
  | same _ hcq => exact .kept (congrFun hcq c) (fun _ => rfl) (fun _ => rfl) fun _ _ => rfl
  | down _ hcq =>
    rw [hcq] at he
    cases he
  | @start x y _ _ hy _ hcq =>
    by_cases hc : c = 0
    · subst hc
      have hcq' : n'.cq 0 = y := by rw [hcq, Function.update_self]
      exact .created (hcq'.symm ▸ hy) ⟨y.size.toNat, by simp [queueEvents, Event.isData]⟩
        (fun _ => by simp [queueEvents, Event.isData, postsNext])
        (fun _ => by simp [queueEvents, Event.isData, dueNext])
        fun _ _ => by simp [queueEvents, Event.isData, readerNext]
    · exact .kept (by rw [hcq, Function.update_of_ne hc])
        (fun _ => by simp [queueEvents, Event.isData, postsNext, Ne.symm hc])
        (fun _ => by simp [queueEvents, Event.isData, dueNext, Ne.symm hc])
        fun _ _ => by simp [queueEvents, Event.isData, readerNext, Ne.symm hc]

/-- The admin queues are not created by commands, so what a command does to the queue arrays is
not about the queue it came from. -/
theorem Managed.sqQuiet {m n' : NvmeCtrl} {xs : List Event} (hm : Managed m n' xs) {q : QueueId}
    (hio : q ≠ 0 → xs = []) : SqQuiet q xs := by
  by_cases hq : q = 0
  · subst hq
    cases hm with
    | same | createCq | deleteCq | deleteSq => exact ⟨fun _ => rfl, fun _ => rfl⟩
    | createSq hs =>
      exact ⟨fun _ => by simp [executedNext, hs], fun _ => by simp [writerNext, hs]⟩
  · rw [hio hq]
    exact .nil q

/-- Nor is it about the completion queue of that queue. -/
theorem Managed.cqQuiet {m n' : NvmeCtrl} {xs : List Event} (hm : Managed m n' xs)
    {q c : QueueId} (hio : q ≠ 0 → xs = []) (hc : q = 0 → c = 0) : CqQuiet c xs := by
  by_cases hq : q = 0
  · rw [hc hq]
    cases hm with
    | same | createSq | deleteCq | deleteSq => exact ⟨fun _ => rfl, fun _ => rfl, fun _ _ => rfl⟩
    | createCq hc =>
      exact ⟨fun _ => by simp [postsNext, hc], fun _ => by simp [dueNext, hc],
        fun _ _ => by simp [readerNext, hc]⟩
  · rw [hio hq]
    exact .nil c

end VfuKvssd
