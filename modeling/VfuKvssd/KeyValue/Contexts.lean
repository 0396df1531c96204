import VfuKvssd.KeyValue.Handlers
import Mathlib.Data.Option.Basic

/-! # Handlers over related contexts

A handler looks at its context only through the two transfers, so contexts that
the transfers cannot tell apart lead to the same status and the same namespace.
-/
namespace VfuKvssd
open Foundations

variable {σ τ : Type} {R : σ → τ → Prop}

/-- Transfers that answer alike over related contexts. -/
structure KvDma.Related (R : σ → τ → Prop) (dma : KvDma σ) (dma' : KvDma τ) : Prop where
  h2c : ∀ {c c'} cmd dst, R c c' → (dma.h2c c cmd dst).1 = (dma'.h2c c' cmd dst).1 ∧
    (dma.h2c c cmd dst).2.1 = (dma'.h2c c' cmd dst).2.1 ∧
    R (dma.h2c c cmd dst).2.2 (dma'.h2c c' cmd dst).2.2
  c2h : ∀ {c c'} cmd src, R c c' → (dma.c2h c cmd src).1 = (dma'.c2h c' cmd src).1 ∧
    R (dma.c2h c cmd src).2 (dma'.c2h c' cmd src).2

/-- Equal statuses and namespaces, related contexts. -/
def SameOutcome (R : σ → τ → Prop) : Option (Status × KvNs × σ) → Option (Status × KvNs × τ) → Prop :=
  Option.Rel fun r r' => r.1 = r'.1 ∧ r.2.1 = r'.2.1 ∧ R r.2.2 r'.2.2

section
variable {dma : KvDma σ} {dma' : KvDma τ} {c : σ} {c' : τ}

theorem SameOutcome.early (hc : R c c') (st : Status) (ns : KvNs) :
    SameOutcome R (some (st, ns, c)) (some (st, ns, c')) := .some ⟨rfl, rfl, hc⟩

theorem kvReceive_related (hd : dma.Related R dma') (hc : R c c') (ns : KvNs) (i : ℕ)
    (cmd : NvmeKVCmd) : SameOutcome R (kvReceive ns i cmd dma c) (kvReceive ns i cmd dma' c') := by
  rw [kvReceive, kvReceive]
  cases ns.pairs[i]? with
  | none => exact .none
  | some p =>
    obtain ⟨hok, hdst, hctx⟩ := hd.h2c cmd (p.val.bytes.take cmd.hbs) hc
    refine .some ⟨?_, ?_, hctx⟩
    · simp only [hok]
    · simp only [hdst]

theorem kvInsert_related (hd : dma.Related R dma') (hc : R c c') (ns : KvNs) (slot : ℤ)
    (cmd : NvmeKVCmd) :
    SameOutcome R (kvInsert ns slot cmd dma c) (kvInsert ns slot cmd dma' c') := by
  rw [kvInsert, kvInsert]
  split
  · exact .none
  split
  · exact .none
  · exact kvReceive_related hd hc _ _ _

theorem kvStore_related (hd : dma.Related R dma') (hc : R c c') (ns : KvNs) (cmd : NvmeKVCmd)
    (heap : Heap) : SameOutcome R (kvStore ns cmd dma c heap) (kvStore ns cmd dma' c' heap) := by
  rw [kvStore, kvStore]
  split
  · exact .early hc _ _
  split
  · exact .early hc _ _
  split
  · split
    · exact .early hc _ _
    · exact kvReceive_related hd hc _ _ _
  · split
    · exact .early hc _ _
    split
    · exact .early hc _ _
    split
    · exact .early hc _ _
    · exact kvInsert_related hd hc _ _ _

theorem kvRetrieve_related (hd : dma.Related R dma') (hc : R c c') (ns : KvNs) (cmd : NvmeKVCmd) :
    (kvRetrieve ns cmd dma c).1 = (kvRetrieve ns cmd dma' c').1 ∧
      R (kvRetrieve ns cmd dma c).2 (kvRetrieve ns cmd dma' c').2 := by
  rw [kvRetrieve, kvRetrieve]
  split
  · exact ⟨rfl, hc⟩
  split
  · rename_i p _
    obtain ⟨hok, hctx⟩ := hd.c2h cmd (p.val.bytes.take (min cmd.hbs nvmeKvMaxValSize)) hc
    exact ⟨by simp only [hok], hctx⟩
  · exact ⟨rfl, hc⟩

theorem kvList_related (hd : dma.Related R dma') (hc : R c c') (ns : KvNs) (cmd : NvmeKVCmd)
    (heap : Heap) : (kvList ns cmd dma c heap).1 = (kvList ns cmd dma' c' heap).1 ∧
      R (kvList ns cmd dma c heap).2 (kvList ns cmd dma' c' heap).2 := by
  rw [kvList, kvList]
  split
  · exact ⟨rfl, hc⟩
  split
  · exact ⟨rfl, hc⟩
  dsimp only
  split
  · exact ⟨rfl, hc⟩
  · rename_i rds _
    obtain ⟨hok, hctx⟩ := hd.c2h cmd rds hc
    exact ⟨by simp only [hok], hctx⟩

/-- Every handler answers alike over related contexts. -/
theorem kvHandle_related (hd : dma.Related R dma') (hc : R c c') (op : KvOp) (ns : KvNs)
    (cmd : NvmeKVCmd) (heap : Heap) :
    SameOutcome R (kvHandle op ns cmd dma c heap) (kvHandle op ns cmd dma' c' heap) := by
  cases op with
  | store => exact kvStore_related hd hc ns cmd heap
  | retrieve =>
    obtain ⟨hst, hctx⟩ := kvRetrieve_related hd hc ns cmd
    exact .some ⟨hst, rfl, hctx⟩
  | delete => exact .early hc _ _
  | exist => exact .early hc _ _
  | list =>
    obtain ⟨hst, hctx⟩ := kvList_related hd hc ns cmd heap
    exact .some ⟨hst, rfl, hctx⟩

end

end VfuKvssd
