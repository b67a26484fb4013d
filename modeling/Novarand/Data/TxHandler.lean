import Mathlib

/-!
# The worker of the transaction handler

Groups travel from the network through the backlog, the verification pool and the queue of verified
groups to the pool of transactions. One worker serves both queues between `Start` and `Stop`; the
context that ends it is made with the handler.
-/

namespace Novarand.Data

open Relation List

structure TxBacklogMsg (G E : Type) where
  unverifiedTxGroup : G
  verificationErr : Option E := none

/-- Between the calls of `Start` and `Stop`; `Stop` waits for the worker. -/
inductive Mode
  | stopped | started | stopping

/-- The worker is before its first select, before its second, or has returned. -/
inductive Worker
  | top | select | gone

/-- The handler of groups `G`, where `E` are the errors of verification. -/
structure TxHandler (G E : Type) where
  /-- The context of the handler is done. -/
  done : Bool := false
  mode : Mode := .stopped
  worker : Worker := .gone
  backlogQueue : List (TxBacklogMsg G E) := []
  txVerificationPool : List (TxBacklogMsg G E) := []
  postVerificationQueue : List (TxBacklogMsg G E) := []
  /-- The groups that were remembered and relayed. -/
  relayed : List G := []
  /-- The groups for which `TxnGroup` returned no error. -/
  verified : List G := []
  /-- The calls of `Start`. -/
  starts : ℕ := 0

namespace TxHandler

variable {H G E : Type} (txnGroup : H → G → Option E) (txBacklogSize : ℕ)

/-- `postprocessCheckedTxn`; the pool may refuse the group. -/
def postprocessCheckedTxn (wi : TxBacklogMsg G E) (remembered : Bool) (s : TxHandler G E) :
    TxHandler G E :=
  if wi.verificationErr.isNone ∧ remembered then
    { s with relayed := s.relayed ++ [wi.unverifiedTxGroup] }
  else s

/-- `asyncVerifySignature`, for the header of the latest block or the error of reading it. -/
def asyncVerifySignature (latestHdr : Except E H) (tx : TxBacklogMsg G E) (s : TxHandler G E) :
    TxHandler G E :=
  let err := match latestHdr with
    | .error e => some e
    | .ok hdr => txnGroup hdr tx.unverifiedTxGroup
  { s with
    verified := s.verified ++ if err.isNone then [tx.unverifiedTxGroup] else []
    postVerificationQueue := s.postVerificationQueue ++
      if s.postVerificationQueue.length < txBacklogSize then [{ tx with verificationErr := err }]
      else [] }

inductive Step : TxHandler G E → TxHandler G E → Prop
  | start {s} (h : s.mode = .stopped) :
    Step s { s with mode := .started, worker := .top, starts := s.starts + 1 }
  | stop {s} (h : s.mode = .started) : Step s { s with mode := .stopping, done := true }
  | stopped {s} (h : s.mode = .stopping) (hw : s.worker = .gone) : Step s { s with mode := .stopped }
  | incoming {s} (g : G) (h : s.backlogQueue.length < txBacklogSize) :
    Step s { s with backlogQueue := s.backlogQueue ++ [{ unverifiedTxGroup := g }] }
  /-- The first select finds no verified group. -/
  | default {s} (h : s.worker = .top) (hq : s.postVerificationQueue = []) :
    Step s { s with worker := .select }
  | postprocess {s wi rest} (h : s.worker ≠ .gone) (hq : s.postVerificationQueue = wi :: rest)
    (remembered : Bool) :
    Step s (postprocessCheckedTxn wi remembered
      { s with worker := .top, postVerificationQueue := rest })
  /-- A group of the backlog is passed on, unless it is committed or the pool is closed. -/
  | enqueue {s wi rest} (h : s.worker = .select) (hq : s.backlogQueue = wi :: rest) (passed : Bool) :
    Step s { s with
      worker := .top
      backlogQueue := rest
      txVerificationPool := s.txVerificationPool ++ if passed then [wi] else [] }
  | exit {s} (h : s.worker = .select) (hd : s.done) : Step s { s with worker := .gone }
  | verify {s l tx l'} (h : s.txVerificationPool = l ++ tx :: l') (latestHdr : Except E H) :
    Step s (asyncVerifySignature txnGroup txBacklogSize latestHdr tx
      { s with txVerificationPool := l ++ l' })

/-- The handlers that come from a new one. -/
abbrev Reached (s : TxHandler G E) : Prop := ReflTransGen (Step txnGroup txBacklogSize) {} s

variable {txnGroup txBacklogSize} {s s' : TxHandler G E}

/-- The context lasts until the first `Stop`, and only verified groups come through. -/
structure Inv (s : TxHandler G E) : Prop where
  idle : s.starts = 0 → s.mode = .stopped ∧ s.done = false
  first : s.starts = 1 → s.mode = .started → s.done = false ∧ s.worker ≠ .gone
  checked : ∀ wi ∈ s.postVerificationQueue, wi.verificationErr = none →
    wi.unverifiedTxGroup ∈ s.verified
  relayed : ∀ g ∈ s.relayed, g ∈ s.verified

theorem Step.inv (h : Step txnGroup txBacklogSize s s') (hi : s.Inv) : s'.Inv := by
  cases h with
  | start =>
    exact ⟨nofun, fun hs _ => ⟨(hi.idle (Nat.succ.inj hs)).2, nofun⟩, hi.checked, hi.relayed⟩
  | stop h =>
    refine ⟨fun hs => ?_, nofun, hi.checked, hi.relayed⟩
    cases h.symm.trans (hi.idle hs).1
  | stopped => exact ⟨fun hs => ⟨rfl, (hi.idle hs).2⟩, nofun, hi.checked, hi.relayed⟩
  | incoming => exact ⟨hi.idle, hi.first, hi.checked, hi.relayed⟩
  | default | enqueue =>
    exact ⟨hi.idle, fun hs hm => ⟨(hi.first hs hm).1, nofun⟩, hi.checked, hi.relayed⟩
  | postprocess _ hq =>
    have hc := hi.checked
    rw [hq, forall_mem_cons] at hc
    have hf := fun hs hm => And.intro (hi.first hs hm).1 (nofun : Worker.top ≠ .gone)
    unfold postprocessCheckedTxn
    split_ifs with hr
    · have hg := hc.1 (Option.isNone_iff_eq_none.mp hr.1)
      exact ⟨hi.idle, hf, hc.2, forall_mem_append.mpr ⟨hi.relayed, forall_mem_singleton.mpr hg⟩⟩
    · exact ⟨hi.idle, hf, hc.2, hi.relayed⟩
  | exit _ hd =>
    refine ⟨hi.idle, fun hs hm => ?_, hi.checked, hi.relayed⟩
    cases hd.symm.trans (hi.first hs hm).1
  | verify =>
    refine ⟨hi.idle, hi.first, fun wi hw he => ?_, fun g hg => mem_append_left _ (hi.relayed g hg)⟩
    rcases mem_append.mp hw with hw | hw
    · exact mem_append_left _ (hi.checked wi hw he)
    · split at hw
      · obtain rfl := mem_singleton.mp hw
        exact mem_append_right _ (by simpa using he)
      · cases hw

variable (h : Reached txnGroup txBacklogSize s)
include h in
theorem Reached.inv : s.Inv := by
  induction h with
  | refl => exact ⟨fun _ => ⟨rfl, rfl⟩, nofun, nofun, nofun⟩
  | tail _ h ih => exact h.inv ih

include h in
/-- A `Start` and a `Stop` with nothing in between but the exit of the worker. -/
theorem Reached.restart (hm : s.mode = .stopped) (hq : s.postVerificationQueue = []) :
    Reached txnGroup txBacklogSize
      { s with mode := .stopped, worker := .gone, starts := s.starts + 1, done := true } :=
  ((((h.tail (.start hm)).tail (.default rfl hq)).tail (.stop rfl)).tail (.exit rfl rfl)).tail
    (.stopped rfl rfl)

/-- After any number of restarts. -/
theorem reached_restarted (n : ℕ) : ∃ s : TxHandler G E, Reached txnGroup txBacklogSize s ∧
    s.starts = n + 1 ∧ s.mode = .stopped ∧ s.postVerificationQueue = [] ∧ s.done = true := by
  induction n with
  | zero => exact ⟨_, Reached.restart .refl rfl rfl, rfl, rfl, rfl, rfl⟩
  | succ n ih =>
    obtain ⟨s, h, hs, hm, hq, -⟩ := ih
    exact ⟨_, h.restart hm hq, congrArg _ hs, rfl, hq, rfl⟩

include h in
theorem Reached.exits (hm : s.mode = .stopped) (hq : s.postVerificationQueue = []) (hd : s.done) :
    Reached txnGroup txBacklogSize
      { s with mode := .started, worker := .gone, starts := s.starts + 1 } :=
  ((h.tail (.start hm)).tail (.default rfl hq)).tail (.exit rfl hd)

/-- Only the worker of the first `Start` lasts until the next `Stop`; only verified groups are
relayed. -/
theorem worker_lasts_iff (txnGroup : H → G → Option E) (txBacklogSize : ℕ) :
    (∀ n, (∀ s, Reached txnGroup txBacklogSize s → s.starts = n → s.mode = .started →
      s.worker ≠ .gone) ↔ n ≤ 1) ∧
      ∀ s, Reached txnGroup txBacklogSize s → ∀ g ∈ s.relayed, g ∈ s.verified := by
  refine ⟨fun n => ⟨fun h => ?_, fun hn s hr hs hm => ?_⟩, fun s hr => hr.inv.relayed⟩
  · refine Nat.not_lt.mp fun hn => ?_
    obtain ⟨m, rfl⟩ := Nat.exists_eq_add_of_le hn
    obtain ⟨s, hr, hs, hm, hq, hd⟩ := reached_restarted m
    exact h _ (hr.exits hm hq hd) (by simp [hs]; omega) rfl rfl
  · obtain hs' | hs' : s.starts = 0 ∨ s.starts = 1 := by omega
    · cases hm.symm.trans (hr.inv.idle hs').1
    · exact (hr.inv.first hs' hm).2

/-- After one restart the worker is gone before anything happens. -/
theorem restarted_worker_exits : ∃ s : TxHandler Unit Unit,
    Reached (fun _ : Unit => fun _ => none) 1 s ∧ s.starts = 2 ∧ s.mode = .started ∧
      s.worker = .gone :=
  ⟨_, (Reached.restart .refl rfl rfl).exits rfl rfl rfl, rfl, rfl, rfl⟩

end TxHandler
end Novarand.Data
