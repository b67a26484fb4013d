import Mathlib

/-!
# The pending transactions of the pool

Between two blocks groups are appended to the pending ones; after a block these are evaluated again.
-/

namespace Novarand.Pools

open List Function

/-- The pool of transactions `T` with IDs `I`. -/
structure PendingPool (T I : Type) where
  pendingTxGroups : List (List T) := []
  pendingTxids : I → Option T := fun _ => none
  rememberedTxGroups : List (List T) := []
  rememberedTxids : I → Option T := fun _ => none
  /-- The IDs of the transactions in the evaluator. -/
  pendingBlockEvaluator : Option (List I) := none

namespace PendingPool

variable {T I : Type} [DecidableEq I] (id : T → I)

def rememberCommit (flush : Bool) (p : PendingPool T I) : PendingPool T I where
  pendingTxGroups := if flush then p.rememberedTxGroups else p.pendingTxGroups ++ p.rememberedTxGroups
  pendingTxids i := if flush then p.rememberedTxids i else (p.rememberedTxids i).or (p.pendingTxids i)
  pendingBlockEvaluator := p.pendingBlockEvaluator

variable (p : PendingPool T I) (txgroup : List T)

/-- `ingest`. The evaluator refuses a group with an ID that it has or that is there twice; `fine` is
the outcome of all other checks. -/
def ingest (fine : Bool) : Option (PendingPool T I) :=
  p.pendingBlockEvaluator.bind fun ids =>
    if fine ∧ (ids ++ txgroup.map id).Nodup then
      some { p with
        pendingBlockEvaluator := some (ids ++ txgroup.map id)
        rememberedTxGroups := p.rememberedTxGroups ++ [txgroup]
        rememberedTxids := txgroup.foldl (fun m t => update m (id t) (some t)) p.rememberedTxids }
    else none

/-- `Remember`, which may wait for a block before it does anything to the pool. -/
def remember (fine : Bool) : Option (PendingPool T I) :=
  (p.ingest id txgroup fine).map (rememberCommit false)

variable (committed : I → Bool) (starts : Bool) (fine : List T → Bool)

/-- The loop of the recomputation skips an empty and a committed group. -/
def left : Bool := txgroup.head?.any fun t => !committed (id t)

def readd : PendingPool T I :=
  if left id txgroup committed then (p.ingest id txgroup (fine txgroup)).getD p else p

/-- `recomputeBlockEvaluator`, which ends early if the evaluator for the next round does not start. -/
def recompute : PendingPool T I :=
  if starts then
    rememberCommit true (p.pendingTxGroups.foldl (readd id · · committed fine)
      { p with pendingBlockEvaluator := some [] })
  else { p with pendingBlockEvaluator := none }

/-- What changes the pool under its lock: `AssembleBlock`, and `OnNewBlock` for an old block, do not. -/
inductive Op (T I : Type)
  | remember (txgroup : List T) (fine : Bool)
  | recompute (committed : I → Bool) (starts : Bool) (fine : List T → Bool)

def step : Op T I → PendingPool T I
  | .remember txgroup fine => (p.remember id txgroup fine).getD p
  | .recompute committed starts fine => p.recompute id committed starts fine

def run (ops : List (Op T I)) : PendingPool T I := ops.foldl (step id) {}

/-- A recomputation that does not end early drops the groups that are committed or refused. -/
def Op.keeps : Op T I → Bool
  | .remember _ _ => true
  | .recompute committed starts fine => !starts || left id txgroup committed && fine txgroup

def Holds (groups : List (List T)) (txids : I → Option T) : Prop :=
  ∀ i, (txids i).isSome ↔ i ∈ groups.flatten.map id

structure Inv : Prop where
  nodup : (p.pendingTxGroups.flatten.map id).Nodup
  holds : Holds id p.pendingTxGroups p.pendingTxids
  groups : p.rememberedTxGroups = []
  txids : p.rememberedTxids = fun _ => none
  evaluator : ∀ ids ∈ p.pendingBlockEvaluator, ids = p.pendingTxGroups.flatten.map id

variable {id p} {q : PendingPool T I} {g : List T}

theorem Holds.ingest {groups : List (List T)} {txids : I → Option T} (h : Holds id groups txids)
    (g : List T) :
    Holds id (groups ++ [g]) (g.foldl (fun m t => update m (id t) (some t)) txids) := by
  induction g using reverseRecOn with
  | nil => simpa [Holds] using h
  | append_singleton g t ih =>
    intro i
    have hi := ih i
    by_cases ht : i = id t <;> simp_all

theorem Inv.remember {fine : Bool} (h : p.Inv id) (hr : p.remember id g fine = some q) :
    q.Inv id ∧ q.pendingTxGroups = p.pendingTxGroups ++ [g] := by
  simp only [PendingPool.remember, ingest, Option.map_eq_some_iff, Option.bind_eq_some_iff,
    Option.ite_none_right_eq_some, Option.some.injEq] at hr
  obtain ⟨_, ⟨ids, he, ⟨-, hn⟩, rfl⟩, rfl⟩ := hr
  obtain rfl := h.evaluator ids he
  have hd := @Holds.ingest T I _ id [] (fun _ => none) (by simp [Holds]) g
  refine ⟨⟨?_, fun i => ?_, rfl, rfl, ?_⟩, ?_⟩
  · simpa [rememberCommit, h.groups] using hn
  · simp [rememberCommit, h.groups, h.txids, h.holds i, hd i, or_comm]
  all_goals simp [rememberCommit, h.groups]

/-- The IDs in the evaluator are those of other pending groups, so none is refused for its ID. -/
theorem Inv.readd (h : p.Inv id) (gs : List (List T)) (hn : (gs.flatten.map id).Nodup) :
    let q := gs.foldl (readd id · · committed fine) { p with pendingBlockEvaluator := some [] }
    q.rememberedTxGroups = gs.filter (Op.keeps id · (.recompute committed true fine)) ∧
      Holds id q.rememberedTxGroups q.rememberedTxids ∧
      q.pendingBlockEvaluator = some (q.rememberedTxGroups.flatten.map id) := by
  induction gs using reverseRecOn with
  | nil => simp [Holds, h.groups, h.txids]
  | append_singleton gs g ih =>
    rw [flatten_append, map_append] at hn
    obtain ⟨h1, h2, _⟩ := ih hn.of_append_left
    simp only [foldl_append, foldl_cons, foldl_nil, filter_append, ← h1]
    generalize gs.foldl _ _ = q at *
    have hs : q.rememberedTxGroups <+ gs := h1 ▸ filter_sublist
    have hg := hn.sublist ((hs.flatten.map id).append_right _)
    have hi := h2.ingest g
    by_cases hl : left id g committed <;> by_cases hf : fine g <;>
      simp_all [PendingPool.readd, ingest, Op.keeps]

theorem Inv.step (h : p.Inv id) (op : Op T I) : (p.step id op).Inv id ∧
    ∃ new, (p.step id op).pendingTxGroups = p.pendingTxGroups.filter (op.keeps id ·) ++ new := by
  cases op with
  | remember g fn =>
    cases hr : p.remember id g fn with
    | none => simpa [PendingPool.step, hr, Op.keeps] using h
    | some q =>
      obtain ⟨hq, he⟩ := h.remember hr
      simp [PendingPool.step, hr, Op.keeps, hq, he]
  | recompute cm st fn =>
    cases st with
    | false =>
      refine ⟨⟨h.nodup, h.holds, h.groups, h.txids, ?_⟩, [], ?_⟩ <;>
        simp [PendingPool.step, recompute, Op.keeps]
    | true =>
      obtain ⟨h1, h2, h3⟩ := h.readd cm fn _ h.nodup
      have hs : _ <+ p.pendingTxGroups := h1.symm ▸ filter_sublist
      refine ⟨⟨h.nodup.sublist (hs.flatten.map id), h2, rfl, rfl, fun ids hi => ?_⟩, [], ?_⟩
      · exact Option.some.inj (hi.symm.trans h3)
      · exact h1.trans (append_nil _).symm

theorem run_inv (id : T → I) (ops : List (Op T I)) : (run id ops).Inv id := by
  induction ops using reverseRecOn with
  | nil => exact ⟨by simp [run], by simp [run, Holds], rfl, rfl, by simp [run]⟩
  | append_singleton ops op ih => simpa [run] using (ih.step op).1

/-- The map has the IDs of the pending groups, none of them twice; a group that is accepted comes
last, and stays before the new ones unless a recomputation drops it. -/
theorem pending_exact (id : T → I) (ops : List (Op T I)) :
    let p := run id ops
    (p.pendingTxGroups.flatten.map id).Nodup ∧
      (∀ i, (p.pendingTxids i).isSome ↔ i ∈ p.pendingTxGroups.flatten.map id) ∧
      (∀ g fine q, p.remember id g fine = some q → q.pendingTxGroups = p.pendingTxGroups ++ [g]) ∧
      ∀ more, ∃ new, (run id (ops ++ more)).pendingTxGroups =
        p.pendingTxGroups.filter (fun g => more.all (Op.keeps id g)) ++ new := by
  have h := run_inv id ops
  refine ⟨h.nodup, h.holds, fun g fine q hr => (h.remember hr).2, fun more => ?_⟩
  induction more using reverseRecOn with
  | nil => simp
  | append_singleton more op ih =>
    obtain ⟨old, ih⟩ := ih
    obtain ⟨new, _⟩ := ((run_inv id (ops ++ more)).step op).2
    simp_all [run, filter_filter, Bool.and_comm]

end PendingPool

end Novarand.Pools
