import Novarand.Ledger.GroupParams
import Novarand.Ledger.History

/-!
# The resources of a group

Programs pay for their instructions from a pool that all of a group share and that every inner
application call adds to; a clear state program has its own limit, below what the pool has when it
starts. Inner transactions are counted down from another pool, and no application of a call chain is
entered twice. So the cost of a group has a bound that is known before it starts, and it ends.
-/

namespace Novarand.Ledger

open List Transaction

open Cow (Ready)

namespace EvalParams

/-- The number of inner transactions of a group. -/
def innerLimit (proto : ConsensusParams) : ℕ := proto.maxTxGroupSize * proto.maxInnerTransactions

/-- The cost of a group with `outer` application calls, if all its inner transactions are calls. -/
def costLimit (proto : ConsensusParams) (outer : ℕ) : ℕ :=
  proto.maxAppProgramCost * (outer + innerLimit proto)

/-- The counters of a group with `outer` application calls, whose programs may each execute `fuel`
instructions. -/
structure Bounded (outer fuel : ℕ) (ep : EvalParams) : Prop where
  isolates : ep.proto.isolateClearState = true
  costPooling : ep.proto.enableAppCostPooling = true
  innerPooling : ep.proto.enableInnerTransactionPooling = true
  fuel : costLimit ep.proto outer < fuel
  budget : ∃ b : ℕ, ep.pooledApplicationBudget = some (b : ℤ) ∧
    b + ep.meter.spent = ep.proto.maxAppProgramCost * (outer + ep.meter.submitted.countP IsCall)
  inners : ∃ n : ℕ, ep.pooledAllowedInners = some (n : ℤ) ∧
    n + ep.meter.submitted.length = innerLimit ep.proto
  lowest : 0 ≤ ep.meter.lowest
  chains : ∀ chain ∈ ep.meter.chains, chain.Nodup ∧ chain.length ≤ maxAppCallDepth + 1
  exhausted : ep.meter.exhausted = false

variable {outer fuel : ℕ} {ep ep' inner : EvalParams}

section

variable (h : ep.Bounded outer fuel)
include h

theorem Bounded.same (hs : ep.Same ep') : ep'.Bounded outer fuel where
  isolates := hs.proto ▸ h.isolates
  costPooling := hs.proto ▸ h.costPooling
  innerPooling := hs.proto ▸ h.innerPooling
  fuel := hs.proto ▸ h.fuel
  budget := by
    rw [hs.budget, hs.meter, hs.proto]
    exact h.budget
  inners := by
    rw [hs.inners, hs.meter, hs.proto]
    exact h.inners
  lowest := hs.meter ▸ h.lowest
  chains := hs.meter ▸ h.chains
  exhausted := hs.meter ▸ h.exhausted

/-- The counters of the inner transactions are those of their caller. -/
theorem Bounded.resume (hi : inner.Bounded outer fuel) (hp : inner.proto = ep.proto) :
    (ep.resume inner).Bounded outer fuel where
  isolates := h.isolates
  costPooling := h.costPooling
  innerPooling := h.innerPooling
  fuel := h.fuel
  budget := hp ▸ hi.budget
  inners := hp ▸ hi.inners
  lowest := hi.lowest
  chains := hi.chains
  exhausted := hi.exhausted

/-- The cost so far is within what the calls so far have brought, and so within the limit. -/
theorem Bounded.spent_le : ep.meter.spent ≤ ep.proto.maxAppProgramCost *
      (outer + ep.meter.submitted.countP IsCall) := by
  obtain ⟨b, -, _⟩ := h.budget
  omega

theorem Bounded.submitted_le : ep.meter.submitted.length ≤ innerLimit ep.proto := by
  obtain ⟨n, -, _⟩ := h.inners
  omega

theorem Bounded.spent_le_limit : ep.meter.spent ≤ costLimit ep.proto outer := by
  refine h.spent_le.trans (Nat.mul_le_mul_left _ (Nat.add_le_add_left ?_ outer))
  exact countP_le_length.trans h.submitted_le

end

theorem Bounded.new {txgroup : List SignedTxn} {proto : ConsensusParams} {specials : SpecialAddresses}
    (hi : proto.isolateClearState = true) (hc : proto.enableAppCostPooling = true)
    (hn : proto.enableInnerTransactionPooling = true)
    (hl : 0 < (txgroup.map (·.txn)).countP IsCall)
    (hf : costLimit proto ((txgroup.map (·.txn)).countP IsCall) < fuel) :
    (new txgroup proto specials).Bounded ((txgroup.map (·.txn)).countP IsCall) fuel where
  isolates := hi
  costPooling := hc
  innerPooling := hn
  fuel := hf
  budget := by
    refine ⟨(txgroup.map (·.txn)).countP IsCall * proto.maxAppProgramCost, ?_, ?_⟩
    · simp only [EvalParams.new]
      rw [if_pos ⟨hc, hl⟩]
      rfl
    · exact Nat.mul_comm _ _
  inners := by
    simp only [EvalParams.new]
    rw [if_pos ⟨hn, hl⟩]
    simp [innerLimit]
  lowest := le_rfl
  chains := by
    intro _ hh
    cases hh
  exhausted := rfl

end EvalParams

namespace Machine

open EvalParams

variable {m : Machine} {outer fuel : ℕ} {ep ep' inner : EvalParams} {cx cx' : Context m.State}
  {l : LedgerForLogic}

/-- Before an instruction: enough instructions are left for what the group can still pay. -/
structure Running (outer fuel₀ fuel : ℕ) (cx : Context m.State) (ep : EvalParams) : Prop where
  bounded : ep.Bounded outer fuel₀
  left : costLimit ep.proto outer < fuel + ep.meter.spent
  apart : ep.Isolated cx.gi → cx.subtxns = []
  covered : ep.Isolated cx.gi →
    ∀ b ∈ ep.pooledApplicationBudget, (ep.proto.maxAppProgramCost : ℤ) ≤ b + cx.cost

variable {fuel₀ gi version cost : ℕ}

theorem Running.enter (h : ep.Bounded outer fuel₀) {aidx : AppIndex} {callers : List AppIndex}
    {state : m.State} (hn : (aidx :: callers).Nodup) (hl : callers.length ≤ maxAppCallDepth)
    (hd : ¬ (ep.Isolated gi ∧
      ∃ budget ∈ ep.pooledApplicationBudget, budget < ep.proto.maxAppProgramCost)) :
    Running outer fuel₀ fuel₀ ({ gi, appID := aidx, callers, version, state } : Context m.State)
      (ep.enter (aidx :: callers)) where
  bounded := { h with
    chains := forall_mem_append.mpr ⟨h.chains, forall_mem_singleton.mpr
      ⟨hn, Nat.succ_le_succ hl⟩⟩ }
  left := Nat.lt_add_right _ h.fuel
  apart _ := rfl
  covered hi b hb := by
    have he : ¬ b < (ep.proto.maxAppProgramCost : ℤ) := fun ht => hd ⟨hi, b, hb, ht⟩
    show (ep.proto.maxAppProgramCost : ℤ) ≤ b + ((0 : ℕ) : ℤ)
    omega

/-- The pool can pay for an instruction that is executed. -/
theorem Running.pay (h : Running outer fuel₀ (fuel + 1) cx ep) (hp : 0 < cost)
    (hd : 0 ≤ (cx.pay cost).remainingBudget (ep.charge cost)) :
    Running outer fuel₀ fuel (cx.pay cost) (ep.charge cost) := by
  obtain ⟨b, hb, hs⟩ := h.bounded.budget
  have h2 : cost ≤ b := by
    unfold Context.remainingBudget at hd
    split_ifs at hd with hi
    · have hc := h.covered hi b hb
      simp only [Context.pay, charge] at hd
      omega
    · simp only [charge, hb, Option.map_some, Option.getD_some] at hd
      omega
  have hl : ((b : ℤ) - cost) = ((b - cost : ℕ) : ℤ) := by omega
  have h1 : (ep.charge cost).pooledApplicationBudget = some ((b - cost : ℕ) : ℤ) := by
    simp [charge, hb, hl]
  exact {
    bounded := { h.bounded with
      budget := by
        refine ⟨b - cost, h1, ?_⟩
        show b - cost + (ep.meter.spent + cost) = _
        rw [← Nat.add_assoc, Nat.add_right_comm, Nat.sub_add_cancel h2]
        exact hs
      lowest := by
        simp only [charge, hb, Option.map_some, Option.getD_some, hl]
        exact le_min h.bounded.lowest (Int.natCast_nonneg _) }
    left := by
      have := h.left
      show costLimit ep.proto outer < fuel + (ep.meter.spent + cost)
      omega
    apart := h.apart
    covered := by
      intro hi _ hb'
      obtain rfl := Option.some.inj (h1.symm.trans hb')
      have hc := h.covered hi b hb
      show (ep.proto.maxAppProgramCost : ℤ) ≤ _ + ((cx.cost + cost : ℕ) : ℤ)
      omega }

theorem Running.step (h : Running outer fuel₀ fuel cx ep) (hg : cx'.gi = cx.gi)
    (hc : cx'.cost = cx.cost)
    (hu : cx'.subtxns = cx.subtxns ∨ ¬ ep.Isolated cx.gi) (hs : ep.Same ep') :
    Running outer fuel₀ fuel cx' ep' where
  bounded := h.bounded.same hs
  left := by
    rw [hs.proto, hs.meter]
    exact h.left
  apart := by
    rw [hg, hs.grows.isolated]
    intro hi
    rw [hu.resolve_right (not_not.mpr hi)]
    exact h.apart hi
  covered := by
    rw [hg, hs.grows.isolated, hc, hs.budget, hs.proto]
    exact h.covered

/-- The fee credit is not among the counters. -/
theorem Running.credited (h : Running outer fuel₀ fuel cx ep) {r : Except EvalError Unit}
    (hs : m.opTxSubmit cx ep l = (ep', r)) : ep'.Bounded outer fuel₀ := by
  obtain ⟨_, _, he⟩ := opTxSubmit_credit cx ep l
  rw [hs] at he
  obtain rfl : ep' = _ := he
  exact { h.bounded with }

/-- A submission takes its transactions from the pool, and adds a budget for each call among them. -/
theorem Running.submit (h : Running outer fuel₀ fuel cx ep) {u : Unit}
    (hs : m.opTxSubmit cx ep l = (ep', .ok u)) :
    (ep'.inner (m.groupSubtxns cx ep')).Bounded outer fuel₀ := by
  obtain ⟨_, _, he⟩ := opTxSubmit_credit cx ep l
  rw [hs] at he
  obtain ⟨hi, -⟩ := opTxSubmit_ok hs
  obtain ⟨b, hb, hu⟩ := h.bounded.budget
  obtain ⟨n, hn, _⟩ := h.bounded.inners
  have hl := length_groupSubtxns cx ep'
  have hle : cx.subtxns.length ≤ n := by
    simp only [remainingInners, h.bounded.innerPooling, hn] at hi
    simpa using hi
  generalize m.groupSubtxns cx ep' = subtxns at hl ⊢
  subst he
  exact { h.bounded with
    budget := by
      refine ⟨b + subtxns.countP IsCall * ep.proto.maxAppProgramCost, ?_, ?_⟩
      · simp only [EvalParams.inner, h.bounded.costPooling, hb]
        simp
      · simp only [EvalParams.inner, countP_append]
        calc b + subtxns.countP IsCall * ep.proto.maxAppProgramCost + ep.meter.spent
            = (b + ep.meter.spent) + ep.proto.maxAppProgramCost * subtxns.countP IsCall := by ring
          _ = ep.proto.maxAppProgramCost * (outer + (ep.meter.submitted.countP IsCall +
                subtxns.countP IsCall)) := by rw [hu]; ring
    inners := by
      refine ⟨n - subtxns.length, ?_, ?_⟩
      · simp only [EvalParams.inner, hn, Option.map_some]
        congr 1
        omega
      · simp only [EvalParams.inner, length_append]
        omega }

/-- The counters of a group with `outer` application calls. -/
def boundedRule (m : Machine) (outer fuel₀ : ℕ) : m.Rule fuel₀ True where
  Good := Bounded outer fuel₀
  Bad := Bounded outer fuel₀
  In := Running outer fuel₀
  isolates h := h.isolates
  bad h := h
  same h hs := h.same hs
  enter h hnew hlen hbudget := .enter h (hnew trivial) hlen hbudget
  exit h := h.bounded
  exhaust h := by
    have hspent := h.bounded.spent_le_limit
    have hleft := h.left
    omega
  apart h := h.apart
  pay h hpos hbudget := h.pay hpos hbudget
  step h hgi hcost hsub hs := h.step hgi hcost hsub hs
  refuse h hsub := h.credited hsub
  submit h hsub := h.submit hsub
  resume {fuel cx ep l ep' u s inner} h hsub hgrows hgood := by
    have hbounded := h.credited hsub
    obtain ⟨credit, sat, hep⟩ := opTxSubmit_credit cx ep l
    rw [hsub] at hep
    obtain rfl : ep' = _ := hep
    -- an isolated program has nothing to submit
    have hiso : ¬ ep.Isolated cx.gi := fun hiso => (opTxSubmit_ok hsub).2.2.1 (h.apart hiso)
    exact {
      bounded := hbounded.resume hgood hgrows.proto
      left := h.left.trans_le (Nat.add_le_add_left hgrows.spent fuel)
      apart := fun _ => rfl
      covered := fun h => absurd h hiso }
  abandon h hsub hgrows hbad := (h.credited hsub).resume hbad hgrows.proto

end Machine

namespace BlockEvaluator

open EvalParams

/-- The resources of a group that is accepted or fails, in any block on a ledger whose ids are
numbered. The pooled budget was never below zero, all instructions cost at most what the outer and
inner application calls bring, there are not too many inner transactions, and on every call chain the
applications differ and are at most one more than the depth allows. Every program ends by itself:
none uses up more instructions than the cost limit of the group. -/
theorem group_resources_bounded {m : Machine} {fuel : ℕ} {env : Environment EvalParams}
    (henv : env.avm = m.avm fuel) {l : LedgerForEvaluator} {hdr : BlockHeader}
    {validate generate : Bool} {maxBytes : ℤ} {ev₀ ev : BlockEvaluator}
    (hstart : startEvaluator env l hdr validate generate maxBytes = .ok ev₀)
    (hnum : (Cow.base (l.base ev₀.prevHeader)).view.Numbered) (rewardAddresses : List Address)
    (hrun : Reaches env { ev₀ with rewardAddresses } ev) (txgroup : List SignedTxnWithAD)
    (hcost : ev.ctx.proto.enableAppCostPooling = true)
    (hinner : ev.ctx.proto.enableInnerTransactionPooling = true)
    (hiso : ev.ctx.proto.isolateClearState = true)
    (hfuel : costLimit ev.ctx.proto (txgroup.countP (·.signedTxn.txn.IsCall)) < fuel) :
    let meter := (ev.groupParams env txgroup).meter
    0 ≤ meter.lowest ∧
    meter.spent ≤ ev.ctx.proto.maxAppProgramCost *
      (txgroup.countP (·.signedTxn.txn.IsCall) + meter.submitted.countP IsCall) ∧
    meter.submitted.length ≤ ev.ctx.proto.maxTxGroupSize * ev.ctx.proto.maxInnerTransactions ∧
    (∀ chain ∈ meter.chains, chain.Nodup ∧ chain.length ≤ maxAppCallDepth + 1) ∧
    meter.exhausted = false := by
  have hr : Regular ev :=
    (Regular.reaches (I := fun _ => True) (fun _ _ _ => trivial) (fun _ _ _ => trivial)
      (((startEvaluator_started hstart).withRewardAddresses rewardAddresses).regular hnum) hrun).1
  have hc : ((txgroup.map (·.signedTxn)).map (·.txn)).countP IsCall =
      txgroup.countP (·.signedTxn.txn.IsCall) := by
    rw [map_map, countP_map]
    rfl
  rcases Nat.eq_zero_or_pos (txgroup.countP (·.signedTxn.txn.IsCall)) with hz | hp
  · -- without a call nothing is executed
    have hn : ∀ txad ∈ txgroup, ¬ txad.signedTxn.txn.IsCall := by simpa using countP_eq_zero.mp hz
    have h2 : (ev.startGroup env txgroup).ep.Same (ev.groupParams env txgroup) :=
      loopParams_same henv hn
    have hm : ∃ sat, (ev.groupParams env txgroup).meter = { saturated := sat } := by
      rw [h2.meter]
      simp only [startGroup, henv]
      exact ⟨_, rfl⟩
    obtain ⟨sat, hm⟩ := hm
    rw [hm]
    refine ⟨le_rfl, Nat.zero_le _, Nat.zero_le _, ?_, rfl⟩
    intro chain hh
    cases hh
  · have hg : (new (txgroup.map (·.signedTxn)) ev.ctx.proto
        { feeSink := ev.ctx.feeSink, rewardsPool := ev.ctx.rewardsPool }).Bounded _ fuel :=
      .new hiso hcost hinner (hc ▸ hp) (hc ▸ hfuel)
    rw [hc] at hg
    generalize txgroup.countP (·.signedTxn.txn.IsCall) = outer at hg ⊢
    have ha := groupParams_left (R := m.boundedRule outer fuel) henv txgroup
      (fun _ => ⟨_, hr.ready, hr.settled⟩) hg
    have h3 : (ev.groupParams env txgroup).proto = ev.ctx.proto := by
      rw [ha.grows.proto]
      simp only [startGroup, henv]
      rfl
    have hb : (ev.groupParams env txgroup).Bounded _ fuel := ha.bad
    have h1 := hb.spent_le
    have hs := hb.submitted_le
    rw [h3] at h1 hs
    exact ⟨hb.lowest, h1, hs, hb.chains, hb.exhausted⟩

end BlockEvaluator

namespace Sample

/-- The number of instructions for a group with one call. -/
def fuel : ℕ := EvalParams.costLimit {} 1 + 1

end Sample

open Sample

open BlockEvaluator

/-- A program of five instructions that pays out a coin and calls an application of one. -/
theorem group_resources_bounded_nested :
    ∃ ev₀, startEvaluator (machineEnv fuel) ledger header true true 0 =
        .ok ev₀ ∧
      let meter := (ev₀.groupParams (machineEnv fuel) (creates [2, 4, 3, 7, 5])).meter
      meter.submitted.length = 2 ∧ meter.spent = 6 ∧ meter.chains = [[11], [13, 11]] ∧
      (∀ chain ∈ meter.chains, chain.Nodup ∧ chain.length ≤ maxAppCallDepth + 1) ∧
      meter.exhausted = false := by
  have hd : (startEvaluator (machineEnv fuel) ledger header true true
      0).toOption.map (fun ev₀ =>
        let meter := (ev₀.groupParams (machineEnv fuel) (creates [2, 4, 3, 7, 5])).meter
        (meter.submitted.length, meter.spent, meter.chains)) = some (2, 6, [[11], [13, 11]]) := by
    decide +kernel
  obtain ⟨ev₀, hs, hm⟩ := exists_ok_of_toOption hd
  simp only [Prod.mk.injEq] at hm
  refine ⟨ev₀, hs, hm.1, hm.2.1, hm.2.2, ?_⟩
  obtain ⟨-, -, -, hp⟩ := startEvaluator_mode hs
  have hp : ev₀.ctx.proto = {} := (Option.some.inj hp).symm
  have hb := group_resources_bounded rfl hs (fun _ _ h => absurd rfl h) ev₀.rewardAddresses
    .refl (creates [2, 4, 3, 7, 5]) (by rw [hp]) (by rw [hp]) (by rw [hp])
    (by rw [hp]; exact Nat.lt_succ_self _)
  exact hb.2.2.2

end Novarand.Ledger
