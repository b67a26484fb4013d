import Novarand.Agreement.Flat

/-!
# The router tree refines the flat machine

The tree and the flat state agree on every round the player has not left and on every period the
garbage collector keeps. Each dispatch therefore acts on the flat state as on a plain table, and
one event of the player is a run of the flat machine with the same actions.
-/

namespace Novarand.Agreement

open Flat Function Dict RoundState

/-! ## What a router holds -/

namespace PeriodRouter

variable (pr : PeriodRouter)

def step (s : Step) : StepRouter := pr.children.getD s {}

/-- The contents of a period's router. -/
def state : PeriodState where
  tracker := pr.proposalTracker
  contract := pr.proposalTrackerContract
  cached := pr.cached
  step := pr.step

@[simp] theorem state_update (s : Step) : (pr.update s).state = pr.state := by
  simp only [state, update, PeriodState.mk.injEq, true_and]
  funext s'
  exact getD_touch _ _ _ _

/-- A dispatch to a step acts on that step alone. -/
theorem toStep_ok {α : Type} {pr pr' : PeriodRouter} {s : Step}
    {f : StepRouter → M (StepRouter × α)} {a : α} (h : pr.toStep s f = .ok (pr', a)) :
    ∃ sr, f (pr.step s) = .ok (sr, a) ∧
      pr'.state = { pr.state with step := Function.update pr.state.step s sr } := by
  simp only [toStep, update, lookup_touch, if_true, bind_ok, Prod.exists, pure_ok,
    Prod.mk.injEq] at h
  obtain ⟨sr, _, hf, rfl, rfl⟩ := h
  refine ⟨sr, hf, ?_⟩
  simp only [state, PeriodState.mk.injEq, true_and]
  funext s'
  simp [step, getD_insert, getD_touch, update_apply]

end PeriodRouter

def RoundRouter.period (rr : RoundRouter) (p : Period) : PeriodRouter := rr.children.getD p {}

def RootRouter.round (rt : RootRouter) (r : Round) : RoundRouter := rt.children.getD r {}

/-- The router of a round holds `R` on the periods kept for a player in period `k`. A round ahead
of the player's has only period 0, so there nothing is lost. -/
structure RoundRel (k : Period) (ahead : Prop) (rr : RoundRouter) (R : RoundState) : Prop where
  store : rr.proposalStore = R.store
  fresh : rr.voteTrackerRound = R.fresh
  period : ∀ p, keepsPeriod k p = true ∨ ahead → (rr.period p).state = R.period p
  single : ahead → ∀ p, 0 < p → R.period p = {}

/-- The tree holds `rounds` from the player's round on. -/
def RouterRel (pl : Player) (rt : RootRouter) (rounds : Round → RoundState) : Prop :=
  ∀ r, pl.round ≤ r → RoundRel pl.period (pl.round < r) (rt.round r) (rounds r)

/-- The machine and the flat state agree. -/
structure Rel (m : Machine) (s : State) : Prop where
  player : m.player = s.player
  router : RouterRel s.player m.router s.rounds

/-! ## Dispatch -/

@[simp] theorem Flat.RoundState.setPeriod_self (R : RoundState) (p : Period) :
    R.setPeriod p (R.period p) = R := by simp [setPeriod]

theorem keepsPeriod_zero (k : Period) : keepsPeriod k 0 = true := by
  simp [keepsPeriod]

variable {R : RoundState} {ahead : Prop} {pl pl' : Player} {rr : RoundRouter}
  {p k k' target : Period} {α : Type} {rounds : Round → RoundState} {rt : RootRouter}

theorem RoundRel.update (h : RoundRel pl.period ahead rr R) (p : Period) :
    RoundRel pl.period ahead (rr.update pl p) R where
  store := h.store
  fresh := h.fresh
  period q hq := by
    by_cases hk : keepsPeriod pl.period q = true
    · rw [← h.period q (.inl hk)]
      simp [RoundRouter.period, RoundRouter.update, getD_filterKeys hk, getD_touch]
    · have ha := hq.resolve_left hk
      have hp : 0 < q := Nat.pos_of_ne_zero fun h0 => hk (h0 ▸ keepsPeriod_zero _)
      rw [h.single ha q hp]
      simp only [RoundRouter.period, RoundRouter.update, getD, lookup_filterKeys,
        if_neg hk, Option.getD_none]
      rfl
  single := h.single

variable {Q : α → Prop}

section

variable {rr' : RoundRouter} {f : PeriodRouter → M (PeriodRouter × α)} {a : α}
  (h : RoundRel pl.period ahead rr R) (hf : rr.toPeriod pl p f = .ok (rr', a))
include h hf

/-- A dispatch to a period needs the period to be kept, and acts on that period alone. -/
theorem RoundRel.toPeriod :
    keepsPeriod pl.period p = true ∧ ∃ pr pr', pr.state = R.period p ∧ f pr = .ok (pr', a) ∧
      ((ahead → 0 < p → pr'.state = {}) →
        RoundRel pl.period ahead rr' (R.setPeriod p pr'.state)) := by
  have hu := h.update p
  by_cases hk : keepsPeriod pl.period p = true
  · have hl : (rr.update pl p).children.lookup p = some ((rr.update pl p).period p) := by
      simp [RoundRouter.period, RoundRouter.update, getD, lookup_filterKeys, hk, lookup_touch]
    simp only [RoundRouter.toPeriod, hl, bind_ok, Prod.exists, pure_ok, Prod.mk.injEq] at hf
    obtain ⟨pr', _, hp, rfl, rfl⟩ := hf
    refine ⟨hk, _, pr', hu.period p (.inl hk), hp, fun hs => ?_⟩
    refine ⟨hu.store, hu.fresh, fun q hq => ?_, fun ha q hq => ?_⟩
    · simp only [RoundRouter.period, getD_insert, setPeriod, update_apply]
      by_cases h1 : q = p
      · rw [if_pos h1, if_pos h1]
      · rw [if_neg h1, if_neg h1]
        exact hu.period q hq
    · simp only [setPeriod, update_apply]
      by_cases h1 : q = p
      · rw [if_pos h1]
        exact hs ha (h1 ▸ hq)
      · rw [if_neg h1]
        exact h.single ha q hq
  · have hl : (rr.update pl p).children.lookup p = none := by
      simp [RoundRouter.update, lookup_filterKeys, if_neg hk]
    simp [RoundRouter.toPeriod, hl, throw_ok] at hf

/-- A dispatch which leaves its period as it was leaves the round as it was. -/
theorem RoundRel.query
    (hq : ∀ pr pr', pr.state = R.period p → f pr = .ok (pr', a) → pr'.state = pr.state ∧ Q a) :
    keepsPeriod pl.period p = true ∧ RoundRel pl.period ahead rr' R ∧ Q a := by
  obtain ⟨hk, pr, pr', h1, h2, hr⟩ := h.toPeriod hf
  obtain ⟨hs, hQ⟩ := hq pr pr' h1 h2
  rw [hs, h1, setPeriod_self] at hr
  exact ⟨hk, hr fun ha hp => h.single ha p hp, hQ⟩

end

theorem RouterRel.update (h : RouterRel pl rt rounds) (r : Round) :
    RouterRel pl (rt.update pl r) rounds := by
  intro r' hr'
  have hk : (rt.update pl r).round r' = rt.round r' := by
    simp [RootRouter.round, RootRouter.update,
      getD_filterKeys (p := fun r'' => decide (pl.round ≤ r'')) (by simpa using hr'), getD_touch]
  rw [hk]
  exact h r' hr'

section

variable {rt' : RootRouter} {r : Round} {f : RoundRouter → M (RoundRouter × α)} {a : α}
  (h : RouterRel pl rt rounds) (hf : rt.toRound pl r f = .ok (rt', a))
include h hf

/-- A dispatch to a round needs the round to be kept, and acts on that round alone. -/
theorem RouterRel.toRound :
    pl.round ≤ r ∧ ∃ rr rr', RoundRel pl.period (pl.round < r) rr (rounds r) ∧
      f rr = .ok (rr', a) ∧ ∀ R', RoundRel pl.period (pl.round < r) rr' R' →
        RouterRel pl rt' (Function.update rounds r R') := by
  have hu := h.update r
  by_cases hr : pl.round ≤ r
  · have hl : (rt.update pl r).children.lookup r = some ((rt.update pl r).round r) := by
      simp [RootRouter.round, RootRouter.update, getD, lookup_filterKeys, hr, lookup_touch]
    simp only [RootRouter.toRound, hl, bind_ok, Prod.exists, pure_ok, Prod.mk.injEq] at hf
    obtain ⟨rr', _, h2, rfl, rfl⟩ := hf
    refine ⟨hr, _, rr', hu r hr, h2, fun R' hR' q hq => ?_⟩
    simp only [RootRouter.round, getD_insert, update_apply]
    by_cases h1 : q = r
    · subst h1
      rw [if_pos rfl, if_pos rfl]
      exact hR'
    · rw [if_neg h1, if_neg h1]
      exact hu q hq
  · have hl : (rt.update pl r).children.lookup r = none := by
      simp [RootRouter.update, lookup_filterKeys, if_neg hr]
    simp [RootRouter.toRound, hl, throw_ok] at hf

/-- A dispatch which leaves its round as it was leaves the flat state as it was. -/
theorem RouterRel.query
    (hq : ∀ rr rr', RoundRel pl.period (pl.round < r) rr (rounds r) → f rr = .ok (rr', a) →
      RoundRel pl.period (pl.round < r) rr' (rounds r) ∧ Q a) : RouterRel pl rt' rounds ∧ Q a := by
  obtain ⟨_, rr, rr', h1, h2, hb⟩ := h.toRound hf
  obtain ⟨hr', hQ⟩ := hq rr rr' h1 h2
  have hr := hb _ hr'
  rw [update_eq_self] at hr
  exact ⟨hr, hQ⟩

end

/-! ## A player who moves on -/

theorem keepsPeriod_mono (hk : k ≤ k') (h : keepsPeriod k' p = true) : keepsPeriod k p = true := by
  simp only [keepsPeriod, Bool.or_eq_true, decide_eq_true_eq] at h ⊢
  lia

theorem RouterRel.enterPeriod (h : RouterRel pl rt rounds) (hn : pl'.round = pl.round)
    (h1 : pl.period ≤ pl'.period) : RouterRel pl' rt rounds := by
  intro r hr
  rw [hn] at hr ⊢
  have he := h r hr
  exact ⟨he.store, he.fresh, fun p hp => he.period p (hp.imp_left (keepsPeriod_mono h1)), he.single⟩

theorem RouterRel.enterRound (h : RouterRel pl rt rounds) (hn : pl.round < pl'.round) :
    RouterRel pl' rt rounds := by
  intro r hr
  have hl : pl.round < r := lt_of_lt_of_le hn hr
  have he := h r hl.le
  exact ⟨he.store, he.fresh, fun p _ => he.period p (.inr hl), fun _ => he.single hl⟩

/-! ## The machines of one period -/

variable {e te out : ThresholdEvent} {v : Vote} {proto : ConsensusVersion} {cfg : Consensus}
  {pv starting : ProposalValue} {u : Unit}

namespace PeriodRouter

variable {pr pr' : PeriodRouter}

theorem voteVerified_ok {err : SerErr} (h : pr.voteVerified v = .ok (pr', err)) :
    ∃ t c, pr.state.tracker.voteVerified v = (t, err) ∧
      pr.state.contract.postVoteVerified err = .ok c ∧
      pr'.state = { pr.state with tracker := t, contract := c } := by
  simp only [voteVerified, bind_ok, pure_pair] at h
  obtain ⟨c, hc, rfl, rfl⟩ := h
  exact ⟨_, c, rfl, hc, by rw [← state_update pr 0]; rfl⟩

theorem proposalFrozen_ok (h : pr.proposalFrozen = .ok (pr', pv)) :
    ∃ c, pr.state.contract.preProposalFrozen = .ok () ∧
      pr.state.contract.postProposalFrozen pv = .ok c ∧
      pv = pr.state.tracker.freezer.lowest.r.proposal ∧
      pr'.state = { pr.state with tracker := pr.state.tracker.proposalFrozen.1, contract := c } := by
  simp only [proposalFrozen, bind_ok, pure_pair] at h
  obtain ⟨_, hp, c, hc, rfl, rfl⟩ := h
  exact ⟨c, hp, hc, rfl, by rw [← state_update pr 0]; rfl⟩

theorem stage_ok (h : pr.stage e = .ok (pr', u)) :
    pr.state.contract.preThreshold e = .ok () ∧ pr'.state = pr.state.stage e := by
  simp only [stage, bind_ok, pure_pair] at h
  obtain ⟨_, hp, rfl, _⟩ := h
  exact ⟨hp, by rw [← state_update pr 0]; rfl⟩

theorem cacheThreshold_ok (h : pr.cacheThreshold e = .ok pr') :
    pr'.state = { pr.state with cached := cacheNext pr.state.cached e.proposal } := by
  unfold cacheThreshold at h
  split at h
  · unfold cacheNext
    split_ifs at h ⊢ with hb <;>
    · rw [pure_ok] at h
      rw [← h, ← state_update pr 0]
      rfl
  · rw [throw_ok] at h
    exact h.elim

theorem voteAccepted_ok (h : pr.voteAccepted cfg v proto = .ok (pr', te)) :
    ∃ sr, (pr.state.step v.r.step).voteAccepted cfg v proto = .ok (sr, te) ∧
      pr'.state = pr.state.recordVote v.r.step sr te := by
  simp only [voteAccepted, bind_ok, Prod.exists] at h
  obtain ⟨_, te1, hp, h⟩ := h
  obtain ⟨sr, hr, hs⟩ := toStep_ok hp
  have hs' : (pr.state.step v.r.step).voteAccepted cfg v proto = .ok (sr, te1) := by
    rw [← state_update pr 0]
    exact hr
  rw [state_update] at hs
  split_ifs at h with hn
  · simp only [bind_ok, pure_pair] at h
    obtain ⟨_, hc, rfl, rfl⟩ := h
    refine ⟨sr, hs', ?_⟩
    rw [cacheThreshold_ok hc, hs, PeriodState.recordVote, if_pos hn]
  · obtain ⟨rfl, rfl⟩ := pure_pair.mp h
    refine ⟨sr, hs', ?_⟩
    rw [hs, PeriodState.recordVote, if_neg hn]

end PeriodRouter

open PeriodRouter

/-! ## The machines of one round -/

section Round

variable {pl : Player} {ahead : Prop} {rr rr' : RoundRouter} {R : RoundState}

variable {p : Period} {res : PayloadResult}

section

variable (h : RoundRel pl.period ahead rr R)
include h

theorem RoundRel.readStaging {sv : StagingValue} (hf : rr.readStaging pl p = .ok (rr', sv)) :
    keepsPeriod pl.period p = true ∧ RoundRel pl.period ahead rr' R ∧
      sv = R.store.readStaging (R.staging p) := by
  simp only [RoundRouter.readStaging, bind_ok, Prod.exists, pure_pair] at hf
  obtain ⟨_, pv, hp, rfl, rfl⟩ := hf
  have hd := (h.update p).query hp (Q := fun pv => pv = R.staging p) ?_
  · obtain ⟨hk, hr, rfl⟩ := hd
    exact ⟨hk, hr, by rw [hr.store]⟩
  · intro _ _ h1 hd
    obtain ⟨rfl, rfl⟩ := hd
    exact ⟨state_update _ _, by rw [staging, ← h1]; rfl⟩

theorem RoundRel.nextThresholdStatus {st : NextThresholdStatus}
    (hf : rr.toPeriod pl p nextThresholdStatus = .ok (rr', st)) :
    RoundRel pl.period ahead rr' R ∧ st = (R.period p).cached := by
  refine (h.query hf (Q := fun st => st = (R.period p).cached) ?_).2
  intro _ _ hp hr
  obtain ⟨rfl, rfl⟩ := hr
  exact ⟨state_update _ _, by rw [← hp]; rfl⟩

theorem RoundRel.freshestBundle {res : VoteTrackerRound}
    (hf : rr.freshestBundle pl = .ok (rr', res)) :
    RoundRel pl.period ahead rr' R ∧ res = R.fresh := by
  obtain ⟨rfl, rfl⟩ := hf
  exact ⟨h.update 0, h.fresh⟩

theorem RoundRel.readPinned {res : PinnedValue} (hf : rr.readPinned pl = .ok (rr', res)) :
    RoundRel pl.period ahead rr' R := by
  simp only [RoundRouter.readPinned, pure_pair] at hf
  rw [← hf.1]
  exact h.update 0

theorem RoundRel.newRound {res : Option PayloadResult} (hf : rr.newRound pl = .ok (rr', res)) :
    RoundRel pl.period ahead rr' R ∧ R.store.newRound pl = .ok res := by
  simp only [RoundRouter.newRound, bind_ok, pure_pair] at hf
  obtain ⟨_, hr, rfl, rfl⟩ := hf
  exact ⟨h.update 0, by rw [← h.store]; exact hr⟩

theorem RoundRel.withStore (st : ProposalStore) :
    RoundRel pl.period ahead { rr with proposalStore := st } { R with store := st } where
  store := rfl
  fresh := h.fresh
  period := h.period
  single := h.single

theorem RoundRel.newPeriod (hf : rr.newPeriod pl target starting = .ok (rr', u)) :
    RoundRel pl.period ahead rr' (R.newPeriod pl target starting) := by
  simp only [RoundRouter.newPeriod, bind_ok, Prod.exists, pure_pair] at hf
  obtain ⟨_, _, hd, rfl, _⟩ := hf
  obtain ⟨_, hr, rfl⟩ := (h.update 0).readStaging hd
  rw [hr.store]
  exact hr.withStore _

theorem RoundRel.threshold {res : Option Vote} (hn : ¬ ahead)
    (hf : rr.threshold pl e = .ok (rr', res)) :
    (R.period e.period).contract.preThreshold e = .ok () ∧
      res = (R.store.threshold pl e.period e.proposal).2 ∧
      RoundRel pl.period ahead rr' { R.setPeriod e.period ((R.period e.period).stage e) with
        store := (R.store.threshold pl e.period e.proposal).1 } := by
  simp only [RoundRouter.threshold, bind_ok, Prod.exists, pure_pair] at hf
  obtain ⟨rr1, _, he, rfl, rfl⟩ := hf
  obtain ⟨_, _, _, h1, hs, hr⟩ := (h.update e.period).toPeriod he
  obtain ⟨hp, ht⟩ := stage_ok hs
  rw [ht, h1] at hr
  rw [h1] at hp
  have hr := hr fun ha => absurd ha hn
  have h2 : rr1.proposalStore = R.store := hr.store
  rw [h2]
  exact ⟨hp, rfl, hr.withStore _⟩

theorem RoundRel.voteAccepted (hz : ahead → v.r.period = 0)
    (hf : rr.voteAccepted cfg pl v proto = .ok (rr', out)) :
    keepsPeriod pl.period v.r.period = true ∧
    ∃ sr te, ((R.period v.r.period).step v.r.step).voteAccepted cfg v proto = .ok (sr, te) ∧
      ((te.t = .none ∨ te.fresherThan R.fresh.freshest = .ok false) ∧ out = {} ∧
          RoundRel pl.period ahead rr' (R.setPeriod v.r.period
            ((R.period v.r.period).recordVote v.r.step sr te)) ∨
        te.t ≠ .none ∧ te.fresherThan R.fresh.freshest = .ok true ∧ out = te ∧
          RoundRel pl.period ahead rr' { R.setPeriod v.r.period
            ((R.period v.r.period).recordVote v.r.step sr te) with
              fresh := { freshest := te, ok := true } }) := by
  simp only [RoundRouter.voteAccepted, bind_ok, Prod.exists] at hf
  obtain ⟨rr1, te, h1, hf⟩ := hf
  obtain ⟨hk, _, _, h2, ha, hr⟩ := (h.update v.r.period).toPeriod h1
  obtain ⟨sr, hs, ht⟩ := voteAccepted_ok ha
  rw [h2] at hs ht
  rw [ht] at hr
  have hr := hr fun hh hp => by
    rw [hz hh] at hp
    exact absurd hp (lt_irrefl _)
  refine ⟨hk, sr, te, hs, ?_⟩
  by_cases he : te.t = .none
  · rw [if_neg (not_not.mpr he)] at hf
    obtain ⟨rfl, rfl⟩ := hf
    exact .inl ⟨.inl he, rfl, hr⟩
  · rw [if_pos he] at hf
    have h3 : rr1.voteTrackerRound = R.fresh := hr.fresh
    have hr0 := hr.update 0
    simp only [RoundRouter.freshen, RoundRouter.update, bind_ok, h3] at hf
    obtain ⟨b, hb, hf⟩ := hf
    cases b with
    | false =>
      obtain ⟨rfl, rfl⟩ := hf
      exact .inl ⟨.inr hb, rfl, hr0.store, rfl, hr0.period, hr0.single⟩
    | true =>
      obtain ⟨rfl, rfl⟩ := hf
      exact .inr ⟨he, hb, rfl, hr0.store, rfl, hr0.period, hr0.single⟩

theorem RoundRel.voteVerified {res : Except SerErr (Option Proposal)} (hz : ahead → v.r.period = 0)
    (hf : rr.voteVerified pl v = .ok (rr', res)) :
    keepsPeriod pl.period v.r.period = true ∧
    ∃ t err c, (R.period v.r.period).tracker.voteVerified v = (t, err) ∧
      (R.period v.r.period).contract.postVoteVerified err = .ok c ∧
      RoundRel pl.period ahead rr'
        { R.setPeriod v.r.period { R.period v.r.period with tracker := t, contract := c } with
          store := if err = .nil then R.store.acceptVote pl v else R.store } := by
  simp only [RoundRouter.voteVerified, bind_ok, Prod.exists] at hf
  obtain ⟨rr1, err, h1, hf⟩ := hf
  obtain ⟨hk, _, _, h2, hv, hr⟩ := (h.update v.r.period).toPeriod h1
  obtain ⟨t, c, ht, hc, hs⟩ := voteVerified_ok hv
  rw [h2] at ht hc hs
  rw [hs] at hr
  have hr := hr fun ha hp => by
    rw [hz ha] at hp
    exact absurd hp (lt_irrefl _)
  refine ⟨hk, t, err, c, ht, hc, ?_⟩
  have h3 : rr1.proposalStore = R.store := hr.store
  by_cases he : err = .nil
  · rw [if_pos he, pure_pair] at hf
    rw [if_pos he, ← hf.1, h3]
    exact hr.withStore _
  · rw [if_neg he, pure_pair] at hf
    rw [if_neg he, ← hf.1]
    exact hr

theorem RoundRel.proposalFrozen (hn : ¬ ahead)
    (hf : rr.toPeriod pl p proposalFrozen = .ok (rr', pv)) :
    ∃ c, (R.period p).contract.preProposalFrozen = .ok () ∧
      (R.period p).contract.postProposalFrozen pv = .ok c ∧
      pv = (R.period p).tracker.freezer.lowest.r.proposal ∧
      RoundRel pl.period ahead rr' (R.setPeriod p
        { R.period p with tracker := (R.period p).tracker.proposalFrozen.1, contract := c }) := by
  obtain ⟨_, _, _, h2, h3, hr⟩ := h.toPeriod hf
  obtain ⟨c, hp, h1, hv, hs⟩ := proposalFrozen_ok h3
  rw [h2] at hp h1 hv hs
  rw [hs] at hr
  exact ⟨c, hp, h1, hv, hr fun ha => absurd ha hn⟩

theorem RoundRel.payloadPresent {up : UnauthenticatedProposal}
    (hf : rr.payloadPresent pl p up = .ok (rr', res)) :
    res = (R.store.payloadPresent pl up).2 ∧
      RoundRel pl.period ahead rr' { R with store := (R.store.payloadPresent pl up).1 } := by
  simp only [RoundRouter.payloadPresent, pure_pair] at hf
  have hr := h.update p
  rw [hr.store] at hf
  rw [← hf.1, ← hf.2]
  exact ⟨rfl, hr.withStore _⟩

theorem RoundRel.payloadVerified {pp : Proposal} (hf : rr.payloadVerified pl pp = .ok (rr', res)) :
    RoundRel pl.period ahead rr' { R with store := (R.store.bindPayload pp).1 } ∧
      ((∃ err, res = .rejected err) ∨
        ∃ vote ea, (R.store.bindPayload pp).2 = .ok ea ∧
          res = if R.staging pl.period = pp.value then .committable vote pp.value
            else .accepted vote pp.value) := by
  simp only [RoundRouter.payloadVerified] at hf
  have hr := h.update pl.period
  rw [hr.store] at hf
  cases hb : R.store.bindPayload pp with
  | mk st er =>
    rw [hb] at hf
    cases er with
    | error err =>
      simp only [pure_pair] at hf
      rw [← hf.1, ← hf.2]
      exact ⟨hr.withStore _, .inl ⟨err, rfl⟩⟩
    | ok ea =>
      simp only [bind_ok, Prod.exists] at hf
      obtain ⟨_, _, hd, hf⟩ := hf
      obtain ⟨_, hr', rfl⟩ := (hr.withStore st).readStaging hd
      have hs : ({ R with store := st } : RoundState).staging pl.period = R.staging pl.period := rfl
      simp only [ProposalStore.readStaging, hs] at hf
      refine ⟨?_, .inr ⟨ea.authenticator pl.period, ea, rfl, ?_⟩⟩
      · split_ifs at hf <;>
        · simp only [pure_pair] at hf
          rw [← hf.1]
          exact hr'
      · split_ifs at hf ⊢ <;>
        · simp only [pure_pair] at hf
          exact hf.2.symm

end

end Round

end Novarand.Agreement
