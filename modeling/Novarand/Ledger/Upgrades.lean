import Novarand.Ledger.Evaluator

/-!
# Protocol upgrades

The state machine of `UpgradeState` over the rounds. A round is one application of
`applyUpgradeVote`; between two rounds either no proposal is open, or the state holds the proposal of
one earlier round with the approvals since (`Pending`). `Settled` says once how a round can end for
the proposal that is open in it, and the facts about runs follow by induction over the rounds.

`consensusVersion` is the forecast that `data.Ledger` makes from the latest header; the last part
says for which rounds it is right on every continuation of the chain.
-/

namespace Novarand.Ledger

open Function Finset Nat

variable {P : Type} (env : Environment P)

/-- The rounds from the end of the vote on a proposal to the switch; a delay of 0 stands for the
default. -/
def ConsensusParams.waitRounds (params : ConsensusParams) (vote : UpgradeVote) : ℕ :=
  if vote.upgradeDelay = 0 then params.defaultUpgradeWaitRounds else vote.upgradeDelay

/-- The proposals that `applyUpgradeVote` lets through while no other one is open. -/
structure UpgradeVote.Permitted (params : ConsensusParams) (vote : UpgradeVote) : Prop where
  proposes : vote.upgradePropose ≠ 0
  length : env.versionLength vote.upgradePropose ≤ params.maxVersionStringLen
  minWait : params.minUpgradeWaitRounds ≤ vote.upgradeDelay
  maxWait : vote.upgradeDelay ≤ params.maxUpgradeWaitRounds

/-- The rounds from `p` on and before `q` whose vote approves. -/
def approvals (vote : Round → UpgradeVote) (p q : Round) : Finset Round :=
  {r ∈ Finset.Ico p q | (vote r).upgradeApprove}

variable {first last p q r d : Round} {vote : Round → UpgradeVote} {state : Round → UpgradeState}
  {hdr ext : Round → BlockHeader} {params : ConsensusParams} {s s' s1 : UpgradeState}

theorem mem_approvals :
    r ∈ approvals vote p q ↔ (p ≤ r ∧ r < q) ∧ (vote r).upgradeApprove = true := by
  rw [approvals, mem_filter, mem_Ico]

/-- Approvals that all came before the round `d` are among those before it. -/
theorem approvals_subset (h : ∀ r ∈ approvals vote p q, r < d) :
    approvals vote p q ⊆ approvals vote p d := by
  intro r hr
  have ht := h r hr
  rw [mem_approvals] at hr ⊢
  exact ⟨⟨hr.1.1, ht⟩, hr.2⟩

theorem approvals_self (vote : Round → UpgradeVote) (p : Round) : approvals vote p p = ∅ := by
  rw [approvals, Ico_self, filter_empty]

theorem card_approvals_succ (h : p ≤ q) :
    (approvals vote p (q + 1)).card =
      (approvals vote p q).card + if (vote q).upgradeApprove then 1 else 0 := by
  rw [approvals, approvals, Ico_succ_right_eq_insert_Ico h, filter_insert]
  split
  · simp
  · rfl

theorem card_approvals_le (vote : Round → UpgradeVote) (p n : ℕ) :
    (approvals vote p (p + n)).card ≤ n := by
  refine (card_filter_le _ _).trans ?_
  rw [card_Ico]
  omega

namespace UpgradeState

variable {env}

/-- No proposal is open: only the current protocol is set. -/
def Clean (s : UpgradeState) : Prop := s = { currentProtocol := s.currentProtocol }

theorem clean_mk (v : ConsensusVersion) : Clean { currentProtocol := v } := rfl

variable (env) in
/-- During round `q` the state holds the proposal made in round `p`, with the approvals of the rounds
before `q`. -/
structure Pending (params : ConsensusParams) (vote : Round → UpgradeVote) (p q : Round)
    (s : UpgradeState) : Prop where
  permitted : (vote p).Permitted env params
  positive : 0 < p
  made : p ≤ q
  alone : ∀ r, p < r → r < q → (vote r).upgradePropose = 0
  version : s.nextProtocol = (vote p).upgradePropose
  voteBefore : s.nextProtocolVoteBefore = p + params.upgradeVoteRounds
  switchOn : s.nextProtocolSwitchOn = s.nextProtocolVoteBefore + params.waitRounds (vote p)
  count : s.nextProtocolApprovals = (approvals vote p q).card
  inTime : ∀ r ∈ approvals vote p q, r < s.nextProtocolVoteBefore
  notYet : q ≤ s.nextProtocolSwitchOn
  passed : s.nextProtocolVoteBefore < q → params.upgradeThreshold ≤ s.nextProtocolApprovals

theorem Pending.not_clean (h : Pending env params vote p q s) : s.nextProtocol ≠ 0 :=
  h.version ▸ h.permitted.proposes

/-! ## One round -/

variable (env) in
/-- How round `q` can end for the proposal of round `p`, which is open in it as `s`. -/
inductive Settled (params : ConsensusParams) (vote : Round → UpgradeVote) (p q : Round)
    (s : UpgradeState) : UpgradeState → Prop
  | failed (hround : q = s.nextProtocolVoteBefore)
      (hshort : s.nextProtocolApprovals < params.upgradeThreshold) :
      Settled params vote p q s { currentProtocol := s.currentProtocol }
  | switched (hround : q = s.nextProtocolSwitchOn)
      (henough : params.upgradeThreshold ≤ (approvals vote p (p + params.upgradeVoteRounds)).card) :
      Settled params vote p q s { currentProtocol := s.nextProtocol }
  | stays {s' : UpgradeState} (hpending : Pending env params vote p (q + 1) s')
      (hcurrent : s'.currentProtocol = s.currentProtocol)
      (hversion : s'.nextProtocol = s.nextProtocol)
      (hvoteBefore : s'.nextProtocolVoteBefore = s.nextProtocolVoteBefore)
      (hswitchOn : s'.nextProtocolSwitchOn = s.nextProtocolSwitchOn)
      (hmore : s.nextProtocolApprovals ≤ s'.nextProtocolApprovals) :
      Settled params vote p q s s'

theorem Settled.tracked (h : Settled env params vote p q s s')
    (hpa : env.consensus s.currentProtocol = some params) :
    s'.Clean ∨ env.consensus s'.currentProtocol = some params ∧
      Pending env params vote p (q + 1) s' := by
  cases h with
  | failed hr _ => exact .inl (clean_mk _)
  | switched hr _ => exact .inl (clean_mk _)
  | stays hp hc => exact .inr ⟨hc ▸ hpa, hp⟩

theorem Settled.switch (h : Settled env params vote p q s s') (hp : Pending env params vote p q s)
    (hc : s'.currentProtocol ≠ s.currentProtocol) :
    (vote p).upgradePropose = s'.currentProtocol ∧
      q = p + params.upgradeVoteRounds + params.waitRounds (vote p) ∧
      params.upgradeThreshold ≤ (approvals vote p (p + params.upgradeVoteRounds)).card ∧
      s.nextProtocolSwitchOn = q := by
  cases h with
  | failed hr _ => exact absurd rfl hc
  | switched hr he =>
    refine ⟨hp.version.symm, ?_, he, hr.symm⟩
    rw [← hp.voteBefore, ← hp.switchOn, ← hr]
  | stays _ h1 => exact absurd h1 hc

/-- The state with one approval more if the vote approves. -/
def counting (v : UpgradeVote) (s : UpgradeState) : UpgradeState :=
  { s with nextProtocolApprovals := s.nextProtocolApprovals + if v.upgradeApprove then 1 else 0 }

/-- The approval of round `q`: the count grows with the vote, and only in the voting window. -/
theorem approve_ok (h : s.approve q (vote q) = .ok s') : s' = s.counting (vote q) ∧
    ((vote q).upgradeApprove = true → q < s.nextProtocolVoteBefore) := by
  unfold approve at h
  rw [counting]
  split at h
  case isTrue hy =>
    simp only [bind_ok, failIf_ok, pure_ok] at h
    obtain ⟨⟨⟩, -, ⟨⟩, htime, rfl⟩ := h
    rw [if_pos hy]
    exact ⟨rfl, fun _ => Nat.lt_of_not_le htime⟩
  case isFalse hn =>
    obtain rfl := pure_ok.mp h
    rw [if_neg hn]
    exact ⟨rfl, fun hy => absurd hy hn⟩

/-- What is left of a round once the proposal is in place. -/
theorem Pending.settle (h : Pending env params vote p q s)
    (ho : p < q → (vote q).upgradePropose = 0) (ha : s.approve q (vote q) = .ok s1) :
    Settled env params vote p q s ((s1.clearFailed params q).switchOver q) := by
  obtain ⟨rfl, htime⟩ := approve_ok ha
  set s1 := s.counting (vote q)
  have hc : s1.nextProtocolApprovals = (approvals vote p (q + 1)).card := by
    rw [card_approvals_succ h.made, ← h.count]
    rfl
  have hi : ∀ r ∈ approvals vote p (q + 1), r < s.nextProtocolVoteBefore := by
    intro r hr
    obtain ⟨⟨h2, hq⟩, hy⟩ := mem_approvals.mp hr
    rcases Nat.lt_succ_iff_lt_or_eq.mp hq with ht | rfl
    · exact h.inTime r (mem_approvals.mpr ⟨⟨h2, ht⟩, hy⟩)
    · exact htime hy
  have h4 : ∀ r, p < r → r < q + 1 → (vote r).upgradePropose = 0 := by
    intro r h2 hq
    rcases Nat.lt_succ_iff_lt_or_eq.mp hq with ht | rfl
    · exact h.alone r h2 ht
    · exact ho h2
  have hm : s.nextProtocolApprovals ≤ s1.nextProtocolApprovals := le_add_right _ _
  have hn := h.notYet
  by_cases hf : q = s1.nextProtocolVoteBefore ∧ s1.nextProtocolApprovals < params.upgradeThreshold
  · -- the round is positive, so a cleared state does not switch
    have hp : q ≠ 0 := ne_of_gt (h.positive.trans_le h.made)
    rw [clearFailed, if_pos hf, switchOver, if_neg hp]
    exact .failed hf.1 (hm.trans_lt hf.2)
  · rw [clearFailed, if_neg hf]
    have h3 : s.nextProtocolVoteBefore < q + 1 →
        params.upgradeThreshold ≤ s1.nextProtocolApprovals := by
      intro ht
      by_cases he : q = s.nextProtocolVoteBefore
      · exact Nat.le_of_not_lt fun hs => hf ⟨he, hs⟩
      · exact (h.passed (by lia)).trans hm
    by_cases h1 : q = s1.nextProtocolSwitchOn
    · rw [switchOver, if_pos h1]
      refine .switched h1 ?_
      have hd : s.nextProtocolVoteBefore < q + 1 := by
        rw [show q = _ from h1.trans h.switchOn]
        lia
      rw [h.voteBefore] at hi
      calc params.upgradeThreshold
        _ ≤ s1.nextProtocolApprovals := h3 hd
        _ = (approvals vote p (q + 1)).card := hc
        _ ≤ _ := card_le_card (approvals_subset hi)
    · rw [switchOver, if_neg h1]
      have h5 : Pending env params vote p (q + 1) s1 :=
        { h with
          made := le_succ_of_le h.made
          alone := h4
          count := hc
          inTime := hi
          notYet := lt_of_le_of_ne hn h1
          passed := h3 }
      exact .stays h5 rfl rfl rfl rfl hm

/-- A round that a proposal is open in: no other one is made. -/
theorem Pending.step (hpa : env.consensus s.currentProtocol = some params)
    (h : Pending env params vote p q s) (h1 : s.applyUpgradeVote env q (vote q) = .ok s') :
    (vote q).upgradePropose = 0 ∧ Settled env params vote p q s s' := by
  simp only [applyUpgradeVote, hpa, orThrow_some, ok_bind, bind_ok, pure_ok] at h1
  obtain ⟨_, hp, _, ha, rfl⟩ := h1
  unfold propose at hp
  split at hp
  case isTrue hm =>
    simp only [bind_ok, failIf_ok] at hp
    obtain ⟨⟨⟩, hn, -⟩ := hp
    exact absurd h.not_clean hn
  case isFalse hm =>
    simp only [bind_ok, failIf_ok, pure_ok] at hp
    obtain ⟨⟨⟩, -, rfl⟩ := hp
    exact ⟨not_not.mp hm, h.settle (fun _ => not_not.mp hm) ha⟩

/-- A round that starts without a proposal: it makes none and keeps the state, or the one it makes is
open in it. -/
theorem Clean.step (hs : s.Clean) (hq : 0 < q) (ha : s.applyUpgradeVote env q (vote q) = .ok s') :
    ∃ params, env.consensus s.currentProtocol = some params ∧
      (s' = s ∨ ∃ s1 : UpgradeState, s1.currentProtocol = s.currentProtocol ∧
        Pending env params vote q q s1 ∧ Settled env params vote q q s1 s') := by
  simp only [applyUpgradeVote, orThrow_ok, bind_ok, pure_ok] at ha
  obtain ⟨params, hpa, s0, hp, s1, h1, rfl⟩ := ha
  refine ⟨params, hpa, ?_⟩
  unfold propose at hp
  split at hp
  case isTrue hk =>
    right
    simp only [bind_ok, failIf_ok, pure_ok, not_or, not_lt] at hp
    obtain ⟨⟨⟩, -, ⟨⟩, h2, ⟨⟩, ⟨hm, hi⟩, hs0⟩ := hp
    have hn : Pending env params vote q q s0 := by
      subst hs0
      exact
        { permitted := ⟨hk, h2, hi, hm⟩
          positive := hq
          made := le_rfl
          alone := fun r h3 hr => absurd (h3.trans hr) (lt_irrefl q)
          version := rfl
          voteBefore := rfl
          switchOn := rfl
          count := by rw [approvals_self, card_empty]
          inTime := by simp [approvals_self]
          notYet := by show q ≤ _; simp only; lia
          passed := fun ht => absurd ht (by simp only; lia) }
    exact ⟨s0, by rw [← hs0], hn, hn.settle (absurd · (lt_irrefl q)) h1⟩
  case isFalse hk =>
    left
    simp only [bind_ok, failIf_ok, pure_ok] at hp
    obtain ⟨⟨⟩, -, rfl⟩ := hp
    obtain ⟨rfl, htime⟩ := approve_ok h1
    have ho : (vote q).upgradeApprove ≠ true := by
      intro hy
      have ht := htime hy
      rw [hs] at ht
      exact absurd ht (not_lt_zero q)
    rw [counting, if_neg ho, hs, clearFailed, if_neg (fun h => absurd h.1 (ne_of_gt hq)), switchOver,
      if_neg (ne_of_gt hq)]

end UpgradeState

/-! ## Runs -/

/-- The upgrade states of the rounds `first` to `last`, from a state without a proposal. -/
structure UpgradeRun (first last : Round) (vote : Round → UpgradeVote)
    (state : Round → UpgradeState) : Prop where
  clean : (state first).Clean
  step : ∀ r, first ≤ r → r < last →
    (state r).applyUpgradeVote env (r + 1) (vote (r + 1)) = .ok (state (r + 1))

namespace UpgradeRun

open UpgradeState

variable {env}

/-- After every round no proposal is open, or that of one earlier round is. -/
theorem tracked (h : UpgradeRun env first last vote state) (hr : first ≤ r) (hl : r ≤ last) :
    (state r).Clean ∨ ∃ params p, env.consensus (state r).currentProtocol = some params ∧
      first < p ∧ p ≤ r ∧ Pending env params vote p (r + 1) (state r) := by
  induction r, hr using le_induction with
  | base => exact .inl h.clean
  | succ r hr ih =>
    have hs := h.step r hr hl
    rcases ih (le_of_succ_le hl) with hc | ⟨params, p, hpa, hp, h1, hn⟩
    · obtain ⟨params, hpa, he | ⟨_, h2, -, ht⟩⟩ :=
        hc.step (succ_pos r) hs
      · exact .inl (he ▸ hc)
      · rw [← h2] at hpa
        exact (ht.tracked hpa).imp id fun ⟨hpa, hn⟩ =>
          ⟨params, r + 1, hpa, lt_succ_of_le hr, le_rfl, hn⟩
    · exact ((hn.step hpa hs).2.tracked hpa).imp id fun ⟨hpa, hn⟩ =>
        ⟨params, p, hpa, hp, le_succ_of_le h1, hn⟩

/-- A change of the protocol is the switch to a proposal that was approved. -/
theorem switch (h : UpgradeRun env first last vote state) (hr : first ≤ r) (hl : r < last)
    (hc : (state (r + 1)).currentProtocol ≠ (state r).currentProtocol) :
    ∃ params p, env.consensus (state r).currentProtocol = some params ∧
      first < p ∧ p ≤ r + 1 ∧ (vote p).Permitted env params ∧
      (vote p).upgradePropose = (state (r + 1)).currentProtocol ∧
      r + 1 = p + params.upgradeVoteRounds + params.waitRounds (vote p) ∧
      params.upgradeThreshold ≤ (approvals vote p (p + params.upgradeVoteRounds)).card ∧
      (p ≤ r → (state r).nextProtocol = (vote p).upgradePropose ∧
        (state r).nextProtocolSwitchOn = r + 1) := by
  have hs := h.step r hr hl
  rcases h.tracked hr hl.le with h2 | ⟨params, p, hpa, hp, h3, hn⟩
  · obtain ⟨params, hpa, hq | ⟨_, h4, hn, ht⟩⟩ :=
      h2.step (succ_pos r) hs
    · exact absurd (congrArg currentProtocol hq) hc
    · rw [← h4] at hc
      obtain ⟨hv, h1, he, -⟩ := ht.switch hn hc
      exact ⟨params, r + 1, hpa, lt_succ_of_le hr, le_rfl, hn.permitted, hv,
        h1, he, fun hle => absurd hle (not_succ_le_self r)⟩
  · obtain ⟨hv, h1, he, ha⟩ :=
      (hn.step hpa hs).2.switch hn hc
    exact ⟨params, p, hpa, hp, le_succ_of_le h3, hn.permitted, hv, h1,
      he, fun _ => ⟨hn.version, ha⟩⟩

/-- Along every run of votes from a state without a proposal: the protocol changes only when an
approved proposal takes effect; the fields of the proposal are zero exactly if there is none; while
one is open it is the only one, and from the end of its vote on it has the approvals it needs. -/
theorem upgrade_run_voted (h : UpgradeRun env first last vote state) :
    (∀ r, first ≤ r → r < last →
      (state (r + 1)).currentProtocol ≠ (state r).currentProtocol →
      ∃ params p, env.consensus (state r).currentProtocol = some params ∧ first < p ∧ p ≤ r + 1 ∧
        (vote p).upgradePropose = (state (r + 1)).currentProtocol ∧
        r + 1 = p + params.upgradeVoteRounds + params.waitRounds (vote p) ∧
        params.upgradeThreshold ≤ (approvals vote p (p + params.upgradeVoteRounds)).card ∧
        (p ≤ r → (state r).nextProtocol = (vote p).upgradePropose ∧
          (state r).nextProtocolSwitchOn = r + 1)) ∧
    ∀ r, first ≤ r → r ≤ last →
      ((state r).nextProtocol = 0 ↔ (state r).nextProtocolApprovals = 0 ∧
        (state r).nextProtocolVoteBefore = 0 ∧ (state r).nextProtocolSwitchOn = 0) ∧
      ((state r).nextProtocol ≠ 0 → ∃ params p,
        env.consensus (state r).currentProtocol = some params ∧ first < p ∧ p ≤ r ∧
        (state r).nextProtocol = (vote p).upgradePropose ∧
        (state r).nextProtocolVoteBefore = p + params.upgradeVoteRounds ∧
        (state r).nextProtocolSwitchOn =
          (state r).nextProtocolVoteBefore + params.waitRounds (vote p) ∧
        (state r).nextProtocolApprovals = (approvals vote p (r + 1)).card ∧
        (∀ q, p < q → q ≤ r → (vote q).upgradePropose = 0) ∧
        ((state r).nextProtocolVoteBefore ≤ r →
          params.upgradeThreshold ≤ (state r).nextProtocolApprovals)) := by
  constructor
  · intro r hr hl hc
    obtain ⟨params, p, hpa, hp, h2, -, hs⟩ := h.switch hr hl hc
    exact ⟨params, p, hpa, hp, h2, hs⟩
  · intro r hr hl
    rcases h.tracked hr hl with h3 | ⟨params, p, hpa, hp, h2, h1⟩
    · rw [h3]
      simp
    · have ho : 0 < (state r).nextProtocolVoteBefore := by
        rw [h1.voteBefore]
        exact Nat.add_pos_left h1.positive _
      refine ⟨⟨fun hn => absurd hn h1.not_clean, fun hz => ?_⟩, fun _ => ?_⟩
      · exact absurd hz.2.1 (ne_of_gt ho)
      · exact ⟨params, p, hpa, hp, h2, h1.version, h1.voteBefore,
          h1.switchOn, h1.count,
          fun q h4 hq => h1.alone q h4 (lt_succ_of_le hq),
          fun he => h1.passed (lt_succ_of_le he)⟩

end UpgradeRun

namespace Sample

/-- Two rounds of voting with two approvals needed, and one round to wait. -/
def quickUpgrades : Environment Unit :=
  { Sample.env with
    consensus := fun v => if v = 31 ∨ v = 32 then
        some { upgradeVoteRounds := 2, upgradeThreshold := 2, defaultUpgradeWaitRounds := 1,
               minUpgradeWaitRounds := 0 }
      else none }

/-- Version 32 is proposed in round 1 and approved in the rounds 1 and 2. -/
def quickVote (r : Round) : UpgradeVote where
  upgradePropose := if r = 1 then 32 else 0
  upgradeApprove := r = 1 ∨ r = 2

def quickState (r : Round) : UpgradeState :=
  if r = 0 then { currentProtocol := 31 }
  else if r < 4 then
    { currentProtocol := 31, nextProtocol := 32, nextProtocolApprovals := min r 2,
      nextProtocolVoteBefore := 3, nextProtocolSwitchOn := 4 }
  else { currentProtocol := 32 }

end Sample

theorem upgrade_run_voted_quick :
    (Sample.quickState 4).currentProtocol = 32 ∧ (Sample.quickState 3).currentProtocol = 31 ∧
      ∃ params p, Sample.quickUpgrades.consensus 31 = some params ∧ p ≤ 4 ∧
        params.upgradeThreshold ≤
          (approvals Sample.quickVote p (p + params.upgradeVoteRounds)).card := by
  have hr : UpgradeRun Sample.quickUpgrades 0 4 Sample.quickVote Sample.quickState :=
    { clean := rfl
      step := by decide +kernel }
  obtain ⟨params, p, hpa, -, hp, -, -, he, -⟩ :=
    hr.upgrade_run_voted.1 3 (by decide) (by decide) (by decide)
  exact ⟨rfl, rfl, params, p, hpa, hp, he⟩

/-! ## Which votes apply -/

namespace UpgradeState

variable {env} {v : UpgradeVote}

theorem approve_eq (h : v.upgradeApprove = true → s.nextProtocol ≠ 0 ∧ q < s.nextProtocolVoteBefore) :
    s.approve q v = .ok (s.counting v) := by
  unfold approve counting
  split
  case isTrue hy =>
    obtain ⟨ho, htime⟩ := h hy
    rw [failIf, if_neg ho, failIf, if_neg (Nat.not_le_of_lt htime)]
    rfl
  case isFalse hn => rfl

/-- A round that is not the end of the vote of a failed proposal and not its switch. -/
theorem settled_eq (hs : q ≠ s.nextProtocolSwitchOn)
    (hf : q = s.nextProtocolVoteBefore → params.upgradeThreshold ≤ s.nextProtocolApprovals) :
    (s.clearFailed params q).switchOver q = s := by
  have hk : ¬(q = s.nextProtocolVoteBefore ∧
      s.nextProtocolApprovals < params.upgradeThreshold) :=
    fun hb => Nat.not_lt_of_le (hf hb.1) hb.2
  rw [clearFailed, if_neg hk, switchOver, if_neg hs]

/-- A vote that proposes nothing. -/
theorem applyUpgradeVote_eq (hpa : env.consensus s.currentProtocol = some params)
    (hn : v.upgradePropose = 0) (hd : v.upgradeDelay = 0)
    (h : v.upgradeApprove = true → s.nextProtocol ≠ 0 ∧ q < s.nextProtocolVoteBefore) :
    s.applyUpgradeVote env q v = .ok (((s.counting v).clearFailed params q).switchOver q) := by
  have hp : s.propose env params q v = .ok s := by
    rw [propose, if_neg (not_not.mpr hn), failIf, if_neg (not_not.mpr hd)]
    rfl
  rw [applyUpgradeVote, hpa, orThrow_some, ok_bind, hp, ok_bind, approve_eq h]
  rfl

/-- The state in which the proposal of round `q` is open. -/
def opened (params : ConsensusParams) (q : Round) (v : UpgradeVote) (s : UpgradeState) :
    UpgradeState :=
  { s with
    nextProtocol := v.upgradePropose
    nextProtocolApprovals := 0
    nextProtocolVoteBefore := q + params.upgradeVoteRounds
    nextProtocolSwitchOn := q + params.upgradeVoteRounds + params.waitRounds v }

/-- The state with `n` approvals of the proposal of round `q`, the only change of `w`. -/
def approvedBy (params : ConsensusParams) (q : Round) (v : UpgradeVote) (w : ConsensusVersion)
    (n : ℕ) : UpgradeState :=
  { opened params q v { currentProtocol := w } with nextProtocolApprovals := n }

/-- Nothing is settled before the end of the vote. -/
theorem approvedBy_settled (w : ConsensusVersion) (n : ℕ) (h : r < q + params.upgradeVoteRounds) :
    ((approvedBy params q v w n).clearFailed params r).switchOver r = approvedBy params q v w n :=
  settled_eq (Nat.ne_of_lt (Nat.lt_add_right _ h)) fun he => absurd he (Nat.ne_of_lt h)

/-- A vote that proposes an upgrade. -/
theorem applyUpgradeVote_opened (hpa : env.consensus s.currentProtocol = some params)
    (hn : s.nextProtocol = 0) (hp : v.Permitted env params)
    (h : v.upgradeApprove = true → 0 < params.upgradeVoteRounds) :
    s.applyUpgradeVote env q v =
      .ok ((((s.opened params q v).counting v).clearFailed params q).switchOver q) := by
  have h1 : s.propose env params q v = .ok (s.opened params q v) := by
    rw [propose, if_pos hp.proposes, failIf, if_neg (not_not.mpr hn), failIf,
      if_neg (Nat.not_lt_of_le hp.length), failIf,
      if_neg (not_or.mpr ⟨Nat.not_lt_of_le hp.maxWait, Nat.not_lt_of_le hp.minWait⟩)]
    rfl
  have ha : (s.opened params q v).approve q v = .ok ((s.opened params q v).counting v) :=
    approve_eq fun hy => ⟨hp.proposes, Nat.lt_add_of_pos_right (h hy)⟩
  rw [applyUpgradeVote, hpa, orThrow_some, ok_bind, h1, ok_bind, ha]
  rfl

end UpgradeState

/-- The vote of a proposer after `prev`: propose the first approved upgrade if none is open, and
approve the one being voted on if it is among the approved ones. -/
def proposerVote (upgrades : List (ConsensusVersion × ℕ)) (prev : BlockHeader) : UpgradeVote :=
  let proposal : UpgradeVote :=
    if prev.nextProtocol = 0 then
      match upgrades with
      | [] => {}
      | (k, v) :: _ => { upgradePropose := k, upgradeDelay := v, upgradeApprove := true }
    else {}
  if prev.round + 1 < prev.nextProtocolVoteBefore then
    { proposal with upgradeApprove := upgrades.any (·.1 = prev.nextProtocol) }
  else proposal

/-- `ProcessUpgradeParams`. `approved` lists the `ApprovedUpgrades` of each version in the order in
which they are visited. -/
def processUpgradeParams (approved : ConsensusVersion → List (ConsensusVersion × ℕ))
    (prev : BlockHeader) : Except EvalError (UpgradeVote × UpgradeState) := do
  let _ ← orThrow .unknownProtocol (env.consensus prev.currentProtocol)
  let upgradeVote := proposerVote (approved prev.currentProtocol) prev
  let upgradeState ← prev.toUpgradeState.applyUpgradeVote env (prev.round + 1) upgradeVote
  return (upgradeVote, upgradeState)

/-- The vote of a proposer always applies, if the versions a version approves pass its own checks. -/
theorem processUpgradeParams_ok {env : Environment P}
    {approved : ConsensusVersion → List (ConsensusVersion × ℕ)} {prev : BlockHeader}
    (hpa : env.consensus prev.currentProtocol = some params)
    (hv : 0 < params.upgradeVoteRounds) (h2 : ∀ e ∈ approved prev.currentProtocol,
      UpgradeVote.Permitted env params { upgradePropose := e.1, upgradeDelay := e.2 }) :
    ∃ uv us, processUpgradeParams env approved prev = .ok (uv, us) ∧
      prev.toUpgradeState.applyUpgradeVote env (prev.round + 1) uv = .ok us := by
  suffices ha : ∃ us, prev.toUpgradeState.applyUpgradeVote env (prev.round + 1)
      (proposerVote (approved prev.currentProtocol) prev) = .ok us by
    obtain ⟨us, hu⟩ := ha
    refine ⟨_, us, ?_, hu⟩
    simp only [processUpgradeParams, hpa, orThrow_some, ok_bind, hu]
    rfl
  by_cases hn : prev.nextProtocol = 0
  · cases h4 : approved prev.currentProtocol with
    | nil =>
      have hv0 : proposerVote [] prev = {} := by simp [proposerVote]
      rw [hv0]
      exact ⟨_, UpgradeState.applyUpgradeVote_eq hpa rfl rfl (by simp)⟩
    | cons e es =>
      have hp := h2 e (by rw [h4]; exact List.mem_cons_self)
      -- whether the proposer approves it or not, the proposal is the first approved one
      obtain ⟨y, hy⟩ : ∃ y, proposerVote (e :: es) prev =
          { upgradePropose := e.1, upgradeDelay := e.2, upgradeApprove := y } := by
        simp only [proposerVote, hn, if_true]
        split
        case isTrue => exact ⟨_, rfl⟩
        case isFalse => exact ⟨_, rfl⟩
      rw [hy]
      exact ⟨_, UpgradeState.applyUpgradeVote_opened hpa hn
        ⟨hp.proposes, hp.length, hp.minWait, hp.maxWait⟩ fun _ => hv⟩
  · simp only [proposerVote, hn, if_false]
    split
    case isTrue htime =>
      exact ⟨_, UpgradeState.applyUpgradeVote_eq hpa rfl rfl fun _ => ⟨hn, htime⟩⟩
    case isFalse htime => exact ⟨_, UpgradeState.applyUpgradeVote_eq hpa rfl rfl (by simp)⟩

theorem processUpgradeParams_ok_quick :
    ∃ uv us, processUpgradeParams Sample.quickUpgrades (fun _ => [(32, 0)])
      { round := 1, toUpgradeState := Sample.quickState 1 } = .ok (uv, us) :=
  let ⟨uv, us, h, _⟩ := processUpgradeParams_ok rfl (by decide) (by
    simpa using ⟨by decide, by decide, by decide, by decide⟩)
  ⟨uv, us, h⟩

/-! ## Chains of headers -/

/-- The headers of the rounds `first` to `last`, each a successor of the one before it. -/
structure HeaderChain (first last : Round) (hdr : Round → BlockHeader) : Prop where
  round : (hdr first).round = first
  clean : (hdr first).toUpgradeState.Clean
  next : ∀ r, first ≤ r → r < last → (hdr (r + 1)).preCheck env (hdr r) = .ok ()

namespace BlockHeader

variable {env} {bh prev : BlockHeader}

theorem preCheck_ok (h : bh.preCheck env prev = .ok ()) :
    bh.round = prev.round + 1 ∧ (env.consensus bh.currentProtocol).isSome ∧
      prev.toUpgradeState.applyUpgradeVote env (prev.round + 1) bh.toUpgradeVote =
        .ok bh.toUpgradeState := by
  simp only [preCheck, bind_ok, orThrow_ok, failIf_ok, not_not] at h
  obtain ⟨_, hpa, ⟨⟩, hr, ⟨⟩, -, _, hs, ⟨⟩, rfl, -⟩ := h
  exact ⟨hr.symm, by rw [hpa]; rfl, hs⟩

/-- Every vote that applies has a header, if the protocol it leads to is known. -/
theorem exists_next {vote : UpgradeVote} {state : UpgradeState}
    (ha : prev.toUpgradeState.applyUpgradeVote env (prev.round + 1) vote = .ok state)
    (hpa : env.consensus state.currentProtocol = some params)
    (htime : 0 ≤ params.maxTimestampIncrement) :
    ∃ bh : BlockHeader, bh.preCheck env prev = .ok () ∧ bh.toUpgradeState = state := by
  refine ⟨{ prev with
    toUpgradeState := state
    toUpgradeVote := vote
    round := prev.round + 1
    branch := env.headerHash prev
    genesisID := if prev.genesisID = [] then [0] else prev.genesisID
    genesisHash :=
      if params.supportGenesisHash then
        if prev.genesisHash = 0 then 1 else prev.genesisHash
      else 0 }, ?_, rfl⟩
  have ht : ¬(0 < prev.timeStamp ∧ (prev.timeStamp < prev.timeStamp ∨
      prev.timeStamp + params.maxTimestampIncrement < prev.timeStamp)) := by omega
  simp only [preCheck, hpa, orThrow_some, ok_bind, failIf, ha, ne_eq, not_true_eq_false,
    if_false, ht]
  by_cases hi : prev.genesisID = [] <;> by_cases hg : prev.genesisHash = 0 <;>
    by_cases hs : params.supportGenesisHash = true <;>
    simp [hi, hg, hs, ok_bind]

end BlockHeader

open BlockHeader

namespace HeaderChain

variable {env}

section

variable (h : HeaderChain env first last hdr)
include h

theorem round_eq (hr : first ≤ r) (hl : r ≤ last) : (hdr r).round = r := by
  induction r, hr using le_induction with
  | base => exact h.round
  | succ r hr ih =>
    rw [(preCheck_ok (h.next r hr hl)).1, ih (le_of_succ_le hl)]

theorem known (hr : first < r) (hl : r ≤ last) :
    (env.consensus (hdr r).currentProtocol).isSome := by
  obtain ⟨r, rfl⟩ := exists_eq_add_one_of_ne_zero (ne_zero_of_lt hr)
  exact (preCheck_ok (h.next r (le_of_lt_succ hr) hl)).2.1

/-- The upgrade states of a chain are those of its votes. -/
theorem run :
    UpgradeRun env first last (fun r => (hdr r).toUpgradeVote) fun r => (hdr r).toUpgradeState where
  clean := h.clean
  step := by
    intro r hr hl
    have hn := (preCheck_ok (h.next r hr hl)).2.2
    rwa [h.round_eq hr hl.le] at hn

end

end HeaderChain

/-! ## The forecast of the protocol -/

/-- The errors of the block queue. -/
inductive LedgerError
  | noEntry (round latest committed : Round)
  deriving DecidableEq

/-- The headers of the block queue: those on disk up to `lastCommitted`, and those after it. -/
structure BlockQueue where
  lastCommitted : Round
  q : List BlockHeader
  disk : Round → Option BlockHeader

namespace BlockQueue

variable (bq : BlockQueue)

def latest : Round := bq.lastCommitted + bq.q.length

def latestCommitted : Round × Round := (bq.lastCommitted, bq.latest)

def getBlockHdr (r : Round) : Except LedgerError BlockHeader :=
  if bq.latest < r then throw (.noEntry r bq.latest bq.lastCommitted)
  else if r ≤ bq.lastCommitted then
    orThrow (.noEntry r bq.latest bq.lastCommitted) (bq.disk r)
  else
    orThrow (.noEntry r bq.latest bq.lastCommitted) bq.q[r - bq.lastCommitted - 1]?

/-- The part of `ConsensusVersion` that looks at the latest header. -/
def forecast (latestBlockhdr : BlockHeader) (r : Round) : Except LedgerError ConsensusVersion :=
  if latestBlockhdr.nextProtocolSwitchOn = 0 then
    let upgradeVoteRounds :=
      ((env.consensus latestBlockhdr.currentProtocol).map (·.upgradeVoteRounds)).getD 0
    if r ≤ latestBlockhdr.round + upgradeVoteRounds then return latestBlockhdr.currentProtocol
    else throw (.noEntry r bq.latest bq.lastCommitted)
  else if r < latestBlockhdr.nextProtocolSwitchOn then return latestBlockhdr.currentProtocol
  else if r = latestBlockhdr.nextProtocolSwitchOn ∧
      latestBlockhdr.nextProtocolVoteBefore ≤ latestBlockhdr.round then
    return latestBlockhdr.nextProtocol
  else throw (.noEntry r bq.latest bq.lastCommitted)

def consensusVersion (r : Round) : Except LedgerError ConsensusVersion :=
  match bq.getBlockHdr r with
  | .ok blockhdr => return blockhdr.currentProtocol
  | .error err =>
    let latestRound := bq.latestCommitted.2
    if r < latestRound then throw err
    else do
      let latestBlockhdr ← bq.getBlockHdr latestRound
      bq.forecast env latestBlockhdr r

variable {bq env}

/-- For a round after the latest one, the version is what the latest header forecasts. -/
theorem forecast_of_consensusVersion {v : ConsensusVersion} (hr : bq.latest < r)
    (h : bq.consensusVersion env r = .ok v) :
    ∃ latest, bq.getBlockHdr bq.latest = .ok latest ∧ bq.forecast env latest r = .ok v := by
  have hn : bq.getBlockHdr r = .error (.noEntry r bq.latest bq.lastCommitted) := by
    rw [getBlockHdr, if_pos hr]
    rfl
  simp only [consensusVersion, hn] at h
  rw [if_neg (show ¬r < bq.latestCommitted.2 from Nat.not_lt_of_lt hr)] at h
  exact bind_ok.mp h

end BlockQueue

/-- A proposal of another version that is made after round `b` can be approved and take effect by
round `r`. -/
def Switchable (params : ConsensusParams) (v : ConsensusVersion) (b r : Round) : Prop :=
  params.upgradeThreshold ≤ params.upgradeVoteRounds ∧
    ∃ vote : UpgradeVote, vote.Permitted env params ∧ vote.upgradePropose ≠ v ∧
      (env.consensus vote.upgradePropose).isSome ∧
      b + 1 + params.upgradeVoteRounds + params.waitRounds vote ≤ r

/-- The open proposal can still fail, and another take effect by round `r`, before the open one would
have. -/
def BlockHeader.Overtaken (latest : BlockHeader) (r : Round) : Prop :=
  latest.nextProtocolSwitchOn ≠ 0 ∧ r < latest.nextProtocolSwitchOn ∧
    latest.round < latest.nextProtocolVoteBefore ∧
    ∃ params, env.consensus latest.currentProtocol = some params ∧
      latest.nextProtocolApprovals < params.upgradeThreshold ∧
      Switchable env params latest.currentProtocol latest.nextProtocolVoteBefore r

namespace UpgradeRun

open UpgradeState

variable {env}

section

variable (h : UpgradeRun env first last vote state)
include h

theorem known (hr : first ≤ r) (hl : r < last) :
    ∃ params, env.consensus (state r).currentProtocol = some params := by
  obtain ⟨params, hpa, -⟩ := bind_ok.mp (h.step r hr hl)
  exact ⟨params, orThrow_ok.mp hpa⟩

/-- A run from a later round on in which no proposal is open. -/
theorem drop (hr : first ≤ r) (hc : (state r).Clean) : UpgradeRun env r last vote state :=
  ⟨hc, fun q hq hl => h.step q (hr.trans hq) hl⟩

/-- Without a proposal at the start, the protocol stays as long as none can take effect. -/
theorem current_eq
    (hk : ∀ r, first < r → r ≤ last → (env.consensus (state r).currentProtocol).isSome)
    (hpa : env.consensus (state first).currentProtocol = some params)
    (hn : ¬Switchable env params (state first).currentProtocol first last) (hr : first ≤ r)
    (hl : r ≤ last) : (state r).currentProtocol = (state first).currentProtocol := by
  induction r, hr using le_induction with
  | base => rfl
  | succ r hr ih =>
    have ih := ih (le_of_succ_le hl)
    by_contra hc
    obtain ⟨pr', p, hp', _, _, he, hv, _, h1, -⟩ :=
      h.switch hr hl (fun hq => hc (hq.trans ih))
    obtain rfl : pr' = params := by
      rw [ih, hpa] at hp'
      exact (Option.some.inj hp').symm
    refine hn ⟨h1.trans (card_approvals_le vote p _), vote p, he, ?_, ?_, ?_⟩
    · rw [hv]
      exact hc
    · rw [hv]
      exact hk (r + 1) (lt_succ_of_le hr) hl
    · lia

/-- Before its switch an open proposal stays open, or fails at the end of the vote. -/
theorem pending (hr : first ≤ r) (hpa : env.consensus (state r).currentProtocol = some params)
    (hp : Pending env params vote p (r + 1) (state r)) (hq : r ≤ q) (hl : q ≤ last)
    (hb : q < (state r).nextProtocolSwitchOn) :
    (Pending env params vote p (q + 1) (state q) ∧
      (state q).currentProtocol = (state r).currentProtocol ∧
      (state q).nextProtocol = (state r).nextProtocol ∧
      (state q).nextProtocolVoteBefore = (state r).nextProtocolVoteBefore ∧
      (state q).nextProtocolSwitchOn = (state r).nextProtocolSwitchOn ∧
      (state r).nextProtocolApprovals ≤ (state q).nextProtocolApprovals) ∨
    (r < (state r).nextProtocolVoteBefore ∧ (state r).nextProtocolVoteBefore ≤ q ∧
      (state r).nextProtocolApprovals < params.upgradeThreshold ∧
      state (state r).nextProtocolVoteBefore =
        { currentProtocol := (state r).currentProtocol }) := by
  induction q, hq using le_induction with
  | base => exact .inl ⟨hp, rfl, rfl, rfl, rfl, le_rfl⟩
  | succ q hq ih =>
    rcases ih (le_of_succ_le hl) (lt_of_succ_lt hb) with
      ⟨hq', hc, h1, hv, hw, hm⟩ | ⟨hlt, he, hh, hs⟩
    · rw [← hc] at hpa
      have ht := (hq'.step hpa (h.step q (hr.trans hq) hl)).2
      generalize hs' : state (q + 1) = s' at ht
      cases ht with
      | failed hn hh =>
        rw [hv] at hn
        refine .inr ⟨by lia, hn.ge, hm.trans_lt hh, ?_⟩
        rw [← hn, hs', hc]
      | switched hn _ =>
        rw [hw] at hn
        exact absurd hn (Nat.ne_of_lt hb)
      | stays hp' hc' hv' ht' hw' hm' =>
        exact .inl ⟨hp', hc'.trans hc, hv'.trans h1, ht'.trans hv, hw'.trans hw, hm.trans hm'⟩
    · exact .inr ⟨hlt, le_succ_of_le he, hh, hs⟩

end

end UpgradeRun

/-! ### Continuations of a chain -/

/-- The chain `hdr` has a continuation from round `l` to round `r` that ends in the state `s`. -/
def Continues (first l : Round) (hdr : Round → BlockHeader) (r : Round) (s : UpgradeState) : Prop :=
  ∃ ext, HeaderChain env first r ext ∧ (∀ q, q ≤ l → ext q = hdr q) ∧ (ext r).toUpgradeState = s

namespace Continues

open UpgradeState

variable {env} {l r' : Round} {vote : UpgradeVote}

theorem step (h : Continues env first l hdr r s) (hfirst : first ≤ r) (hl : l ≤ r)
    (ha : s.applyUpgradeVote env (r + 1) vote = .ok s')
    (hpa : env.consensus s'.currentProtocol = some params)
    (htime : 0 ≤ params.maxTimestampIncrement) : Continues env first l hdr (r + 1) s' := by
  obtain ⟨ext, hc, hg, hs⟩ := h
  rw [← hc.round_eq hfirst le_rfl, ← hs] at ha
  obtain ⟨bh, hn, rfl⟩ := exists_next ha hpa htime
  have ho : ∀ q, q ≤ r → update ext (r + 1) bh q = ext q := fun q hq =>
    update_of_ne (Nat.ne_of_lt (Nat.lt_succ_of_le hq)) bh ext
  refine ⟨update ext (r + 1) bh, ⟨?_, ?_, fun q hq ht => ?_⟩, fun q hq => ?_, ?_⟩
  · rw [ho first hfirst]
    exact hc.round
  · rw [ho first hfirst]
    exact hc.clean
  · rw [ho q (le_of_lt_succ ht)]
    by_cases he : q = r
    · subst he
      rw [update_self]
      exact hn
    · rw [ho (q + 1) (by lia)]
      exact hc.next q hq (by lia)
  · rw [ho q (hq.trans hl), hg q hq]
  · rw [update_self]

section

variable (h : Continues env first l hdr r s) (hfirst : first ≤ r) (hl : l ≤ r)
  (hpa : env.consensus s.currentProtocol = some params)
  (htime : 0 ≤ params.maxTimestampIncrement)
include h hfirst hl hpa htime

/-- Rounds with empty votes, in which the proposal, if there is one, neither fails nor switches. -/
theorem idle (hr : r ≤ r') (ht : ∀ q, r < q → q ≤ r' → q ≠ s.nextProtocolSwitchOn ∧
      (q = s.nextProtocolVoteBefore → params.upgradeThreshold ≤ s.nextProtocolApprovals)) :
    Continues env first l hdr r' s := by
  induction r', hr using le_induction with
  | base => exact h
  | succ r' hr ih =>
    have ih := ih fun q hq h1 => ht q hq (le_succ_of_le h1)
    obtain ⟨hs, hf⟩ := ht (r' + 1) (lt_succ_of_le hr) le_rfl
    have ha : s.applyUpgradeVote env (r' + 1) {} = .ok s := by
      rw [applyUpgradeVote_eq hpa rfl rfl (by simp)]
      exact congrArg Except.ok (settled_eq hs hf)
    exact ih.step (hfirst.trans hr) (hl.trans hr) ha hpa htime

/-- An open proposal without enough approvals can be left to fail. -/
theorem failed (hf : r < s.nextProtocolVoteBefore)
    (hw : s.nextProtocolVoteBefore ≤ s.nextProtocolSwitchOn)
    (hs : s.nextProtocolApprovals < params.upgradeThreshold) :
    Continues env first l hdr s.nextProtocolVoteBefore { currentProtocol := s.currentProtocol } := by
  obtain ⟨b, hb⟩ := exists_eq_add_one_of_ne_zero (ne_zero_of_lt hf)
  have hr : r ≤ b := by lia
  have hi : Continues env first l hdr b s :=
    h.idle hfirst hl hpa htime hr fun q _ hq => ⟨by lia, fun he => by lia⟩
  have ha : s.applyUpgradeVote env (b + 1) {} = .ok { currentProtocol := s.currentProtocol } := by
    rw [applyUpgradeVote_eq hpa rfl rfl (by simp)]
    show Except.ok ((s.clearFailed params (b + 1)).switchOver (b + 1)) = _
    rw [clearFailed, if_pos ⟨hb.symm, hs⟩, switchOver, if_neg (succ_ne_zero b)]
  rw [hb]
  exact hi.step (hfirst.trans hr) (hl.trans hr) ha hpa htime

end

variable {v : ConsensusVersion}

section

variable (h : Continues env first l hdr r { currentProtocol := v }) (hfirst : first ≤ r)
  (hl : l ≤ r) (hpa : env.consensus v = some params)
include h hfirst hl hpa

/-- From a state without a proposal, a permitted proposal that every round of its vote approves. -/
theorem approved (htime : 0 ≤ params.maxTimestampIncrement) (hp : vote.Permitted env params)
    {n : ℕ} (hn : n < params.upgradeVoteRounds) :
    Continues env first l hdr (r + 1 + n) (approvedBy params (r + 1) vote v (n + 1)) := by
  induction n with
  | zero =>
    have h1 : ({ vote with upgradeApprove := true } : UpgradeVote).Permitted env params :=
      ⟨hp.proposes, hp.length, hp.minWait, hp.maxWait⟩
    have ha := applyUpgradeVote_opened (s := { currentProtocol := v }) (q := r + 1) hpa rfl
      h1 fun _ => hn
    have hq := approvedBy_settled (v := vote) v 1 (Nat.lt_add_of_pos_right (n := r + 1) hn)
    exact h.step hfirst hl (ha.trans (congrArg _ hq)) hpa htime
  | succ n ih =>
    have ih := ih (lt_of_succ_lt hn)
    have ht : r + 1 + (n + 1) < r + 1 + params.upgradeVoteRounds := Nat.add_lt_add_left hn _
    have ha := applyUpgradeVote_eq (v := { upgradeApprove := true }) (q := r + 1 + n + 1)
      (s := approvedBy params (r + 1) vote v (n + 1)) hpa rfl rfl
      fun _ => ⟨hp.proposes, ht⟩
    have hq := approvedBy_settled (v := vote) v (n + 2) ht
    exact ih.step (by lia) (by lia) (ha.trans (congrArg _ hq)) hpa htime

/-- A proposal of another version that can take effect by round `r'` does so in some continuation. -/
theorem switched
    (htime : ∀ v params, env.consensus v = some params → 0 ≤ params.maxTimestampIncrement)
    (hv : 0 < params.upgradeVoteRounds) (hs : Switchable env params v r r') :
    ∃ v', v' ≠ v ∧ Continues env first l hdr r' { currentProtocol := v' } := by
  obtain ⟨ht, vt, hp, ho, hk, _⟩ := hs
  obtain ⟨_, hp'⟩ := Option.isSome_iff_exists.mp hk
  obtain ⟨n, hn⟩ := exists_eq_add_one_of_ne_zero (ne_of_gt hv)
  let s := approvedBy params (r + 1) vt v (n + 1)
  have h1 : Continues env first l hdr (r + 1 + n) s :=
    h.approved hfirst hl hpa (htime v params hpa) hp (by lia)
  have hw : Continues env first l hdr (r + params.upgradeVoteRounds + params.waitRounds vt) s :=
    h1.idle (by lia) (by lia) hpa (htime v params hpa) (by lia) fun q _ hq =>
      ⟨by simp only [s, approvedBy, opened]; lia, fun _ => ht.trans hn.le⟩
  have ha : s.applyUpgradeVote env
      (r + params.upgradeVoteRounds + params.waitRounds vt + 1) {} =
        .ok { currentProtocol := vt.upgradePropose } := by
    rw [applyUpgradeVote_eq hpa rfl rfl (by simp)]
    have h2 : ¬(r + params.upgradeVoteRounds + params.waitRounds vt + 1 =
        s.nextProtocolVoteBefore ∧ s.nextProtocolApprovals < params.upgradeThreshold) :=
      fun hf => Nat.not_lt_of_le (ht.trans hn.le) hf.2
    have hr : r + params.upgradeVoteRounds + params.waitRounds vt + 1 =
        s.nextProtocolSwitchOn := by
      simp only [s, approvedBy, opened]
      lia
    show Except.ok (switchOver _ (clearFailed params _ s)) = _
    rw [clearFailed, if_neg h2, switchOver, if_pos hr]
    rfl
  have h3 := hw.step (by lia) (by lia) ha hp' (htime _ _ hp')
  exact ⟨vt.upgradePropose, ho, h3.idle (by lia) (by lia) hp'
    (htime _ _ hp') (by lia) fun q hq _ => ⟨ne_zero_of_lt hq,
      fun he => absurd he (ne_zero_of_lt hq)⟩⟩

end

end Continues

namespace BlockQueue

open UpgradeState

variable {env} {bq : BlockQueue} {first r : Round} {hdr : Round → BlockHeader}
  {v : ConsensusVersion}

/-- A continuation of the chain that does not have the version of the forecast. -/
theorem exists_overtaking (hc : HeaderChain env first bq.latest hdr) (hfirst : first ≤ bq.latest)
    (htime : ∀ v params, env.consensus v = some params → 0 ≤ params.maxTimestampIncrement)
    (ho : (hdr bq.latest).Overtaken env r) :
    ∃ ext, HeaderChain env first r ext ∧ (∀ q, q ≤ bq.latest → ext q = hdr q) ∧
      (ext r).currentProtocol ≠ (hdr bq.latest).currentProtocol := by
  obtain ⟨h2, _, hv, params, hpa, hh, h1⟩ := ho
  have ht : Continues env first bq.latest hdr bq.latest (hdr bq.latest).toUpgradeState :=
    ⟨hdr, hc, fun _ _ => rfl, rfl⟩
  rw [hc.round_eq hfirst le_rfl] at hv
  have hw : (hdr bq.latest).nextProtocolVoteBefore ≤ (hdr bq.latest).nextProtocolSwitchOn := by
    rcases hc.run.tracked hfirst le_rfl with h3 | ⟨_, p, -, -, -, hn⟩
    · exact absurd (congrArg nextProtocolSwitchOn h3) h2
    · rw [hn.switchOn]
      exact le_add_right _ _
  have hf := ht.failed hfirst le_rfl hpa (htime _ _ hpa) hv hw hh
  have hp : 0 < params.upgradeVoteRounds := (zero_lt_of_lt hh).trans_le h1.1
  obtain ⟨_, hv', ext, he, ha, hs⟩ := hf.switched (hfirst.trans hv.le) hv.le hpa htime hp h1
  refine ⟨ext, he, ha, ?_⟩
  rw [hs]
  exact hv'

/-- A continuation of the chain on which the open proposal is not overtaken. -/
theorem forecast_right (he : HeaderChain env first r ext) (hfirst : first ≤ bq.latest)
    (hr : bq.latest < r) (hf : bq.forecast env (ext bq.latest) r = .ok v)
    (hn : ¬(ext bq.latest).Overtaken env r) : (ext r).currentProtocol = v := by
  have h2 := he.round_eq hfirst hr.le
  rcases he.run.tracked hfirst hr.le with h1 | ⟨pr, p, hpa, _, _, hp⟩
  · -- no proposal is open: the window of the next one ends after `r`
    obtain ⟨pr, hpa⟩ := he.run.known hfirst hr
    have h6 : (ext bq.latest).nextProtocolSwitchOn = 0 := congrArg nextProtocolSwitchOn h1
    simp only [forecast, if_pos h6, hpa, Option.map_some, Option.getD_some, h2] at hf
    split at hf
    case isFalse hlt => cases hf
    case isTrue hw =>
      obtain rfl := pure_ok.mp hf
      refine (he.run.drop hfirst h1).current_eq
        (fun q hq hl => he.known (hfirst.trans_lt hq) hl) hpa ?_ hr.le le_rfl
      rintro ⟨-, _, -, -, -, h3⟩
      lia
  · have ho : (ext bq.latest).nextProtocolSwitchOn ≠ 0 := by
      rw [hp.switchOn, hp.voteBefore]
      lia
    rw [forecast, if_neg ho] at hf
    split at hf
    case isTrue hb =>
      -- before the switch of the open proposal
      obtain rfl := pure_ok.mp hf
      rcases he.run.pending hfirst hpa hp hr.le le_rfl hb with
        ⟨-, hc, -⟩ | ⟨ht, h3, hh, h1⟩
      · exact hc
      · have hu := he.run.drop (hfirst.trans ht.le) (h1 ▸ clean_mk _)
        have hc := congrArg currentProtocol h1
        refine (hu.current_eq (fun q hq hl => he.known (by lia) hl) (hc ▸ hpa) ?_
          h3 le_rfl).trans hc
        rw [hc]
        intro hs
        exact hn ⟨ho, hb, h2.trans_lt ht, pr, hpa, hh, hs⟩
    case isFalse hb =>
      split at hf
      case isFalse h9 => cases hf
      case isTrue hs =>
        -- the switch of a proposal that has passed its vote
        obtain rfl := pure_ok.mp hf
        obtain ⟨ha, h4⟩ := hs
        rw [h2] at h4
        obtain ⟨q, rfl⟩ := exists_eq_add_one_of_ne_zero (ne_zero_of_lt hr)
        rcases he.run.pending hfirst hpa hp (le_of_lt_succ hr) (le_succ q)
          (ha ▸ lt_succ_self q) with
          ⟨hq, hc, h7, hv, hs, -⟩ | ⟨ht, -⟩
        · have h5 := (hq.step (hc ▸ hpa)
            (he.run.step q (by lia) (lt_succ_self q))).2
          generalize hs' : (ext (q + 1)).toUpgradeState = s' at h5
          cases h5 with
          | failed _ hh =>
            lia
          | switched => exact h7
          | stays h8 =>
            have hlt := h8.notYet
            lia
        · exact absurd h4 (Nat.not_le_of_lt ht)

/-- `ConsensusVersion` of a later round is the version of that round on every continuation of the
chain exactly if the open proposal cannot be overtaken. -/
theorem consensusVersion_right_iff
    (htime : ∀ v params, env.consensus v = some params → 0 ≤ params.maxTimestampIncrement)
    (hchain : HeaderChain env first bq.latest hdr) (hfirst : first ≤ bq.latest)
    (hbq : ∀ q h, bq.getBlockHdr q = .ok h → h = hdr q) (hr : bq.latest < r)
    (hv : bq.consensusVersion env r = .ok v) :
    (∀ ext, HeaderChain env first r ext → (∀ q, q ≤ bq.latest → ext q = hdr q) →
      (ext r).currentProtocol = v) ↔ ¬(hdr bq.latest).Overtaken env r := by
  obtain ⟨latest, ht, hf⟩ := forecast_of_consensusVersion hr hv
  obtain rfl := hbq _ _ ht
  constructor
  · intro ha ho
    obtain ⟨ext, he, hg, hne⟩ := exists_overtaking hchain hfirst htime ho
    rw [ha ext he hg] at hne
    rw [forecast, if_neg ho.1, if_pos ho.2.1] at hf
    exact hne (pure_ok.mp hf).symm
  · intro hn ext he hg
    rw [← hg _ le_rfl] at hf hn
    exact forecast_right he hfirst hr hf hn

end BlockQueue

namespace Sample

/-- The parameters of version 31 for two versions. -/
def twoVersions : Environment Unit :=
  { Sample.env with consensus := fun v => if v = 31 ∨ v = 32 then some {} else none }

/-- The first block proposes an upgrade with a long delay, to a version that never gets a vote. -/
def proposing (r : Round) : BlockHeader :=
  if r = 0 then { currentProtocol := 31, genesisID := [1], genesisHash := 1 }
  else
    { currentProtocol := 31
      nextProtocol := 33
      nextProtocolVoteBefore := 10001
      nextProtocolSwitchOn := 150001
      upgradePropose := 33
      upgradeDelay := 140000
      round := r
      genesisID := [1]
      genesisHash := 1 }

def proposingQueue : BlockQueue where
  lastCommitted := 1
  q := []
  disk r := if r ≤ 1 then some (proposing r) else none

theorem proposing_chain : HeaderChain twoVersions 0 proposingQueue.latest proposing where
  round := rfl
  clean := rfl
  next := by
    intro r _ hr
    obtain rfl : r = 0 := lt_one_iff.mp hr
    decide +kernel

theorem proposingQueue_hdr (q : Round) (h : BlockHeader)
    (hq : proposingQueue.getBlockHdr q = .ok h) : h = proposing q := by
  unfold BlockQueue.getBlockHdr at hq
  split at hq
  · cases hq
  · split at hq
    case isTrue he =>
      have hd : proposingQueue.disk q = some (proposing q) := if_pos he
      rw [hd] at hq
      exact (Except.ok.inj hq).symm
    case isFalse he => cases hq

theorem twoVersions_time (v : ConsensusVersion) (params : ConsensusParams)
    (h : twoVersions.consensus v = some params) : 0 ≤ params.maxTimestampIncrement := by
  simp only [twoVersions] at h
  split at h
  · cases h
    decide
  · cases h

theorem proposing_wait : Switchable twoVersions {} 31 10001 r ↔ 30002 ≤ r := by
  constructor
  · rintro ⟨-, vt, hp, -, -, hs⟩
    have hm : 10000 ≤ vt.upgradeDelay := hp.minWait
    simp only [ConsensusParams.waitRounds] at hs
    lia
  · intro hr
    exact ⟨by decide, { upgradePropose := 32, upgradeDelay := 10000 },
      ⟨by decide, by decide, by decide, by decide⟩, by decide, rfl, hr⟩

end Sample

open Sample

theorem consensusVersion_right_iff_proposing :
    proposingQueue.consensusVersion twoVersions 20000 = .ok 31 ∧
    ∀ ext, HeaderChain twoVersions 0 20000 ext →
      (∀ q, q ≤ 1 → ext q = proposing q) → (ext 20000).currentProtocol = 31 := by
  refine ⟨rfl, ?_⟩
  refine (BlockQueue.consensusVersion_right_iff twoVersions_time proposing_chain
    (zero_le _) proposingQueue_hdr (by decide) rfl).mpr ?_
  rintro ⟨-, -, -, params, hpa, -, hs⟩
  obtain rfl : {} = params := Option.some.inj hpa
  exact absurd (proposing_wait.mp hs) (by decide)

/-- The forecast says version 31, and yet a continuation of the chain has another by then: the open
proposal fails, and the next one waits for fewer rounds. -/
theorem forecast_overtaken :
    proposingQueue.consensusVersion twoVersions 30002 = .ok 31 ∧
      ∃ ext, HeaderChain twoVersions 0 30002 ext ∧
        (∀ q, q ≤ proposingQueue.latest → ext q = proposing q) ∧
        (ext 30002).currentProtocol ≠ 31 :=
  ⟨rfl, BlockQueue.exists_overtaking proposing_chain (zero_le _) twoVersions_time
    ⟨by decide, by decide, by decide, {}, rfl, by decide, proposing_wait.mpr le_rfl⟩⟩

end Novarand.Ledger
