import Novarand.Agreement.FlatBasics
import Novarand.Agreement.Refine

/-!
# Thresholds of the player are runs of the flat machine

From related states, every threshold the player handles without panicking is a run of the flat
machine with the same actions in the same order, which ends in related states with nothing pending.
-/

namespace Novarand.Agreement

open Flat List Function Machine RoundState

variable {cfg : Consensus} {D : State → Input → Prop} {m m' : Machine} {s s' s₁ : State}
  {acts pre : List Action}

/-! ## Labels -/

@[simp] theorem Flat.actions_append (o1 o2 : List Obs) :
    actions (o1 ++ o2) = actions o1 ++ actions o2 := by simp [actions, filterMap_append]

@[simp] theorem Flat.actions_act (a : Action) (o : List Obs) :
    actions (.act a :: o) = a :: actions o := rfl

@[simp] theorem Flat.actions_saw (v : Vote) (proto : ConsensusVersion) (o : List Obs) :
    actions (.saw v proto :: o) = actions o := rfl

@[simp] theorem Flat.actions_map_act (as : List Action) : actions (as.map .act) = as := by
  induction as with
  | nil => rfl
  | cons a as ih => rw [map_cons, actions_act, ih]

variable {a : Action} {o obs : List Obs}

theorem Flat.mem_actions : a ∈ actions o ↔ .act a ∈ o := by
  simp only [actions, mem_filterMap]
  constructor
  · rintro ⟨x, hx, he⟩
    cases x with
    | saw => cases he
    | act _ =>
      cases he
      exact hx
  · exact fun ha => ⟨_, ha, rfl⟩

/-- The flat machine runs from `s` with the actions `acts` into a state related to `m'`. -/
def Simulates (cfg : Consensus) (D : State → Input → Prop) (s : State) (m' : Machine)
    (acts : List Action) : Prop :=
  ∃ obs s', Steps (Move cfg D) s obs s' ∧ actions obs = acts ∧ Rel m' s' ∧ s'.pending = none

theorem Simulates.refl (h : Rel m s) (hp : s.pending = none) : Simulates cfg D s m [] :=
  ⟨[], s, .refl s, rfl, h, hp⟩

theorem Simulates.steps (hs : Steps (Move cfg D) s obs s₁) (h : Simulates cfg D s₁ m' acts) :
    Simulates cfg D s m' (actions obs ++ acts) := by
  obtain ⟨obs', s', hr, rfl, he, hp⟩ := h
  exact ⟨obs ++ obs', s', hs.trans hr, actions_append _ _, he, hp⟩


/-! ## Votes and staged digests -/

/-- Actions which neither vote, nor stage a digest, nor report a checkpoint. -/
def Plain : Action → Prop
  | .attest .. | .stageDigest .. | .checkpoint .. => False
  | _ => True

/-- The list does not both vote and stage a digest, and reports no checkpoint. -/
structure Unmixed (acts : List Action) : Prop where
  votes : (∀ c, .stageDigest c ∉ acts) ∨ ∀ r p q v, .attest r p q v ∉ acts
  checkpoints : ∀ r p q err done, .checkpoint r p q err done ∉ acts

theorem unmixed_of_plain (h : ∀ a ∈ acts, Plain a) : Unmixed acts :=
  ⟨.inl fun _ => h _, fun _ _ _ _ _ => h _⟩

theorem Unmixed.append (hp : ∀ a ∈ pre, Plain a) (h : Unmixed acts) : Unmixed (pre ++ acts) := by
  refine ⟨h.votes.imp (fun h c hc => ?_) fun h r p q v hv => ?_, fun r p q err dn hc => ?_⟩
  · exact (mem_append.mp hc).elim (hp _) (h c)
  · exact (mem_append.mp hv).elim (hp _) (h r p q v)
  · exact (mem_append.mp hc).elim (hp _) (h.checkpoints r p q err dn)

/-- Actions which are plain and without consequence for the flat machine. -/
def Quiet : Action → Prop
  | .attest .. | .ensure .. | .stageDigest .. | .checkpoint .. => False
  | _ => True

theorem Quiet.inert (h : Quiet a) : Inert a := by
  cases a <;> trivial

theorem Quiet.plain (h : Quiet a) : Plain a := by
  cases a <;> trivial

/-- The flat machine runs as in `Simulates`, with actions that do not both vote and stage a digest. -/
def Performs (cfg : Consensus) (D : State → Input → Prop) (s : State) (m' : Machine)
    (acts : List Action) : Prop :=
  Simulates cfg D s m' acts ∧ Unmixed acts

variable {q : Step}

namespace Performs

variable {obs : List Obs} {s₁ : State} {as : List Action}

theorem refl (h : Rel m s) (hp : s.pending = none) : Performs cfg D s m [] :=
  ⟨.refl h hp, unmixed_of_plain (by simp)⟩

/-- Steps without actions in front of a run. -/
theorem after (hs : Steps (Move cfg D) s obs s₁) (ho : actions obs = [])
    (h : Performs cfg D s₁ m' acts) : Performs cfg D s m' acts := by
  have h' := h.1.steps hs
  rw [ho] at h'
  exact ⟨h', h.2⟩

theorem step (hs : Move cfg D s obs s₁) (ho : actions obs = []) (h : Performs cfg D s₁ m' acts) :
    Performs cfg D s m' acts :=
  h.after (.single hs) ho

/-- A plain action in front of a run. -/
theorem act (ha : Plain a) (hs : Move cfg D s [.act a] s₁) (h : Performs cfg D s₁ m' acts) :
    Performs cfg D s m' (a :: acts) :=
  ⟨h.1.steps (.single hs), h.2.append fun _ hb => mem_singleton.mp hb ▸ ha⟩

/-- A vote at the end of a run. -/
theorem vote {r : Round} {p : Period} {v : ProposalValue}
    (hs : Move cfg D s [.act (.attest r p q v)] s₁) (h : Rel m s₁) (hp : s₁.pending = none) :
    Performs cfg D s m [.attest r p q v] :=
  ⟨.steps (.single hs) (.refl h hp), .inl (by simp), by simp⟩

/-- Quiet actions in front of a run. -/
theorem emit (as : List Action) (ha : ∀ a ∈ as, Quiet a) (h : Performs cfg D s m' acts) :
    Performs cfg D s m' (as ++ acts) := by
  have hi : Move cfg D s (as.map .act) s :=
    .idle s s.player as ⟨rfl, rfl, rfl, rfl⟩ fun a h => (ha a h).inert
  have h' := h.1.steps (.single hi)
  rw [actions_map_act] at h'
  exact ⟨h', h.2.append fun a h => (ha a h).plain⟩

/-- A digest is staged in front of a run which does not vote. -/
theorem stageDigest (b : UnauthenticatedBundle) (h : Performs cfg D s m' acts)
    (hq : ∀ a ∈ acts, Quiet a) : Performs cfg D s m' (.stageDigest b :: acts) := by
  have hi : Move cfg D s [.act (.stageDigest b)] s :=
    .idle s s.player [.stageDigest b] ⟨rfl, rfl, rfl, rfl⟩ (by simp [Inert])
  refine ⟨h.1.steps (.single hi), .inr fun r p q v hv => ?_, fun r p q err dn hc => ?_⟩
  · exact hq _ ((mem_cons.mp hv).resolve_left (by simp))
  · exact hq _ ((mem_cons.mp hc).resolve_left (by simp))

end Performs

/-! ## Queries -/

variable {rt : RootRouter}

theorem Rel.of_router {rounds : Round → RoundState} (h : Rel m s)
    (hr : RouterRel s.player rt rounds) (hn : s'.rounds = rounds) (hp : s'.player = s.player) :
    Rel { m with router := rt } s' :=
  ⟨h.player.trans hp.symm, by rw [hp, hn]; exact hr⟩

variable {p : Period} {r : Round} {e : ThresholdEvent} {R : RoundState} {pl : Player} {α : Type}
  {ahead Q : Prop}

/-- A question to a step which leaves the step as it was. -/
theorem RoundRel.stepQuery {rr rr' : RoundRouter} {g : StepRouter → α} {a : α}
    (h : RoundRel pl.period ahead rr R)
    (hf : (rr.toPeriod pl p fun pr => pr.toStep q fun sr => pure (sr, g sr)) = .ok (rr', a)) :
    RoundRel pl.period ahead rr' R := by
  refine (h.query hf (Q := fun _ => True) ?_).2.1
  intro pr _ _ hp
  obtain ⟨sr, hs, ht⟩ := PeriodRouter.toStep_ok hp
  simp only [pure_pair] at hs
  rw [ht, ← hs.1]
  simp [PeriodRouter.state]

section

variable (h : Rel m s)
include h

/-- A question to a round which leaves the round as it was. -/
theorem Rel.query {f : RoundRouter → M (RoundRouter × α)} {a : α}
    (hf : (m.router.toRound m.player r f >>= fun x => pure ({ m with router := x.1 }, x.2)) =
      .ok (m', a)) (hq : ∀ rr rr', RoundRel m.player.period (m.player.round < r) rr (s.rounds r) →
      f rr = .ok (rr', a) →
      RoundRel m.player.period (m.player.round < r) rr' (s.rounds r) ∧ Q) : Rel m' s ∧ Q := by
  simp only [bind_ok, Prod.exists, pure_pair] at hf
  obtain ⟨_, a, hn, rfl, rfl⟩ := hf
  rw [h.player] at hn hq
  obtain ⟨hr, hQ⟩ := h.router.query hn (Q := fun _ => Q) hq
  exact ⟨h.of_router hr rfl rfl, hQ⟩

theorem Rel.stagedValue {sv : StagingValue} (hf : m.stagedValue r p = .ok (m', sv)) :
    Rel m' s ∧ keepsPeriod m.player.period p = true ∧
      sv = (s.rounds r).store.readStaging ((s.rounds r).staging p) :=
  h.query hf fun _ _ hr hf =>
    have ⟨hk, hr', he⟩ := hr.readStaging hf
    ⟨hr', hk, he⟩

theorem Rel.pinnedValue {pv : PinnedValue} (hf : m.pinnedValue r = .ok (m', pv)) : Rel m' s :=
  (h.query (Q := True) hf fun _ _ hr hf => ⟨hr.readPinned hf, trivial⟩).1

theorem Rel.freshestBundle {res : VoteTrackerRound} (hf : m.freshestBundle = .ok (m', res)) :
    Rel m' s ∧ res = s.cur.fresh := by
  rw [State.cur, ← h.player]
  exact h.query hf fun _ _ hr hf => hr.freshestBundle hf

theorem Rel.nextThresholdStatus {st : NextThresholdStatus}
    (hf : m.nextThresholdStatus p = .ok (m', st)) : Rel m' s ∧ st = (s.cur.period p).cached := by
  rw [State.cur, ← h.player]
  exact h.query hf fun _ _ hr hf => hr.nextThresholdStatus hf

theorem Rel.dumpVotes {vs : List UnauthenticatedVote} (hf : m.dumpVotes q = .ok (m', vs))
    : Rel m' s :=
  (h.query (Q := True) hf fun _ _ hr hf => ⟨hr.stepQuery hf, trivial⟩).1

theorem Rel.relayStaged (hf : m.relayStaged r p = .ok (m', acts)) :
    Rel m' s ∧ ∀ a ∈ acts, Quiet a := by
  simp only [Machine.relayStaged, bind_ok, Prod.exists] at hf
  obtain ⟨_, _, hs, hf⟩ := hf
  have h1 := (h.stagedValue hs).1
  split_ifs at hf with hc
  · obtain ⟨rfl, rfl⟩ := pure_pair.mp hf
    exact ⟨h1, by simp [Quiet]⟩
  · simp only [bind_ok, Prod.exists] at hf
    obtain ⟨_, _, hp, hf⟩ := hf
    have h2 := h1.pinnedValue hp
    split_ifs at hf with ho <;>
    · obtain ⟨rfl, rfl⟩ := pure_pair.mp hf
      exact ⟨h2, by simp [Quiet]⟩

theorem Rel.partitionPolicy (hf : m.partitionPolicy = .ok (m', acts)) :
    Rel m' s ∧ ∀ a ∈ acts, Quiet a := by
  unfold Machine.partitionPolicy at hf
  split_ifs at hf with h4
  · simp only [bind_ok, Prod.exists] at hf
    obtain ⟨_, res, h3, hf⟩ := hf
    have h1 := (h.freshestBundle h3).1
    have hn : ∀ a ∈ (if res.ok then [Action.broadcast (.bundle res.freshest.bundle)] else []),
        Quiet a := by split_ifs <;> simp [Quiet]
    generalize (if res.ok then [Action.broadcast (.bundle res.freshest.bundle)] else []) = a0
      at hf hn
    split_ifs at hf with hb hp
    case pos | pos =>
      simp only [bind_ok, Prod.exists, pure_pair] at hf
      obtain ⟨_, _, hr, rfl, rfl⟩ := hf
      obtain ⟨h2, hs⟩ := h1.relayStaged hr
      exact ⟨h2, fun a ha => (mem_append.mp ha).elim (hn a) (hs a)⟩
    · obtain ⟨rfl, rfl⟩ := pure_pair.mp hf
      exact ⟨h1, hn⟩
  · obtain ⟨rfl, rfl⟩ := pure_pair.mp hf
    exact ⟨h, by simp⟩

end

/-! ## Thresholds in the proposal machines -/

variable {res : Option Vote}

section Threshold

variable {pl : Player} {rt rt' : RootRouter} {rounds : Round → RoundState} {e : ThresholdEvent}

theorem proposalManagerPre_round (h : proposalManagerPre pl e = .ok ()) : e.round = pl.round := by
  unfold proposalManagerPre at h
  by_contra hn
  rw [if_pos (Ne.symm hn)] at h
  cases h

theorem RouterRel.handleNewPeriod {u : Unit} (h : RouterRel pl rt rounds)
    (hr : e.round = pl.round) (hf : rt.handleNewPeriod pl e = .ok (rt', u)) :
    RouterRel pl rt' (Function.update rounds pl.round
      ((rounds pl.round).newPeriod pl
        (if e.t = .nextThreshold then nextPeriod e.period else e.period) e.proposal)) := by
  unfold RootRouter.handleNewPeriod at hf
  rw [hr] at hf
  obtain ⟨_, _, _, h1, hn, hb⟩ := h.toRound hf
  exact hb _ (h1.newPeriod hn)

/-- The proposal machines absorb a soft or cert threshold as the flat state does. -/
theorem RouterRel.threshold (h : RouterRel pl rt rounds)
    (ht : e.t = .softThreshold ∨ e.t = .certThreshold) (hf : rt.threshold pl r e = .ok (rt', res)) :
    proposalManagerPre pl e = .ok () ∧
      ((rounds pl.round).period e.period).contract.preThreshold e = .ok () ∧
      res.isSome = ((rounds pl.round).threshold pl e).assembled e.proposal ∧
      RouterRel pl rt' (Function.update rounds pl.round ((rounds pl.round).threshold pl e)) := by
  simp only [RootRouter.threshold, bind_ok] at hf
  obtain ⟨_, hp, hf⟩ := hf
  have h1 := proposalManagerPre_round hp
  have hx : e.t ≠ .nextThreshold := by rcases ht with ht | ht <;> simp [ht]
  have hf' : ∃ rt1, RouterRel pl rt1 (Function.update rounds pl.round
      (if pl.period < e.period then (rounds pl.round).newPeriod pl e.period e.proposal
        else rounds pl.round)) ∧
      (rt1.toRound pl e.round fun rr => rr.threshold pl e) = .ok (rt', res) := by
    have hf1 : (if pl.period < e.period then (do
          let x ← (rt.update pl r).handleNewPeriod pl e
          x.1.toRound pl e.round fun rr => rr.threshold pl e)
        else (rt.update pl r).toRound pl e.round fun rr => rr.threshold pl e) =
        .ok (rt', res) := by
      rcases ht with ht | ht <;>
      · simp only [ht] at hf
        exact hf
    split_ifs at hf1 ⊢ with hl
    · simp only [bind_ok, Prod.exists] at hf1
      obtain ⟨rt1, _, hn, hh⟩ := hf1
      have hr := (h.update r).handleNewPeriod h1 hn
      rw [if_neg hx] at hr
      exact ⟨rt1, hr, hh⟩
    · rw [update_eq_self]
      exact ⟨_, h.update r, hf1⟩
  obtain ⟨rt1, hr1, hh⟩ := hf'
  rw [h1] at hh
  obtain ⟨_, rr, _, h2, hs, hb⟩ := hr1.toRound hh
  obtain ⟨hc, he, hr'⟩ := h2.threshold (lt_irrefl _) hs
  have hr := hb _ hr'
  rw [update_idem] at hr
  simp only [update_self] at hc he hr
  refine ⟨hp, ?_, ?_, hr⟩
  · split_ifs at hc with hl
    · exact hc
    · exact hc
  · rw [he]
    have ha := ProposalStore.threshold_assembled
      (if pl.period < e.period then (rounds pl.round).newPeriod pl e.period e.proposal
        else rounds pl.round).store pl e.period e.proposal
    rw [ha.2, ← ha.1]
    rfl

/-- A next threshold only moves the proposal store to the new period. -/
theorem RouterRel.nextThreshold (h : RouterRel pl rt rounds) (ht : e.t = .nextThreshold)
    (hf : rt.threshold pl r e = .ok (rt', res)) :
    proposalManagerPre pl e = .ok () ∧ res = none ∧
      RouterRel pl rt' (Function.update rounds pl.round
        ((rounds pl.round).newPeriod pl (nextPeriod e.period) e.proposal)) := by
  simp only [RootRouter.threshold, ht, bind_ok, Prod.exists, pure_pair] at hf
  obtain ⟨_, hp, _, _, hn, rfl, rfl⟩ := hf
  have hr := (h.update r).handleNewPeriod (proposalManagerPre_round hp) hn
  rw [if_pos ht] at hr
  exact ⟨hp, rfl, hr⟩

end Threshold

/-! ## Entering periods and rounds -/

/-- A missing block is still missing after the player has moved to the period of its threshold. -/
theorem Flat.RoundState.threshold_missing (hl : pl.period < e.period)
    (h : R.assembled e.proposal = false) : (R.threshold pl e).assembled e.proposal = false := by
  rw [Bool.eq_false_iff] at h ⊢
  intro ha
  have ha' : ((if pl.period < e.period then R.newPeriod pl e.period e.proposal
      else R).store.assembler e.proposal).assembled = true := by
    rw [← (ProposalStore.threshold_assembled _ pl e.period e.proposal).1]
    exact ha
  rw [if_pos hl] at ha'
  have ho := ProposalStore.assembled_of_trim ha'
  exact h ho

theorem Rel.enterPeriod_forward (h : Rel m s) (hw : Wf s) (h2 : s.pending = some e)
    (ht : e.t = .softThreshold ∨ e.t = .certThreshold) (hl : s.player.period < e.period)
    (h6 : e.t = .certThreshold → s.cur.assembled e.proposal = false)
    (hf : m.enterPeriod cfg e e.period = .ok (m', acts)) :
    Performs cfg D s m' acts ∧ (e.t = .certThreshold → ∀ a ∈ acts, Quiet a) := by
  simp only [enterPeriod, bind_ok, Prod.exists] at hf
  obtain ⟨_, pol, hp, rt, ec, hh, hf⟩ := hf
  obtain ⟨h1, hq⟩ := h.partitionPolicy hp
  rw [h1.player] at hh hf
  obtain ⟨h7, h8, h9, hrt⟩ := h1.router.threshold ht hh
  have hm : e.t = .certThreshold →
      (s.cur.threshold s.player e).assembled e.proposal = false :=
    fun hc => threshold_missing hl (h6 hc)
  have h3 : Move cfg D s [] _ := .forward s e (filterTimeout cfg e.period e.proto) h2 ht h7 h8 hl hm
  set s₁ : State :=
    { player := State.enterPeriod s.player e.period (filterTimeout cfg e.period e.proto)
      rounds := update s.rounds s.player.round (s.cur.threshold s.player e)
      pending := none } with hs1
  have h4 : Rel { player := s₁.player, router := rt } s₁ :=
    ⟨rfl, hrt.enterPeriod rfl hl.le⟩
  have hu : s₁.cur = s.cur.threshold s.player e := by
    simp [State.cur, hs1, State.enterPeriod]
  cases ec with
  | some vote =>
    obtain ⟨rfl, rfl⟩ := pure_pair.mp hf
    have ha : s₁.cur.assembled e.proposal = true := by
      rw [hu]
      exact h9.symm
    have hs : e.t = .softThreshold := by
      rcases ht with ht | ht
      · exact ht
      · rw [hu, hm ht] at ha
        cases ha
    have hv : Move cfg D s₁ [.act (.attest s₁.player.round s₁.player.period cert e.proposal)]
        s₁ := by
      refine .certVote s₁ e.proposal rfl ?_ ha (Nat.le_succ soft) ?_
      · rw [hu]
        exact threshold_staging _ _ _
      · rintro ⟨-, h5, -⟩
        rw [hu, threshold_fresh, hw.pending e h2, hs] at h5
        cases h5
    have hr := (Performs.vote hv h4 rfl).emit [.rezero s.player.round] (by simp [Quiet])
    refine ⟨?_, fun hc => ?_⟩
    · rw [append_assoc]
      exact (hr.step h3 rfl).emit pol hq
    · rw [hs] at hc
      cases hc
  | none =>
    have hn : e.t ≠ .nextThreshold := by rcases ht with ht | ht <;> simp [ht]
    rw [if_neg hn] at hf
    obtain ⟨rfl, rfl⟩ := hf
    have he : Performs cfg D s₁ { player := s₁.player, router := rt } [] := .refl h4 rfl
    have hr := he.emit [.rezero s.player.round] (by simp [Quiet])
    have hr' := (hr.step h3 rfl).emit pol hq
    exact ⟨hr', fun _ =>
      forall_mem_append.mpr ⟨hq, forall_mem_singleton.mpr trivial⟩⟩

theorem Rel.enterPeriod_advance (h : Rel m s) (hw : Wf s) (hn : s.pending = some e)
    (ht : e.t = .nextThreshold) (hl : s.player.period ≤ e.period)
    (hf : m.enterPeriod cfg e (nextPeriod e.period) = .ok (m', acts)) : Performs cfg D s m' acts := by
  simp only [enterPeriod, bind_ok, Prod.exists] at hf
  obtain ⟨_, pol, hp, rt, _, hh, hf⟩ := hf
  obtain ⟨h1, hq⟩ := h.partitionPolicy hp
  rw [h1.player] at hh hf
  obtain ⟨h2, rfl, h3⟩ := h1.router.nextThreshold ht hh
  have hk := (hw.pendingOk e hn).kept
  set p := nextPeriod e.period
  have hm : Move cfg D s [] _ := .advance s e (filterTimeout cfg p e.proto) hn ht hl hk h2
  set pl := State.enterPeriod s.player p (filterTimeout cfg p e.proto)
  have hp : s.player.period ≤ p := by
    rcases nextPeriod_of_kept hk hl with h | ⟨-, h, -⟩ <;> lia
  have h4 : Rel { player := pl, router := rt }
      { player := pl
        rounds := update s.rounds s.player.round
          (s.cur.newPeriod s.player p e.proposal)
        pending := none } :=
    ⟨rfl, h3.enterPeriod rfl hp⟩
  have hr : ∀ a : Action, Quiet a → Performs cfg D s { player := pl, router := rt }
      (pol ++ ([.rezero s.player.round] ++ [a])) := by
    intro a ha
    have he : Performs cfg D _ { player := pl, router := rt } [] := .refl h4 rfl
    have hr := (he.emit [a] (by simpa using ha)).emit [.rezero s.player.round] (by simp [Quiet])
    exact (hr.step hm rfl).emit pol hq
  split_ifs at hf with hb <;>
  · obtain ⟨rfl, rfl⟩ := pure_pair.mp hf
    rw [append_assoc]
    exact hr _ trivial

/-- The actions with which a round begins. -/
def Opens : Action → Prop
  | .rezero _ | .assemble .. | .verifyPayload .. => True
  | _ => False

theorem Opens.quiet (h : Opens a) : Quiet a := by
  cases a <;> trivial

variable {proto : ConsensusVersion} {self : Machine → ThresholdEvent → Out} {target : Round}

/-- Entering a round: the opening actions, and then the threshold already seen in it, if any. -/
theorem Rel.enterRound_cases (h : Rel m s) (hl : s.player.round < target)
    (hf : m.enterRound cfg self proto target = .ok (m', acts)) :
    ∃ pre as m1, acts = pre ++ as ∧ (∀ a ∈ pre, Opens a) ∧
      Rel m1 (s.startRound target (filterTimeout cfg 0 proto)) ∧
      ((s.startRound target (filterTimeout cfg 0 proto)).pending = none ∧ m' = m1 ∧ as = [] ∨
        ∃ e, (s.startRound target (filterTimeout cfg 0 proto)).pending = some e ∧
          self m1 e = .ok (m', as)) := by
  simp only [enterRound, bind_ok, Prod.exists] at hf
  obtain ⟨rt, res, hn, m2, _, h1, hf⟩ := hf
  rw [h.player] at hn h1
  obtain ⟨ht, -⟩ := (h.router.update target).query hn (Q := fun _ => True)
    fun rr rr' h2 hf => ⟨(h2.newRound hf).1, trivial⟩
  set s₁ := s.startRound target (filterTimeout cfg 0 proto)
  have hr : Rel { player := s₁.player, router := rt } s₁ :=
    ⟨rfl, ht.enterRound hl⟩
  obtain ⟨hr2, rfl⟩ := hr.freshestBundle h1
  have ho : ∀ a ∈ [Action.rezero target, .assemble target 0] ++
      verifyPipelined target res, Opens a := by
    unfold verifyPipelined
    split <;> simp [Opens]
  by_cases hk : s₁.cur.fresh.ok = true
  · rw [if_pos hk] at hf
    simp only [bind_ok, Prod.exists, pure_pair] at hf
    obtain ⟨_, as, hs, rfl, rfl⟩ := hf
    exact ⟨_, as, m2, rfl, ho, hr2, .inr ⟨_, if_pos hk, hs⟩⟩
  · rw [if_neg hk, pure_pair] at hf
    obtain ⟨rfl, rfl⟩ := hf
    exact ⟨_, [], m2, (append_nil _).symm, ho, hr2, .inl ⟨if_neg hk, rfl, rfl⟩⟩

/-- Entering a round, given the simulation of the threshold handler that is called there. -/
theorem Rel.startRound (h : Rel m s) (ht : s.player.round < target)
    (hl : ∀ m1 e m' acts, Rel m1 (s.startRound target (filterTimeout cfg 0 proto)) →
      (s.startRound target (filterTimeout cfg 0 proto)).pending = some e →
      self m1 e = .ok (m', acts) →
      Performs cfg D (s.startRound target (filterTimeout cfg 0 proto)) m' acts)
    (hf : m.enterRound cfg self proto target = .ok (m', acts)) :
    Performs cfg D (s.startRound target (filterTimeout cfg 0 proto)) m' acts := by
  obtain ⟨pre, as, m1, rfl, ho, hr, h1⟩ := h.enterRound_cases ht hf
  refine Performs.emit pre (fun a ha => (ho a ha).quiet) ?_
  rcases h1 with ⟨hp, rfl, rfl⟩ | ⟨e, hp, hs⟩
  · exact .refl hr hp
  · exact hl m1 e m' as hr hp hs

/-! ## Handling a threshold -/

/-- The state after a soft or cert threshold has been staged. -/
def Flat.State.staged (s : State) (e : ThresholdEvent) : State :=
  { s.setRound s.player.round (s.cur.threshold s.player e) with
    pending := if e.t = .softThreshold then none else s.pending }

section Staged

variable (s : State) (e : ThresholdEvent)

@[simp] theorem Flat.State.staged_player : (s.staged e).player = s.player := rfl

@[simp] theorem Flat.State.staged_cur : (s.staged e).cur = s.cur.threshold s.player e := by
  simp [staged, cur, setRound]

@[simp] theorem Flat.State.staged_staging : (s.staged e).cur.staging e.period = e.proposal := by
  rw [staged_cur, threshold_staging]

end Staged

variable (cfg D) in
/-- Staging a threshold, and the staged value read back. -/
theorem Rel.stage (h : Rel m s) (hn : s.pending = some e)
    (ht : e.t = .softThreshold ∨ e.t = .certThreshold)
    (he : e.t = .softThreshold → e.period = s.player.period)
    (hf : m.router.threshold m.player r e = .ok (rt, res)) :
    Move cfg D s [] (s.staged e) ∧ Rel { m with router := rt } (s.staged e) ∧
      e.round = s.player.round ∧ res.isSome = (s.staged e).cur.assembled e.proposal := by
  rw [h.player] at hf
  obtain ⟨hp, hc, hr, h1⟩ := h.router.threshold ht hf
  refine ⟨.stage s e hn ht hp hc he, ⟨h.player, h1⟩, proposalManagerPre_round hp, ?_⟩
  rw [State.staged_cur]
  exact hr

theorem Rel.softThreshold (h : Rel m s) (hw : Wf s) (h1 : s.pending = some e)
    (ht : e.t = .softThreshold) (fuel : ℕ)
    (hf : m.handleThresholdEvent cfg (fuel + 1) e = .ok (m', acts)) : Performs cfg D s m' acts := by
  simp only [handleThresholdEvent, ht] at hf
  split_ifs at hf with hl hg
  · obtain ⟨rfl, rfl⟩ := pure_pair.mp hf
    rw [h.player] at hl
    have hm : Move cfg D s [] _ := .ignore s e h1 (.inl ht) hl
    have he : Performs cfg D { s with pending := none } m [] :=
      .refl ⟨h.player, h.router⟩ rfl
    exact he.step hm rfl
  · rw [h.player] at hg
    exact (h.enterPeriod_forward hw h1 (.inl ht) hg (by simp [ht]) hf).1
  · simp only [bind_ok, Prod.exists] at hf
    obtain ⟨rt, _, hh, hf⟩ := hf
    have hp : e.period = s.player.period := by
      rw [h.player] at hl hg
      exact le_antisymm (not_lt.mp hg) (not_lt.mp hl)
    obtain ⟨hm, hr, -, h2⟩ := h.stage cfg D h1 (.inl ht) (fun _ => hp) hh
    have hn : (s.staged e).pending = none := by simp [State.staged, ht]
    split_ifs at hf with hv
    · obtain ⟨rfl, rfl⟩ := pure_pair.mp hf
      have h3 : Move cfg D (s.staged e) [.act (.attest (s.staged e).player.round
          (s.staged e).player.period cert e.proposal)] (s.staged e) := by
        refine .certVote _ _ hn ?_ (h2 ▸ hv.1) ?_ ?_
        · rw [State.staged_player, ← hp, State.staged_staging]
        · rw [← hr.player]
          exact hv.2
        · rintro ⟨-, hc, -⟩
          rw [State.staged_cur, threshold_fresh, hw.pending e h1, ht] at hc
          cases hc
      have hu := (Performs.vote h3 hr hn).step hm rfl
      have ha : ({ m with router := rt } : Machine).issueCertVote e.proposal =
          .attest (s.staged e).player.round (s.staged e).player.period cert e.proposal := by
        rw [issueCertVote, hr.player]
      rw [ha]
      exact hu
    · obtain ⟨rfl, rfl⟩ := pure_pair.mp hf
      exact (Performs.refl hr hn).step hm rfl

/-- Handling a cert threshold: it is staged; then the player commits, or leaves the missing block to
the ledger, in the period of the threshold if that is later. -/
theorem Rel.certThreshold_cases (h : Rel m s) (hn : s.pending = some e) (ht : e.t = .certThreshold)
    {fuel : ℕ} (hf : m.handleThresholdEvent cfg (fuel + 1) e = .ok (m', acts)) :
    ∃ m1, Rel m1 (s.staged e) ∧ (s.staged e).pending = some e ∧ Move cfg D s [] (s.staged e) ∧
      ((s.staged e).cur.assembled e.proposal = true ∧
          (∃ as, m1.enterRound cfg (handleThresholdEvent cfg fuel) e.proto
            (s.player.round + 1) = .ok (m', as) ∧
            acts = .ensure ((s.staged e).cur.store.assembler e.proposal).payload e.bundle :: as) ∨
        (s.staged e).cur.assembled e.proposal = false ∧ s.player.period < e.period ∧
          (∃ as, m1.enterPeriod cfg e e.period = .ok (m', as) ∧
            acts = .stageDigest e.bundle :: as) ∨
        (s.staged e).cur.assembled e.proposal = false ∧ e.period ≤ s.player.period ∧ m' = m1 ∧
          acts = [.stageDigest e.bundle]) := by
  simp only [handleThresholdEvent, ht, bind_ok, Prod.exists] at hf
  obtain ⟨_, _, hh, m1, _, hd, hf⟩ := hf
  obtain ⟨hm, hr, h1, -⟩ := h.stage cfg D hn (.inr ht) (by simp [ht]) hh
  have hp1 : (s.staged e).pending = some e := by
    simp [State.staged, ht, hn]
  obtain ⟨hr1, -, hs⟩ := hr.stagedValue hd
  rw [h1] at hs
  have h2 : ((s.staged e).rounds s.player.round).staging e.period = e.proposal :=
    State.staged_staging s e
  rw [h2] at hs
  subst hs
  refine ⟨m1, hr1, hp1, hm, ?_⟩
  have hp : m1.player = s.player := hr1.player
  split_ifs at hf with hc hl
  · simp only [bind_ok, Prod.exists, pure_pair] at hf
    obtain ⟨m2, as, he, rfl, rfl⟩ := hf
    rw [hp] at he
    exact .inl ⟨hc, as, he, rfl⟩
  · simp only [bind_ok, Prod.exists, pure_pair] at hf
    obtain ⟨m2, as, he, rfl, rfl⟩ := hf
    rw [hp] at hl
    exact .inr (.inl ⟨Bool.eq_false_iff.mpr hc, hl, as, he, rfl⟩)
  · obtain ⟨rfl, rfl⟩ := pure_pair.mp hf
    rw [hp] at hl
    exact .inr (.inr ⟨Bool.eq_false_iff.mpr hc, not_lt.mp hl, rfl, rfl⟩)

theorem Rel.certThreshold (h : Rel m s) (hw : Wf s) (hn : s.pending = some e)
    (ht : e.t = .certThreshold) (fuel : ℕ)
    (ih : ∀ {m m' : Machine} {s : State} {e : ThresholdEvent} {acts : List Action}, Rel m s →
      Wf s → s.pending = some e → m.handleThresholdEvent cfg fuel e = .ok (m', acts) →
      Performs cfg D s m' acts) (hf : m.handleThresholdEvent cfg (fuel + 1) e = .ok (m', acts)) :
    Performs cfg D s m' acts := by
  obtain ⟨m1, h1, hp1, hm, h4⟩ := h.certThreshold_cases (D := D) hn ht hf
  have hw₁ := hm.wf hw
  have h2 := hw₁.pending e hp1
  rcases h4 with ⟨ha, as, he, rfl⟩ | ⟨h3, hl, as, he, rfl⟩ | ⟨h3, hle, rfl, rfl⟩
  · have hc : Move cfg D (s.staged e) _ _ :=
      .commit (s.staged e) _ e.proposal (filterTimeout cfg 0 e.proto)
        ⟨by rw [h2], by rw [h2]; exact ht, by rw [h2]⟩ ha rfl
    have hu := h1.startRound (D := D) (Nat.lt_succ_self _)
      (fun m1 e' m' acts hr hp hs => ih hr (hc.wf hw₁) hp hs) he
    have hr' := (hu.act (by trivial) hc).step hm rfl
    rw [h2] at hr'
    exact hr'
  · obtain ⟨hu, hq⟩ :=
      h1.enterPeriod_forward (D := D) hw₁ hp1 (.inr ht) hl (fun _ => h3) he
    exact (hu.stageDigest e.bundle (hq ht)).step hm rfl
  · have h5 : Move cfg D (s.staged e) [] _ :=
      .await (s.staged e) e hp1 ht hle (State.staged_staging s e) h3
    have h6 : Performs cfg D { s.staged e with pending := none } m' [] :=
      .refl ⟨h1.player, h1.router⟩ rfl
    exact ((h6.step h5 rfl).stageDigest e.bundle (by simp)).step hm rfl

/-- **A pending threshold is handled as a run of the flat machine.** -/
theorem Rel.handleThresholdEvent (fuel : ℕ) (h : Rel m s) (hw : Wf s) (hp : s.pending = some e)
    (hf : m.handleThresholdEvent cfg fuel e = .ok (m', acts)) : Performs cfg D s m' acts := by
  induction fuel generalizing m s e m' acts with
  | zero => cases hf
  | succ fuel ih =>
    have hh : IsThreshold s.player.round e := by
      have hr := hw.pending e hp
      have ho := hw.fresh s.player.round (by rw [State.cur] at hr; rw [hr])
      rw [State.cur] at hr
      rwa [hr] at ho
    cases ht : e.t with
    | none => exact absurd ht hh.ne_none
    | softThreshold => exact h.softThreshold hw hp ht fuel hf
    | certThreshold => exact h.certThreshold hw hp ht fuel ih hf
    | nextThreshold =>
      simp only [handleThresholdEvent, ht] at hf
      split_ifs at hf with hl
      · obtain ⟨rfl, rfl⟩ := pure_pair.mp hf
        rw [h.player] at hl
        have hm : Move cfg D s [] _ := .ignore s e hp (.inr ht) hl
        have he : Performs cfg D { s with pending := none } m [] :=
          .refl ⟨h.player, h.router⟩ rfl
        exact he.step hm rfl
      · rw [h.player] at hl
        exact h.enterPeriod_advance hw hp ht (not_lt.mp hl) hf

end Novarand.Agreement
