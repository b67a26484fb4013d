import Novarand.Agreement.Lock

/-!
# A cert-voted value stays staged and committable

Until the player leaves the period of a cert vote, the value it voted stays staged and committable,
and every later next vote of the period is for that value. This needs two conditions: no cert quorum
for another value is delivered, and no accepted proposal-vote displaces the staged value from the
proposal store.
-/

namespace Novarand.Agreement

open Flat List Option

/-! ## On the flat machine -/

variable {proto : ConsensusVersion}

namespace Flat

variable {cfg : Consensus} {D : State → Input → Prop} {s s' : State} {obs hist : List Obs}
  {r : Round} {p : Period} {v w : ProposalValue}

/-- In the period of the cert vote, between two events. -/
theorem LockState.current (hs : LockState cfg hist s) (hn : s.pending = none)
    (hv : Voted hist s.player.round s.player.period cert v) :
    Deviated cfg (Saw hist) s.player.round s.player.period s.player.period v ∨
      s.cur.staging s.player.period = v ∧ s.cur.assembled v = true := by
  obtain ⟨-, hl⟩ := hs.lock _ _ hv
  cases hl with
  | deviated hd => exact .inl hd
  | leaving e hp => rw [hn] at hp; cases hp
  | here _ ht ha => exact .inr ⟨ht, ha⟩
  | pinned hlt => exact absurd hlt (lt_irrefl _)

/-- Every next vote after a cert vote of the same period is for the same value. -/
theorem later_next_votes (hD : ∀ s x, D s x → KeepsStaged s x) (hs : LockState cfg hist s)
    (h : Steps (Move cfg D) s obs s') (hv : Voted hist r p cert v) {q : Step} (hq : next ≤ q)
    (hw : Voted obs r p q w) : w = v ∨ Deviated cfg (Saw (hist ++ obs)) r p p v := by
  induction h with
  | refl => cases hw
  | @tail t u _ o2 hr h1 ih =>
    rw [← append_assoc]
    rcases voted_append.mp hw with hw | hw
    · exact (ih hw).imp_right fun hd => hd.append le_rfl o2
    · have ht := lockState_of_steps hD hs hr
      obtain ⟨rfl, rfl, -, -, hp, hc, -⟩ := h1.casts hw
      rcases ht.current hp (voted_append.mpr (.inl hv)) with hd | ⟨hs', ha⟩
      · exact .inr (hd.append le_rfl o2)
      · left
        rw [(hc.of_next hq).1, RoundState.nextVoteValue, hs', if_pos ha]

end Flat

/-! ## On the player -/

namespace Machine

/-- The value staged in the player's period. -/
def staged (m : Machine) : ProposalValue :=
  ((m.router.round m.player.round).period m.player.period).proposalTracker.staging

/-- The payload of a value is there and has been validated. -/
def committable (m : Machine) (v : ProposalValue) : Bool :=
  ((m.router.round m.player.round).proposalStore.assembler v).assembled

/-- An accepted proposal-vote does not displace the committable staged value from the proposal store:
that value is pinned, or relevant for another period, or the one voted for. -/
def KeepsStaged (m : Machine) : Event → Prop
  | .message e =>
    e.t = .voteVerified → e.input.unauthenticatedVote.r.step = propose →
    e.cancelled = false → e.err = .nil →
    e.input.vote.r.round = m.player.round → proposalFresh m.player e.input.vote.r = .ok () →
    (((m.router.round m.player.round).period e.input.vote.r.period).proposalTracker.voteVerified
      e.input.vote).2 = .nil →
    m.committable m.staged = true →
    (m.router.round m.player.round).proposalStore.KeptBy e.input.vote m.staged
  | _ => True

end Machine

open Machine

section Transfer

variable {m : Machine} {s s' : State}

theorem Rel.roundRel (h : Rel m s) :
    RoundRel s.player.period False (m.router.round s.player.round) s.cur := by
  have hr := h.router s.player.round le_rfl
  rwa [eq_false (lt_irrefl s.player.round)] at hr

theorem Rel.store (h : Rel m s) : (m.router.round m.player.round).proposalStore = s.cur.store := by
  rw [h.player]
  exact h.roundRel.store

theorem Rel.tracker (h : Rel m s) {p : Period} (hp : keepsPeriod s.player.period p = true) :
    ((m.router.round m.player.round).period p).proposalTracker = (s.cur.period p).tracker := by
  rw [h.player]
  exact congrArg PeriodState.tracker (h.roundRel.period p (.inl hp))

theorem Rel.staged (h : Rel m s) (hp : s.player.period ≠ lastPeriod) :
    m.staged = s.cur.staging s.player.period := by
  have ht := h.tracker (keepsPeriod_self.mpr hp)
  rw [Machine.staged, RoundState.staging, ← ht, h.player]

theorem Rel.committable (h : Rel m s) (v : ProposalValue) : m.committable v = s.cur.assembled v := by
  rw [Machine.committable, h.store]
  rfl

/-- The condition on the player's events is the one on the inputs of the flat machine. -/
theorem Machine.KeepsStaged.fed {e : Event} (hm : m.KeepsStaged e) (h : Rel m s) {x : Input}
    (hx : Feeds e s s' x) : Flat.KeepsStaged s' x := by
  cases x with
  | vote => trivial
  | fast => trivial
  | proposal w =>
    obtain ⟨rfl, me, rfl, ht, hs, hc, he, rfl⟩ := hx
    intro hr hf hk ha h3
    -- in the last period no proposal-vote of the round is fresh
    have hp : s'.player.period ≠ lastPeriod := by
      intro hp
      simp only [proposalFresh, hr, hp, nextPeriod, if_true] at hf
      split_ifs at hf with h1 h2
      lia
    have h4 := hm ht hs hc he (hr.trans (by rw [h.player])) (by rw [h.player]; exact hf)
      (by rw [h.tracker hk]; rw [hr] at ha; exact ha)
      (by rw [h.committable, h.staged hp]; exact h3)
    rwa [h.store, h.staged hp] at h4

end Transfer

/-- **A cert-voted value stays staged and committable** until the player leaves the period, and every
later next vote of the period is for it, in every run in which no accepted proposal-vote displaces
the staged value and no cert quorum for another value is delivered. The router of the last period does
not live that long, and a next quorum of that period restarts period 0. -/
theorem cert_voted_value_stays {cfg : Consensus} {r₀ : Round} {d : Duration}
    {l₁ l₂ : List (Event × List Action)} {m₁ m₂ : Machine}
    (h₁ : Steps (HandlesIf KeepsStaged cfg) (.start r₀ d) l₁ m₁)
    (h₂ : Steps (HandlesIf KeepsStaged cfg) m₁ l₂ m₂)
    {r : Round} {p : Period} {v : ProposalValue} (hv : .attest r p cert v ∈ runActions l₁)
    (hlast : p ≠ lastPeriod) (hrewound : p = 0 → ¬ Rewound cfg (DeliveredIn (l₁ ++ l₂)) r)
    (hrival : ∀ p' ≤ p, ∀ u ≠ v, ¬ HasQuorum cfg (DeliveredIn (l₁ ++ l₂)) r p' cert u) :
    (m₂.player.round = r → m₂.player.period = p → m₂.staged = v ∧ m₂.committable v = true) ∧
      ∀ q w, next ≤ q → .attest r p q w ∈ runActions l₂ → w = v := by
  obtain ⟨obs1, s1, hr1, ha1, hs1⟩ := simulates_of_steps h₁ (Synced.start r₀ d)
  obtain ⟨obs2, _, hr2, ha2, hs2⟩ := simulates_of_steps h₂ hs1
  have hD : ∀ es, ∀ s x, Fed KeepsStaged es s x → KeepsStaged s x := by
    rintro es s x ⟨e, -, m, t, hy, hC, hx⟩
    exact hC.fed hy.rel hx
  have hl1 : LockState cfg obs1 s1 := by
    have := lockState_of_steps (hD _) (LockState.initial (start r₀ d).player rfl) hr1
    rwa [nil_append] at this
  have hl2 := lockState_of_steps (hD _) hl1 hr2
  rw [← ha1, ← voted_iff_actions] at hv
  have hs : ∀ w proto, Saw (obs1 ++ obs2) w proto → DeliveredIn (l₁ ++ l₂) w proto := by
    intro w proto hw
    rcases mem_append.mp hw with hw | hw
    · exact (delivered_of_saw hr1 hw).mono (subset_append_left _ _)
    · exact (delivered_of_saw hr2 hw).mono (subset_append_right _ _)
  have hn : ¬ Deviated cfg (Saw (obs1 ++ obs2)) r p p v := by
    rintro (⟨p', u, hl, he, hQ⟩ | ⟨p', u, ht, hl, -, -⟩ | ⟨p', u, _, hl, ht, -, -, -⟩ | ⟨hp, hQ⟩)
    · exact hrival p' hl u he (hQ.mono hs)
    · exact absurd hl (not_le.mpr ht)
    · exact absurd hl (not_le.mpr ht)
    · exact hrewound hp (hQ.mono hs)
  refine ⟨fun hr hp => ?_, fun q w hq hw => ?_⟩
  · rw [hs2.rel.player] at hr hp
    subst hr hp
    rw [hs2.rel.staged hlast, hs2.rel.committable]
    exact (hl2.current hs2.idle (voted_append.mpr (.inl hv))).resolve_left hn
  · rw [← ha2, ← voted_iff_actions] at hw
    exact (later_next_votes (hD _) hl1 hr2 hv hq hw).resolve_right hn

/-! ## Runs -/

instance (st : ProposalStore) (w : Vote) (v : ProposalValue) : Decidable (st.KeptBy w v) :=
  decidable_of_iff (v = st.pinned ∨ v = w.r.proposal ∨
      ∃ x ∈ st.relevant.keys, x ≠ w.r.period ∧ st.relevant.lookup x = some v) <| by
    unfold ProposalStore.KeptBy
    refine or_congr_right (or_congr_right ⟨fun ⟨x, _, h⟩ => ⟨x, h⟩, fun ⟨x, h⟩ => ⟨x, ?_, h⟩⟩)
    exact AList.mem_keys.mp (AList.lookup_isSome.mp (by rw [h.2]; rfl))

instance (m : Machine) : (e : Event) → Decidable (m.KeepsStaged e)
  | .none => inferInstanceAs (Decidable True)
  | .message e => inferInstanceAs (Decidable
      (e.t = .voteVerified → e.input.unauthenticatedVote.r.step = propose →
        e.cancelled = false → e.err = .nil →
        e.input.vote.r.round = m.player.round → proposalFresh m.player e.input.vote.r = .ok () →
        (((m.router.round m.player.round).period
          e.input.vote.r.period).proposalTracker.voteVerified e.input.vote).2 = .nil →
        m.committable m.staged = true →
        (m.router.round m.player.round).proposalStore.KeptBy e.input.vote m.staged))
  | .timeout _ => inferInstanceAs (Decidable True)
  | .fastTimeout _ _ => inferInstanceAs (Decidable True)
  | .roundInterruption _ _ => inferInstanceAs (Decidable True)
  | .checkpoint .. => inferInstanceAs (Decidable True)

/-- The proposal-vote and the payload of `valueA` arrive, and a soft quorum for it: the player
cert-votes it. -/
def certVoteEvents : List Event :=
  [soloProposalVote (soloVote 4 1 0 propose valueA), soloPayload 1 valueA,
    soloBundle (soloVote 5 1 0 soft valueA)]

/-- After the cert vote two timeouts pass. -/
theorem cert_voted_value_stays_alone :
    ∃ l₁ m₁ l₂ m₂, Steps (HandlesIf KeepsStaged soloConsensus) (.start 1 0) l₁ m₁ ∧
      Steps (HandlesIf KeepsStaged soloConsensus) m₁ l₂ m₂ ∧
      .attest 1 0 cert valueA ∈ runActions l₁ ∧
      (m₂.staged = valueA ∧ m₂.committable valueA = true) ∧
      .attest 1 0 next valueA ∈ runActions l₂ ∧
      ∀ q w, next ≤ q → .attest 1 0 q w ∈ runActions l₂ → w = valueA := by
  have hu : ((start 1 0).runIf KeepsStaged soloConsensus 1 certVoteEvents).bind
      (fun x => (x.1.runIf KeepsStaged soloConsensus 1 [.timeout 0, .timeout 0]).map
        fun y => decide (.attest 1 0 cert valueA ∈ runActions x.2 ∧
          .attest 1 0 next valueA ∈ runActions y.2 ∧ y.1.player.round = 1 ∧
          y.1.player.period = 0)) = some true := by decide +kernel
  obtain ⟨⟨m₁, l₁⟩, hm1, hu⟩ := bind_eq_some_iff.mp hu
  obtain ⟨⟨m₂, l₂⟩, hm2, hd⟩ := map_eq_some_iff.mp hu
  obtain ⟨hv, hn, hr, hp⟩ := of_decide_eq_true hd
  obtain ⟨hs1, he1⟩ := run_steps hm1
  obtain ⟨hs2, he2⟩ := run_steps hm2
  -- no vote of a later step than soft is delivered at all
  have h1 : ∀ p' u, ∀ q > soft, ¬ HasQuorum soloConsensus (DeliveredIn (l₁ ++ l₂)) 1 p' q u := by
    rintro p' u q hq ⟨S, hS⟩
    obtain ⟨w, _, ⟨_, hm, -, -, hw⟩, ha, -⟩ := hS.weight
    rw [map_append, he1, he2] at hm
    simp only [certVoteEvents, soloProposalVote, soloPayload, soloBundle, cons_append,
      nil_append, mem_cons, Event.message.injEq, reduceCtorEq, not_mem_nil,
      or_false] at hm
    rcases hm with rfl | rfl | rfl
    · simp only [true_and, reduceCtorEq, false_and, or_false] at hw
      rw [hw] at ha
      exact absurd (ha.2.2 ▸ hq) (by decide)
    · simp at hw
    · simp only [reduceCtorEq, false_and, true_and, false_or, Bundle.allVotes, flatMap_nil,
        append_nil, mem_singleton] at hw
      rw [hw] at ha
      exact absurd (ha.2.2 ▸ hq) (by decide)
  have h2 : ¬ Rewound soloConsensus (DeliveredIn (l₁ ++ l₂)) 1 := by
    rintro ⟨u, q, hq, hQ⟩
    exact h1 _ u q (lt_of_lt_of_le (by decide) hq) hQ
  obtain ⟨hs, hl⟩ := cert_voted_value_stays hs1 hs2 hv (by decide) (fun _ => h2)
    fun p' _ u _ => h1 p' u cert (by decide)
  exact ⟨l₁, m₁, l₂, m₂, hs1, hs2, hv, hs hr hp, hn, hl⟩

/-- A cert quorum for another value of the period replaces the staged value, and the player then
next-votes bottom in the period of its cert vote. -/
theorem cert_voted_value_replaced :
    ∃ l₁ m₁ l₂ m₂, Steps (Handles soloConsensus) (.start 1 0) l₁ m₁ ∧
      Steps (Handles soloConsensus) m₁ l₂ m₂ ∧ .attest 1 0 cert valueA ∈ runActions l₁ ∧
      m₂.player.round = 1 ∧ m₂.player.period = 0 ∧ m₂.staged = valueB ∧
      .attest 1 0 next bottom ∈ runActions l₂ := by
  have hr : ((start 1 0).run soloConsensus 1 certVoteEvents).bind
      (fun x => (x.1.run soloConsensus 1 [soloBundle (soloVote 6 1 0 cert valueB), .timeout 0,
        .timeout 0]).map fun y => decide (.attest 1 0 cert valueA ∈ runActions x.2 ∧
          y.1.player.round = 1 ∧ y.1.player.period = 0 ∧ y.1.staged = valueB ∧
          .attest 1 0 next bottom ∈ runActions y.2)) = some true := by decide +kernel
  obtain ⟨⟨m₁, l₁⟩, hm1, hr⟩ := bind_eq_some_iff.mp hr
  obtain ⟨⟨m₂, l₂⟩, hm2, hd⟩ := map_eq_some_iff.mp hr
  exact ⟨l₁, m₁, l₂, m₂, (run_steps hm1).1, (run_steps hm2).1, of_decide_eq_true hd⟩

end Novarand.Agreement
