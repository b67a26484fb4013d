import Novarand.Agreement.CertVote
import Novarand.Agreement.Provenance

/-!
# Agreement between players

A net is a set of players, each with its own machine and log. One step delivers one event to one
player; nothing is said about the order, and events may be lost, repeated or delayed. The votes of
the accounts which belong to a player are those its player issued before; all other accounts may vote
as they like.

If any two quorums of one step, and any cert quorum and any later next quorum of the round, have a
non-equivocating voter of some player in common, then no two players commit different blocks in the
round.
-/

namespace Novarand.Agreement

open Flat List Machine Function

/-! ## One player -/

/-- A fast recovery timeout finds the player past its cert step. -/
def Machine.FastLate (m : Machine) : Event → Prop
  | .fastTimeout _ _ => next ≤ m.player.step
  | _ => True

/-- The two conditions on the events of a player. -/
def Machine.Orderly (m : Machine) (e : Event) : Prop := m.KeepsStaged e ∧ m.FastLate e

variable {m : Machine} {e : Event}

theorem Machine.FastLate.fed {s s' : State} (hm : m.FastLate e) (h : Rel m s) {x : Input}
    (hx : Feeds e s s' x) : Flat.FastLate s' x := by
  cases x with
  | vote => trivial
  | proposal => trivial
  | fast =>
    obtain ⟨hs, _, _, rfl⟩ := hx
    rw [Flat.FastLate, hs, ← h.player]
    exact hm

/-- The votes and commits of a run of the player rest on quorums among the delivered votes. -/
theorem provenance_of_steps {cfg : Consensus} {r : Round} {d : Duration}
    {l : List (Event × List Action)} (h : Steps (HandlesIf Orderly cfg) (.start r d) l m) :
    Provenance cfg (DeliveredIn l) (runActions l) := by
  obtain ⟨_, s, hr, ha, -⟩ := simulates_of_steps h (Synced.start r d)
  have hp : ∀ s x, Fed Orderly (l.map Prod.fst) s x → KeepsStaged s x := by
    rintro s x ⟨e, -, m, t, hs, hC, hx⟩
    exact hC.1.fed hs.rel hx
  have ht : ∀ s x, Fed Orderly (l.map Prod.fst) s x → FastLate s x := by
    rintro s x ⟨e, -, m, t, hs, hC, hx⟩
    exact hC.2.fed hs.rel hx
  have hg := grounded_of_steps hp ht (Grounded.initial (start r d).player rfl rfl) hr
  rw [← ha]
  exact hg.provenance.mono fun _ _ => delivered_of_saw hr

/-! ## The net -/

structure Net (ι : Type) where
  machine : ι → Machine
  /-- The events each player handled, with the actions it returned. -/
  log : ι → List (Event × List Action)

variable {u' : ProposalValue} {q q' : Agreement.Step} {p' : Period}

namespace Net

variable {ι : Type} {cfg : Consensus} {owner : Address → Option ι} {N N' : Net ι} {r : Round}

def start (r : ι → Round) (deadline : ι → Duration) : Net ι where
  machine i := .start (r i) (deadline i)
  log _ := []

/-- Player `i` issued a vote. -/
def Attested (N : Net ι) (i : ι) (r : Round) (p : Period) (q : Step) (v : ProposalValue) : Prop :=
  .attest r p q v ∈ runActions (N.log i)

variable {p : Period} {u : ProposalValue} {proto : ConsensusVersion} {v : Vote} {i : ι}

theorem Attested.mono {q : Step} {v : ProposalValue} (h : N.Attested i r p q v)
    (hs : N.log i ⊆ N'.log i) : N'.Attested i r p q v := by
  obtain ⟨x, hx, hm⟩ := mem_flatMap.mp h
  exact mem_flatMap.mpr ⟨x, hs hx, hm⟩

/-- If the account which sent the vote belongs to a player, that player issued the vote. -/
def Issued (owner : Address → Option ι) (N : Net ι) (v : Vote) : Prop :=
  ∀ i, owner v.r.sender = some i → v.r.step ≠ propose →
    N.Attested i v.r.round v.r.period v.r.step v.r.proposal

/-- The votes an event delivers are not forged. -/
def Authentic (owner : Address → Option ι) (N : Net ι) (e : Event) : Prop :=
  ∀ me v proto, e = .message me → DeliveredBy me v proto → N.Issued owner v

/-- The votes delivered so far, to any player. -/
def Delivered (N : Net ι) (v : Vote) (proto : ConsensusVersion) : Prop :=
  ∃ i, DeliveredIn (N.log i) v proto

/-! ## Quorums that meet -/

/-- Among the votes `F`, account `a` never votes for two values in one step. -/
def NonEquivocating (F : Vote → ConsensusVersion → Prop) (a : Address) : Prop :=
  ∀ v proto v' proto', F v proto → F v' proto' → v.r.sender = a → v'.r.sender = a →
    v.r.round = v'.r.round → v.r.period = v'.r.period → v.r.step = v'.r.step →
    v.r.proposal = v'.r.proposal

/-- Two sets of votes have a non-equivocating voter of some player in common. -/
def Meet (owner : Address → Option ι) (F : Vote → ConsensusVersion → Prop) (S S' : Finset Vote) :
    Prop :=
  ∃ v ∈ S, ∃ v' ∈ S', v.r.sender = v'.r.sender ∧ (∃ i, owner v.r.sender = some i) ∧
    NonEquivocating F v.r.sender

/-- Any two quorums of one step meet. -/
def StepQuorumsMeet (cfg : Consensus) (owner : Address → Option ι)
    (F : Vote → ConsensusVersion → Prop) (r : Round) : Prop :=
  ∀ p q u u' S S', Quorum cfg F r p q u S → Quorum cfg F r p q u' S' → Meet owner F S S'

/-- Any cert quorum meets any next quorum of the same or of a later period. -/
def CertQuorumsMeet (cfg : Consensus) (owner : Address → Option ι)
    (F : Vote → ConsensusVersion → Prop) (r : Round) : Prop :=
  ∀ p p' q u u' S S', p ≤ p' → next ≤ q → Quorum cfg F r p cert u S → Quorum cfg F r p' q u' S' →
    Meet owner F S S'

section Voters

variable {F P : Vote → ConsensusVersion → Prop} {p p' : Period} {q q' : Step}
  {u u' : ProposalValue} {S S' : Finset Vote}

end Voters

/-! ## What every net keeps -/

/-- Each player runs on its own, and the votes delivered were issued. -/
structure Ok (C : Machine → Event → Prop) (cfg : Consensus) (owner : Address → Option ι)
    (r₀ : ι → Round) (d : ι → Duration) (N : Net ι) : Prop where
  run : ∀ i, Steps (HandlesIf C cfg) (.start (r₀ i) (d i)) (N.log i) (N.machine i)
  issued : ∀ v proto, N.Delivered v proto → N.Issued owner v

variable {C : Machine → Event → Prop} {r₀ : ι → Round} {d : ι → Duration}

theorem Ok.provenance (h : N.Ok Orderly cfg owner r₀ d) (i : ι) :
    Provenance cfg N.Delivered (runActions (N.log i)) :=
  (provenance_of_steps (h.run i)).mono fun _ _ hv => ⟨i, hv⟩

variable [DecidableEq ι] {l : List (ι × Event)}

/-- Player `i` has handled the event `e`. -/
def record (N : Net ι) (i : ι) (e : Event) (acts : List Action) (m : Machine) : Net ι where
  machine := update N.machine i m
  log := update N.log i (N.log i ++ [(e, acts)])

/-- One player handles one event. -/
inductive Step (C : Machine → Event → Prop) (cfg : Consensus) (owner : Address → Option ι) :
    Net ι → List (ι × Event) → Net ι → Prop
  | handle (N : Net ι) (i : ι) (e : Event) (acts : List Action) (m : Machine)
      (hauth : N.Authentic owner e)
      (hstep : HandlesIf C cfg (N.machine i) [(e, acts)] m) :
      Step C cfg owner N [(i, e)] (N.record i e acts m)

section

variable (N : Net ι) (i j : ι) (e : Event) (acts : List Action) (m : Machine)

theorem record_log :
    (N.record i e acts m).log j = if j = i then N.log i ++ [(e, acts)] else N.log j := by
  simp [record, update_apply]

theorem record_subset : N.log j ⊆ (N.record i e acts m).log j := by
  rw [record_log]
  split_ifs with h
  · rw [h]
    exact subset_append_left _ _
  · exact List.Subset.refl _

end

/-- The votes delivered after a step were delivered before it or come with its event. -/
theorem delivered_record {acts : List Action} (h : (N.record i e acts m).Delivered v proto) :
    N.Delivered v proto ∨ ∃ me, e = .message me ∧ DeliveredBy me v proto := by
  obtain ⟨j, me, hm, hd⟩ := h
  rw [record_log] at hm
  split_ifs at hm with hj
  · simp only [map_append, map_cons, map_nil, mem_append,
      mem_singleton] at hm
    rcases hm with hm | hm
    · exact .inl ⟨i, me, hm, hd⟩
    · exact .inr ⟨me, hm.symm, hd⟩
  · exact .inl ⟨j, me, hm, hd⟩

/-- The votes delivered after a step were issued before it. -/
theorem Step.issued (h : Step C cfg owner N l N') (hs : N.Ok C cfg owner r₀ d)
    (hv : N'.Delivered v proto) : N.Issued owner v := by
  obtain ⟨i, e, _, m, ha, -⟩ := h
  rcases delivered_record hv with ho | ⟨me, he, hd⟩
  · exact hs.issued v proto ho
  · exact ha me v proto he hd

theorem Step.delivered (h : Step C cfg owner N l N') (hv : N.Delivered v proto) :
    N'.Delivered v proto := by
  obtain ⟨i, e, ac, m, -, -⟩ := h
  obtain ⟨j, hv⟩ := hv
  exact ⟨j, hv.mono (N.record_subset i j e ac m)⟩

theorem Step.ok (h : Step C cfg owner N l N') (hs : N.Ok C cfg owner r₀ d) :
    N'.Ok C cfg owner r₀ d := by
  have hi : ∀ v pr, N'.Delivered v pr → N.Issued owner v := fun _ _ => h.issued hs
  obtain ⟨i, e, ac, m, _, ht⟩ := h
  refine ⟨fun j => ?_, fun v pr hv k hk hp => ?_⟩
  · simp only [record, update_apply]
    split_ifs with hj
    · subst hj
      exact (hs.run j).tail ht
    · exact hs.run j
  · exact (hi v pr hv k hk hp).mono (N.record_subset i k e ac m)

theorem ok_of_steps (h : Steps (Step C cfg owner) (start r₀ d) l N) : N.Ok C cfg owner r₀ d := by
  refine h.invariant (fun _ _ _ hs ht => ht.ok hs) ⟨fun i => .refl _, ?_⟩
  rintro v _ ⟨i, _, hm, -⟩
  cases hm

/-! ## The value of the first cert quorum -/

section Safety

variable {F : Vote → ConsensusVersion → Prop} {p : Period} {v : ProposalValue}

/-- In period `k` all quorums are for `v`; soft quorums only after period `p`. -/
structure Follows (cfg : Consensus) (F : Vote → ConsensusVersion → Prop) (r : Round) (p : Period)
    (v : ProposalValue) (k : Period) : Prop where
  soft : ∀ u, p < k → HasQuorum cfg F r k soft u → u = v
  cert : ∀ u, HasQuorum cfg F r k cert u → u = v
  next : ∀ q u, next ≤ q → HasQuorum cfg F r k q u → u = v

section Period

variable {k : Period}

section

variable (hmeet : StepQuorumsMeet cfg owner N.Delivered r)
  (hcross : CertQuorumsMeet cfg owner N.Delivered r)
  (h : Steps (Step Orderly cfg owner) (start r₀ d) l N)
  (hQ : HasQuorum cfg N.Delivered r p cert v)
  (hmin : ∀ p' < p, ∀ u, ¬ HasQuorum cfg N.Delivered r p' cert u) (hk : p ≤ k)
include hmeet hcross h hQ hmin hk

end

end Period

end Safety

/-! ## Runs -/

instance (m : Machine) : (e : Event) → Decidable (m.FastLate e)
  | .none => inferInstanceAs (Decidable True)
  | .message _ => inferInstanceAs (Decidable True)
  | .timeout _ => inferInstanceAs (Decidable True)
  | .fastTimeout _ _ => inferInstanceAs (Decidable (next ≤ m.player.step))
  | .roundInterruption _ _ => inferInstanceAs (Decidable True)
  | .checkpoint .. => inferInstanceAs (Decidable True)

instance (m : Machine) (e : Event) : Decidable (m.Orderly e) :=
  inferInstanceAs (Decidable (_ ∧ _))

/-- The votes a message event delivers, if its verification succeeded. -/
def eventVotes : Event → List Vote
  | .message me =>
    match me.t with
    | .voteVerified => [me.input.vote]
    | .bundleVerified => me.input.bundle.allVotes
    | _ => []
  | _ => []

theorem mem_eventVotes {me : MessageEvent} (h : DeliveredBy me v proto) :
    v ∈ eventVotes (.message me) := by
  obtain ⟨-, -, ⟨ht, hv⟩ | ⟨ht, hv⟩⟩ := h
  · simp [eventVotes, ht, hv]
  · simpa [eventVotes, ht] using hv

instance (N : Net ι) (v : Vote) : Decidable (N.Issued owner v) :=
  match h : owner v.r.sender with
  | none => .isTrue fun i hi => by rw [h] at hi; cases hi
  | some j => decidable_of_iff (v.r.step ≠ propose →
      .attest v.r.round v.r.period v.r.step v.r.proposal ∈ runActions (N.log j)) <| by
    refine ⟨fun hj i hi => ?_, fun hi => hi j h⟩
    obtain rfl : j = i := Option.some.inj (h.symm.trans hi)
    exact hj

/-- Deliver events to players one by one; `none` if one is forged, fails `C` or makes its player
panic. -/
def run (C : Machine → Event → Prop) [∀ m e, Decidable (C m e)] (cfg : Consensus)
    (owner : Address → Option ι) (fuel : ℕ) : Net ι → List (ι × Event) → Option (Net ι)
  | N, [] => some N
  | N, (i, e) :: es =>
    if (∀ v ∈ eventVotes e, N.Issued owner v) ∧ EventOk (N.machine i).player e ∧
        C (N.machine i) e then
      match (N.machine i).submitTop cfg fuel e with
      | .ok (m, acts) => (N.record i e acts m).run C cfg owner fuel es
      | .error _ => none
    else none

theorem run_steps [∀ m e, Decidable (C m e)] {fuel : ℕ}
    (h : N.run C cfg owner fuel l = some N') : Steps (Step C cfg owner) N l N' := by
  induction l generalizing N with
  | nil =>
    obtain rfl := Option.some.inj h
    exact .refl N
  | cons x _ ih =>
    obtain ⟨i, e⟩ := x
    simp only [run] at h
    split_ifs at h with hc
    obtain ⟨ha, ho, hC⟩ := hc
    split at h
    · rename_i m acts hf
      have hs : Step C cfg owner N [(i, e)] (N.record i e acts m) := by
        refine .handle N i e acts m (fun me v pr hm hv => ?_) ⟨e, acts, fuel, rfl, ho, hC, hf⟩
        exact ha v (hm ▸ mem_eventVotes hv)
      exact Steps.head hs (ih h)
    · cases h

/-- The votes delivered in a net of two players. -/
def votes (N : Net Bool) : List Vote :=
  (N.log false ++ N.log true).flatMap fun x => eventVotes x.1

theorem mem_votes {N : Net Bool} (h : N.Delivered v proto) : v ∈ N.votes := by
  obtain ⟨i, _, hm, hv⟩ := h
  obtain ⟨⟨e, ac⟩, hx, he⟩ := mem_map.mp hm
  refine mem_flatMap.mpr ⟨(e, ac), ?_, he ▸ mem_eventVotes hv⟩
  cases i
  · exact mem_append_left _ hx
  · exact mem_append_right _ hx

/-- In every step all votes come from one account of a player and are for one value. -/
def LoneVoters (owner : Address → Option Bool) (vs : List Vote) : Prop :=
  (∀ v ∈ vs, v.r.step ≠ propose → (owner v.r.sender).isSome) ∧
  (∀ v ∈ vs, ∀ v' ∈ vs, v.r.round = v'.r.round → v.r.period = v'.r.period →
    v.r.step = v'.r.step → v.r.step ≠ propose → v.r.sender = v'.r.sender) ∧
  ∀ v ∈ vs, ∀ v' ∈ vs, v.r.round = v'.r.round → v.r.period = v'.r.period →
    v.r.step = v'.r.step → v.r.sender = v'.r.sender → v.r.proposal = v'.r.proposal

/-- A cert vote and a later next vote come from one account. -/
def LoneCertVoters (vs : List Vote) : Prop :=
  ∀ v ∈ vs, ∀ v' ∈ vs, v.r.period ≤ v'.r.period → v.r.step = cert → next ≤ v'.r.step →
    v.r.sender = v'.r.sender

instance (owner : Address → Option Bool) (vs : List Vote) : Decidable (LoneVoters owner vs) :=
  inferInstanceAs (Decidable (_ ∧ _ ∧ _))

instance (vs : List Vote) : Decidable (LoneCertVoters vs) :=
  inferInstanceAs (Decidable (∀ v ∈ vs, _))

/-- A quorum of a committee of one has a voter. -/
theorem quorum_nonempty {P : Vote → ConsensusVersion → Prop} {S : Finset Vote}
    (h : Quorum soloConsensus P r p q u S) : q ≠ propose ∧ S.Nonempty := by
  obtain ⟨v, _, -, -, hw⟩ := h.weight
  simp only [reachesQuorum, threshold, soloConsensus, ite_self] at hw
  split_ifs at hw with hq
  refine ⟨hq, Finset.nonempty_iff_ne_empty.mpr ?_⟩
  rintro rfl
  simp at hw

section Lone

variable {owner : Address → Option Bool} {N : Net Bool}

section

variable (hl : LoneVoters owner N.votes)
include hl

theorem meet_of_votes {S S' : Finset Vote}
    (hs : ∀ v ∈ N.votes, ∀ v' ∈ N.votes, At r p q v → At r p' q' v' → q ≠ propose →
      v.r.sender = v'.r.sender) (hS : Quorum soloConsensus N.Delivered r p q u S)
    (hS' : Quorum soloConsensus N.Delivered r p' q' u' S') : Meet owner N.Delivered S S' := by
  obtain ⟨hq, v, hv⟩ := quorum_nonempty hS
  obtain ⟨-, v', hv'⟩ := quorum_nonempty hS'
  obtain ⟨ha, _, hd⟩ := hS.votes v hv
  obtain ⟨ha', _, hd'⟩ := hS'.votes v' hv'
  obtain ⟨ho, -, hn⟩ := hl
  refine ⟨v, hv, v', hv', hs v (mem_votes hd) v' (mem_votes hd') ha ha' hq,
    Option.isSome_iff_exists.mp (ho v (mem_votes hd) (ha.2.2.trans_ne hq)), ?_⟩
  intro w _ w' _ hw hw' h1 hs' hr hp hq
  exact hn w (mem_votes hw) w' (mem_votes hw') hr hp hq (h1.trans hs'.symm)

theorem stepQuorumsMeet_of_votes : StepQuorumsMeet soloConsensus owner N.Delivered r := by
  intro p q u _ S _ hS hS'
  refine meet_of_votes hl ?_ hS hS'
  rintro v hv v' hv' ⟨hr, hp, hq⟩ ⟨hr', hp', hq'⟩ h1
  exact hl.2.1 v hv v' hv' (hr.trans hr'.symm) (hp.trans hp'.symm) (hq.trans hq'.symm)
    (hq.trans_ne h1)

theorem certQuorumsMeet_of_votes (hc : LoneCertVoters N.votes) :
    CertQuorumsMeet soloConsensus owner N.Delivered r := by
  intro p _ q u _ S _ hp hq hS hS'
  refine meet_of_votes hl ?_ hS hS'
  rintro v hv v' hv' ⟨-, h1, h2⟩ ⟨-, hp', hq'⟩ -
  exact hc v hv v' hv' (h1.trans_le (hp.trans_eq hp'.symm)) h2 (hq.trans_eq hq'.symm)

end

end Lone

/-- The values of the blocks of round `r` which a run commits. -/
def committed (r : Round) (l : List (Event × List Action)) : List ProposalValue :=
  (runActions l).filterMap fun
    | .ensure pp b => if b.round = r then some pp.value else none
    | _ => none

theorem mem_committed {l : List (Event × List Action)} (h : u ∈ committed r l) :
    ∃ pp b, .ensure pp b ∈ runActions l ∧ b.round = r ∧ pp.value = u := by
  obtain ⟨a, ha, hu⟩ := mem_filterMap.mp h
  split at hu
  · rename_i pp b
    split_ifs at hu with hb
    exact ⟨pp, b, ha, hb, Option.some.inj hu⟩
  · cases hu

/-- Account 4 belongs to the first player and account 6 to the second. -/
def twoOwners : Address → Option Bool
  | 4 => some false
  | 6 => some true
  | _ => none

/-- A player hears of a proposal of round 1 and gets its payload. -/
def proposed (i : Bool) (sender : Address) (p : Period) (u : ProposalValue) : List (Bool × Event) :=
  [(i, soloProposalVote (soloVote sender 1 p propose u)), (i, soloPayload 1 u)]

/-- A player gets the bundle of one vote of round 1. -/
def bundled (i : Bool) (sender : Address) (p : Period) (q : Agreement.Step) (u : ProposalValue) :
    Bool × Event := (i, soloBundle (soloVote sender 1 p q u))

/-- What the two players reach. -/
def runTwo (C : Machine → Event → Prop) [∀ m e, Decidable (C m e)] : List (Bool × Event) →
    Option (Net Bool) := (start (fun _ => 1) fun _ => 0).run C soloConsensus twoOwners 1

/-- Account 4 proposes, and its soft and cert votes reach both players. -/
def commonEvents : List (Bool × Event) :=
  proposed false 4 0 valueA ++ (false, .timeout 0) :: proposed true 4 0 valueA ++
    [bundled false 4 0 soft valueA, bundled true 4 0 soft valueA, bundled true 4 0 cert valueA,
      bundled false 4 0 cert valueA]

/-- **The votes and commits of every player rest on quorums** among the votes delivered in the net. -/
theorem actions_rest_on_quorums (h : Steps (Step Orderly cfg owner) (start r₀ d) l N) (i : ι) :
    Provenance cfg N.Delivered (runActions (N.log i)) :=
  (ok_of_steps h).provenance i

/-- The cert quorum of the second player's block. -/
theorem actions_rest_on_quorums_common :
    ∃ (N : Net Bool) (p : Period), HasQuorum soloConsensus N.Delivered 1 p cert valueA := by
  have hr : (runTwo Orderly commonEvents).map (fun N =>
      decide (valueA ∈ committed 1 (N.log true))) = some true := by decide +kernel
  obtain ⟨N, hN, hd⟩ := Option.map_eq_some_iff.mp hr
  obtain ⟨_, _, hi, hb, hv⟩ := mem_committed (of_decide_eq_true hd)
  rw [← hb, ← hv]
  exact ⟨N, (actions_rest_on_quorums (run_steps hN) true).ensure hi⟩

/-- A net in which the players commit different blocks. -/
def Splits (C : Machine → Event → Prop) (N : Net Bool) : Prop :=
  (∃ l, Steps (Step C soloConsensus twoOwners) (start (fun _ => 1) fun _ => 0) l N) ∧
    ∃ pp b pp' b', .ensure pp b ∈ runActions (N.log false) ∧
      .ensure pp' b' ∈ runActions (N.log true) ∧ b.round = 1 ∧ b'.round = 1 ∧
      pp.value.blockDigest ≠ pp'.value.blockDigest

/-- A run that commits `u` and `u'`, whose votes are as `Q` says. -/
theorem splits_of_run [∀ m e, Decidable (C m e)] {l : List (Bool × Event)} {u u' : ProposalValue}
    {Q : List Vote → Prop} [DecidablePred Q] (hn : u.blockDigest ≠ u'.blockDigest)
    (h : (runTwo C l).map (fun N => decide (Q N.votes ∧ u ∈ committed 1 (N.log false) ∧
      u' ∈ committed 1 (N.log true))) = some true) :
    ∃ N, Splits C N ∧ Q N.votes := by
  obtain ⟨N, hN, hd⟩ := Option.map_eq_some_iff.mp h
  obtain ⟨hQ, hf, ht⟩ := of_decide_eq_true hd
  obtain ⟨pp, b, hi, hb, rfl⟩ := mem_committed hf
  obtain ⟨pp', b', hj, hb', rfl⟩ := mem_committed ht
  exact ⟨N, ⟨⟨l, run_steps hN⟩, pp, b, pp', b', hi, hj, hb, hb', hn⟩, hQ⟩

/-- The values of period 1 and of period 2. -/
def valueC : ProposalValue := ⟨1, 6, 28, 29⟩
def valueD : ProposalValue := ⟨2, 8, 38, 39⟩

/-- A run that commits `u` and `valueA`, in which all quorums meet. -/
theorem splits_of_lone [∀ m e, Decidable (C m e)] {l : List (Bool × Event)} {u : ProposalValue}
    (hn : u.blockDigest ≠ valueA.blockDigest)
    (h : (runTwo C l).map (fun N => decide ((LoneVoters twoOwners N.votes ∧
      LoneCertVoters N.votes) ∧ u ∈ committed 1 (N.log false) ∧
      valueA ∈ committed 1 (N.log true))) = some true) :
    ∃ N, Splits C N ∧ StepQuorumsMeet soloConsensus twoOwners N.Delivered 1 ∧
      CertQuorumsMeet soloConsensus twoOwners N.Delivered 1 := by
  obtain ⟨N, hN, hl, hc⟩ := splits_of_run
    (Q := fun votes => LoneVoters twoOwners votes ∧ LoneCertVoters votes) hn h
  exact ⟨N, hN, stepQuorumsMeet_of_votes hl, certQuorumsMeet_of_votes hl hc⟩

/-- Account 4 votes down before its player cert-votes. The cert vote reaches the second player and
the down vote the first, which goes on to period 1. -/
def earlyFastEvents : List (Bool × Event) :=
  [(false, .fastTimeout 0 {}), (false, .fastTimeout 0 {})] ++ proposed false 4 0 valueA ++
    [(false, .timeout 0), bundled false 4 0 soft valueA] ++ proposed true 4 0 valueA ++
    [bundled true 4 0 cert valueA, bundled false 4 0 down bottom] ++ proposed false 6 1 valueC ++
    [(false, .timeout 0), bundled false 4 1 soft valueC, bundled false 4 1 cert valueC]

/-- Fast recovery votes before the cert vote split the net although all quorums meet. -/
theorem split_of_early_fast_vote :
    ∃ N, Splits KeepsStaged N ∧ StepQuorumsMeet soloConsensus twoOwners N.Delivered 1 ∧
      CertQuorumsMeet soloConsensus twoOwners N.Delivered 1 :=
  splits_of_lone (l := earlyFastEvents) (u := valueC) (by decide) (by decide +kernel)

/-- The first player holds `valueA` from period 0 only and cert-votes it in period 1, where account 6
soft-voted it. A better proposal-vote for period 0 then displaces `valueA`, and the player next-votes
bottom and goes on to period 2. -/
def displacedEvents : List (Bool × Event) :=
  proposed true 4 0 valueA ++ [(true, .timeout 0), (true, .timeout 0),
    bundled true 6 0 soft valueA, (true, .timeout 0), (true, .timeout 0),
    bundled true 6 0 (next + 1) valueA, (true, .timeout 0),
    (false, soloProposalVote { soloVote 4 1 0 propose valueA with cred := ⟨0, 1, 5⟩ }),
    (false, soloPayload 1 valueA), bundled false 6 0 next bottom, bundled false 6 1 soft valueA,
    bundled true 4 1 cert valueA, (false, soloProposalVote (soloVote 6 1 0 propose valueB)),
    (false, .timeout 0), (false, .timeout 0), bundled false 4 1 next bottom] ++
    proposed false 8 2 valueD ++
    [(false, .timeout 0), bundled false 4 2 soft valueD, bundled false 4 2 cert valueD]

/-- A displaced staged value splits the net although all quorums meet. -/
theorem split_of_displaced_value :
    ∃ N, Splits FastLate N ∧ StepQuorumsMeet soloConsensus twoOwners N.Delivered 1 ∧
      CertQuorumsMeet soloConsensus twoOwners N.Delivered 1 :=
  splits_of_lone (l := displacedEvents) (u := valueD) (by decide) (by decide +kernel)

end Net

end Novarand.Agreement
