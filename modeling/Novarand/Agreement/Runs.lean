import Novarand.Agreement.Handlers

/-!
# Runs of the player

A run starts from a fresh player and delivers one event after another. Every run of the player is a
run of the flat machine with the same actions, so what holds along the runs of the flat machine
holds of the player.
-/

namespace Novarand.Agreement

open Flat Machine

variable {cfg : Consensus} {m m' : Machine} {s s' : State}

/-- The state the service starts from when there is nothing to restore. -/
def Machine.start (r : Round) (deadline : Duration) : Machine where
  player := { round := r, step := soft, deadline := deadline }

/-- One event which meets `C` is handled without a panic; the label has the actions returned. -/
def HandlesIf (C : Machine → Event → Prop) (cfg : Consensus) (m : Machine)
    (l : List (Event × List Action)) (m' : Machine) : Prop :=
  ∃ e acts fuel, l = [(e, acts)] ∧ EventOk m.player e ∧ C m e ∧
    m.submitTop cfg fuel e = .ok (m', acts)

/-- One event is handled without a panic. -/
abbrev Handles : Consensus → Machine → List (Event × List Action) → Machine → Prop :=
  HandlesIf fun _ _ => True

/-- The actions of a run in order. -/
def runActions (l : List (Event × List Action)) : List Action := l.flatMap Prod.snd

/-! ## Runs can be computed -/

instance (e : MessageEvent) : Decidable (Verified e) :=
  decidable_of_iff (e.cancelled = false ∧ e.proto.err = .nil ∧ e.err = .nil)
    ⟨fun h => ⟨h.1, h.2.1, h.2.2⟩, fun h => ⟨h.cancelled, h.proto, h.err⟩⟩

instance (b : Bundle) : Decidable (Coherent b) :=
  inferInstanceAs (Decidable (∀ v ∈ b.allVotes, _))

instance (pl : Player) : (e : Event) → Decidable (EventOk pl e)
  | .none => inferInstanceAs (Decidable True)
  | .message e =>
    inferInstanceAs (Decidable (e.t = .bundleVerified → Verified e → Coherent e.input.bundle))
  | .timeout _ => inferInstanceAs (Decidable True)
  | .fastTimeout _ _ => inferInstanceAs (Decidable True)
  | .roundInterruption r _ => inferInstanceAs (Decidable (pl.round < r))
  | .checkpoint .. => inferInstanceAs (Decidable True)

/-- Deliver events one after the other; `none` if one of them fails `C` or makes the player
panic. -/
def Machine.runIf (C : Machine → Event → Prop) [∀ m e, Decidable (C m e)] (cfg : Consensus)
    (fuel : ℕ) : Machine → List Event → Option (Machine × List (Event × List Action))
  | m, [] => some (m, [])
  | m, e :: es =>
    if EventOk m.player e ∧ C m e then
      match m.submitTop cfg fuel e with
      | .ok (m', acts) => (m'.runIf C cfg fuel es).map fun x => (x.1, (e, acts) :: x.2)
      | .error _ => none
    else none

abbrev Machine.run : Consensus → ℕ → Machine → List Event →
    Option (Machine × List (Event × List Action)) :=
  runIf fun _ _ => True

variable {C : Machine → Event → Prop} {es es' : List Event}

theorem Machine.run_steps [∀ m e, Decidable (C m e)] {fuel : ℕ} {l : List (Event × List Action)}
    (h : m.runIf C cfg fuel es = some (m', l)) :
    Steps (HandlesIf C cfg) m l m' ∧ l.map Prod.fst = es := by
  induction es generalizing m l with
  | nil =>
    simp only [runIf, Option.some.injEq, Prod.mk.injEq] at h
    obtain ⟨rfl, rfl⟩ := h
    exact ⟨.refl m, rfl⟩
  | cons e es ih =>
    simp only [runIf] at h
    split_ifs at h with he
    split at h
    · rename_i m1 acts hf
      obtain ⟨⟨_, _⟩, hr, hq⟩ := Option.map_eq_some_iff.mp h
      obtain ⟨rfl, rfl⟩ := Prod.mk.inj hq
      obtain ⟨hs, h1⟩ := ih hr
      have h2 : HandlesIf C cfg m [(e, acts)] m1 := ⟨e, acts, fuel, rfl, he.1, he.2, hf⟩
      exact ⟨Steps.head h2 hs, by rw [List.map_cons, h1]⟩
    · cases h

/-! ## A committee of one

Every committee needs one vote and every vote has weight one, so that a single vote is a quorum. -/

def soloConsensus : Consensus := fun _ => ⟨1, 1, 1, 1, 1, 1, 4000000000, 4000000000, 300000000000⟩

def soloVote (sender : Address) (r : Round) (p : Period) (q : Step) (v : ProposalValue) : Vote where
  r := ⟨sender, r, p, q, v⟩
  cred := ⟨0, 1, 0⟩

/-- The verified bundle of one vote arrives. -/
def soloBundle (v : Vote) : Event :=
  let u : UnauthenticatedBundle :=
    { round := v.r.round, period := v.r.period, step := v.r.step, proposal := v.r.proposal
      votes := [voteAuthenticator v] }
  .message { t := .bundleVerified, input :=
    { bundle := { u := u, votes := [v] }, unauthenticatedBundle := u } }

/-- A verified proposal-vote arrives. -/
def soloProposalVote (v : Vote) : Event :=
  .message { t := .voteVerified, input := { vote := v, unauthenticatedVote := v.u } }

/-- The validated payload of `pv` in round `r` arrives. -/
def soloPayload (r : Round) (pv : ProposalValue) : Event :=
  let u : UnauthenticatedProposal := ⟨r, pv.originalPeriod, pv.originalProposer, pv.blockDigest,
    pv.encodingDigest⟩
  .message { t := .payloadVerified, input := { proposal := ⟨u⟩, unauthenticatedProposal := u } }

/-- Two proposal-values. -/
def valueA : ProposalValue := ⟨0, 4, 8, 9⟩
def valueB : ProposalValue := ⟨0, 6, 18, 19⟩

/-! ## Simulation of runs -/

section Mono

variable {D D' : State → Input → Prop} {obs : List Obs}

theorem Flat.Move.mono (hs : ∀ s x, D s x → D' s x) (h : Move cfg D s obs s') :
    Move cfg D' s obs s' := by
  cases h with
  | count v pr sr te hD hv ho hl =>
    exact .count s v pr sr te (hs _ _ hD) hv ho hl
  | reach v pr sr te hD hv ho h8 hf =>
    exact .reach s v pr sr te (hs _ _ hD) hv ho h8 hf
  | idle p ac hp ha => exact .idle s p ac hp ha
  | proposalVote v t err c P hD hf hP ht hc hk =>
    exact .proposalVote s v t err c P (hs _ _ hD) hf hP ht hc hk
  | pipeline r up hr => exact .pipeline s r up hr
  | bind pp => exact .bind s pp
  | ignore e h1 ht he => exact .ignore s e h1 ht he
  | stage e h1 ht h3 h5 he => exact .stage s e h1 ht h3 h5 he
  | forward e dd h1 ht h3 h5 he h2 =>
    exact .forward s e dd h1 ht h3 h5 he h2
  | await e h1 ht he hg hm => exact .await s e h1 ht he hg hm
  | advance e dd h1 ht he hk h3 => exact .advance s e dd h1 ht he hk h3
  | certVote v h1 hg h6 h4 h2 => exact .certVote s v h1 hg h6 h4 h2
  | commit pp v dd h2 h6 h9 => exact .commit s pp v dd h2 h6 h9
  | interrupt tr dd h1 hlt => exact .interrupt s tr dd h1 hlt
  | softTimeout p c h1 h4 h3 hc hp => exact .softTimeout s p c h1 h4 h3 hc hp
  | certTimeout p h1 h4 ho hp => exact .certTimeout s p h1 h4 ho hp
  | nap p h1 h7 h2 hn hp => exact .nap s p h1 h7 h2 hn hp
  | nextVote p h1 h7 h2 hn ho hp => exact .nextVote s p h1 h7 h2 hn ho hp
  | fastVote p hD h1 ho hp => exact .fastVote s p (hs _ _ hD) h1 ho hp

theorem Flat.moves_mono (hs : ∀ s x, D s x → D' s x)
    (h : Steps (Move cfg D) s obs s') : Steps (Move cfg D') s obs s' :=
  h.mono fun _ _ _ hm => hm.mono hs

end Mono

/-- The machine and the flat state agree between two events. -/
structure Synced (m : Machine) (s : State) : Prop where
  rel : Rel m s
  wf : Wf s
  idle : s.pending = none

theorem RouterRel.empty (pl : Player) : RouterRel pl {} fun _ => {} :=
  fun _ _ => ⟨rfl, rfl, fun _ _ => rfl, fun _ _ _ => rfl⟩

theorem Synced.start (r : Round) (deadline : Duration) :
    Synced (.start r deadline) { player := (start r deadline).player } :=
  ⟨⟨rfl, RouterRel.empty _⟩, Wf.initial _, rfl⟩

/-- What the events `es`, each meeting `C` where it was delivered, feed to the flat machine. -/
def Fed (C : Machine → Event → Prop) (es : List Event) (s' : State) (x : Input) : Prop :=
  ∃ e ∈ es, ∃ m s, Synced m s ∧ C m e ∧ Feeds e s s' x

theorem Fed.mono (hs : es ⊆ es') {x : Input} (h : Fed C es s' x) : Fed C es' s' x := by
  obtain ⟨e, he, h⟩ := h
  exact ⟨e, hs he, h⟩

variable {C : Machine → Event → Prop} {l : List (Event × List Action)}

/-- One event of the player is a run of the flat machine. -/
theorem HandlesIf.simulates (h : HandlesIf C cfg m l m') (hs : Synced m s) :
    ∃ obs s', Steps (Move cfg (Fed C (l.map Prod.fst))) s obs s' ∧ actions obs = runActions l ∧
      Synced m' s' := by
  obtain ⟨e, _, _, rfl, he, hC, hf⟩ := h
  obtain ⟨obs, s', hr, ha, h1, hp⟩ := hs.rel.submitTop hs.wf hs.idle he hf
  refine ⟨obs, s', moves_mono ?_ hr, ?_, h1, ?_, hp⟩
  · exact fun s' x hx => ⟨e, List.mem_singleton_self _, m, s, hs, hC, hx⟩
  · rw [ha, runActions, List.flatMap_singleton]
  · exact hr.invariant (fun _ _ _ hw hm => hm.wf hw) hs.wf

/-- **A run of the player is a run of the flat machine** with the same actions. -/
theorem simulates_of_steps (h : Steps (HandlesIf C cfg) m l m') (hs : Synced m s) :
    ∃ obs s', Steps (Move cfg (Fed C (l.map Prod.fst))) s obs s' ∧ actions obs = runActions l ∧
      Synced m' s' := by
  induction h with
  | refl => exact ⟨[], s, .refl s, rfl, hs⟩
  | tail _ ht ih =>
    obtain ⟨obs, _, hr, ha, hs1⟩ := ih
    obtain ⟨obs', s2, hr', ha', hs2⟩ := ht.simulates hs1
    refine ⟨obs ++ obs', s2, (moves_mono ?_ hr).trans (moves_mono ?_ hr'), ?_, hs2⟩
    · exact fun _ _ => Fed.mono (by simp)
    · exact fun _ _ => Fed.mono (by simp)
    · rw [actions_append, ha, ha', runActions, runActions, runActions, List.flatMap_append]

end Novarand.Agreement
