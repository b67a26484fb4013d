import Mathlib

/-!
# Checkpoints and the tasks that wait for them

An `attest` action starts a task that makes votes and a request to persist the state. The task
waits on a channel of its own for the end of the request before it releases its votes.
`checkpointAction.do` closes that channel; an error it sends first, and since the channel has no
buffer it waits until the task reads it. The actions may be served in any order.
-/

namespace Novarand.Agreement

open Relation

inductive TaskPhase
  | absent
  | queued
  | waiting
  | ended

inductive Completion
  | pending
  | sending
  | closed

/-- The task of an `attest` action, and what `checkpointAction.do` does with its channel. -/
structure Attest where
  task : TaskPhase := .absent
  channel : Completion := .pending

namespace Attest

variable (verified : List Bool) (fails done : Bool)

/-- The steps for an action, given how its votes are verified, whether persisting the state fails
and whether the context of the loop is done. -/
inductive Step : Attest → Attest → Prop
  -- `MakeVotes` accepts the task
  | start {a} (htask : a.task = .absent) : Step a { a with task := .queued }
  -- `pseudonodeVotesTask.execute` up to its wait, and the ways out of it
  | ends {a} (htask : a.task = .queued) (hend : done = true ∨ true ∉ verified) :
    Step a { a with task := .ended }
  | waits {a} (htask : a.task = .queued) (hvotes : true ∈ verified) :
    Step a { a with task := .waiting }
  | receives {a} (htask : a.task = .waiting) (hsend : a.channel = .sending) :
    Step a { task := .ended, channel := .closed }
  | released {a} (htask : a.task = .waiting) (hclosed : a.channel = .closed) :
    Step a { a with task := .ended }
  | abandons {a} (htask : a.task = .waiting) (hdone : done = true) :
    Step a { a with task := .ended }
  -- `checkpointAction.do`
  | closes {a} (htask : a.task ≠ .absent) (hevent : a.channel = .pending) (hok : fails = false) :
    Step a { a with channel := .closed }
  | sends {a} (htask : a.task ≠ .absent) (hevent : a.channel = .pending) (herr : fails = true) :
    Step a { a with channel := .sending }

variable {verified fails done} {a a' : Attest}

/-- `checkpointAction.do` waits for a task that has ended. -/
def Blocked (a : Attest) : Prop := a.channel = .sending ∧ a.task = .ended

/-- An error is only sent where there is one, and the task does not end before it has read it. -/
structure Heard (fails : Bool) (a : Attest) : Prop where
  failed : a.channel = .sending → fails = true
  task : fails = true → a.task = .ended → a.channel = .closed

theorem Heard.step (hr : fails = true → true ∈ verified ∧ done = false) (h : a.Heard fails)
    (hs : Step verified fails done a a') : a'.Heard fails := by
  obtain ⟨hf, ht⟩ := h
  cases hs with
  | start | waits => exact ⟨hf, nofun⟩
  | ends _ he =>
    refine ⟨hf, fun ha _ => ?_⟩
    simp [hr ha] at he
  | receives | closes => exact ⟨nofun, fun _ _ => rfl⟩
  | released _ hc => exact ⟨hf, fun _ _ => hc⟩
  | abandons _ hd =>
    refine ⟨hf, fun ha _ => ?_⟩
    simp [hr ha] at hd
  | sends _ hv h1 =>
    refine ⟨fun _ => h1, fun ha he => ?_⟩
    simp [ht ha he] at hv

theorem Heard.not_blocked (h : a.Heard fails) : ¬a.Blocked := by
  rintro ⟨hs, he⟩
  simp [h.task (h.failed hs) he] at hs

end Attest

/-- The results for each action of the loop, and whether the service is shut down. -/
structure Surroundings where
  verified : ℕ → List Bool
  fails : ℕ → Bool
  shutdown : Bool

/-- Wherever persisting fails, some vote is verified and the service is not shut down. -/
def Surroundings.Answered (env : Surroundings) : Prop :=
  ∀ i, env.fails i = true → true ∈ env.verified i ∧ env.shutdown = false

/-- The agreement loop. -/
structure CheckpointLoop where
  attests : ℕ → Attest := fun _ => {}
  done : Bool := false

namespace CheckpointLoop

inductive Step (env : Surroundings) : CheckpointLoop → CheckpointLoop → Prop
  | act {s a} (i : ℕ)
    (h : Attest.Step (env.verified i) (env.fails i) s.done (s.attests i) a) :
    Step env s { s with attests := Function.update s.attests i a }
  | quit {s} (h : env.shutdown = true) : Step env s { s with done := true }

variable {env : Surroundings} {s s' : CheckpointLoop}

structure Inv (env : Surroundings) (s : CheckpointLoop) : Prop where
  heard : ∀ i, (s.attests i).Heard (env.fails i)
  done : s.done = true → env.shutdown = true

theorem Inv.step (hr : env.Answered) (h : s.Inv env) (hs : Step env s s') : s'.Inv env := by
  obtain ⟨hh, hn⟩ := h
  cases hs with
  | @act a i ha =>
    have hf : env.fails i = true → true ∈ env.verified i ∧ s.done = false := by
      intro hf
      obtain ⟨hv, hq⟩ := hr i hf
      exact ⟨hv, Bool.eq_false_iff.2 fun hd => by simp [hn hd] at hq⟩
    refine ⟨fun j => ?_, hn⟩
    obtain rfl | he := eq_or_ne j i
    · simpa using (hh j).step hf ha
    · simpa [he] using hh j
  | quit hq => exact ⟨hh, fun _ => hq⟩

theorem Inv.of_reaches (hr : env.Answered) (hs : ReflTransGen (Step env) {} s) : s.Inv env := by
  induction hs with
  | refl => exact ⟨fun _ => ⟨nofun, nofun⟩, nofun⟩
  | tail _ ht ih => exact ih.step hr ht

/-- A task that ends before its error is sent blocks the loop. -/
theorem exists_blocked (i : ℕ) (hf : env.fails i = true)
    (hl : true ∈ env.verified i → env.shutdown = true) :
    ∃ s, ReflTransGen (Step env) {} s ∧ (s.attests i).Blocked := by
  obtain ⟨done, hs, he⟩ : ∃ done, ReflTransGen (Step env) {} { done } ∧
      (done = true ∨ true ∉ env.verified i) := by
    by_cases hv : true ∈ env.verified i
    · exact ⟨true, .single (.quit (hl hv)), .inl rfl⟩
    · exact ⟨false, .refl, .inr hv⟩
  have hs := hs.tail (.act i (.start rfl))
  have hs := hs.tail (.act i (.ends (by simp) he))
  have hs := hs.tail (.act i (.sends (by simp) (by simp) hf))
  exact ⟨_, hs, by simp [Attest.Blocked]⟩

/-- `checkpointAction.do` never waits in vain exactly when every error finds a task that waits. -/
theorem never_blocked_iff (env : Surroundings) :
    (∀ s, ReflTransGen (Step env) {} s → ∀ i, ¬(s.attests i).Blocked) ↔ env.Answered := by
  refine ⟨fun h i hf => ?_, fun hr s hs i => ?_⟩
  · by_contra hl
    obtain ⟨s, hs, hb⟩ := exists_blocked i hf fun hv => by simpa [hv] using hl
    exact h s hs i hb
  · exact ((Inv.of_reaches hr hs).heard i).not_blocked

/-- One account that is not selected, and a failure to persist the state. -/
theorem unselected_blocked :
    ∃ s, ReflTransGen (Step ⟨fun _ => [false], fun _ => true, false⟩) {} s ∧
      (s.attests 0).Blocked :=
  exists_blocked 0 rfl (by simp)

end CheckpointLoop

end Novarand.Agreement
