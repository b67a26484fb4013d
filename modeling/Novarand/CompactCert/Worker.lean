import Mathlib

/-!
# The signatures collected for compact certificates

The worker keeps the signers of a round in a table and in a builder, made at its start or on demand.
-/

namespace Novarand.CompactCert.Worker

open List Function

/-- The signers of a round in the table and in its builder, if there is one. -/
structure Signers (A : Type) where
  pending : Finset A := ∅
  builder : Option (Finset A) := none

variable {A : Type} [DecidableEq A]

namespace Signers

variable (s : Signers A) (signer : A) (ready valid : Bool)

/-- The builder that `handleSig` finds, or makes if `builderForRound` is `ready` for the round. -/
def builderFor : Option (Finset A) := s.builder.or (if ready then some ∅ else none)

/-- `handleSig`; `valid` tells a valid signature of a participant. -/
def handleSig : Signers A :=
  match s.builderFor ready with
  | none => s
  | some b =>
    { builder := some (if valid then insert signer b else b)
      pending := if valid ∧ signer ∉ b then insert signer s.pending else s.pending }

/-- `initBuilders` after a restart. -/
def init : Signers A :=
  { s with builder := if ready ∧ s.pending ≠ ∅ then some s.pending else none }

def Agree : Prop := ∀ b ∈ s.builder, b = s.pending

/-- `addPendingSig` fails, as the table has a signature of the signer. -/
def Refuses : Prop := ∃ b ∈ s.builderFor ready, valid ∧ signer ∉ b ∧ signer ∈ s.pending

/-- A builder is made on demand although the table has signatures of the round. -/
def Forgets : Prop := s.builder = none ∧ ready ∧ s.pending ≠ ∅

variable {s}

theorem Agree.handleSig_iff (h : s.Agree) :
    (s.handleSig signer ready valid).Agree ∧ ¬ s.Refuses signer ready valid ↔
      ¬ s.Forgets ready := by
  obtain ⟨pending, builder⟩ := s
  cases builder <;> cases ready <;> cases valid <;>
    simp_all [Agree, handleSig, builderFor, Refuses, Forgets, eq_comm]
  constructor
  · rintro ⟨he, hn⟩
    simpa [hn] using congrArg (Finset.erase · signer) he
  · rintro rfl
    simp

end Signers

inductive Op (A : Type)
  | handleSig (rnd : ℕ) (signer : A) (ready valid : Bool)
  | deleteOldSigs (nextCert : ℕ)
  | restart (ready : ℕ → Bool)

def step (w : ℕ → Signers A) : Op A → ℕ → Signers A
  | .handleSig rnd signer ready valid => update w rnd ((w rnd).handleSig signer ready valid)
  | .deleteOldSigs nextCert => fun r => if r < nextCert then {} else w r
  | .restart ready => fun r => (w r).init (ready r)

def run (ops : List (Op A)) : ℕ → Signers A := ops.foldl step fun _ => {}

def Refuses (w : ℕ → Signers A) : Op A → Prop
  | .handleSig rnd signer ready valid => (w rnd).Refuses signer ready valid
  | _ => False

def Forgets (w : ℕ → Signers A) : Op A → Prop
  | .handleSig rnd _ ready _ => (w rnd).Forgets ready
  | _ => False

theorem step_iff {w : ℕ → Signers A} (h : ∀ r, (w r).Agree) (op : Op A) :
    (∀ r, (step w op r).Agree) ∧ ¬ Refuses w op ↔ ¬ Forgets w op := by
  cases op with
  | handleSig rnd signer ready valid =>
    rw [step, forall_update_iff w fun _ s => s.Agree, and_iff_left fun r _ => h r]
    exact (h rnd).handleSig_iff signer ready valid
  | deleteOldSigs n =>
    refine iff_of_true ⟨fun r => ?_, id⟩ id
    by_cases hr : r < n
    · simp [step, hr, Signers.Agree]
    · simpa [step, hr] using h r
  | restart ready => exact iff_of_true ⟨fun r => by simp [step, Signers.init, Signers.Agree], id⟩ id

/-- Along any run, the builders have the stored signers and the table refuses none exactly as long as
no builder is made on demand for a round with signatures. -/
theorem agree_iff_not_forgets (ops : List (Op A)) :
    (∀ l op, l ++ [op] <+: ops → (∀ r, (run (l ++ [op]) r).Agree) ∧ ¬ Refuses (run l) op) ↔
      ∀ l op, l ++ [op] <+: ops → ¬ Forgets (run l) op := by
  have hs : ∀ l (op : Op A), run (l ++ [op]) = step (run l) op := by simp [run]
  have h0 : ∀ r, (run ([] : List (Op A)) r).Agree := by simp [run, Signers.Agree]
  constructor
  · intro h l op hp
    have hl := h l op hp
    rw [hs] at hl
    refine (step_iff ?_ op).mp hl
    obtain rfl | ⟨l, o, rfl⟩ := eq_nil_or_concat l
    · exact h0
    · rw [concat_eq_append] at hp ⊢
      exact (h l o ((prefix_append _ _).trans hp)).1
  · intro h l
    induction l using reverseRecOn with
    | nil => exact fun op hp => hs [] op ▸ (step_iff h0 op).mpr (h _ op hp)
    | append_singleton l o ih =>
      intro op hp
      have ho := (ih o ((prefix_append _ _).trans hp)).1
      exact hs (l ++ [o]) op ▸ (step_iff ho op).mpr (h _ op hp)

/-- At the restart `builderForRound` fails for round 8, so its builder is made for the next signature. -/
theorem restart_forgets :
    let w := run [.handleSig 8 1 true true, .restart fun _ => false, .handleSig 8 2 true true]
    (w 8).builder = some {2} ∧ 1 ∈ (w 8).pending ∧ Refuses w (.handleSig 8 1 true true) := by
  refine ⟨by decide, by decide, {2}, by decide, by decide⟩

end Novarand.CompactCert.Worker
