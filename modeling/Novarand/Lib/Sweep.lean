import Mathlib

/-!
# Sweeping over a program

A linear sweep visits the instructions of a program one after the other, and keeps where each one
starts and which targets the jumps it has seen have. If no visited instruction has a target in its
middle and every jump back goes to a visited start, then at the end of the sweep all jumps, and the
ends of all instructions, are visited starts or the end of the program (`Sweep.Covers.lands`).

`ends p q` says that the instruction at `p` ends at `q`, `jumps p t` that it may jump to `t`.
-/

namespace Novarand

open Finset

structure Sweep where
  pc : ℕ
  starts : Finset ℕ
  targets : Finset ℕ

variable {target : Option ℕ} {next p q t pc pc' : ℕ} {s : Sweep}

namespace Sweep

/-- Visit the instruction at `pc`, which ends at `next` and may jump to `target`. -/
def visit (s : Sweep) (next : ℕ) (target : Option ℕ) : Sweep :=
  { pc := next
    starts := insert s.pc s.starts
    targets := target.elim s.targets fun t => insert t s.targets }

theorem mem_visit_targets :
    t ∈ (s.visit next target).targets ↔ target = some t ∨ t ∈ s.targets := by
  cases target with
  | none => simp [visit]
  | some u => simp [visit, eq_comm]

theorem mem_visit_starts :
    p ∈ (s.visit next target).starts ↔ p = s.pc ∨ p ∈ s.starts := by simp [visit]

/-- What is known of the instructions visited so far. -/
structure Covers (ends jumps : ℕ → ℕ → Prop) (s : Sweep) : Prop where
  below : ∀ p ∈ s.starts, p < s.pc
  next : ∀ p ∈ s.starts, ∀ q, ends p q → q = s.pc ∨ q ∈ s.starts
  noted : ∀ p ∈ s.starts, ∀ t, jumps p t → t ∈ s.targets
  aligned : ∀ t ∈ s.targets, t < s.pc → t ∈ s.starts

variable {ends jumps : ℕ → ℕ → Prop} {s : Sweep}

theorem Covers.start (pc : ℕ) : Covers ends jumps ⟨pc, ∅, ∅⟩ :=
  ⟨by simp, by simp, by simp, by simp⟩

theorem Covers.visit (h : Covers ends jumps s) (ha : s.pc < next) (he : ∀ q, ends s.pc q → q = next)
    (hj : ∀ t, jumps s.pc t → target = some t)
    (hb : ∀ t, target = some t → t < next → t = s.pc ∨ t ∈ s.starts)
    (hm : ∀ t ∈ (s.visit next target).targets, s.pc < t → next ≤ t) :
    Covers ends jumps (s.visit next target) := by
  refine ⟨?_, ?_, ?_, ?_⟩
  · intro p hp
    obtain rfl | hp := mem_visit_starts.mp hp
    · exact ha
    · exact (h.below p hp).trans ha
  · intro p hp q hq
    obtain rfl | hp := mem_visit_starts.mp hp
    · exact .inl (he q hq)
    · obtain rfl | hq := h.next p hp q hq
      · exact .inr (mem_visit_starts.mpr (.inl rfl))
      · exact .inr (mem_visit_starts.mpr (.inr hq))
  · intro p hp t ht
    obtain rfl | hp := mem_visit_starts.mp hp
    · exact mem_visit_targets.mpr (.inl (hj t ht))
    · exact mem_visit_targets.mpr (.inr (h.noted p hp t ht))
  · intro t ht hl
    rw [mem_visit_starts]
    obtain hn | ho := mem_visit_targets.mp ht
    · exact hb t hn hl
    · -- an old target is not in the middle of the instruction just visited
      obtain hf | rfl | h1 := lt_trichotomy t s.pc
      · exact .inr (h.aligned t ho hf)
      · exact .inl rfl
      · exact absurd hl (Nat.not_lt_of_le (hm t ht h1))

/-- After the whole program was visited, control stays at visited instructions. -/
theorem Covers.lands (h : Covers ends jumps s) (hp : p ∈ s.starts) (hq : q ≤ s.pc)
    (hf : ends p q ∨ jumps p q) : q = s.pc ∨ q ∈ s.starts := by
  obtain he | hj := hf
  · exact h.next p hp q he
  · obtain heq | hl := Nat.eq_or_lt_of_le hq
    · exact .inl heq
    · exact .inr (h.aligned q (h.noted p hp q hj) hl)

end Sweep

/-- What a walk that only goes forward from `pc` can still pay. -/
def remainingCost (starts : Finset ℕ) (cost : ℕ → ℕ) (pc : ℕ) : ℕ :=
  ∑ p ∈ starts with pc ≤ p, cost p

theorem remainingCost_le (starts : Finset ℕ) (cost : ℕ → ℕ) (pc : ℕ) :
    remainingCost starts cost pc ≤ ∑ p ∈ starts, cost p :=
  sum_le_sum_of_subset (filter_subset _ _)

theorem remainingCost_step {starts : Finset ℕ} {cost : ℕ → ℕ} (hm : pc ∈ starts) (hl : pc < pc') :
    cost pc + remainingCost starts cost pc' ≤ remainingCost starts cost pc := by
  have hn : pc ∉ starts.filter (pc' ≤ ·) := by
    simp only [mem_filter, not_and, Nat.not_le]
    exact fun _ => hl
  have hs : insert pc (starts.filter (pc' ≤ ·)) ⊆ starts.filter (pc ≤ ·) := by
    intro p hp
    rw [mem_insert, mem_filter] at hp
    rw [mem_filter]
    obtain rfl | ⟨hp, he⟩ := hp
    · exact ⟨hm, Nat.le_refl p⟩
    · exact ⟨hp, hl.le.trans he⟩
  calc cost pc + remainingCost starts cost pc'
      = ∑ p ∈ insert pc (starts.filter (pc' ≤ ·)), cost p := (sum_insert hn).symm
    _ ≤ remainingCost starts cost pc := sum_le_sum_of_subset hs

end Novarand
