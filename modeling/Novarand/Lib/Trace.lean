import Mathlib

/-!
# Labelled steps and their runs

A transition system is a relation `step s l t`: from `s` to `t`, observing the labels `l`. `Steps`
is its closure, with the labels of a run in order. The rules are those of an inductive invariant,
of an invariant over the labels seen so far, and of composition.
-/

namespace Novarand

variable {σ ℓ : Type*}

/-- Runs of the labelled relation `step`, extended at the end. -/
inductive Steps (step : σ → List ℓ → σ → Prop) : σ → List ℓ → σ → Prop
  | refl (s : σ) : Steps step s [] s
  | tail {s t u : σ} {l l' : List ℓ} : Steps step s l t → step t l' u → Steps step s (l ++ l') u

namespace Steps

variable {step step' : σ → List ℓ → σ → Prop} {s t u : σ} {l l' g : List ℓ}

theorem single (h : step s l t) : Steps step s l t := by
  simpa using (refl s).tail h

theorem trans (h1 : Steps step s l t) (h2 : Steps step t l' u) : Steps step s (l ++ l') u := by
  induction h2 with
  | refl => simpa using h1
  | tail _ hs ih =>
    rw [← List.append_assoc]
    exact ih.tail hs

theorem head (h1 : step s l t) (h2 : Steps step t l' u) : Steps step s (l ++ l') u :=
  (single h1).trans h2

/-- Runs of a relation are runs of every larger one. -/
theorem mono (hs : ∀ s l t, step s l t → step' s l t) (h : Steps step s l t) :
    Steps step' s l t := by
  induction h with
  | refl => exact .refl _
  | tail _ ht ih => exact ih.tail (hs _ _ _ ht)

/-- **Invariant rule**: what every step preserves, every run preserves. -/
theorem invariant {P : σ → Prop} (ht : ∀ s l t, P s → step s l t → P t)
    (h : Steps step s l t) (hs : P s) : P t := by
  induction h with
  | refl => exact hs
  | tail _ h1 ih => exact ht _ _ _ ih h1

/-- **History rule**: `P h s` speaks of the state `s` and of the labels `h` seen before it. -/
theorem history {P : List ℓ → σ → Prop} (ht : ∀ h s l t, P h s → step s l t → P (h ++ l) t)
    (h : Steps step s l t) (hs : P g s) : P (g ++ l) t := by
  induction h with
  | refl => simpa using hs
  | tail _ h1 ih =>
    rw [← List.append_assoc]
    exact ht _ _ _ _ ih h1

end Steps

end Novarand
