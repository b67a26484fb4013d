import Mathlib

/-!
# Computations that may fail

Inversion of `Except`: how a computation got to its result or to its error, and which errors it
cannot end in.
-/

namespace Novarand

open List

universe u v

variable {ε : Type u} {α β : Type v}

variable {f : α → Except ε β} {x : Except ε α} {e : ε} {γ ε' : Type*}

theorem bind_ok {b : β} : (x >>= f) = .ok b ↔ ∃ a, x = .ok a ∧ f a = .ok b := by
  cases x with
  | error e => simp [bind, Except.bind]
  | ok a => simp [bind, Except.bind]

variable {a b c : α}

theorem pure_ok : (pure a : Except ε α) = .ok b ↔ a = b := by
  simp [pure, Except.pure]

theorem pure_pair {b d : β} :
    (pure (a, b) : Except ε (α × β)) = .ok (c, d) ↔ a = c ∧ b = d := by rw [pure_ok, Prod.mk.injEq]

theorem throw_ok : (throw e : Except ε α) = .ok b ↔ False := by
  simp [throw, throwThe, MonadExceptOf.throw]

theorem bind_error_iff : (x >>= f) = .error e ↔ x = .error e ∨ ∃ a, x = .ok a ∧ f a = .error e := by
  cases x with
  | error e => simp [bind, Except.bind]
  | ok a => simp [bind, Except.bind]

theorem ok_bind (a : α) (f : α → Except ε β) : (Except.ok a >>= f) = f a := rfl

theorem error_bind (e : ε) (f : α → Except ε β) : (Except.error e >>= f) = .error e := rfl

/-- The value of an option, or the error `e`. -/
def orThrow (e : ε) : Option α → Except ε α
  | some a => .ok a
  | none => .error e

theorem orThrow_some (e : ε) (a : α) : orThrow e (some a) = .ok a := rfl

variable {o : Option α}

theorem orThrow_ok : orThrow e o = .ok a ↔ o = some a := by
  cases o <;> simp [orThrow]

variable {e' : ε}

theorem orThrow_error_iff : orThrow e o = .error e' ↔ o = none ∧ e = e' := by
  cases o <;> simp [orThrow]

/-- Fail with `e` if `p` holds. -/
def failIf (p : Prop) [Decidable p] (e : ε) : Except ε Unit := if p then .error e else .ok ()

theorem failIf_ok {p : Prop} [Decidable p] {u : Unit} : failIf p e = .ok u ↔ ¬p := by
  unfold failIf
  split <;> simp_all

theorem failIf_neg {p : Prop} [Decidable p] (h : ¬p) : failIf p e = .ok () := failIf_ok.mpr h

theorem failIf_error_iff {p : Prop} [Decidable p] : failIf p e = .error e' ↔ p ∧ e = e' := by
  unfold failIf
  split <;> simp_all

variable {l : List γ}

theorem forM_ok_iff {f : γ → Except ε PUnit} {u : PUnit} :
    l.forM f = .ok u ↔ ∀ a ∈ l, f a = .ok u := by
  induction l with
  | nil => simp [pure, Except.pure]
  | cons a l ih =>
    rw [forall_mem_cons]
    refine bind_ok.trans ?_
    constructor
    · rintro ⟨⟨⟩, ha, hl⟩
      exact ⟨ha, ih.mp hl⟩
    · rintro ⟨ha, hl⟩
      exact ⟨u, ha, ih.mpr hl⟩

variable {g : γ → α}

theorem mapM_ok {f : γ → Except ε α} (h : ∀ c ∈ l, f c = .ok (g c)) : l.mapM f = .ok (l.map g) := by
  induction l with
  | nil => rfl
  | cons c l ih =>
    rw [mapM_cons, h c mem_cons_self, ih fun d hd => h d (mem_cons_of_mem _ hd)]
    rfl

theorem eq_map_of_mapM_ok {f : γ → Except ε α} (hf : ∀ c a, f c = .ok a → a = g c) {as : List α}
    (h : l.mapM f = .ok as) : as = l.map g := by
  induction l generalizing as with
  | nil => exact (Except.ok.inj h).symm
  | cons c l ih =>
    simp only [mapM_cons, bind_ok, pure_ok] at h
    obtain ⟨a, ha, _, hs, rfl⟩ := h
    rw [map_cons, hf c a ha, ih hs]

theorem forall_ok_of_mapM_ok {f : γ → Except ε α} {as : List α} (h : l.mapM f = .ok as) :
    ∀ c ∈ l, ∃ a, f c = .ok a := by
  induction l generalizing as with
  | nil => simp
  | cons c l ih =>
    simp only [mapM_cons, bind_ok] at h
    obtain ⟨a, ha, _, hs, -⟩ := h
    exact forall_mem_cons.mpr ⟨⟨a, ha⟩, ih hs⟩

theorem exists_of_mapM_error {f : γ → Except ε α} (h : l.mapM f = .error e) :
    ∃ c ∈ l, f c = .error e := by
  induction l with
  | nil => cases h
  | cons c l ih =>
    simp only [mapM_cons, bind_error_iff] at h
    obtain h | ⟨a, -, h | ⟨_, -, h⟩⟩ := h
    · exact ⟨c, mem_cons_self, h⟩
    · obtain ⟨d, hd, hf⟩ := ih h
      exact ⟨d, mem_cons_of_mem _ hd, hf⟩
    · cases h

theorem exists_of_foldlM_error {β : Type*} {f : β → γ → Except ε β} {b : β}
    (h : l.foldlM f b = .error e) : ∃ c ∈ l, ∃ b', f b' c = .error e := by
  induction l generalizing b with
  | nil => cases h
  | cons c l ih =>
    simp only [foldlM_cons, bind_error_iff] at h
    obtain h | ⟨b', -, h⟩ := h
    · exact ⟨c, mem_cons_self, b, h⟩
    · obtain ⟨d, hd, hf⟩ := ih h
      exact ⟨d, mem_cons_of_mem _ hd, hf⟩

theorem exists_of_forM_error {f : γ → Except ε PUnit} (h : l.forM f = .error e) :
    ∃ c ∈ l, f c = .error e := by
  induction l with
  | nil => cases h
  | cons c l ih =>
    obtain h | ⟨a, -, h⟩ := bind_error_iff.mp h
    · exact ⟨c, mem_cons_self, h⟩
    · obtain ⟨d, hd, hf⟩ := ih h
      exact ⟨d, mem_cons_of_mem _ hd, hf⟩

theorem mapError_ok_iff {f : ε → ε'} : x.mapError f = .ok a ↔ x = .ok a := by
  cases x <;> simp [Except.mapError]

theorem mapError_error_iff {f : ε → ε'} {e : ε'} :
    x.mapError f = .error e ↔ ∃ e', x = .error e' ∧ f e' = e := by
  cases x <;> simp [Except.mapError]

/-- A computation that was run to a result of which `f` is known. -/
theorem exists_ok_of_toOption {f : α → γ} {c : γ} (h : x.toOption.map f = some c) :
    ∃ a, x = .ok a ∧ f a = c := by
  cases x with
  | error e => cases h
  | ok a => exact ⟨a, rfl, Option.some.inj h⟩

/-! ## Errors that do not occur -/

/-- The computation does not fail with an error in `E`. -/
def Avoids (E : ε → Prop) (x : Except ε α) : Prop := ∀ e, x = .error e → ¬ E e

variable {E : ε → Prop}

@[simp] theorem avoids_pure (E : ε → Prop) (a : α) : Avoids E (pure a : Except ε α) := by
  intro e h
  cases h

@[simp] theorem avoids_throw_iff : Avoids E (throw e : Except ε α) ↔ ¬ E e := by
  simp [Avoids, throw, throwThe, MonadExceptOf.throw]

/-- A computation in two parts: the second one is only looked at on results of the first. -/
theorem Avoids.bind (hx : Avoids E x) (hf : ∀ a, x = .ok a → Avoids E (f a)) :
    Avoids E (x >>= f) := by
  intro e h
  rcases bind_error_iff.mp h with h | ⟨a, ha, h⟩
  · exact hx e h
  · exact hf a ha e h

theorem Avoids.bind_pure (hx : Avoids E x) {g : α → β} : Avoids E (x >>= fun a => pure (g a)) :=
  hx.bind fun _ _ => avoids_pure _ _

end Novarand
