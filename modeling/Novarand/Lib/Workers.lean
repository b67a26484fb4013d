import Mathlib

/-!
# Workers that share a counter

A caller launches workers that fill the slots of an array. The elements are handed out by one
atomic counter: a worker adds its batch size to the counter and owns the elements it passed over,
then it asks again for a larger batch. The elements of a batch are processed one by one, `stride`
apart, and any number of steps of other workers may come between two of them.

Whatever the number of workers and the interleaving, when the caller has stopped launching and every
worker is done without an error, every slot holds the value of its own element.
-/

namespace Novarand.Workers

open Relation List Function

variable {ε α : Type*}

/-- What a worker does next: ask the counter, process the elements from `i` up to `stop`, nothing. -/
inductive Job
  | ask
  | range (i stop : ℕ)
  | done
  deriving DecidableEq

structure Worker where
  batch : ℕ
  job : Job := .ask

structure Pool (ε α : Type*) where
  nextidx : ℕ := 0
  /-- How many workers can still be launched. -/
  nworkers : ℕ
  launching : Bool := true
  workers : List Worker := []
  out : ℕ → Option α := fun _ => none
  err : Option ε := none

/-- The steps of the caller and of the workers, for elements `0, …, maxidx - 1` and the task `f`. -/
inductive Step (stride maxidx : ℕ) (f : ℕ → Except ε α) : Pool ε α → Pool ε α → Prop
  | launch {p} (hl : p.launching = true) (hw : 0 < p.nworkers) (hn : p.nextidx < maxidx) :
    Step stride maxidx f p
      { p with nworkers := p.nworkers - 1, workers := p.workers ++ [{ batch := stride }] }
  | stop {p} (hl : p.launching = true) (hs : p.nworkers = 0 ∨ maxidx ≤ p.nextidx) :
    Step stride maxidx f p { p with launching := false }
  | next {p pre w post} (hw : p.workers = pre ++ w :: post) (hj : w.job = .ask)
      (hn : p.nextidx < maxidx) :
    Step stride maxidx f p
      { p with
        nextidx := p.nextidx + w.batch
        workers := pre ++ { w with job := .range p.nextidx (p.nextidx + w.batch) } :: post }
  | leave {p pre w post} (hw : p.workers = pre ++ w :: post) (hj : w.job = .ask)
      (hn : maxidx ≤ p.nextidx) :
    Step stride maxidx f p
      { p with
        nextidx := p.nextidx + w.batch
        workers := pre ++ { w with job := .done } :: post }
  | work {p pre w post i stop a} (hw : p.workers = pre ++ w :: post) (hj : w.job = .range i stop)
      (hi : i < stop) (hm : i < maxidx) (hf : f i = .ok a) :
    Step stride maxidx f p
      { p with
        out := update p.out (i / stride) (some a)
        workers := pre ++ { w with job := .range (i + stride) stop } :: post }
  | fail {p pre w post i stop e} (hw : p.workers = pre ++ w :: post) (hj : w.job = .range i stop)
      (hi : i < stop) (hm : i < maxidx) (hf : f i = .error e) :
    Step stride maxidx f p
      { p with
        err := p.err <|> some e
        workers := pre ++ { w with job := .done } :: post }
  | finish {p pre w post i stop} (hw : p.workers = pre ++ w :: post) (hj : w.job = .range i stop)
      (hi : stop ≤ i ∨ maxidx ≤ i) :
    Step stride maxidx f p
      { p with workers := pre ++ { batch := w.batch + stride } :: post }

/-- The caller has stopped launching and every worker is done. -/
def Pool.Final (p : Pool ε α) : Prop :=
  p.launching = false ∧ ∀ w ∈ p.workers, w.job = .done

/-- Pools reached from a start with `n` workers. -/
def Reached (stride maxidx : ℕ) (f : ℕ → Except ε α) (n : ℕ) (p : Pool ε α) : Prop :=
  ReflTransGen (Step stride maxidx f) { nworkers := n } p

variable {stride maxidx : ℕ} {f : ℕ → Except ε α} {p q : Pool ε α}

/-- Slot `i / stride` holds the value of element `i`. -/
def Pool.Filled (stride : ℕ) (f : ℕ → Except ε α) (p : Pool ε α) (i : ℕ) : Prop :=
  ∃ a, f i = .ok a ∧ p.out (i / stride) = some a

/-- A worker still has element `i` before it. -/
def Worker.Holds (w : Worker) (i : ℕ) : Prop :=
  ∃ j stop, w.job = .range j stop ∧ j ≤ i ∧ i < stop

/-- Batches and positions are multiples of the stride. -/
structure Worker.Aligned (stride : ℕ) (w : Worker) : Prop where
  batch : stride ∣ w.batch
  job : ∀ i stop, w.job = .range i stop → stride ∣ i

/-- Every element the counter has passed is in its slot or in the hands of a worker. -/
structure Inv (stride maxidx : ℕ) (f : ℕ → Except ε α) (p : Pool ε α) : Prop where
  nextidx : stride ∣ p.nextidx
  aligned : ∀ w ∈ p.workers, w.Aligned stride
  covered : p.err = none → ∀ i, stride ∣ i → i < p.nextidx → i < maxidx →
    p.Filled stride f i ∨ ∃ w ∈ p.workers, w.Holds i
  done : p.err = none → ∀ w ∈ p.workers, w.job = .done → maxidx ≤ p.nextidx
  launched : p.nworkers = 0 → p.workers ≠ []
  stopped : p.launching = false → p.workers = [] → maxidx ≤ p.nextidx
  failed : ∀ e, p.err = some e → ∃ i < maxidx, f i = .error e

variable {i n j nextidx b stop : ℕ} {post pre ws : List Worker} {w : Worker}

theorem Inv.start (hn : 0 < n) : Inv stride maxidx f { nworkers := n } where
  nextidx := Nat.dvd_zero _
  aligned := by simp
  covered := by simp
  done := by simp
  launched := by
    intro h
    exact absurd h (Nat.pos_iff_ne_zero.mp hn)
  stopped := by simp
  failed := by simp

variable {w' : Worker}

/-- One worker of the pool changes from `w` to `w'`: elements in the hands of the others stay. -/
theorem holds_replace (h : ∃ v ∈ pre ++ w :: post, v.Holds i) :
    w.Holds i ∨ ∃ v ∈ pre ++ w' :: post, v.Holds i := by
  obtain ⟨v, hv, ho⟩ := h
  rcases mem_append.mp hv with hv | hv
  · exact .inr ⟨v, mem_append_left _ hv, ho⟩
  rcases mem_cons.mp hv with rfl | hv
  · exact .inl ho
  · exact .inr ⟨v, mem_append_right _ (mem_cons_of_mem _ hv), ho⟩

theorem forall_replace {P : Worker → Prop} (h : ∀ v ∈ pre ++ w :: post, P v) (hw : P w') :
    ∀ v ∈ pre ++ w' :: post, P v := by
  simp only [forall_mem_append, forall_mem_cons] at h ⊢
  exact ⟨h.1, hw, h.2.2⟩

theorem mem_split (hw : ws = pre ++ w :: post) : w ∈ ws := by
  rw [hw]
  exact mem_append_right _ mem_cons_self

/-- Writing one slot keeps the slots that are filled. -/
theorem Pool.Filled.update {a : α} (h : p.Filled stride f i) (hi : stride ∣ i) (hj : stride ∣ j)
    (hf : f j = .ok a) :
    Filled stride f { p with out := update p.out (j / stride) (some a) } i := by
  obtain ⟨b, hb, ho⟩ := h
  refine ⟨b, hb, ?_⟩
  show Function.update p.out (j / stride) (some a) (i / stride) = some b
  by_cases h1 : i / stride = j / stride
  · -- two multiples of the stride with one slot are the same element
    have he : i = j := by rw [← Nat.div_mul_cancel hi, h1, Nat.div_mul_cancel hj]
    subst he
    rw [update_self]
    rw [hf] at hb
    exact congrArg some (Except.ok.inj hb)
  · rw [update_of_ne h1]
    exact ho

theorem Worker.not_holds_ask (hj : w.job = .ask) : ¬w.Holds i := by
  rintro ⟨j, _, ho, -⟩
  rw [hj] at ho
  cases ho

/-- One worker changes from `w` to `w'`, while the counter moves on and slots are filled: what `w` had
before it and what the counter passes is filled or in the hands of `w'`. -/
theorem Inv.replace (h : Inv stride maxidx f p) {out : ℕ → Option α} {err : Option ε}
    (hw : p.workers = pre ++ w :: post) (hx : stride ∣ nextidx) (hle : p.nextidx ≤ nextidx)
    (ha : w'.Aligned stride) (hr : err = none → p.err = none)
    (hl : ∀ i, stride ∣ i → p.Filled stride f i → Pool.Filled stride f { p with out } i)
    (hh : err = none → ∀ i, stride ∣ i → i < maxidx →
      w.Holds i ∨ p.nextidx ≤ i ∧ i < nextidx → Pool.Filled stride f { p with out } i ∨ w'.Holds i)
    (h2 : err = none → w'.job = .done → maxidx ≤ nextidx)
    (h3 : ∀ e, err = some e → ∃ i < maxidx, f i = .error e) :
    Inv stride maxidx f { p with nextidx, out, err, workers := pre ++ w' :: post } where
  nextidx := hx
  aligned := forall_replace (hw ▸ h.aligned) ha
  covered := by
    intro he i hd hi hm
    have h1 : w.Holds i ∨ p.nextidx ≤ i ∧ i < nextidx →
        Pool.Filled stride f { p with out } i ∨ ∃ v ∈ pre ++ w' :: post, v.Holds i := fun h4 =>
      (hh he i hd hm h4).imp id fun ho => ⟨w', mem_append_right _ mem_cons_self, ho⟩
    by_cases ht : i < p.nextidx
    · rcases h.covered (hr he) i hd ht hm with hf | ho
      · exact .inl (hl i hd hf)
      · rw [hw] at ho
        rcases holds_replace ho with ho | ho
        · exact h1 (.inl ho)
        · exact .inr ho
    · exact h1 (.inr ⟨Nat.le_of_not_lt ht, hi⟩)
  done := by
    intro he
    have ho : ∀ v ∈ pre ++ w :: post, v.job = .done → maxidx ≤ nextidx :=
      hw ▸ fun v hv hj => (h.done (hr he) v hv hj).trans hle
    exact forall_replace ho (h2 he)
  launched := by simp
  stopped := by simp
  failed := h3

theorem Inv.step (h : Inv stride maxidx f p) (hs : Step stride maxidx f p q) :
    Inv stride maxidx f q := by
  cases hs with
  | launch hl hw hn =>
    exact
      { nextidx := h.nextidx
        aligned := forall_mem_append.mpr
          ⟨h.aligned, forall_mem_singleton.mpr ⟨Nat.dvd_refl _, by simp⟩⟩
        covered := by
          intro he i hd hi hm
          rcases h.covered he i hd hi hm with hf | ⟨v, hv, ho⟩
          · exact .inl hf
          · exact .inr ⟨v, mem_append_left _ hv, ho⟩
        done := by
          intro he v hv hj
          rcases mem_append.mp hv with hv | hv
          · exact h.done he v hv hj
          · rw [mem_singleton.mp hv] at hj
            cases hj
        launched := by simp
        stopped := by simp
        failed := h.failed }
  | stop hl hs =>
    exact
      { nextidx := h.nextidx
        aligned := h.aligned
        covered := h.covered
        done := h.done
        launched := h.launched
        stopped := by
          intro _ h5
          exact hs.resolve_left fun h0 => h.launched h0 h5
        failed := h.failed }
  | @next pre w post hw hj hn =>
    have ha := h.aligned _ (mem_split hw)
    refine h.replace hw (Nat.dvd_add h.nextidx ha.batch) (Nat.le_add_right _ _)
      ⟨ha.batch, fun i stop h1 => ?_⟩ id (fun _ _ hf => hf) (fun _ i _ _ hr => ?_) (by simp)
      h.failed
    · cases h1
      exact h.nextidx
    · -- the elements the counter passes in this step go to `w`
      obtain ⟨hle, ht⟩ := hr.resolve_left (Worker.not_holds_ask hj)
      exact .inr ⟨_, _, rfl, hle, ht⟩
  | @leave pre w post hw hj hn =>
    have ha := h.aligned _ (mem_split hw)
    refine h.replace hw (Nat.dvd_add h.nextidx ha.batch) (Nat.le_add_right _ _)
      ⟨ha.batch, by simp⟩ id (fun _ _ hf => hf) (fun _ i _ hm hr => ?_)
      (fun _ _ => hn.trans (Nat.le_add_right _ _)) h.failed
    obtain ⟨hle, -⟩ := hr.resolve_left (Worker.not_holds_ask hj)
    exact absurd hm (Nat.not_lt_of_le (hn.trans hle))
  | @work pre w post i stop a hw hj hi hm hf =>
    have ha := h.aligned _ (mem_split hw)
    have h2 := ha.job i stop hj
    refine h.replace hw h.nextidx (le_rfl) ⟨ha.batch, fun j stop' h1 => ?_⟩ id
      (fun k hd h6 => h6.update hd h2 hf) (fun _ k hd _ hr => ?_) (by simp) h.failed
    · cases h1
      exact Nat.dvd_add h2 (Nat.dvd_refl _)
    · obtain ⟨j, stop', h1, hle, ht⟩ := hr.resolve_right (by omega)
      rw [hj] at h1
      cases h1
      -- `w` held element `k`: it is the one just written, or at least a stride away
      rcases hle.eq_or_lt with rfl | _
      · exact .inl ⟨a, hf, update_self _ _ _⟩
      · refine .inr ⟨_, _, rfl, ?_, ht⟩
        obtain ⟨c, _⟩ := (Nat.dvd_sub hd h2 : stride ∣ k - i)
        have hc0 : c ≠ 0 := by
          rintro rfl
          omega
        have := Nat.le_mul_of_pos_right stride (Nat.pos_of_ne_zero hc0)
        omega
  | @fail pre w post i stop e hw hj hi hm hf =>
    have ha := h.aligned _ (mem_split hw)
    have h3 : (p.err <|> some e) ≠ none := by
      cases p.err <;> simp
    refine h.replace hw h.nextidx (le_rfl) ⟨ha.batch, by simp⟩ (fun he => absurd he h3)
      (fun _ _ hf => hf) (fun he => absurd he h3) (fun he => absurd he h3) fun e' he' => ?_
    cases h4 : p.err with
    | none =>
      have : e = e' := by simpa [h4] using he'
      exact ⟨i, hm, this ▸ hf⟩
    | some e'' =>
      have : e'' = e' := by simpa [h4] using he'
      exact h.failed e' (this ▸ h4)
  | @finish pre w post i stop hw hj hi =>
    have ha := h.aligned _ (mem_split hw)
    refine h.replace hw h.nextidx (le_rfl)
      ⟨Nat.dvd_add ha.batch (Nat.dvd_refl _), by simp⟩ id (fun _ _ hf => hf)
      (fun _ k _ hm hr => ?_) (by simp) h.failed
    obtain ⟨j, stop', h1, hle, ht⟩ := hr.resolve_right (by omega)
    rw [hj] at h1
    cases h1
    omega

section

variable (hn : 0 < n) (h : Reached stride maxidx f n p)
include hn h

theorem Reached.inv : Inv stride maxidx f p := by
  induction h with
  | refl => exact Inv.start hn
  | tail _ hs ih => exact ih.step hs

/-- An error of the pool is the error of one of its elements. -/
theorem Reached.err {e : ε} (he : p.err = some e) : ∃ i < maxidx, f i = .error e :=
  (h.inv hn).failed e he

/-- A pool that is finished without an error has filled every slot. -/
theorem Reached.filled (h1 : p.Final) (he : p.err = none) (hd : stride ∣ i) (hi : i < maxidx) :
    p.Filled stride f i := by
  have h2 := h.inv hn
  have hp : maxidx ≤ p.nextidx := by
    rcases hs : p.workers with _ | ⟨w, ws⟩
    · exact h2.stopped h1.1 hs
    · have hw : w ∈ p.workers := hs ▸ mem_cons_self
      exact h2.done he w hw (h1.2 w hw)
  rcases h2.covered he i hd (hi.trans_le hp) hi with hf | ⟨w, hw, j, _, hj, -⟩
  · exact hf
  · rw [h1.2 w hw] at hj
    cases hj

end

/-! ### One worker on its own -/

/-- A batch ends with the next question to the counter, or with an error. -/
theorem exists_batch (h1 : 0 < stride) (p : Pool ε α) (hw : p.workers = [⟨b, .range i stop⟩]) :
    ∃ q, ReflTransGen (Step stride maxidx f) p q ∧ q.nextidx = p.nextidx ∧
      q.launching = p.launching ∧
      (q.workers = [{ batch := b + stride }] ∨ q.workers = [{ batch := b, job := .done }]) := by
  induction hk : stop - i using Nat.strong_induction_on generalizing p i with
  | _ k ih =>
    have hs : p.workers = [] ++ ⟨b, .range i stop⟩ :: [] := hw
    by_cases hi : i < stop ∧ i < maxidx
    · cases ha : f i with
      | error e =>
        exact ⟨_, .single (Step.fail hs rfl hi.1 hi.2 ha), rfl, rfl, .inr rfl⟩
      | ok a =>
        have ht : Step stride maxidx f p _ := Step.work hs rfl hi.1 hi.2 ha
        obtain ⟨q, hr, hq⟩ := ih (stop - (i + stride)) (by omega)
          { p with
            out := update p.out (i / stride) (some a)
            workers := [⟨b, .range (i + stride) stop⟩] } rfl rfl
        exact ⟨q, .head ht hr, hq⟩
    · exact ⟨_, .single (Step.finish hs rfl (by omega)), rfl, rfl, .inl rfl⟩

theorem exists_done (h3 : 0 < stride) (p : Pool ε α) (hb : 0 < b) (hw : p.workers = [⟨b, .ask⟩])
    (hl : p.launching = false) : ∃ q, ReflTransGen (Step stride maxidx f) p q ∧ q.Final := by
  induction hk : maxidx - p.nextidx using Nat.strong_induction_on generalizing p b with
  | _ k ih =>
    have hs : p.workers = [] ++ ⟨b, .ask⟩ :: [] := hw
    by_cases hn : p.nextidx < maxidx
    · have ht : Step stride maxidx f p _ := Step.next hs rfl hn
      obtain ⟨q, h1, hx, h2, ha | hd⟩ := exists_batch h3
        { p with
          nextidx := p.nextidx + b
          workers := [⟨b, .range p.nextidx (p.nextidx + b)⟩] } rfl
      · obtain ⟨r, hu, hr⟩ := ih (maxidx - q.nextidx) (by rw [hx]; show _ - (_ + _) < _; omega)
          q (Nat.add_pos_left hb stride) ha (h2.trans hl) rfl
        exact ⟨r, .head ht (h1.trans hu), hr⟩
      · exact ⟨q, .head ht h1, h2.trans hl, by simp [hd]⟩
    · refine ⟨_, .single (Step.leave hs rfl (Nat.le_of_not_lt hn)), hl, ?_⟩
      simp

/-- A pool with one worker comes to its end. -/
theorem exists_final (hs : 0 < stride) (f : ℕ → Except ε α) (maxidx : ℕ) :
    ∃ q, Reached stride maxidx f 1 q ∧ q.Final := by
  by_cases hm : 0 < maxidx
  · have hl : Step stride maxidx f { nworkers := 1 } _ := Step.launch rfl Nat.one_pos hm
    have hp : Step stride maxidx f
        { nworkers := 0, workers := [{ batch := stride }] } _ := Step.stop rfl (.inl rfl)
    obtain ⟨q, hr, hq⟩ := exists_done hs
      { nworkers := 0, launching := false, workers := [{ batch := stride }] } hs rfl rfl
    exact ⟨q, .head hl (.head hp hr), hq⟩
  · exact ⟨_, .single (Step.stop rfl (.inr (Nat.le_of_not_lt hm))), rfl, by simp⟩

end Novarand.Workers
