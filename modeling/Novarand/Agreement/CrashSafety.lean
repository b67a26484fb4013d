import Novarand.Agreement.CertVote
import Novarand.Agreement.Service

/-!
# Crashes and restarts

What the service stores can always be read back. A vote is handed out only after the state which
remembers it has been written, so a restart from that state continues the same run of the player.
There is one exception. Right after a restart the fields `persistRouter`, `persistStatus` and
`persistActions` are still empty, and performing a restored vote again writes them over the state the
service was restored from. If the process crashes before the next vote, the player starts afresh and
has forgotten what it voted.
-/

namespace Novarand.Agreement

open Flat List Option

variable {v : ProposalValue} {l : List Service} {m' : Machine} {err : SerErr} (n : Round)

namespace Service

variable {cfg : Consensus} {s s' : Service} {fuel : ℕ}

/-! ## What a step can do -/

/-- The effects of an action on the service. -/
inductive Performs (s : Service) : Action → Service → Prop
  | attest (r : Round) (p : Period) (q : Agreement.Step) (v : ProposalValue) (as : List Address) :
      Performs s (.attest r p q v) { s with
        tasks := s.tasks ++ [⟨r, p, q, v, as, some s.channels⟩]
        requests := s.requests ++ [⟨s.persist, s.channels⟩]
        channels := s.channels + 1 }
  | repropose (r : Round) (p : Period) (v : ProposalValue) (as : List Address) :
      Performs s (.repropose r p v) { s with
        tasks := s.tasks ++ [⟨r, p, propose, v, as, none⟩] }
  | close (r : Round) (p : Period) (q : Agreement.Step) (c : ℕ) :
      Performs s (.checkpoint r p q .nil (some c)) { s with closed := c :: s.closed }
  | nothing (a : Action) : Performs s a s

theorem performs (s : Service) (accounts : Option (List Address)) (a : Action) :
    Performs s a (s.perform accounts a) := by
  cases a with
  | attest r p q v =>
    cases accounts with
    | none => exact .nothing _
    | some as => exact .attest r p q v as
  | repropose r p v =>
    cases accounts with
    | none => exact .nothing _
    | some as => exact .repropose r p v as
  | checkpoint r p q err dn =>
    by_cases he : err = .nil
    · subst he
      cases dn with
      | none => exact .nothing _
      | some c => exact .close r p q c
    · rw [show s.perform accounts (.checkpoint r p q err dn) = s from if_neg he]
      exact .nothing _
  | _ => exact .nothing _

variable {as actions bs : List Action} {version : ConsensusVersion} {c : Choice} {a : Action}
  {e : Event} {f : State} {m : Machine} {t : VotesTask} {p : Period} {q : Agreement.Step}
  {r : Round} {d : DiskState}

/-- A restart is fresh unless the crash state is of the current round. -/
theorem restart_eq (hd : s.crashDb = some d) (ha : d.actions.mapM decodeAction = .ok as) :
    s.restart cfg version = .ok (if d.machine.player.round < s.nextRound then s.fresh cfg version
      else s.restored d.machine as) := by
  have hc : d.decode = .ok (d.machine, as) := by
    simp only [DiskState.decode, ha]
    rfl
  simp only [restart, hd, hc, bind, Except.bind]
  split_ifs <;> rfl

/-- The effects of a step. -/
inductive Does (cfg : Consensus) (s : Service) : Choice → Service → Prop
  | act (accounts : Option (List Address)) (a : Action) (as : List Action) (t : Service)
      (htodo : s.todo = a :: as) (ht : Performs { s with todo := as } a t) :
      Does cfg s (.act accounts) t
  | handle (e : Event) (m : Machine) (as : List Action) (htodo : s.todo = [])
      (hcheck : Event.isCheckpoint e = true → e ∈ s.checkpoints)
      (hf : Handles cfg s.machine [(e, as)] m) :
      Does cfg s (.handle e) { s with
        machine := m
        todo := as
        persist := if persistent as then ⟨m, as⟩ else s.persist
        checkpoints := s.checkpoints.erase e }
  | write (q : PersistentRequest) (qs : List PersistentRequest) (hq : s.requests = q :: qs) :
      Does cfg s (.write .nil) { s with
        requests := qs, crashDb := some q.raw, checkpoints := s.checkpoints ++ [q.checkpoint .nil] }
  | failed (err : SerErr) (q : PersistentRequest) (qs : List PersistentRequest)
      (hq : s.requests = q :: qs) (herr : err ≠ .nil) :
      Does cfg s (.write err) { s with
        requests := qs, checkpoints := s.checkpoints ++ [q.checkpoint err] }
  | release (t : VotesTask) (ts : List VotesTask) (a : Address) (as : List Address)
      (ht : s.tasks = t :: ts) (ha : t.accounts = a :: as)
      (hclosed : ∀ c ∈ t.persistStateDone, c ∈ s.closed) :
      Does cfg s .release { s with
        tasks := { t with accounts := as } :: ts, released := s.released ++ [t.vote a] }
  | finish (t : VotesTask) (ts : List VotesTask) (ht : s.tasks = t :: ts) :
      Does cfg s .finish { s with tasks := ts }
  | ledger (n : Round) (hn : s.lastRound ≤ n) : Does cfg s (.ledger n) { s with lastRound := n }
  | crash (version : ConsensusVersion) (t : Service) (ht : s.restart cfg version = .ok t) :
      Does cfg s (.crash version) t

theorem does_of_step (h : s.step cfg fuel c = some s') : Does cfg s c s' := by
  cases c <;> simp only [Service.step] at h
  case act accounts =>
    split at h
    · rename_i a as hd
      obtain rfl := some.inj h
      exact .act accounts a as _ hd (performs _ _ _)
    · cases h
  case handle e =>
    split_ifs at h with hc
    obtain ⟨hd, ho, hh⟩ := hc
    split at h
    · rename_i m as hf
      obtain rfl := some.inj h
      exact .handle e m as hd hh ⟨e, as, fuel, rfl, ho, trivial, hf⟩
    · cases h
  case write err =>
    split at h
    · rename_i q qs hq
      split_ifs at h with hw he
      · subst he
        obtain rfl := some.inj h
        exact .write q qs hq
      · obtain rfl := some.inj h
        exact .failed err q qs hq he
    · cases h
  case release =>
    split at h
    · rename_i t ts ht
      split at h
      · rename_i a as ha
        split_ifs at h with hl
        obtain rfl := some.inj h
        exact .release t ts a as ht ha hl
      · cases h
    · cases h
  case finish =>
    split at h
    · rename_i t ts ht
      obtain rfl := some.inj h
      exact .finish t ts ht
    · cases h
  case ledger n =>
    split_ifs at h with hn
    obtain rfl := some.inj h
    exact .ledger n hn
  case crash version =>
    cases hr : s.restart cfg version with
    | error e => rw [hr] at h; cases h
    | ok t =>
      rw [hr] at h
      obtain rfl := some.inj h
      exact .crash version _ hr

/-! ## What is stored can be read back -/

/-- A stored state is one of a player, and its actions can be decoded. -/
def Readable (d : DiskState) : Prop :=
  (∃ f, Synced d.machine f) ∧ ∀ c, .stageDigest c ∉ d.actions

theorem readable_blank : Readable {} :=
  ⟨⟨_, ⟨rfl, RouterRel.empty _⟩, Wf.initial _, rfl⟩, by simp⟩

theorem decodeAction_ok (ha : ∀ c, a ≠ .stageDigest c) : ∃ b, decodeAction a = .ok b := by
  cases a with
  | stageDigest c => exact absurd rfl (ha c)
  | _ => exact ⟨_, rfl⟩

theorem decodeActions_ok (h : ∀ c, .stageDigest c ∉ as) : ∃ bs, as.mapM decodeAction = .ok bs := by
  induction as with
  | nil => exact ⟨[], rfl⟩
  | cons a as ih =>
    obtain ⟨b, hb⟩ := decodeAction_ok (a := a) fun c hc => h c (hc ▸ mem_cons_self)
    obtain ⟨bs, hs⟩ := ih fun c hc => h c (mem_cons_of_mem _ hc)
    exact ⟨b :: bs, by rw [mapM_cons, hb, hs]; rfl⟩

/-- What the service holds and has stored can be read back. -/
structure Restorable (s : Service) : Prop where
  machine : ∃ f, Synced s.machine f
  persist : Readable s.persist
  requests : ∀ q ∈ s.requests, Readable q.raw
  crashDb : ∀ d, s.crashDb = some d → Readable d

theorem Restorable.fresh (h : Restorable s) :
    Restorable (s.fresh cfg version) where
  machine := ⟨_, Synced.start _ _⟩
  persist := readable_blank
  requests _ hq := by cases hq
  crashDb := h.crashDb

/-- **Restoring never panics.** -/
theorem Restorable.restart (cfg : Consensus) (h : Restorable s) (version : ConsensusVersion) :
    ∃ s', s.restart cfg version = .ok s' ∧ Restorable s' := by
  cases hd : s.crashDb with
  | none => exact ⟨s.fresh cfg version, by simp only [Service.restart, hd]; rfl, h.fresh⟩
  | some d =>
    obtain ⟨hs, hr⟩ := h.crashDb d hd
    obtain ⟨_, ha⟩ := decodeActions_ok hr
    refine ⟨_, restart_eq hd ha, ?_⟩
    split_ifs
    · exact h.fresh
    · exact ⟨hs, readable_blank, fun _ hq => (by cases hq), h.crashDb⟩

/-- The actions of one event can be read back if they are stored. -/
theorem Synced.readable (hs : Synced m f) (h : Handles cfg m [(e, as)] m')
    (hp : persistent as = true) : Readable ⟨m', as⟩ := by
  obtain ⟨-, f', -, -, hs'⟩ := h.simulates hs
  refine ⟨⟨f', hs'⟩, ?_⟩
  obtain ⟨e', as', _, he, ho, -, hf⟩ := h
  obtain ⟨rfl, rfl⟩ : e = e' ∧ as = as' := by simpa using he
  obtain ⟨a, ha, ht⟩ := any_eq_true.mp hp
  obtain ⟨r, p, q, v, rfl⟩ : ∃ r p q v, a = .attest r p q v := by
    cases a <;> first | exact ⟨_, _, _, _, rfl⟩ | cases ht
  have hn : ∀ r p q err done, e ≠ .checkpoint r p q err done := by
    rintro _ _ _ err done rfl
    simp only [Machine.submitTop, Machine.handle, pure_pair] at hf
    rw [← hf.2] at ha
    simp at ha
  rcases (hs.rel.submitTop_unmixed hs.wf hs.idle ho hn hf).votes with h | h
  · exact h
  · exact absurd ha (h r p q v)

theorem Restorable.does (h : Does cfg s c s') (hs : Restorable s) : Restorable s' := by
  cases h with
  | act _ a as t h1 ht =>
    cases ht with
    | attest =>
      exact ⟨hs.machine, hs.persist, forall_mem_append.mpr
        ⟨hs.requests, forall_mem_singleton.mpr hs.persist⟩, hs.crashDb⟩
    | repropose | close | nothing => exact ⟨hs.machine, hs.persist, hs.requests, hs.crashDb⟩
  | handle e m as h1 _ hf =>
    obtain ⟨f, hy⟩ := hs.machine
    obtain ⟨-, f', -, -, hs'⟩ := hf.simulates hy
    refine ⟨⟨f', hs'⟩, ?_, hs.requests, hs.crashDb⟩
    split_ifs with hp
    · exact Synced.readable hy hf hp
    · exact hs.persist
  | write q qs hq =>
    obtain ⟨hh, hl⟩ := forall_mem_cons.mp (hq ▸ hs.requests)
    refine ⟨hs.machine, hs.persist, hl, ?_⟩
    rintro d hd
    obtain rfl := some.inj hd
    exact hh
  | failed _ q qs hq _ =>
    exact ⟨hs.machine, hs.persist, (forall_mem_cons.mp (hq ▸ hs.requests)).2, hs.crashDb⟩
  | release | finish | ledger => exact ⟨hs.machine, hs.persist, hs.requests, hs.crashDb⟩
  | crash vr t ht =>
    obtain ⟨_, ht', hr⟩ := hs.restart cfg vr
    obtain rfl := Except.ok.inj (ht.symm.trans ht')
    exact hr

theorem Restorable.boot (version : ConsensusVersion) : Restorable (boot cfg n version) :=
  fresh ⟨⟨_, ⟨rfl, RouterRel.empty _⟩, Wf.initial _, rfl⟩, readable_blank,
    fun _ hq => (by cases hq), fun _ hd => (by cases hd)⟩

theorem restorable_of_steps {n : Round} (h : Steps (Step cfg) (boot cfg n version) l s) :
    Restorable s := by
  refine h.invariant (fun s1 l1 s2 hs ht => ?_) (Restorable.boot n version)
  obtain ⟨_, c, hc, -⟩ := ht
  exact hs.does (does_of_step hc)

/-! ## Votes which are remembered -/

/-- A vote of the run `L`, which began in round `r₀`, or of a round before that. -/
def Remembers (r₀ : Round) (L : List (Event × List Action)) (v : RawVote) : Prop :=
  v.step = propose ∨ v.round < r₀ ∨ .attest v.round v.period v.step v.proposal ∈ runActions L

/-- The stored state is that of a run which remembers the votes `V`. -/
def Backs (cfg : Consensus) (d : DiskState) (V : RawVote → Prop) : Prop :=
  ∃ r₀ dl L, Steps (Handles cfg) (.start r₀ dl) L d.machine ∧
    (∀ r p q v, .attest r p q v ∈ d.actions → .attest r p q v ∈ runActions L) ∧
    ∀ v, V v → Remembers r₀ L v

theorem Backs.mono {V W : RawVote → Prop} (h : Backs cfg d V) (hs : ∀ v, W v → V v) :
    Backs cfg d W := by
  obtain ⟨r₀, dl, L, hr, ha, hV⟩ := h
  exact ⟨r₀, dl, L, hr, ha, fun v hv => hV v (hs v hv)⟩

/-- The request on channel `c` was written: the channel is closed, or will be when the checkpoint
event has gone through the player. -/
def Settled (s : Service) (c : ℕ) : Prop :=
  c ∈ s.closed ∨ (∃ r p q, Event.checkpoint r p q .nil (some c) ∈ s.checkpoints) ∨
    ∃ r p q, Action.checkpoint r p q .nil (some c) ∈ s.todo

/-- The votes handed out, and those which wait for a channel in `C`. -/
def Due (s : Service) (C : ℕ → Prop) (v : RawVote) : Prop :=
  v ∈ s.released ∨ ∃ t ∈ s.tasks, ∃ c, t.persistStateDone = some c ∧ C c ∧ ∃ a, v = t.vote a

/-- All votes handed out for one round, period and step before fast recovery are for the same value.
-/
def Unequivocal (vs : List RawVote) : Prop :=
  ∀ v ∈ vs, ∀ v' ∈ vs, v.round = v'.round → v.period = v'.period → v.step = v'.step →
    soft ≤ v.step → v.step < late → v.proposal = v'.proposal

/-- The service continues the run `L` of the player, which remembers all its votes. -/
structure Sound (cfg : Consensus) (r₀ : Round) (dl : Duration) (L : List (Event × List Action))
    (s : Service) : Prop where
  run : Steps (Handles cfg) (.start r₀ dl) L s.machine
  todo : ∀ r p q v, .attest r p q v ∈ s.todo → .attest r p q v ∈ runActions L
  /-- What is stored when a vote is performed is the current state, or blank. -/
  persist : (∃ r p q v, .attest r p q v ∈ s.todo) → s.persist = {} ∨
    s.persist.machine = s.machine ∧
      ∀ r p q v, .attest r p q v ∈ s.persist.actions → .attest r p q v ∈ runActions L
  tasks : ∀ t ∈ s.tasks, t.step = propose ∨ (∃ c, t.persistStateDone = some c) ∧
    .attest t.round t.period t.step t.proposal ∈ runActions L
  released : ∀ v ∈ s.released, Remembers r₀ L v
  unique : Unequivocal s.released
  made : (∀ c, s.Settled c → c < s.channels) ∧ ∀ q ∈ s.requests, q.done < s.channels
  order : s.requests.Pairwise (fun q q' => q.done ≤ q'.done) ∧
    ∀ q ∈ s.requests, ∀ c, s.Settled c → c ≤ q.done
  requests : ∀ q ∈ s.requests, q.raw = {} ∨ Backs cfg q.raw (s.Due (· ≤ q.done))
  crashDb : (s.crashDb = none ∧ (∀ c, ¬ s.Settled c) ∧ ∀ v ∈ s.released, v.step = propose) ∨
    ∃ d, s.crashDb = some d ∧ (d = {} ∨ Backs cfg d (s.Due s.Settled))

variable {r₀ : Round} {dl : Duration} {L : List (Event × List Action)}

theorem Due.mono {C C' : ℕ → Prop} {v : RawVote} (h : s'.Due C v) (hr : s'.released = s.released)
    (hs : s'.tasks ⊆ s.tasks) (hC : ∀ c, C c → C' c) : s.Due C' v := by
  rcases h with hv | ⟨t, ht, c, hc, h1, hv⟩
  · exact .inl (hr ▸ hv)
  · exact .inr ⟨t, hs ht, c, hc, hC c h1, hv⟩

theorem settled_of_subset {c : ℕ} (ht : s'.todo ⊆ s.todo) (hl : s'.closed = s.closed)
    (hh : s'.checkpoints = s.checkpoints) (hc : s'.Settled c) : s.Settled c := by
  rcases hc with hc | hc | ⟨r, p, q, hc⟩
  · exact .inl (hl ▸ hc)
  · exact .inr (.inl (hh ▸ hc))
  · exact .inr (.inr ⟨r, p, q, ht hc⟩)

section

variable (h : Sound cfg r₀ dl L s)
include h

/-- A step which only forgets keeps the service sound. -/
theorem Sound.shrink (hm : s'.machine = s.machine) (h3 : s'.todo ⊆ s.todo)
    (hp : s'.persist = s.persist) (h2 : s'.tasks ⊆ s.tasks)
    (hr : s'.released = s.released) (hh : s'.channels = s.channels)
    (h1 : s'.requests.Sublist s.requests) (h4 : s'.crashDb = s.crashDb)
    (hs : ∀ c, s'.Settled c → s.Settled c) : Sound cfg r₀ dl L s' := by
  refine ⟨hm ▸ h.run, fun r p q v hv => h.todo r p q v (h3 hv), ?_,
    fun t ht => h.tasks t (h2 ht), hr ▸ h.released, hr ▸ h.unique, ?_, ?_,
    fun q hq => ?_, ?_⟩
  · rintro ⟨r, p, q, v, hv⟩
    rw [hp, hm]
    exact h.persist ⟨r, p, q, v, h3 hv⟩
  · rw [hh]
    exact ⟨fun c hc => h.made.1 c (hs c hc), fun q hq => h.made.2 q (h1.subset hq)⟩
  · exact ⟨h.order.1.sublist h1,
      fun q hq c hc => h.order.2 q (h1.subset hq) c (hs c hc)⟩
  · exact (h.requests q (h1.subset hq)).imp_right
      (·.mono fun v hv => hv.mono hr h2 fun _ hc => hc)
  · rw [h4, hr]
    rcases h.crashDb with ⟨hn, hu, h5⟩ | ⟨d, hd, hb⟩
    · exact .inl ⟨hn, fun c hc => hu c (hs c hc), h5⟩
    · exact .inr ⟨d, hd, hb.imp_right (·.mono fun v hv => hv.mono hr h2 hs)⟩

theorem Sound.remembers_task (ht : t ∈ s.tasks) (a : Address) : Remembers r₀ L (t.vote a) := by
  rcases h.tasks t ht with hp | ⟨-, hv⟩
  · exact .inl hp
  · exact .inr (.inr hv)

/-- Performing a vote stores the current state, which remembers the vote. -/
theorem Sound.attest (h2 : s.todo = .attest r p q v :: as) (accounts : List Address) :
    let s' : Service := { s with
      todo := as
      tasks := s.tasks ++ [⟨r, p, q, v, accounts, some s.channels⟩]
      requests := s.requests ++ [⟨s.persist, s.channels⟩]
      channels := s.channels + 1 }
    Sound cfg r₀ dl L s' := by
  intro s'
  have hs : as ⊆ s.todo := h2 ▸ subset_cons_self _ _
  have hh : .attest r p q v ∈ s.todo := h2 ▸ mem_cons_self
  have h1 : ∀ c, s'.Settled c → s.Settled c := fun c => settled_of_subset hs rfl rfl
  -- the new channel is in no set of channels made before
  have hu : ∀ C C' : ℕ → Prop, (∀ c, C c → C' c) → (∀ c, C c → c < s.channels) →
      ∀ w, s'.Due C w → s.Due C' w := by
    rintro C C' hC hl w (hw | ⟨t, ht, c, hc, h3, hw⟩)
    · exact .inl hw
    · rcases mem_append.mp ht with ht | ht
      · exact .inr ⟨t, ht, c, hc, hC c h3, hw⟩
      · rw [mem_singleton.mp ht, some.injEq] at hc
        exact absurd (hl c h3) (hc ▸ lt_irrefl _)
  have h4 : ∀ t ∈ s'.tasks, t.step = propose ∨ (∃ c, t.persistStateDone = some c) ∧
      .attest t.round t.period t.step t.proposal ∈ runActions L :=
    forall_mem_append.mpr ⟨h.tasks, forall_mem_singleton.mpr (.inr ⟨⟨_, rfl⟩, h.todo r p q v hh⟩)⟩
  refine ⟨h.run, fun r p q v hv => h.todo r p q v (hs hv), fun ⟨r, p, q, v, hv⟩ =>
    h.persist ⟨r, p, q, v, hs hv⟩, h4, h.released, h.unique, ⟨fun c hc => ?_, ?_⟩,
    ⟨?_, fun q' hq c hc => ?_⟩, fun q' hq => ?_, ?_⟩
  · exact Nat.lt_succ_of_lt (h.made.1 c (h1 c hc))
  · exact forall_mem_append.mpr ⟨fun q' hq => Nat.lt_succ_of_lt (h.made.2 q' hq),
      forall_mem_singleton.mpr (Nat.lt_succ_self _)⟩
  · refine pairwise_append.mpr ⟨h.order.1, pairwise_singleton _ _, fun q1 hq1 q2 hq2 => ?_⟩
    rw [mem_singleton.mp hq2]
    exact (h.made.2 q1 hq1).le
  · rcases mem_append.mp hq with hq | hq
    · exact h.order.2 q' hq c (h1 c hc)
    · rw [mem_singleton.mp hq]
      exact (h.made.1 c (h1 c hc)).le
  · rcases mem_append.mp hq with hq | hq
    · exact (h.requests q' hq).imp_right (·.mono (hu _ _ (fun _ hc => hc)
        fun c hc => lt_of_le_of_lt hc (h.made.2 q' hq)))
    · rw [mem_singleton.mp hq]
      refine (h.persist ⟨r, p, q, v, hh⟩).imp_right fun ⟨hm, ha⟩ => ?_
      refine ⟨r₀, dl, L, hm ▸ h.run, ha, fun w hw => ?_⟩
      rcases hw with hw | ⟨t, ht, -, -, -, a, rfl⟩
      · exact h.released w hw
      · rcases h4 t ht with hp | ⟨-, hv⟩
        · exact .inl hp
        · exact .inr (.inr hv)
  · rcases h.crashDb with ⟨hn, h5, hp⟩ | ⟨d, hd, hb⟩
    · exact .inl ⟨hn, fun c hc => h5 c (h1 c hc), hp⟩
    · exact .inr ⟨d, hd, hb.imp_right (·.mono (hu _ _ h1
        fun c hc => h.made.1 c (h1 c hc)))⟩

theorem Sound.performs {t : Service} (h1 : s.todo = a :: as)
    (ht : Performs { s with todo := as } a t) : Sound cfg r₀ dl L t := by
  have hs : as ⊆ s.todo := h1 ▸ subset_cons_self _ _
  cases ht with
  | attest r p q v ac => exact h.attest h1 ac
  | repropose r p v ac =>
    have ho : Sound cfg r₀ dl L { s with todo := as } :=
      h.shrink rfl hs rfl (List.Subset.refl _) rfl rfl (List.Sublist.refl _) rfl
        fun c => settled_of_subset hs rfl rfl
    -- a reproposal waits for no channel
    have hu : ∀ C v', Due { s with
        todo := as, tasks := s.tasks ++ [⟨r, p, propose, v, ac, none⟩] } C v' →
        Due { s with todo := as } C v' := by
      rintro C v' (hv | ⟨t, ht, c, hc, h2, hv⟩)
      · exact .inl hv
      · rcases mem_append.mp ht with ht | ht
        · exact .inr ⟨t, ht, c, hc, h2, hv⟩
        · rw [mem_singleton.mp ht] at hc
          cases hc
    refine ⟨ho.run, ho.todo, ho.persist, ?_, ho.released, ho.unique, ho.made, ho.order,
      fun q hq => (ho.requests q hq).imp_right (·.mono (hu _)), ?_⟩
    · exact forall_mem_append.mpr ⟨ho.tasks, forall_mem_singleton.mpr (.inl rfl)⟩
    · exact ho.crashDb.imp_right fun ⟨d, hd, hb⟩ =>
        ⟨d, hd, hb.imp_right (·.mono (hu _))⟩
  | close r p q c =>
    refine h.shrink rfl hs rfl (List.Subset.refl _) rfl rfl (List.Sublist.refl _) rfl ?_
    rintro _ (hc | hc | ⟨r', p', q', hc⟩)
    · rcases mem_cons.mp hc with rfl | hc
      · exact .inr (.inr ⟨r, p, q, h1 ▸ mem_cons_self⟩)
      · exact .inl hc
    · exact .inr (.inl hc)
    · exact .inr (.inr ⟨r', p', q', hs hc⟩)
  | nothing =>
    exact h.shrink rfl hs rfl (List.Subset.refl _) rfl rfl (List.Sublist.refl _) rfl
      fun c => settled_of_subset hs rfl rfl

end

theorem Remembers.append {v : RawVote} (h : Remembers r₀ L v) (L' : List (Event × List Action)) :
    Remembers r₀ (L ++ L') v := by
  refine h.imp_right (Or.imp_right fun h => ?_)
  rw [runActions, flatMap_append]
  exact mem_append_left _ h

/-- A checkpoint is reported only when its event arrives. -/
theorem checkpoint_event (hs : Synced m f) (h : Handles cfg m [(e, as)] m') {done : Option ℕ}
    (hm : .checkpoint r p q err done ∈ as) : e = .checkpoint r p q err done := by
  obtain ⟨e', as', _, he, ho, -, hf⟩ := h
  obtain ⟨rfl, rfl⟩ : e = e' ∧ as = as' := by simpa using he
  by_cases hn : ∀ r p q err done, e ≠ .checkpoint r p q err done
  · exact absurd hm ((hs.rel.submitTop_unmixed hs.wf hs.idle ho hn hf).checkpoints
      r p q err done)
  · push Not at hn
    obtain ⟨_, _, _, _, _, rfl⟩ := hn
    simp only [Machine.submitTop, Machine.handle, pure_pair] at hf
    rw [← hf.2, mem_singleton] at hm
    cases hm
    rfl

section

variable (h : Sound cfg r₀ dl L s)
include h

theorem Sound.handle (hh : Event.isCheckpoint e = true → e ∈ s.checkpoints)
    (hy : Synced s.machine f) (hf : Handles cfg s.machine [(e, as)] m) :
    let s' : Service := { s with
      machine := m
      todo := as
      persist := if persistent as then ⟨m, as⟩ else s.persist
      checkpoints := s.checkpoints.erase e }
    Sound cfg r₀ dl (L ++ [(e, as)]) s' := by
  intro s'
  have ha : ∀ r p q v, .attest r p q v ∈ as →
      .attest r p q v ∈ runActions (L ++ [(e, as)]) := by
    intro r p q v hv
    rw [runActions, flatMap_append, flatMap_singleton]
    exact mem_append_right _ hv
  have hs : ∀ c, s'.Settled c → s.Settled c := by
    rintro c (hc | ⟨r, p, q, hc⟩ | ⟨r, p, q, hc⟩)
    · exact .inl hc
    · exact .inr (.inl ⟨r, p, q, mem_of_mem_erase hc⟩)
    · obtain rfl := checkpoint_event hy hf hc
      exact .inr (.inl ⟨r, p, q, hh rfl⟩)
  refine ⟨h.run.tail hf, ha, ?_, fun t ht => ?_,
    fun v hv => (h.released v hv).append _, h.unique,
    ⟨fun c hc => h.made.1 c (hs c hc), h.made.2⟩,
    ⟨h.order.1, fun q hq c hc => h.order.2 q hq c (hs c hc)⟩,
    h.requests, ?_⟩
  · rintro ⟨r, p, q, v, hv⟩
    have hp : persistent as = true := any_eq_true.mpr ⟨_, hv, rfl⟩
    right
    simp only [s', hp, if_true]
    exact ⟨trivial, ha⟩
  · refine (h.tasks t ht).imp_right (And.imp_right fun hv => ?_)
    rw [runActions, flatMap_append]
    exact mem_append_left _ hv
  · rcases h.crashDb with ⟨hn, hu, hr⟩ | ⟨d, hd, hb⟩
    · exact .inl ⟨hn, fun c hc => hu c (hs c hc), hr⟩
    · exact .inr ⟨d, hd, hb.imp_right (·.mono fun v hv => hv.mono rfl (List.Subset.refl _) hs)⟩

/-- A written request settles its channel; the votes which wait for it are in the written state. -/
theorem Sound.write {q : PersistentRequest} {qs : List PersistentRequest}
    (hq : s.requests = q :: qs) :
    let s' : Service := { s with
      requests := qs, crashDb := some q.raw, checkpoints := s.checkpoints ++ [q.checkpoint .nil] }
    Sound cfg r₀ dl L s' := by
  intro s'
  have hm : q ∈ s.requests := hq ▸ mem_cons_self
  have hs : ∀ q' ∈ qs, q' ∈ s.requests := fun q' hq' => hq ▸ mem_cons_of_mem _ hq'
  have hp := h.order.1
  rw [hq, pairwise_cons] at hp
  have ht : ∀ c, s'.Settled c → s.Settled c ∨ c = q.done := by
    rintro c (hc | ⟨r, p, st, hc⟩ | hc)
    · exact .inl (.inl hc)
    · rcases mem_append.mp hc with hc | hc
      · exact .inl (.inr (.inl ⟨r, p, st, hc⟩))
      · rw [mem_singleton] at hc
        cases hc
        exact .inr rfl
    · exact .inl (.inr (.inr hc))
  refine ⟨h.run, h.todo, h.persist, h.tasks, h.released, h.unique, ⟨fun c hc => ?_, fun q' hq' =>
    h.made.2 q' (hs q' hq')⟩, ⟨hp.2, fun q' hq' c hc => ?_⟩, fun q' hq' => ?_, .inr ⟨q.raw, rfl, ?_⟩⟩
  · rcases ht c hc with hc | rfl
    · exact h.made.1 c hc
    · exact h.made.2 q hm
  · rcases ht c hc with hc | rfl
    · exact h.order.2 q' (hs q' hq') c hc
    · exact hp.1 q' hq'
  · exact h.requests q' (hs q' hq')
  · refine (h.requests q hm).imp_right (·.mono fun v hv =>
      hv.mono rfl (List.Subset.refl _) fun c hc => ?_)
    rcases ht c hc with hc | rfl
    · exact h.order.2 q hm c hc
    · exact le_rfl

/-- A vote is handed out only if it agrees with those handed out before. -/
theorem Sound.unequivocal_append (ht : t ∈ s.tasks) (a : Address) :
    Unequivocal (s.released ++ [t.vote a]) := by
  have hu := runVotes_of_steps h.run
  -- the vote is of the current run, so earlier votes for the same step are of this run, too
  have ho : ∀ v ∈ s.released, v.round = t.round → v.period = t.period → v.step = t.step →
      soft ≤ v.step → v.step < late → v.proposal = t.proposal := by
    intro v hv hr hp hq hs hl
    have h1 : v.step ≠ propose := by lia
    have h2 := (h.tasks t ht).resolve_left (hq ▸ h1)
    rcases h.released v hv with hv | hv | hv
    · exact absurd hv h1
    · exact absurd (hu.since h2.2) (hr ▸ not_le.mpr hv)
    · rw [hr, hp, hq] at hv
      exact hu.unique (hq ▸ hl) hv h2.2
  intro v hv v' hv' hr hp hq hs hl
  rcases mem_append.mp hv with hv | hv <;> rcases mem_append.mp hv' with hv' | hv'
  · exact h.unique v hv v' hv' hr hp hq hs hl
  · obtain rfl := mem_singleton.mp hv'
    exact ho v hv hr hp hq hs hl
  · obtain rfl := mem_singleton.mp hv
    exact (ho v' hv' hr.symm hp.symm hq.symm (hq ▸ hs) (hq ▸ hl)).symm
  · rw [mem_singleton.mp hv, mem_singleton.mp hv']

theorem Sound.release {ts : List VotesTask} {a : Address} {as : List Address}
    (ht : s.tasks = t :: ts) (hl : ∀ c ∈ t.persistStateDone, c ∈ s.closed) :
    let s' : Service := { s with
      tasks := { t with accounts := as } :: ts, released := s.released ++ [t.vote a] }
    Sound cfg r₀ dl L s' := by
  intro s'
  have hm : t ∈ s.tasks := ht ▸ mem_cons_self
  -- the vote was due before, as its channel is closed
  have h2 : ∀ C : ℕ → Prop, (∀ c, s.Settled c → C c) → ∀ v, s'.Due C v →
      v.step = propose ∨ s.Due C v := by
    rintro C hC v (hv | ⟨t', ht', c, hc, h1, hv⟩)
    · rcases mem_append.mp hv with hv | hv
      · exact .inr (.inl hv)
      · rw [mem_singleton.mp hv]
        rcases h.tasks t hm with hp | ⟨⟨c, hc⟩, -⟩
        · exact .inl hp
        · exact .inr (.inr ⟨t, hm, c, hc, hC c (.inl (hl c hc)), a, rfl⟩)
    · rcases mem_cons.mp ht' with rfl | ht'
      · exact .inr (.inr ⟨t, hm, c, hc, h1, hv⟩)
      · exact .inr (.inr ⟨t', ht ▸ mem_cons_of_mem _ ht', c, hc, h1, hv⟩)
  have hb : ∀ d (C : ℕ → Prop), (∀ c, s.Settled c → C c) → Backs cfg d (s.Due C) →
      Backs cfg d (s'.Due C) := by
    rintro d C hC ⟨r1, d1, L1, hr, ha, hV⟩
    exact ⟨r1, d1, L1, hr, ha, fun v hv => (h2 C hC v hv).elim .inl (hV v)⟩
  refine ⟨h.run, h.todo, h.persist, fun t' ht' => ?_, ?_, h.unequivocal_append hm a,
    h.made, h.order, fun q hq => (h.requests q hq).imp_right (hb _ _ (h.order.2 q hq)), ?_⟩
  · rcases mem_cons.mp ht' with rfl | ht'
    · exact h.tasks t hm
    · exact h.tasks t' (ht ▸ mem_cons_of_mem _ ht')
  · exact forall_mem_append.mpr
      ⟨h.released, forall_mem_singleton.mpr (h.remembers_task hm a)⟩
  · rcases h.crashDb with ⟨hn, hu, hp⟩ | ⟨d, hd, hd'⟩
    · refine .inl ⟨hn, hu, forall_mem_append.mpr
        ⟨hp, forall_mem_singleton.mpr ?_⟩⟩
      rcases h.tasks t hm with hp | ⟨⟨c, hc⟩, -⟩
      · exact hp
      · exact absurd (.inl (hl c hc)) (hu c)
    · exact .inr ⟨d, hd, hd'.imp_right (hb d _ fun _ hc => hc)⟩

end

/-! ## Crashes -/

/-- The crash database does not hold the blank state, or all votes handed out are of rounds the
ledger has concluded. -/
def Intact (s : Service) : Prop :=
  s.crashDb = some {} → ∀ v ∈ s.released, v.step ≠ propose → v.round < s.nextRound

/-- After a restart nothing is under way. -/
theorem Sound.restarted (hr : Steps (Handles cfg) (.start r₀ dl) L m)
    (h1 : ∀ r p q v, .attest r p q v ∈ actions → .attest r p q v ∈ runActions L)
    (hh : ∀ r p q c, .checkpoint r p q .nil (some c) ∉ actions)
    (hl : ∀ v ∈ s.released, Remembers r₀ L v) (hu : Unequivocal s.released)
    (h2 : (s.crashDb = none ∧ ∀ v ∈ s.released, v.step = propose) ∨
      ∃ d, s.crashDb = some d ∧ (d = {} ∨ Backs cfg d (· ∈ s.released))) :
    Sound cfg r₀ dl L (s.restored m actions) := by
  have hs : ∀ c, ¬ (s.restored m actions).Settled c := by
    rintro c (hc | ⟨r, p, q, hc⟩ | ⟨r, p, q, hc⟩)
    · cases hc
    · cases hc
    · exact hh r p q c hc
  have h3 : ∀ C v, (s.restored m actions).Due C v → v ∈ s.released := by
    rintro C v (hv | ⟨t, ht, -⟩)
    · exact hv
    · cases ht
  refine ⟨hr, h1, fun _ => .inl rfl, fun t ht => (by cases ht), hl, hu,
    ⟨fun c hc => absurd hc (hs c), fun q hq => (by cases hq)⟩,
    ⟨.nil, fun q hq => (by cases hq)⟩, fun q hq => (by cases hq), ?_⟩
  exact h2.imp (fun ⟨hn, hp⟩ => ⟨hn, hs, hp⟩)
    fun ⟨d, hd, hb⟩ => ⟨d, hd, hb.imp_right (·.mono (h3 _))⟩

theorem Sound.fresh (h : Sound cfg r₀ dl L s)
    (ho : ∀ v ∈ s.released, v.step ≠ propose → v.round < s.nextRound) :
    Sound cfg s.nextRound (filterTimeout cfg 0 version) [] (s.fresh cfg version) := by
  refine restarted (s := s) (.refl _) (by simp) (by simp) (fun v hv => ?_) h.unique ?_
  · by_cases hp : v.step = propose
    · exact .inl hp
    · exact .inr (.inl (ho v hv hp))
  · exact h.crashDb.imp (fun ⟨hn, _, hp⟩ => ⟨hn, hp⟩)
      fun ⟨d, hd, hb⟩ => ⟨d, hd, hb.imp_right (·.mono fun _ hv => .inl hv)⟩

theorem decodeAction_attest (h : decodeAction a = .ok (.attest r p q v)) : a = .attest r p q v := by
  cases a with
  | attest => simpa only [decodeAction, pure_ok] using h
  | stageDigest c => cases h
  | _ => simp [decodeAction, pure_ok] at h

theorem decodeAction_checkpoint {c : ℕ} :
    decodeAction a ≠ .ok (.checkpoint r p q err (some c)) := by
  intro h
  cases a with
  | stageDigest c => cases h
  | _ => simp [decodeAction, pure_ok] at h

/-- Decoding an action list keeps its votes and forgets its channels. -/
theorem decoded_actions (h : as.mapM decodeAction = .ok bs) :
    (∀ r p q v, .attest r p q v ∈ bs → .attest r p q v ∈ as) ∧
      ∀ r p q c, .checkpoint r p q .nil (some c) ∉ bs := by
  induction as generalizing bs with
  | nil =>
    obtain rfl : [] = bs := Except.ok.inj h
    simp
  | cons a as ih =>
    simp only [mapM_cons, bind_ok, pure_ok] at h
    obtain ⟨b, hb, _, hs, rfl⟩ := h
    obtain ⟨ht, hh⟩ := ih hs
    refine ⟨fun r p q v hv => ?_, fun r p q c hc => ?_⟩
    · rcases mem_cons.mp hv with rfl | hv
      · rw [decodeAction_attest hb]
        exact mem_cons_self
      · exact mem_cons_of_mem _ (ht r p q v hv)
    · rcases mem_cons.mp hc with rfl | hc
      · exact decodeAction_checkpoint hb
      · exact hh r p q c hc

/-- A restart from an intact state continues a run which remembers all votes. -/
theorem Sound.restart {t : Service} (h : Sound cfg r₀ dl L s) (h3 : Restorable s) (hi : Intact s)
    (ht : s.restart cfg version = .ok t) : ∃ r1 d1 L1, Sound cfg r1 d1 L1 t := by
  rcases h.crashDb with ⟨hb, -, hp⟩ | ⟨d, hb, hd⟩
  · obtain rfl : s.fresh cfg version = t := by
      simp only [Service.restart, hb, pure_ok] at ht
      exact ht
    exact ⟨_, _, _, h.fresh fun v hv hn => absurd (hp v hv) hn⟩
  · obtain ⟨_, ha⟩ := decodeActions_ok (h3.crashDb d hb).2
    obtain rfl := Except.ok.inj ((restart_eq hb ha).symm.trans ht)
    split_ifs with ho
    · refine ⟨_, _, _, h.fresh fun v hv hn => ?_⟩
      rcases hd with rfl | ⟨r1, d1, L1, hr, -, hV⟩
      · exact hi hb v hv hn
      · have h1 := runVotes_of_steps hr
        rcases hV v (.inl hv) with hv | hv | hv
        · exact absurd hv hn
        · exact hv.trans (h1.start.trans_lt ho)
        · exact (h1.upTo hv).trans_lt ho
    · rcases hd with rfl | ⟨r1, d1, L1, hr, h2, hV⟩
      · exact absurd (Nat.succ_pos s.lastRound) ho
      · obtain ⟨h1, hc⟩ := decoded_actions ha
        refine ⟨r1, d1, L1, Sound.restarted hr (fun r p q v hv => h2 r p q v (h1 r p q v hv))
          hc (fun v hv => hV v (.inl hv)) h.unique (.inr ⟨d, hb, .inr ?_⟩)⟩
        exact ⟨r1, d1, L1, hr, h2, fun v hv => hV v (.inl hv)⟩

theorem Sound.does (h : Sound cfg r₀ dl L s) (hr : Restorable s) (hd : Does cfg s c s')
    (hi : ∀ version, c = .crash version → Intact s) : ∃ r1 d1 L1, Sound cfg r1 d1 L1 s' := by
  cases hd with
  | act _ a as t h1 ht => exact ⟨r₀, dl, L, h.performs h1 ht⟩
  | handle e m as h1 hh hf =>
    obtain ⟨f, hs⟩ := hr.machine
    exact ⟨r₀, dl, _, h.handle hh hs hf⟩
  | write q qs hq => exact ⟨r₀, dl, L, h.write hq⟩
  | failed _ q qs hq he =>
    refine ⟨r₀, dl, L, h.shrink rfl (List.Subset.refl _) rfl (List.Subset.refl _) rfl rfl ?_ rfl ?_⟩
    · rw [hq]
      exact sublist_cons_self _ _
    · rintro c (hc | ⟨r, p, st, hc⟩ | hc)
      · exact .inl hc
      · rcases mem_append.mp hc with hc | hc
        · exact .inr (.inl ⟨r, p, st, hc⟩)
        · rw [mem_singleton, PersistentRequest.checkpoint, Event.checkpoint.injEq] at hc
          exact absurd hc.2.2.2.1.symm he
      · exact .inr (.inr hc)
  | release t ts a as ht _ hl => exact ⟨r₀, dl, L, h.release ht hl⟩
  | finish t ts ht =>
    refine ⟨r₀, dl, L, h.shrink rfl (List.Subset.refl _) rfl ?_ rfl rfl (List.Sublist.refl _) rfl
      fun _ hc => hc⟩
    rw [ht]
    exact subset_cons_self _ _
  | ledger n _ =>
    exact ⟨r₀, dl, L, h.shrink rfl (List.Subset.refl _) rfl (List.Subset.refl _) rfl rfl
      (List.Sublist.refl _) rfl fun _ hc => hc⟩
  | crash version t ht => exact h.restart hr (hi version rfl) ht

theorem Sound.boot (version : ConsensusVersion) :
    Sound cfg (n + 1) (filterTimeout cfg 0 version) [] (boot cfg n version) :=
  restarted (s := { machine := {}, todo := [], lastRound := n }) (.refl _) (by simp) (by simp)
    (by simp) (fun _ hv => (by cases hv)) (.inl ⟨rfl, by simp⟩)

/-- **Crash-safe voting.** Restoring never panics. If at every crash the state is intact, all votes
handed out for one round, period and step, before the fast recovery steps, are for one value. -/
theorem crash_safe {n : Round} {version : ConsensusVersion} {l : List Service}
    (h : Steps (Step cfg) (boot cfg n version) l s) :
    (∀ version', ∃ s', s.restart cfg version' = .ok s') ∧
      ((∀ s₀ ∈ l, Intact s₀) → Unequivocal s.released) := by
  refine ⟨fun version' => ?_, fun hi => ?_⟩
  · obtain ⟨s', hs', -⟩ := (restorable_of_steps h).restart cfg version'
    exact ⟨s', hs'⟩
  · have hn : ∃ r1 d1 L1, Sound cfg r1 d1 L1 s := by
      induction h with
      | refl => exact ⟨_, _, _, Sound.boot n version⟩
      | tail hr ht ih =>
        obtain ⟨r1, d1, L1, hs⟩ := ih fun s₀ hs0 => hi s₀ (mem_append_left _ hs0)
        obtain ⟨_, c, hc, rfl⟩ := ht
        refine hs.does (restorable_of_steps hr) (does_of_step hc) ?_
        rintro version' rfl
        exact hi _ (mem_append_right _ mem_cons_self)
    obtain ⟨r1, d1, L1, hs⟩ := hn
    exact hs.unique

/-! ## Runs -/

/-- Take one step after the other; also returns the states before the crashes. -/
def run (cfg : Consensus) (fuel : ℕ) : Service → List Choice → Option (Service × List Service)
  | s, [] => some (s, [])
  | s, c :: cs =>
    match s.step cfg fuel c with
    | some t => (t.run cfg fuel cs).map fun x => (x.1, (match c with
        | .crash _ => [s]
        | _ => []) ++ x.2)
    | none => none

theorem run_steps {cs : List Choice} (h : s.run cfg fuel cs = some (s', l)) :
    Steps (Step cfg) s l s' := by
  induction cs generalizing s l with
  | nil =>
    obtain ⟨rfl, rfl⟩ := Prod.mk.inj (some.inj h)
    exact .refl s
  | cons c cs ih =>
    simp only [run] at h
    split at h
    · rename_i t ht
      obtain ⟨⟨_, _⟩, hr, he⟩ := map_eq_some_iff.mp h
      obtain ⟨rfl, rfl⟩ := Prod.mk.inj he
      exact Steps.head ⟨fuel, c, ht, rfl⟩ (ih hr)
    · cases h

/-- From a fresh start in round 1, account 5 soft-votes `pv`, and the vote goes out. -/
def voteChoices (proposer : Address) (pv : ProposalValue) : List Choice :=
  [.act none, .act none, .handle (soloProposalVote (soloVote proposer 1 0 propose pv)), .act none,
    .handle (soloPayload 1 pv), .act none, .handle (.timeout 0), .act (some [5]), .write .nil,
    .handle (.checkpoint 1 0 cert .nil (some 0)), .act none, .release]

/-- After a crash the vote is made again, and goes out a second time. -/
theorem crash_safe_again :
    ∃ l s, Steps (Step soloConsensus) (boot soloConsensus 0 0) l s ∧ l ≠ [] ∧
      s.released = [⟨5, 1, 0, soft, valueA⟩, ⟨5, 1, 0, soft, valueA⟩] ∧
      (∀ version, ∃ s', s.restart soloConsensus version = .ok s') ∧ Unequivocal s.released := by
  have hr : ((boot soloConsensus 0 0).run soloConsensus 1 (voteChoices 4 valueA ++ [.crash 0,
      .act (some [5]), .write .nil, .handle (.checkpoint 0 0 0 .nil (some 0)), .act none,
      .release])).map (fun x => decide (x.2 ≠ [] ∧
        (∀ s0 ∈ x.2, ∀ d ∈ s0.crashDb, d.machine.player.round ≠ 0) ∧
        x.1.released = [⟨5, 1, 0, soft, valueA⟩, ⟨5, 1, 0, soft, valueA⟩])) = some true := by
    decide +kernel
  obtain ⟨⟨s, l⟩, hs, hd⟩ := map_eq_some_iff.mp hr
  obtain ⟨hl, h1, h2⟩ := of_decide_eq_true hd
  have ht := run_steps hs
  have hi : ∀ s0 ∈ l, Intact s0 := fun s0 hs0 hb => absurd rfl (h1 s0 hs0 {} hb)
  obtain ⟨h3, hu⟩ := crash_safe ht
  exact ⟨l, s, ht, hl, h2, h3, hu hi⟩

/-- The vote is made again after a crash, which writes the blank state; after a second crash the
player starts afresh and soft-votes another value. -/
theorem blank_state_forgets_vote :
    ∃ l s, Steps (Step soloConsensus) (boot soloConsensus 0 0) l s ∧
      s.released = [⟨5, 1, 0, soft, valueA⟩, ⟨5, 1, 0, soft, valueB⟩] ∧
      ¬ Unequivocal s.released := by
  have hr : ((boot soloConsensus 0 0).run soloConsensus 1 (voteChoices 4 valueA ++ [.crash 0,
      .act (some [5]), .write .nil, .crash 0] ++ voteChoices 6 valueB)).map (fun x =>
        decide (x.1.released = [⟨5, 1, 0, soft, valueA⟩, ⟨5, 1, 0, soft, valueB⟩])) = some true := by
    decide +kernel
  obtain ⟨⟨s, l⟩, hs, hd⟩ := map_eq_some_iff.mp hr
  have hl : s.released = _ := of_decide_eq_true hd
  refine ⟨l, s, run_steps hs, hl, fun hu => ?_⟩
  rw [hl] at hu
  have he : valueA = valueB := hu ⟨5, 1, 0, soft, valueA⟩ (by simp) ⟨5, 1, 0, soft, valueB⟩
    (by simp) rfl rfl rfl le_rfl (by decide)
  exact absurd he (by decide)

end Service

end Novarand.Agreement
