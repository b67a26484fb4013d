import Novarand.Ledger.Basics

/-!
# Waiting for a round

The channels that `Wait` of the ledger returns, through commits and reloads.
-/

namespace Novarand.Ledger

open List

/-- A channel, made for a round. -/
structure Channel where
  round : Round
  serial : ℕ
  deriving DecidableEq

structure Bulletin where
  /-- The channels of the map, one for each round. -/
  pendingNotificationRequests : List Channel := []
  latestRound : Round := 0
  /-- The channels that are closed, and those that `Wait` returned. -/
  closed : List Channel := []
  returned : List Channel := []
  /-- The latest round that is committed. -/
  committed : Round := 0

namespace Bulletin

variable (s : Bulletin)

def makeNotifier (round : Round) : Channel := { round, serial := s.returned.length }

def wait (round : Round) : Bulletin :=
  if round ≤ s.latestRound then
    { s with
      closed := s.makeNotifier round :: s.closed
      returned := s.makeNotifier round :: s.returned }
  else match s.pendingNotificationRequests.find? (·.round = round) with
    | some signal => { s with returned := signal :: s.returned }
    | none =>
      { s with
        pendingNotificationRequests := s.makeNotifier round :: s.pendingNotificationRequests
        returned := s.makeNotifier round :: s.returned }

def committedUpTo (rnd : Round) : Bulletin :=
  { s with
    closed := s.closed ++ s.pendingNotificationRequests.filter (·.round ≤ rnd)
    pendingNotificationRequests := s.pendingNotificationRequests.filter (rnd < ·.round)
    latestRound := rnd
    committed := max s.committed rnd }

/-- `loadFromDisk`. The blocks on disk end at the committed round, or at `latest` after a catchpoint.
-/
def loadFromDisk (latest : Round) : Bulletin :=
  { s with
    pendingNotificationRequests := []
    latestRound := max s.committed latest
    committed := max s.committed latest }

inductive Op
  | wait (round : Round)
  | committedUpTo (rnd : Round)
  | loadFromDisk (latest : Round)

def step : Op → Bulletin
  | .wait round => s.wait round
  | .committedUpTo rnd => s.committedUpTo rnd
  | .loadFromDisk latest => s.loadFromDisk latest

def run (ops : List Op) : Bulletin := ops.foldl step {}

variable {s} {ops : List Op}

/-- No channel is closed early, and those of the map are open. -/
structure Inv (s : Bulletin) : Prop where
  pending : ∀ ch ∈ s.pendingNotificationRequests, ch ∈ s.returned ∧ ch ∉ s.closed
  closed : ∀ ch ∈ s.closed, ch ∈ s.returned ∧ ch.round ≤ s.committed
  fresh : ∀ ch ∈ s.returned, ch.serial < s.returned.length
  latest : s.latestRound ≤ s.committed

/-- No channel is lost. -/
def Kept (s : Bulletin) : Prop :=
  ∀ ch ∈ s.returned, ch ∈ s.closed ∨ ch ∈ s.pendingNotificationRequests

/-- A new channel is not one that was returned. -/
theorem Inv.notMem (h : s.Inv) (round : Round) : s.makeNotifier round ∉ s.returned :=
  fun hc => absurd (h.fresh _ hc) (lt_irrefl _)

/-- What a wait adds: a channel that is closed, one of the map, or a new one in the map. -/
theorem wait_cases (s : Bulletin) (round : Round) :
    (round ≤ s.latestRound ∧ s.wait round = { s with
      closed := s.makeNotifier round :: s.closed
      returned := s.makeNotifier round :: s.returned }) ∨
    (∃ ch ∈ s.pendingNotificationRequests, s.wait round = { s with returned := ch :: s.returned }) ∨
    s.wait round = { s with
      pendingNotificationRequests := s.makeNotifier round :: s.pendingNotificationRequests
      returned := s.makeNotifier round :: s.returned } := by
  unfold wait
  split_ifs with hl
  · exact .inl ⟨hl, rfl⟩
  · split
    case h_1 ch hs => exact .inr (.inl ⟨ch, mem_of_find?_eq_some hs, rfl⟩)
    case h_2 => exact .inr (.inr rfl)

theorem Inv.step (h : s.Inv) (op : Op) : (s.step op).Inv := by
  obtain ⟨_, _, _, _⟩ := h
  cases op with
  | wait round =>
    have hs : (s.makeNotifier round).serial = s.returned.length := rfl
    have hr : (s.makeNotifier round).round = round := rfl
    show (s.wait round).Inv
    obtain ⟨_, he⟩ | ⟨_, _, he⟩ | he := s.wait_cases round
    all_goals
      rw [he]
      constructor <;> grind
  | committedUpTo rnd =>
    show (s.committedUpTo rnd).Inv
    unfold committedUpTo
    constructor <;> grind
  | loadFromDisk la =>
    show (s.loadFromDisk la).Inv
    unfold loadFromDisk
    constructor <;> grind

/-- A step loses a channel exactly if it is a reload that finds one in the map. -/
theorem Inv.kept_step (h : s.Inv) (op : Op) : (s.step op).Kept ↔
    s.Kept ∧ ∀ latest, op = .loadFromDisk latest → s.pendingNotificationRequests = [] := by
  have hn := h.notMem
  have hp := h.pending
  cases op with
  | wait rn =>
    show (s.wait rn).Kept ↔ _
    obtain ⟨_, he⟩ | ⟨_, _, he⟩ | he := s.wait_cases rn
    all_goals
      rw [he]
      simp only [Kept, mem_cons]
      grind
  | committedUpTo rnd =>
    show (s.committedUpTo rnd).Kept ↔ _
    simp only [Kept, committedUpTo, mem_append, mem_filter]
    grind
  | loadFromDisk latest =>
    show (s.loadFromDisk latest).Kept ↔ _
    simp only [Kept, loadFromDisk, eq_nil_iff_forall_not_mem]
    grind

theorem run_concat (op : Op) : run (ops ++ [op]) = (run ops).step op := foldl_concat ..

theorem run_inv (ops : List Op) : (run ops).Inv := by
  induction ops using reverseRecOn with
  | nil => exact ⟨nofun, nofun, nofun, le_rfl⟩
  | append_singleton ops op ih =>
    rw [run_concat]
    exact ih.step op

theorem kept_run_iff : (run ops).Kept ↔ ∀ p latest, p ++ [.loadFromDisk latest] <+: ops →
    (run p).pendingNotificationRequests = [] := by
  induction ops using reverseRecOn with
  | nil => simp [run, Kept]
  | append_singleton ops _ ih =>
    rw [run_concat, (run_inv ops).kept_step]
    simp only [prefix_concat_iff, append_singleton_inj, or_imp]
    grind

/-- Every channel returned for a round up to the one committed next is closed then, exactly if no
reload has found a channel in the map; and no channel is closed early. -/
theorem wait_closed_iff (ops : List Op) :
    ((∀ rnd, ∀ ch ∈ (run ops).returned, ch.round ≤ rnd →
        ch ∈ (run (ops ++ [.committedUpTo rnd])).closed) ↔
      ∀ p latest, p ++ [.loadFromDisk latest] <+: ops → (run p).pendingNotificationRequests = []) ∧
      ∀ ch ∈ (run ops).returned, ch ∈ (run ops).closed → ch.round ≤ (run ops).committed := by
  refine ⟨?_, fun ch _ hc => ((run_inv ops).closed ch hc).2⟩
  rw [← kept_run_iff]
  simp only [run_concat, step, committedUpTo, mem_append, mem_filter, decide_eq_true_eq]
  constructor
  · intro h ch hc
    exact (h ch.round ch hc le_rfl).imp_right And.left
  · intro h rnd ch hc hr
    exact (h ch hc).imp_right fun hp => ⟨hp, hr⟩

/-- A wait for round 1 is pending when the ledger is reloaded; round 1 is committed. -/
theorem reload_loses_channel :
    let s := run [.wait 1, .loadFromDisk 0, .committedUpTo 1]
    s.returned = [⟨1, 0⟩] ∧ s.closed = [] ∧ s.pendingNotificationRequests = [] := by decide

end Bulletin

end Novarand.Ledger
