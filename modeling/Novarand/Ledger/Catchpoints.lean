import Novarand.Agreement.Types
import Novarand.Lib.Trace

/-!
# The flag of catchpoint writing

On an archival ledger `scheduleCommit` raises `catchpointWriting` when it plans a commit that ends at a
catchpoint, and plans no commit while the flag is up. The moves of the scheduler and of `commitSyncer`
interleave in any way. `Held` says which commit will lower a flag that is up.
-/

namespace Novarand.Ledger

open Agreement (Round)

/-- `deferredCommitRange`: the `offset` rounds after `oldBase`. -/
structure CommitRange where
  oldBase : Round
  offset : ℕ
  lookback : Round

namespace CommitRange

variable (dcc : CommitRange)

def newBase : Round := dcc.oldBase + dcc.offset

def isCatchpointRound (interval : ℕ) : Bool :=
  let round := dcc.offset + (dcc.lookback + dcc.oldBase)
  0 < round ∧ interval ≠ 0 ∧ round % interval = 0

end CommitRange

/-- A call of `scheduleCommit`. The voters and the changes of the consensus version leave `chunk`
rounds of the range. -/
structure CommitCall where
  committedRound : Round
  lookback : Round
  chunk : ℕ
  flushedRecently : Bool := false

def AccountUpdates.produceCommittingTask (dbRound : Round) (call : CommitCall) :
    Option CommitRange :=
  if call.committedRound < call.lookback then none
  else if call.committedRound - call.lookback ≤ dbRound then none
  else some { oldBase := dbRound, offset := call.chunk, lookback := call.lookback }

def CatchpointTracker.produceCommittingTask (interval : ℕ) (catchpointWriting : Bool)
    (committedRound : Round) (dcr : CommitRange) : Option CommitRange :=
  let nextCatchpointRound := (dcr.oldBase + dcr.lookback + interval) / interval * interval
  let mostRecentCatchpointRound := committedRound / interval * interval
  let newBase :=
    if 0 < interval ∧ nextCatchpointRound < dcr.oldBase + dcr.lookback + dcr.offset then
      max nextCatchpointRound mostRecentCatchpointRound - dcr.lookback
    else dcr.newBase
  if catchpointWriting then none
  else some { dcr with offset := min dcr.offset (newBase - dcr.oldBase) }

/-- What `commitSyncer` does with the first commit. -/
inductive Syncer
  | waiting
  | running
  | writing

/-- The `trackerRegistry`, with the commits that are queued or running and the round that a call of
`scheduleCommit` has read. -/
structure TrackerRegistry where
  dbRound : Round
  catchpointWriting : Bool := false
  read : Option Round := none
  commits : List CommitRange := []
  phase : Syncer := .waiting

namespace TrackerRegistry

section

variable (interval : ℕ) (tr : TrackerRegistry)

/-- `scheduleCommit` after it has read `dbRound`. -/
def scheduleCommit (dbRound : Round) (call : CommitCall) : TrackerRegistry :=
  match AccountUpdates.produceCommittingTask dbRound call >>=
    CatchpointTracker.produceCommittingTask interval tr.catchpointWriting call.committedRound with
  | none => { tr with read := none }
  | some dcc =>
    if call.flushedRecently && !dcc.isCatchpointRound interval then { tr with read := none }
    else
      { tr with
        read := none
        catchpointWriting := tr.catchpointWriting || dcc.isCatchpointRound interval
        commits := tr.commits ++ [dcc] }

variable (dcc : CommitRange) (rest : List CommitRange)

/-- The flag after a commit that lowers it at a catchpoint. -/
def lowered : Bool := tr.catchpointWriting && !dcc.isCatchpointRound interval

/-- The first commit ends in a way that lowers the flag. -/
def ended : TrackerRegistry :=
  { tr with commits := rest, phase := .waiting, catchpointWriting := tr.lowered interval dcc }

/-- The first commit ends in a way that leaves the flag. -/
def dropped : TrackerRegistry := { tr with commits := rest, phase := .waiting }

/-- The commit that ends, if it is one of a catchpoint and has left the flag up, which a retry may have
lowered before, and no commit behind it can lower it. -/
def lost : List CommitRange :=
  if dcc.isCatchpointRound interval ∧ tr.catchpointWriting ∧ rest = [] then [dcc] else []

/-- The first commit is `dcc`, in the given phase. -/
def First (phase : Syncer) : Prop := tr.commits = dcc :: rest ∧ tr.phase = phase

/-- The last commit ends at a catchpoint, if the flag is up. -/
def Held : Prop := tr.catchpointWriting = true →
  ∃ init dcc, tr.commits = init ++ [dcc] ∧ dcc.isCatchpointRound interval = true

/-- The flag is up, and no commit is left to lower it. -/
def Stuck : Prop := tr.catchpointWriting = true ∧ tr.commits = []

end

/-- The moves, with the commits that they lose. -/
inductive Move (interval : ℕ) : TrackerRegistry → List CommitRange → TrackerRegistry → Prop
  | read {tr} : Move interval tr [] { tr with read := some tr.dbRound }
  | schedule {tr dbRound} (hread : tr.read = some dbRound) (call : CommitCall) :
    Move interval tr [] (tr.scheduleCommit interval dbRound call)
  -- `commitRound`; its range is cut to what the database lacks, and ends at the same round
  | unordered {tr dcc rest} (h : First tr dcc rest .waiting)
      (hround : tr.dbRound < dcc.oldBase ∨ dcc.newBase < tr.dbRound) :
    Move interval tr [] (tr.ended interval dcc rest)
  | empty {tr dcc rest} (h : First tr dcc rest .waiting) (hround : dcc.newBase = tr.dbRound) :
    Move interval tr (tr.lost interval dcc rest) (tr.dropped rest)
  | start {tr dcc rest} (h : First tr dcc rest .waiting)
      (hround : dcc.oldBase ≤ tr.dbRound ∧ tr.dbRound < dcc.newBase) :
    Move interval tr [] { tr with phase := .running }
  -- `prepareCommit` or `commitRound` of a tracker fails; a busy database tries again
  | failed {tr dcc rest} (h : First tr dcc rest .running) :
    Move interval tr [] (tr.ended interval dcc rest)
  | retried {tr dcc rest} (h : First tr dcc rest .running) :
    Move interval tr [] { tr with catchpointWriting := tr.lowered interval dcc }
  | transactionFailed {tr dcc rest} (h : First tr dcc rest .running) :
    Move interval tr (tr.lost interval dcc rest) (tr.dropped rest)
  | committed {tr dcc rest} (h : First tr dcc rest .running) :
    Move interval tr [] { tr with dbRound := dcc.newBase, phase := .writing }
  -- `postCommitUnlocked`
  | written {tr dcc rest} (h : First tr dcc rest .writing) :
    Move interval tr [] (tr.ended interval dcc rest)

variable {interval : ℕ} {tr tr' : TrackerRegistry} {dcc : CommitRange} {rest l : List CommitRange}
  {dbRound : Round} {call : CommitCall}

/-- No commit is planned while the flag is up. -/
theorem scheduleCommit_up (h : tr.catchpointWriting = true) :
    tr.scheduleCommit interval dbRound call = { tr with read := none } := by
  unfold scheduleCommit
  split
  · rfl
  · rename_i hp
    obtain ⟨_, -, hp⟩ := Option.bind_eq_some_iff.mp hp
    simp [CatchpointTracker.produceCommittingTask, h] at hp

variable (h : tr.Held interval)
include h in
theorem Held.scheduleCommit :
    Held interval (tr.scheduleCommit interval dbRound call) := by
  by_cases hu : tr.catchpointWriting = true
  · rw [scheduleCommit_up hu]
    exact h
  · unfold TrackerRegistry.scheduleCommit
    split
    · exact h
    · split_ifs
      · exact h
      · simp only [Held, hu, Bool.false_or]
        exact fun hn => ⟨_, _, rfl, hn⟩

include h in
/-- A commit in front of the last one can go. -/
theorem Held.tail (hu : tr.catchpointWriting = true)
    (hc : tr.commits = dcc :: rest) : rest = [] ∧ dcc.isCatchpointRound interval = true ∨
      ∃ init dcc, rest = init ++ [dcc] ∧ dcc.isCatchpointRound interval = true := by
  obtain ⟨init, d, hd, hl⟩ := h hu
  rw [hc] at hd
  cases init with
  | nil =>
    obtain ⟨rfl, rfl⟩ := List.cons.inj hd
    exact .inl ⟨rfl, hl⟩
  | cons d init => exact .inr ⟨init, _, (List.cons.inj hd).2, hl⟩

include h in
theorem Held.ended (hc : tr.commits = dcc :: rest) :
    (tr.ended interval dcc rest).Held interval := by
  intro hu
  simp only [TrackerRegistry.ended, lowered, Bool.and_eq_true, Bool.not_eq_true'] at hu
  exact (h.tail hu.1 hc).resolve_left fun he => Bool.eq_false_iff.mp hu.2 he.2

include h in
theorem Held.dropped (hc : tr.commits = dcc :: rest) :
    tr.lost interval dcc rest = [] ∧ (tr.dropped rest).Held interval ∨
      tr.lost interval dcc rest ≠ [] ∧ (tr.dropped rest).Stuck := by
  unfold lost
  split_ifs with he
  · exact .inr ⟨List.cons_ne_nil _ _, he.2⟩
  · exact .inl ⟨rfl, fun hu => (h.tail hu hc).resolve_left fun hl => he ⟨hl.2, hu, hl.1⟩⟩

include h in
theorem Held.move (hm : Move interval tr l tr') :
    l = [] ∧ tr'.Held interval ∨ l ≠ [] ∧ tr'.Stuck := by
  cases hm with
  | read | start | committed => exact .inl ⟨rfl, h⟩
  | schedule => exact .inl ⟨rfl, scheduleCommit h⟩
  | unordered hf | failed hf | written hf => exact .inl ⟨rfl, h.ended hf.1⟩
  | empty hf | transactionFailed hf => exact h.dropped hf.1
  | retried => exact .inl ⟨rfl, fun hu => h (Bool.and_eq_true_iff.mp hu).1⟩

theorem Stuck.move (h : tr.Stuck) (hm : Move interval tr l tr') :
    tr'.Stuck ∧ tr'.dbRound = tr.dbRound := by
  cases hm with
  | read => exact ⟨h, rfl⟩
  | schedule =>
    rw [scheduleCommit_up h.1]
    exact ⟨h, rfl⟩
  | unordered hf | failed hf | written hf | empty hf | transactionFailed hf
  | retried hf | start hf | committed hf => cases h.2.symm.trans hf.1

/-- **While no commit is queued or running, the flag is down if and only if no commit was lost**: one
of a catchpoint that held it came out empty, or failed outside the trackers. -/
theorem catchpointWriting_zero_iff {start : Round}
    (h : Steps (Move interval) { dbRound := start } l tr) (hidle : tr.commits = []) :
    tr.catchpointWriting = false ↔ l = [] := by
  have hr : l = [] ∧ tr.Held interval ∨ l ≠ [] ∧ tr.Stuck := by
    refine h.history (P := fun l tr => l = [] ∧ tr.Held interval ∨ l ≠ [] ∧ tr.Stuck) ?_
      (g := []) (.inl ⟨rfl, nofun⟩)
    rintro l tr _ _ (⟨rfl, hh⟩ | ⟨hl, hs⟩) hm
    · exact hh.move hm
    · exact .inr ⟨by simp [hl], (hs.move hm).1⟩
  rcases hr with ⟨rfl, hh⟩ | ⟨hl, hs⟩
  · refine iff_of_true (Bool.eq_false_iff.mpr fun hu => ?_) rfl
    obtain ⟨_, _, hc, -⟩ := hh hu
    simp [hidle] at hc
  · exact iff_of_false (by simp [hs.1]) hl

/-- A commit of the rounds 4 to 6, the last one a catchpoint with the lookback 4. -/
def planned (dbRound : Round) : TrackerRegistry :=
  { dbRound, catchpointWriting := true, commits := [⟨3, 3, 4⟩] }

/-- `scheduleCommit` reads the round while a catchpoint commit runs, and plans the same rounds again
after it. -/
theorem planned_twice : Steps (Move 10) { dbRound := 3 } [⟨3, 3, 4⟩]
    { dbRound := 6, catchpointWriting := true } := by
  have hp : Steps (Move 10) { dbRound := 3 } [] (planned 3) :=
    (Steps.single Move.read).tail (@Move.schedule 10 _ 3 rfl ⟨12, 4, 5, false⟩)
  have hr := (hp.tail (.start ⟨rfl, rfl⟩ (by decide))).tail .read
  have hd := (hr.tail (.committed ⟨rfl, rfl⟩)).tail (.written ⟨rfl, rfl⟩)
  have ha : Steps (Move 10) { dbRound := 3 } [] (planned 6) :=
    hd.tail (@Move.schedule 10 _ 3 rfl ⟨13, 4, 6, false⟩)
  exact ha.tail (@Move.empty 10 (planned 6) ⟨3, 3, 4⟩ [] ⟨rfl, rfl⟩ rfl)

/-- After that no commit moves the database any more. -/
theorem catchpoint_stuck : ∃ l tr, Steps (Move 10) { dbRound := 3 } l tr ∧ tr.commits = [] ∧
    tr.catchpointWriting = true ∧ ∀ l' tr', Steps (Move 10) tr l' tr' → tr'.dbRound = 6 := by
  refine ⟨_, _, planned_twice, rfl, rfl, fun l' tr' hr => ?_⟩
  exact (hr.invariant (P := fun tr => tr.Stuck ∧ tr.dbRound = 6) (fun tr _ _ h hm =>
    ⟨(h.1.move hm).1, (h.1.move hm).2.trans h.2⟩) ⟨⟨rfl, rfl⟩, rfl⟩).2

theorem catchpointWriting_zero_iff_twice : ∃ l tr, Steps (Move 10) { dbRound := 3 } l tr ∧
    tr.commits = [] ∧ l ≠ [] ∧ (tr.catchpointWriting = false ↔ l = []) :=
  ⟨_, _, planned_twice, rfl, nofun, catchpointWriting_zero_iff planned_twice rfl⟩

end TrackerRegistry

end Novarand.Ledger
