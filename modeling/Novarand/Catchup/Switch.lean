import Novarand.Catchup.Service

/-!
# What a catch-up leaves behind

The switch commits to the block database first and to the tracker database second. A run in which
nothing goes wrong between these two transactions ends with the tables of the ledger or with those
of the catchpoint; a run that is stopped there ends with the blocks of the one and the balances of
the other, because `finishBlocks` finds no staging table when the stage is resumed.
-/

namespace Novarand.Catchup

open List

variable {Block Accounts Totals Batch Label : Type}

/-- The blocks and balances are those `before` the catch-up. -/
def Disk.Old (disk before : Disk Block Accounts Totals Label) : Prop :=
  disk.blockDb.blocks = before.blockDb.blocks ∧ disk.blockDb.origin = .ledger ∧
    disk.trackerDb.live = before.trackerDb.live

/-- The blocks and balances are the staged ones. -/
def Disk.New (disk : Disk Block Accounts Totals Label) : Prop :=
  disk.blockDb.origin = .catchpoint ∧ disk.trackerDb.live.origin = .catchpoint

/-- The blocks and balances are of one ledger. -/
def Disk.Whole (disk before : Disk Block Accounts Totals Label) : Prop :=
  disk.Old before ∨ disk.New

/-- The node crashed, or the transaction failed, with the blocks switched and the balances not. -/
def Event.InterruptsSwitch (e : Event Block) : Prop :=
  e = .fail .finishBalances ∨ e = .crash (some .finishBalances)

/-- The program points at which the ledger's own tables are live. -/
def Pc.BeforeSwitch (state : CatchpointCatchupState) : Pc Block → Prop
  | .finishBlocks => state = .switch
  | .finishBalances => False
  | .reloadLedger => False
  | .enterInactive => False
  | _ => True

/-- The program points at which the catchpoint's tables are live. -/
def Pc.AfterSwitch : Pc Block → Prop
  | .reloadLedger => True
  | .enterInactive => True
  | .abort => True
  | _ => False

/-- Where a catch-up between its two transactions goes when it is resumed. -/
def Pc.Stranded : Pc Block → Prop
  | .finishBlocks => True
  | .abort => True
  | _ => False

/-- The blocks have been switched, the balances have not. -/
def Disk.Mixed (disk before : Disk Block Accounts Totals Label) : Prop :=
  disk.blockDb.origin = .catchpoint ∧ disk.blockDb.catchpointblocks = none ∧
    disk.trackerDb.live = before.trackerDb.live

section Phases

variable (before : Disk Block Accounts Totals Label) (node : Node Block Accounts Totals Label)

def Node.BeforeSwitch : Prop :=
  node.disk.Old before ∧ ∀ pc ∈ node.process.pc, pc.BeforeSwitch node.disk.trackerDb.state

def Node.Between : Prop :=
  node.disk.Mixed before ∧ node.disk.trackerDb.state = .switch ∧
    ∃ label, node.process = .serving label .finishBalances

def Node.AfterSwitch : Prop :=
  node.disk.New ∧ node.disk.trackerDb.state = .inactive ∧ ∀ pc ∈ node.process.pc, pc.AfterSwitch

def Node.Stranded : Prop :=
  node.disk.Mixed before ∧
    (node.disk.trackerDb.state = .switch ∨ node.disk.trackerDb.state = .inactive) ∧
    ∀ pc ∈ node.process.pc, pc.Stranded

end Phases

section Errors

variable {label : Option Label} {pc : Pc Block} {process : Process Block Label}

/-! ### Errors -/

theorem Pc.onError_beforeSwitch {state : CatchpointCatchupState} (hp : pc.BeforeSwitch state)
    (hm : process ∈ pc.onError label) : ∀ next ∈ process.pc, next.BeforeSwitch state := by
  cases pc <;> grind [onError, Process.pc, BeforeSwitch]

/-- From there on an error leads to `abort`, and from `abort` to the end of the service. -/
theorem Pc.onError_abort (hp : pc.AfterSwitch ∨ pc.Stranded ∨ pc = .finishBalances)
    (hm : process ∈ pc.onError label) : ∀ next ∈ process.pc, next = .abort := by
  cases pc <;> grind [onError, Process.pc, AfterSwitch, Stranded]

/-! ### Resuming -/

theorem Disk.resume_beforeSwitch (disk : Disk Block Accounts Totals Label) :
    ∀ pc ∈ disk.resume.pc, pc.BeforeSwitch disk.trackerDb.state := by
  unfold resume
  cases hs : disk.trackerDb.state <;> rintro pc ⟨⟩
  all_goals trivial

end Errors

section Steps

variable [DecidableEq Label] {rules : Rules Block Accounts Totals Batch Label}
  {before disk disk' : Disk Block Accounts Totals Label} {label : Option Label} {pc : Pc Block}
  {process : Process Block Label} {input : Input Block Totals Batch}

/-! ### One step -/

theorem Pc.run_finishBlocks
    (hrun : finishBlocks.run rules label disk input = .ok (disk', process)) :
    ∃ rows, disk.blockDb.catchpointblocks = some rows ∧
      disk' = { disk with blockDb := ⟨rows, .catchpoint, none⟩ } ∧
      process = .serving label .finishBalances := by
  cases input with
  | none =>
    simp only [run, BlockDb.blockCompleteCatchup, bind_ok, pure_ok, orThrow_ok,
      Prod.mk.injEq] at hrun
    obtain ⟨db, ⟨rows, hr, rfl⟩, rfl, rfl⟩ := hrun
    exact ⟨rows, hr, rfl, rfl⟩
  | _ => cases hrun

theorem Pc.run_finishBalances
    (hrun : finishBalances.run rules label disk input = .ok (disk', process)) :
    disk'.blockDb = disk.blockDb ∧ disk'.trackerDb.live.origin = .catchpoint ∧
      disk'.trackerDb.state = .inactive ∧ process = .serving label .reloadLedger := by
  cases input with
  | none =>
    simp only [run, TrackerDb.finishBalances, bind_ok, pure_ok, orThrow_ok, Prod.mk.injEq] at hrun
    obtain ⟨db, ⟨totals, -, accounts, -, rfl⟩, rfl, rfl⟩ := hrun
    exact ⟨rfl, rfl, rfl, rfl⟩
  | _ => cases hrun

section

variable (hrun : pc.run rules label disk input = .ok (disk', process))
include hrun

/-- Only the two transactions of the switch change what is live. -/
theorem Pc.run_frame (hb : pc ≠ .finishBlocks) (hl : pc ≠ .finishBalances) :
    disk'.blockDb.blocks = disk.blockDb.blocks ∧ disk'.blockDb.origin = disk.blockDb.origin ∧
      disk'.trackerDb.live = disk.trackerDb.live := by
  revert hrun
  fun_cases run rules label disk pc input <;>
    simp only [bind_ok, pure_ok, throw_ok, Prod.mk.injEq, TrackerDb.setLabel,
      TrackerDb.processStagingBalances, BlockDb.blockEnsureSingleBlock, BlockDb.blockPutStaging]
  all_goals grind [TrackerDb.setState, TrackerDb.resetStagingBalances,
    TrackerDb.processStagingContent, TrackerDb.storeBalancesRound,
    BlockDb.blockStartCatchupStaging]

/-- The switch is entered with its stage stored. -/
theorem Pc.run_next (hp : pc.BeforeSwitch disk.trackerDb.state) (hb : pc ≠ .finishBlocks) :
    ∀ next ∈ process.pc, next.BeforeSwitch disk'.trackerDb.state := by
  revert hrun
  fun_cases run rules label disk pc input <;>
    simp only [bind_ok, pure_ok, throw_ok, Prod.mk.injEq, TrackerDb.setLabel,
      TrackerDb.processStagingBalances, BlockDb.blockEnsureSingleBlock, BlockDb.blockPutStaging]
  all_goals grind [Process.pc, BeforeSwitch, TrackerDb.setState, Rules.continueFetch]

/-- After the switch the service only has its stage left to clear. -/
theorem Pc.run_afterSwitch (hp : pc.AfterSwitch) (hs : disk.trackerDb.state = .inactive) :
    disk'.trackerDb.state = .inactive ∧ ∀ next ∈ process.pc, next.AfterSwitch := by
  cases pc <;> cases hp <;> cases input <;> cases hrun
  · exact ⟨hs, fun next hn => by cases hn; trivial⟩
  · exact ⟨rfl, nofun⟩
  · exact ⟨rfl, nofun⟩

/-- A service that resumes between the two transactions gives up. -/
theorem Pc.run_stranded (hp : pc.Stranded) (hm : disk.Mixed before) :
    disk'.Mixed before ∧ disk'.trackerDb.state = .inactive ∧ process = .idle := by
  cases pc with
  | finishBlocks =>
    obtain ⟨rows, hr, -⟩ := run_finishBlocks hrun
    rw [hm.2.1] at hr
    cases hr
  | abort =>
    cases input <;> cases hrun
    exact ⟨hm, rfl, rfl⟩
  | _ => cases hp

end

/-! ### Runs -/

variable {node node' : Node Block Accounts Totals Label} {events : List (Event Block)}

/-- The switch is interrupted only where it waits for its second transaction. -/
theorem Step.interrupts {e : Event Block} (hs : Step rules node events node')
    (he : e ∈ events) (hint : e.InterruptsSwitch) :
    node.process.pc = some .finishBalances ∧ node'.disk = node.disk ∧
      ∀ pc ∈ node'.process.pc, pc = .abort := by
  cases hs with
  | commit | restart => rcases hint with rfl | rfl <;> cases mem_singleton.mp he
  | fail hm =>
    rcases hint with rfl | rfl <;> cases mem_singleton.mp he
    exact ⟨rfl, rfl, Pc.onError_abort (.inr (.inr rfl)) hm⟩
  | crash disk process =>
    rcases hint with rfl | rfl
    · cases mem_singleton.mp he
    · exact ⟨(Event.crash.inj (mem_singleton.mp he)).symm, rfl, nofun⟩

theorem Node.BeforeSwitch.step (h : node.BeforeSwitch before)
    (hs : Step rules node events node') : node'.BeforeSwitch before ∨ node'.Between before := by
  obtain ⟨ho, hp⟩ := h
  have ⟨h1, hr, hl⟩ := ho
  cases hs with
  | @commit disk disk' label pc process input hrun =>
    have hb : pc.BeforeSwitch disk.trackerDb.state := hp _ rfl
    by_cases hf : pc = .finishBlocks
    · subst hf
      obtain ⟨rows, -, rfl, rfl⟩ := Pc.run_finishBlocks hrun
      exact .inr ⟨⟨rfl, rfl, hl⟩, hb, label, rfl⟩
    · obtain ⟨hb', ho', hl'⟩ := Pc.run_frame hrun hf
        (by rintro rfl; exact hb)
      exact .inl ⟨⟨hb'.trans h1, ho'.trans hr, hl'.trans hl⟩, Pc.run_next hrun hb hf⟩
  | fail hm => exact .inl ⟨ho, Pc.onError_beforeSwitch (hp _ rfl) hm⟩
  | crash => exact .inl ⟨ho, nofun⟩
  | restart disk => exact .inl ⟨ho, disk.resume_beforeSwitch⟩

theorem Node.Between.step (h : node.Between before) (h1 : Step rules node events node') :
    node'.AfterSwitch ∧ (∀ e ∈ events, ¬e.InterruptsSwitch) ∨
      node'.Stranded before ∧ ∃ e ∈ events, e.InterruptsSwitch := by
  obtain ⟨hx, hs, label, hp⟩ := h
  have ht (hd : node'.disk = node.disk) (hc : ∀ pc ∈ node'.process.pc, pc = .abort) :
      node'.Stranded before := by
    refine ⟨hd ▸ hx, .inl (hd ▸ hs), fun pc hm => ?_⟩
    rw [hc pc hm]
    trivial
  cases h1 with
  | commit input hrun =>
    cases hp
    obtain ⟨hb, hl, hs', rfl⟩ := Pc.run_finishBalances hrun
    refine .inl ⟨⟨⟨hb ▸ hx.1, hl⟩, hs', ?_⟩, by simp [Event.InterruptsSwitch]⟩
    rintro pc ⟨⟩
    trivial
  | fail hm =>
    cases hp
    exact .inr ⟨ht rfl (Pc.onError_abort (.inr (.inr rfl)) hm), _, mem_singleton_self _, .inl rfl⟩
  | crash =>
    cases hp
    exact .inr ⟨ht rfl nofun, _, mem_singleton_self _, .inr rfl⟩
  | restart => cases hp

theorem Node.AfterSwitch.step (h : node.AfterSwitch) (h1 : Step rules node events node') :
    node'.AfterSwitch := by
  obtain ⟨⟨ho, hl⟩, hs, hp⟩ := h
  cases h1 with
  | @commit disk disk' label pc process input hrun =>
    have ha : pc.AfterSwitch := hp _ rfl
    obtain ⟨hs', hn⟩ := Pc.run_afterSwitch hrun ha hs
    obtain ⟨-, ho', hl'⟩ := Pc.run_frame hrun (by rintro rfl; exact ha) (by rintro rfl; exact ha)
    exact ⟨⟨ho'.trans ho, hl' ▸ hl⟩, hs', hn⟩
  | fail hm =>
    refine ⟨⟨ho, hl⟩, hs, fun next hn => ?_⟩
    rw [Pc.onError_abort (.inl (hp _ rfl)) hm next hn]
    trivial
  | crash => exact ⟨⟨ho, hl⟩, hs, nofun⟩
  | restart disk =>
    refine ⟨⟨ho, hl⟩, hs, ?_⟩
    rw [Disk.resume, hs]
    rintro pc ⟨⟩

theorem Node.Stranded.step (h : node.Stranded before) (h1 : Step rules node events node') :
    node'.Stranded before := by
  obtain ⟨hx, hs, hp⟩ := h
  cases h1 with
  | commit input hrun =>
    obtain ⟨hm', hs', rfl⟩ := Pc.run_stranded hrun (hp _ rfl) hx
    exact ⟨hm', .inr hs', nofun⟩
  | fail hm =>
    refine ⟨hx, hs, fun next hn => ?_⟩
    rw [Pc.onError_abort (.inr (.inl (hp _ rfl))) hm next hn]
    trivial
  | crash => exact ⟨hx, hs, nofun⟩
  | restart disk =>
    refine ⟨hx, hs, ?_⟩
    rcases hs with hs | hs <;> rw [Disk.resume, hs] <;> rintro pc ⟨⟩
    trivial

/-- What the events of a run say about the tables it leaves. -/
def Node.Inv (before : Disk Block Accounts Totals Label) (events : List (Event Block))
    (node : Node Block Accounts Totals Label) : Prop :=
  (∀ e ∈ events, ¬e.InterruptsSwitch) ∧
      (node.BeforeSwitch before ∨ node.Between before ∨ node.AfterSwitch) ∨
    (∃ e ∈ events, e.InterruptsSwitch) ∧ node.Stranded before

theorem Node.Inv.step {history : List (Event Block)} (h : node.Inv before history)
    (hs : Step rules node events node') : node'.Inv before (history ++ events) := by
  rcases h with ⟨hc, hp⟩ | ⟨⟨e, he, hint⟩, ht⟩
  · -- a step of an uninterrupted run interrupts it only between the two transactions
    have hq (h1 : ∀ pc ∈ node.process.pc, pc ≠ .finishBalances) :
        ∀ e ∈ history ++ events, ¬e.InterruptsSwitch := by
      intro e he hint
      rcases mem_append.mp he with he | he
      · exact hc e he hint
      · exact h1 _ (hs.interrupts he hint).1 rfl
    rcases hp with hb | h2 | ha
    · refine .inl ⟨hq fun pc hm => ?_, ?_⟩
      · rintro rfl
        exact hb.2 _ hm
      · exact (hb.step hs).imp id .inl
    · rcases h2.step hs with ⟨ha, hn⟩ | ⟨ht, e, he, hint⟩
      · refine .inl ⟨fun e he => ?_, .inr (.inr ha)⟩
        exact (mem_append.mp he).elim (hc e) (hn e)
      · exact .inr ⟨⟨e, mem_append_right _ he, hint⟩, ht⟩
    · refine .inl ⟨hq fun pc hm => ?_, .inr (.inr (ha.step hs))⟩
      rintro rfl
      exact ha.2.2 _ hm
  · exact .inr ⟨⟨e, mem_append_left _ he, hint⟩, ht.step hs⟩

omit [DecidableEq Label] in
theorem Node.Inv.start {label : Label} (ho : before.blockDb.origin = .ledger) :
    (start before label).Inv before [] := by
  refine .inl ⟨by simp, .inl ⟨⟨rfl, ho, rfl⟩, ?_⟩⟩
  rintro pc ⟨⟩
  trivial

/-- **Catch-up and crashes.** When the service has ended, after any crashes, failed transactions and
restarts, blocks and balances are of one ledger exactly if nothing came between the two transactions
of the switch. -/
theorem catchup_whole_iff {label : Label} (hblocks : before.blockDb.origin = .ledger)
    (hbalances : before.trackerDb.live.origin = .ledger)
    (hrun : Steps (Step rules) (Node.start before label) events node)
    (hend : node.process = .idle) : node.disk.Whole before ↔ ∀ e ∈ events, ¬e.InterruptsSwitch := by
  have hi : node.Inv before ([] ++ events) :=
    hrun.history (fun _ _ _ _ h hs => h.step hs) (Node.Inv.start hblocks)
  rcases hi with ⟨hc, hh⟩ | ⟨⟨e, he, hint⟩, ⟨hr, -, hl⟩, -⟩
  · refine iff_of_true ?_ hc
    rcases hh with hb | ⟨-, -, label', hp⟩ | ha
    · exact .inl hb.1
    · rw [hend] at hp
      cases hp
    · exact .inr ha.1
  · refine iff_of_false ?_ fun hc => hc e he hint
    rintro (⟨-, ho, -⟩ | ⟨-, hn⟩)
    · rw [hr] at ho
      cases ho
    · rw [hl, hbalances] at hn
      cases hn

end Steps

/-! A catch-up from round 1 to the catchpoint of round 3, with the block of round 2. -/

namespace Sample

def rules : Rules ℕ ℕ ℕ ℕ ℕ where
  round blk := blk
  maxTxnLife _ := 1
  maxBalLookback _ := 1
  usable _ := true
  follows prev blk := prev = blk + 1
  parseCatchpointLabel label := some label
  makeCatchpointLabel round _ _ _ := round
  empty := 0
  put accounts batch := some (accounts + batch)

def disk : Disk ℕ ℕ ℕ ℕ where
  blockDb :=
    { blocks := [0, 1]
      origin := .ledger
      catchpointblocks := none }
  trackerDb :=
    { live := ⟨10, 1, 10, .ledger⟩
      staging := none
      stagingTotals := none
      state := .inactive
      label := none
      blockRound := 0
      balancesRound := 0 }

def downloads : List (Action ℕ ℕ ℕ) :=
  [.run .none, .run .none, .run .none, .run (.content 3 30), .run (.batch 30), .run .ledgerDone,
    .run .none, .run (.block 3), .run .none, .run .none, .run .none, .run .none, .run (.block 2),
    .run .none, .run .none, .run .none]

end Sample

open Sample

/-- The balances live at the start stay with the downloaded blocks when the node crashes between the
two transactions and resumes. -/
theorem crashed_switch : ∃ events node,
    Steps (Step rules) (Node.start disk 3) events node ∧ node.process = .idle ∧
      node.disk.blockDb.blocks = [3, 2] ∧
      node.disk.trackerDb.live = disk.trackerDb.live ∧
      node.disk.trackerDb.state = .inactive ∧ ¬node.disk.Whole disk := by
  have hrun := @Node.acts_steps _ _ _ _ _ rules (Node.start disk 3) _ _
    (downloads ++ [.crash, .restart, .fail 0, .run .none]) _ rfl
  refine ⟨_, _, hrun, rfl, rfl, rfl, rfl, ?_⟩
  rintro (⟨-, ho, -⟩ | ⟨-, hn⟩)
  · cases ho
  · cases hn

theorem catchup_whole_iff_through : ∃ events node,
    Steps (Step rules) (Node.start disk 3) events node ∧ node.process = .idle ∧
      (node.disk.Whole disk ↔ ∀ e ∈ events, ¬e.InterruptsSwitch) ∧
      node.disk.blockDb.blocks = [3, 2] ∧ node.disk.trackerDb.live = ⟨30, 2, 30, .catchpoint⟩ := by
  have hrun := @Node.acts_steps _ _ _ _ _ rules (Node.start disk 3) _ _
    (downloads ++ [.run .none, .run .none, .run .none]) _ rfl
  exact ⟨_, _, hrun, rfl, catchup_whole_iff rfl rfl hrun rfl, rfl, rfl⟩

end Novarand.Catchup
