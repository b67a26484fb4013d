import Novarand.Agreement.NilRouter

/-!
# The agreement service

The main loop hands the actions of the player to the demux loop, which performs them one by one and
fetches the next event. A vote is made in three places: the pseudonode makes and verifies the votes
of the accounts, the persistence loop writes the state of the service to the crash database, and the
pseudonode hands the votes out once the checkpoint event has come back through the player. Between
any two of these steps the process may crash; what is left then is the crash database, the ledger and
the votes which were handed out.
-/

namespace Novarand.Agreement

/-! ## The crash database -/

/-- `diskState`: the router and the player, and the actions which were to be performed. The clock
is left out. -/
structure DiskState where
  machine : Machine := {}
  actions : List Action := []

/-- `zeroAction` of the stored action type, and the stored fields decoded into it. Message handle and
completion channel are not exported, so not stored. -/
def decodeAction : Action → M Action
  | .stageDigest _ => throw .badAction
  | .ignore err _ => pure (.ignore err none)
  | .disconnect err _ => pure (.disconnect err none)
  | .relay _ c => pure (.relay none c)
  | .checkpoint r p q err _ => pure (.checkpoint r p q err none)
  | a => pure a

def DiskState.decode (d : DiskState) : M (Machine × List Action) := do
  let actions ← d.actions.mapM decodeAction
  pure (d.machine, actions)

/-- Only votes are persistent actions. -/
def Action.persistent : Action → Bool
  | .attest .. => true
  | _ => false

def persistent (as : List Action) : Bool := as.any Action.persistent

/-! ## The state of the service -/

/-- `pseudonodeVotesTask` -/
structure VotesTask where
  round : Round
  period : Period
  step : Step
  proposal : ProposalValue
  /-- The accounts whose votes are made and verified, but not yet handed out. -/
  accounts : List Address
  /-- The channel the task waits for; that of a reproposal is closed from the start. -/
  persistStateDone : Option ℕ

def VotesTask.vote (t : VotesTask) (a : Address) : RawVote := ⟨a, t.round, t.period, t.step, t.proposal⟩

structure PersistentRequest where
  raw : DiskState
  done : ℕ

def PersistentRequest.checkpoint (q : PersistentRequest) (err : SerErr) : Event :=
  .checkpoint q.raw.machine.player.round q.raw.machine.player.period q.raw.machine.player.step err
    (some q.done)

structure Service where
  machine : Machine
  /-- The actions the demux loop has not performed yet. -/
  todo : List Action
  /-- `persistRouter`, `persistStatus` and `persistActions` -/
  persist : DiskState := {}
  /-- The requests the persistence loop has not served yet. -/
  requests : List PersistentRequest := []
  /-- The tasks of the votes verifier. -/
  tasks : List VotesTask := []
  /-- Checkpoint events on their way to the player. -/
  checkpoints : List Event := []
  /-- The completion channels which were closed without an error. -/
  closed : List ℕ := []
  /-- The number of completion channels made. -/
  channels : ℕ := 0
  crashDb : Option DiskState := none
  /-- The last round of the ledger. -/
  lastRound : Round
  /-- The votes handed out for broadcast. -/
  released : List RawVote := []

namespace Service

def nextRound (s : Service) : Round := s.lastRound + 1

/-! ## Performing an action -/

/-- `do` of one action. `accounts` are those for which `MakeVotes` succeeds; `none` if there are no
participation keys or the backlog is full. -/
def perform (s : Service) (accounts : Option (List Address)) : Action → Service
  | .attest r p q v =>
    match accounts with
    | some as => { s with
        tasks := s.tasks ++ [⟨r, p, q, v, as, some s.channels⟩]
        requests := s.requests ++ [⟨s.persist, s.channels⟩]
        channels := s.channels + 1 }
    | none => s
  | .repropose r p v =>
    match accounts with
    | some as => { s with tasks := s.tasks ++ [⟨r, p, propose, v, as, none⟩] }
    | none => s
  | .checkpoint _ _ _ err done =>
    -- on an error the waiting task is told to drop its votes
    if err = .nil then { s with closed := done.toList ++ s.closed } else s
  | _ => s

/-! ## Starting and restarting -/

variable (cfg : Consensus)

/-- Pretend a new round has just started. -/
def fresh (s : Service) (version : ConsensusVersion) : Service where
  machine := .start s.nextRound (filterTimeout cfg 0 version)
  todo := [.assemble s.nextRound 0, .rezero 0]
  crashDb := s.crashDb
  lastRound := s.lastRound
  released := s.released

/-- Continue from the crash state. -/
def restored (s : Service) (m : Machine) (actions : List Action) : Service where
  machine := m
  todo := actions
  crashDb := s.crashDb
  lastRound := s.lastRound
  released := s.released

/-- The start of the main loop, from what a crash left behind. -/
def restart (s : Service) (version : ConsensusVersion) : M Service :=
  match s.crashDb with
  | none => pure (s.fresh cfg version)
  | some d => do
    let (m, actions) ← d.decode
    if m.player.round < s.nextRound then pure (s.fresh cfg version)
    else pure (s.restored m actions)

/-- The first start, with an empty crash database. -/
def boot (lastRound : Round) (version : ConsensusVersion) : Service :=
  fresh cfg { machine := {}, todo := [], lastRound := lastRound } version

/-! ## Steps -/

/-- What happens next. -/
inductive Choice
  /-- The demux loop performs the next action. -/
  | act (accounts : Option (List Address))
  /-- The player handles an event. -/
  | handle (e : Event)
  /-- The persistence loop serves the next request, and the write fails if `err` is an error. -/
  | write (err : SerErr)
  /-- The votes verifier hands out a vote of its task. -/
  | release
  /-- The votes verifier is done with its task. -/
  | finish
  /-- The ledger learns of blocks. -/
  | ledger (lastRound : Round)
  /-- The process crashes and is started again. -/
  | crash (version : ConsensusVersion)

def Event.isCheckpoint : Event → Bool
  | .checkpoint .. => true
  | _ => false

def step (fuel : ℕ) (s : Service) : Choice → Option Service
  | .act accounts =>
    match s.todo with
    | a :: as => some (perform { s with todo := as } accounts a)
    | [] => none
  | .handle e =>
    if s.todo = [] ∧ EventOk s.machine.player e ∧ (Event.isCheckpoint e → e ∈ s.checkpoints) then
      match s.machine.submitTop cfg fuel e with
      | .ok (m, as) => some { s with
          machine := m
          todo := as
          persist := if persistent as then ⟨m, as⟩ else s.persist
          checkpoints := s.checkpoints.erase e }
      | .error _ => none
    else none
  | .write err =>
    match s.requests with
    | q :: qs =>
      -- the ledger must have finished writing the previous round
      if q.raw.machine.player.round - 1 ≤ s.lastRound then some { s with
        requests := qs
        crashDb := if err = .nil then some q.raw else s.crashDb
        checkpoints := s.checkpoints ++ [q.checkpoint err] }
      else none
    | [] => none
  | .release =>
    match s.tasks with
    | t :: ts =>
      match t.accounts with
      | a :: as =>
        if ∀ c ∈ t.persistStateDone, c ∈ s.closed then some { s with
          tasks := { t with accounts := as } :: ts
          released := s.released ++ [t.vote a] }
        else none
      | [] => none
    | [] => none
  | .finish =>
    match s.tasks with
    | _ :: ts => some { s with tasks := ts }
    | [] => none
  | .ledger n => if s.lastRound ≤ n then some { s with lastRound := n } else none
  | .crash version => (s.restart cfg version).toOption

/-- One step of the service; a crash is labelled with the state before it. -/
def Step (s : Service) (l : List Service) (s' : Service) : Prop :=
  ∃ fuel c, s.step cfg fuel c = some s' ∧ l = match c with
    | .crash _ => [s]
    | _ => []

end Service

end Novarand.Agreement
