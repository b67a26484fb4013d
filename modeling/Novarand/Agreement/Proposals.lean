import Novarand.Agreement.Events

/-!
# Proposal tracker and proposal store

The state of the proposal machines of one period (`proposalTracker`: the lowest proposal-vote and
the staged value) and of one round (`proposalStore`: the payloads of the relevant and the pinned
proposal-values), with the parts of their handlers that do not dispatch to other machines.
-/

namespace Novarand.Agreement

/-! ## The proposal tracker -/

structure ProposalSeeker where
  lowest : Vote := {}
  filled : Bool := false
  frozen : Bool := false

namespace ProposalSeeker

def accept (s : ProposalSeeker) (v : Vote) : ProposalSeeker × SerErr :=
  if s.frozen then (s, .proposalSeekerFrozen)
  else if s.filled && !v.cred.less s.lowest.cred then
    (s, .proposalSeekerNotLess v.r.sender s.lowest.r.sender)
  else ({ s with lowest := v, filled := true }, .nil)

def freeze (s : ProposalSeeker) : ProposalSeeker := { s with frozen := true }

end ProposalSeeker

structure ProposalTracker where
  duplicate : Dict Address Unit := ∅
  freezer : ProposalSeeker := {}
  staging : ProposalValue := {}

namespace ProposalTracker

variable (t : ProposalTracker)

/-- `proposalTracker.handle` of a `voteFilterRequest`: has the sender been seen? -/
def voteFilterRequest (rv : RawVote) : Bool :=
  (t.duplicate.lookup rv.sender).isSome

/-- `proposalTracker.handle` of a `voteVerified` event; the error is `nil` when the proposal is
accepted. -/
def voteVerified (v : Vote) : ProposalTracker × SerErr :=
  if (t.duplicate.lookup v.r.sender).isSome then
    (t, .proposalTrackerSenderDup v.r.sender v.r.round v.r.period)
  else
    let t := { t with duplicate := t.duplicate.insert v.r.sender () }
    if t.staging ≠ bottom then (t, .proposalTrackerStaged)
    else
      let (freezer, err) := t.freezer.accept v
      ({ t with freezer := freezer }, err)

/-- `proposalTracker.handle` of a `proposalFrozen` event. -/
def proposalFrozen : ProposalTracker × ProposalValue :=
  ({ t with freezer := t.freezer.freeze }, t.freezer.lowest.r.proposal)

/-- `proposalTracker.handle` of a soft or cert threshold. -/
def stage (pv : ProposalValue) : ProposalTracker := { t with staging := pv }

end ProposalTracker

structure ProposalTrackerContract where
  sawOneVote : Bool := false
  froze : Bool := false
  sawSoftThreshold : Bool := false
  sawCertThreshold : Bool := false

namespace ProposalTrackerContract

variable (c : ProposalTrackerContract)

/-- Postcondition on `voteVerified`: the first vote is accepted, and none once the tracker is frozen
or staged. -/
def postVoteVerified (err : SerErr) : M ProposalTrackerContract :=
  let closed := c.froze || c.sawSoftThreshold || c.sawCertThreshold
  if !c.sawOneVote && !closed && decide (err ≠ .nil) then throw .postcondition
  else if closed && decide (err = .nil) then throw .postcondition
  else pure { c with sawOneVote := true }

def preProposalFrozen : M Unit :=
  if c.froze then throw .precondition else pure ()

def postProposalFrozen (out : ProposalValue) : M ProposalTrackerContract :=
  if !c.sawOneVote && decide (out ≠ bottom) then throw .postcondition
  else pure { c with froze := true }

def preThreshold (e : ThresholdEvent) : M Unit :=
  if e.t = .softThreshold ∧ (c.sawSoftThreshold ∨ e.proposal = bottom) then throw .precondition
  else pure ()

def postThreshold (e : ThresholdEvent) : ProposalTrackerContract :=
  if e.t = .softThreshold then { c with sawSoftThreshold := true }
  else { c with sawCertThreshold := true }

end ProposalTrackerContract

/-! ## Block assemblers -/

structure BlockAssembler where
  pipeline : UnauthenticatedProposal := {}
  filled : Bool := false
  payload : Proposal := {}
  assembled : Bool := false
  authenticators : List Vote := []

namespace BlockAssembler

variable (a : BlockAssembler)

/-- `blockAssembler.pipeline` -/
def addPipeline (p : UnauthenticatedProposal) : BlockAssembler × SerErr :=
  if a.assembled then (a, .alreadyAssembled)
  else if a.filled then (a, .alreadyFilled)
  else ({ a with pipeline := p, filled := true }, .nil)

def bind (p : Proposal) : BlockAssembler × SerErr :=
  if a.assembled then (a, .alreadyAssembled)
  else ({ a with payload := p, assembled := true }, .nil)

def authenticator (p : Period) : Vote :=
  (a.authenticators.find? fun v => v.r.period = p).getD {}

def trim (p : Period) : BlockAssembler :=
  { a with authenticators := a.authenticators.filter fun v => p ≤ v.r.period }

end BlockAssembler

/-! ## The proposal store -/

structure ProposalStore where
  relevant : Dict Period ProposalValue := ∅
  pinned : ProposalValue := {}
  assemblers : Dict ProposalValue BlockAssembler := ∅

/-- What the store answers to a payload. -/
inductive PayloadResult
  | rejected (err : SerErr)
  | malformed (err : SerErr)
  | pipelined (round : Round) (vote : Vote) (period : Period) (pinned : Bool)
      (proposal : ProposalValue) (payload : UnauthenticatedProposal)
  | accepted (vote : Vote) (proposal : ProposalValue)
  | committable (vote : Vote) (proposal : ProposalValue)

/-- `stagingValueEvent` -/
structure StagingValue where
  proposal : ProposalValue
  committable : Bool
  payload : Proposal

/-- `pinnedValueEvent` -/
structure PinnedValue where
  proposal : ProposalValue
  payloadOK : Bool
  payload : Proposal

namespace ProposalStore

variable (st : ProposalStore)

/-- The assembler of a value; the zero assembler if there is none. -/
def assembler (pv : ProposalValue) : BlockAssembler :=
  st.assemblers.getD pv {}

/-- `trim`: keep the assemblers of the pinned and of the relevant values, never that of bottom. -/
def trim (p : Player) : ProposalStore :=
  let keep (m : Dict ProposalValue BlockAssembler) (pv : ProposalValue) :=
    m.insert pv ((st.assembler pv).trim p.period)
  { st with
    assemblers :=
      (st.relevant.values.foldl keep (keep ∅ st.pinned)).erase bottom }

/-- `lastRelevant`: the greatest period for which the value is relevant, or `(0, true)` if it is
pinned. -/
def lastRelevant (pv : ProposalValue) : Period × Bool :=
  if st.pinned = pv then (0, true)
  else ((st.relevant.entries.filter fun e => e.2 = pv).foldl (fun p e => max p e.1) 0, false)

/-- The update of the store when its period accepts the proposal-vote `v`. -/
def acceptVote (p : Player) (v : Vote) : ProposalStore :=
  let ea := st.assembler v.r.proposal
  let ea := { ea with authenticators := ea.authenticators ++ [v] }
  trim { st with
    assemblers := st.assemblers.insert v.r.proposal ea
    relevant := st.relevant.insert v.r.period v.r.proposal } p

/-- `proposalStore.handle` of a `payloadPresent` event. -/
def payloadPresent (p : Player) (up : UnauthenticatedProposal) : ProposalStore × PayloadResult :=
  let pv := up.value
  match st.assemblers.lookup pv with
  | none => (st, .rejected .noAssemblerOnPresent)
  | some ea =>
    let (ea', err) := ea.addPipeline up
    let st' := { st with assemblers := st.assemblers.insert pv ea' }
    if err ≠ .nil then (st', .rejected err)
    else
      let (relevantPeriod, pinned) := st'.lastRelevant pv
      (st', .pipelined 0 (ea.authenticator p.period) relevantPeriod pinned pv up)

/-- The part of `proposalStore.handle` of a `payloadVerified` event before the staged value is read.
-/
def bindPayload (pp : Proposal) : ProposalStore × Except SerErr BlockAssembler :=
  match st.assemblers.lookup pp.value with
  | none => (st, .error .noAssemblerOnVerified)
  | some ea =>
    let (ea', err) := ea.bind pp
    ({ st with assemblers := st.assemblers.insert pp.value ea' },
      if err ≠ .nil then .error err else .ok ea)

/-- `proposalStore.handle` of a `newPeriod` event, given the staged value of the period the player
leaves. -/
def newPeriod (p : Player) (target : Period) (starting staged : ProposalValue) : ProposalStore :=
  let pinned := if starting ≠ bottom then starting else if staged ≠ bottom then staged
    else st.pinned
  trim { st with
    pinned := pinned
    relevant := st.relevant.filterKeys fun per => target ≤ nextPeriod per } p

/-- `proposalStore.handle` of a `newRound` event. -/
def newRound (p : Player) : M (Option PayloadResult) :=
  match st.assemblers.entries with
  | [] => pure none
  | [⟨pv, ea⟩] =>
    if ea.filled then
      let (relevantPeriod, pinned) := st.lastRelevant pv
      pure (some (.pipelined 0 (ea.authenticator p.period) relevantPeriod pinned pv ea.pipeline))
    else pure none
  | _ => throw .assemblers

/-- The update of the store on a soft or cert threshold for `pv` in period `per`, and the
authenticator if the value is committable. -/
def threshold (p : Player) (per : Period) (pv : ProposalValue) : ProposalStore × Option Vote :=
  if (st.assembler pv).assembled then (st, some ((st.assembler pv).authenticator p.period))
  else
    (trim { st with
      assemblers := st.assemblers.insert pv (st.assembler pv)
      relevant := st.relevant.insert per pv } p, none)

/-- `proposalStore.handle` of a `readStaging` event, given the tracker's staged value. -/
def readStaging (staging : ProposalValue) : StagingValue where
  proposal := staging
  committable := (st.assembler staging).assembled
  payload := (st.assembler staging).payload

/-- `proposalStore.handle` of a `readPinned` event. -/
def readPinned : PinnedValue where
  proposal := st.pinned
  payloadOK := (st.assembler st.pinned).assembled
  payload := (st.assembler st.pinned).payload

/-! ## What trim keeps -/

theorem getD_foldl_insert {K V : Type} [DecidableEq K] (X : K → V) (d : V) (l : List K)
    (m : Dict K V) (k : K) :
    Dict.getD (l.foldl (fun m k' => m.insert k' (X k')) m) k d =
      if k ∈ l then X k else m.getD k d := by
  induction l generalizing m with
  | nil => simp
  | cons k' l ih =>
    rw [List.foldl_cons, ih, Dict.getD_insert]
    by_cases hl : k ∈ l
    · simp [hl]
    · by_cases hk : k = k'
      · subst hk; simp
      · simp [hl, hk]

/-- The assembler of a value is kept if the value is pinned or relevant in some period. -/
theorem assembler_trim (p : Player) (pv : ProposalValue) :
    (st.trim p).assembler pv =
      if pv ≠ bottom ∧ (pv = st.pinned ∨ pv ∈ st.relevant.values) then
        (st.assembler pv).trim p.period
      else {} := by
  have hg : (st.trim p).assembler pv = if pv = bottom then {} else
      if pv ∈ st.pinned :: st.relevant.values then (st.assembler pv).trim p.period else {} := by
    unfold trim
    simp only [assembler, Dict.getD, Dict.lookup_erase']
    by_cases hb : pv = bottom
    · simp [hb]
    · rw [if_neg hb, if_neg hb]
      have h := getD_foldl_insert (fun pv => (st.assembler pv).trim p.period) {}
        (st.pinned :: st.relevant.values) ∅ pv
      exact h
  rw [hg]
  by_cases hb : pv = bottom
  · simp [hb]
  · simp [hb]

/-- Trimming never makes a value assembled. -/
theorem assembled_of_trim {st : ProposalStore} {p : Player} {pv : ProposalValue}
    (h : ((st.trim p).assembler pv).assembled = true) : (st.assembler pv).assembled = true := by
  rw [assembler_trim] at h
  split_ifs at h
  exact h

theorem assembler_insert (pv pv' : ProposalValue) (ea : BlockAssembler)
    (rel : Dict Period ProposalValue) (pin : ProposalValue) :
    ({ relevant := rel, pinned := pin, assemblers := st.assemblers.insert pv' ea } :
      ProposalStore).assembler pv = if pv = pv' then ea else st.assembler pv := by
  simp [assembler, Dict.getD_insert]

/-- A soft or cert threshold is committable exactly if its value is assembled, and it does not
change which of the two it is. -/
theorem threshold_assembled (p : Player) (per : Period) (pv : ProposalValue) :
    ((st.threshold p per pv).1.assembler pv).assembled = (st.assembler pv).assembled ∧
      (st.threshold p per pv).2.isSome = (st.assembler pv).assembled := by
  unfold threshold
  cases ha : (st.assembler pv).assembled with
  | true => simp [ha]
  | false =>
    simp only [Bool.false_eq_true, if_false, Option.isSome_none, and_true]
    rw [Bool.eq_false_iff]
    intro h
    have h' := assembled_of_trim h
    rw [assembler_insert, if_pos rfl, ha] at h'
    cases h'

end ProposalStore

/-! ## The frozen value -/

namespace ProposalTracker

/-- The tracker of a period after its verified proposal-votes, in the order of their delivery. -/
def run (vs : List Vote) : ProposalTracker := vs.foldl (fun t v => (t.voteVerified v).1) {}

/-- The first vote of each sender. -/
def firsts (vs : List Vote) : List Vote :=
  vs.foldl (fun l v => if v.r.sender ∈ l.map (·.r.sender) then l else l ++ [v]) []

def least (vs : List Vote) : Option Vote := (firsts vs).argmin (·.cred.lowestOutput)

theorem firsts_append (vs : List Vote) (v : Vote) : firsts (vs ++ [v]) =
    if v.r.sender ∈ (firsts vs).map (·.r.sender) then firsts vs else firsts vs ++ [v] := by
  simp [firsts]

theorem run_eq (vs : List Vote) :
    (∀ a, ((run vs).duplicate.lookup a).isSome ↔ a ∈ (firsts vs).map (·.r.sender)) ∧
      (run vs).staging = bottom ∧
      (run vs).freezer = ⟨(least vs).getD {}, (least vs).isSome, false⟩ := by
  induction vs using List.reverseRecOn with
  | nil => exact ⟨by simp [run, firsts], rfl, rfl⟩
  | append_singleton vs v ih =>
    obtain ⟨hd, hs, hf⟩ := ih
    have hr : run (vs ++ [v]) = ((run vs).voteVerified v).1 := by simp [run]
    rw [hr, voteVerified, least, firsts_append]
    by_cases hv : v.r.sender ∈ (firsts vs).map (·.r.sender)
    · rw [if_pos ((hd _).mpr hv), if_pos hv]
      exact ⟨hd, hs, hf⟩
    · rw [if_neg (mt (hd _).mp hv), if_neg hv]
      simp only [hs, ne_eq, not_true_eq_false, if_false, List.argmin_concat]
      refine ⟨fun a => ?_, trivial, ?_⟩
      · rw [Dict.lookup_insert']
        split_ifs with ha <;> simp_all
      · rw [least] at hf
        cases hl : (firsts vs).argmin (·.cred.lowestOutput) with
        | none => simp [hf, hl, ProposalSeeker.accept]
        | some u =>
          by_cases hc : v.cred.lowestOutput < u.cred.lowestOutput <;>
            simp [hf, hl, ProposalSeeker.accept, Credential.less, hc]

theorem mem_firsts {vs : List Vote}
    (hs : ∀ u ∈ vs, ∀ v ∈ vs, u.r.sender = v.r.sender → u = v) : ∀ u, u ∈ firsts vs ↔ u ∈ vs := by
  induction vs using List.reverseRecOn with
  | nil => exact fun _ => .rfl
  | append_singleton vs v ih =>
    intro u
    have hi := ih fun u hu v hv => hs u (by simp [hu]) v (by simp [hv])
    rw [firsts_append]
    split_ifs with hv
    · obtain ⟨w, hw, he⟩ := List.mem_map.mp hv
      obtain rfl := hs w (by simp [← hi, hw]) v (by simp) he
      simpa [hi] using fun h => h ▸ (hi _).mp hw
    · simp [hi]

/-- **The frozen value** is that of the least credential among the first votes of the senders,
whatever the order of the votes if no sender has two and no two credentials are equal. -/
theorem frozen_least (vs : List Vote) :
    (run vs).proposalFrozen.2 = ((least vs).getD {}).r.proposal ∧
      ∀ vs', vs.Perm vs' → (∀ u ∈ vs, ∀ v ∈ vs, u.r.sender = v.r.sender → u = v) →
        (∀ u ∈ vs, ∀ v ∈ vs, u.cred.lowestOutput = v.cred.lowestOutput → u = v) →
        (run vs').proposalFrozen.2 = (run vs).proposalFrozen.2 := by
  have hv : ∀ vs, (run vs).proposalFrozen.2 = ((least vs).getD {}).r.proposal := fun vs => by
    simp [proposalFrozen, (run_eq vs).2.2]
  refine ⟨hv vs, fun vs' hp hs hc => ?_⟩
  have hl : ∀ l, l.Perm vs → ∀ w, w ∈ least l ↔
      w ∈ vs ∧ ∀ u ∈ vs, w.cred.lowestOutput ≤ u.cred.lowestOutput := by
    intro l hl w
    have hm : ∀ u, u ∈ firsts l ↔ u ∈ vs := fun u => by
      rw [mem_firsts (by simpa [hl.mem_iff] using hs), hl.mem_iff]
    rw [least, List.mem_argmin_iff]
    simp only [hm]
    refine ⟨fun h => ⟨h.1, h.2.1⟩, fun h => ⟨h.1, h.2, fun u hu he => ?_⟩⟩
    rw [hc u hu w h.1 (le_antisymm he (h.2 u hu))]
  rw [hv, hv, Option.ext fun w => (hl vs' hp.symm w).trans (hl vs .rfl w).symm]

end ProposalTracker

end Novarand.Agreement
