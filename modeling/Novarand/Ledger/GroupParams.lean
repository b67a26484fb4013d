import Novarand.Ledger.MachineRule

/-!
# The parameters a group leaves

The evaluator drops the parameters of a group together with the group. `groupParams` keeps them: those
at the end of a group that is evaluated, or at the point where a transaction of it fails.
-/

namespace Novarand.Ledger

open EvalParams Apply

open Cow (Over Ready Evolves Charged)

variable {txads txgroup : List SignedTxnWithAD} {txib : SignedTxnInBlock} {ep' : EvalParams}
  {n n' : Round}

namespace BlockEvaluator

section Defs

variable {P : Type} (env : Environment P) (ev : BlockEvaluator)

/-- The parameters at the point where a transaction of a group fails. -/
def failedParams (gi : ℕ) (txn : SignedTxn) (ep : P) (c : Cow) : P :=
  match checkWhen ev.validate (ev.checkTransaction env txn (env.txid txn.txn) c),
    ev.payFee txn.txn c with
  | .ok _, .ok (ad, c') =>
    if txn.txn.IsCall then
      (outerCall env.avm ev.ctx gi txn.txn ad ep c.txnCounter (rekey txn.txn c')).1
    else ep
  | _, _ => ep

/-- The parameters when the evaluation of the transactions ends. -/
def loopParams (size : ℕ) (group : Digest) : ℕ → List SignedTxnWithAD → GroupState P → P
  | _, [], g => g.ep
  | gi, txad :: rest, g =>
    match ev.groupLoop env size group gi [txad] g with
    | .ok g => loopParams size group (gi + 1) rest g
    | .error _ => ev.failedParams env gi txad.signedTxn g.ep g.cow

/-- How the evaluation of a group starts. -/
def startGroup (txgroup : List SignedTxnWithAD) : GroupState P where
  cow := ev.state.child
  certNext := ev.certNext
  ep := env.avm.newEvalParams (txgroup.map (·.signedTxn)) ev.ctx.proto
    { feeSink := ev.ctx.feeSink, rewardsPool := ev.ctx.rewardsPool }

/-- The parameters when the evaluation of a group that is not too large ends. -/
def groupParams (txgroup : List SignedTxnWithAD) : P :=
  ev.loopParams env txgroup.length ((txgroup.head?.map (·.signedTxn.txn.group)).getD 0) 0 txgroup
    (ev.startGroup env txgroup)

end Defs

variable {ev : BlockEvaluator} {size : ℕ} {group : Digest} {gi : ℕ} {c c' c1 : Cow}

section Loop

variable {P : Type} {env : Environment P} {g g' : GroupState P}

/-- One transaction of the loop. -/
theorem groupLoop_single {txad : SignedTxnWithAD}
    (hr : ev.groupLoop env size group gi [txad] g = .ok g') :
    ∃ txib, ev.transaction env gi txad.signedTxn txad.applyData g.ep g.certNext g.cow =
      .ok (txib, g'.ep, g'.certNext, g'.cow) := by
  simp only [groupLoop, bind_ok, pure_ok] at hr
  obtain ⟨⟨txib, ep, n, cow⟩, ht, ⟨⟩, -, _, -, rfl⟩ := hr
  exact ⟨txib, ht⟩

section Cons

variable {txad : SignedTxnWithAD} {rest : List SignedTxnWithAD} {e : EvalError}

theorem groupLoop_cons : ev.groupLoop env size group gi (txad :: rest) g =
    ev.groupLoop env size group gi [txad] g >>= ev.groupLoop env size group (gi + 1) rest := by
  simp [groupLoop]

theorem loopParams_next (ho : ev.groupLoop env size group gi [txad] g = .ok g') :
    ev.loopParams env size group gi (txad :: rest) g =
      ev.loopParams env size group (gi + 1) rest g' := by simp [loopParams, ho]

theorem loopParams_error (ho : ev.groupLoop env size group gi [txad] g = .error e) :
    ev.loopParams env size group gi (txad :: rest) g =
      ev.failedParams env gi txad.signedTxn g.ep g.cow := by simp [loopParams, ho]

end Cons

/-- What a transaction does to the parameters: only an application call changes them before the
recording. -/
theorem transaction_params {txn : SignedTxn} {ad : ApplyData} {ep ep' : P}
    (hr : ev.transaction env gi txn ad ep n c = .ok (txib, ep', n', c')) :
    ∃ ad1 c1 ep1 ad2 c2, ev.payFee txn.txn c = .ok (ad1, c1) ∧ ep' = env.avm.recordAD ep1 gi ad2 ∧
      (txn.txn.IsCall → outerCall env.avm ev.ctx gi txn.txn ad1 ep c.txnCounter
        (rekey txn.txn c1) = (ep1, .ok (ad2, c2))) ∧ (¬ txn.txn.IsCall → ep1 = ep) := by
  simp only [transaction, applyTransaction, bind_ok, pure_pair] at hr
  obtain ⟨⟨⟩, -, ⟨_, _, _, _⟩, ⟨⟨ad1, c1⟩, hf, ⟨ad2, ep2, _, c2⟩, ht, -, rfl, -, rfl⟩,
    ⟨⟩, -, _, -, ⟨⟩, -, -, rfl, -, -⟩ := hr
  refine ⟨ad1, c1, ep2, ad2, c2, hf, rfl, ?_, ?_⟩
  · intro hl
    have hl : txn.txn.type = .applicationCall := hl
    simp only [applyType, hl] at ht
    split at ht
    · rename_i ep3 ad3 c3 hu
      obtain ⟨rfl, rfl, -, rfl⟩ := ht
      exact hu
    · cases ht
  · intro hl
    unfold applyType at ht
    split at ht
    case h_1 | h_2 | h_3 | h_4 | h_5 =>
      obtain ⟨_, -, he⟩ := bind_ok.mp ht
      cases he
      rfl
    case h_6 hx => exact absurd hx hl
    · cases ht
      rfl
    · split_ifs at ht
      · obtain ⟨_, -, he⟩ := bind_ok.mp ht
        cases he
        rfl
      · cases ht
        rfl
    · cases ht

end Loop

/-! ## The rule for groups -/

variable {m : Machine} {fuel : ℕ} {num : Prop} {env : Environment EvalParams}
  {g g' : GroupState EvalParams} {p : Cow}

/-- The transactions still to come are those of the parameters. -/
def Pending (gi : ℕ) (txads : List SignedTxnWithAD) (ep : EvalParams) : Prop :=
  ∀ j txad, txads[j]? = some txad → ep.txn (gi + j) = txad.signedTxn.txn

variable {ep : EvalParams} {ad : ApplyData} {c : Cow} {txn : SignedTxn}

section

variable {txad : SignedTxnWithAD} {rest : List SignedTxnWithAD} (h : Pending gi (txad :: rest) ep)
include h

theorem Pending.head : ep.txn gi = txad.signedTxn.txn := h 0 txad rfl

theorem Pending.tail (hg : ep.Grows ep') : Pending (gi + 1) rest ep' := by
  intro j tx' hj
  rw [hg.txn, Nat.add_right_comm]
  exact h (j + 1) tx' hj

end

theorem pending_new (txgroup : List SignedTxnWithAD) (proto : ConsensusParams)
    (specials : SpecialAddresses) :
    Pending 0 txgroup (new (txgroup.map (·.signedTxn)) proto specials) := by
  intro j _ hj
  simp [txn, entry, new, hj]

/-- The state that the call of a transaction starts from, once the fee is paid. -/
theorem ready_rekey (hf : ev.payFee txn.txn c = .ok (ad, c1)) (h : Ready num [] p c)
    (hs : c.view.Settled) :
    (rekey txn.txn c1).txnCounter = c.txnCounter ∧
      Ready num [] p (rekey txn.txn c1) ∧ (rekey txn.txn c1).view.Settled := by
  have h1 : Charged ev.ctx num [] p txn.txn.sender c c1 := payFee_charged h.toOver hf
  have h2 := h1.trans (h1.charged_rekey h1.upToDate trivial)
  exact ⟨h2.counter_eq, h.evolves h2.toEvolves, h2.settled hs⟩

/-- The ledger of a group between two of its transactions. -/
def Between (num : Prop) (c : Cow) : Prop := num → ∃ p, Ready num [] p c ∧ c.view.Settled

variable {R : m.Rule fuel num}

section

variable (hv : env.avm = m.avm fuel) (hc : Between num c) (htxn : ep.txn gi = txn.txn)
  (hd : R.Good ep)
include hv hc htxn hd

theorem outerCall_left (hf : ev.payFee txn.txn c = .ok (ad, c1)) :
    R.After False ep (outerCall env.avm ev.ctx gi txn.txn ad ep c.txnCounter
      (rekey txn.txn c1)) := by
  rw [hv]
  refine R.outerCall_after hd htxn ?_ ?_
  · intro hn
    obtain ⟨p, hr, hs⟩ := hc hn
    exact (ready_rekey hf hr hs).1.symm
  · intro hn
    obtain ⟨p, hr, hs⟩ := hc hn
    exact ⟨p, (ready_rekey hf hr hs).2⟩

theorem transaction_left (hr : ev.transaction env gi txn ad ep n c = .ok (txib, ep', n', c')) :
    ep.Grows ep' ∧ R.Good ep' := by
  obtain ⟨_, _, ep1, ad2, _, hf, rfl, hl, ht⟩ := transaction_params hr
  have ho : ep.Grows ep1 ∧ R.Good ep1 := by
    by_cases h : txn.txn.IsCall
    · have ha := outerCall_left (R := R) hv hc htxn hd hf
      rw [hl h] at ha
      exact ⟨ha.grows, ha.good (.inr ⟨_, rfl⟩)⟩
    · rw [ht h]
      exact ⟨.refl ep, hd⟩
  have hs : ep1.Same (env.avm.recordAD ep1 gi ad2) := by
    rw [hv]
    exact Machine.same_recordAD gi ad2
  exact ⟨ho.1.trans hs.grows, R.same ho.2 hs⟩

theorem failedParams_left :
    ep.Grows (ev.failedParams env gi txn ep c) ∧ R.Bad (ev.failedParams env gi txn ep c) := by
  unfold failedParams
  split
  · rename_i ad c1 _ hf
    split_ifs with hl
    · have ha := outerCall_left (R := R) hv hc htxn hd hf
      exact ⟨ha.grows, ha.bad⟩
    · exact ⟨.refl ep, R.bad hd⟩
  · exact ⟨.refl ep, R.bad hd⟩

end

/-- The transactions of a group, evaluated to the end or not. -/
theorem loopParams_left (hv : env.avm = m.avm fuel) (hc : Between num g.cow)
    (hp : Pending gi txads g.ep) (hd : R.Good g.ep) :
    R.After False g.ep
      (ev.loopParams env size group gi txads g, ev.groupLoop env size group gi txads g) := by
  induction txads generalizing gi g with
  | nil => exact .of_good (.refl _) hd _
  | cons tx txads ih =>
    cases ho : ev.groupLoop env size group gi [tx] g with
    | error e =>
      rw [loopParams_error ho, groupLoop_cons, ho]
      have hl : g.ep.Grows (ev.failedParams env gi tx.signedTxn g.ep g.cow) ∧
          R.Bad (ev.failedParams env gi tx.signedTxn g.ep g.cow) :=
        failedParams_left hv hc hp.head hd
      refine ⟨hl.1, ?_, hl.2⟩
      rintro (⟨⟨⟩⟩ | ⟨_, ⟨⟩⟩)
    | ok _ =>
      rw [loopParams_next ho, groupLoop_cons, ho]
      obtain ⟨_, ht⟩ := groupLoop_single ho
      obtain ⟨hg, hg1⟩ := transaction_left hv hc hp.head hd ht
      refine .of_grows hg (ih ?_ (hp.tail hg) hg1)
      intro hn
      obtain ⟨p, hr, hs⟩ := hc hn
      obtain ⟨he, hs'⟩ := evolves_transaction Avm.submits_any hr hs trivial ht
      exact ⟨p, hr.evolves he, hs'⟩

/-- A group without application calls leaves the parameters as they are. -/
theorem loopParams_same (hv : env.avm = m.avm fuel)
    (hn : ∀ txad ∈ txads, ¬ txad.signedTxn.txn.IsCall) :
    g.ep.Same (ev.loopParams env size group gi txads g) := by
  induction txads generalizing gi g with
  | nil => exact .refl _
  | cons txad txads ih =>
    obtain ⟨hh, ht⟩ := List.forall_mem_cons.mp hn
    cases ho : ev.groupLoop env size group gi [txad] g with
    | error e =>
      rw [loopParams_error ho]
      simp only [failedParams]
      split
      · rw [if_neg hh]
        exact .refl _
      · exact .refl _
    | ok g1 =>
      rw [loopParams_next ho]
      obtain ⟨_, hx⟩ := groupLoop_single ho
      obtain ⟨_, _, _, ad2, _, _, he, -, h1⟩ := transaction_params hx
      have hs : g.ep.Same g1.ep := by
        rw [he, h1 hh, hv]
        exact Machine.same_recordAD gi ad2
      exact hs.trans (ih ht)

/-- The group of a block evaluator whose ledger has given out its ids by the counter. -/
theorem groupParams_left (hv : env.avm = m.avm fuel) (txgroup : List SignedTxnWithAD)
    (hc : Between num ev.state)
    (hd : R.Good (new (txgroup.map (·.signedTxn)) ev.ctx.proto
      { feeSink := ev.ctx.feeSink, rewardsPool := ev.ctx.rewardsPool })) :
    R.After False (ev.startGroup env txgroup).ep
      (ev.groupParams env txgroup, ev.groupLoop env txgroup.length
        ((txgroup.head?.map (·.signedTxn.txn.group)).getD 0) 0 txgroup
        (ev.startGroup env txgroup)) := by
  have he : (ev.startGroup env txgroup).ep = new (txgroup.map (·.signedTxn)) ev.ctx.proto
      { feeSink := ev.ctx.feeSink, rewardsPool := ev.ctx.rewardsPool } := by
    simp only [startGroup, hv]
    rfl
  refine loopParams_left hv ?_ (by rw [he]; exact pending_new _ _ _) (by rwa [he])
  intro hn
  obtain ⟨p, hr, hs⟩ := hc hn
  exact ⟨ev.state, hr.child hr.known, (Cow.view_child ev.state).symm ▸ hs⟩

end BlockEvaluator

/-- The loop of a group that is accepted comes to its end. -/
theorem BlockEvaluator.groupLoop_of_accepted {P : Type} {env : Environment P}
    {ev ev' : BlockEvaluator} (hr : ev.transactionGroup env txgroup = .ok ev') :
    ∃ g, ev.groupLoop env txgroup.length ((txgroup.head?.map (·.signedTxn.txn.group)).getD 0) 0 txgroup
      (ev.startGroup env txgroup) = .ok g := by
  cases txgroup with
  | nil => exact ⟨_, rfl⟩
  | cons _ _ =>
    simp only [transactionGroup, bind_ok] at hr
    obtain ⟨⟨⟩, -, g, hl, -⟩ := hr
    exact ⟨g, hl⟩

/-! ## A small machine

Groups are evaluated with this machine where a statement is tried on a concrete run. -/

namespace Sample

/-- An instruction is a byte: `1` writes a global value, `2`, `3` and `5` begin, add and submit inner
transactions, `4` makes the last one a payment to the account 1, `6` lets it rekey to that, and `7`
makes it the creation of an application. -/
def effect (b : UInt8) (rest : Bytes) : Effect Bytes :=
  if b = 1 then .globalPut [0] (.uint 7) rest
  else if b = 2 then .txBegin rest
  else if b = 3 then .txNext rest
  else if b = 4 then
    .txField (fun _ _ tx => pure { tx with type := .payment, receiver := 1, amount := 1 }) rest
  else if b = 5 then .txSubmit rest
  else if b = 6 then .txField (fun _ _ tx => pure { tx with rekeyTo := 1 }) rest
  else if b = 7 then
    .txField (fun _ _ tx => pure { tx with type := .applicationCall, approvalProgram := [0] }) rest
  else .next rest

/-- The application 11 has the address 4. -/
def machine : Machine where
  State := Bytes
  start program _ := pure (6, program)
  fetch program :=
    match program with
    | [] => .finished (pure true)
    | b :: rest => .op 1 Nat.one_pos (effect b rest)
  appAddress aidx := if aidx = 11 then 4 else aidx + 100
  programVersion _ := pure 6
  wellFormed _ _ _ := pure ()
  txid _ := 0
  innerID _ _ _ := 0
  groupHash _ := 0
  checkContractVersions _ _ _ := pure ()
  checkContract _ _ := pure ()
  encodeDelta _ := []
  decodeDelta _ := .empty

/-- The environment `env` with this machine. -/
def machineEnv (fuel : ℕ) : Environment EvalParams where
  consensus := env.consensus
  versionLength := env.versionLength
  txid := env.txid
  groupHash := env.groupHash
  headerHash := env.headerHash
  paysetCommit := env.paysetCommit
  encodedLength := env.encodedLength
  validateCompactCert := env.validateCompactCert
  verifyGroups := env.verifyGroups
  compactCertSender := env.compactCertSender
  testnetGenesisHash := env.testnetGenesisHash
  testnetBank := env.testnetBank
  avm := machine.avm fuel

/-- An application is created, with the given program. -/
def creates (program : Bytes) : List SignedTxnWithAD :=
  [signed 1 { type := .applicationCall, approvalProgram := program }]

end Sample

end Novarand.Ledger
