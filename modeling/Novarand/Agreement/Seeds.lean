import Novarand.Agreement.BundleVerify
import Novarand.Ledger.Blocks

/-!
# The seed of a proposal

The proposer derives the seed of its block, and a node that receives the block derives it again from
its own ledger. The texts put around the errors of the ledger are left out.
-/

namespace Novarand.Agreement.Seeds

open Ledger (Block)

inductive SeedError
  | ledger (code : ℕ)
  | noProof
  | badProof (prevSeed seedProof : Digest)
  | badSeed (want got : Digest)
  | wrongRound (round current : Round)
  | rejected
  | divide
  | panic

structure SeedParams where
  seedLookback : ℕ
  seedRefreshInterval : ℕ

/-- Of the record of an account only the selection key is read. -/
structure LedgerReader where
  consensusParams : Round → Except SeedError SeedParams
  seed : Round → Except SeedError Digest
  lookupAgreement : Round → Address → Except SeedError Digest
  lookupDigest : Round → Except SeedError Digest

/-- The VRF, with its completeness. -/
structure Vrf where
  pk : Digest → Digest
  prove : Digest → Digest → Option Digest
  hash : Digest → Option Digest
  verify : Digest → Digest → Digest → Bool
  complete : ∀ sk m pf, prove sk m = some pf → verify (pk sk) pf m = true

/-- What is hashed on the way to a seed. -/
inductive Hashable
  | proposerSeed (addr : Address) (vrf : Digest)
  | seed (seed : Digest)
  | seedInput (alpha history : Digest)

structure UnauthenticatedProposal where
  block : Block
  seedProof : Digest
  originalPeriod : Period
  originalProposer : Address

def balanceRound (r : Round) (cparams : SeedParams) : Round :=
  r - 2 * cparams.seedRefreshInterval * cparams.seedLookback % 2 ^ 64

def seedRound (r : Round) (cparams : SeedParams) : Round := r - cparams.seedLookback

variable (V : Vrf) (H : Hashable → Digest) (ledger : LedgerReader)

/-- The old digest mixed in at refresh rounds, which both sides read by the same lines. -/
def history (rnd : Round) (cparams : SeedParams) : Except SeedError Digest :=
  let span := cparams.seedLookback * cparams.seedRefreshInterval % 2 ^ 64
  if span = 0 then throw .divide
  else if rnd % span < cparams.seedLookback then ledger.lookupDigest (rnd - span)
  else pure 0

def deriveNewSeed (address : Address) (sk : Digest) (rnd : Round) (period : Period) :
    Except SeedError (Digest × Digest) := do
  let cparams ← ledger.consensusParams (paramsRound rnd)
  let prevSeed ← ledger.seed (seedRound rnd cparams)
  let (alpha, seedProof) ← (if period = 0 then do
      let seedProof ← orThrow .noProof (V.prove sk prevSeed)
      let vrfOut ← orThrow .panic (V.hash seedProof)
      pure (H (.proposerSeed address vrfOut), seedProof)
    else pure (H (.seed prevSeed), 0))
  let hist ← history ledger rnd cparams
  pure (H (.seedInput alpha hist), seedProof)

def verifyNewSeed (p : UnauthenticatedProposal) : Except SeedError Unit := do
  let rnd := p.block.round
  let cparams ← ledger.consensusParams (paramsRound rnd)
  let selectionID ← ledger.lookupAgreement (balanceRound rnd cparams) p.originalProposer
  let prevSeed ← ledger.seed (seedRound rnd cparams)
  let alpha ← (if p.originalPeriod = 0 then do
      failIf (V.verify selectionID p.seedProof prevSeed = false) (.badProof prevSeed p.seedProof)
      let vrfOut ← orThrow .panic (V.hash p.seedProof)
      pure (H (.proposerSeed p.originalProposer vrfOut))
    else pure (H (.seed prevSeed)))
  let hist ← history ledger rnd cparams
  let seed := H (.seedInput alpha hist)
  failIf (p.block.seed ≠ seed) (.badSeed seed p.block.seed)

/-- The proposal-value returned beside the proposal is the `value` of that proposal. -/
def proposalForBlock (address : Address) (sk : Digest) (ve : Block) (period : Period) :
    Except SeedError UnauthenticatedProposal := do
  let (newSeed, seedProof) ← deriveNewSeed V H ledger address sk ve.round period
  pure ⟨ve.withSeed newSeed, seedProof, period, address⟩

def validate (validator : Block → Option Block) (p : UnauthenticatedProposal) (current : Round) :
    Except SeedError UnauthenticatedProposal := do
  failIf (p.block.round ≠ current) (.wrongRound p.block.round current)
  verifyNewSeed V H ledger p
  let ve ← orThrow .rejected (validator p.block)
  pure { p with block := ve }

variable {V H ledger} {address : Address} {sk : Digest} {ve : Block} {period : Period}
  {p : UnauthenticatedProposal}

/-- **The seed of an honest proposal is accepted**: what `proposalForBlock` returns passes
`verifyNewSeed` over the same ledger, and `validate` if the validator takes the block, for a proposer
whose record at the balance round holds its key (only read in period 0). -/
theorem proposalForBlock_valid (h : proposalForBlock V H ledger address sk ve period = .ok p)
    (hk : ∀ cparams, ledger.consensusParams (paramsRound ve.round) = .ok cparams →
      ∃ key, ledger.lookupAgreement (balanceRound ve.round cparams) address = .ok key ∧
        (period = 0 → key = V.pk sk)) :
    verifyNewSeed V H ledger p = .ok () ∧ ∀ validator block, validator p.block = some block →
      validate V H ledger validator p ve.round = .ok { p with block } := by
  simp only [proposalForBlock, deriveNewSeed, bind_ok, Prod.exists, pure_ok] at h
  obtain ⟨_, pf, ⟨cparams, hc, prev, hp, alpha, _, ha, hist, hh, rfl, rfl⟩, rfl⟩ := h
  obtain ⟨key, hl, hkey⟩ := hk cparams hc
  have hs : verifyNewSeed V H ledger
      ⟨ve.withSeed (H (.seedInput alpha hist)), pf, period, address⟩ = .ok () := by
    simp only [verifyNewSeed, Block.withSeed, hc, hl, hp, ok_bind]
    split_ifs at ha ⊢ with h0
    · simp only [bind_ok, pure_pair, orThrow_ok] at ha
      obtain ⟨_, hq, out, ho, rfl, rfl⟩ := ha
      rw [hkey h0, V.complete sk prev _ hq, ho]
      simp [failIf, hh, orThrow, ok_bind]
    · obtain ⟨rfl, rfl⟩ := pure_pair.mp ha
      simp [failIf, hh, ok_bind]
  refine ⟨hs, fun validator block hb => ?_⟩
  rw [validate, hs, hb]
  simp [failIf, Block.withSeed, ok_bind, orThrow]

/-- Round 6 is a refresh round for the lookback 2 and the interval 3. -/
theorem proposalForBlock_valid_refresh : ∃ p, p.block.round = 6 ∧
    verifyNewSeed ⟨id, fun _ m => some m, some, fun _ pf m => pf == m, by simp⟩ (fun _ => 9)
      ⟨fun _ => .ok ⟨2, 3⟩, .ok, fun _ => .ok, .ok⟩ p = .ok () :=
  ⟨_, rfl, (@proposalForBlock_valid _ _ _ 5 5 { round := 6 } 0 _ rfl
    fun _ _ => ⟨5, rfl, fun _ => rfl⟩).1⟩

end Novarand.Agreement.Seeds
