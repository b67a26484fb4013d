import Novarand.Crypto.Hashes
import Novarand.Lib.Dict
import Novarand.Lib.Outcome
import Novarand.Lib.Workers

/-!
# Merkle trees over arrays

The tree of `merklearray`, its proofs and their verification. A layer is hashed by a pool of
workers, so building is a relation to its possible outcomes; everything else is a function.

Two indices are out of bounds only if a caller breaks an invariant of the package; they are outcomes
of their own (`indexOutOfRange`, `sliceOutOfRange`), and so is a loop that does not end (`noEnd`).
-/

namespace Novarand.MerkleArray

open Crypto

inductive MerkleError
  | rootMismatch
  | provingZeroCommitment
  | nonEmptyProofForEmptyElements
  | posOutOfBound
  | getOutOfBound
  | noMoreHints
  | beyondHeight
  | partialLayerSize
  /-- The error of an array's `Marshal`. -/
  | marshal
  | indexOutOfRange
  | sliceOutOfRange
  | noEnd
  deriving DecidableEq

/-- What crashes the program or keeps it from returning. -/
def MerkleError.Fatal : MerkleError → Prop
  | indexOutOfRange | sliceOutOfRange | noEnd => True
  | _ => False

abbrev Layer := List Bytes

/-! ### Internal nodes -/

/-- What `copy` leaves in a zeroed buffer of `n` bytes. -/
def fit (n : ℕ) (bytes : Bytes) : Bytes := bytes.take n ++ List.replicate (n - bytes.length) 0

/-- `pair.ToBeHashed`: the right digest is copied to where the left one ends. -/
def pairToBeHashed (hashDigestSize : ℕ) (l r : Bytes) : Except MerkleError Hashable := do
  failIf (2 * hashDigestSize < l.length) .sliceOutOfRange
  return { id := .merkleArrayNode, data := l ++ fit (2 * hashDigestSize - l.length) r }

variable (H : Hashing) (t : HashType)

def hashPair (l r : Bytes) : Except MerkleError Bytes := do
  let p ← pairToBeHashed t.size l r
  return H.genericHashObj t p

/-! ### Building -/

/-- The interface `Array`. -/
structure HashableArray where
  length : ℕ
  marshal : ℕ → Except MerkleError Hashable

def merkleTreeToVectorCommitmentIndex (msbIndex : ℕ) (pathLen : UInt8) : Except MerkleError ℕ := do
  failIf (1 <<< pathLen.toNat % 2 ^ 64 ≤ msbIndex) .posOutOfBound
  return (BitVec.ofNat 64 msbIndex).reverse.toNat >>> (64 - pathLen).toNat

structure VectorCommitmentArray where
  array : HashableArray
  pathLen : UInt8
  paddedLen : ℕ

def bottomElement : Hashable := { id := .merkleVectorCommitmentBottomLeaf }

def generateVectorCommitmentArray (innerArray : HashableArray) : VectorCommitmentArray :=
  if innerArray.length = 0 ∨ innerArray.length = 1 then
    { array := innerArray, pathLen := 1, paddedLen := 1 }
  else
    let path := (innerArray.length - 1).size
    { array := innerArray, pathLen := UInt8.ofNat path, paddedLen := 1 <<< path % 2 ^ 64 }

def VectorCommitmentArray.marshal (vc : VectorCommitmentArray) (pos : ℕ) :
    Except MerkleError Hashable := do
  let lsbIndex ← merkleTreeToVectorCommitmentIndex pos vc.pathLen
  failIf (vc.paddedLen ≤ lsbIndex) .getOutOfBound
  if lsbIndex < vc.array.length then vc.array.marshal lsbIndex
  else return bottomElement

def VectorCommitmentArray.toArray (vc : VectorCommitmentArray) : HashableArray :=
  { length := vc.paddedLen, marshal := vc.marshal }

structure Tree where
  levels : List Layer := []
  numOfElements : ℕ
  hash : HashType
  isVectorCommitment : Bool := false

/-- `Root`; a layer of a tree is not empty. -/
def Tree.root (tree : Tree) : Bytes := (tree.levels.getLast?.bind List.head?).getD []

/-- What `buildWorker` computes for leaf `i`. -/
def leafTask (array : HashableArray) (i : ℕ) : Except MerkleError Bytes := do
  let m ← array.marshal i
  return H.genericHashObj t m

/-- What `upWorker` computes for the pair at `i`. -/
def pairTask (l : Layer) (i : ℕ) : Except MerkleError Bytes := do
  let left ← orThrow .indexOutOfRange l[i]?
  hashPair H t left (l[i + 1]?.getD [])

/-- The outcomes of a pool of workers that fills a layer from `n` elements. -/
def FillOutcome (stride n : ℕ) (task : ℕ → Except MerkleError Bytes)
    (out : Except MerkleError Layer) : Prop :=
  ∃ ncpu > 0, ∃ p : Workers.Pool MerkleError Bytes,
    Workers.Reached stride n task ncpu p ∧ p.Final ∧
      out = match p.err with
        | some e => .error e
        | none => .ok ((List.range ((n + stride - 1) / stride)).map fun j => (p.out j).getD [])

/-- The outcomes of `buildLayers` from a layer on. -/
inductive BuildLayers : Layer → Except MerkleError (List Layer) → Prop
  | top {l} (hl : l.length ≤ 1) : BuildLayers l (.ok [l])
  | failed {l e} (hl : 1 < l.length)
      (hfill : FillOutcome 2 l.length (pairTask H t l) (.error e)) : BuildLayers l (.error e)
  | next {l newLayer out} (hl : 1 < l.length)
      (hfill : FillOutcome 2 l.length (pairTask H t l) (.ok newLayer))
      (hrest : BuildLayers newLayer out) : BuildLayers l (out.map (l :: ·))

/-- The outcomes of `Build`. -/
inductive Build (array : HashableArray) : Except MerkleError Tree → Prop
  | failed {e} (hfill : FillOutcome 1 array.length (leafTask H t array) (.error e)) :
    Build array (.error e)
  | empty (hfill : FillOutcome 1 array.length (leafTask H t array) (.ok [])) :
    Build array (.ok { numOfElements := array.length, hash := t })
  | layers {leaves out} (hfill : FillOutcome 1 array.length (leafTask H t array) (.ok leaves))
      (hne : leaves ≠ []) (hlayers : BuildLayers H t leaves out) :
    Build array (out.map fun levels => { levels, numOfElements := array.length, hash := t })

/-- The outcomes of `BuildVectorCommitmentTree`. -/
def BuildVectorCommitmentTree (array : HashableArray) (out : Except MerkleError Tree) : Prop :=
  ∃ inner, Build H t (generateVectorCommitmentArray array).toArray inner ∧
    out = inner.map fun tree =>
      { tree with isVectorCommitment := true, numOfElements := array.length }

/-! ### Partial layers -/

structure LayerItem where
  pos : ℕ
  hash : Bytes
  deriving DecidableEq

abbrev PartialLayer := List LayerItem

/-- `siblings`: the hints are collected if there is a tree, and used up if there is none. -/
structure Siblings where
  tree : Option Tree := none
  hints : List GenericDigest := []

def Siblings.get (s : Siblings) (l i : ℕ) : Except MerkleError (Bytes × Siblings) :=
  match s.tree with
  | none =>
    match s.hints with
    | [] => .error .noMoreHints
    | res :: hints => .ok (res.getD [], { s with hints })
  | some tree =>
    match tree.levels[l]? with
    | none => .error .beyondHeight
    | some layer => .ok (layer[i]?.getD [], { s with hints := s.hints ++ [layer[i]?] })

/-- The hash of the parent of position `pos`. -/
def nextLayerHash (doHash : Bool) (pos : ℕ) (posHash siblingHash : Bytes) :
    Except MerkleError Bytes :=
  if doHash then
    if pos % 2 = 0 then hashPair H t posHash siblingHash else hashPair H t siblingHash posHash
  else .ok []

def up (l : ℕ) (doHash : Bool) :
    PartialLayer → Siblings → Except MerkleError (PartialLayer × Siblings)
  | [], s => .ok ([], s)
  | [item], s => do
    let (siblingHash, s) ← s.get l (item.pos ^^^ 1)
    let hash ← nextLayerHash H t doHash item.pos item.hash siblingHash
    return ([{ pos := item.pos / 2, hash }], s)
  | item :: next :: pl, s =>
    if next.pos = item.pos ^^^ 1 then do
      let hash ← nextLayerHash H t doHash item.pos item.hash next.hash
      let (res, s) ← up l doHash pl s
      return ({ pos := item.pos / 2, hash } :: res, s)
    else do
      let (siblingHash, s) ← s.get l (item.pos ^^^ 1)
      let hash ← nextLayerHash H t doHash item.pos item.hash siblingHash
      let (res, s) ← up l doHash (next :: pl) s
      return ({ pos := item.pos / 2, hash } :: res, s)

/-! ### Proving -/

structure Proof where
  path : List GenericDigest := []
  hashFactory : HashType
  treeDepth : UInt8

def maxEncodedTreeDepth : ℕ := 16

/-- A proof within the bounds of the codec. -/
structure Proof.Decodable (proof : Proof) : Prop where
  path : proof.path.length ≤ 2 ^ maxEncodedTreeDepth / 2
  digests : ∀ d ∈ proof.path, (d.getD []).length ≤ maxHashDigestSize

namespace Tree

variable (tree : Tree)

/-- The number of levels above the leaves, as a `uint8`. -/
def depth : UInt8 := UInt8.ofNat (tree.levels.length - 1)

def createEmptyProof : Proof := { hashFactory := tree.hash, treeDepth := tree.depth }

/-- The loop of `createProof` over `n` levels from `l` on. -/
def climb : ℕ → ℕ → PartialLayer → Siblings → Except MerkleError (PartialLayer × Siblings)
  | 0, _, pl, s => .ok (pl, s)
  | n + 1, l, pl, s => do
    let (pl, s) ← up H tree.hash l false pl s
    climb n (l + 1) pl s

variable (idxs : List ℕ)

/-- The first partial layer of `createProof`, from positions in order. -/
def provedItems : Except MerkleError PartialLayer :=
  (idxs.destutter (· ≠ ·)).mapM fun pos => do
    let leaves ← orThrow .indexOutOfRange tree.levels[0]?
    let hash ← orThrow .indexOutOfRange leaves[pos]?
    return { pos, hash }

def createProof : Except MerkleError Proof := do
  let pl ← tree.provedItems idxs
  let (pl, s) ← tree.climb H (tree.levels.length - 1) 0 pl { tree := some tree }
  failIf (pl.length ≠ 1) .partialLayerSize
  return { path := s.hints, hashFactory := tree.hash, treeDepth := tree.depth }

def convertLeavesIndexes : Except MerkleError (List ℕ) :=
  idxs.mapM fun idx => merkleTreeToVectorCommitmentIndex idx tree.depth

def prove : Except MerkleError Proof :=
  if idxs = [] then .ok tree.createEmptyProof
  else do
    failIf (tree.numOfElements = 0) .provingZeroCommitment
    failIf (∃ i ∈ idxs, tree.numOfElements ≤ i) .posOutOfBound
    let idxs ← if tree.isVectorCommitment then tree.convertLeavesIndexes idxs else pure idxs
    tree.createProof H (idxs.insertionSort (· ≤ ·))

end Tree

/-! ### Verification -/

/-- `hashLeaves`, in the order of the map's entries. -/
def hashLeaves (elems : Dict ℕ Hashable) (treeDepth : UInt8) : Except MerkleError PartialLayer :=
  elems.entries.mapM fun e => do
    failIf (1 <<< treeDepth.toNat % 2 ^ 64 ≤ e.1) .posOutOfBound
    return { pos := e.1, hash := H.genericHashObj t e.2 }

def buildFirstPartialLayer (leaves : PartialLayer) : PartialLayer :=
  leaves.insertionSort (·.pos ≤ ·.pos)

def convertIndexes (elems : Dict ℕ Hashable) (treeDepth : UInt8) :
    Except MerkleError (Dict ℕ Hashable) :=
  elems.entries.foldlM (fun converted e => do
    let idx ← merkleTreeToVectorCommitmentIndex e.1 treeDepth
    return converted.upsert idx e.2) ∅

variable (root : Bytes)

def inspectRoot : PartialLayer → Except MerkleError Unit
  | [] => .error .indexOutOfRange
  | computedroot :: _ =>
    failIf (computedroot.pos ≠ 0 ∨ computedroot.hash ≠ root) .rootMismatch

/-- The loop of `verifyPath` at level `l`. -/
def verifyLoop : ℕ → ℕ → PartialLayer → Siblings → Except MerkleError PartialLayer
  | fuel, l, pl, s =>
    if s.hints = [] ∧ pl.length ≤ 1 then .ok pl
    else match fuel with
      | 0 => .error .noEnd
      | fuel + 1 => do
        let (pl, s) ← up H t l true pl s
        verifyLoop fuel (l + 1) pl s

variable {pl : PartialLayer} {fuel l : ℕ} {s : Siblings}

theorem verifyLoop_stop {H : Hashing} {t : HashType} (h : s.hints = [] ∧ pl.length ≤ 1) :
    verifyLoop H t fuel l pl s = .ok pl := by
  cases fuel <;> rw [verifyLoop, if_pos h]

theorem verifyLoop_succ {H : Hashing} {t : HashType} (h : ¬(s.hints = [] ∧ pl.length ≤ 1)) :
    verifyLoop H t (fuel + 1) l pl s =
      up H t l true pl s >>= fun r => verifyLoop H t fuel (l + 1) r.1 r.2 := by
  rw [verifyLoop, if_neg h]

/-- `verifyPath`. A turn of the loop uses up a hint or merges two items. -/
def verifyPath (proof : Proof) (pl : PartialLayer) : Except MerkleError Unit := do
  let pl ← verifyLoop H proof.hashFactory (proof.path.length + pl.length) 0 pl { hints := proof.path }
  inspectRoot root pl

def verify (elems : Dict ℕ Hashable) (proof : Proof) : Except MerkleError Unit :=
  if elems.entries = [] then failIf (proof.path ≠ []) .nonEmptyProofForEmptyElements
  else do
    let hashedLeaves ← hashLeaves H proof.hashFactory elems proof.treeDepth
    verifyPath H root proof (buildFirstPartialLayer hashedLeaves)

def verifyVectorCommitment (elems : Dict ℕ Hashable) (proof : Proof) :
    Except MerkleError Unit := do
  let msbIndexedElements ← convertIndexes elems proof.treeDepth
  verify H root msbIndexedElements proof

end Novarand.MerkleArray
