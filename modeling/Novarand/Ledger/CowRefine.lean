import Novarand.Ledger.World

/-!
# A committed child is the parent with the same changes

A sequence of operations of the evaluator (`CowOps`) changes the state, opens children that are
committed or dropped, to any depth. Run in a child that is then committed, it has the outcome of its
changes applied to the parent one after the other (`CowOps.flatten`), as far as any lookup can tell.

The simulation (`Flattens`) relates a stack of layers over `p` to the one layer over `p` that got the
same changes: equal views, and equal records of transactions and leases, which `checkDup` reads.
-/

namespace Novarand.Ledger

open List Cow Except

/-- A change of the state. -/
inductive CowOp
  | put (addr : Address) (acct : AccountData)
  | setKey (s : StoragePtr) (key : Bytes) (value : TealValue)
  | delKey (s : StoragePtr) (key : Bytes)
  | allocateApp (s : StoragePtr) (space : StateSchema)
  | deallocateApp (s : StoragePtr)
  | allocateAsset (addr : Address) (index : AssetIndex) (global : Bool)
  | deallocateAsset (addr : Address) (index : AssetIndex) (global : Bool)
  | addTx (txid : Txid) (lastValid : Round) (txl : Txlease)
  | incTxnCount

namespace CowOp

variable (x : BlockContext)

def run : CowOp → Cow → Except EvalError Cow
  | put addr acct, c => .ok (c.put addr acct)
  | setKey s key value, c => c.setKey x s key value
  | delKey s key, c => c.delKey s key
  | allocateApp s space, c => c.allocateApp s space
  | deallocateApp s, c => c.deallocateApp s
  | allocateAsset addr index global, c => .ok (c.allocateAsset addr index global)
  | deallocateAsset addr index global, c => .ok (c.deallocateAsset addr index global)
  | addTx txid lastValid txl, c => .ok (c.addTx txid lastValid txl)
  | incTxnCount, c => .ok c.incTxnCount

/-- The change on the view. -/
def onWorld : CowOp → World → Except EvalError World
  | put addr acct, w => .ok (w.put addr acct)
  | setKey s key value, w => w.setKey x s key value
  | delKey s key, w => w.delKey s key
  | allocateApp s space, w => w.allocateApp s space
  | deallocateApp s, w => w.deallocateApp s
  | allocateAsset addr index global, w => .ok (w.allocateAsset addr index global)
  | deallocateAsset _ index global, w => .ok (w.deallocateAsset index global)
  | addTx _ _ _, w => .ok w.incTxnCount
  | incTxnCount, w => .ok w.incTxnCount

def recordTxid : CowOp → Dict Txid Round → Dict Txid Round
  | addTx txid lastValid _, m => m.upsert txid lastValid
  | _, m => m

def recordLease : CowOp → Dict Txlease Round → Dict Txlease Round
  | addTx _ lastValid txl, m => if txl.lease ≠ 0 then m.upsert txl lastValid else m
  | _, m => m

/-- The outcome of an operation on the top layer. -/
inductive Outcome (o : CowOp) (p : Cow) (l : Layer) : Prop
  | failed (e : EvalError) (hw : o.onWorld x (layer p l).view = .error e)
      (hc : o.run x (layer p l) = .error e)
  | changed (l' : Layer) (hw : o.onWorld x (layer p l).view = .ok (layer p l').view)
      (hc : o.run x (layer p l) = .ok (layer p l')) (hwf : (layer p l').WF)
      (hids : l'.txids = o.recordTxid l.txids) (hleases : l'.txleases = o.recordLease l.txleases)

variable {x} {p : Cow} {l : Layer}

theorem Outcome.of_realizes {o : CowOp}
    (h : Realizes p l (o.run x (layer p l)) (o.onWorld x (layer p l).view))
    (hi : ∀ m, o.recordTxid m = m) (hl : ∀ m, o.recordLease m = m) : Outcome x o p l := by
  cases hw : o.onWorld x (layer p l).view with
  | error e =>
    rw [hw] at h
    exact .failed e hw h
  | ok w =>
    rw [hw] at h
    obtain ⟨l', hc, hwf, rfl, hi', hl'⟩ := h
    exact .changed l' hw hc hwf (hi'.trans (hi _).symm) (hl'.trans (hl _).symm)

/-- An operation changes the top layer only, and changes the view as its definition says. -/
theorem outcome (h : (layer p l).WF) (o : CowOp) : Outcome x o p l := by
  cases o with
  | put ad ac =>
    exact .changed _ (congrArg ok (view_put ad ac).symm) rfl h rfl rfl
  | setKey s key vl =>
    exact .of_realizes (setKey_realizes x h key vl) (fun _ => rfl) fun _ => rfl
  | delKey s key => exact .of_realizes (delKey_realizes h key) (fun _ => rfl) fun _ => rfl
  | allocateApp s sp =>
    exact .of_realizes (allocateApp_realizes h sp) (fun _ => rfl) fun _ => rfl
  | deallocateApp s => exact .of_realizes (deallocateApp_realizes h) (fun _ => rfl) fun _ => rfl
  | allocateAsset ad ie gl =>
    exact .of_realizes (allocateAsset_realizes h ad ie gl) (fun _ => rfl) fun _ => rfl
  | deallocateAsset ad ie gl =>
    exact .of_realizes (deallocateAsset_realizes h ad ie gl) (fun _ => rfl) fun _ => rfl
  | addTx tx lv txl =>
    have hv : ((layer p l).addTx tx lv txl).view =
        (layer p l).view.incTxnCount := by
      unfold Cow.addTx
      split_ifs <;> rfl
    by_cases hl : txl.lease = 0
    · have ha : (layer p l).addTx tx lv txl = .layer p
          { l with txids := l.txids.upsert tx lv, txnCount := l.txnCount + 1 } := by
        rw [Cow.addTx, if_neg (not_not.mpr hl)]
        rfl
      refine .changed _ (congrArg ok (ha ▸ hv).symm) (congrArg ok ha) h rfl ?_
      simp [recordLease, hl]
    · have ha : (layer p l).addTx tx lv txl = .layer p
          { l with
            txids := l.txids.upsert tx lv
            txnCount := l.txnCount + 1
            txleases := l.txleases.upsert txl lv } := by
        rw [Cow.addTx, if_pos hl]
        rfl
      refine .changed _ (congrArg ok (ha ▸ hv).symm) (congrArg ok ha) h rfl ?_
      simp [recordLease, hl]
  | incTxnCount => exact .changed _ (congrArg ok view_incTxnCount.symm) rfl h rfl rfl

/-- The changes one after the other. -/
def runAll (x : BlockContext) : List CowOp → Cow → Except EvalError Cow
  | [], c => .ok c
  | o :: os, c => o.run x c >>= runAll x os

theorem runAll_append (os os' : List CowOp) (c : Cow) :
    runAll x (os ++ os') c = runAll x os c >>= runAll x os' := by
  induction os generalizing c with
  | nil => rfl
  | cons o os ih =>
    simp only [cons_append, runAll]
    cases o.run x c with
    | error e => rfl
    | ok c' => exact ih c'

end CowOp

open CowOp

/-- A sequence of operations: changes, children that are committed, and children that are dropped. -/
inductive CowOps
  | done
  | op (o : CowOp) (rest : CowOps)
  | committed (body rest : CowOps)
  | dropped (body rest : CowOps)

/-- What a layer is over. -/
def Cow.parent : Cow → Cow
  | .base b => .base b
  | .layer p _ => p

namespace CowOps

def run (x : BlockContext) : CowOps → Cow → Except EvalError Cow
  | done, c => .ok c
  | op o rest, c => o.run x c >>= rest.run x
  | committed body rest, c => body.run x c.child >>= commitToParent >>= rest.run x
  | dropped body rest, c =>
    match body.run x c.child with
    | .ok c' => rest.run x c'.parent
    | .error _ => rest.run x c

/-- The changes that last, in their order. -/
def flatten : CowOps → List CowOp
  | done => []
  | op o rest => o :: rest.flatten
  | committed body rest => body.flatten ++ rest.flatten
  | dropped _ rest => rest.flatten

end CowOps

/-! ## The simulation -/

/-- The layers `ls`, the newest first, over `p`. -/
def Cow.stack (p : Cow) : List Layer → Cow
  | [] => p
  | l :: ls => .layer (stack p ls) l

/-- The layer `l'` over `p` says what the layers `ls` over `p` say together. -/
structure Flattens (p : Cow) (ls : List Layer) (l' : Layer) : Prop where
  wf : (stack p ls).WF
  wf' : (layer p l').WF
  view : (stack p ls).view = (layer p l').view
  txids : ∀ t, l'.txids.lookup t = ls.foldr (fun l o => (l.txids.lookup t).or o) none
  txleases : ∀ t, l'.txleases.lookup t = ls.foldr (fun l o => (l.txleases.lookup t).or o) none

/-- The outcomes of the same changes above `ls` and in the one layer. -/
inductive Agree (p : Cow) (ls : List Layer) : Except EvalError Cow → Except EvalError Cow → Prop
  | failed (e : EvalError) : Agree p ls (.error e) (.error e)
  | changed (l l' : Layer) (h : Flattens p (l :: ls) l') :
      Agree p ls (.ok (stack p (l :: ls))) (.ok (layer p l'))

namespace Flattens

variable {x : BlockContext} {p : Cow} {l pl l' : Layer} {ls : List Layer}

theorem self (h : (layer p l).WF) : Flattens p [l] l where
  wf := h
  wf' := h
  view := rfl
  txids t := by simp
  txleases t := by simp

theorem child (h : Flattens p ls l') : Flattens p ({} :: ls) l' where
  wf := h.wf.child
  wf' := h.wf'
  view := (view_child _).trans h.view
  txids t := h.txids t
  txleases t := h.txleases t

theorem commit (h : Flattens p (l :: pl :: ls) l') :
    (stack p (l :: pl :: ls)).commitToParent = .ok (stack p (mergedLayer pl l :: ls)) ∧
      Flattens p (mergedLayer pl l :: ls) l' := by
  refine ⟨commitToParent_eq h.wf, wf_mergedLayer h.wf, h.wf',
    (view_mergedLayer h.wf).trans h.view, fun t => ?_, fun t => ?_⟩
  · rw [h.txids t]
    simp [mergedLayer, Dict.lookup_merge, Option.or_assoc]
  · rw [h.txleases t]
    simp [mergedLayer, Dict.lookup_merge, Option.or_assoc]

/-- Equal records stay equal when the same transaction is added. -/
theorem lookup_record {K : Type} [DecidableEq K] {f : Dict K Round → Dict K Round}
    (hf : (∀ m, f m = m) ∨ ∃ k v, ∀ m, f m = m.upsert k v) {m m' : Dict K Round} {o : Option Round}
    {t : K} (h : m'.lookup t = (m.lookup t).or o) : (f m').lookup t = ((f m).lookup t).or o := by
  rcases hf with hf | ⟨k, v, hf⟩
  · rw [hf, hf, h]
  · rw [hf, hf, Dict.lookup_upsert, Dict.lookup_upsert]
    by_cases ht : t = k
    · simp [ht]
    · simp [ht, h]

theorem op (h : Flattens p (l :: ls) l') (o : CowOp) :
    Agree p ls (o.run x (stack p (l :: ls))) (o.run x (layer p l')) := by
  have hv : (layer (stack p ls) l).view = (layer p l').view := h.view
  have hi : (∀ m, o.recordTxid m = m) ∨ ∃ k v, ∀ m, o.recordTxid m = m.upsert k v := by
    cases o with
    | addTx tx lv txl => exact .inr ⟨tx, lv, fun _ => rfl⟩
    | _ => exact .inl fun _ => rfl
  have he : (∀ m, o.recordLease m = m) ∨ ∃ k v, ∀ m, o.recordLease m = m.upsert k v := by
    cases o with
    | addTx tx lv txl =>
      by_cases hl : txl.lease = 0
      · exact .inl fun m => by simp [recordLease, hl]
      · exact .inr ⟨txl, lv, fun m => by simp [recordLease, hl]⟩
    | _ => exact .inl fun _ => rfl
  obtain ⟨e, hw, hc⟩ | ⟨l1, hw, hc, hwf, hi1, hl1⟩ := outcome (x := x) h.wf o
  · obtain ⟨e', hw', hc'⟩ | ⟨l2, hw', -⟩ := outcome (x := x) h.wf' o
    · rw [← hv, hw] at hw'
      obtain rfl := error.inj hw'
      rw [hc', stack, hc]
      exact .failed e
    · rw [← hv, hw] at hw'
      cases hw'
  · obtain ⟨e', hw', -⟩ | ⟨l2, hw', hc', hwf', hi2, hl2⟩ := outcome (x := x) h.wf' o
    · rw [← hv, hw] at hw'
      cases hw'
    · rw [← hv, hw] at hw'
      rw [hc', stack, hc]
      refine .changed l1 l2 ⟨hwf, hwf', ok.inj hw', fun t => ?_, fun t => ?_⟩
      · rw [hi2, foldr_cons, hi1]
        exact lookup_record hi (h.txids t)
      · rw [hl2, foldr_cons, hl1]
        exact lookup_record he (h.txleases t)

end Flattens

variable {x : BlockContext} {p c : Cow}

/-- Any operations in the top layer of a stack, and the changes that last in the one layer. -/
theorem CowOps.run_agree (ops : CowOps) :
    ∀ {l l' : Layer} {ls : List Layer}, Flattens p (l :: ls) l' →
      Agree p ls (ops.run x (stack p (l :: ls))) (runAll x ops.flatten (layer p l')) := by
  induction ops with
  | done =>
    intro l l' ls h
    exact .changed l l' h
  | op o rs ih =>
    intro l l' ls h
    simp only [run, flatten, runAll]
    generalize hc : o.run x (stack p (l :: ls)) = r, hd : o.run x (layer p l') = r'
    have ha : Agree p ls r r' := hc ▸ hd ▸ h.op o
    cases ha with
    | failed e => exact .failed e
    | changed l1 l1' h1 => exact ih h1
  | committed bd rs ihb ih =>
    intro l l' ls h
    simp only [run, flatten, runAll_append]
    generalize hc : bd.run x (stack p (l :: ls)).child = r,
      hd : runAll x bd.flatten (layer p l') = r'
    have ha : Agree p (l :: ls) r r' := hc ▸ hd ▸ ihb h.child
    cases ha with
    | failed e => exact .failed e
    | changed l1 l1' h1 =>
      obtain ⟨hm, h2⟩ := h1.commit
      rw [ok_bind, hm]
      exact ih h2
  | dropped bd rs ihb ih =>
    intro l l' ls h
    simp only [run, flatten]
    generalize hc : bd.run x (stack p (l :: ls)).child = r,
      hd : runAll x bd.flatten (layer p l') = r'
    have ha : Agree p (l :: ls) r r' := hc ▸ hd ▸ ihb h.child
    cases ha with
    | failed e => exact ih h
    | changed l1 l1' h1 => exact ih h

/-! ## Parents -/

/-- The states a block evaluation can be in: changed, with a child opened, or with one committed. -/
inductive Reached (x : BlockContext) : Cow → Prop
  | start (b : RoundCowBase) : Reached x (.layer (.base b) {})
  | child {c : Cow} (h : Reached x c) : Reached x c.child
  | op {c c' : Cow} (h : Reached x c) (o : CowOp) (ho : o.run x c = .ok c') : Reached x c'
  | commit {c c' : Cow} (h : Reached x c) (hc : c.commitToParent = .ok c') : Reached x c'

theorem Reached.layer (h : Reached x c) : ∃ p l, c = .layer p l ∧ (layer p l).WF := by
  induction h with
  | start b => exact ⟨.base b, {}, rfl, trivial, fun s lsd hl => by simp at hl⟩
  | child _ ih =>
    obtain ⟨p, l, rfl, hwf⟩ := ih
    exact ⟨_, _, rfl, hwf.child⟩
  | op _ o ho ih =>
    obtain ⟨p, l, rfl, hwf⟩ := ih
    obtain ⟨e, -, hc⟩ | ⟨l', -, hc, hwf', -⟩ := outcome (x := x) hwf o
    · rw [hc] at ho
      cases ho
    · rw [hc] at ho
      obtain rfl := ok.inj ho
      exact ⟨p, l', rfl, hwf'⟩
  | commit _ hc ih =>
    obtain ⟨p, l, rfl, hwf⟩ := ih
    cases p with
    | base b =>
      obtain rfl := ok.inj hc
      exact ⟨.base b, l, rfl, hwf⟩
    | layer p pl =>
      rw [commitToParent_eq hwf] at hc
      obtain rfl := ok.inj hc
      exact ⟨p, mergedLayer pl l, rfl, wf_mergedLayer hwf⟩

/-- No lookup tells the states apart. -/
structure ObservablyEqual (x : BlockContext) (c c' : Cow) : Prop where
  lookup : ∀ addr, c.lookup addr = c'.lookup addr
  getKey : ∀ s key, c.getKey s key = c'.getKey s key
  allocated : ∀ s, c.allocated s = c'.allocated s
  getStorageCounts : ∀ s, c.getStorageCounts s = c'.getStorageCounts s
  getStorageLimits : ∀ s, c.getStorageLimits s = c'.getStorageLimits s
  getCreator : ∀ cidx ctype, c.getCreator cidx ctype = c'.getCreator cidx ctype
  checkDup : ∀ firstValid lastValid txid txl,
    c.checkDup x firstValid lastValid txid txl = c'.checkDup x firstValid lastValid txid txl
  txnCounter : c.txnCounter = c'.txnCounter

theorem Flattens.observablyEqual {l l' : Layer} (h : Flattens p [l] l') :
    ObservablyEqual x (.layer p l) (.layer p l') := by
  have hv : (layer p l).view = (layer p l').view := h.view
  have hi : ∀ t, l'.txids.lookup t = l.txids.lookup t := fun t => by simpa using h.txids t
  have hl : ∀ t, l'.txleases.lookup t = l.txleases.lookup t := fun t => by simpa using h.txleases t
  constructor
  case lookup => exact fun ad => congrFun (congrArg World.account hv) ad
  case getKey => exact fun s key => by rw [getKey_eq, getKey_eq, hv]
  case allocated => exact fun s => by rw [allocated_eq, allocated_eq, hv]
  case getStorageCounts =>
    exact fun s => by rw [getStorageCounts_layer, getStorageCounts_layer, hv]
  case getStorageLimits =>
    exact fun s => by rw [getStorageLimits_layer, getStorageLimits_layer, hv]
  case getCreator => exact fun cd ct => congrFun (congrFun (congrArg World.creator hv) cd) ct
  case checkDup =>
    simp [checkDup, hi, hl]
  case txnCounter => exact congrArg World.counter hv

/-- The outcomes are the same error, or states that no lookup tells apart. -/
def SameOutcome (x : BlockContext) (r r' : Except EvalError Cow) : Prop :=
  match r, r' with
  | .ok c, .ok c' => ObservablyEqual x c c'
  | .error e, .error e' => e = e'
  | _, _ => False

/-- Operations in a committed child are operations on the parent; the parent below a child stays as
it is. -/
theorem commitToParent_refines {x : BlockContext} {c : Cow} (hc : Reached x c) (ops : CowOps) :
    SameOutcome x (ops.run x c.child >>= commitToParent) (runAll x ops.flatten c) ∧
      ∀ c', ops.run x c.child = .ok c' → c'.parent = c := by
  obtain ⟨p, pl, rfl, hwf⟩ := hc.layer
  have ha := CowOps.run_agree (x := x) ops (Flattens.self hwf).child
  generalize hr : ops.run x (layer p pl).child = r
  generalize hr' : runAll x ops.flatten (layer p pl) = r' at ha ⊢
  rw [show stack p [{}, pl] = (layer p pl).child from rfl, hr] at ha
  cases ha with
  | failed e => exact ⟨rfl, fun c' hc' => by cases hc'⟩
  | changed l _ h =>
    obtain ⟨hm, h1⟩ := h.commit
    refine ⟨?_, fun c' hc' => ?_⟩
    · rw [ok_bind, hm]
      exact h1.observablyEqual
    · obtain rfl := ok.inj hc'
      rfl

/-- An application is created in a child, and a child of it frees the storage and takes it again. -/
theorem commitToParent_refines_reallocated :
    let s : StoragePtr := { addr := 1, aidx := 7, global := true }
    let ops : CowOps := .op (.allocateApp s { numUint := 1 }) <| .op (.setKey s [1] (.uint 5)) <|
      .committed (.op (.deallocateApp s) <| .op (.allocateApp s { numUint := 2 }) .done) <|
      .dropped (.op (.setKey s [2] (.uint 3)) .done) .done
    let c : Cow := .layer (.base {}) {}
    SameOutcome {} (ops.run {} c.child >>= commitToParent) (runAll {} ops.flatten c) ∧
      ∀ c', ops.run {} c.child = .ok c' → c'.parent = c :=
  commitToParent_refines (.start {}) _

end Novarand.Ledger
