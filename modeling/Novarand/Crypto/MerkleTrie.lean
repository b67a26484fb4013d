import Novarand.Crypto.Hashes
import Novarand.Lib.Outcome
import Novarand.Lib.SortedAssoc

/-!
# The Merkle trie

The operations of `crypto/merkletrie` on the nodes of a trie, where a child is written in place of its
identifier. A leaf has the rest of the one element that goes through it; an inner node has its children
in the order of their index bytes. An element of the wrong length, or one that is added twice, would
run out of bytes: that is a panic in the source, and the error `indexOutOfRange` here.

On elements of one length the trie is a set (`Trie.run_set`).
-/

namespace Novarand.Crypto

open List SortedAssoc

inductive TrieError
  | mismatchingElementLength
  | indexOutOfRange
  deriving DecidableEq

namespace MerkleTrie

inductive Node
  | leaf (hash : Bytes)
  | inner (children : List (UInt8 × Node))

abbrev Children := List (UInt8 × Node)

def Node.isLeaf : Node → Bool
  | .leaf _ => true
  | .inner _ => false

/-! ## The operations on nodes -/

/-- The bit of `childrenMask`. -/
def hasChild (b : UInt8) (children : Children) : Bool := children.any (·.1 = b)

def find : Bytes → Node → Except TrieError Bool
  | d, .leaf hash => pure (d = hash)
  | [], .inner _ => throw .indexOutOfRange
  | b :: d, .inner children =>
    if hasChild b children then do
      find d (← orThrow .indexOutOfRange (get b children))
    else pure false

/-- `add` at a leaf: two new leaves where the elements differ, below a node for each common byte. -/
def split : Bytes → Bytes → Except TrieError Node
  | a :: hash, b :: d =>
    if a = b then do return .inner [(b, ← split hash d)]
    else if a < b then pure (.inner [(a, .leaf hash), (b, .leaf d)])
    else pure (.inner [(b, .leaf d), (a, .leaf hash)])
  | _, _ => throw .indexOutOfRange

def add : Bytes → Node → Except TrieError Node
  | d, .leaf hash => split hash d
  | [], .inner _ => throw .indexOutOfRange
  | b :: d, .inner children =>
    if hasChild b children then do
      let updatedChild ← add d (← orThrow .indexOutOfRange (get b children))
      return .inner (set b updatedChild children)
    else pure (.inner (insert b (.leaf d) children))

/-- A node with a single leaf child becomes a leaf. -/
def collapse : Children → Node
  | [(b, .leaf hash)] => .leaf (b :: hash)
  | children => .inner children

def remove : Bytes → Node → Except TrieError Node
  | b :: d, .inner children => do
    match ← orThrow .indexOutOfRange (get b children) with
    | .leaf _ => return collapse (erase b children)
    | .inner grandchildren =>
      let updatedChild ← remove d (.inner grandchildren)
      return collapse (set b updatedChild children)
  | _, _ => throw .indexOutOfRange

/-! ## Tries -/

structure Trie where
  root : Option Node := none
  elementLength : ℕ := 0

namespace Trie

/-- `Add`: whether the element is new. -/
def add (d : Bytes) (t : Trie) : Except TrieError (Bool × Trie) :=
  match t.root with
  | none => pure (true, { root := some (.leaf d), elementLength := d.length })
  | some node => do
    failIf (d.length ≠ t.elementLength) .mismatchingElementLength
    if ← find d node then return (false, t)
    else return (true, { t with root := some (← MerkleTrie.add d node) })

/-- `Delete`: whether the element was there. -/
def delete (d : Bytes) (t : Trie) : Except TrieError (Bool × Trie) :=
  match t.root with
  | none => pure (false, t)
  | some node => do
    failIf (d.length ≠ t.elementLength) .mismatchingElementLength
    if ← find d node then
      match node with
      | .leaf _ => return (true, {})
      | .inner children => return (true, { t with root := some (← remove d (.inner children)) })
    else return (false, t)

end Trie

/-- A change of a trie. -/
inductive TrieOp
  | add (d : Bytes)
  | delete (d : Bytes)

namespace TrieOp

def element : TrieOp → Bytes
  | .add d => d
  | .delete d => d

def run : TrieOp → Trie → Except TrieError (Bool × Trie)
  | .add d, t => t.add d
  | .delete d, t => t.delete d

/-- The same change of a set. -/
def onSet : TrieOp → Set Bytes → Set Bytes
  | .add d, s => Insert.insert d s
  | .delete d, s => s \ {d}

/-- Whether the change changes a set. -/
def Changes : TrieOp → Set Bytes → Prop
  | .add d, s => d ∉ s
  | .delete d, s => d ∈ s

end TrieOp

/-- Several changes, with the answers to them. -/
def Trie.run : List TrieOp → Trie → Except TrieError (List Bool × Trie)
  | [], t => pure ([], t)
  | op :: ops, t => do
    let (answer, t) ← op.run t
    let (answers, t) ← run ops t
    return (answer :: answers, t)

/-- The set after the changes, from the empty set. -/
def contents (ops : List TrieOp) : Set Bytes := ops.foldl (fun s op => op.onSet s) ∅

/-! ## The elements below a node -/

/-- The rest `d` of an element leads to a leaf below the node. -/
def Mem : Bytes → Node → Prop
  | d, .leaf hash => d = hash
  | [], .inner _ => False
  | b :: d, .inner children => ∃ n, (b, n) ∈ children ∧ Mem d n

/-- The node is that of a set of elements whose rests have the length `n`. An inner node has children,
and more than one if one of them is a leaf. -/
def Good : ℕ → Node → Prop
  | n, .leaf hash => hash.length = n
  | 0, .inner _ => False
  | n + 1, .inner children => Sorted children ∧ (∀ e ∈ children, Good n e.2) ∧
      children ≠ [] ∧ ∀ b hash, children ≠ [(b, .leaf hash)]

variable {n : ℕ} {node child : Node} {children : Children} {b : UInt8} {d e : Bytes}

variable {hash : Bytes} {s : Set Bytes} {t : Trie}

theorem mem_leaf : Mem d (.leaf hash) ↔ d = hash := by
  cases d <;> exact Iff.rfl

theorem good_leaf : Good n (.leaf hash) ↔ hash.length = n := by
  cases n <;> exact Iff.rfl

theorem mem_inner : Mem (b :: d) (.inner children) ↔ ∃ n, (b, n) ∈ children ∧ Mem d n := Iff.rfl

theorem hasChild_iff : hasChild b children = true ↔ ∃ n, (b, n) ∈ children := by
  simp only [hasChild, any_eq_true, decide_eq_true_eq]
  constructor
  · rintro ⟨⟨_, n⟩, hme, rfl⟩
    exact ⟨n, hme⟩
  · rintro ⟨n, hme⟩
    exact ⟨(b, n), hme, rfl⟩

theorem find_ok (h : Good n node) (hd : d.length = n) :
    ∃ found, find d node = .ok found ∧ (found = true ↔ Mem d node) := by
  induction d generalizing n node with
  | nil =>
    cases node with
    | leaf hash => exact ⟨_, rfl, decide_eq_true_iff⟩
    | inner ch =>
      subst hd
      cases h
  | cons b d ih =>
    subst hd
    cases node with
    | leaf hash => exact ⟨_, rfl, decide_eq_true_iff⟩
    | inner ch =>
      obtain ⟨hso, hg, -, -⟩ := h
      by_cases hc : hasChild b ch = true
      · obtain ⟨ci, hme⟩ := hasChild_iff.mp hc
        obtain ⟨found, hf, hi⟩ := ih (hg _ hme) rfl
        refine ⟨found, ?_, hi.trans ⟨fun hd => ⟨ci, hme, hd⟩, ?_⟩⟩
        · rw [find, if_pos hc, get_of_mem hso hme, orThrow_some]
          exact hf
        · rintro ⟨_, hm', hd⟩
          rwa [hso.eq_of_key hme hm']
      · refine ⟨false, ?_, ?_⟩
        · rw [find, if_neg hc]
          rfl
        · constructor
          · intro hl
            cases hl
          · rintro ⟨ci, hme, -⟩
            exact absurd (hasChild_iff.mpr ⟨ci, hme⟩) hc

/-! ## Adding -/

/-- Two different elements below a new node. -/
theorem split_ok (hle : hash.length = d.length) (hn : hash ≠ d) :
    ∃ children, split hash d = .ok (.inner children) ∧ Good d.length (.inner children) ∧
      ∀ e, Mem e (.inner children) ↔ e = hash ∨ e = d := by
  induction d generalizing hash with
  | nil =>
    cases hash with
    | nil => exact absurd rfl hn
    | cons a hash => cases hle
  | cons b d ih =>
    cases hash with
    | nil => cases hle
    | cons a hash =>
      have he' : hash.length = d.length := Nat.succ.inj hle
      by_cases ha : a = b
      · subst ha
        have hn' : hash ≠ d := fun h => hn (h ▸ rfl)
        obtain ⟨children, hs, hg, hme⟩ := ih he' hn'
        refine ⟨[(a, .inner children)], ?_, ?_, ?_⟩
        · rw [split, if_pos rfl, hs]
          rfl
        · refine ⟨pairwise_singleton _ _, ?_, cons_ne_nil _ _, ?_⟩
          · intro e he
            obtain rfl := mem_singleton.mp he
            exact hg
          · intro b hash h
            cases h
        · intro e
          cases e with
          | nil =>
            constructor
            · intro h
              cases h
            · rintro (h | h)
              · cases h
              · cases h
          | cons c e =>
            rw [mem_inner]
            simp only [mem_singleton, Prod.mk.injEq, List.cons.injEq]
            constructor
            · rintro ⟨n, ⟨rfl, rfl⟩, he⟩
              exact ((hme e).mp he).imp (⟨rfl, ·⟩) (⟨rfl, ·⟩)
            · rintro (⟨rfl, rfl⟩ | ⟨rfl, rfl⟩)
              · exact ⟨_, ⟨rfl, rfl⟩, (hme _).mpr (.inl rfl)⟩
              · exact ⟨_, ⟨rfl, rfl⟩, (hme _).mpr (.inr rfl)⟩
      · -- the two leaves, in the order of their bytes
        have hp : ∀ {c c' : UInt8} {l l' : Bytes}, c < c' → l.length = d.length →
            l'.length = d.length →
            Good (d.length + 1) (.inner [(c, .leaf l), (c', .leaf l')]) ∧
              ∀ e, Mem e (.inner [(c, .leaf l), (c', .leaf l')]) ↔ e = c :: l ∨ e = c' :: l' := by
          intro c c' l l' hlt hl hl'
          refine ⟨⟨?_, ?_, cons_ne_nil _ _, ?_⟩, ?_⟩
          · simpa using hlt
          · intro e he
            simp only [mem_cons, not_mem_nil, or_false] at he
            rcases he with rfl | rfl
            · exact good_leaf.mpr hl
            · exact good_leaf.mpr hl'
          · intro b hash h
            cases h
          · intro e
            cases e with
            | nil =>
              constructor
              · intro h
                cases h
              · rintro (h | h)
                · cases h
                · cases h
            | cons x e =>
              rw [mem_inner]
              simp only [mem_cons, not_mem_nil, or_false, Prod.mk.injEq, List.cons.injEq]
              constructor
              · rintro ⟨n, ⟨rfl, rfl⟩ | ⟨rfl, rfl⟩, he⟩
                · exact .inl ⟨rfl, mem_leaf.mp he⟩
                · exact .inr ⟨rfl, mem_leaf.mp he⟩
              · rintro (⟨rfl, rfl⟩ | ⟨rfl, rfl⟩)
                · exact ⟨_, .inl ⟨rfl, rfl⟩, mem_leaf.mpr rfl⟩
                · exact ⟨_, .inr ⟨rfl, rfl⟩, mem_leaf.mpr rfl⟩
        rcases lt_or_gt_of_ne ha with hlt | ht
        · obtain ⟨hg, hme⟩ := hp hlt he' rfl
          refine ⟨_, ?_, hg, hme⟩
          rw [split, if_neg ha, if_pos hlt]
          rfl
        · obtain ⟨hg, hme⟩ := hp ht rfl he'
          refine ⟨_, ?_, hg, fun e => (hme e).trans or_comm⟩
          rw [split, if_neg ha, if_neg ht.asymm]
          rfl

section Children

variable {child new : Node} {c : UInt8}

theorem mem_insert : Mem (c :: e) (.inner (insert b (.leaf d) children)) ↔
    c :: e = b :: d ∨ Mem (c :: e) (.inner children) := by
  simp only [mem_inner, SortedAssoc.mem_insert, Prod.mk.injEq, List.cons.injEq]
  constructor
  · rintro ⟨m, ⟨hc, rfl⟩ | hm, he⟩
    · exact .inl ⟨hc, mem_leaf.mp he⟩
    · exact .inr ⟨m, hm, he⟩
  · rintro (⟨hc, he⟩ | ⟨m, hm, he⟩)
    · exact ⟨_, .inl ⟨hc, rfl⟩, mem_leaf.mpr he⟩
    · exact ⟨m, .inr hm, he⟩

section

variable (hso : Sorted children) (hme : (b, child) ∈ children)
include hso hme

theorem mem_set :
    Mem (c :: e) (.inner (set b new children)) ↔
      c = b ∧ Mem e new ∨ c ≠ b ∧ Mem (c :: e) (.inner children) := by
  simp only [mem_inner, SortedAssoc.mem_set hso hme, Prod.mk.injEq]
  constructor
  · rintro ⟨m, ⟨hc, rfl⟩ | ⟨hm, hc⟩, he⟩
    · exact .inl ⟨hc, he⟩
    · exact .inr ⟨hc, m, hm, he⟩
  · rintro (⟨hc, he⟩ | ⟨hc, m, hm, he⟩)
    · exact ⟨new, .inl ⟨hc, rfl⟩, he⟩
    · exact ⟨m, .inr ⟨hm, hc⟩, he⟩

theorem mem_erase :
    Mem (c :: e) (.inner (erase b children)) ↔
      c ≠ b ∧ Mem (c :: e) (.inner children) := by
  simp only [mem_inner, SortedAssoc.mem_erase hso hme]
  constructor
  · rintro ⟨m, ⟨hm, hc⟩, he⟩
    exact ⟨hc, m, hm, he⟩
  · rintro ⟨hc, m, hm, he⟩
    exact ⟨m, ⟨hm, hc⟩, he⟩

/-- The elements below a child are those that start with its byte. -/
theorem mem_child : Mem (b :: e) (.inner children) ↔ Mem e child := by
  constructor
  · rintro ⟨m, hm, he⟩
    rwa [hso.eq_of_key hme hm]
  · exact fun he => ⟨child, hme, he⟩

end

end Children

theorem add_ok (h : Good n node) (hd : d.length = n) (hn : ¬ Mem d node) :
    ∃ children, add d node = .ok (.inner children) ∧ Good n (.inner children) ∧
      ∀ e, Mem e (.inner children) ↔ e = d ∨ Mem e node := by
  induction d generalizing n node with
  | nil =>
    subst hd
    cases node with
    | leaf hash =>
      have h1 : hash = [] := length_eq_zero_iff.mp h
      exact absurd h1.symm hn
    | inner children => cases h
  | cons b d ih =>
    subst hd
    cases node with
    | leaf hash =>
      obtain ⟨children, hp, hg, hme⟩ := split_ok h fun hq => hn hq.symm
      refine ⟨children, hp, hg, fun e => ?_⟩
      rw [hme, mem_leaf, or_comm]
    | inner children =>
      obtain ⟨hso, hg, hne, _⟩ := h
      by_cases hh : hasChild b children = true
      · obtain ⟨ch, hme⟩ := hasChild_iff.mp hh
        obtain ⟨up, ha, hg', hm'⟩ := ih (hg _ hme) rfl fun hd => hn ⟨ch, hme, hd⟩
        have hs : ∀ {e}, e ∈ set b (Node.inner up) children ↔
            e = (b, .inner up) ∨ e ∈ children ∧ e.1 ≠ b := SortedAssoc.mem_set hso hme
        refine ⟨set b (.inner up) children, ?_, ⟨hso.set b _, ?_, ?_, ?_⟩, ?_⟩
        · rw [add, if_pos hh, get_of_mem hso hme, orThrow_some, ok_bind, ha]
          rfl
        · intro e he
          rcases hs.mp he with rfl | ⟨he, -⟩
          · exact hg'
          · exact hg e he
        · exact ne_nil_of_mem (hs.mpr (.inl rfl))
        · intro c hash hq
          have h2 : (b, Node.inner up) ∈ [(c, Node.leaf hash)] := hq ▸ hs.mpr (.inl rfl)
          cases mem_singleton.mp h2
        · intro e
          cases e with
          | nil => exact ⟨False.elim, fun h => h.elim (fun h => by cases h) False.elim⟩
          | cons c e =>
            rw [mem_set hso hme, hm', ← mem_child hso hme]
            by_cases hc : c = b
            · subst hc
              simp
            · simp [hc]
      · have hf : ∀ e ∈ children, e.1 ≠ b := by
          rintro ⟨c, m⟩ he rfl
          exact hh (hasChild_iff.mpr ⟨m, he⟩)
        have hi : ∀ {e}, e ∈ insert b (Node.leaf d) children ↔
            e = (b, .leaf d) ∨ e ∈ children := SortedAssoc.mem_insert
        refine ⟨insert b (.leaf d) children, ?_, ⟨hso.insert hf, ?_, ?_, ?_⟩, ?_⟩
        · rw [add, if_neg hh]
          rfl
        · intro e he
          rcases hi.mp he with rfl | he
          · exact good_leaf.mpr rfl
          · exact hg e he
        · exact ne_nil_of_mem (hi.mpr (.inl rfl))
        · -- an old child is still there, so there are two
          intro c hash hq
          obtain ⟨e, he⟩ := exists_mem_of_ne_nil children hne
          have ho : e = (c, .leaf hash) := mem_singleton.mp (hq ▸ hi.mpr (.inr he))
          have hn' : (b, Node.leaf d) = (c, .leaf hash) :=
            mem_singleton.mp (hq ▸ hi.mpr (.inl rfl))
          exact hf e he (by rw [ho, (Prod.mk.inj hn').1])
        · intro e
          cases e with
          | nil => exact ⟨False.elim, fun h => h.elim (fun h => by cases h) False.elim⟩
          | cons c e => exact mem_insert

/-! ## Removing -/

/-- A node with one leaf below it is that leaf. -/
theorem collapse_ok (hso : Sorted children) (hg : ∀ e ∈ children, Good n e.2) (hn : children ≠ []) :
    Good (n + 1) (collapse children) ∧ ∀ e, Mem e (collapse children) ↔ Mem e (.inner children) := by
  unfold collapse
  split
  · refine ⟨congrArg Nat.succ (good_leaf.mp (hg _ (mem_singleton_self _))), fun e => ?_⟩
    cases e with
    | nil =>
      constructor
      · intro h
        cases mem_leaf.mp h
      · exact False.elim
    | cons c e =>
      rw [mem_leaf, mem_inner, List.cons.injEq]
      simp only [mem_singleton, Prod.mk.injEq]
      constructor
      · rintro ⟨rfl, rfl⟩
        exact ⟨_, ⟨rfl, rfl⟩, mem_leaf.mpr rfl⟩
      · rintro ⟨m, ⟨rfl, rfl⟩, he⟩
        exact ⟨rfl, mem_leaf.mp he⟩
  · rename_i hs
    exact ⟨⟨hso, hg, hn, hs⟩, fun e => Iff.rfl⟩

/-- A node that is not just one leaf has another child beside a given one. -/
theorem exists_other (hso : Sorted children) (hme : (b, child) ∈ children)
    (hs : children ≠ [(b, child)]) : ∃ e ∈ children, e.1 ≠ b := by
  match children, hso, hme, hs with
  | [], _, hme, _ => cases hme
  | [e], _, hme, hs =>
    obtain rfl := mem_singleton.mp hme
    exact absurd rfl hs
  | e :: e' :: rest, hso, _, _ =>
    have hl : e.1 < e'.1 := (pairwise_cons.mp hso).1 e' mem_cons_self
    by_cases he : e.1 = b
    · exact ⟨e', mem_cons_of_mem _ mem_cons_self, fun h => hl.ne (he.trans h.symm)⟩
    · exact ⟨e, mem_cons_self, he⟩

theorem remove_ok (h : Good n (.inner children)) (hd : Mem d (.inner children)) :
    ∃ node, remove d (.inner children) = .ok node ∧ Good n node ∧
      ∀ e, Mem e node ↔ Mem e (.inner children) ∧ e ≠ d := by
  induction d generalizing n children with
  | nil => cases hd
  | cons b d ih =>
    cases n with
    | zero => cases h
    | succ n =>
      obtain ⟨hso, h1, _, hn⟩ := h
      obtain ⟨ch, hme, h2⟩ := hd
      have hg := get_of_mem hso hme
      cases ch with
      | leaf _ =>
        obtain rfl := mem_leaf.mp h2
        have h3 : ∀ {e}, e ∈ erase b children ↔ e ∈ children ∧ e.1 ≠ b :=
          SortedAssoc.mem_erase hso hme
        obtain ⟨_, ho, hb⟩ := exists_other hso hme (hn b d)
        obtain ⟨hg', hm'⟩ := collapse_ok (n := n) (hso.erase b)
          (fun e he => h1 e (h3.mp he).1) (ne_nil_of_mem (h3.mpr ⟨ho, hb⟩))
        refine ⟨_, ?_, hg', fun e => (hm' e).trans ?_⟩
        · rw [remove, hg]
          rfl
        · cases e with
          | nil => exact ⟨False.elim, fun h => h.1⟩
          | cons c e =>
            rw [mem_erase hso hme]
            by_cases hc : c = b
            · subst hc
              rw [mem_child hso hme, mem_leaf]
              simp
            · simp [hc]
      | inner _ =>
        obtain ⟨up, hr, hg', hm'⟩ := ih (h1 _ hme) h2
        have hs : ∀ {e}, e ∈ set b up children ↔
            e = (b, up) ∨ e ∈ children ∧ e.1 ≠ b := SortedAssoc.mem_set hso hme
        obtain ⟨hg'', hm''⟩ := collapse_ok (n := n) (hso.set b up)
          (fun e he => by
            rcases hs.mp he with rfl | ⟨he, -⟩
            · exact hg'
            · exact h1 e he) (ne_nil_of_mem (hs.mpr (.inl rfl)))
        refine ⟨_, ?_, hg'', fun e => (hm'' e).trans ?_⟩
        · rw [remove, hg, orThrow_some]
          simp only [hr, ok_bind]
          rfl
        · cases e with
          | nil => exact ⟨False.elim, fun h => h.1⟩
          | cons c e =>
            rw [mem_set hso hme, hm']
            by_cases hc : c = b
            · subst hc
              rw [mem_child hso hme]
              simp
            · simp [hc]

/-! ## Tries are sets -/

/-- The trie of a set of elements of the length `n`. -/
def Trie.Holds (n : ℕ) (s : Set Bytes) (t : Trie) : Prop :=
  match t.root with
  | none => s = ∅
  | some node => Good n node ∧ t.elementLength = n ∧ ∀ d, d ∈ s ↔ Mem d node

theorem Trie.Holds.found (h : t.Holds n s) (hd : d.length = n) (hr : t.root = some node) :
    Good n node ∧ t.elementLength = n ∧ (∀ d, d ∈ s ↔ Mem d node) ∧
      ¬ d.length ≠ t.elementLength ∧ ∃ fn, find d node = .ok fn ∧ (fn = true ↔ Mem d node) := by
  rw [Trie.Holds, hr] at h
  obtain ⟨hg, hl, hme⟩ := h
  exact ⟨hg, hl, hme, not_not.mpr (hd.trans hl.symm), find_ok hg hd⟩

theorem Trie.Holds.add (h : t.Holds n s) (hd : d.length = n) :
    ∃ answer t', t.add d = .ok (answer, t') ∧ (answer = true ↔ d ∉ s) ∧
      t'.Holds n (Insert.insert d s) := by
  unfold Trie.add
  cases hr : t.root with
  | none =>
    obtain rfl : s = ∅ := by
      unfold Trie.Holds at h
      rwa [hr] at h
    refine ⟨true, _, rfl, by simp, good_leaf.mpr hd, hd, fun e => ?_⟩
    rw [mem_leaf]
    simp
  | some node =>
    obtain ⟨hg, hl, hme, h2, fn, hf, hi⟩ := h.found hd hr
    simp only [failIf, if_neg h2, ok_bind, hf]
    cases fn with
    | true =>
      have h1 : d ∈ s := (hme d).mpr (hi.mp rfl)
      refine ⟨false, t, rfl, by simp [h1], ?_⟩
      rwa [Set.insert_eq_of_mem h1]
    | false =>
      have hn : ¬ Mem d node := fun hd => by cases hi.mpr hd
      obtain ⟨ch, ha, hg', hm'⟩ := add_ok hg hd hn
      refine ⟨true, { t with root := some (.inner ch) }, ?_, ?_, hg', hl, fun e => ?_⟩
      · simp only [ha]
        rfl
      · simp [hme, hn]
      · rw [hm' e, ← hme e, Set.mem_insert_iff]

theorem Trie.Holds.delete (h : t.Holds n s) (hd : d.length = n) :
    ∃ answer t', t.delete d = .ok (answer, t') ∧ (answer = true ↔ d ∈ s) ∧ t'.Holds n (s \ {d}) := by
  unfold Trie.delete
  cases hr : t.root with
  | none =>
    obtain rfl : s = ∅ := by
      unfold Trie.Holds at h
      rwa [hr] at h
    refine ⟨false, t, rfl, by simp, ?_⟩
    rwa [Set.empty_sdiff]
  | some node =>
    obtain ⟨hg, hl, hme, h1, fn, hf, hi⟩ := h.found hd hr
    simp only [failIf, if_neg h1, ok_bind, hf]
    cases fn with
    | false =>
      have ho : d ∉ s := fun hd => by cases hi.mpr ((hme d).mp hd)
      refine ⟨false, t, rfl, by simp [ho], ?_⟩
      rwa [Set.sdiff_singleton_eq_self ho]
    | true =>
      have hn : Mem d node := hi.mp rfl
      cases node with
      | leaf _ =>
        obtain rfl := mem_leaf.mp hn
        refine ⟨true, {}, rfl, by simp [hme, hn], ?_⟩
        ext e
        simp [hme, mem_leaf]
      | inner _ =>
        obtain ⟨node, hm, hg', hm'⟩ := remove_ok hg hn
        refine ⟨true, { t with root := some node }, ?_, ?_, hg', hl, fun e => ?_⟩
        · simp only [hm]
          rfl
        · simp [hme, hn]
        · rw [hm' e, ← hme e]
          rfl

theorem Trie.Holds.op (h : t.Holds n s) {op : TrieOp} (ho : op.element.length = n) :
    ∃ answer t', op.run t = .ok (answer, t') ∧ (answer = true ↔ op.Changes s) ∧
      t'.Holds n (op.onSet s) := by
  cases op with
  | add d => exact h.add ho
  | delete d => exact h.delete ho

/-- The answers to changes of a set. -/
def Answers : List TrieOp → Set Bytes → List Bool → Prop
  | [], _, answers => answers = []
  | op :: ops, s, answers => ∃ answer rest, answers = answer :: rest ∧
      (answer = true ↔ op.Changes s) ∧ Answers ops (op.onSet s) rest

/-- On elements of one length, changes never fail, are answered as those of a set, and leave its
trie. -/
theorem Trie.run_set (h : t.Holds n s) {ops : List TrieOp}
    (ho : ∀ op ∈ ops, op.element.length = n) :
    ∃ answers t', run ops t = .ok (answers, t') ∧ Answers ops s answers ∧
      t'.Holds n (ops.foldl (fun s op => op.onSet s) s) := by
  induction ops generalizing t s with
  | nil => exact ⟨[], t, rfl, rfl, h⟩
  | cons op ops ih =>
    obtain ⟨hp, ho⟩ := forall_mem_cons.mp ho
    obtain ⟨an, _, hr, ha, h1⟩ := h.op hp
    obtain ⟨answers, t2, hs, hn, h2⟩ := ih h1 ho
    refine ⟨an :: answers, t2, ?_, ⟨an, answers, rfl, ha, hn⟩, h2⟩
    simp only [run, hr, ok_bind, hs]
    rfl

end MerkleTrie

end Novarand.Crypto
