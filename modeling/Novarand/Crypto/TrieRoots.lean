import Novarand.Crypto.MerkleRoots
import Novarand.Crypto.MerkleTrie

/-!
# Root hashes of Merkle tries

The hash of an inner node covers its path and, for each child, whether it is a leaf, its index byte and
its own hash, each with its length in one byte. For elements of at most 255 bytes these lengths are
right, so the strings that are hashed can be decoded, and the root hash determines the trie.
-/

namespace Novarand.Crypto.MerkleTrie

open List Set

open MerkleArray (NonZero)

/-- What the hash of a node covers of a child. -/
structure ChildHash where
  leaf : Bool
  hashIndex : UInt8
  hash : Bytes
  deriving DecidableEq

def ChildHash.encode (c : ChildHash) : Bytes :=
  (if c.leaf then 0 else 1) :: UInt8.ofNat c.hash.length :: c.hashIndex :: c.hash

/-- The string that `calculateHash` hashes. -/
def encodeNode (path : Bytes) (children : List ChildHash) : Bytes :=
  UInt8.ofNat path.length :: (path ++ children.flatMap ChildHash.encode)

/-- The children of a node, with their hashes. -/
def childHashes (hash : UInt8 → Node → Bytes) (children : Children) : List ChildHash :=
  children.map fun e => { leaf := e.2.isLeaf, hashIndex := e.1, hash := hash e.1 e.2 }

variable (H : Hashing)

/-- The hash of a node, as `calculateHash` leaves it; that of a leaf is the rest of its element. The
recursion is over the length of the rests below the node. -/
def nodeHash : ℕ → Bytes → Node → Bytes
  | _, _, .leaf hash => hash
  | 0, _, .inner _ => []
  | n + 1, path, .inner children =>
    H.sum .sha512_256 (encodeNode path (childHashes (fun b => nodeHash n (path ++ [b])) children))

def Trie.rootHash (t : Trie) : Bytes :=
  match t.root with
  | none => List.replicate 32 0
  | some (.leaf hash) => H.sum .sha512_256 (0 :: hash)
  | some (.inner children) =>
    H.sum .sha512_256 (1 :: nodeHash H t.elementLength [] (.inner children))

/-- The strings that are hashed for the nodes from a node on. -/
def nodeInputs : ℕ → Bytes → Node → Set Bytes
  | _, _, .leaf _ => ∅
  | 0, _, .inner _ => ∅
  | n + 1, path, .inner children =>
    Insert.insert (encodeNode path (childHashes (fun b => nodeHash H n (path ++ [b])) children))
      {x | ∃ e ∈ children, x ∈ nodeInputs n (path ++ [e.1]) e.2}

/-- The strings that are hashed for the root hash. -/
def Trie.inputs (t : Trie) : Set Bytes :=
  match t.root with
  | none => ∅
  | some (.leaf hash) => {0 :: hash}
  | some (.inner children) =>
    Insert.insert (1 :: nodeHash H t.elementLength [] (.inner children))
      (nodeInputs H t.elementLength [] (.inner children))

/-! ## Decoding -/

theorem byte_length_inj {m n : ℕ} (hm : m < 256) (hn : n < 256) (h : UInt8.ofNat m = UInt8.ofNat n) :
    m = n := by
  have h' := congrArg UInt8.toNat h
  simp only [UInt8.toNat_ofNat'] at h'
  omega

variable {cs cs' : List ChildHash}

theorem encode_children_inj (h : ∀ c ∈ cs, c.hash.length < 256)
    (h' : ∀ c ∈ cs', c.hash.length < 256)
    (he : cs.flatMap ChildHash.encode = cs'.flatMap ChildHash.encode) : cs = cs' := by
  induction cs generalizing cs' with
  | nil =>
    cases cs' with
    | nil => rfl
    | cons c' cs' => cases he
  | cons c cs ih =>
    cases cs' with
    | nil => cases he
    | cons c' cs' =>
      obtain ⟨hc, hs⟩ := forall_mem_cons.mp h
      obtain ⟨hc', hs'⟩ := forall_mem_cons.mp h'
      obtain ⟨lf, _, hash⟩ := c
      obtain ⟨leaf', _, _⟩ := c'
      simp only [flatMap_cons, ChildHash.encode, cons_append, List.cons.injEq] at he
      obtain ⟨_, hl, rfl, hr⟩ := he
      have hf : lf = leaf' := by
        cases lf <;> cases leaf' <;> simp_all
      obtain ⟨rfl, ht⟩ := append_inj hr (byte_length_inj hc hc' hl)
      rw [hf, ih hs hs' ht]

/-- The string of a node can be decoded. -/
theorem encodeNode_inj {path path' : Bytes} (hp : path.length < 256) (hp' : path'.length < 256)
    (h : ∀ c ∈ cs, c.hash.length < 256) (h' : ∀ c ∈ cs', c.hash.length < 256)
    (he : encodeNode path cs = encodeNode path' cs') : path = path' ∧ cs = cs' := by
  obtain ⟨hl, hr⟩ := List.cons.inj he
  obtain ⟨rfl, ht⟩ := append_inj hr (byte_length_inj hp hp' hl)
  exact ⟨rfl, encode_children_inj h h' ht⟩

/-! ## Binding -/

variable {H} {n : ℕ} {path : Bytes} {node node' : Node} {S s s' : Set Bytes}

theorem length_nodeHash (h : Good n node) (hn : n < 256) : (nodeHash H n path node).length < 256 := by
  cases node with
  | leaf hash =>
    have hl := good_leaf.mp h
    have hh : nodeHash H n path (.leaf hash) = hash := by cases n <;> rfl
    rw [hh, hl]
    exact hn
  | inner ch =>
    cases n with
    | zero => cases h
    | succ n =>
      have hl : (nodeHash H (n + 1) path (.inner ch)).length = 32 := H.length_sum _ _
      rw [hl]
      decide

/-- Lists with the same images are the same, if the map tells their entries apart. -/
theorem eq_of_map_eq {α β : Type} {f : α → β} {l l' : List α}
    (hf : ∀ a ∈ l, ∀ b ∈ l', f a = f b → a = b) (h : l.map f = l'.map f) : l = l' := by
  induction l generalizing l' with
  | nil => exact (map_eq_nil_iff.mp h.symm).symm
  | cons a l ih =>
    cases l' with
    | nil => cases h
    | cons b l' =>
      obtain ⟨h1, hr⟩ := List.cons.inj h
      have ht := ih (fun a ha b hb => hf a (mem_cons_of_mem _ ha) b (mem_cons_of_mem _ hb)) hr
      rw [hf a mem_cons_self b mem_cons_self h1, ht]

/-- By induction on the length of the rests: the hash of a node, with its kind, determines it. -/
theorem nodeHash_inj (hS : Set.InjOn (H.sum .sha512_256) S) (hl : path.length + n ≤ 255)
    (h : Good n node) (h' : Good n node') (hn : node.isLeaf = node'.isLeaf)
    (hi : nodeInputs H n path node ⊆ S) (hi' : nodeInputs H n path node' ⊆ S)
    (hq : nodeHash H n path node = nodeHash H n path node') : node = node' := by
  have hf : ∀ {n : ℕ} {path hash : Bytes}, nodeHash H n path (.leaf hash) = hash := by
    intro n path hash
    cases n <;> rfl
  induction n generalizing path node node' with
  | zero =>
    cases node with
    | inner ch => cases h
    | leaf hash =>
      cases node' with
      | inner ch' => cases h'
      | leaf hash' =>
        rw [hf, hf] at hq
        rw [hq]
  | succ n ih =>
    cases node with
    | leaf hash =>
      cases node' with
      | inner ch' => cases hn
      | leaf hash' =>
        rw [hf, hf] at hq
        rw [hq]
    | inner ch =>
      cases node' with
      | leaf hash' => cases hn
      | inner ch' =>
        obtain ⟨-, hg, -, -⟩ := h
        obtain ⟨-, hg', -, -⟩ := h'
        have hs : ∀ {ch : Children}, (∀ e ∈ ch, Good n e.2) →
            ∀ c ∈ childHashes (fun b => nodeHash H n (path ++ [b])) ch, c.hash.length < 256 := by
          intro ch hg c hc
          obtain ⟨e, he, rfl⟩ := mem_map.mp hc
          exact length_nodeHash (hg e he) (by omega)
        have h1 := hS (hi (Set.mem_insert _ _)) (hi' (Set.mem_insert _ _)) hq
        obtain ⟨-, h2⟩ := encodeNode_inj (by omega) (by omega) (hs hg) (hs hg') h1
        refine congrArg Node.inner (eq_of_map_eq ?_ h2)
        rintro ⟨b, ci⟩ hm ⟨_, child'⟩ hm' ho
        simp only [ChildHash.mk.injEq] at ho
        obtain ⟨hk, rfl, hh⟩ := ho
        have hl' : (path ++ [b]).length + n ≤ 255 := by
          rw [length_append, length_singleton]
          omega
        have h3 : ci = child' := ih hl' (hg _ hm) (hg' _ hm') hk
          (fun x hx => hi (mem_insert_of_mem _ ⟨_, hm, hx⟩))
          (fun x hx => hi' (mem_insert_of_mem _ ⟨_, hm', hx⟩)) hh
        rw [h3]

/-- The root hash determines the root. -/
theorem Trie.rootHash_inj (hS : Set.InjOn (H.sum .sha512_256) S) (hz : NonZero H .sha512_256 S)
    (hn : n ≤ 255) {t t' : Trie} (h : t.Holds n s) (h' : t'.Holds n s') (hi : t.inputs H ⊆ S)
    (hi' : t'.inputs H ⊆ S) (he : t.rootHash H = t'.rootHash H) : s = s' := by
  obtain ⟨rt, len⟩ := t
  obtain ⟨rt', len'⟩ := t'
  -- the zero hash of the empty trie is not that of a string
  have hf : ∀ {x : Bytes}, x ∈ S → H.sum .sha512_256 x = List.replicate 32 0 → False :=
    fun hx hs => hz _ hx hs
  have hr : ∀ {nd : Node} {s : Set Bytes},
      (mk (some nd) n).Holds n s → (mk (some nd) n).inputs H ⊆ S →
      ∃ x ∈ S, (mk (some nd) n).rootHash H = H.sum .sha512_256 x := by
    intro nd s h hi
    cases nd with
    | leaf hash => exact ⟨_, hi (mem_singleton _), rfl⟩
    | inner ch => exact ⟨_, hi (Set.mem_insert _ _), rfl⟩
  cases rt with
  | none =>
    cases rt' with
    | none => exact Eq.trans h (Eq.symm h')
    | some node' =>
      obtain ⟨hg', rfl, -⟩ := id h'
      obtain ⟨x, hx, hs⟩ := hr h' hi'
      rw [hs] at he
      exact absurd he.symm (hf hx)
  | some nd =>
    obtain ⟨hg, rfl, hm⟩ := id h
    cases rt' with
    | none =>
      obtain ⟨x, hx, hs⟩ := hr h hi
      rw [hs] at he
      exact absurd he (hf hx)
    | some node' =>
      obtain ⟨hg', hl', hm'⟩ := id h'
      obtain rfl : len' = len := hl'
      have h1 : nd = node' := by
        cases nd with
        | leaf hash =>
          cases node' with
          | leaf hash' =>
            have := hS (hi (mem_singleton _)) (hi' (mem_singleton _)) he
            rw [(List.cons.inj this).2]
          | inner ch' =>
            have := hS (hi (Set.mem_singleton _)) (hi' (Set.mem_insert _ _)) he
            exact absurd (List.cons.inj this).1 (by decide)
        | inner ch =>
          cases node' with
          | leaf hash' =>
            have := hS (hi (Set.mem_insert _ _)) (hi' (Set.mem_singleton _)) he
            exact absurd (List.cons.inj this).1 (by decide)
          | inner ch' =>
            have := hS (hi (Set.mem_insert _ _)) (hi' (Set.mem_insert _ _)) he
            exact nodeHash_inj hS (by simpa using hn) hg hg' rfl
              (fun x hx => hi (mem_insert_of_mem _ hx))
              (fun x hx => hi' (mem_insert_of_mem _ hx)) (List.cons.inj this).2
      ext d
      rw [hm d, hm' d, h1]

/-- Two tries over elements of one length, at most 255, built by any changes: if their root hashes
are equal they hold the same set, provided that no two of the strings hashed for them collide and
none has the hash of all zeros, that of the empty trie. Strings hashed for nodes can be decoded. -/
theorem trie_root_binding (hS : Set.InjOn (H.sum .sha512_256) S) (hzero : NonZero H .sha512_256 S)
    (hn : n ≤ 255) {ops ops' : List TrieOp} (hops : ∀ op ∈ ops, op.element.length = n)
    (hops' : ∀ op ∈ ops', op.element.length = n) :
    (∃ answers t answers' t', Trie.run ops {} = .ok (answers, t) ∧
      Trie.run ops' {} = .ok (answers', t') ∧
      (t.inputs H ⊆ S → t'.inputs H ⊆ S → t.rootHash H = t'.rootHash H →
        contents ops = contents ops')) ∧
    ∀ {path path' : Bytes} {cs cs' : List ChildHash}, path.length < 256 → path'.length < 256 →
      (∀ c ∈ cs, c.hash.length < 256) → (∀ c ∈ cs', c.hash.length < 256) →
      encodeNode path cs = encodeNode path' cs' → path = path' ∧ cs = cs' := by
  have he : (Trie.mk none 0).Holds n ∅ := rfl
  obtain ⟨answers, t, hr, -, ht⟩ := Trie.run_set he hops
  obtain ⟨answers', t', hr', -, ht'⟩ := Trie.run_set he hops'
  exact ⟨⟨answers, t, answers', t', hr, hr',
    fun hi hi' hq => Trie.rootHash_inj hS hzero hn ht ht' hi hi' hq⟩, encodeNode_inj⟩

namespace Sample

/-- Strings are told apart by their lengths. -/
def lengths : Hashing where
  sum t x := List.replicate (t.size - 1) 0 ++ [UInt8.ofNat x.length]
  length_sum t x := by cases t <;> rfl

/-- Two elements, in both orders. -/
def forth : List TrieOp := [.add [1], .add [2]]
def back : List TrieOp := [.add [2], .add [1]]

/-- The trie of both. -/
def both : Trie := { root := some (.inner [(1, .leaf []), (2, .leaf [])]), elementLength := 1 }

theorem run_forth : Trie.run forth {} = .ok ([true, true], both) := rfl

theorem run_back : Trie.run back {} = .ok ([true, true], both) := rfl

/-- The strings hashed for it. -/
def inner : Bytes := [0, 0, 0, 1, 0, 0, 2]
def outer : Bytes := 1 :: lengths.sum .sha512_256 inner

theorem inputs_both : both.inputs lengths ⊆ {outer, inner} := by
  rintro x (rfl | rfl | ⟨e, he, hx⟩)
  · exact .inl rfl
  · exact .inr rfl
  · simp only [mem_cons, not_mem_nil, or_false] at he
    rcases he with rfl | rfl
    · cases hx
    · cases hx

end Sample

open Sample

theorem trie_root_binding_orders :
    ∃ answers t answers' t', Trie.run forth {} = .ok (answers, t) ∧
      Trie.run back {} = .ok (answers', t') ∧
      t.rootHash lengths = t'.rootHash lengths ∧
      contents forth = contents back := by
  have hS : Set.InjOn (lengths.sum .sha512_256) {outer, Sample.inner} := by
    rintro x (rfl | rfl) y (rfl | rfl) he
    · rfl
    · exact absurd he (by decide)
    · exact absurd he (by decide)
    · rfl
  have hz : NonZero lengths .sha512_256 {outer, Sample.inner} := by
    rintro x (rfl | rfl)
    · decide
    · decide
  have hf : ∀ op ∈ forth, op.element.length = 1 := by decide
  have hb : ∀ op ∈ back, op.element.length = 1 := by decide
  obtain ⟨⟨answers, t, answers', t', hr, hr', hn⟩, -⟩ :=
    trie_root_binding hS hz (by decide) hf hb
  obtain ⟨-, rfl⟩ := Prod.mk.inj (Except.ok.inj (hr.symm.trans run_forth))
  obtain ⟨-, rfl⟩ := Prod.mk.inj (Except.ok.inj (hr'.symm.trans run_back))
  exact ⟨answers, _, answers', _, hr, hr', rfl, hn inputs_both inputs_both rfl⟩

/-- **A trie answers as a set does**: every change tells whether it changed the set. -/
theorem trie_answers {ops : List TrieOp} (ho : ∀ op ∈ ops, op.element.length = n) :
    ∃ answers t, Trie.run ops {} = .ok (answers, t) ∧ Answers ops ∅ answers := by
  have he : (Trie.mk none 0).Holds n ∅ := rfl
  obtain ⟨answers, t, hr, ha, -⟩ := Trie.run_set he ho
  exact ⟨answers, t, hr, ha⟩

theorem trie_answers_forth :
    ∃ answers t, Trie.run forth {} = .ok (answers, t) ∧ Answers forth ∅ answers :=
  trie_answers (n := 1) (by decide)

end Novarand.Crypto.MerkleTrie
