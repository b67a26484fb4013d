import Novarand.Lib.Msgp
import Novarand.Lib.SortedAssoc

/-!
# Codecs of types

How generated code writes and reads the values of a type, with any MessagePack library: a few
primitive values, and from codecs of parts those of slices, of maps, of structures, and of types that
are checked after they were read. Each comes with the values it reads back (`Fits`).

A structure is a function on its members. It is written as a map of those that are not zero, in the
order of their keys, and read from a map or from an array in the order of its declaration.
-/

namespace Novarand.Msgp

open List Function

/-- Writing and reading the values of a type. Reading changes a value that is there: a structure
keeps the members that the message leaves out. -/
structure Codec (α : Type) where
  zero : α
  /-- `MsgIsZero`. -/
  isZero : ∀ v, Decidable (v = zero)
  append : Msgp → α → Octets
  read : Msgp → α → Reader α
  Fits : α → Prop
  fits_zero : Fits zero
  read_append : ∀ m v rest, Fits v → read m zero (append m v ++ rest) = .ok (v, rest)

/-- `msgp.WrapError`. -/
def wrap {α : Type} (path : List String) (r : Except DecodeError α) : Except DecodeError α :=
  r.mapError fun e => { e with path := path ++ e.path }

@[simp] theorem wrap_ok {α : Type} (path : List String) (v : α) : wrap path (.ok v) = .ok v := rfl

namespace Codec

variable {α : Type} (bound : Option ℕ) (c : Codec α) (m : Msgp)

/-- What was written tells the value. -/
theorem append_inj {v v' : α} (h : c.Fits v) (h' : c.Fits v') (he : c.append m v = c.append m v') :
    v = v' := by
  have hr := c.read_append m v [] h
  rw [he, c.read_append m v' [] h'] at hr
  exact (Prod.mk.inj (Except.ok.inj hr)).1.symm

instance (v : α) : Decidable (v = c.zero) := c.isZero v

/-! ### Primitive values -/

def primitive [DecidableEq α] (zero : α) (append : Msgp → α → Octets) (read : Msgp → Reader α)
    (h : ∀ m v rest, read m (append m v ++ rest) = .ok (v, rest)) : Codec α where
  zero
  isZero _ := inferInstance
  append
  read m _ := read m
  Fits _ := True
  fits_zero := trivial
  read_append m v rest _ := h m v rest

def uint64 : Codec UInt64 := primitive 0 appendUint64 readUint64 Msgp.uint64

/-- An integer of `w` bits. -/
def uint (w : ℕ) : Codec (BitVec w) :=
  primitive 0 (appendUint · w) (readUint · w) (fun m => m.uint w)

def int64 : Codec Int64 := primitive 0 appendInt64 readInt64 Msgp.int64

def bool : Codec Bool := primitive false appendBool readBool Msgp.bool

def string : Codec Octets := primitive [] appendString readString Msgp.string

def bytes : Codec Octets := primitive [] appendBytes readBytes Msgp.bytes

/-- Bytes of at most a number. -/
def boundedBytes (bound : ℕ) : Codec Octets where
  zero := []
  isZero _ := inferInstance
  append := appendBytes
  read m _ bts := do
    let n ← m.readBytesHeader bts
    failIf (bound < n) { fault := .overflow n bound }
    m.readBytes bts
  Fits b := b.length ≤ bound
  fits_zero := Nat.zero_le _
  read_append m b rest h := by
    rw [m.bytesHeader, ok_bind, failIf_neg (not_lt.mpr h)]
    exact m.bytes b rest

/-- An array of `n` bytes. -/
def exactBytes (n : ℕ) : Codec { b : Octets // b.length = n } where
  zero := ⟨replicate n 0, length_replicate⟩
  isZero _ := inferInstance
  append m b := m.appendBytes b
  read m _ bts := do
    let (b, bts) ← m.readBytes bts
    if h : b.length = n then pure (⟨b, h⟩, bts) else throw { fault := .arrayLength b.length n }
  Fits _ := True
  fits_zero := trivial
  read_append m b rest _ := by
    rw [m.bytes]
    exact dif_pos b.2

/-! ### Slices and maps -/

/-- The bound of a slice or a map, if it has one. -/
def checkBound (n : ℕ) : Except DecodeError Unit :=
  match bound with
  | none => pure ()
  | some b => failIf (b < n) { fault := .overflow n b }

theorem checkBound_ok {n : ℕ} (h : ∀ b ∈ bound, n ≤ b) :
    checkBound bound n = .ok () := by
  cases bound with
  | none => rfl
  | some b => exact failIf_neg (not_lt.mpr (h b rfl))

/-- The elements of a slice, from the index `i` on. -/
def readItems : ℕ → ℕ → Reader (List α)
  | _, 0, bts => pure ([], bts)
  | i, n + 1, bts => do
    let (v, bts) ← wrap [toString i] (c.read m c.zero bts)
    let (vs, bts) ← readItems (i + 1) n bts
    return (v :: vs, bts)

theorem readItems_append {l : List α} (h : ∀ v ∈ l, c.Fits v) (i : ℕ) (rest : Octets) :
    c.readItems m i l.length (l.flatMap (c.append m) ++ rest) = .ok (l, rest) := by
  induction l generalizing i with
  | nil => rfl
  | cons v l ih =>
    obtain ⟨hv, hl⟩ := forall_mem_cons.mp h
    rw [length_cons, flatMap_cons, append_assoc, readItems, c.read_append m v _ hv, wrap_ok, ok_bind]
    simp only [ih hl, ok_bind]
    rfl

def slice : Codec (List α) where
  zero := []
  isZero _ := inferInstance
  append m l := m.appendArrayHeader l.length ++ l.flatMap (c.append m)
  read m _ bts := do
    let (n, bts) ← m.readArrayHeader bts
    checkBound bound (n.getD 0)
    c.readItems m 0 (n.getD 0) bts
  Fits l := (∀ b ∈ bound, l.length ≤ b) ∧ ∀ v ∈ l, c.Fits v
  fits_zero := ⟨fun _ _ => Nat.zero_le _, by simp⟩
  read_append m l rest h := by
    rw [append_assoc, m.arrayHeader, ok_bind]
    simp only [Option.getD_some, checkBound_ok bound h.1, ok_bind]
    exact c.readItems_append m h.2 0 rest

/-- A map, by its entries in the order of their keys. -/
abbrev Map (α : Type) := { l : List (Fin UInt64.size × α) // SortedAssoc.Sorted l }

def Map.put (k : Fin UInt64.size) (v : α) (l : Map α) : Map α :=
  if h : ∀ e ∈ l.1, e.1 ≠ k then ⟨SortedAssoc.insert k v l.1, l.2.insert h⟩
  else ⟨SortedAssoc.set k v l.1, l.2.set k v⟩

def readEntries : ℕ → Map α → Reader (Map α)
  | 0, l, bts => pure (l, bts)
  | n + 1, l, bts => do
    let (k, bts) ← m.readUint64 bts
    let (v, bts) ← wrap [toString k] (c.read m c.zero bts)
    readEntries n (l.put k.toFin v) bts

def appendEntry (e : Fin UInt64.size × α) : Octets := m.appendUint64 (.ofFin e.1) ++ c.append m e.2

theorem readEntries_append {l l₀ : List (Fin UInt64.size × α)} (h : ∀ e ∈ l, c.Fits e.2)
    (hs : SortedAssoc.Sorted (l₀ ++ l)) (rest : Octets) :
    c.readEntries m l.length ⟨l₀, (pairwise_append.mp hs).1⟩ (l.flatMap (c.appendEntry m) ++ rest) =
      .ok (⟨l₀ ++ l, hs⟩, rest) := by
  induction l generalizing l₀ with
  | nil => simp [readEntries, pure, Except.pure]
  | cons e l ih =>
    obtain ⟨k, v⟩ := e
    obtain ⟨hv, hl⟩ := forall_mem_cons.mp h
    have hk : ∀ e ∈ l₀, e.1 < k := fun e he => (pairwise_append.mp hs).2.2 e he _ mem_cons_self
    have hs' : SortedAssoc.Sorted ((l₀ ++ [(k, v)]) ++ l) := by simpa using hs
    rw [length_cons, flatMap_cons, appendEntry, append_assoc, append_assoc, readEntries, m.uint64,
      ok_bind]
    simp only [c.read_append m v _ hv, wrap_ok, ok_bind, UInt64.toFin_ofFin]
    have hp : Map.put k v ⟨l₀, (pairwise_append.mp hs).1⟩ =
        ⟨l₀ ++ [(k, v)], (pairwise_append.mp hs').1⟩ := by
      rw [Map.put, dif_pos fun e he => (hk e he).ne]
      exact Subtype.ext (SortedAssoc.insert_last hk)
    rw [hp, ih hl hs']
    simp

/-- A map from numbers. -/
def map : Codec (Map α) where
  zero := ⟨[], .nil⟩
  isZero l := decidable_of_iff (l.1 = []) ⟨fun h => Subtype.ext h, fun h => congrArg Subtype.val h⟩
  append m l := m.appendMapHeader l.1.length ++ l.1.flatMap (c.appendEntry m)
  read m l bts := do
    let (n, bts) ← m.readMapHeader bts
    checkBound bound (n.getD 0)
    match n with
    | none => pure (⟨[], .nil⟩, bts)
    | some n => c.readEntries m n l bts
  Fits l := (∀ b ∈ bound, l.1.length ≤ b) ∧ ∀ e ∈ l.1, c.Fits e.2
  fits_zero := ⟨fun _ _ => Nat.zero_le _, by simp⟩
  read_append m l rest h := by
    rw [append_assoc, m.mapHeader, ok_bind]
    simp only [Option.getD_some, checkBound_ok bound h.1, ok_bind]
    have hl : SortedAssoc.Sorted ([] ++ l.1) := l.2
    exact c.readEntries_append m h.2 hl rest

/-! ### Checks -/

/-- A value that is checked once it was read. -/
def checked (p : α → Prop) [DecidablePred p] (h : p c.zero) : Codec α where
  zero := c.zero
  isZero := c.isZero
  append := c.append
  read m v bts := do
    let (v, bts) ← c.read m v bts
    failIf (¬ p v) { fault := .invalidObject }
    return (v, bts)
  Fits v := c.Fits v ∧ p v
  fits_zero := ⟨c.fits_zero, h⟩
  read_append m v rest h := by
    rw [c.read_append m v rest h.1, ok_bind]
    simp only [failIf_neg (not_not.mpr h.2), ok_bind]
    rfl

end Codec

/-! ### Structures -/

/-- A member of a structure, with its key. -/
structure Member where
  key : String
  name : String
  {Value : Type}
  codec : Codec Value
  /-- Bytes that are read in place: their overflow is not wrapped. -/
  inPlace : Bool := false

def member {α : Type} (key name : String) (codec : Codec α) : Member := { key, name, codec }

/-- A structure with these members. -/
abbrev Record (ms : List Member) := (i : Fin ms.length) → ms[i].Value

/-- The keys are short and tell the members. -/
def Keyed (ms : List Member) : Prop :=
  (ms.map fun f => ascii f.key).Nodup ∧ ∀ f ∈ ms, (ascii f.key).length < 32

instance (ms : List Member) : Decidable (Keyed ms) := inferInstanceAs (Decidable (_ ∧ _))

namespace Record

variable {ms : List Member} (m : Msgp)

def zero (ms : List Member) : Record ms := fun i => ms[i].codec.zero

def nil : Record [] := fun i => i.elim0

def cons {f : Member} (v : f.Value) (r : Record ms) : Record (f :: ms) := fun i => Fin.cases v r i

def key (i : Fin ms.length) : Octets := ascii ms[i].key

def field (r : Record ms) (i : Fin ms.length) : Field :=
  (key i, omitEmpty (r i = ms[i].codec.zero) (ms[i].codec.append m (r i)))

/-- The order of the keys. -/
def marshalled (ms : List Member) : List (Fin ms.length) :=
  (finRange ms.length).insertionSort fun i j => key i ≤ key j

/-- The member `i` is read into its place. -/
def readMember (path : List String) (i : Fin ms.length) (r : Record ms) : Reader (Record ms) :=
  fun bts =>
    match ms[i].codec.read m (r i) bts with
    | .ok (v, bts) => pure (update r i v, bts)
    | .error e =>
      if ms[i].inPlace ∧ e.fault.isOverflow then throw e
      else throw { e with path := path ++ ms[i].name :: e.path }

def readMap : ℕ → Record ms → Reader (Record ms)
  | 0, r, bts => pure (r, bts)
  | n + 1, r, bts => do
    let (field, bts) ← m.readString bts
    match (finRange ms.length).find? fun i => key i = field with
    | none => throw { fault := .noField field }
    | some i =>
      let (r, bts) ← readMember m [] i r bts
      readMap n r bts

def readArray : List (Fin ms.length) → ℕ → Record ms → Reader (Record ms)
  | _, 0, r, bts => pure (r, bts)
  | [], n + 1, _, _ => throw { fault := .tooManyArrayFields (n + 1), path := ["struct-from-array"] }
  | i :: is, n + 1, r, bts => do
    let (r, bts) ← readMember m ["struct-from-array"] i r bts
    readArray is n r bts

def read (r : Record ms) : Reader (Record ms) := fun bts =>
  match m.readMapHeader bts with
  | .ok (none, bts) => pure (zero ms, bts)
  | .ok (some n, bts) => readMap m n r bts
  | .error { fault := .badType, .. } => do
    let (n, bts) ← m.readArrayHeader bts
    readArray m (finRange ms.length) (n.getD 0) r bts
  | .error e => throw e

variable {m}

theorem find_key (hk : Keyed ms) (i : Fin ms.length) :
    (finRange ms.length).find? (fun j => key j = key i) = some i := by
  cases hf : (finRange ms.length).find? fun j => key j = key i with
  | none => simpa using find?_eq_none.mp hf i (mem_finRange i)
  | some j =>
    have hj : key j = key i := by simpa using find?_some hf
    have hp := pairwise_iff_getElem.mp (pairwise_map.mp hk.1)
    rcases lt_trichotomy j i with hl | rfl | hl
    · exact absurd hj (hp j i j.2 i.2 hl)
    · rfl
    · exact absurd hj.symm (hp i j i.2 j.2 hl)

variable {r r₀ : Record ms} {is : List (Fin ms.length)}

/-- Reading the members that were written sets those that are not zero. -/
theorem readMap_fields (hk : Keyed ms) (hr : ∀ i : Fin ms.length, ms[i].codec.Fits (r i)) (hn : is.Nodup)
    (h₀ : ∀ i ∈ is, r₀ i = ms[i].codec.zero) (rest : Octets) :
    readMap m (presentFields (is.map (field m r))) r₀ (appendFields (is.map (field m r)) ++ rest) =
      .ok (fun i => if i ∈ is then r i else r₀ i, rest) := by
  induction is generalizing r₀ with
  | nil => simp [presentFields, appendFields, readMap, pure, Except.pure]
  | cons i is ih =>
    obtain ⟨hi, hn⟩ := nodup_cons.mp hn
    obtain ⟨hz, h₀⟩ := forall_mem_cons.mp h₀
    by_cases hv : r i = ms[i].codec.zero
    · rw [map_cons, field, omitEmpty, if_pos hv, presentFields_none, appendFields_none, ih hn h₀]
      congr 2
      funext j
      by_cases hj : j = i
      · subst hj
        simp [hi, hz, hv]
      · simp [hj]
    · have hs : ∀ j ∈ is, update r₀ i (r i) j = ms[j].codec.zero := by
        intro j hj
        rw [update_of_ne (ne_of_mem_of_not_mem hj hi)]
        exact h₀ j hj
      have hl : (key i).length < 32 := hk.2 _ (getElem_mem _)
      rw [map_cons, field, omitEmpty, if_neg hv, presentFields_some, appendFields_some,
        append_assoc, append_assoc, readMap, m.fixstrKey _ _ hl, ok_bind]
      simp only [find_key hk i, readMember, hz, ms[i].codec.read_append m _ _ (hr i)]
      refine (ih hn hs).trans ?_
      congr 2
      funext j
      by_cases hj : j = i
      · subst hj
        simp [hi]
      · simp [hj]

end Record

/-- The codec of a structure whose header is written by `header`. -/
def Codec.structWith (header : Msgp → ℕ → Octets) (ms : List Member) (hk : Keyed ms)
    (hh : ∀ m n rest, n ≤ ms.length → readMapHeader m (header m n ++ rest) = .ok (some n, rest)) :
    Codec (Record ms) where
  zero := Record.zero ms
  isZero r := decidable_of_iff (∀ i : Fin ms.length, r i = ms[i].codec.zero) funext_iff.symm
  append m r := appendStruct (header m) ((Record.marshalled ms).map (Record.field m r))
  read m r := Record.read m r
  Fits r := ∀ i : Fin ms.length, ms[i].codec.Fits (r i)
  fits_zero i := ms[i].codec.fits_zero
  read_append m r rest hr := by
    have hp := perm_insertionSort (fun i j => Record.key i ≤ Record.key j) (finRange ms.length)
    have hl : presentFields ((Record.marshalled ms).map (Record.field m r)) ≤ ms.length := by
      refine countP_le_length.trans_eq ?_
      rw [length_map, Record.marshalled, hp.length_eq, length_finRange]
    rw [appendStruct, append_assoc, Record.read, hh m _ _ hl]
    refine (Record.readMap_fields hk hr (hp.nodup_iff.mpr (nodup_finRange _)) (fun _ _ => rfl)
      rest).trans ?_
    simp

/-- Structures of a few members have a header of one byte. -/
def Codec.struct (ms : List Member) (h : Keyed ms ∧ ms.length < 16) : Codec (Record ms) :=
  structWith (fun _ => fixmap) ms h.1 fun m n rest hn => m.fixmapHeader n rest (by omega)

end Novarand.Msgp
