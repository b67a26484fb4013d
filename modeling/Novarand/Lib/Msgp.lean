import Novarand.Lib.Outcome

/-!
# MessagePack

`Msgp` is a MessagePack library: functions that append one primitive value and functions that read
one back, and that reading what was appended gives the value and leaves what follows. On top of it,
the maps into which structures are encoded (`appendStruct`): the fields that are not omitted, each
after its name, behind the number of them.
-/

namespace Novarand

abbrev Octets := List UInt8

/-! ### Primitive values -/

/-- What can be wrong with a message. -/
inductive Fault
  | short
  | badType
  | overflow (got limit : ℕ)
  | arrayLength (got wanted : ℕ)
  | noField (key : Octets)
  | tooManyArrayFields (left : ℕ)
  | invalidObject
  deriving DecidableEq, Repr

def Fault.isOverflow : Fault → Bool
  | .overflow _ _ => true
  | _ => false

/-- A fault with the path to where it was met, outermost part first. -/
structure DecodeError where
  fault : Fault
  path : List String := []
  deriving DecidableEq, Repr

/-- Reading gives a value and the bytes that follow it. -/
abbrev Reader (α : Type) := Octets → Except DecodeError (α × Octets)

/-- The one-byte header of a map of fewer than 16 fields. -/
def fixmap (n : ℕ) : Octets := [UInt8.ofNat (0x80 + n)]

/-- A text of fewer than 32 bytes. -/
def fixstr (s : Octets) : Octets := UInt8.ofNat (0xa0 + s.length) :: s

/-- A library of primitive values. Lengths and numbers of fields are not bounded, as the format's
are at `2 ^ 32`. -/
structure Msgp where
  appendUint64 : UInt64 → Octets
  readUint64 : Reader UInt64
  /-- The unsigned integers of 8, 16 and 32 bits. -/
  appendUint : (w : ℕ) → BitVec w → Octets
  readUint : (w : ℕ) → Reader (BitVec w)
  appendInt64 : Int64 → Octets
  readInt64 : Reader Int64
  appendBool : Bool → Octets
  readBool : Reader Bool
  appendString : Octets → Octets
  readString : Reader Octets
  appendBytes : Octets → Octets
  readBytes : Reader Octets
  /-- The length of the bytes that follow. -/
  readBytesHeader : Octets → Except DecodeError ℕ
  /-- The entries of a map; `none` for a nil map. -/
  appendMapHeader : ℕ → Octets
  readMapHeader : Reader (Option ℕ)
  appendArrayHeader : ℕ → Octets
  readArrayHeader : Reader (Option ℕ)
  appendNil : Octets
  uint64 : ∀ v rest, readUint64 (appendUint64 v ++ rest) = .ok (v, rest)
  uint : ∀ w v rest, readUint w (appendUint w v ++ rest) = .ok (v, rest)
  int64 : ∀ v rest, readInt64 (appendInt64 v ++ rest) = .ok (v, rest)
  bool : ∀ v rest, readBool (appendBool v ++ rest) = .ok (v, rest)
  string : ∀ v rest, readString (appendString v ++ rest) = .ok (v, rest)
  bytes : ∀ v rest, readBytes (appendBytes v ++ rest) = .ok (v, rest)
  bytesHeader : ∀ v rest, readBytesHeader (appendBytes v ++ rest) = .ok v.length
  mapHeader : ∀ n rest, readMapHeader (appendMapHeader n ++ rest) = .ok (some n, rest)
  fixmapHeader : ∀ n rest, n < 16 → readMapHeader (fixmap n ++ rest) = .ok (some n, rest)
  arrayHeader : ∀ n rest, readArrayHeader (appendArrayHeader n ++ rest) = .ok (some n, rest)
  fixstrKey : ∀ s rest, s.length < 32 → readString (fixstr s ++ rest) = .ok (s, rest)

/-! ### Structures -/

/-- A field of a structure: its name and its encoded value, `none` if it is omitted. -/
abbrev Field := Octets × Option Octets

/-- The fields that are not omitted, each after its name. -/
def appendFields (fields : List Field) : Octets :=
  fields.flatMap fun f => match f.2 with
    | none => []
    | some v => fixstr f.1 ++ v

/-- The bytes of a name. -/
def ascii (s : String) : Octets := s.toList.map fun c => UInt8.ofNat c.toNat

/-- A field that is omitted if its value is zero. -/
def omitEmpty (empty : Prop) [Decidable empty] (v : Octets) : Option Octets :=
  if empty then none else some v

def presentFields (fields : List Field) : ℕ := fields.countP fun f => f.2.isSome

/-- A structure as a map, behind a header for the number of its fields. -/
def appendStruct (header : ℕ → Octets) (fields : List Field) : Octets :=
  header (presentFields fields) ++ appendFields fields

@[simp] theorem appendFields_none (k : Octets) (fields : List Field) :
    appendFields ((k, none) :: fields) = appendFields fields := rfl

theorem appendFields_some (k v : Octets) (fields : List Field) :
    appendFields ((k, some v) :: fields) = fixstr k ++ (v ++ appendFields fields) := by
  show (fixstr k ++ v) ++ appendFields fields = _
  rw [List.append_assoc]

@[simp] theorem presentFields_none (k : Octets) (fields : List Field) :
    presentFields ((k, none) :: fields) = presentFields fields := by simp [presentFields]

@[simp] theorem presentFields_some (k v : Octets) (fields : List Field) :
    presentFields ((k, some v) :: fields) = presentFields fields + 1 := by simp [presentFields]

/-! ### A library with these laws -/

namespace Unary

variable (n : ℕ)

def append : Octets := List.replicate n 1 ++ [0]

def read : Octets → Except DecodeError (ℕ × Octets)
  | [] => .error { fault := .short }
  | b :: rest =>
    if b = 0 then .ok (0, rest)
    else if b = 1 then (read rest).map fun r => (r.1 + 1, r.2)
    else .error { fault := .badType }

theorem read_append (rest : Octets) : read (append n ++ rest) = .ok (n, rest) := by
  induction n with
  | zero => rfl
  | succ n ih =>
    rw [append, List.replicate_succ, List.cons_append, List.cons_append, read]
    rw [append] at ih
    rw [ih]
    rfl

def sized (s : Octets) : Octets := append s.length ++ s

def take (b : Octets) : Octets × Octets := (b.take n, b.drop n)

def readSized (b : Octets) : Except DecodeError (Octets × Octets) :=
  (read b).map fun r => take r.1 r.2

theorem readSized_sized (s rest : Octets) : readSized (sized s ++ rest) = .ok (s, rest) := by
  rw [readSized, sized, List.append_assoc, read_append]
  simp [Except.map, take]

/-- A short text or one with its length in front. -/
def readText : Octets → Except DecodeError (Octets × Octets)
  | [] => .error { fault := .short }
  | b :: rest => if 0xa0 ≤ b.toNat then .ok (take (b.toNat - 0xa0) rest) else readSized (b :: rest)

/-- The header of a map or an array. -/
def readHeader : Octets → Except DecodeError (Option ℕ × Octets)
  | [] => .error { fault := .short }
  | b :: rest =>
    if b = 0xc0 then .ok (none, rest)
    else if 0x80 ≤ b.toNat then .ok (some (b.toNat - 0x80), rest)
    else (read (b :: rest)).map fun r => (some r.1, r.2)

/-- The first byte is 0 or 1. -/
theorem append_cases : ∃ b rest, append n = b :: rest ∧ b.toNat < 2 := by
  cases n with
  | zero => exact ⟨0, [], rfl, by decide⟩
  | succ n => exact ⟨1, append n, rfl, by decide⟩

theorem readText_sized (s rest : Octets) : readText (sized s ++ rest) = .ok (s, rest) := by
  have hr := readSized_sized s rest
  obtain ⟨b, _, hb, _⟩ := append_cases s.length
  rw [sized, hb] at hr ⊢
  rw [List.cons_append, List.cons_append] at hr ⊢
  rw [readText, if_neg (by omega)]
  exact hr

theorem readHeader_append (rest : Octets) : readHeader (append n ++ rest) = .ok (some n, rest) := by
  have hr := read_append n rest
  obtain ⟨b, _, hb, hl⟩ := append_cases n
  rw [hb, List.cons_append] at hr ⊢
  have hn : b ≠ 0xc0 := by
    rintro rfl
    exact absurd hl (by decide)
  rw [readHeader, if_neg hn, if_neg (by omega), hr]
  rfl

end Unary

open Unary in
/-- Numbers and lengths in unary. -/
def Msgp.unary : Msgp where
  appendUint64 v := append v.toNat
  readUint64 b := (read b).map fun r => (UInt64.ofNat r.1, r.2)
  appendUint _ v := append v.toNat
  readUint w b := (read b).map fun r => (BitVec.ofNat w r.1, r.2)
  appendInt64 v := append v.toBitVec.toNat
  readInt64 b := (read b).map fun r => (Int64.ofBitVec (BitVec.ofNat 64 r.1), r.2)
  appendBool v := append v.toNat
  readBool b := (read b).map fun r => (r.1 == 1, r.2)
  appendString := sized
  readString := readText
  appendBytes := sized
  readBytes := readSized
  readBytesHeader b := (read b).map (·.1)
  appendMapHeader := append
  readMapHeader := readHeader
  appendArrayHeader := append
  readArrayHeader := readHeader
  appendNil := [0xc0]
  uint64 v rest := by
    rw [read_append]
    simp [Except.map]
  uint w v rest := by
    rw [read_append]
    simp [Except.map]
  int64 v rest := by
    rw [read_append]
    simp [Except.map]
  bool v rest := by
    rw [read_append]
    cases v <;> rfl
  string := readText_sized
  bytes := readSized_sized
  bytesHeader v rest := by
    rw [sized, List.append_assoc, read_append]
    rfl
  mapHeader := readHeader_append
  fixmapHeader n rest hn := by
    have hval : (UInt8.ofNat (0x80 + n)).toNat = 0x80 + n :=
      UInt8.toNat_ofNat_of_lt' (show 0x80 + n < 256 by omega)
    have hne : UInt8.ofNat (0x80 + n) ≠ 0xc0 := fun h => by
      have := congrArg UInt8.toNat h
      rw [hval] at this
      have hc0 : (0xc0 : UInt8).toNat = 0xc0 := rfl
      omega
    show readHeader (UInt8.ofNat (0x80 + n) :: rest) = _
    rw [readHeader, if_neg hne, if_pos (by omega), hval, Nat.add_sub_cancel_left]
  arrayHeader := readHeader_append
  fixstrKey s rest hs := by
    have hval : (UInt8.ofNat (0xa0 + s.length)).toNat = 0xa0 + s.length :=
      UInt8.toNat_ofNat_of_lt' (show 0xa0 + s.length < 256 by omega)
    show readText (UInt8.ofNat (0xa0 + s.length) :: (s ++ rest)) = _
    rw [readText, if_pos (by omega), hval, Nat.add_sub_cancel_left]
    simp [take]

end Novarand
