import Novarand.Lib.Dict
import Novarand.Lib.Outcome

/-!
# Values under a log of deltas

A log is a list of deltas, each a dictionary of new values, the latest one at the end. Beside the
log a dictionary keeps, for every key in it, the latest value and the number of deltas that have the
key (`Tracked`). Appending a delta counts its keys up (`track`); dropping a front part of the log
counts its keys down again (`release`), which succeeds if the counts are those of the log.
-/

namespace Novarand

open List

/-- A value and the number of deltas that have set its key. -/
structure Tracked (V : Type*) where
  value : V
  ndeltas : ℕ
  deriving DecidableEq

namespace Deltas

variable {K V : Type*} [DecidableEq K]

/-- The latest value of a key in the log. -/
def lastOf (log : List (Dict K V)) (k : K) : Option V := log.reverse.findSome? (·.lookup k)

/-- The number of deltas that have the key. -/
def count (log : List (Dict K V)) (k : K) : ℕ := log.countP fun d => (d.lookup k).isSome

def track (m : Dict K (Tracked V)) (delta : Dict K V) : Dict K (Tracked V) :=
  delta.entries.foldl (fun m e =>
    m.upsert e.1 { value := e.2, ndeltas := ((m.lookup e.1).map Tracked.ndeltas).getD 0 + 1 }) m

/-- All deltas of the log in one. -/
def compact (log : List (Dict K V)) : Dict K (Tracked V) := log.foldl track ∅

inductive ReleaseError (K : Type*)
  | notTracked (k : K) (cnt : ℕ)
  | tooMany (k : K) (cnt had : ℕ)

def releaseOne (m : Dict K (Tracked V)) (k : K) (cnt : ℕ) :
    Except (ReleaseError K) (Dict K (Tracked V)) :=
  match m.lookup k with
  | none => .error (.notTracked k cnt)
  | some t =>
    if t.ndeltas < cnt then .error (.tooMany k cnt t.ndeltas)
    else if cnt = t.ndeltas then .ok (m.erase k)
    else .ok (m.upsert k { t with ndeltas := t.ndeltas - cnt })

def release (m : Dict K (Tracked V)) (flushed : List (K × ℕ)) :
    Except (ReleaseError K) (Dict K (Tracked V)) :=
  flushed.foldlM (fun m f => releaseOne m f.1 f.2) m

/-! ### The values of a log -/

theorem lastOf_append (log log' : List (Dict K V)) (k : K) :
    lastOf (log ++ log') k = (lastOf log' k).or (lastOf log k) := by simp [lastOf, findSome?_append]

theorem lastOf_singleton (d : Dict K V) (k : K) : lastOf [d] k = d.lookup k := by
  simp [lastOf]

variable {k : K} {log log' : List (Dict K V)} {m : Dict K (Tracked V)}

theorem lastOf_eq_none : lastOf log k = none ↔ ∀ d ∈ log, d.lookup k = none := by
  simp [lastOf]

theorem count_append (log log' : List (Dict K V)) (k : K) :
    count (log ++ log') k = count log k + count log' k := countP_append

theorem count_singleton (d : Dict K V) (k : K) :
    count [d] k = if (d.lookup k).isSome then 1 else 0 := by simp [count, countP_singleton]

theorem count_eq_zero : count log k = 0 ↔ lastOf log k = none := by
  simp [count, lastOf_eq_none, countP_eq_zero]

/-- The entry that tracks a key of the log. -/
def summary (log : List (Dict K V)) (k : K) : Option (Tracked V) :=
  (lastOf log k).map fun value => { value, ndeltas := count log k }

def Tracks (m : Dict K (Tracked V)) (log : List (Dict K V)) : Prop :=
  ∀ k, m.lookup k = summary log k

theorem summary_eq_none : summary log k = none ↔ lastOf log k = none := by
  simp [summary]

/-! ### Counting up -/

theorem lookup_track (m : Dict K (Tracked V)) (delta : Dict K V) (k : K) :
    (track m delta).lookup k =
      match delta.lookup k with
      | none => m.lookup k
      | some value => some { value, ndeltas := ((m.lookup k).map Tracked.ndeltas).getD 0 + 1 } := by
  obtain ⟨en, hd⟩ := delta
  simp only [track, AList.lookup]
  -- the keys of the entries still to come have the count of `m`
  induction en generalizing m with
  | nil => rfl
  | cons e en ih =>
    obtain ⟨k0, _⟩ := e
    obtain ⟨hn, hr⟩ := nodupKeys_cons.mp hd
    refine (ih _ hr).trans ?_
    by_cases hk : k = k0
    · subst hk
      rw [dlookup_cons_eq, dlookup_eq_none.mpr hn]
      exact (Dict.lookup_upsert m k k _).trans (if_pos rfl)
    · rw [dlookup_cons_ne _ _ hk]
      have ho : ∀ t, AList.lookup k (m.upsert k0 t) = m.lookup k := fun t => by
        rw [Dict.lookup_upsert, if_neg hk]
      simp only [AList.lookup] at ho
      rw [ho]

theorem Tracks.track (h : Tracks m log) (delta : Dict K V) :
    Tracks (track m delta) (log ++ [delta]) := by
  intro k
  rw [lookup_track, h k, summary, summary, lastOf_append, lastOf_singleton, count_append,
    count_singleton]
  cases hd : delta.lookup k with
  | none => simp
  | some v =>
    cases hl : lastOf log k with
    | none => simp [count_eq_zero.mpr hl]
    | some _ => simp

theorem Tracks.foldl (h : Tracks m log) (log' : List (Dict K V)) :
    Tracks (log'.foldl Deltas.track m) (log ++ log') := by
  induction log' generalizing m log with
  | nil => simpa using h
  | cons dl log' ih => simpa using ih (h.track dl)

theorem tracks_empty : Tracks (∅ : Dict K (Tracked V)) [] := fun k => AList.lookup_empty k

theorem tracks_compact (log : List (Dict K V)) : Tracks (compact log) log := tracks_empty.foldl log

theorem mem_compact : k ∈ compact log ↔ lastOf log k ≠ none := by
  rw [← AList.lookup_isSome, tracks_compact log k, Option.isSome_iff_ne_none, Ne, summary_eq_none]

theorem of_mem_compact {t : Tracked V} (h : ⟨k, t⟩ ∈ (compact log).entries) :
    lastOf log k = some t.value ∧ t.ndeltas = count log k := by
  have hl : (compact log).lookup k = some t := AList.mem_lookup_iff.mpr h
  rw [tracks_compact log k] at hl
  obtain ⟨v, hv, rfl⟩ := Option.map_eq_some_iff.mp hl
  exact ⟨hv, rfl⟩

/-! ### Counting down -/

theorem summary_append_eq (h : lastOf log k = none) : summary (log ++ log') k = summary log' k := by
  rw [summary, summary, lastOf_append, h, count_append, count_eq_zero.mpr h, Option.or_none,
    Nat.zero_add]

/-- One key of the front part is released. -/
theorem releaseOne_ok (hm : m.lookup k = summary (log ++ log') k) (hk : lastOf log k ≠ none) :
    ∃ m', releaseOne m k (count log k) = .ok m' ∧
      ∀ k', m'.lookup k' = if k' = k then summary log' k else m.lookup k' := by
  obtain ⟨v, hv⟩ := Option.ne_none_iff_exists'.mp hk
  cases hl : lastOf log' k with
  | none =>
    have hz := count_eq_zero.mpr hl
    rw [summary, lastOf_append, hv, count_append, hz] at hm
    refine ⟨m.erase k, ?_, fun k' => ?_⟩
    · simp [releaseOne, hm]
    · rw [Dict.lookup_erase', summary_eq_none.mpr hl]
  | some v' =>
    have hp : count log' k ≠ 0 := fun h => by
      rw [count_eq_zero.mp h] at hl
      cases hl
    rw [summary, lastOf_append, hl, count_append] at hm
    refine ⟨m.upsert k { value := v', ndeltas := count log' k }, ?_, fun k' => ?_⟩
    · simp [releaseOne, hm, hp]
    · rw [Dict.lookup_upsert, summary, hl]
      rfl

/-- The keys of the front part and their counts. -/
structure CountsOf (flushed : List (K × ℕ)) (log : List (Dict K V)) : Prop where
  nodup : (flushed.map Prod.fst).Nodup
  count : ∀ k cnt, (k, cnt) ∈ flushed → cnt = count log k ∧ lastOf log k ≠ none
  mem : ∀ k, lastOf log k ≠ none → k ∈ flushed.map Prod.fst

/-- Releasing the front part of a log succeeds, and the rest stays tracked. -/
theorem Tracks.release (hm : Tracks m (log ++ log')) {flushed : List (K × ℕ)}
    (h1 : CountsOf flushed log) : ∃ m', release m flushed = .ok m' ∧ Tracks m' log' := by
  have hp : ∀ (l : List (K × ℕ)) (m : Dict K (Tracked V)), (l.map Prod.fst).Nodup →
      (∀ f ∈ l, f.2 = Deltas.count log f.1 ∧ lastOf log f.1 ≠ none ∧
        m.lookup f.1 = summary (log ++ log') f.1) →
      ∃ m', Deltas.release m l = .ok m' ∧
        ∀ k, m'.lookup k = if k ∈ l.map Prod.fst then summary log' k else m.lookup k := by
    intro l
    induction l with
    | nil => exact fun m _ _ => ⟨m, rfl, fun k => by simp⟩
    | cons f l ih =>
      intro m hd ha
      obtain ⟨hn, hd⟩ := nodup_cons.mp hd
      obtain ⟨⟨hc, hl, h2⟩, ha⟩ := forall_mem_cons.mp ha
      obtain ⟨m1, ho, hm1⟩ := releaseOne_ok h2 hl
      have ht : ∀ g ∈ l, g.1 ≠ f.1 := fun g hg hq => hn (hq ▸ mem_map_of_mem hg)
      obtain ⟨m2, hr, hm2⟩ := ih m1 hd fun g hg => by
        obtain ⟨hc, hl, h2⟩ := ha g hg
        exact ⟨hc, hl, by rw [hm1, if_neg (ht g hg), h2]⟩
      refine ⟨m2, ?_, fun k => ?_⟩
      · rw [Deltas.release, foldlM_cons, hc, ho]
        exact hr
      · rw [hm2 k, hm1 k, map_cons]
        by_cases hk : k = f.1
        · subst hk
          rw [if_neg hn, if_pos rfl, if_pos mem_cons_self]
        · have he : k ∈ f.1 :: l.map Prod.fst ↔ k ∈ l.map Prod.fst := by simp [hk]
          rw [if_neg hk]
          exact if_congr he.symm rfl rfl
  obtain ⟨m', h3, hm'⟩ := hp flushed m h1.nodup fun f hf => by
    obtain ⟨hc, hl⟩ := h1.count f.1 f.2 hf
    exact ⟨hc, hl, hm f.1⟩
  refine ⟨m', h3, fun k => ?_⟩
  rw [hm' k]
  split_ifs with hk
  · rfl
  · rw [hm k]
    exact summary_append_eq (not_not.mp fun h => hk (h1.mem k h))

/-- The counts of the compacted deltas. -/
theorem countsOf_compact (log : List (Dict K V)) :
    CountsOf ((compact log).entries.map fun e => (e.1, e.2.ndeltas)) log where
  nodup := by
    rw [map_map]
    exact AList.keys_nodup (compact log)
  count k cnt hm := by
    obtain ⟨⟨_, t⟩, he, hq⟩ := mem_map.mp hm
    obtain ⟨rfl, rfl⟩ := Prod.mk.inj hq
    obtain ⟨hv, hc⟩ := of_mem_compact he
    exact ⟨hc, by rw [hv]; exact Option.some_ne_none _⟩
  mem k hk := by
    rw [map_map]
    exact mem_compact.mpr hk

end Deltas

end Novarand
