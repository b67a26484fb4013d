import Mathlib

/-!
# Caches in order of use

A cache is the list of its entries, the one that was used last in front. An entry has a key and a
stamp; of two entries for one key the cache keeps the one with the later stamp.
-/

namespace Novarand.Lru

open List

variable {K E : Type*} [DecidableEq K] (key : E → K) (stamp : E → ℕ)

def read (cache : List E) (k : K) : Option E := cache.find? fun e => key e = k

/-- The entry that is kept of `e` and what the cache has for its key. -/
def newer (cache : List E) (e : E) : E :=
  match read key cache (key e) with
  | none => e
  | some old => if stamp old < stamp e then e else old

def write (cache : List E) (e : E) : List E :=
  newer key stamp cache e :: cache.filter fun e' => key e' ≠ key e

def flush (cache pending : List E) : List E := pending.foldl (write key stamp) cache

/-- Dropping the entries at the back until at most `n` are left. -/
def prune (n : ℕ) (cache : List E) : List E := cache.take n

variable {key stamp} {cache pending : List E} {e e' : E} {k : K}

theorem mem_of_read (h : read key cache k = some e) : e ∈ cache ∧ key e = k := by
  refine ⟨mem_of_find?_eq_some h, ?_⟩
  simpa using find?_some h

theorem newer_cases (key : E → K) (stamp : E → ℕ) (cache : List E) (e : E) :
    (newer key stamp cache e = e ∧ read key cache (key e) = none) ∨
      ∃ old, read key cache (key e) = some old ∧
        (newer key stamp cache e = e ∧ stamp old < stamp e ∨
          newer key stamp cache e = old ∧ stamp e ≤ stamp old) := by
  unfold newer
  cases read key cache (key e) with
  | none => exact .inl ⟨rfl, rfl⟩
  | some old =>
    refine .inr ⟨old, rfl, ?_⟩
    by_cases h : stamp old < stamp e
    · exact .inl ⟨if_pos h, h⟩
    · exact .inr ⟨if_neg h, Nat.le_of_not_lt h⟩

theorem key_newer (key : E → K) (stamp : E → ℕ) (cache : List E) (e : E) :
    key (newer key stamp cache e) = key e := by
  rcases newer_cases key stamp cache e with ⟨h, -⟩ | ⟨_, ho, ⟨h, -⟩ | ⟨h, -⟩⟩
  · rw [h]
  · rw [h]
  · rw [h]
    exact (mem_of_read ho).2

theorem mem_write : e' ∈ write key stamp cache e ↔
    e' = newer key stamp cache e ∨ e' ∈ cache ∧ key e' ≠ key e := by simp [write]

theorem read_write (cache : List E) (e : E) (k : K) : read key (write key stamp cache e) k =
    if k = key e then some (newer key stamp cache e) else read key cache k := by
  have he := key_newer key stamp cache e
  by_cases hk : k = key e
  · rw [if_pos hk, read, write, find?_cons_of_pos]
    simpa using he.trans hk.symm
  · rw [if_neg hk, read, write, find?_cons_of_neg, find?_filter]
    · congr 1
      funext e'
      by_cases h : key e' = k
      · simp [h, hk]
      · simp [h]
    · simpa [he] using Ne.symm hk

/-- Where an entry comes from after a flush: it was cached, and no later one for its key was flushed,
or it was flushed, as the first for its key or after an earlier one. -/
theorem mem_flush (h : e ∈ flush key stamp cache pending) :
    (e ∈ cache ∧ ∀ p ∈ pending, key p = key e → stamp p ≤ stamp e) ∨
      e ∈ pending ∧ (read key cache (key e) = none ∨
        ∃ old ∈ cache, key old = key e ∧ stamp old < stamp e) := by
  induction pending generalizing cache with
  | nil => exact .inl ⟨h, by simp⟩
  | cons p pending ih =>
    have hp := newer_cases key stamp cache p
    rcases ih h with ⟨he, hl⟩ | ⟨he, hn | ⟨old, ho, hk, ht⟩⟩
    · rcases mem_write.mp he with rfl | ⟨he, hne⟩
      · rcases hp with ⟨h, hn⟩ | ⟨old, ho, ⟨h, ht⟩ | ⟨h, hle⟩⟩
        · rw [h]
          exact .inr ⟨mem_cons_self, .inl hn⟩
        · rw [h]
          obtain ⟨hm, hk⟩ := mem_of_read ho
          exact .inr ⟨mem_cons_self, .inr ⟨old, hm, hk, ht⟩⟩
        · rw [h] at hl ⊢
          exact .inl ⟨(mem_of_read ho).1, forall_mem_cons.mpr ⟨fun _ => hle, hl⟩⟩
      · exact .inl ⟨he, forall_mem_cons.mpr ⟨fun hq => absurd hq.symm hne, hl⟩⟩
    · refine .inr ⟨mem_cons_of_mem _ he, .inl ?_⟩
      rw [read_write] at hn
      split at hn
      · cases hn
      · exact hn
    · refine .inr ⟨mem_cons_of_mem _ he, ?_⟩
      rcases mem_write.mp ho with rfl | ⟨ho, -⟩
      · rw [key_newer key stamp] at hk
        rcases hp with ⟨h, hn⟩ | ⟨fr, hf, ⟨h, ht'⟩ | ⟨h, -⟩⟩
        · exact .inl (hk ▸ hn)
        · obtain ⟨hm, hk'⟩ := mem_of_read hf
          rw [h] at ht
          exact .inr ⟨fr, hm, hk'.trans hk, Nat.lt_trans ht' ht⟩
        · obtain ⟨hm, hk'⟩ := mem_of_read hf
          rw [h] at ht
          exact .inr ⟨fr, hm, hk'.trans hk, ht⟩
      · exact .inr ⟨old, ho, hk, ht⟩

theorem mem_prune {n : ℕ} (h : e ∈ prune n cache) : e ∈ cache := mem_of_mem_take h

end Novarand.Lru
