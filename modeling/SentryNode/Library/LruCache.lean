import Mathlib.Logic.Function.Basic
import Mathlib.Order.Basic
import SentryNode.Library.Recency

/-!
# Least-recently-used maps

A map of bounded size whose entries are kept in recency order (`LruCache`). Distinct keys, the size
bound and a positive capacity are fields, so no other map can be built. `get` returns the value of a
key and makes its entry the most recent one, `peek` reads without moving anything, and `push`
inserts or overwrites an entry as the most recent one and drops the least recent entry when the map
would exceed its capacity.

Two views of such a map carry the proofs about programs that use it. Its keys are the window of the
history of accesses (`keys_push`, `keys_promote_of_mem`), which says when an entry is still there.
Its values are a part of a last-writer store (`Reflects`): every entry agrees with the store,
whatever has been evicted, and `push` follows an update of the store. A list of distinct entries
that fit is found whole after it has been pushed (`peek_pushAll_of_fits`).
-/

set_option autoImplicit false
set_option relaxedAutoImplicit false

namespace SentryNode.Library

open Recency

/-- A map of at most `capacity` entries, most recently used first. -/
structure LruCache (K V : Type*) where
  capacity : ℕ
  capacity_pos : 0 < capacity
  entries : List (K × V)
  nodup_keys : (entries.map Prod.fst).Nodup
  length_le : entries.length ≤ capacity

namespace LruCache

variable {K V : Type*}

/-- The keys of a map, most recently used first. -/
def keys (cache : LruCache K V) : List K := cache.entries.map Prod.fst

theorem nodup_keys' (cache : LruCache K V) : cache.keys.Nodup := cache.nodup_keys

theorem length_keys_le (cache : LruCache K V) : cache.keys.length ≤ cache.capacity := by
  rw [keys, List.length_map]
  exact cache.length_le

theorem getLast?_keys (cache : LruCache K V) :
    cache.keys.getLast? = cache.entries.getLast?.map Prod.fst := by
  rw [keys, List.getLast?_map]

/-- A full map has a least recently used entry. -/
theorem exists_getLast?_of_full {cache : LruCache K V}
    (hfull : cache.keys.length = cache.capacity) :
    ∃ entry, cache.entries.getLast? = some entry := by
  cases hlast : cache.entries.getLast? with
  | none =>
    rw [keys, List.getLast?_eq_none_iff.mp hlast] at hfull
    exact absurd hfull (Nat.ne_of_lt cache.capacity_pos)
  | some entry => exact ⟨entry, rfl⟩

/-- The empty map of a capacity. -/
def new (capacity : ℕ) (hcapacity : 0 < capacity) : LruCache K V where
  capacity := capacity
  capacity_pos := hcapacity
  entries := []
  nodup_keys := List.nodup_nil
  length_le := Nat.zero_le capacity

variable [DecidableEq K]

/-- The value of a key, without touching the recency order. -/
def peek (cache : LruCache K V) (key : K) : Option V := cache.entries.lookup key

/-- Whether a key has an entry, without touching the recency order. -/
def contains (cache : LruCache K V) (key : K) : Bool := (cache.peek key).isSome

/-- The map with the entry of a key, if any, moved to the front. -/
def promote (cache : LruCache K V) (key : K) : LruCache K V where
  capacity := cache.capacity
  capacity_pos := cache.capacity_pos
  entries := cache.entries.filter (·.1 = key) ++ cache.entries.filter (·.1 ≠ key)
  nodup_keys := by
    have hperm := List.filter_append_perm (fun entry : K × V ↦ decide (entry.1 = key)) cache.entries
    simp only [ne_eq, decide_not]
    exact (hperm.map Prod.fst).nodup_iff.mpr cache.nodup_keys
  length_le := by
    have hperm := List.filter_append_perm (fun entry : K × V ↦ decide (entry.1 = key)) cache.entries
    simp only [ne_eq, decide_not]
    exact hperm.length_eq.trans_le cache.length_le

/-- The value of a key, and the map with its entry made the most recent one. -/
def get (cache : LruCache K V) (key : K) : Option V × LruCache K V :=
  (cache.peek key, cache.promote key)

/-- The map with the entry of a key inserted or overwritten as the most recent one; the least recent
entry goes when the capacity would be exceeded. -/
def push (cache : LruCache K V) (key : K) (value : V) : LruCache K V where
  capacity := cache.capacity
  capacity_pos := cache.capacity_pos
  entries := ((key, value) :: cache.entries.filter (·.1 ≠ key)).take cache.capacity
  nodup_keys := by
    rw [List.map_take]
    refine List.Nodup.sublist (List.take_sublist _ _) ?_
    refine List.nodup_cons.mpr ⟨?_, ?_⟩
    · simp
    · exact cache.nodup_keys.sublist (List.filter_sublist.map Prod.fst)
  length_le := List.length_take_le _ _

@[simp] theorem capacity_promote (cache : LruCache K V) (key : K) :
    (cache.promote key).capacity = cache.capacity := rfl

theorem entries_push (cache : LruCache K V) (key : K) (value : V) :
    (cache.push key value).entries =
      ((key, value) :: cache.entries.filter (·.1 ≠ key)).take cache.capacity := rfl

/-! ### Values -/

/-- Reading a key and finding its entry are the same, because keys are distinct. -/
theorem peek_eq_some_iff {cache : LruCache K V} {key : K} {value : V} :
    cache.peek key = some value ↔ (key, value) ∈ cache.entries := by
  rw [peek, List.lookup_eq_some_iff]
  constructor
  · rintro ⟨front, back, hentries, -⟩
    rw [hentries]
    exact List.mem_append_right _ List.mem_cons_self
  · intro hmem
    obtain ⟨front, back, hentries⟩ := List.append_of_mem hmem
    refine ⟨front, back, hentries, fun entry hentry ↦ ?_⟩
    have hnodup := cache.nodup_keys
    rw [hentries, List.map_append, List.map_cons] at hnodup
    have hdisjoint := (List.nodup_append.mp hnodup).2.2 entry.1 (List.mem_map_of_mem hentry) key
      List.mem_cons_self
    simpa [bne_iff_ne] using fun h : key = entry.1 ↦ hdisjoint h.symm

theorem mem_keys_iff {cache : LruCache K V} {key : K} :
    key ∈ cache.keys ↔ ∃ value, cache.peek key = some value := by
  simp only [peek_eq_some_iff, keys, List.mem_map, Prod.exists, exists_and_right, exists_eq_right]

theorem peek_eq_none_iff {cache : LruCache K V} {key : K} :
    cache.peek key = none ↔ key ∉ cache.keys := by
  rw [mem_keys_iff, not_exists, Option.eq_none_iff_forall_ne_some]

theorem isSome_peek_iff {cache : LruCache K V} {key : K} :
    (cache.peek key).isSome ↔ key ∈ cache.keys := by
  rw [mem_keys_iff, Option.isSome_iff_exists]

@[simp] theorem contains_iff {cache : LruCache K V} {key : K} :
    cache.contains key = true ↔ key ∈ cache.keys := isSome_peek_iff

theorem mem_entries_promote {cache : LruCache K V} {key : K} {entry : K × V} :
    entry ∈ (cache.promote key).entries ↔ entry ∈ cache.entries := by
  simp only [promote, ne_eq, decide_not]
  exact (List.filter_append_perm (fun entry : K × V ↦ decide (entry.1 = key))
    cache.entries).mem_iff

/-- A lookup changes no value: promotion only reorders the entries. -/
@[simp] theorem peek_promote (cache : LruCache K V) (key other : K) :
    (cache.promote key).peek other = cache.peek other := by
  refine Option.ext fun value ↦ ?_
  rw [peek_eq_some_iff, peek_eq_some_iff, mem_entries_promote]

/-- A pushed entry is there: the capacity is positive. -/
@[simp] theorem peek_push_self (cache : LruCache K V) (key : K) (value : V) :
    (cache.push key value).peek key = some value := by
  rw [peek_eq_some_iff, entries_push]
  obtain ⟨count, hcount⟩ := Nat.exists_eq_succ_of_ne_zero (Nat.ne_of_gt cache.capacity_pos)
  rw [hcount, Nat.succ_eq_add_one, List.take_succ_cons]
  exact List.mem_cons_self

/-- An entry after a push is the pushed one or an entry from before under another key. -/
theorem mem_entries_of_mem_push {cache : LruCache K V} {key : K} {value : V} {entry : K × V}
    (hentry : entry ∈ (cache.push key value).entries) :
    entry = (key, value) ∨ entry.1 ≠ key ∧ entry ∈ cache.entries := by
  rcases List.mem_cons.mp (List.mem_of_mem_take hentry) with h | h
  · exact Or.inl h
  · obtain ⟨hmem, hkey⟩ := List.mem_filter.mp h
    exact Or.inr ⟨by simpa using hkey, hmem⟩

/-- A push can only drop the values of other keys. -/
theorem peek_of_peek_push {cache : LruCache K V} {key other : K} {value found : V}
    (hne : other ≠ key) (hpeek : (cache.push key value).peek other = some found) :
    cache.peek other = some found := by
  rw [peek_eq_some_iff] at hpeek ⊢
  rcases mem_entries_of_mem_push hpeek with h | h
  · exact absurd (congrArg Prod.fst h) hne
  · exact h.2

/-! ### Keys -/

/-- Entries outside a key, as a list of keys. -/
private theorem map_fst_filter_ne (cache : LruCache K V) (key : K) :
    (cache.entries.filter (·.1 ≠ key)).map Prod.fst = cache.keys.erase key := by
  rw [cache.nodup_keys'.erase_eq_filter, keys, List.filter_map]
  congr 1
  exact List.filter_congr fun entry _ ↦ by by_cases hentry : entry.1 = key <;> simp [hentry]

/-- A push touches the keys. -/
theorem keys_push (cache : LruCache K V) (key : K) (value : V) :
    (cache.push key value).keys = touch cache.capacity key cache.keys := by
  rw [keys, push, List.map_take, List.map_cons, map_fst_filter_ne, touch]

/-- A lookup of an absent key moves nothing. -/
theorem promote_of_not_mem {cache : LruCache K V} {key : K} (hkey : key ∉ cache.keys) :
    cache.promote key = cache := by
  have hne : ∀ entry ∈ cache.entries, entry.1 ≠ key := fun entry hentry h ↦
    hkey (h ▸ List.mem_map_of_mem hentry)
  have hhit : cache.entries.filter (fun entry ↦ decide (entry.1 = key)) = [] :=
    List.filter_eq_nil_iff.mpr fun entry hentry ↦ by simpa using hne entry hentry
  have hrest : cache.entries.filter (fun entry ↦ decide (entry.1 ≠ key)) = cache.entries :=
    List.filter_eq_self.mpr fun entry hentry ↦ by simpa using hne entry hentry
  obtain ⟨capacity, hcapacity, entries, hnodup, hlength⟩ := cache
  simp only [promote, mk.injEq, true_and]
  rw [hhit, hrest, List.nil_append]

/-- A lookup that finds its key touches the keys. -/
theorem keys_promote_of_mem {cache : LruCache K V} {key : K} (hkey : key ∈ cache.keys) :
    (cache.promote key).keys = touch cache.capacity key cache.keys := by
  have hhit : (cache.entries.filter (·.1 = key)).map Prod.fst = [key] := by
    have hcount := List.count_eq_one_of_mem cache.nodup_keys' hkey
    have hreplicate : cache.keys.filter (· = key) = List.replicate (cache.keys.count key) key := by
      rw [← List.filter_beq]
      exact List.filter_congr fun other _ ↦ by by_cases hother : other = key <;> simp [hother]
    rw [hcount, List.replicate_one, keys, List.filter_map] at hreplicate
    exact hreplicate
  have hlength : (key :: cache.keys.erase key).length ≤ cache.capacity := by
    rw [List.length_cons, List.length_erase_of_mem hkey,
      Nat.sub_add_cancel (List.length_pos_of_mem hkey)]
    exact cache.length_keys_le
  rw [touch, List.take_of_length_le hlength, keys, promote, List.map_append, hhit,
    map_fst_filter_ne, List.singleton_append]

/-- The keys of a map are the window of any history they are the recency order of; in particular of
themselves. -/
theorem window_keys (cache : LruCache K V) : window cache.capacity cache.keys = cache.keys :=
  window_of_fits cache.nodup_keys' cache.length_keys_le

@[simp] theorem mem_keys_promote {cache : LruCache K V} {key other : K} :
    other ∈ (cache.promote key).keys ↔ other ∈ cache.keys := by
  rw [mem_keys_iff, mem_keys_iff]
  simp only [peek_promote]

theorem length_keys_promote (cache : LruCache K V) (key : K) :
    (cache.promote key).keys.length = cache.keys.length := by
  have hperm := List.filter_append_perm (fun entry : K × V ↦ decide (entry.1 = key)) cache.entries
  simp only [keys, promote, ne_eq, decide_not, List.length_map]
  exact hperm.length_eq

theorem mem_keys_push_self (cache : LruCache K V) (key : K) (value : V) :
    key ∈ (cache.push key value).keys :=
  mem_keys_iff.mpr ⟨value, peek_push_self cache key value⟩

omit [DecidableEq K] in
/-- Distinct keys of a map are no more than its capacity. -/
theorem length_le_capacity {cache : LruCache K V} {keys : List K} (hnodup : keys.Nodup)
    (hkeys : keys ⊆ cache.keys) : keys.length ≤ cache.capacity :=
  Nat.le_trans (hnodup.subperm hkeys).length_le cache.length_keys_le

/-- A push adds no other key. -/
theorem mem_keys_of_mem_push {cache : LruCache K V} {key other : K} {value : V} (hne : other ≠ key)
    (hother : other ∈ (cache.push key value).keys) : other ∈ cache.keys := by
  obtain ⟨found, hpeek⟩ := mem_keys_iff.mp hother
  exact mem_keys_iff.mpr ⟨found, peek_of_peek_push hne hpeek⟩

/-- A push under a fresh key puts its entry in front. -/
theorem entries_push_of_fresh {cache : LruCache K V} {key : K} (hfresh : key ∉ cache.keys)
    (value : V) :
    (cache.push key value).entries = ((key, value) :: cache.entries).take cache.capacity := by
  rw [entries_push, List.filter_eq_self.mpr fun entry hentry ↦ ?_]
  have hne : entry.1 ≠ key := fun h ↦ hfresh (h ▸ List.mem_map_of_mem hentry)
  simpa using hne

theorem keys_push_of_fresh {cache : LruCache K V} {key : K} (hfresh : key ∉ cache.keys)
    (value : V) : (cache.push key value).keys = (key :: cache.keys).take cache.capacity := by
  rw [keys, entries_push_of_fresh hfresh, List.map_take, List.map_cons, keys]

theorem length_keys_push_of_fresh {cache : LruCache K V} {key : K} (hfresh : key ∉ cache.keys)
    (value : V) :
    (cache.push key value).keys.length = min cache.capacity (cache.keys.length + 1) := by
  rw [keys_push_of_fresh hfresh, List.length_take, List.length_cons]

omit [DecidableEq K] in
/-- Cutting the last place of a duplicate-free list lets go of its last element only. -/
theorem mem_take_iff_of_nodup {keys : List K} {key : K} {count : ℕ} (hnodup : keys.Nodup)
    (hlength : keys.length = count + 1) :
    key ∈ keys.take count ↔ key ∈ keys ∧ keys.getLast? ≠ some key := by
  rcases List.eq_nil_or_concat keys with rfl | ⟨front, last, rfl⟩
  · cases hlength
  · rw [List.length_concat, Nat.add_right_cancel_iff] at hlength
    rw [List.concat_eq_append, List.nodup_append] at hnodup
    rw [List.concat_eq_append, List.take_left' hlength, List.getLast?_concat, List.mem_append,
      List.mem_singleton, ne_eq, Option.some_inj]
    constructor
    · exact fun hkey ↦ ⟨Or.inl hkey, (hnodup.2.2 key hkey last List.mem_cons_self).symm⟩
    · rintro ⟨hkey | rfl, hne⟩
      · exact hkey
      · exact absurd rfl hne

/-- A push under a fresh key lets go of the least recent key of a full map, and of no other. -/
theorem mem_keys_push_of_fresh {cache : LruCache K V} {key : K} (hfresh : key ∉ cache.keys)
    (value : V) (other : K) :
    other ∈ (cache.push key value).keys ↔
      other = key ∨ other ∈ cache.keys ∧
        (cache.keys.length = cache.capacity → cache.keys.getLast? ≠ some other) := by
  obtain ⟨count, hcount⟩ := Nat.exists_eq_succ_of_ne_zero (Nat.ne_of_gt cache.capacity_pos)
  have hlength := cache.length_keys_le
  rw [hcount] at hlength
  rw [keys_push_of_fresh hfresh, hcount, Nat.succ_eq_add_one, List.take_succ_cons, List.mem_cons]
  refine or_congr_right ?_
  rcases Nat.lt_or_ge cache.keys.length (count + 1) with hroom | hfull
  · rw [List.take_of_length_le (Nat.le_of_lt_succ hroom)]
    exact ⟨fun h ↦ ⟨h, fun hlast ↦ absurd hlast (Nat.ne_of_lt hroom)⟩, fun h ↦ h.1⟩
  · have heq := Nat.le_antisymm hlength hfull
    rw [mem_take_iff_of_nodup cache.nodup_keys' heq]
    exact and_congr_right fun _ ↦ ⟨fun h _ ↦ h, fun h ↦ h heq⟩

/-! ### A pass of lookups -/

/-- The map after a lookup of every key of a list, in the order of the list. -/
def promoteAll (cache : LruCache K V) (trace : List K) : LruCache K V := trace.foldl promote cache

@[simp] theorem promoteAll_nil (cache : LruCache K V) : cache.promoteAll [] = cache := rfl

@[simp] theorem promoteAll_cons (cache : LruCache K V) (key : K) (trace : List K) :
    cache.promoteAll (key :: trace) = (cache.promote key).promoteAll trace := rfl

@[simp] theorem capacity_promoteAll (cache : LruCache K V) (trace : List K) :
    (cache.promoteAll trace).capacity = cache.capacity := by
  induction trace generalizing cache with
  | nil => rfl
  | cons key trace ih => rw [promoteAll_cons, ih, capacity_promote]

@[simp] theorem peek_promoteAll (cache : LruCache K V) (trace : List K) (key : K) :
    (cache.promoteAll trace).peek key = cache.peek key := by
  induction trace generalizing cache with
  | nil => rfl
  | cons first trace ih => rw [promoteAll_cons, ih, peek_promote]

@[simp] theorem mem_keys_promoteAll {cache : LruCache K V} {trace : List K} {key : K} :
    key ∈ (cache.promoteAll trace).keys ↔ key ∈ cache.keys := by
  rw [mem_keys_iff, mem_keys_iff]
  simp only [peek_promoteAll]

theorem length_keys_promoteAll (cache : LruCache K V) (trace : List K) :
    (cache.promoteAll trace).keys.length = cache.keys.length := by
  induction trace generalizing cache with
  | nil => rfl
  | cons key trace ih => rw [promoteAll_cons, ih, length_keys_promote]

/-- A pass of lookups accesses the keys it finds, in the order of the pass. -/
theorem keys_promoteAll {cache : LruCache K V} {history : List K}
    (hkeys : cache.keys = window cache.capacity history) (trace : List K) :
    (cache.promoteAll trace).keys =
      window cache.capacity ((trace.filter (· ∈ cache.keys)).reverse ++ history) := by
  induction trace generalizing cache history with
  | nil => exact hkeys
  | cons key trace ih =>
    have hmem : trace.filter (· ∈ (cache.promote key).keys) = trace.filter (· ∈ cache.keys) :=
      List.filter_congr fun other _ ↦ decide_eq_decide.mpr mem_keys_promote
    by_cases hkey : key ∈ cache.keys
    · have hnext : (cache.promote key).keys =
          window (cache.promote key).capacity (key :: history) := by
        rw [keys_promote_of_mem hkey, hkeys, touch_window, capacity_promote]
      rw [promoteAll_cons, ih hnext, hmem, capacity_promote,
        List.filter_cons_of_pos (by simpa using hkey), List.reverse_cons, List.append_assoc,
        List.singleton_append]
    · rw [promoteAll_cons, promote_of_not_mem hkey, ih hkeys,
        List.filter_cons_of_neg (by simpa using hkey)]

/-! ### Contents -/

/-- Two maps with the same entries, whatever the recency order. -/
structure SameEntries (first second : LruCache K V) : Prop where
  capacity_eq : first.capacity = second.capacity
  entries_perm : first.entries.Perm second.entries

omit [DecidableEq K] in
theorem SameEntries.refl (cache : LruCache K V) : SameEntries cache cache := ⟨rfl, .refl _⟩

omit [DecidableEq K] in
theorem SameEntries.trans {first second third : LruCache K V} (hfirst : SameEntries first second)
    (hsecond : SameEntries second third) : SameEntries first third :=
  ⟨hfirst.capacity_eq.trans hsecond.capacity_eq, hfirst.entries_perm.trans hsecond.entries_perm⟩

theorem sameEntries_promote (cache : LruCache K V) (key : K) :
    SameEntries cache (cache.promote key) where
  capacity_eq := rfl
  entries_perm := by
    simp only [promote, ne_eq, decide_not]
    exact (List.filter_append_perm (fun entry : K × V ↦ decide (entry.1 = key)) cache.entries).symm

/-- A pass of lookups changes the recency order only. -/
theorem sameEntries_promoteAll (cache : LruCache K V) (trace : List K) :
    SameEntries cache (cache.promoteAll trace) := by
  induction trace generalizing cache with
  | nil => exact .refl cache
  | cons key trace ih => exact (sameEntries_promote cache key).trans (ih (cache.promote key))

theorem SameEntries.peek_eq {first second : LruCache K V} (hsame : SameEntries first second) :
    first.peek = second.peek := by
  funext key
  refine Option.ext fun value ↦ ?_
  rw [peek_eq_some_iff, peek_eq_some_iff, hsame.entries_perm.mem_iff]

/-! ### A list of insertions -/

/-- The map after every entry of a list has been pushed, in the order of the list. -/
def pushAll (cache : LruCache K V) (pairs : List (K × V)) : LruCache K V :=
  pairs.foldl (fun cache pair ↦ cache.push pair.1 pair.2) cache

/-- Entries that are not pushed were there before. -/
theorem mem_keys_of_mem_pushAll {cache : LruCache K V} {pairs : List (K × V)} {key : K}
    (hkey : key ∈ (cache.pushAll pairs).keys) : key ∈ cache.keys ∨ key ∈ pairs.map Prod.fst := by
  induction pairs generalizing cache with
  | nil => exact Or.inl hkey
  | cons pair pairs ih =>
    rw [List.map_cons, List.mem_cons]
    rcases @ih (cache.push pair.1 pair.2) hkey with hpushed | hlater
    · by_cases hpair : key = pair.1
      · exact Or.inr (Or.inl hpair)
      · exact Or.inl (mem_keys_of_mem_push hpair hpushed)
    · exact Or.inr (Or.inr hlater)

/-- The keys after a list of insertions are the window of the history extended by them. -/
theorem keys_pushAll {cache : LruCache K V} {history : List K}
    (hkeys : cache.keys = window cache.capacity history) (pairs : List (K × V)) :
    (cache.pushAll pairs).keys =
      window cache.capacity ((pairs.map Prod.fst).reverse ++ history) := by
  induction pairs generalizing cache history with
  | nil => exact hkeys
  | cons pair pairs ih =>
    have hnext : (cache.push pair.1 pair.2).keys =
        window (cache.push pair.1 pair.2).capacity (pair.1 :: history) := by
      rw [keys_push, hkeys, touch_window]
      rfl
    rw [List.map_cons, List.reverse_cons, List.append_assoc, List.singleton_append]
    exact ih hnext

/-- Insertions under other keys can only drop the value of a key. -/
theorem peek_of_peek_pushAll {cache : LruCache K V} {pairs : List (K × V)} {key : K} {found : V}
    (hkey : key ∉ pairs.map Prod.fst) (hpeek : (cache.pushAll pairs).peek key = some found) :
    cache.peek key = some found := by
  induction pairs generalizing cache with
  | nil => exact hpeek
  | cons pair pairs ih =>
    rw [List.map_cons, List.mem_cons, not_or] at hkey
    exact peek_of_peek_push hkey.1 (ih hkey.2 hpeek)

/-- Entries pushed under distinct keys, no more than the capacity, are all found, whatever the map
held before. -/
theorem peek_pushAll_of_fits {cache : LruCache K V} {pairs : List (K × V)} {pair : K × V}
    (hnodup : (pairs.map Prod.fst).Nodup) (hfits : pairs.length ≤ cache.capacity)
    (hpair : pair ∈ pairs) : (cache.pushAll pairs).peek pair.1 = some pair.2 := by
  have hkey : pair.1 ∈ (cache.pushAll pairs).keys := by
    rw [keys_pushAll cache.window_keys.symm]
    refine mem_window_append _ (List.mem_reverse.mpr (List.mem_map_of_mem hpair)) ?_
    refine Nat.le_trans (length_recencyOrder_le (List.Subset.refl _)) ?_
    rwa [List.length_reverse, List.length_map]
  obtain ⟨found, hfound⟩ := mem_keys_iff.mp hkey
  obtain ⟨front, back, rfl⟩ := List.append_of_mem hpair
  have hback : pair.1 ∉ back.map Prod.fst := by
    rw [List.map_append, List.map_cons, List.nodup_append] at hnodup
    exact (List.nodup_cons.mp hnodup.2.1).1
  have hsplit : cache.pushAll (front ++ pair :: back) =
      ((cache.pushAll front).push pair.1 pair.2).pushAll back := List.foldl_append
  rw [hsplit] at hfound ⊢
  have hpushed := peek_of_peek_pushAll hback hfound
  rw [peek_push_self] at hpushed
  rw [hfound, hpushed]

/-! ### The store behind a map -/

/-- Every entry of the map agrees with the store: the map is a part of it. -/
def Reflects (cache : LruCache K V) (store : K → Option V) : Prop :=
  ∀ key value, cache.peek key = some value → store key = some value

theorem reflects_new (capacity : ℕ) (hcapacity : 0 < capacity) (store : K → Option V) :
    (new capacity hcapacity).Reflects store := by
  intro key value hpeek
  cases hpeek

theorem Reflects.promote {cache : LruCache K V} {store : K → Option V}
    (hcache : cache.Reflects store) (key : K) : (cache.promote key).Reflects store := by
  intro other value hpeek
  rw [peek_promote] at hpeek
  exact hcache other value hpeek

theorem Reflects.promoteAll {cache : LruCache K V} {store : K → Option V}
    (hcache : cache.Reflects store) (trace : List K) : (cache.promoteAll trace).Reflects store := by
  intro key value hpeek
  rw [peek_promoteAll] at hpeek
  exact hcache key value hpeek

/-- A push follows the update of the store, whatever it evicts. -/
theorem Reflects.push_update {cache : LruCache K V} {store : K → Option V}
    (hcache : cache.Reflects store) (key : K) (value : V) :
    (cache.push key value).Reflects (Function.update store key (some value)) := by
  intro other found hpeek
  by_cases hother : other = key
  · subst hother
    rw [peek_push_self] at hpeek
    rw [Function.update_self, hpeek]
  · rw [Function.update_of_ne hother]
    exact hcache other found (peek_of_peek_push hother hpeek)

/-- A push of a value the store already has keeps the map a part of the store. -/
theorem Reflects.push {cache : LruCache K V} {store : K → Option V} (hcache : cache.Reflects store)
    {key : K} {value : V} (hstore : store key = some value) :
    (cache.push key value).Reflects store := by
  have hupdate := hcache.push_update key value
  rwa [← hstore, Function.update_eq_self] at hupdate

end LruCache

/-! ### The last write under a key -/

section LastWritten

variable {K V : Type*} [DecidableEq K]

/-- The value last written under a key by a list of writes, oldest first. -/
def lastWritten (writes : List (K × V)) (key : K) : Option V := writes.reverse.lookup key

/-- One more write updates the store of last writes. -/
theorem lastWritten_concat (writes : List (K × V)) (key : K) (value : V) :
    lastWritten (writes ++ [(key, value)]) =
      Function.update (lastWritten writes) key (some value) := by
  funext other
  rw [lastWritten, List.reverse_append, List.reverse_singleton, List.singleton_append,
    List.lookup_cons, Function.update_apply]
  by_cases hother : other = key
  · simp [hother]
  · have hbeq : (other == key) = false := beq_false_of_ne hother
    rw [if_neg hother, hbeq, lastWritten]

/-- What was written last was written. -/
theorem mem_of_lastWritten {writes : List (K × V)} {key : K} {value : V}
    (hlast : lastWritten writes key = some value) : (key, value) ∈ writes := by
  obtain ⟨front, back, hwrites, -⟩ := List.lookup_eq_some_iff.mp hlast
  refine List.mem_reverse.mp ?_
  rw [hwrites]
  exact List.mem_append_right _ List.mem_cons_self

end LastWritten

end SentryNode.Library
