import Mathlib.Data.List.Chain

/-!
# Walks through a map

A walk starts at a key, reads the entry there and goes on to the successor of the key, up to a
number of entries and up to the first key that has no entry or no successor. What it lists depends
on the map, the successor function and the limit only, so a loop that moves through a map, an
answer computed from a table and the specification of that answer are compared as walks.

The neighbours of a walk are one successor step apart (`isChain_walk`), its entries are entries of
the map (`lookup_of_mem_walk`), and its first entry is the one at the start (`head?_walk`). Counted
from the start, the entry at a position is at the key reached after that many steps
(`reach_of_getElem?_walk`), and a walk shorter than its limit ended because nothing was left to read
(`stop_of_length_walk_lt`): a walk is the longest one there is. It can be taken in parts
(`walk_add_of_getLast?`) and walked back (`walk_reverse`).
-/

set_option autoImplicit false
set_option relaxedAutoImplicit false

namespace SentryNode.Library

variable {Key Value : Type*}

/-- The entries found on a walk of at most `limit` entries. -/
def walk (next : Key → Option Key) (lookup : Key → Option Value) :
    ℕ → Option Key → List (Key × Value)
  | 0, _ => []
  | _ + 1, none => []
  | limit + 1, some key =>
    match lookup key with
    | none => []
    | some value => (key, value) :: walk next lookup limit (next key)

section Walk

variable {next : Key → Option Key} {lookup : Key → Option Value} {key : Key} {value : Value}

@[simp] theorem walk_zero (start : Option Key) : walk next lookup 0 start = [] := rfl

@[simp] theorem walk_none (limit : ℕ) : walk next lookup limit none = [] := by
  cases limit <;> rfl

theorem walk_of_none (limit : ℕ) (hlookup : lookup key = none) :
    walk next lookup limit (some key) = [] := by
  cases limit with
  | zero => rfl
  | succ limit => rw [walk, hlookup]

theorem walk_of_some (limit : ℕ) (hlookup : lookup key = some value) :
    walk next lookup (limit + 1) (some key) =
      (key, value) :: walk next lookup limit (next key) := by
  rw [walk, hlookup]

/-- A walk of one entry or more begins with the entry at its start. -/
theorem head?_walk {limit : ℕ} (hlimit : 0 < limit) (start : Option Key) :
    (walk next lookup limit start).head? =
      start.bind fun key ↦ (lookup key).map fun value ↦ (key, value) := by
  obtain ⟨limit, rfl⟩ := Nat.exists_eq_succ_of_ne_zero (Nat.ne_of_gt hlimit)
  cases start with
  | none => rfl
  | some key =>
    cases hlookup : lookup key with
    | none =>
      rw [walk_of_none _ hlookup, Option.bind_some, hlookup]
      rfl
    | some value =>
      rw [walk_of_some _ hlookup, Option.bind_some, hlookup]
      rfl

theorem head?_walk_eq_some {limit : ℕ} {start : Option Key} {entry : Key × Value}
    (hhead : (walk next lookup limit start).head? = some entry) : start = some entry.1 := by
  cases limit with
  | zero => cases hhead
  | succ limit =>
    rw [head?_walk (Nat.succ_pos limit)] at hhead
    obtain ⟨key, hstart, hmap⟩ := Option.bind_eq_some_iff.mp hhead
    obtain ⟨value, -, rfl⟩ := Option.map_eq_some_iff.mp hmap
    exact hstart

/-- Every entry of a walk is an entry of the map. -/
theorem lookup_of_mem_walk {limit : ℕ} {start : Option Key} {entry : Key × Value}
    (hentry : entry ∈ walk next lookup limit start) : lookup entry.1 = some entry.2 := by
  induction limit generalizing start with
  | zero => cases hentry
  | succ limit ih =>
    cases start with
    | none => cases hentry
    | some key =>
      cases hlookup : lookup key with
      | none =>
        rw [walk_of_none _ hlookup] at hentry
        cases hentry
      | some value =>
        rw [walk_of_some _ hlookup] at hentry
        rcases List.mem_cons.mp hentry with rfl | hrest
        · exact hlookup
        · exact ih hrest

/-- Neighbours of a walk are one successor step apart. -/
theorem isChain_walk (limit : ℕ) (start : Option Key) :
    (walk next lookup limit start).IsChain fun first second ↦ next first.1 = some second.1 := by
  induction limit generalizing start with
  | zero => exact List.isChain_nil
  | succ limit ih =>
    cases start with
    | none => exact List.isChain_nil
    | some key =>
      cases hlookup : lookup key with
      | none =>
        rw [walk_of_none _ hlookup]
        exact List.isChain_nil
      | some value =>
        rw [walk_of_some _ hlookup, List.isChain_cons]
        exact ⟨fun entry hentry ↦ head?_walk_eq_some hentry, ih (next key)⟩

theorem length_walk_le (limit : ℕ) (start : Option Key) :
    (walk next lookup limit start).length ≤ limit := by
  induction limit generalizing start with
  | zero => exact Nat.le_refl 0
  | succ limit ih =>
    cases start with
    | none => exact Nat.zero_le _
    | some key =>
      cases hlookup : lookup key with
      | none =>
        rw [walk_of_none _ hlookup]
        exact Nat.zero_le _
      | some value =>
        rw [walk_of_some _ hlookup, List.length_cons]
        exact Nat.succ_le_succ (ih (next key))

/-! ### Walking on and walking back -/

/-- Behind a part in which nothing is found, nothing more is found. -/
theorem walk_add_of_eq_nil {limit : ℕ} {start : Option Key} (hlimit : 0 < limit)
    (hnothing : walk next lookup limit start = []) (more : ℕ) :
    walk next lookup (limit + more) start = [] := by
  rw [← List.head?_eq_none_iff, head?_walk (Nat.add_pos_left hlimit more),
    ← head?_walk hlimit, hnothing, List.head?_nil]

/-- A walk in two parts: the second one starts behind the last entry of the first. -/
theorem walk_add_of_getLast? {limit : ℕ} {start : Option Key} {last : Key × Value}
    (hlast : (walk next lookup limit start).getLast? = some last) (more : ℕ) :
    walk next lookup (limit + more) start =
      walk next lookup limit start ++ walk next lookup more (next last.1) := by
  induction limit generalizing start with
  | zero => cases hlast
  | succ limit ih =>
    cases start with
    | none => cases hlast
    | some key =>
      cases hlookup : lookup key with
      | none =>
        rw [walk_of_none _ hlookup] at hlast
        cases hlast
      | some value =>
        rw [Nat.add_right_comm, walk_of_some _ hlookup, walk_of_some _ hlookup, List.cons_append]
        rw [walk_of_some _ hlookup] at hlast
        congr 1
        cases hrest : walk next lookup limit (next key) with
        | cons entry entries =>
          rw [hrest, List.getLast?_cons_cons, ← hrest] at hlast
          rw [← hrest]
          exact ih hlast
        | nil =>
          rw [hrest, List.getLast?_singleton] at hlast
          rw [← Option.some.inj hlast, List.nil_append]
          cases limit with
          | zero => rw [Nat.zero_add]
          | succ limit =>
            rw [walk_add_of_eq_nil (Nat.succ_pos limit) hrest more]
            cases more with
            | zero => rfl
            | succ more =>
              rw [eq_comm, ← List.head?_eq_none_iff, head?_walk (Nat.succ_pos more),
                ← head?_walk (Nat.succ_pos limit), hrest, List.head?_nil]

/-- Entries of a map, each one successor step from the one before, are the walk of their number. -/
theorem walk_eq_of_isChain {entries : List (Key × Value)} {start : Option Key}
    (hstart : ∀ entry, entries.head? = some entry → start = some entry.1)
    (hchain : entries.IsChain fun first second ↦ next first.1 = some second.1)
    (hlookup : ∀ entry ∈ entries, lookup entry.1 = some entry.2) :
    walk next lookup entries.length start = entries := by
  induction entries generalizing start with
  | nil => rfl
  | cons entry entries ih =>
    obtain ⟨hentry, hentries⟩ := List.forall_mem_cons.mp hlookup
    rw [List.isChain_cons] at hchain
    rw [List.length_cons, hstart entry rfl, walk_of_some _ hentry,
      ih (fun other hother ↦ hchain.1 other hother) hchain.2 hentries]

/-- Such entries are the beginning of a walk that may go on. -/
theorem prefix_walk_of_isChain {entries : List (Key × Value)} {limit : ℕ} {start : Option Key}
    (hstart : ∀ entry, entries.head? = some entry → start = some entry.1)
    (hchain : entries.IsChain fun first second ↦ next first.1 = some second.1)
    (hlookup : ∀ entry ∈ entries, lookup entry.1 = some entry.2) (hlimit : entries.length ≤ limit) :
    entries <+: walk next lookup limit start := by
  have hwhole := walk_eq_of_isChain hstart hchain hlookup
  obtain ⟨more, rfl⟩ := Nat.exists_eq_add_of_le hlimit
  cases hlast : entries.getLast? with
  | none =>
    rw [List.getLast?_eq_none_iff.mp hlast]
    exact List.nil_prefix
  | some last =>
    rw [walk_add_of_getLast? (hwhole.symm ▸ hlast) more, hwhole]
    exact List.prefix_append _ _

/-- A walk is walked back from its last entry. Assumes: `prev` undoes `next`. -/
theorem walk_reverse {prev : Key → Option Key}
    (hundoes : ∀ first second, next first = some second → prev second = some first) {limit : ℕ}
    {start : Option Key} {last : Key × Value}
    (hlast : (walk next lookup limit start).getLast? = some last) :
    walk prev lookup (walk next lookup limit start).length (some last.1) =
      (walk next lookup limit start).reverse := by
  rw [← List.length_reverse]
  refine walk_eq_of_isChain (fun entry hentry ↦ ?_) ?_ fun entry hentry ↦
    lookup_of_mem_walk (List.mem_reverse.mp hentry)
  · rw [List.head?_reverse, hlast] at hentry
    rw [Option.some.inj hentry]
  · rw [List.isChain_reverse]
    exact (isChain_walk limit start).imp fun first second hnext ↦ hundoes _ _ hnext

/-! ### Positions -/

/-- The key reached after a number of successor steps. -/
def reach (next : Key → Option Key) : Option Key → ℕ → Option Key
  | start, 0 => start
  | start, count + 1 => reach next (start.bind next) count

@[simp] theorem reach_zero (start : Option Key) : reach next start 0 = start := rfl

@[simp] theorem reach_succ (start : Option Key) (count : ℕ) :
    reach next start (count + 1) = reach next (start.bind next) count := rfl

@[simp] theorem reach_none (count : ℕ) : reach next none count = none := by
  induction count with
  | zero => rfl
  | succ count ih => exact ih

/-- One more step at the end. -/
theorem reach_add_one (start : Option Key) (count : ℕ) :
    reach next start (count + 1) = (reach next start count).bind next := by
  induction count generalizing start with
  | zero => rfl
  | succ count ih => exact ih (start.bind next)

/-- An entry of a walk is at the key reached after as many steps as its position. -/
theorem reach_of_getElem?_walk {limit position : ℕ} {start : Option Key} {entry : Key × Value}
    (hentry : (walk next lookup limit start)[position]? = some entry) :
    reach next start position = some entry.1 := by
  induction limit generalizing start position with
  | zero => cases hentry
  | succ limit ih =>
    cases start with
    | none => cases hentry
    | some key =>
      cases hlookup : lookup key with
      | none =>
        rw [walk_of_none _ hlookup] at hentry
        cases hentry
      | some value =>
        rw [walk_of_some _ hlookup] at hentry
        cases position with
        | zero =>
          obtain rfl := Option.some.inj hentry
          rfl
        | succ position =>
          rw [reach_succ, Option.bind_some]
          exact ih hentry

/-- Entries that are there, at the keys reached one after the other, are on the walk. -/
theorem prefix_walk {entries : List (Key × Value)} {limit : ℕ} {start : Option Key}
    (hreach : ∀ position entry, entries[position]? = some entry →
      reach next start position = some entry.1)
    (hlookup : ∀ entry ∈ entries, lookup entry.1 = some entry.2) (hlimit : entries.length ≤ limit) :
    entries <+: walk next lookup limit start := by
  induction entries generalizing limit start with
  | nil => exact List.nil_prefix
  | cons entry entries ih =>
    obtain ⟨hentry, hentries⟩ := List.forall_mem_cons.mp hlookup
    obtain ⟨limit, rfl⟩ := Nat.exists_eq_succ_of_ne_zero
      (Nat.ne_of_gt (Nat.lt_of_lt_of_le (Nat.succ_pos entries.length) hlimit))
    have hstart : start = some entry.1 := hreach 0 entry rfl
    rw [hstart, Nat.succ_eq_add_one, walk_of_some _ hentry, List.prefix_cons_inj]
    refine ih (fun position other hother ↦ ?_) hentries (Nat.le_of_succ_le_succ hlimit)
    have hnext := hreach (position + 1) other hother
    rwa [hstart] at hnext

/-- A walk that is shorter than its limit ended where no key, or no entry, was reached. -/
theorem stop_of_length_walk_lt {limit : ℕ} {start : Option Key}
    (hlength : (walk next lookup limit start).length < limit) :
    (reach next start (walk next lookup limit start).length).bind lookup = none := by
  induction limit generalizing start with
  | zero => cases hlength
  | succ limit ih =>
    cases start with
    | none => rw [reach_none, Option.bind_none]
    | some key =>
      cases hlookup : lookup key with
      | none => rw [walk_of_none _ hlookup, List.length_nil, reach_zero, Option.bind_some, hlookup]
      | some value =>
        rw [walk_of_some _ hlookup, List.length_cons] at hlength ⊢
        exact ih (Nat.lt_of_succ_lt_succ hlength)

end Walk

end SentryNode.Library
