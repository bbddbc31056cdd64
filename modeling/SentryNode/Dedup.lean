import Mathlib.Algebra.Ring.Nat
import SentryNode.Library.LruCache
import SentryNode.Library.Run
import SentryNode.Primitives

/-!
# Transaction deduplication

Peers gossip the same transaction many times. `TxDedup` keeps the hashes seen recently in a
least-recently-used cache and answers, for each hash, whether it is new. A call counts itself in
the total, decides under the cache lock and counts its answer; concurrent callers interleave
between these three accesses, so `Shared` steps through them one at a time and records the
decisions in the order of the lock.

The cache is the window of the hashes decided so far (`Tallied.keys`), so an answer is a matter of
the history alone. `checkAndInsert_exactWindow` is the specification: a call answers false exactly
when its hash occurred before and fewer than `capacity` distinct other hashes occurred since, and
the three counters are the numbers of the answers, as 64-bit counters.
-/

set_option autoImplicit false
set_option relaxedAutoImplicit false

namespace SentryNode

open Library

/-- Deduplication statistics. -/
structure DedupStats where
  total : UInt64
  duplicates : UInt64
  unique : UInt64

/-- Configuration for the dedup cache. -/
structure DedupConfig where
  cacheSize : ℕ

/-- The deduplicator: the hashes seen recently, and the statistics. -/
structure TxDedup where
  cache : LruCache B256 Unit
  stats : DedupStats

namespace DedupStats

/-- The counter of one of the two answers. -/
def answered (stats : DedupStats) (isNew : Bool) : UInt64 :=
  if isNew then stats.unique else stats.duplicates

/-- A call has begun. -/
def countCall (stats : DedupStats) : DedupStats := { stats with total := stats.total + 1 }

/-- A call has been answered. -/
def countAnswer (stats : DedupStats) (isNew : Bool) : DedupStats :=
  if isNew then { stats with unique := stats.unique + 1 }
  else { stats with duplicates := stats.duplicates + 1 }

@[simp] theorem total_countAnswer (stats : DedupStats) (isNew : Bool) :
    (stats.countAnswer isNew).total = stats.total := by
  unfold countAnswer
  split_ifs <;> rfl

theorem answered_countAnswer (stats : DedupStats) (isNew answer : Bool) :
    (stats.countAnswer isNew).answered answer =
      stats.answered answer + if isNew = answer then 1 else 0 := by
  unfold countAnswer answered
  cases isNew <;> cases answer <;> simp

end DedupStats

namespace TxDedup

/-- A deduplicator; a cache size of zero is refused with a panic. -/
def new (config : DedupConfig) : Option TxDedup :=
  if hsize : 0 < config.cacheSize then
    some { cache := .new config.cacheSize hsize, stats := ⟨0, 0, 0⟩ }
  else none

/-- What a call does while it holds the cache lock: a hash seen before is marked as recently used,
a new one is inserted. -/
def isNew (cache : LruCache B256 Unit) (hash : B256) : Bool × LruCache B256 Unit :=
  if cache.contains hash then (false, cache.promote hash) else (true, cache.push hash ())

/-- Whether the hash has not been seen before. -/
def checkAndInsert (dedup : TxDedup) (hash : B256) : Bool × TxDedup :=
  let stats := dedup.stats.countCall
  let (isNew, cache) := isNew dedup.cache hash
  (isNew, { cache, stats := stats.countAnswer isNew })

end TxDedup

/-! ### Concurrent callers -/

/-- Where a call of `checkAndInsert` stands: counted in the total, past the cache lock with its
answer, or returned with it. -/
inductive DedupCall
  | entered (hash : B256)
  | decided (isNew : Bool)
  | returned (isNew : Bool)
deriving DecidableEq

/-- The call has returned. -/
def DedupCall.hasReturned : DedupCall → Bool
  | returned _ => true
  | _ => false

/-- An access of a caller to the shared deduplicator. -/
inductive DedupAccess
  | enter (hash : B256)
  | lock (caller : ℕ)
  | count (caller : ℕ)

/-- A deduplicator shared by concurrent callers, and the decisions in the order in which the callers
took the cache lock. -/
structure SharedDedup where
  dedup : TxDedup
  calls : List DedupCall
  decisions : List (B256 × Bool)

namespace SharedDedup

/-- One access. A caller that is elsewhere in its call does not make it. -/
def step (shared : SharedDedup) : DedupAccess → SharedDedup
  | .enter hash =>
    { shared with
      dedup := { shared.dedup with stats := shared.dedup.stats.countCall }
      calls := shared.calls ++ [.entered hash] }
  | .lock caller =>
    match shared.calls[caller]? with
    | some (.entered hash) =>
      let decision := TxDedup.isNew shared.dedup.cache hash
      { dedup := { shared.dedup with cache := decision.2 }
        calls := shared.calls.set caller (.decided decision.1)
        decisions := shared.decisions ++ [(hash, decision.1)] }
    | _ => shared
  | .count caller =>
    match shared.calls[caller]? with
    | some (.decided isNew) =>
      { shared with
        dedup := { shared.dedup with stats := shared.dedup.stats.countAnswer isNew }
        calls := shared.calls.set caller (.returned isNew) }
    | _ => shared

/-- The deduplicator before its first call. -/
def start (dedup : TxDedup) : SharedDedup := { dedup, calls := [], decisions := [] }

/-- Every call has returned. -/
def AllReturned (shared : SharedDedup) : Prop :=
  ∀ call ∈ shared.calls, call.hasReturned

instance (shared : SharedDedup) : Decidable shared.AllReturned :=
  inferInstanceAs (Decidable (∀ call ∈ _, _))

end SharedDedup

/-! ### The specification -/

/-- A hash that occurred earlier, with fewer than `capacity` distinct other hashes since its last
occurrence. -/
def SeenWithin (capacity : ℕ) (earlier : List B256) (hash : B256) : Prop :=
  ∃ before since, earlier = before ++ hash :: since ∧ hash ∉ since ∧ since.dedup.length < capacity

/-- The decisions of an exact deduplication window: a duplicate is a hash seen within the window,
the first occurrence of a hash is accepted, and each hash is accepted exactly once when there are
no more distinct hashes than the window holds. -/
structure ExactWindow (capacity : ℕ) (decisions : List (B256 × Bool)) : Prop where
  duplicate_iff : ∀ position hash isNew, decisions[position]? = some (hash, isNew) →
    (isNew = false ↔ SeenWithin capacity ((decisions.take position).map Prod.fst) hash)
  first_new : ∀ position hash isNew, decisions[position]? = some (hash, isNew) →
    hash ∉ (decisions.take position).map Prod.fst → isNew = true
  accepted_once : (decisions.map Prod.fst).dedup.length ≤ capacity →
    ∀ hash ∈ decisions.map Prod.fst, decisions.count (hash, true) = 1

/-- The counters are the numbers of the answers given and of the calls, as far as 64 bits reach, and
the first two sum to the total. -/
structure CountsAnswers (decisions : List (B256 × Bool)) (stats : DedupStats) : Prop where
  unique : stats.unique.toNat = decisions.countP (·.2 = true) % 2 ^ 64
  duplicates : stats.duplicates.toNat = decisions.countP (·.2 = false) % 2 ^ 64
  sum : stats.unique + stats.duplicates = stats.total
  total : stats.total.toNat = decisions.length % 2 ^ 64

/-! ### The cache as a window -/

theorem seenWithin_iff {capacity : ℕ} {earlier : List B256} {hash : B256} :
    SeenWithin capacity earlier hash ↔ hash ∈ Recency.window capacity earlier.reverse := by
  unfold SeenWithin
  rw [Recency.mem_window_iff]
  constructor
  · rintro ⟨before, since, rfl, hsince, hroom⟩
    refine ⟨since.reverse, before.reverse, by simp, by simpa using hsince, ?_⟩
    rwa [since.reverse_perm.dedup.length_eq]
  · rintro ⟨later, before, heq, hlater, hroom⟩
    refine ⟨before.reverse, later.reverse, ?_, by simpa using hlater, ?_⟩
    · rw [List.reverse_eq_iff.mp heq]
      simp
    · rwa [later.reverse_perm.dedup.length_eq]

/-- A history with no more distinct hashes than the window holds is remembered in full. -/
theorem seenWithin_of_mem {capacity : ℕ} {earlier : List B256} {hash : B256}
    (hhash : hash ∈ earlier) (hfits : earlier.dedup.length ≤ capacity) :
    SeenWithin capacity earlier hash := by
  rw [seenWithin_iff, ← List.append_nil earlier.reverse]
  refine Recency.mem_window_append [] (List.mem_reverse.mpr hhash) ?_
  rwa [Recency.length_recencyOrder, earlier.reverse_perm.dedup.length_eq]

theorem SeenWithin.mem {capacity : ℕ} {earlier : List B256} {hash : B256}
    (hseen : SeenWithin capacity earlier hash) : hash ∈ earlier := by
  obtain ⟨before, since, rfl, -, -⟩ := hseen
  exact List.mem_append_right _ List.mem_cons_self

namespace TxDedup

theorem isNew_eq_false_iff {cache : LruCache B256 Unit} {hash : B256} :
    (isNew cache hash).1 = false ↔ hash ∈ cache.keys := by
  unfold isNew
  by_cases hhash : cache.contains hash
  · rw [if_pos hhash]
    exact iff_of_true rfl (LruCache.contains_iff.mp hhash)
  · rw [if_neg hhash]
    exact iff_of_false (Ne.symm Bool.false_ne_true) (mt LruCache.contains_iff.mpr hhash)

/-- New or not, the hash becomes the most recently used one. -/
theorem keys_isNew (cache : LruCache B256 Unit) (hash : B256) :
    (isNew cache hash).2.keys = Recency.touch cache.capacity hash cache.keys := by
  unfold isNew
  by_cases hhash : cache.contains hash
  · rw [if_pos hhash]
    exact LruCache.keys_promote_of_mem (LruCache.contains_iff.mp hhash)
  · rw [if_neg hhash]
    exact LruCache.keys_push cache hash ()

theorem capacity_isNew (cache : LruCache B256 Unit) (hash : B256) :
    (isNew cache hash).2.capacity = cache.capacity := by
  unfold isNew
  split_ifs <;> rfl

end TxDedup

/-! ### Every interleaving -/

namespace SharedDedup

/-- What holds between any two accesses. The cache is the window of the hashes decided, and every
decision was right for the window before it; every caller is counted in the total, and the answers
counted are those of the callers that have returned. -/
structure Tallied (capacity : ℕ) (shared : SharedDedup) : Prop where
  capacity_eq : shared.dedup.cache.capacity = capacity
  keys : shared.dedup.cache.keys =
    Recency.window capacity (shared.decisions.map Prod.fst).reverse
  duplicate_iff : ∀ position hash isNew, shared.decisions[position]? = some (hash, isNew) →
    (isNew = false ↔ SeenWithin capacity ((shared.decisions.take position).map Prod.fst) hash)
  total : shared.dedup.stats.total = .ofNat shared.calls.length
  answered : ∀ answer,
    shared.dedup.stats.answered answer = .ofNat (shared.calls.count (.returned answer))
  decided : ∀ answer, shared.decisions.countP (·.2 = answer) =
    shared.calls.count (.decided answer) + shared.calls.count (.returned answer)

theorem tallied_start {config : DedupConfig} {dedup : TxDedup}
    (hnew : TxDedup.new config = some dedup) : Tallied config.cacheSize (start dedup) := by
  unfold TxDedup.new at hnew
  split_ifs at hnew with hsize
  rw [Option.some_inj] at hnew
  subst hnew
  exact {
    capacity_eq := rfl
    keys := List.take_nil.symm
    duplicate_iff := fun position hash isNew hposition ↦ by
      rw [start, List.getElem?_nil] at hposition
      cases hposition
    total := rfl
    answered := fun answer ↦ by cases answer <;> rfl
    decided := fun _ ↦ rfl }

/-- One more decision that is right for the window before it. -/
theorem Tallied.duplicate_iff_concat {capacity : ℕ} {shared : SharedDedup}
    (htallied : Tallied capacity shared) {hash : B256} {isNew : Bool}
    (hright : isNew = false ↔ SeenWithin capacity (shared.decisions.map Prod.fst) hash)
    (position : ℕ) (other : B256) (answer : Bool)
    (hposition : (shared.decisions ++ [(hash, isNew)])[position]? = some (other, answer)) :
    answer = false ↔ SeenWithin capacity
      (((shared.decisions ++ [(hash, isNew)]).take position).map Prod.fst) other := by
  rcases getElem?_concat_cases hposition with ⟨hlt, hearlier⟩ | ⟨rfl, hlast⟩
  · rw [List.take_append_of_le_length (Nat.le_of_lt hlt)]
    exact htallied.duplicate_iff position other answer hearlier
  · obtain ⟨rfl, rfl⟩ := Prod.mk.inj hlast
    rwa [List.take_left]

theorem Tallied.enter {capacity : ℕ} {shared : SharedDedup} (htallied : Tallied capacity shared)
    (hash : B256) : Tallied capacity (shared.step (.enter hash)) where
  capacity_eq := htallied.capacity_eq
  keys := htallied.keys
  duplicate_iff := htallied.duplicate_iff
  total := by
    show shared.dedup.stats.total + 1 = _
    rw [htallied.total, step, List.length_append, List.length_singleton, UInt64.ofNat_add]
    rfl
  answered := fun answer ↦ by
    show shared.dedup.stats.answered answer = _
    rw [step, List.count_append]
    simpa using htallied.answered answer
  decided := fun answer ↦ by
    rw [step, List.count_append, List.count_append]
    simpa using htallied.decided answer

theorem Tallied.lock {capacity : ℕ} {shared : SharedDedup} (htallied : Tallied capacity shared)
    (caller : ℕ) : Tallied capacity (shared.step (.lock caller)) := by
  rw [step]
  split
  next hash hcaller =>
    exact {
      capacity_eq := (TxDedup.capacity_isNew _ hash).trans htallied.capacity_eq
      keys := by
        show (TxDedup.isNew shared.dedup.cache hash).2.keys = _
        rw [TxDedup.keys_isNew, htallied.keys, htallied.capacity_eq, Recency.touch_window,
          List.map_append, List.reverse_append]
        rfl
      duplicate_iff := htallied.duplicate_iff_concat (by
        rw [seenWithin_iff, ← htallied.keys]
        exact TxDedup.isNew_eq_false_iff)
      total := by
        rw [List.length_set]
        exact htallied.total
      answered := fun answer ↦ by
        have hreturned := count_set_add hcaller (.returned answer)
          (.decided (TxDedup.isNew shared.dedup.cache hash).1)
        simp only [reduceCtorEq, if_false, Nat.add_zero] at hreturned
        dsimp only
        rw [hreturned]
        exact htallied.answered answer
      decided := fun answer ↦ by
        have hdecided := count_set_add hcaller (.decided answer)
          (.decided (TxDedup.isNew shared.dedup.cache hash).1)
        have hreturned := count_set_add hcaller (.returned answer)
          (.decided (TxDedup.isNew shared.dedup.cache hash).1)
        simp only [reduceCtorEq, if_false, Nat.add_zero, DedupCall.decided.injEq]
          at hdecided hreturned
        dsimp only
        rw [List.countP_append, htallied.decided, hdecided, hreturned, List.countP_singleton]
        simp only [decide_eq_true_eq]
        omega }
  next => exact htallied

theorem Tallied.count {capacity : ℕ} {shared : SharedDedup} (htallied : Tallied capacity shared)
    (caller : ℕ) : Tallied capacity (shared.step (.count caller)) := by
  rw [step]
  split
  next isNew hcaller =>
    exact {
      capacity_eq := htallied.capacity_eq
      keys := htallied.keys
      duplicate_iff := htallied.duplicate_iff
      total := by
        rw [List.length_set, DedupStats.total_countAnswer]
        exact htallied.total
      answered := fun answer ↦ by
        have hreturned := count_set_add hcaller (.returned answer) (.returned isNew)
        simp only [reduceCtorEq, if_false, Nat.add_zero, DedupCall.returned.injEq] at hreturned
        dsimp only
        rw [DedupStats.answered_countAnswer, htallied.answered, hreturned, UInt64.ofNat_add]
        by_cases hanswer : isNew = answer
        · rw [if_pos hanswer, if_pos hanswer]
          rfl
        · rw [if_neg hanswer, if_neg hanswer]
          rfl
      decided := fun answer ↦ by
        have hdecided := count_set_add hcaller (.decided answer) (.returned isNew)
        have hreturned := count_set_add hcaller (.returned answer) (.returned isNew)
        simp only [reduceCtorEq, if_false, Nat.add_zero, DedupCall.decided.injEq,
          DedupCall.returned.injEq] at hdecided hreturned
        dsimp only
        rw [htallied.decided]
        omega }
  next => exact htallied

theorem tallied_run {config : DedupConfig} {dedup : TxDedup}
    (hnew : TxDedup.new config = some dedup) (accesses : List DedupAccess) :
    Tallied config.cacheSize (run step (start dedup) accesses) := by
  refine run_history (fun _ ↦ Tallied config.cacheSize) (tallied_start hnew) ?_ accesses
  intro _ shared access htallied
  cases access with
  | enter hash => exact htallied.enter hash
  | lock caller => exact htallied.lock caller
  | count caller => exact htallied.count caller

/-- The first occurrence of a hash among the decisions. -/
theorem exists_first_decision {decisions : List (B256 × Bool)} {hash : B256}
    (hhash : hash ∈ decisions.map Prod.fst) :
    ∃ before isNew after, decisions = before ++ (hash, isNew) :: after ∧
      hash ∉ before.map Prod.fst := by
  obtain ⟨front, back, hsplit, hfront⟩ := List.eq_append_cons_of_mem hhash
  obtain ⟨before, rest, rfl, rfl, hrest⟩ := List.map_eq_append_iff.mp hsplit
  obtain ⟨⟨other, isNew⟩, after, rfl, rfl, -⟩ := List.map_eq_cons_iff.mp hrest
  exact ⟨before, isNew, after, rfl, hfront⟩

theorem Tallied.exactWindow {capacity : ℕ} {shared : SharedDedup}
    (htallied : Tallied capacity shared) : ExactWindow capacity shared.decisions := by
  have hfirst : ∀ position hash isNew, shared.decisions[position]? = some (hash, isNew) →
      hash ∉ (shared.decisions.take position).map Prod.fst → isNew = true := by
    intro position hash isNew hposition hhash
    by_contra hduplicate
    rw [Bool.not_eq_true] at hduplicate
    exact hhash ((htallied.duplicate_iff position hash isNew hposition).mp hduplicate).mem
  refine ⟨htallied.duplicate_iff, hfirst, fun hfits hash hhash ↦ ?_⟩
  obtain ⟨before, isNew, after, hdecisions, hbefore⟩ := exists_first_decision hhash
  have hposition : shared.decisions[before.length]? = some (hash, isNew) := by
    rw [hdecisions, List.getElem?_append_right (Nat.le_refl _), Nat.sub_self,
      List.getElem?_cons_zero]
  obtain rfl : isNew = true := hfirst _ hash isNew hposition (by
    rwa [hdecisions, List.take_left])
  -- a later decision finds the hash in the window, which forgets nothing
  have hafter : (hash, true) ∉ after := by
    intro hlater
    obtain ⟨offset, hoffset⟩ := List.mem_iff_getElem?.mp hlater
    have hagain : shared.decisions[before.length + (offset + 1)]? = some (hash, true) := by
      rw [hdecisions, List.getElem?_append_right (Nat.le_add_right _ _), Nat.add_sub_cancel_left,
        List.getElem?_cons_succ, hoffset]
    have hnew := mt (htallied.duplicate_iff _ hash true hagain).mpr (Ne.symm Bool.false_ne_true)
    refine hnew (seenWithin_of_mem ?_ (Nat.le_trans ?_ hfits))
    · rw [hdecisions, List.take_length_add_append, List.take_succ_cons, List.map_append]
      exact List.mem_append_right _ List.mem_cons_self
    · rw [← Recency.length_recencyOrder]
      exact Recency.length_recencyOrder_le fun other hother ↦
        List.mem_dedup.mpr (((List.take_sublist _ _).map Prod.fst).subset hother)
  rw [hdecisions, List.count_append, List.count_cons_self, List.count_eq_zero.mpr hafter,
    List.count_eq_zero.mpr fun h ↦ hbefore (List.mem_map_of_mem h)]

/-- Every decision is one of the two answers. -/
theorem length_eq_countP (decisions : List (B256 × Bool)) :
    decisions.length = decisions.countP (·.2 = true) + decisions.countP (·.2 = false) := by
  rw [List.length_eq_countP_add_countP (fun decision : B256 × Bool ↦ decision.2 = true)]
  congr 2
  ext decision
  simp

/-- Once every call has returned, the calls are the answers. -/
theorem AllReturned.length_eq {shared : SharedDedup} (hreturned : shared.AllReturned) :
    shared.calls.length =
      shared.calls.count (.returned true) + shared.calls.count (.returned false) := by
  rw [List.length_eq_countP_add_countP (· == .returned true), ← List.count_eq_countP]
  congr 1
  refine List.countP_congr fun call hcall ↦ ?_
  have hcallReturned := hreturned call hcall
  cases call with
  | entered | decided => cases hcallReturned
  | returned isNew => cases isNew <;> simp

theorem AllReturned.count_decided {shared : SharedDedup} (hreturned : shared.AllReturned)
    (answer : Bool) : shared.calls.count (.decided answer) = 0 := by
  refine List.count_eq_zero.mpr fun hcall ↦ ?_
  cases hreturned _ hcall

theorem Tallied.countsAnswers {capacity : ℕ} {shared : SharedDedup}
    (htallied : Tallied capacity shared) (hreturned : shared.AllReturned) :
    CountsAnswers shared.decisions shared.dedup.stats := by
  have hcount : ∀ answer, shared.decisions.countP (·.2 = answer) =
      shared.calls.count (.returned answer) := fun answer ↦ by
    rw [htallied.decided, hreturned.count_decided, Nat.zero_add]
  have hlength : shared.decisions.length = shared.calls.length := by
    rw [hreturned.length_eq, ← hcount, ← hcount, length_eq_countP]
  have hunique : shared.dedup.stats.unique = .ofNat (shared.calls.count (.returned true)) :=
    htallied.answered true
  have hduplicates :
      shared.dedup.stats.duplicates = .ofNat (shared.calls.count (.returned false)) :=
    htallied.answered false
  exact {
    unique := by rw [hcount, hunique, UInt64.toNat_ofNat']
    duplicates := by rw [hcount, hduplicates, UInt64.toNat_ofNat']
    sum := by rw [hunique, hduplicates, htallied.total, hreturned.length_eq, UInt64.ofNat_add]
    total := by rw [htallied.total, hlength, UInt64.toNat_ofNat'] }

/-! ### Callers in turn -/

/-- A call without another one in between is `checkAndInsert`. -/
theorem run_call (shared : SharedDedup) (hash : B256) :
    run step shared [.enter hash, .lock shared.calls.length, .count shared.calls.length] =
      { dedup := (shared.dedup.checkAndInsert hash).2
        calls := shared.calls ++ [.returned (shared.dedup.checkAndInsert hash).1]
        decisions := shared.decisions ++ [(hash, (shared.dedup.checkAndInsert hash).1)] } := by
  simp [step, TxDedup.checkAndInsert]

/-- The accesses of calls made one after the other, the first by the caller of an index. -/
def inTurn : ℕ → List B256 → List DedupAccess
  | _, [] => []
  | caller, hash :: hashes =>
    [.enter hash, .lock caller, .count caller] ++ inTurn (caller + 1) hashes

theorem run_inTurn (hashes : List B256) (shared : SharedDedup) (hreturned : shared.AllReturned) :
    (run step shared (inTurn shared.calls.length hashes)).AllReturned ∧
      (run step shared (inTurn shared.calls.length hashes)).decisions.map Prod.fst =
        shared.decisions.map Prod.fst ++ hashes := by
  induction hashes generalizing shared with
  | nil => exact ⟨hreturned, (List.append_nil _).symm⟩
  | cons hash hashes ih =>
    rw [inTurn, run_append, run_call]
    have hnext := ih ⟨(shared.dedup.checkAndInsert hash).2,
      shared.calls ++ [.returned (shared.dedup.checkAndInsert hash).1],
      shared.decisions ++ [(hash, (shared.dedup.checkAndInsert hash).1)]⟩ (by
        intro call hcall
        rcases List.mem_append.mp hcall with hcall | hcall
        · exact hreturned call hcall
        · rw [List.mem_singleton.mp hcall]
          rfl)
    simpa using hnext

/-! ### The deduplication window -/

/-- Deduplication is exact, whatever the callers and their interleaving. Assumes: a configuration
that `TxDedup.new` accepts. The decisions, in the order of the cache lock, are those of a window of
`cacheSize` hashes, and once every call has returned the counters count them. -/
theorem checkAndInsert_exactWindow (config : DedupConfig) (dedup : TxDedup)
    (hnew : TxDedup.new config = some dedup) (accesses : List DedupAccess) :
    let shared := run step (start dedup) accesses
    ExactWindow config.cacheSize shared.decisions ∧
      (shared.AllReturned → CountsAnswers shared.decisions shared.dedup.stats) :=
  ⟨(tallied_run hnew accesses).exactWindow, (tallied_run hnew accesses).countsAnswers⟩

/-- Two callers with the same hash, of which the second takes the lock first. -/
theorem checkAndInsert_exactWindow_of_race :
    let shared := run step (start ⟨.new 2 Nat.two_pos, ⟨0, 0, 0⟩⟩)
      [.enter (.repeatByte 1), .enter (.repeatByte 1), .lock 1, .lock 0, .count 0, .count 1]
    ExactWindow 2 shared.decisions ∧ CountsAnswers shared.decisions shared.dedup.stats :=
  have hexact := checkAndInsert_exactWindow ⟨2⟩ _ rfl
    [.enter (.repeatByte 1), .enter (.repeatByte 1), .lock 1, .lock 0, .count 0, .count 1]
  ⟨hexact.1, hexact.2 (by decide)⟩

/-- One hash `count + 1` times: all its occurrences but the first are duplicates. -/
theorem Tallied.countP_duplicates {capacity count : ℕ} {shared : SharedDedup} {hash : B256}
    (htallied : Tallied capacity shared) (hcapacity : 0 < capacity)
    (hhashes : shared.decisions.map Prod.fst = List.replicate (count + 1) hash) :
    shared.decisions.countP (·.2 = false) = count := by
  have hall : ∀ decision ∈ shared.decisions, decision.1 = hash := fun decision hdecision ↦
    List.eq_of_mem_replicate (hhashes ▸ List.mem_map_of_mem hdecision)
  have haccepted : shared.decisions.countP (·.2 = true) = 1 := by
    rw [← htallied.exactWindow.accepted_once ?_ hash ?_, List.count_eq_countP]
    · refine List.countP_congr fun decision hdecision ↦ ?_
      simp [Prod.ext_iff, hall decision hdecision]
    · rw [hhashes, List.replicate_dedup (Nat.succ_ne_zero count)]
      exact hcapacity
    · rw [hhashes]
      exact List.mem_replicate.mpr ⟨Nat.succ_ne_zero count, rfl⟩
  have hlength : shared.decisions.length = count + 1 := by
    rw [← List.length_map Prod.fst, hhashes, List.length_replicate]
  rw [length_eq_countP, haccepted, Nat.add_comm] at hlength
  exact Nat.add_right_cancel hlength

/-- After `2 ^ 64 + 1` calls with one hash, `2 ^ 64` of them were duplicates and their counter is
zero again. -/
theorem duplicates_wrap :
    let shared := run step (start ⟨.new 1 Nat.one_pos, ⟨0, 0, 0⟩⟩)
      (inTurn 0 (List.replicate (2 ^ 64 + 1) (.repeatByte 1)))
    TxDedup.new ⟨1⟩ = some ⟨.new 1 Nat.one_pos, ⟨0, 0, 0⟩⟩ ∧ shared.AllReturned ∧
      shared.decisions.countP (·.2 = false) = 2 ^ 64 ∧
      shared.dedup.stats.duplicates.toNat = 0 := by
  generalize hcount : 2 ^ 64 = count
  intro shared
  have hnew : TxDedup.new ⟨1⟩ = some ⟨.new 1 Nat.one_pos, ⟨0, 0, 0⟩⟩ := rfl
  have htallied : Tallied 1 shared := tallied_run hnew _
  obtain ⟨hreturned, hhashes⟩ :
      shared.AllReturned ∧ shared.decisions.map Prod.fst = _ ++ List.replicate _ _ :=
    run_inTurn (List.replicate (count + 1) (.repeatByte 1)) (start _) (List.forall_mem_nil _)
  have hduplicates := htallied.countP_duplicates Nat.one_pos hhashes
  refine ⟨hnew, hreturned, hduplicates, ?_⟩
  rw [(htallied.countsAnswers hreturned).duplicates, hduplicates, hcount, Nat.mod_self]

end SharedDedup

end SentryNode
