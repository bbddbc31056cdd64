import Mathlib.Algebra.Ring.Int.Defs
import SentryNode.EthProxy.Headers

/-!
# The progression of numbers in a header request

A header request asks for the numbers of an arithmetic progression: from the number of its start
block on, `skip + 1` further at each position, rising or falling. Over the integers the progression
never ends (`requestedNumber`). The code computes it with checked 64-bit arithmetic and stops at an
overflow, so the number it reaches at a position, if any, is the integer there
(`reach_nextNumber_iff`).

`resolveHeadersFromCache_longest` is the specification of the resolver: its answer is the longest
initial part of the progression that is cached, up to the limit, and the cache keeps its contents.
-/

set_option autoImplicit false
set_option relaxedAutoImplicit false

namespace SentryNode.EthProxy

open Library

variable {Rest Body : Type*}

/-- The number that a request asks for at a position, over the integers. -/
def requestedNumber (request : GetBlockHeaders) (start : UInt64) (position : ℕ) : ℤ :=
  match request.direction with
  | .rising => start.toNat + position * (request.skip.toNat + 1)
  | .falling => start.toNat - position * (request.skip.toNat + 1)

/-! ### Checked steps -/

/-- A step is a 32-bit skip and one more, which does not overflow. -/
theorem toNat_stepOf (request : GetBlockHeaders) :
    (stepOf request).toNat = request.skip.toNat + 1 := by
  have hskip := request.skip.toNat_lt
  rw [stepOf, UInt64.toNat_add, UInt32.toNat_toUInt64, UInt64.toNat_one]
  exact Nat.mod_eq_of_lt (by omega)

theorem reach_checkedAdd_iff {step start number : UInt64} {position : ℕ} :
    reach (checkedAdd · step) (some start) position = some number ↔
      number.toNat = start.toNat + position * step.toNat := by
  induction position generalizing start with
  | zero =>
    rw [reach_zero, Option.some_inj, Nat.zero_mul, Nat.add_zero, ← UInt64.toNat_inj, eq_comm]
  | succ position ih =>
    rw [reach_succ, Option.bind_some, Nat.succ_mul]
    cases hnext : checkedAdd start step with
    | none =>
      have hoverflow : ¬ start.toNat + step.toNat < UInt64.size := fun hlt ↦ by
        rw [checkedAdd, if_pos hlt] at hnext
        cases hnext
      have hnumber := number.toNat_lt_size
      rw [reach_none]
      refine iff_of_false (by rintro ⟨⟩) ?_
      omega
    | some next =>
      have hsum := checkedAdd_eq_some_iff.mp hnext
      rw [ih, hsum]
      omega

theorem reach_checkedSub_iff {step start number : UInt64} {position : ℕ} :
    reach (checkedSub · step) (some start) position = some number ↔
      number.toNat + position * step.toNat = start.toNat := by
  induction position generalizing start with
  | zero =>
    rw [reach_zero, Option.some_inj, Nat.zero_mul, Nat.add_zero, ← UInt64.toNat_inj, eq_comm]
  | succ position ih =>
    rw [reach_succ, Option.bind_some, Nat.succ_mul]
    cases hnext : checkedSub start step with
    | none =>
      have hunderflow : ¬ step.toNat ≤ start.toNat := fun hle ↦ by
        rw [checkedSub, if_pos (UInt64.le_iff_toNat_le.mpr hle)] at hnext
        cases hnext
      rw [reach_none]
      refine iff_of_false (by rintro ⟨⟩) ?_
      omega
    | some next =>
      have hdifference := checkedSub_eq_some_iff.mp hnext
      rw [ih, ← hdifference]
      omega

/-- The number reached at a position is the integer the request asks for there, as long as it is a
64-bit number. -/
theorem reach_nextNumber_iff {request : GetBlockHeaders} {start number : UInt64} {position : ℕ} :
    reach (nextNumber request.direction (stepOf request)) (some start) position = some number ↔
      (number.toNat : ℤ) = requestedNumber request start position := by
  unfold requestedNumber
  have hstep := toNat_stepOf request
  cases request.direction with
  | rising =>
    have hreach := @reach_checkedAdd_iff (stepOf request) start number position
    rw [hstep] at hreach
    refine hreach.trans ?_
    simp only
    norm_cast
  | falling =>
    have hreach := @reach_checkedSub_iff (stepOf request) start number position
    rw [hstep] at hreach
    refine hreach.trans ?_
    simp only
    rw [eq_sub_iff_add_eq]
    norm_cast

/-- Different positions ask for different numbers. -/
theorem requestedNumber_injective (request : GetBlockHeaders) (start : UInt64) :
    Function.Injective (requestedNumber request start) := by
  intro first second heq
  have hproduct : first * (request.skip.toNat + 1) = second * (request.skip.toNat + 1) := by
    unfold requestedNumber at heq
    cases hdirection : request.direction with
    | rising =>
      rw [hdirection] at heq
      exact_mod_cast add_left_cancel heq
    | falling =>
      rw [hdirection] at heq
      exact_mod_cast sub_right_injective heq
  exact Nat.eq_of_mul_eq_mul_right (Nat.succ_pos _) hproduct

/-! ### The longest cached part -/

/-- The headers served are those at the first positions of the progression, each cached at the
integer asked for there, and no more could be served: the limit is reached, or the next integer is
no 64-bit number or has no header. Nothing is served when the start block is unknown. -/
structure ServesLongest (cache : BlockCache Rest Body) (request : GetBlockHeaders)
    (served : List (Header Rest)) : Prop where
  unknown_start : startAt cache request.startBlock = none → served = []
  cached : ∀ start, startAt cache request.startBlock = some start →
    ∀ position header, served[position]? = some header →
      ∃ number : UInt64, (number.toNat : ℤ) = requestedNumber request start position ∧
        cache.headersByNumber.peek number = some header
  length_le : served.length ≤ request.limit.toNat
  longest : ∀ start, startAt cache request.startBlock = some start →
    served.length = request.limit.toNat ∨
      ∀ number : UInt64, (number.toNat : ℤ) = requestedNumber request start served.length →
        cache.headersByNumber.peek number = none

theorem length_cachedWalk_le (cache : BlockCache Rest Body) (request : GetBlockHeaders) :
    (cachedWalk cache request).length ≤ request.limit.toNat := length_walk_le _ _

theorem length_resolveHeaders_le (cache : BlockCache Rest Body) (request : GetBlockHeaders) :
    (resolveHeadersFromCache cache request).1.length ≤ request.limit.toNat := by
  rw [resolveHeadersFromCache_fst, List.length_map]
  exact length_cachedWalk_le cache request

theorem sameContents_resolveHeadersFromCache (cache : BlockCache Rest Body)
    (request : GetBlockHeaders) :
    BlockCache.SameContents cache (resolveHeadersFromCache cache request).2 := by
  cases hstart : request.startBlock with
  | number number =>
    simp only [resolveHeadersFromCache, hstart, startNumber, resolveHeadersLoop_eq]
    exact { BlockCache.SameContents.refl cache with
      headersByNumber := LruCache.sameEntries_promoteAll _ _ }
  | hash hash =>
    simp only [resolveHeadersFromCache, hstart, startNumber, BlockCache.getHeaderByHash,
      LruCache.get, resolveHeadersLoop_eq]
    exact { BlockCache.SameContents.refl cache with
      headersByHash := LruCache.sameEntries_promote _ _
      headersByNumber := LruCache.sameEntries_promoteAll _ _ }

/-- The resolver serves the longest initial part of the progression that is cached, in every cache
state and for every request, and its lookups change no map's contents. -/
theorem resolveHeadersFromCache_longest (cache : BlockCache Rest Body) (request : GetBlockHeaders) :
    ServesLongest cache request (resolveHeadersFromCache cache request).1 ∧
      BlockCache.SameContents cache (resolveHeadersFromCache cache request).2 := by
  refine ⟨?_, sameContents_resolveHeadersFromCache cache request⟩
  have hlength := length_resolveHeaders_le cache request
  rw [resolveHeadersFromCache_fst] at hlength ⊢
  exact {
    unknown_start := fun hstart ↦ by rw [cachedWalk, hstart, walk_none, List.map_nil]
    cached := fun start hstart position header hheader ↦ by
      rw [List.getElem?_map] at hheader
      obtain ⟨entry, hentry, rfl⟩ := Option.map_eq_some_iff.mp hheader
      have hreach := reach_of_getElem?_walk hentry
      rw [hstart] at hreach
      exact ⟨entry.1, reach_nextNumber_iff.mp hreach,
        lookup_of_mem_walk (List.mem_of_getElem? hentry)⟩
    length_le := hlength
    longest := fun start hstart ↦ by
      rw [List.length_map]
      rcases Nat.lt_or_eq_of_le (length_cachedWalk_le cache request) with hshort | hfull
      · refine Or.inr fun number hnumber ↦ ?_
        have hstop : (reach (nextNumber request.direction (stepOf request))
            (startAt cache request.startBlock) (cachedWalk cache request).length).bind
              cache.headersByNumber.peek = none := stop_of_length_walk_lt hshort
        rwa [hstart, reach_nextNumber_iff.mpr hnumber, Option.bind_some] at hstop
      · exact Or.inl hfull }

end SentryNode.EthProxy
