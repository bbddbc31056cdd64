import SentryNode.BlockCache.History
import SentryNode.EthProxy.HeadersInterleaved

/-!
# The cost of a header request

The limit of a header request is chosen by a peer and can be anything. The resolver still makes few
lookups: the numbers it looks up are distinct, and all of them but the last one are keys of the
cache. The bound is therefore one more than the capacity (`resolver_bounded`), counted on the steps
of the resolver running alone.
-/

set_option autoImplicit false
set_option relaxedAutoImplicit false

namespace SentryNode.EthProxy

open Library

variable {Rest Body : Type*}

/-! ### The resolver alone -/

/-- The resolver is done, or every lookup but that of the start hash has added a finding. -/
def Counted (lookups : ℕ) (state : ResolveState Rest Body) : Prop :=
  (∃ headers, state.phase = .resolved headers) ∨
    lookups ≤ state.found.length + if state.phase.hasStarted then 1 else 0

theorem Counted.lookup {lookups : ℕ} {request : GetBlockHeaders} {state : ResolveState Rest Body}
    (hcounted : Counted lookups state)
    (htracks : Tracks request state.phase state.start state.found) :
    Counted (lookups + 1) (state.lookup request) := by
  obtain ⟨blockImport, phase, start, found⟩ := state
  cases phase with
  | resolved headers => exact Or.inl ⟨headers, rfl⟩
  | starting hash =>
    have hnone : lookups ≤ found.length + 0 :=
      hcounted.resolve_left fun ⟨headers, hphase⟩ ↦ by cases hphase
    have hlimit : found.length + request.limit.toNat ≤ request.limit.toNat := htracks.limit
    have hstarted := hasStarted_loopHead request.limit.toNat
      ((blockImport.cache.headersByHash.peek hash).map Header.number) ([] : List (Header Rest))
    refine Or.inr (Nat.le_trans ?_ (Nat.le_of_eq (congrArg _ (if_pos hstarted).symm)))
    omega
  | walking left number headers =>
    have hsome : lookups ≤ found.length + 1 :=
      hcounted.resolve_left fun ⟨headers, hphase⟩ ↦ by cases hphase
    cases hheader : blockImport.cache.headersByNumber.peek number with
    | none =>
      rw [lookup_walking_none hheader]
      exact Or.inl ⟨headers, rfl⟩
    | some header =>
      rw [lookup_walking_some hheader, Counted, if_pos (hasStarted_loopHead _ _ _),
        List.length_append]
      exact Or.inr (Nat.succ_le_succ hsome)

/-- The resolver is done when it has made more lookups than the limit or the headers allow. -/
theorem Counted.resolved {lookups held : ℕ} {request : GetBlockHeaders}
    {state : ResolveState Rest Body} (hcounted : Counted lookups state)
    (htracks : Tracks request state.phase state.start state.found)
    (hheld : state.phase.headers.length ≤ held)
    (hmany : min request.limit.toNat (held + 1) < lookups) :
    ∃ headers, state.phase = .resolved headers := by
  refine hcounted.elim id fun hfew ↦ ?_
  obtain ⟨blockImport, phase, start, found⟩ := state
  cases phase with
  | resolved headers => exact ⟨headers, rfl⟩
  | starting hash =>
    have hlimit : found.length + request.limit.toNat ≤ request.limit.toNat := htracks.limit
    change lookups ≤ found.length + 0 at hfew
    omega
  | walking left number headers =>
    have hlimit : found.length + (left + 1) ≤ request.limit.toNat := htracks.limit
    have hlength : headers.length = found.length := (htracks.current left number headers rfl).2
    change headers.length ≤ held at hheld
    change lookups ≤ found.length + 1 at hfew
    omega

/-- The resolver after a number of lookups, when nothing else happens. -/
def ResolveState.alone (blockImport : CachingBlockImport Rest Body) (request : GetBlockHeaders)
    (lookups : ℕ) : ResolveState Rest Body :=
  run (step request) (.initial blockImport request) (List.replicate lookups .lookup)

section Alone

variable (blockImport : CachingBlockImport Rest Body) (request : GetBlockHeaders) (lookups : ℕ)

theorem alone_succ :
    ResolveState.alone blockImport request (lookups + 1) =
      (ResolveState.alone blockImport request lookups).lookup request := by
  rw [ResolveState.alone, List.replicate_succ', run_concat]
  rfl

theorem tracks_alone :
    Tracks request (ResolveState.alone blockImport request lookups).phase
      (ResolveState.alone blockImport request lookups).start
      (ResolveState.alone blockImport request lookups).found := tracks_run _ _ _

theorem current_alone : Current request (ResolveState.alone blockImport request lookups) := by
  induction lookups with
  | zero => exact current_initial blockImport request
  | succ lookups ih =>
    rw [alone_succ]
    exact ih.lookup

theorem counted_alone : Counted lookups (ResolveState.alone blockImport request lookups) := by
  induction lookups with
  | zero => exact Or.inr (Nat.zero_le _)
  | succ lookups ih =>
    rw [alone_succ]
    exact ih.lookup (tracks_alone blockImport request lookups)

theorem sameContents_alone :
    blockImport.cache.SameContents (ResolveState.alone blockImport request lookups).cache := by
  induction lookups with
  | zero =>
    rw [ResolveState.alone, List.replicate_zero, run_nil, ResolveState.initial]
    cases request.startBlock <;> exact .refl _
  | succ lookups ih =>
    rw [alone_succ]
    exact ih.trans (sameContents_lookup request _)

end Alone

/-! ### Distinct numbers -/

section Numbers

variable {request : GetBlockHeaders} {phase : WalkPhase Rest} {start : Option UInt64}
  {found : List (UInt64 × Option (Header Rest))}

/-- Different positions are at different numbers. -/
theorem position_eq_of_reach {number : UInt64} {first second : ℕ}
    (hfirst : reach (nextNumber request.direction (stepOf request)) start first = some number)
    (hsecond : reach (nextNumber request.direction (stepOf request)) start second = some number) :
    first = second := by
  cases start with
  | none =>
    rw [reach_none] at hfirst
    cases hfirst
  | some start =>
    refine requestedNumber_injective request start ?_
    rw [← reach_nextNumber_iff.mp hfirst, ← reach_nextNumber_iff.mp hsecond]

/-- A header of the answer was found by the lookup of its position. -/
theorem Tracks.found_of_header (htracks : Tracks request phase start found) {position : ℕ}
    {header : Header Rest} (hheader : phase.headers[position]? = some header) :
    ∃ number, reach (nextNumber request.direction (stepOf request)) start position = some number ∧
      (number, some header) ∈ found := by
  obtain ⟨hposition, -⟩ := List.getElem?_eq_some_iff.mp hheader
  have hentry := List.getElem?_eq_getElem (Nat.lt_of_lt_of_le hposition htracks.headers_le)
  obtain ⟨hreach, hresult⟩ := htracks.positions position _ hentry
  rw [hheader] at hresult
  refine ⟨_, hreach, ?_⟩
  rw [hresult]
  exact List.mem_of_getElem? hentry

/-- The headers of the answer have distinct numbers. Assumes: each header found has the number it
was found under. -/
theorem Tracks.nodup_numbers (htracks : Tracks request phase start found)
    (hnumber : ∀ number header, (number, some header) ∈ found → header.number = number) :
    (phase.headers.map Header.number).Nodup := by
  rw [List.Nodup, List.pairwise_map, List.pairwise_iff_getElem]
  intro lower upper hlower hupper hlt heq
  obtain ⟨first, hfirst, hfirstFound⟩ := htracks.found_of_header (List.getElem?_eq_getElem hlower)
  obtain ⟨second, hsecond, hsecondFound⟩ :=
    htracks.found_of_header (List.getElem?_eq_getElem hupper)
  rw [hnumber first _ hfirstFound, hnumber second _ hsecondFound] at heq
  exact Nat.ne_of_lt hlt (position_eq_of_reach hfirst (heq ▸ hsecond))

end Numbers

/-- The walk is bounded by the cache, whatever the peer asks for. In every cache state reached, the
lookups by number are at most the limit and at most one more than the capacity, the headers are at
most the limit and at most the capacity, and have distinct numbers. After that many lookups, and
that of the start hash, the resolver is done. -/
theorem resolver_bounded (capacity : ℕ) (ops : List (CacheOp Rest Body))
    (rebroadcastTx : List (NewBlockData Rest Body)) (request : GetBlockHeaders) (lookups : ℕ) :
    let cache := BlockCache.after capacity ops
    let state := ResolveState.alone ⟨cache, rebroadcastTx⟩ request lookups
    let held := BlockCache.effectiveCapacity capacity
    state.found.length ≤ min request.limit.toNat (held + 1) ∧
      state.phase.headers.length ≤ min request.limit.toNat held ∧
      (state.phase.headers.map Header.number).Nodup ∧
      (min request.limit.toNat (held + 1) < lookups →
        state.phase = .resolved (resolveHeadersFromCache cache request).1) := by
  intro cache state held
  have hcache := coherentWith_after capacity ops
  have htracks : Tracks request state.phase state.start state.found :=
    tracks_alone ⟨cache, rebroadcastTx⟩ request lookups
  have hcurrent : Current request state := current_alone ⟨cache, rebroadcastTx⟩ request lookups
  have hsame : cache.SameContents state.cache :=
    sameContents_alone ⟨cache, rebroadcastTx⟩ request lookups
  have hfound : ∀ entry ∈ state.found, cache.headersByNumber.peek entry.1 = entry.2 := by
    rw [hsame.headersByNumber.peek_eq]
    exact hcurrent.found
  have hnumber : ∀ number header, (number, some header) ∈ state.found →
      header.number = number := fun number header hentry ↦ by
    obtain ⟨-, -, hnumber⟩ := hcache.header_at (hfound _ hentry)
    exact hnumber
  have hnumbers : (state.phase.headers.map Header.number).Nodup := htracks.nodup_numbers hnumber
  have hkeys : state.phase.headers.map Header.number ⊆ cache.headersByNumber.keys := by
    intro number hmem
    obtain ⟨header, hheader, rfl⟩ := List.mem_map.mp hmem
    obtain ⟨position, hposition⟩ := List.mem_iff_getElem?.mp hheader
    obtain ⟨number, -, hentry⟩ := htracks.found_of_header hposition
    rw [hnumber number header hentry]
    exact LruCache.mem_keys_iff.mpr ⟨header, hfound _ hentry⟩
  have hheld : state.phase.headers.length ≤ held := by
    have hlength := LruCache.length_le_capacity hnumbers hkeys
    rwa [List.length_map, hcache.capacity_headersByNumber] at hlength
  have hlimit := htracks.limit
  have hheaders := htracks.headers_le
  have hlookups := htracks.found_le
  refine ⟨by omega, by omega, hnumbers, fun hmany ↦ ?_⟩
  obtain ⟨headers, hphase⟩ := (counted_alone ⟨cache, rebroadcastTx⟩ request lookups).resolved
    htracks hheld hmany
  have hstart : startAt cache request.startBlock = state.start := by
    rw [← startAt_of_sameContents hsame]
    exact hcurrent.start (by rw [hphase]; rfl)
  rw [hphase] at htracks
  rw [hphase, (htracks.resolveHeaders_eq_iff hstart).mpr hfound]

end SentryNode.EthProxy
