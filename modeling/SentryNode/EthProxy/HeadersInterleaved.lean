import SentryNode.BlockImport
import SentryNode.EthProxy.HeadersProgression
import SentryNode.Library.Run

/-!
# Serving block headers while blocks arrive

The resolver takes the lock of the cache once for every lookup, so the network task can cache new
blocks between two of them. `WalkPhase` is what the resolver holds in between, a step is one lookup
or one announcement, and a run is any list of them: every interleaving. The state keeps what each
lookup by number found.

The result is a matter of these findings alone. `Tracks` carries through every run that a walk over
any map that agrees with them so far is the walk taken so far, continued. At a moment at which the
start block has the same number, resolving at once therefore gives the same answer exactly when the
cache agrees with all findings (`resolved_at_a_moment`), which it does at the last lookup as long as
no block that arrived before changed what had been read. Without that, an answer can be put together
from two branches that no moment had side by side.
-/

set_option autoImplicit false
set_option relaxedAutoImplicit false

namespace SentryNode.EthProxy

open Library

variable {Rest Body : Type*}

/-! ### The machine -/

/-- Where the resolver is, with its local values: before the lookup of the start hash, before the
lookup of a number with `left` iterations to follow, or done. -/
inductive WalkPhase (Rest : Type*)
  | starting (hash : B256)
  | walking (left : ℕ) (number : UInt64) (headers : List (Header Rest))
  | resolved (headers : List (Header Rest))

/-- The head of the loop, with the number of iterations left. -/
def WalkPhase.loopHead : ℕ → Option UInt64 → List (Header Rest) → WalkPhase Rest
  | 0, _, headers => .resolved headers
  | _ + 1, none, headers => .resolved headers
  | left + 1, some number, headers => .walking left number headers

/-- The cache and the block import that share it with the resolver of one request. `start` is the
number to start at, as far as it is known, and `found` what the lookups by number have found. -/
structure ResolveState (Rest Body : Type*) where
  blockImport : CachingBlockImport Rest Body
  phase : WalkPhase Rest
  start : Option UInt64
  found : List (UInt64 × Option (Header Rest))

/-- What can happen next: a lookup of the resolver, or an announcement. -/
inductive ResolveEvent (Rest Body : Type*)
  | lookup
  | newBlock (event : NewBlockEvent Rest Body)

namespace ResolveState

/-- The shared cache. -/
def cache (state : ResolveState Rest Body) : BlockCache Rest Body := state.blockImport.cache

/-- The resolver before its first lookup. -/
def initial (blockImport : CachingBlockImport Rest Body) (request : GetBlockHeaders) :
    ResolveState Rest Body :=
  match request.startBlock with
  | .number number =>
    { blockImport
      phase := .loopHead request.limit.toNat (some number) []
      start := some number
      found := [] }
  | .hash hash => { blockImport, phase := .starting hash, start := none, found := [] }

/-- The next lookup of the resolver, and what it does up to the one after. -/
def lookup (request : GetBlockHeaders) (state : ResolveState Rest Body) :
    ResolveState Rest Body :=
  match state.phase with
  | .starting hash =>
    let (header, cache) := state.cache.getHeaderByHash hash
    { blockImport := { state.blockImport with cache }
      phase := .loopHead request.limit.toNat (header.map Header.number) []
      start := header.map Header.number
      found := [] }
  | .walking left number headers =>
    match state.cache.getHeaderByNumber number with
    | (some header, cache) =>
      { blockImport := { state.blockImport with cache }
        phase := .loopHead left (nextNumber request.direction (stepOf request) number)
          (headers ++ [header])
        start := state.start
        found := state.found ++ [(number, some header)] }
    | (none, cache) =>
      { blockImport := { state.blockImport with cache }
        phase := .resolved headers
        start := state.start
        found := state.found ++ [(number, none)] }
  | .resolved _ => state

/-- One step of the machine. -/
def step (request : GetBlockHeaders) (state : ResolveState Rest Body) :
    ResolveEvent Rest Body → ResolveState Rest Body
  | .lookup => state.lookup request
  | .newBlock event => { state with blockImport := state.blockImport.onNewBlock event }

end ResolveState

/-! ### What the resolver has so far -/

namespace WalkPhase

/-- The headers found so far. -/
def headers : WalkPhase Rest → List (Header Rest)
  | starting _ => []
  | walking _ _ headers => headers
  | resolved headers => headers

/-- The most lookups by number that are still to come, when `limit` is that of the request. -/
def left (limit : ℕ) : WalkPhase Rest → ℕ
  | starting _ => limit
  | walking left _ _ => left + 1
  | resolved _ => 0

/-- The walk that is still to come, over a map. -/
def rest (request : GetBlockHeaders) (lookup : UInt64 → Option (Header Rest)) :
    WalkPhase Rest → List (UInt64 × Header Rest)
  | starting _ => []
  | walking left number _ =>
    walk (nextNumber request.direction (stepOf request)) lookup (left + 1) (some number)
  | resolved _ => []

theorem headers_loopHead (left : ℕ) (current : Option UInt64) (headers : List (Header Rest)) :
    (loopHead left current headers).headers = headers := by
  cases left with
  | zero => rfl
  | succ left => cases current <;> rfl

theorem rest_loopHead (request : GetBlockHeaders) (lookup : UInt64 → Option (Header Rest))
    (left : ℕ) (current : Option UInt64) (headers : List (Header Rest)) :
    (loopHead left current headers).rest request lookup =
      walk (nextNumber request.direction (stepOf request)) lookup left current := by
  cases left with
  | zero => rfl
  | succ left =>
    cases current with
    | none => exact (walk_none _).symm
    | some number => rfl

theorem left_loopHead_le (limit left : ℕ) (current : Option UInt64)
    (headers : List (Header Rest)) : (loopHead left current headers).left limit ≤ left := by
  cases left with
  | zero => exact Nat.le_refl 0
  | succ left =>
    cases current with
    | none => exact Nat.zero_le _
    | some number => exact Nat.le_refl _

end WalkPhase

/-! ### The lookups -/

section Lookups

variable {request : GetBlockHeaders} {blockImport : CachingBlockImport Rest Body} {hash : B256}
  {left : ℕ} {number : UInt64} {headers : List (Header Rest)} {start : Option UInt64}
  {found : List (UInt64 × Option (Header Rest))}

/-- The block import after a lookup by number. -/
def lookedUpNumber (blockImport : CachingBlockImport Rest Body) (number : UInt64) :
    CachingBlockImport Rest Body :=
  { blockImport with
    cache := { blockImport.cache with
      headersByNumber := blockImport.cache.headersByNumber.promote number } }

/-- A lookup that finds a header. -/
theorem lookup_walking_some {header : Header Rest}
    (hheader : blockImport.cache.headersByNumber.peek number = some header) :
    ResolveState.lookup request ⟨blockImport, .walking left number headers, start, found⟩ =
      ⟨lookedUpNumber blockImport number,
        .loopHead left (nextNumber request.direction (stepOf request) number) (headers ++ [header]),
        start, found ++ [(number, some header)]⟩ := by
  simp only [ResolveState.lookup, ResolveState.cache, BlockCache.getHeaderByNumber, LruCache.get,
    hheader]
  rfl

/-- A lookup that finds nothing. -/
theorem lookup_walking_none (hheader : blockImport.cache.headersByNumber.peek number = none) :
    ResolveState.lookup request ⟨blockImport, .walking left number headers, start, found⟩ =
      ⟨lookedUpNumber blockImport number, .resolved headers, start, found ++ [(number, none)]⟩ := by
  simp only [ResolveState.lookup, ResolveState.cache, BlockCache.getHeaderByNumber, LruCache.get,
    hheader]
  rfl

/-- A lookup changes no map's contents. -/
theorem sameContents_lookup (request : GetBlockHeaders) (state : ResolveState Rest Body) :
    state.cache.SameContents (state.lookup request).cache := by
  obtain ⟨blockImport, phase, start, found⟩ := state
  cases phase with
  | starting hash =>
    exact { BlockCache.SameContents.refl blockImport.cache with
      headersByHash := LruCache.sameEntries_promote _ _ }
  | walking left number headers =>
    have hpromote : blockImport.cache.SameContents (lookedUpNumber blockImport number).cache :=
      { BlockCache.SameContents.refl blockImport.cache with
        headersByNumber := LruCache.sameEntries_promote _ _ }
    cases hheader : blockImport.cache.headersByNumber.peek number with
    | none =>
      rw [lookup_walking_none hheader]
      exact hpromote
    | some header =>
      rw [lookup_walking_some hheader]
      exact hpromote
  | resolved headers => exact .refl _

end Lookups

/-! ### The findings determine the result -/

/-- What the resolver has found so far is a walk interrupted. Over every map that agrees with the
findings, the walk of the request is the one so far and the rest; the findings are at the numbers of
the first positions, and the headers are those among them. -/
structure Tracks (request : GetBlockHeaders) (phase : WalkPhase Rest) (start : Option UInt64)
    (found : List (UInt64 × Option (Header Rest))) : Prop where
  resumes : ∀ lookup : UInt64 → Option (Header Rest),
    (∀ entry ∈ found, lookup entry.1 = entry.2) →
      (walk (nextNumber request.direction (stepOf request)) lookup request.limit.toNat start).map
          Prod.snd =
        phase.headers ++ (phase.rest request lookup).map Prod.snd
  positions : ∀ position entry, found[position]? = some entry →
    reach (nextNumber request.direction (stepOf request)) start position = some entry.1 ∧
      phase.headers[position]? = entry.2
  current : ∀ left number headers, phase = .walking left number headers →
    reach (nextNumber request.direction (stepOf request)) start found.length = some number ∧
      headers.length = found.length
  headers_le : phase.headers.length ≤ found.length
  found_le : found.length ≤ phase.headers.length + 1
  limit : found.length + phase.left request.limit.toNat ≤ request.limit.toNat

/-- The loop is at a number only as the next one. -/
theorem eq_of_loopHead_eq_walking {left after : ℕ} {current : Option UInt64} {number : UInt64}
    {headers others : List (Header Rest)}
    (hphase : WalkPhase.loopHead left current headers = .walking after number others) :
    current = some number ∧ headers = others := by
  cases left with
  | zero => cases hphase
  | succ left =>
    cases current with
    | none => cases hphase
    | some next =>
      obtain ⟨-, rfl, rfl⟩ := WalkPhase.walking.inj hphase
      exact ⟨rfl, rfl⟩

section Tracks

variable {request : GetBlockHeaders} {left : ℕ} {number : UInt64} {headers : List (Header Rest)}
  {start : Option UInt64} {found : List (UInt64 × Option (Header Rest))}

/-- Before the first lookup by number. -/
theorem tracks_begin (request : GetBlockHeaders) (start : Option UInt64) :
    Tracks request (.loopHead request.limit.toNat start ([] : List (Header Rest))) start [] where
  resumes := fun lookup _ ↦ by
    rw [WalkPhase.headers_loopHead, WalkPhase.rest_loopHead, List.nil_append]
  positions := fun position entry hfound ↦ by cases hfound
  current := fun left number headers hphase ↦ by
    obtain ⟨rfl, rfl⟩ := eq_of_loopHead_eq_walking hphase
    exact ⟨rfl, rfl⟩
  headers_le := by
    rw [WalkPhase.headers_loopHead]
    exact Nat.le_refl 0
  found_le := Nat.zero_le _
  limit := by
    rw [List.length_nil, Nat.zero_add]
    exact WalkPhase.left_loopHead_le _ _ _ _

/-- Before the lookup of the start hash. -/
theorem tracks_starting (request : GetBlockHeaders) (hash : B256) :
    Tracks request (.starting hash : WalkPhase Rest) none [] where
  resumes := fun lookup _ ↦ by
    rw [walk_none]
    rfl
  positions := fun position entry hfound ↦ by cases hfound
  current := fun left number headers hphase ↦ by cases hphase
  headers_le := Nat.le_refl 0
  found_le := Nat.zero_le _
  limit := Nat.le_of_eq (Nat.zero_add _)

/-- The positions after one more finding. The headers may have grown by the one found. -/
theorem Tracks.positions_concat
    (htracks : Tracks request (.walking left number headers) start found)
    {others : List (Header Rest)} {result : Option (Header Rest)} (hbegins : headers <+: others)
    (hlast : others[found.length]? = result) (position : ℕ) (entry : UInt64 × Option (Header Rest))
    (hentry : (found ++ [(number, result)])[position]? = some entry) :
    reach (nextNumber request.direction (stepOf request)) start position = some entry.1 ∧
      others[position]? = entry.2 := by
  obtain ⟨hnumber, hlength⟩ := htracks.current left number headers rfl
  rcases getElem?_concat_cases hentry with ⟨hlt, hearlier⟩ | ⟨rfl, rfl⟩
  · obtain ⟨hreach, hheader⟩ := htracks.positions position entry hearlier
    obtain ⟨more, rfl⟩ := hbegins
    rw [List.getElem?_append_left (hlength ▸ hlt)]
    exact ⟨hreach, hheader⟩
  · exact ⟨hnumber, hlast⟩

/-- A lookup found a header. -/
theorem Tracks.found_some (htracks : Tracks request (.walking left number headers) start found)
    (header : Header Rest) :
    Tracks request (.loopHead left (nextNumber request.direction (stepOf request) number)
      (headers ++ [header])) start (found ++ [(number, some header)]) := by
  obtain ⟨hnumber, hlength⟩ := htracks.current left number headers rfl
  have hheaders := WalkPhase.headers_loopHead left
    (nextNumber request.direction (stepOf request) number) (headers ++ [header])
  exact {
    resumes := fun lookup hlookup ↦ by
      obtain ⟨hfound, hlast⟩ := List.forall_mem_append.mp hlookup
      have hvalue : lookup number = some header := hlast _ List.mem_cons_self
      refine (htracks.resumes lookup hfound).trans ?_
      rw [hheaders, WalkPhase.rest_loopHead, WalkPhase.rest, walk_of_some _ hvalue, List.map_cons,
        List.append_assoc, List.singleton_append]
      rfl
    positions := by
      rw [hheaders]
      refine htracks.positions_concat (List.prefix_append headers [header]) ?_
      rw [← hlength, List.getElem?_concat_length]
    current := fun after other others hphase ↦ by
      obtain ⟨hother, rfl⟩ := eq_of_loopHead_eq_walking hphase
      rw [List.length_append, List.length_append, List.length_singleton, List.length_singleton,
        hlength, reach_add_one, hnumber]
      exact ⟨hother, rfl⟩
    headers_le := by
      rw [hheaders, List.length_append, List.length_append, hlength]
      exact Nat.le_refl _
    found_le := by
      rw [hheaders, List.length_append, List.length_append, hlength]
      exact Nat.le_succ _
    limit := by
      have hlimit := htracks.limit
      have hleft := WalkPhase.left_loopHead_le request.limit.toNat left
        (nextNumber request.direction (stepOf request) number) (headers ++ [header])
      rw [WalkPhase.left] at hlimit
      rw [List.length_append, List.length_singleton]
      omega }

/-- A lookup found nothing. -/
theorem Tracks.found_none (htracks : Tracks request (.walking left number headers) start found) :
    Tracks request (.resolved headers) start (found ++ [(number, none)]) := by
  obtain ⟨hnumber, hlength⟩ := htracks.current left number headers rfl
  exact {
    resumes := fun lookup hlookup ↦ by
      obtain ⟨hfound, hlast⟩ := List.forall_mem_append.mp hlookup
      have hvalue : lookup number = none := hlast _ List.mem_cons_self
      refine (htracks.resumes lookup hfound).trans ?_
      rw [WalkPhase.rest, walk_of_none _ hvalue]
      rfl
    positions := htracks.positions_concat (List.prefix_refl headers)
      (List.getElem?_eq_none (Nat.le_of_eq hlength))
    current := fun after other others hphase ↦ by cases hphase
    headers_le := by
      rw [List.length_append]
      exact Nat.le_trans (Nat.le_of_eq hlength) (Nat.le_add_right _ _)
    found_le := by
      rw [List.length_append]
      exact Nat.succ_le_succ (Nat.le_of_eq hlength.symm)
    limit := by
      have hlimit := htracks.limit
      rw [WalkPhase.left] at hlimit
      rw [List.length_append, List.length_singleton, WalkPhase.left]
      omega }

end Tracks

/-- One step continues the walk. -/
theorem Tracks.step {request : GetBlockHeaders} {state : ResolveState Rest Body}
    (htracks : Tracks request state.phase state.start state.found)
    (event : ResolveEvent Rest Body) :
    Tracks request (state.step request event).phase (state.step request event).start
      (state.step request event).found := by
  cases event with
  | newBlock event => exact htracks
  | lookup =>
    obtain ⟨blockImport, phase, start, found⟩ := state
    rw [ResolveState.step]
    cases phase with
    | starting hash => exact tracks_begin request _
    | walking left number headers =>
      cases hheader : blockImport.cache.headersByNumber.peek number with
      | none =>
        rw [lookup_walking_none hheader]
        exact htracks.found_none
      | some header =>
        rw [lookup_walking_some hheader]
        exact htracks.found_some header
    | resolved headers => exact htracks

/-- Whatever is interleaved, the resolver takes a walk. -/
theorem tracks_run (blockImport : CachingBlockImport Rest Body) (request : GetBlockHeaders)
    (events : List (ResolveEvent Rest Body)) :
    let state := run (ResolveState.step request) (.initial blockImport request) events
    Tracks request state.phase state.start state.found := by
  refine run_history (fun _ (state : ResolveState Rest Body) ↦
    Tracks request state.phase state.start state.found) ?_ (fun _ _ event htracks ↦
      htracks.step event) events
  unfold ResolveState.initial
  cases request.startBlock with
  | number number => exact tracks_begin request (some number)
  | hash hash => exact tracks_starting request hash

/-- Once the resolver is done, resolving at once in a cache in which the start block has the same
number gives the same headers exactly when the cache agrees with what the lookups found. -/
theorem Tracks.resolveHeaders_eq_iff {request : GetBlockHeaders} {headers : List (Header Rest)}
    {start : Option UInt64} {found : List (UInt64 × Option (Header Rest))}
    (htracks : Tracks request (.resolved headers) start found) {cache : BlockCache Rest Body}
    (hstart : startAt cache request.startBlock = start) :
    (resolveHeadersFromCache cache request).1 = headers ↔
      ∀ entry ∈ found, cache.headersByNumber.peek entry.1 = entry.2 := by
  subst hstart
  rw [resolveHeadersFromCache_fst]
  constructor
  · rintro hsame ⟨number, result⟩ hentry
    obtain ⟨position, hposition⟩ := List.mem_iff_getElem?.mp hentry
    obtain ⟨hreach, hheader⟩ := htracks.positions position _ hposition
    rw [WalkPhase.headers, ← hsame, List.getElem?_map] at hheader
    cases result with
    | some header =>
      obtain ⟨⟨other, value⟩, hvalue, rfl⟩ := Option.map_eq_some_iff.mp hheader
      obtain rfl : number = other :=
        Option.some.inj (hreach.symm.trans (reach_of_getElem?_walk hvalue))
      exact lookup_of_mem_walk (List.mem_of_getElem? hvalue)
    | none =>
      -- Only the last lookup can find nothing, so the walk over the cache ends here as well.
      have hshort : (cachedWalk cache request).length ≤ position :=
        List.getElem?_eq_none_iff.mp (Option.map_eq_none_iff.mp hheader)
      obtain ⟨hlast, -⟩ := List.getElem?_eq_some_iff.mp hposition
      have hfound : found.length ≤ headers.length + 1 := htracks.found_le
      have hlimit : found.length ≤ request.limit.toNat := htracks.limit
      rw [← hsame, List.length_map] at hfound
      obtain rfl : position = (cachedWalk cache request).length := by omega
      have hstop : (reach (nextNumber request.direction (stepOf request))
          (startAt cache request.startBlock) (cachedWalk cache request).length).bind
            cache.headersByNumber.peek = none :=
        stop_of_length_walk_lt (Nat.lt_of_lt_of_le hlast hlimit)
      rwa [hreach, Option.bind_some] at hstop
  · intro hfound
    exact (htracks.resumes _ hfound).trans (List.append_nil _)

/-! ### The moment of the last lookup -/

/-- The lookup of the start block, if any, is done. -/
def WalkPhase.hasStarted : WalkPhase Rest → Bool
  | starting _ => false
  | _ => true

/-- A step leaves what the resolver has read as it was: the number of the start block, once it has
been looked up, and what the lookups by number have found. A lookup always does. -/
def KeepsRead (request : GetBlockHeaders) (state : ResolveState Rest Body) :
    ResolveEvent Rest Body → Prop
  | .lookup => True
  | .newBlock event =>
    let cache := (state.blockImport.onNewBlock event).cache
    (state.phase.hasStarted →
        startAt cache request.startBlock = startAt state.cache request.startBlock) ∧
      ∀ entry ∈ state.found,
        cache.headersByNumber.peek entry.1 = state.cache.headersByNumber.peek entry.1

instance [DecidableEq Rest] (request : GetBlockHeaders) (state : ResolveState Rest Body) :
    ∀ event, Decidable (KeepsRead request state event)
  | .lookup => inferInstanceAs (Decidable True)
  | .newBlock _ => inferInstanceAs (Decidable ((_ → _) ∧ ∀ entry ∈ state.found, _))

/-- The cache still is as the resolver has read it. -/
structure Current (request : GetBlockHeaders) (state : ResolveState Rest Body) : Prop where
  unread : ∀ hash, state.phase = .starting hash → request.startBlock = .hash hash
  start : state.phase.hasStarted → startAt state.cache request.startBlock = state.start
  found : ∀ entry ∈ state.found, state.cache.headersByNumber.peek entry.1 = entry.2

theorem startAt_of_sameContents {first second : BlockCache Rest Body}
    (hsame : first.SameContents second) (startBlock : BlockHashOrNumber) :
    startAt second startBlock = startAt first startBlock := by
  cases startBlock with
  | number number => rfl
  | hash hash => rw [startAt, startAt, hsame.headersByHash.peek_eq]

theorem hasStarted_loopHead (left : ℕ) (current : Option UInt64) (headers : List (Header Rest)) :
    (WalkPhase.loopHead left current headers).hasStarted := by
  cases left with
  | zero => rfl
  | succ left => cases current <;> rfl

theorem ne_starting_of_hasStarted {phase : WalkPhase Rest} (hstarted : phase.hasStarted)
    (hash : B256) : phase ≠ .starting hash := by
  rintro rfl
  cases hstarted

/-- A lookup reads what the cache holds. -/
theorem Current.lookup {request : GetBlockHeaders} {state : ResolveState Rest Body}
    (hcurrent : Current request state) : Current request (state.lookup request) := by
  have hsame := sameContents_lookup request state
  have hstartAt := startAt_of_sameContents hsame request.startBlock
  have hpeek := hsame.headersByNumber.peek_eq
  obtain ⟨blockImport, phase, start, found⟩ := state
  cases phase with
  | starting hash =>
    have hblock := hcurrent.unread hash rfl
    have hstarted := hasStarted_loopHead request.limit.toNat
      ((blockImport.cache.headersByHash.peek hash).map Header.number) ([] : List (Header Rest))
    exact {
      unread := fun other hother ↦ absurd hother (ne_starting_of_hasStarted hstarted other)
      start := fun _ ↦ by
        rw [hstartAt, hblock]
        rfl
      found := fun entry hentry ↦ by cases hentry }
  | walking left number headers =>
    have hfound : ∀ entry ∈ found ++ [(number, blockImport.cache.headersByNumber.peek number)],
        blockImport.cache.headersByNumber.peek entry.1 = entry.2 := by
      refine List.forall_mem_append.mpr ⟨hcurrent.found, fun entry hentry ↦ ?_⟩
      rw [List.mem_singleton.mp hentry]
    cases hheader : blockImport.cache.headersByNumber.peek number with
    | none =>
      rw [lookup_walking_none hheader] at hstartAt hpeek ⊢
      exact {
        unread := fun other hother ↦ by cases hother
        start := fun _ ↦ hstartAt.trans (hcurrent.start rfl)
        found := by
          rw [← hpeek, ← hheader]
          exact hfound }
    | some header =>
      rw [lookup_walking_some hheader] at hstartAt hpeek ⊢
      have hstarted := hasStarted_loopHead left
        (nextNumber request.direction (stepOf request) number) (headers ++ [header])
      exact {
        unread := fun other hother ↦ absurd hother (ne_starting_of_hasStarted hstarted other)
        start := fun _ ↦ hstartAt.trans (hcurrent.start rfl)
        found := by
          rw [← hpeek, ← hheader]
          exact hfound }
  | resolved headers => exact hcurrent

theorem Current.step {request : GetBlockHeaders} {state : ResolveState Rest Body}
    (hcurrent : Current request state) {event : ResolveEvent Rest Body}
    (hkeeps : KeepsRead request state event) : Current request (state.step request event) := by
  cases event with
  | lookup => exact hcurrent.lookup
  | newBlock event =>
    exact {
      unread := hcurrent.unread
      start := fun hstarted ↦ (hkeeps.1 hstarted).trans (hcurrent.start hstarted)
      found := fun entry hentry ↦ (hkeeps.2 entry hentry).trans (hcurrent.found entry hentry) }

theorem current_initial (blockImport : CachingBlockImport Rest Body) (request : GetBlockHeaders) :
    Current request (.initial blockImport request) := by
  unfold ResolveState.initial
  cases hblock : request.startBlock with
  | number number =>
    have hstarted := hasStarted_loopHead request.limit.toNat (some number)
      ([] : List (Header Rest))
    exact {
      unread := fun other hother ↦ absurd hother (ne_starting_of_hasStarted hstarted other)
      start := fun _ ↦ by
        rw [hblock]
        rfl
      found := fun entry hentry ↦ by cases hentry }
  | hash hash =>
    exact {
      unread := fun other hother ↦ by
        obtain rfl := WalkPhase.starting.inj hother
        exact hblock
      start := fun hstarted ↦ by cases hstarted
      found := fun entry hentry ↦ by cases hentry }

/-- Which moments an answer reflects, in every interleaving. Assumes: a run that ends with the last
lookup of the resolver. In a cache in which the start block has the number that was found for it,
resolving at once gives the same answer exactly when the cache agrees with everything the lookups by
number found. This is so at the moment of the last lookup when no block that arrived before changed
what had been read. -/
theorem resolved_at_a_moment (blockImport : CachingBlockImport Rest Body)
    (request : GetBlockHeaders) (events : List (ResolveEvent Rest Body))
    (headers : List (Header Rest))
    (hresolved : (run (ResolveState.step request) (.initial blockImport request)
      (events ++ [.lookup])).phase = .resolved headers) :
    let step := ResolveState.step request
    let atLast := run step (.initial blockImport request) events
    let done := run step (.initial blockImport request) (events ++ [.lookup])
    (∀ cache : BlockCache Rest Body, startAt cache request.startBlock = done.start →
      ((resolveHeadersFromCache cache request).1 = headers ↔
        ∀ entry ∈ done.found, cache.headersByNumber.peek entry.1 = entry.2)) ∧
      (EachStep (KeepsRead request) step (.initial blockImport request) events →
        (resolveHeadersFromCache atLast.cache request).1 = headers) := by
  intro step atLast done
  have htracks : Tracks request done.phase done.start done.found := tracks_run _ _ _
  rw [hresolved] at htracks
  refine ⟨fun cache hstart ↦ htracks.resolveHeaders_eq_iff hstart, fun hkeeps ↦ ?_⟩
  have hcurrent : Current request atLast :=
    run_invariant (Current request) (fun _ _ hkeeps hcurrent ↦ hcurrent.step hkeeps)
      (current_initial blockImport request) hkeeps
  have hdone : done = atLast.lookup request := run_concat _ _ _ _
  have hlast : Current request done := hdone ▸ hcurrent.lookup
  have hsame : atLast.cache.SameContents done.cache := hdone ▸ sameContents_lookup request atLast
  have hstarted : done.phase.hasStarted := by
    rw [hresolved]
    rfl
  refine (htracks.resolveHeaders_eq_iff ?_).mpr fun entry hentry ↦ ?_
  · rw [← startAt_of_sameContents hsame]
    exact hlast.start hstarted
  · rw [hsame.headersByNumber.peek_eq]
    exact hlast.found entry hentry

/-- A block of the next number arrives between two lookups, and is part of the answer. -/
theorem resolved_beside_a_new_block :
    let cache : BlockCache UInt8 Unit :=
      (BlockCache.new 4).insert (.repeatByte 1) ⟨.repeatByte 0, 5, 60, 1⟩ ()
    let events : List (ResolveEvent UInt8 Unit) :=
      [.lookup, .newBlock (.block ⟨.repeatByte 2, ⟨⟨.repeatByte 1, 6, 72, 2⟩, ()⟩⟩)]
    let request : GetBlockHeaders := ⟨.number 5, 2, 0, .rising⟩
    let atLast := run (ResolveState.step request) (.initial ⟨cache, []⟩ request) events
    (resolveHeadersFromCache atLast.cache request).1 =
      [⟨.repeatByte 0, 5, 60, 1⟩, ⟨.repeatByte 1, 6, 72, 2⟩] := by
  intro cache events request atLast
  have hresolved := resolved_at_a_moment ⟨cache, []⟩ request events
    [⟨.repeatByte 0, 5, 60, 1⟩, ⟨.repeatByte 1, 6, 72, 2⟩] (by rfl)
  exact hresolved.2 (by decide)

/-- Both blocks of another branch arrive between two lookups, in a cache that evicts nothing: the
answer is the lower block of the one branch and the upper block of the other, which the cache never
had side by side. -/
theorem resolved_from_two_branches :
    let cache : BlockCache UInt8 Unit :=
      ((BlockCache.new 4).insert (.repeatByte 1) ⟨.repeatByte 0, 5, 60, 1⟩ ()).insert
        (.repeatByte 2) ⟨.repeatByte 1, 6, 72, 2⟩ ()
    let events : List (ResolveEvent UInt8 Unit) :=
      [.lookup, .newBlock (.block ⟨.repeatByte 3, ⟨⟨.repeatByte 0, 5, 61, 3⟩, ()⟩⟩),
        .newBlock (.block ⟨.repeatByte 4, ⟨⟨.repeatByte 3, 6, 73, 4⟩, ()⟩⟩), .lookup]
    let request : GetBlockHeaders := ⟨.number 5, 2, 0, .rising⟩
    let after (before : List (ResolveEvent UInt8 Unit)) : ResolveState UInt8 Unit :=
      run (ResolveState.step request) (.initial ⟨cache, []⟩ request) before
    ∃ headers, (after events).phase = .resolved headers ∧
      (after events).cache.headersByHash.keys.length = 4 ∧
      ∀ before ∈ events.inits,
        (resolveHeadersFromCache (after before).cache request).1 ≠ headers := by
  intro cache events request after
  refine ⟨[⟨.repeatByte 0, 5, 60, 1⟩, ⟨.repeatByte 3, 6, 73, 4⟩], by rfl, by decide, by decide⟩

end SentryNode.EthProxy
