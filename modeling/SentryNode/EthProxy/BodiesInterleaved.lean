import SentryNode.BlockImport
import SentryNode.EthProxy.BodiesMerge
import SentryNode.Library.Run

/-!
# Serving block bodies while blocks arrive

The handler of a bodies request takes the lock of the cache once for every lookup and every
insertion, and it suspends in the fetch. In between, the network task may cache new blocks. `Phase`
is what the handler holds between two accesses, `step` takes one access of the handler or one
announcement, and a run is any list of them: every interleaving.
-/

set_option autoImplicit false
set_option relaxedAutoImplicit false

namespace SentryNode.EthProxy

open Library

variable {Rest Body : Type*}

/-! ### The machine -/

/-- Where the handler of a request is, with its local values. `rest` are the requested hashes the
loop has not reached, and `asked` the hashes put to the peer. -/
inductive Phase (Body : Type*)
  | resolving (bodies : List Body) (rest : List B256)
  | collecting (bodies : List Body) (missing rest : List B256)
  | fetching (bodies : List Body) (missing : List B256)
  | merging (asked : List B256) (fetchIter allBodies : List Body) (rest : List B256)
  | storing (asked : List B256) (hash : B256) (body : Body) (fetchIter allBodies : List Body)
      (rest : List B256)
  | replied (response : List Body)

/-- The cache and the block import that share it with the handler of one request. -/
structure ServeState (Rest Body : Type*) where
  blockImport : CachingBlockImport Rest Body
  phase : Phase Body

namespace ServeState

/-- The shared cache. -/
def cache (state : ServeState Rest Body) : BlockCache Rest Body := state.blockImport.cache

/-- The state after an access of the handler that leaves the cache as given. -/
def withCache (state : ServeState Rest Body) (cache : BlockCache Rest Body) (phase : Phase Body) :
    ServeState Rest Body :=
  { blockImport := { state.blockImport with cache }, phase }

/-- The handler before its first access. -/
def start (blockImport : CachingBlockImport Rest Body) (request : List B256) :
    ServeState Rest Body :=
  { blockImport, phase := .resolving [] request }

@[simp] theorem phase_withCache (state : ServeState Rest Body) (cache : BlockCache Rest Body)
    (phase : Phase Body) : (state.withCache cache phase).phase = phase := rfl

end ServeState

/-- The next access of the handler, or the next decision between two accesses. -/
def handlerStep (peer : List B256 → Option (List Body)) (request : List B256)
    (state : ServeState Rest Body) : ServeState Rest Body :=
  match state.phase with
  | .resolving bodies (hash :: rest) =>
    let (bodies, cache) := resolveBodiesStep (bodies, state.cache) hash
    state.withCache cache (.resolving bodies rest)
  | .resolving bodies [] =>
    if bodies.length = request.length ∧ 0 < request.length then
      { state with phase := .replied bodies }
    else { state with phase := .collecting bodies [] request }
  | .collecting bodies missing (hash :: rest) =>
    let (missing, cache) := missingHashesStep (missing, state.cache) hash
    state.withCache cache (.collecting bodies missing rest)
  | .collecting bodies missing [] =>
    if missing = [] then { state with phase := .replied bodies }
    else { state with phase := .fetching bodies missing }
  | .fetching bodies missing =>
    match peer missing with
    | some fetchedBodies => { state with phase := .merging missing fetchedBodies [] request }
    | none => { state with phase := .replied bodies }
  | .merging asked fetchIter allBodies (hash :: rest) =>
    match state.cache.getBodyByHash hash with
    | (some body, cache) =>
      state.withCache cache (.merging asked fetchIter (allBodies ++ [body]) rest)
    | (none, cache) =>
      match fetchIter with
      | body :: fetchIter =>
        state.withCache cache (.storing asked hash body fetchIter allBodies rest)
      | [] => state.withCache cache (.merging asked [] allBodies rest)
  | .merging _ _ allBodies [] => { state with phase := .replied allBodies }
  | .storing asked hash body fetchIter allBodies rest =>
    state.withCache (state.cache.insertBody hash body)
      (.merging asked fetchIter (allBodies ++ [body]) rest)
  | .replied _ => state

/-- What can happen next: an access of the handler, or an announcement. -/
inductive ServeEvent (Rest Body : Type*)
  | handler
  | newBlock (event : NewBlockEvent Rest Body)

/-- An access of the handler. -/
def ServeEvent.isHandler : ServeEvent Rest Body → Bool
  | .handler => true
  | .newBlock _ => false

/-- One step of the machine. -/
def step (peer : List B256 → Option (List Body)) (request : List B256)
    (state : ServeState Rest Body) : ServeEvent Rest Body → ServeState Rest Body
  | .handler => handlerStep peer request state
  | .newBlock event => { state with blockImport := state.blockImport.onNewBlock event }

/-! ### The accesses -/

section Accesses

variable {peer : List B256 → Option (List Body)} {request : List B256}
  {blockImport : CachingBlockImport Rest Body} {hash : B256} {rest : List B256}

/-- The block import after a lookup of a body. -/
def lookedUp (blockImport : CachingBlockImport Rest Body) (hash : B256) :
    CachingBlockImport Rest Body :=
  { blockImport with cache := promoteBodies blockImport.cache [hash] }

/-- A lookup of the first pass. -/
theorem handlerStep_resolving {bodies : List Body} :
    handlerStep peer request ⟨blockImport, .resolving bodies (hash :: rest)⟩ =
      ⟨lookedUp blockImport hash,
        .resolving (bodies ++ (blockImport.cache.bodiesByHash.peek hash).toList) rest⟩ := by
  simp only [handlerStep, resolveBodiesStep_eq]
  rfl

/-- A lookup of the second pass. -/
theorem handlerStep_collecting {bodies : List Body} {missing : List B256} :
    handlerStep peer request ⟨blockImport, .collecting bodies missing (hash :: rest)⟩ =
      ⟨lookedUp blockImport hash, .collecting bodies
        (missing ++ [hash].filter (· ∉ blockImport.cache.bodiesByHash.keys)) rest⟩ := by
  simp only [handlerStep, missingHashesStep_eq]
  rfl

variable {asked : List B256} {fetchIter allBodies : List Body}

/-- A lookup of the merge that finds a body. -/
theorem handlerStep_merging_cached {body : Body}
    (hbody : blockImport.cache.bodiesByHash.peek hash = some body) :
    handlerStep peer request ⟨blockImport, .merging asked fetchIter allBodies (hash :: rest)⟩ =
      ⟨lookedUp blockImport hash, .merging asked fetchIter (allBodies ++ [body]) rest⟩ := by
  simp only [handlerStep, ServeState.cache, BlockCache.getBodyByHash, LruCache.get, hbody]
  rfl

/-- A lookup of the merge that finds nothing, with a fetched body left. -/
theorem handlerStep_merging_fetched {body : Body}
    (hbody : blockImport.cache.bodiesByHash.peek hash = none) :
    handlerStep peer request
        ⟨blockImport, .merging asked (body :: fetchIter) allBodies (hash :: rest)⟩ =
      ⟨blockImport, .storing asked hash body fetchIter allBodies rest⟩ := by
  have hkeys := LruCache.promote_of_not_mem (LruCache.peek_eq_none_iff.mp hbody)
  simp only [handlerStep, ServeState.cache, BlockCache.getBodyByHash, LruCache.get, hbody, hkeys]
  rfl

/-- A lookup of the merge that finds nothing, with no fetched body left. -/
theorem handlerStep_merging_exhausted
    (hbody : blockImport.cache.bodiesByHash.peek hash = none) :
    handlerStep peer request ⟨blockImport, .merging asked [] allBodies (hash :: rest)⟩ =
      ⟨blockImport, .merging asked [] allBodies rest⟩ := by
  have hkeys := LruCache.promote_of_not_mem (LruCache.peek_eq_none_iff.mp hbody)
  simp only [handlerStep, ServeState.cache, BlockCache.getBodyByHash, LruCache.get, hbody, hkeys]
  rfl

end Accesses

/-! ### Runs without announcements -/

section Alone

variable {peer : List B256 → Option (List Body)} {request : List B256}

/-- The state after some accesses of the handler alone. -/
def RunsTo (peer : List B256 → Option (List Body)) (request : List B256)
    (first last : ServeState Rest Body) : Prop :=
  ∃ accesses, run (step peer request) first (List.replicate accesses .handler) = last

theorem RunsTo.refl (state : ServeState Rest Body) : RunsTo peer request state state := ⟨0, rfl⟩

theorem RunsTo.head {first last : ServeState Rest Body}
    (hrest : RunsTo peer request (handlerStep peer request first) last) :
    RunsTo peer request first last := by
  obtain ⟨accesses, hrun⟩ := hrest
  exact ⟨accesses + 1, hrun⟩

theorem RunsTo.trans {first middle last : ServeState Rest Body}
    (hfirst : RunsTo peer request first middle) (hlast : RunsTo peer request middle last) :
    RunsTo peer request first last := by
  obtain ⟨before, rfl⟩ := hfirst
  obtain ⟨after, rfl⟩ := hlast
  refine ⟨before + after, ?_⟩
  rw [List.replicate_add, run_append]

/-- The accesses of the first pass compute its loop. -/
theorem runsTo_resolving (state : ServeState Rest Body) (bodies : List Body) (rest : List B256) :
    RunsTo peer request (state.withCache state.cache (.resolving bodies rest))
      (state.withCache (rest.foldl resolveBodiesStep (bodies, state.cache)).2
        (.resolving (rest.foldl resolveBodiesStep (bodies, state.cache)).1 [])) := by
  induction rest generalizing state bodies with
  | nil => exact RunsTo.refl _
  | cons hash rest ih =>
    refine RunsTo.head ?_
    exact ih (state.withCache (resolveBodiesStep (bodies, state.cache) hash).2 state.phase)
      (resolveBodiesStep (bodies, state.cache) hash).1

/-- The accesses of the second pass compute its filter. -/
theorem runsTo_collecting (state : ServeState Rest Body) (bodies : List Body)
    (missing rest : List B256) :
    RunsTo peer request (state.withCache state.cache (.collecting bodies missing rest))
      (state.withCache (rest.foldl missingHashesStep (missing, state.cache)).2
        (.collecting bodies (rest.foldl missingHashesStep (missing, state.cache)).1 [])) := by
  induction rest generalizing state missing with
  | nil => exact RunsTo.refl _
  | cons hash rest ih =>
    refine RunsTo.head ?_
    exact ih (state.withCache (missingHashesStep (missing, state.cache) hash).2 state.phase)
      (missingHashesStep (missing, state.cache) hash).1

/-- The accesses of the merge compute its loop: one for a cached hash, two for a fetched one. -/
theorem runsTo_merging (state : ServeState Rest Body) (asked : List B256)
    (merge : MergeState Rest Body) (rest : List B256) :
    RunsTo peer request
      (state.withCache merge.cache (.merging asked merge.fetchIter merge.allBodies rest))
      (state.withCache (rest.foldl mergeStep merge).cache
        (.merging asked (rest.foldl mergeStep merge).fetchIter
          (rest.foldl mergeStep merge).allBodies [])) := by
  induction rest generalizing merge with
  | nil => exact RunsTo.refl _
  | cons hash rest ih =>
    have hrest := ih (mergeStep merge hash)
    rw [List.foldl_cons]
    refine RunsTo.head ?_
    cases hbody : merge.cache.bodiesByHash.peek hash with
    | some body =>
      rw [mergeStep_of_cached hbody] at hrest ⊢
      rwa [ServeState.withCache, handlerStep_merging_cached hbody]
    | none =>
      obtain ⟨cache, fetchIter, allBodies⟩ := merge
      cases fetchIter with
      | nil =>
        rw [mergeStep_of_exhausted hbody rfl] at hrest ⊢
        rwa [ServeState.withCache, handlerStep_merging_exhausted hbody]
      | cons body fetchIter =>
        refine RunsTo.head ?_
        rw [mergeStep_of_fetched hbody rfl] at hrest ⊢
        rwa [ServeState.withCache, handlerStep_merging_fetched hbody]

/-- Without announcements the machine computes `getBlockBodies`. -/
theorem runsTo_getBlockBodies (peer : List B256 → Option (List Body))
    (blockImport : CachingBlockImport Rest Body) (request : List B256) :
    RunsTo peer request (.start blockImport request)
      ((ServeState.start blockImport request).withCache
        (getBlockBodies peer blockImport.cache request).cache
        (.replied (getBlockBodies peer blockImport.cache request).response)) := by
  let state : ServeState Rest Body := .start blockImport request
  obtain ⟨bodies, resolved, hresolve⟩ : ∃ bodies resolved,
      resolveBodiesFromCache blockImport.cache request = (bodies, resolved) := ⟨_, _, rfl⟩
  obtain ⟨missing, collected, hmissing⟩ : ∃ missing collected,
      missingHashes resolved request = (missing, collected) := ⟨_, _, rfl⟩
  have hfirst : RunsTo peer request state (state.withCache resolved (.resolving bodies [])) := by
    have hpass : RunsTo peer request state _ := runsTo_resolving state [] request
    rwa [show request.foldl resolveBodiesStep ([], state.cache) = (bodies, resolved) from
      hresolve] at hpass
  refine hfirst.trans (RunsTo.head ?_)
  by_cases hfull : bodies.length = request.length ∧ 0 < request.length
  · simp only [getBlockBodies, beginBodies, hresolve, if_pos hfull, handlerStep,
      ServeState.phase_withCache]
    exact RunsTo.refl _
  have hsecond : RunsTo peer request (state.withCache resolved (.collecting bodies [] request))
      (state.withCache collected (.collecting bodies missing [])) := by
    have hpass : RunsTo peer request (state.withCache resolved (.collecting bodies [] request)) _ :=
      runsTo_collecting (state.withCache resolved state.phase) bodies [] request
    rwa [show request.foldl missingHashesStep ([], (state.withCache resolved state.phase).cache) =
      (missing, collected) from hmissing] at hpass
  simp only [handlerStep, ServeState.phase_withCache, if_neg hfull]
  refine hsecond.trans (RunsTo.head ?_)
  simp only [getBlockBodies, beginBodies, hresolve, if_neg hfull, hmissing, handlerStep,
    ServeState.phase_withCache]
  by_cases hnone : missing = []
  · simp only [if_pos hnone]
    exact RunsTo.refl _
  simp only [if_neg hnone]
  refine RunsTo.head ?_
  cases hpeer : peer missing with
  | none =>
    simp only [handlerStep, hpeer, finishBodies]
    exact RunsTo.refl _
  | some fetchedBodies =>
    simp only [handlerStep, hpeer, finishBodies]
    exact (runsTo_merging state missing (.start collected fetchedBodies) request).trans
      (RunsTo.head (RunsTo.refl _))

end Alone

end SentryNode.EthProxy
