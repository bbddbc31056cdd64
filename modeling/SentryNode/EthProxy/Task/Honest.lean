import SentryNode.EthProxy.BodiesFitting
import SentryNode.EthProxy.HeadersCached
import SentryNode.EthProxy.HeadersProxy
import SentryNode.EthProxy.HeadersProgression
import SentryNode.EthProxy.Task.Members
import SentryNode.EthProxy.Task.Serial

/-!
# The request handler among honest peers

Two statements about whole runs in which nobody lies. When every announced block is on one chain and
every peer answers from it, the headers of a reply are the beginning of what the protocol defines,
in every interleaving, unless a peer was asked for headers with a skip and sent more than one
(`task_honest_headers`). When every announced block has the body of its hash, every peer sends the
beginning of the bodies it is asked for, and the body requests are free of duplicates and fit the
cache, the bodies of a reply are those of hashes of the request, in its order, as long as blocks
arrive between the requests (`task_honest_bodies`).
-/

set_option autoImplicit false
set_option relaxedAutoImplicit false

namespace SentryNode.EthProxy

open Library

variable {Rest Body : Type*}

/-! ### Runs whose sources are known beforehand -/

/-- What the answers of a peer can be. -/
structure FetchClient.From (sources : Sources Rest Body) (fetchClient : FetchClient Rest Body) :
    Prop where
  headers : ∀ request fetched, fetchClient.getHeaders (proxyRequest request) = some fetched →
    (request, fetched) ∈ sources.headers
  bodies : ∀ request missing fetched, fetchClient.getBlockBodies missing = some fetched →
    (request, fetched) ∈ sources.bodies

/-- What an event can bring in, now or later. -/
def TaskEvent.From (sources : Sources Rest Body) : TaskEvent Rest Body → Prop
  | .newBlock (.block msg) => msg ∈ sources.blocks
  | .incoming event => event.fetchClient.From sources
  | _ => True

section From

variable {hashSlow : Header Rest → B256} {sources : Sources Rest Body} {capacity : ℕ}

theorem Serving.fetched_within {fetchClient : FetchClient Rest Body}
    (hclient : fetchClient.From sources) (serving : Serving Rest Body) :
    (serving.fetched fetchClient).Within sources := by
  unfold Serving.fetched
  split
  · refine ⟨Set.empty_subset _, ?_, Set.empty_subset _⟩
    rintro ⟨request, fetched⟩ ⟨rfl, hanswer⟩
    exact hclient.headers request fetched hanswer
  · exact ⟨Set.empty_subset _, Set.empty_subset _, fun answer hanswer ↦
      hclient.bodies answer.1 _ answer.2 hanswer.2⟩
  · exact ⟨Set.empty_subset _, Set.empty_subset _, Set.empty_subset _⟩

namespace TaskState

/-- The peers that were or will be asked. -/
structure ClientsFrom (sources : Sources Rest Body) (state : TaskState Rest Body) : Prop where
  accepted : ∀ event ∈ state.accepted, event.fetchClient.From sources
  current : ∀ served ∈ state.current, served.2.From sources

theorem ClientsFrom.turn (state : TaskState Rest Body)
    (haccepted : ∀ event ∈ state.accepted, event.fetchClient.From sources)
    {fetchClient : FetchClient Rest Body} (hclient : fetchClient.From sources)
    (outcome : Turn Rest Body) : (state.turn fetchClient outcome).ClientsFrom sources := by
  cases outcome with
  | serving now =>
    refine ⟨haccepted, ?_⟩
    rintro _ ⟨⟩
    exact hclient
  | replied reply => exact ⟨haccepted, fun _ hserved ↦ (nomatch hserved)⟩

theorem ClientsFrom.step (hashSlow : Header Rest → B256) {state : TaskState Rest Body}
    (hstate : state.ClientsFrom sources) {event : TaskEvent Rest Body}
    (hevent : event.From sources) : (state.step hashSlow event).ClientsFrom sources := by
  cases event with
  | newBlock event => exact ⟨hstate.accepted, hstate.current⟩
  | incoming event =>
    simp only [TaskState.step]
    split_ifs
    · refine ⟨fun other hother ↦ ?_, hstate.current⟩
      rcases List.mem_append.mp hother with hbefore | hlast
      · exact hstate.accepted other hbefore
      · rw [List.mem_singleton.mp hlast]
        exact hevent
    · exact hstate
  | advance =>
    simp only [TaskState.step]
    split
    next serving fetchClient hcurrent =>
      exact turn { state with blockImport := (serving.advance hashSlow state.blockImport).1 }
        hstate.accepted (hstate.current _ hcurrent) _
    next =>
      split
      next event hnext =>
        exact turn { state with taken := state.taken + 1 } hstate.accepted
          (hstate.accepted event (List.mem_of_getElem? hnext)) _
      next => exact hstate
  | answer =>
    simp only [TaskState.step]
    split
    next serving fetchClient hcurrent =>
      exact turn state hstate.accepted (hstate.current _ hcurrent) _
    next => exact hstate

theorem ClientsFrom.brings_within {state : TaskState Rest Body}
    (hstate : state.ClientsFrom sources) {event : TaskEvent Rest Body}
    (hevent : event.From sources) : (state.brings event).Within sources := by
  have hnothing : ({ blocks := ∅, headers := ∅, bodies := ∅ } : Sources Rest Body).Within sources :=
    ⟨Set.empty_subset _, Set.empty_subset _, Set.empty_subset _⟩
  unfold brings
  split
  next msg =>
    exact ⟨Set.singleton_subset_iff.mpr hevent, Set.empty_subset _, Set.empty_subset _⟩
  next =>
    split
    next serving fetchClient hcurrent =>
      exact serving.fetched_within (hstate.current _ hcurrent)
    next => exact hnothing
  next => exact hnothing

theorem keeps_of_from (hashSlow : Header Rest → B256) (capacity : ℕ)
    {events : List (TaskEvent Rest Body)} (hevents : ∀ event ∈ events, event.From sources) :
    (run (TaskState.step hashSlow) (.initial { cache := .new capacity, rebroadcastTx := [] })
      events).Keeps hashSlow sources capacity := by
  refine (run_invariant (fun state : TaskState Rest Body ↦
    state.Keeps hashSlow sources capacity ∧ state.ClientsFrom sources)
    (fun state event hevent hstate ↦ ?_) ⟨?_, ?_⟩ (eachStep_of_forall hevents)).1
  · exact ⟨hstate.1.step (hstate.2.brings_within hevent), hstate.2.step hashSlow hevent⟩
  · exact ⟨.new _ capacity, fun _ hserved ↦ (nomatch hserved), List.forall_mem_nil _⟩
  · exact ⟨List.forall_mem_nil _, fun _ hserved ↦ (nomatch hserved)⟩

end TaskState

end From

/-! ### Headers of one chain -/

/-- Blocks of the chain, announced under their hashes, and consecutive headers of it. -/
def Chain.sources (hashSlow : Header Rest → B256) (chain : Chain Rest) : Sources Rest Body where
  blocks := { msg | msg.block.header ∈ chain.headers ∧ msg.hash = hashSlow msg.block.header }
  headers := { answer | answer.2 <+:
    chain.answer hashSlow answer.1.startBlock answer.1.limit answer.1.direction 1 }
  bodies := Set.univ

/-- An announced block is on the chain, and the peers answer from it. -/
def TaskEvent.OnChain (hashSlow : Header Rest → B256) (chain : Chain Rest) :
    TaskEvent Rest Body → Prop
  | .newBlock (.block msg) =>
    msg.block.header ∈ chain.headers ∧ msg.hash = hashSlow msg.block.header
  | .incoming event => HonestPeer hashSlow chain event.fetchClient.getHeaders
  | _ => True

section Headers

variable {hashSlow : Header Rest → B256} {chain : Chain Rest} {request : GetBlockHeaders}

theorem TaskEvent.OnChain.from {event : TaskEvent Rest Body}
    (hevent : event.OnChain hashSlow chain) : event.From (chain.sources hashSlow) := by
  cases event with
  | newBlock event =>
    cases event with
    | block msg => exact hevent
    | hashes hashes => trivial
  | incoming event =>
    exact ⟨fun request fetched hanswer ↦ hevent _ fetched hanswer, fun _ _ _ _ ↦ trivial⟩
  | advance => trivial
  | answer => trivial

theorem Chain.mem_of_mem_answer {start : BlockHashOrNumber} {limit : UInt64}
    {direction : HeadersDirection} {stride : ℕ} {header : Header Rest}
    (hheader : header ∈ chain.answer hashSlow start limit direction stride) :
    header ∈ chain.headers := by
  obtain ⟨entry, hentry, rfl⟩ := List.mem_map.mp hheader
  exact List.mem_of_getElem? (lookup_of_mem_walk hentry)

/-- The members are the headers of the chain, under their hashes. -/
theorem Chain.mem_of_sources {hash : B256} {header : Header Rest}
    (hmem : (hash, header) ∈
      ((chain.sources hashSlow : Sources Rest Body).collection hashSlow).headers) :
    header ∈ chain.headers ∧ hash = hashSlow header := by
  rcases hmem with ⟨msg, hmsg, hentry⟩ | ⟨answer, hanswer, hheader, hhash⟩
  · obtain ⟨rfl, rfl⟩ := Prod.mk.inj hentry
    exact hmsg
  · exact ⟨Chain.mem_of_mem_answer (hanswer.subset hheader), hhash⟩

theorem Chain.getElem?_number {header : Header Rest} (hheader : header ∈ chain.headers) :
    chain.headers[header.number.toNat]? = some header := by
  obtain ⟨position, hposition, rfl⟩ := List.getElem_of_mem hheader
  rw [chain.number_eq position hposition, List.getElem?_eq_getElem hposition]

theorem Chain.find?_hash (hdistinct : Set.InjOn hashSlow { header | header ∈ chain.headers })
    {header : Header Rest} (hheader : header ∈ chain.headers) :
    chain.headers.find? (hashSlow · = hashSlow header) = some header := by
  cases hfind : chain.headers.find? (hashSlow · = hashSlow header) with
  | none => simpa using List.find?_eq_none.mp hfind header hheader
  | some other =>
    have hsame : other = header :=
      hdistinct (List.mem_of_find?_eq_some hfind) hheader (by simpa using List.find?_some hfind)
    rw [hsame]

theorem Chain.numberOf_hash (hdistinct : Set.InjOn hashSlow { header | header ∈ chain.headers })
    {header : Header Rest} (hheader : header ∈ chain.headers) :
    chain.numberOf hashSlow (.hash (hashSlow header)) = some header.number.toNat := by
  rw [numberOf, Chain.find?_hash hdistinct hheader]
  rfl

/-- A checked step is a stride on the chain. -/
theorem nextOf_of_nextNumber {first second : UInt64}
    (hnext : nextNumber request.direction (stepOf request) first = some second) :
    Chain.nextOf request.direction (request.skip.toNat + 1) first.toNat = some second.toNat := by
  have hstep := toNat_stepOf request
  cases hdirection : request.direction with
  | rising =>
    rw [hdirection] at hnext
    have hsum := checkedAdd_eq_some_iff.mp hnext
    rw [Chain.nextOf, hsum, hstep]
  | falling =>
    rw [hdirection] at hnext
    have hdifference := checkedSub_eq_some_iff.mp hnext
    rw [Chain.nextOf, if_pos (by omega), Option.some_inj]
    omega

/-- Headers of the chain that begin at the start of a request, go on in its steps and are no more
than its limit are the beginning of its answer. -/
theorem prefix_protocolAnswer {headers : List (Header Rest)}
    (hchain : ∀ header ∈ headers, header ∈ chain.headers)
    (hstart : ∀ first, headers.head? = some first →
      chain.numberOf hashSlow request.startBlock = some first.number.toNat)
    (hsteps : headers.IsChain fun first second ↦
      nextNumber request.direction (stepOf request) first.number = some second.number)
    (hlength : headers.length ≤ request.limit.toNat) :
    headers <+: protocolAnswer hashSlow chain request := by
  have hwalk : headers.map (fun header ↦ (header.number.toNat, header)) <+:
      walk (Chain.nextOf request.direction (request.skip.toNat + 1)) (chain.headers[·]?)
        request.limit.toNat (chain.numberOf hashSlow request.startBlock) := by
    refine prefix_walk_of_isChain (fun entry hentry ↦ ?_) ?_ ?_ ?_
    · rw [List.head?_map, Option.map_eq_some_iff] at hentry
      obtain ⟨first, hfirst, rfl⟩ := hentry
      exact hstart first hfirst
    · rw [List.isChain_map]
      exact hsteps.imp fun _ _ hnext ↦ nextOf_of_nextNumber hnext
    · rw [List.forall_mem_map]
      exact fun header hheader ↦ Chain.getElem?_number (hchain header hheader)
    · rwa [List.length_map]
  have hmap := hwalk.map Prod.snd
  rwa [List.map_map, show (Prod.snd ∘ fun header : Header Rest ↦ (header.number.toNat, header)) = id
    from rfl, List.map_id] at hmap

/-- Consecutive headers are the beginning of an answer when there is no skip to show. -/
theorem initial_protocolAnswer_iff {headers : List (Header Rest)}
    (hconsecutive : headers <+:
      chain.answer hashSlow request.startBlock request.limit request.direction 1) :
    headers <+: protocolAnswer hashSlow chain request ↔
      request.skip = 0 ∨ headers.length ≤ 1 := by
  have hskip : request.skip.toNat + 1 = 1 ↔ request.skip = 0 := by
    rw [Nat.add_eq_right, ← UInt32.toNat_inj]
    rfl
  rw [protocolAnswer, Chain.initial_answer_iff hconsecutive, hskip]

/-- What follows a request on one chain. Assumes: no two headers of the chain have the same hash. -/
theorem Follows.prefix_protocolAnswer {headers : List (Header Rest)}
    (hdistinct : Set.InjOn hashSlow { header | header ∈ chain.headers })
    (hfollows : Follows ((chain.sources hashSlow : Sources Rest Body).collection hashSlow) request
      headers) : headers <+: protocolAnswer hashSlow chain request := by
  refine EthProxy.prefix_protocolAnswer (fun header hheader ↦ ?_) (fun first hfirst ↦ ?_)
    hfollows.steps hfollows.length_le
  · exact (Chain.mem_of_sources (hfollows.members header hheader).choose_spec).1
  · have hstart := hfollows.starts first hfirst
    cases hblock : request.startBlock with
    | number number =>
      rw [hblock] at hstart
      exact congrArg (some ∘ UInt64.toNat) hstart.symm
    | hash hash =>
      rw [hblock] at hstart
      obtain ⟨header, hmem, hnumber⟩ := hstart
      obtain ⟨hheader, rfl⟩ := Chain.mem_of_sources hmem
      rw [Chain.numberOf_hash hdistinct hheader, hnumber]

/-- Among honest peers, headers are wrong in one way only. Assumes: no two headers of the chain have
the same hash, every announced block is on it, and every peer answers with consecutive headers of
it. In every run of the handler, with blocks arriving at any moment, the headers of a reply are the
beginning of the answer that the protocol defines, except when a peer was asked for them, the
request has a skip and more than one came back. -/
theorem task_honest_headers (hashSlow : Header Rest → B256) (chain : Chain Rest) (capacity : ℕ)
    (events : List (TaskEvent Rest Body))
    (hdistinct : Set.InjOn hashSlow { header | header ∈ chain.headers })
    (hevents : ∀ event ∈ events, event.OnChain hashSlow chain) :
    let state := run (TaskState.step hashSlow)
      (.initial { cache := .new capacity, rebroadcastTx := [] }) events
    ∀ reply ∈ state.replies, ∀ request, reply.request = .getBlockHeaders request →
      ∃ headers, reply.response = some (.blockHeaders headers) ∧
        (headers <+: protocolAnswer hashSlow chain request ↔
          (reply.askedPeer → request.skip = 0 ∨ headers.length ≤ 1)) := by
  intro state reply hreply request hrequest
  have hkeeps : state.Keeps hashSlow (chain.sources hashSlow) capacity :=
    TaskState.keeps_of_from hashSlow capacity fun event hevent ↦ (hevents event hevent).from
  have hmade := hkeeps.replies reply hreply
  simp only [Reply.MadeOf, hrequest] at hmade
  obtain ⟨headers, hresponse, hheaders⟩ := hmade
  refine ⟨headers, hresponse, ?_⟩
  split_ifs at hheaders with hasked
  · have hconsecutive : headers <+:
        chain.answer hashSlow request.startBlock request.limit request.direction 1 := by
      rcases hheaders with rfl | hfetched
      · exact List.nil_prefix
      · exact hfetched
    rw [initial_protocolAnswer_iff hconsecutive]
    simp only [hasked, forall_const]
  · exact iff_of_true (hheaders.2.prefix_protocolAnswer hdistinct) fun h ↦ absurd h hasked

/-- The middle one of three headers is announced, and the last two are requested. -/
theorem task_honest_headers_of_one :
    let hashOf : Header UInt8 → B256 := fun header ↦ .repeatByte header.rest
    let client : FetchClient UInt8 UInt8 := ⟨consecutivePeer hashOf threeHeaders, fun _ ↦ none⟩
    let events : List (TaskEvent UInt8 UInt8) :=
      [.newBlock (.block ⟨.repeatByte 1, ⟨⟨.repeatByte 0, 1, 12, 1⟩, 7⟩⟩),
        .incoming ⟨.getBlockHeaders ⟨.number 1, 2, 0, .rising⟩, client⟩] ++
      List.replicate 4 .advance
    let state := run (TaskState.step hashOf)
      (.initial { cache := .new 4, rebroadcastTx := [] }) events
    state.replies.map Reply.response = [some (.blockHeaders [⟨.repeatByte 0, 1, 12, 1⟩])] ∧
      ∀ reply ∈ state.replies, ∀ request, reply.request = .getBlockHeaders request →
        ∃ headers, reply.response = some (.blockHeaders headers) ∧
          (headers <+: protocolAnswer hashOf threeHeaders request ↔
            (reply.askedPeer → request.skip = 0 ∨ headers.length ≤ 1)) := by
  intro hashOf client events state
  have hdistinct : ∀ first ∈ threeHeaders.headers, ∀ second ∈ threeHeaders.headers,
      hashOf first = hashOf second → first = second := by decide
  have hevents : ∀ event ∈ events, event.OnChain hashOf threeHeaders := by
    simp only [events, List.forall_mem_append, List.forall_mem_cons, List.forall_mem_replicate]
    refine ⟨⟨⟨by decide, by decide⟩, honestPeer_consecutivePeer _ _, List.forall_mem_nil _⟩, ?_⟩
    exact Or.inr trivial
  exact ⟨by decide +kernel, task_honest_headers hashOf threeHeaders 4 events
    (fun first hfirst second hsecond ↦ hdistinct first hfirst second hsecond) hevents⟩

end Headers

/-! ### Bodies of fitting requests -/

/-- The body request is free of duplicates and fits the cache, and the peer sends the beginning of
the bodies it is asked for, if any. -/
def HandlerEvent.Fitting (bodyOf : B256 → Body) (capacity : ℕ) (event : HandlerEvent Rest Body) :
    Prop :=
  ∀ request, event.request = .getBlockBodies request → request.Nodup ∧ request.length ≤ capacity ∧
    ∀ missing fetched, event.fetchClient.getBlockBodies missing = some fetched →
      fetched <+: missing.map bodyOf

/-- An announced block has the body of its hash, and a request fits. -/
def TaskEvent.Fitting (bodyOf : B256 → Body) (capacity : ℕ) : TaskEvent Rest Body → Prop
  | .newBlock (.block msg) => msg.block.body = bodyOf msg.hash
  | .incoming event => event.Fitting bodyOf capacity
  | _ => True

/-- The reply to a body request has the bodies of hashes of the request, in its order: of all of
them when the peer has them all. -/
def HandlerEvent.RepliedRight (bodyOf : B256 → Body) (event : HandlerEvent Rest Body)
    (reply : Reply Rest Body) : Prop :=
  reply.request = event.request ∧ ∀ request, event.request = .getBlockBodies request →
    ∃ served : List B256, served.Sublist request ∧
      reply.response = some (.blockBodies (served.map bodyOf)) ∧
      ((∀ missing, event.fetchClient.getBlockBodies missing = honestPeer bodyOf missing) →
        served = request)

section Bodies

variable {bodyOf : B256 → Body} {cache : BlockCache Rest Body} {request : List B256}

theorem map_fst_resolvePlaced_sublist (cache : BlockCache Rest Body) (request : List B256) :
    ((resolvePlaced cache request).map Prod.fst).Sublist request := by
  induction request with
  | nil => exact List.Sublist.refl _
  | cons hash request ih =>
    rw [resolvePlaced, List.filterMap_cons]
    cases cache.bodiesByHash.peek hash with
    | none => exact ih.cons hash
    | some body => exact ih.cons_cons hash

/-- The hashes of the bodies placed, whatever the peer sends. -/
theorem map_fst_placedBodies_sublist (peer : List B256 → Option (List Body))
    (cache : BlockCache Rest Body) (request : List B256) :
    ((placedBodies peer cache request).map Prod.fst).Sublist request := by
  unfold placedBodies
  split
  · exact map_fst_resolvePlaced_sublist cache request
  · split
    · exact map_fst_mergePlaced_sublist _ _
    · exact map_fst_resolvePlaced_sublist cache request

section Fitting

variable (hright : BodiesRight bodyOf cache) (hnodup : request.Nodup)
  (hfits : request.length ≤ cache.bodiesByHash.capacity)

include hright hnodup hfits

/-- The bodies placed are right when the peer sends the beginning of those it is asked for. -/
theorem placedBodies_right {peer : List B256 → Option (List Body)}
    (hpeer : ∀ missing fetched, peer missing = some fetched → fetched <+: missing.map bodyOf) :
    ∀ placed ∈ placedBodies peer cache request, placed.2 = bodyOf placed.1 := by
  by_cases hcached : uncachedHashes cache request = []
  · simp only [placedBodies, beginBodies_of_cached hcached]
    exact resolvePlaced_right hright request
  · simp only [placedBodies, beginBodies_of_uncached hcached]
    cases hanswer : peer (uncachedHashes cache request) with
    | none => exact resolvePlaced_right hright request
    | some fetched =>
      have hinitial := hpeer _ fetched hanswer
      refine (mergePlaced_fetchingCache_right_iff hright request fetched).mpr ?_
      rw [mergeMisses_eq_uncachedHashes hnodup hfits]
      exact (forall_zip_iff_initial (by simpa using hinitial.length_le)).mpr hinitial

/-- A peer that has every body leaves none out. -/
theorem length_placedBodies_honestPeer :
    (placedBodies (honestPeer bodyOf) cache request).length = request.length := by
  by_cases hcached : uncachedHashes cache request = []
  · have hlength := length_resolved_eq_iff.mpr hcached
    rw [← map_snd_resolvePlaced, List.length_map] at hlength
    simpa only [placedBodies, beginBodies_of_cached hcached] using hlength
  · have hplaced := mergePlaced_complete hright hnodup hfits
    simp only [placedBodies, beginBodies_of_uncached hcached, honestPeer]
    exact (congrArg List.length hplaced).trans (List.length_map _)

/-- One fitting request. -/
theorem getBlockBodies_fitting {peer : List B256 → Option (List Body)}
    (hpeer : ∀ missing fetched, peer missing = some fetched → fetched <+: missing.map bodyOf) :
    BodiesRight bodyOf (getBlockBodies peer cache request).cache ∧
      ∃ served : List B256, served.Sublist request ∧
        (getBlockBodies peer cache request).response = served.map bodyOf ∧
        ((∀ missing, peer missing = honestPeer bodyOf missing) → served = request) := by
  have hplaced := placedBodies_right hright hnodup hfits hpeer
  have hsublist := map_fst_placedBodies_sublist peer cache request
  refine ⟨bodiesRight_getBlockBodies peer hright hplaced, _, hsublist, ?_, fun hcomplete ↦ ?_⟩
  · rw [response_getBlockBodies, List.map_map]
    exact List.map_congr_left hplaced
  · refine hsublist.eq_of_length ?_
    rw [List.length_map, funext hcomplete]
    exact length_placedBodies_honestPeer hright hnodup hfits

end Fitting

/-! ### What the other steps leave -/

theorem capacity_foldl_mergeStep (hashes : List B256) (state : MergeState Rest Body) :
    (hashes.foldl mergeStep state).cache.bodiesByHash.capacity =
      state.cache.bodiesByHash.capacity := by
  induction hashes generalizing state with
  | nil => rfl
  | cons hash hashes ih => rw [List.foldl_cons, ih, capacity_mergeStep]

theorem capacity_getBlockBodies (peer : List B256 → Option (List Body))
    (cache : BlockCache Rest Body) (request : List B256) :
    (getBlockBodies peer cache request).cache.bodiesByHash.capacity =
      cache.bodiesByHash.capacity := by
  by_cases hcached : uncachedHashes cache request = []
  · simp only [getBlockBodies, beginBodies_of_cached hcached, promoteBodies,
      LruCache.capacity_promoteAll]
  · simp only [getBlockBodies, beginBodies_of_uncached hcached]
    cases peer (uncachedHashes cache request) with
    | none => exact capacity_fetchingCache cache request
    | some fetched =>
      exact (capacity_foldl_mergeStep request _).trans (capacity_fetchingCache cache request)

/-- Header requests leave the bodies alone. -/
theorem bodiesByHash_getBlockHeaders (hashSlow : Header Rest → B256)
    (peer : HeadersRequest → Option (List (Header Rest))) (cache : BlockCache Rest Body)
    (request : GetBlockHeaders) :
    (getBlockHeaders hashSlow peer cache request).cache.bodiesByHash = cache.bodiesByHash := by
  have hresolved : (resolveHeadersFromCache cache request).2.bodiesByHash = cache.bodiesByHash := by
    cases hstart : request.startBlock with
    | number | hash =>
      simp only [resolveHeadersFromCache, hstart, startNumber, BlockCache.getHeaderByHash,
        resolveHeadersLoop_eq]
  by_cases hcached : (resolveHeadersFromCache cache request).1 = []
  · cases hanswer : peer (proxyRequest request) with
    | none => rw [getBlockHeaders_of_failed hcached hanswer, hresolved]
    | some fetched =>
      rw [getBlockHeaders_of_fetched hcached hanswer, cacheHeaders_eq]
      exact hresolved
  · rw [getBlockHeaders_of_cached hcached, hresolved]

end Bodies

/-! ### Serial runs -/

section Serial

variable {bodyOf : B256 → Body} {capacity : ℕ} {hashSlow : Header Rest → B256}

/-- The cached bodies are right, and as many fit as did. -/
structure SerialState.BodiesFit (bodyOf : B256 → Body) (capacity : ℕ)
    (state : SerialState Rest Body) : Prop where
  bodies : BodiesRight bodyOf state.blockImport.cache
  capacity : state.blockImport.cache.bodiesByHash.capacity = capacity

/-- A block is right, and a request fits. -/
def SerialEvent.Fitting (bodyOf : B256 → Body) (capacity : ℕ) : SerialEvent Rest Body → Prop
  | .newBlock (.block msg) => msg.block.body = bodyOf msg.hash
  | .newBlock (.hashes _) => True
  | .request event => event.Fitting bodyOf capacity

theorem SerialState.BodiesFit.newBlock {state : SerialState Rest Body}
    (hstate : state.BodiesFit bodyOf capacity) {event : NewBlockEvent Rest Body}
    (hevent : (SerialEvent.newBlock event).Fitting bodyOf capacity) :
    (state.step hashSlow (.newBlock event)).BodiesFit bodyOf capacity := by
  cases event with
  | block msg =>
    have hbody : some (bodyOf msg.hash) = some msg.block.body := congrArg some hevent.symm
    exact ⟨bodiesRight_iff.mpr ((bodiesRight_iff.mp hstate.bodies).push hbody), hstate.capacity⟩
  | hashes hashes => exact hstate

/-- A request that fits leaves the cache right and has a right reply. -/
theorem SerialState.BodiesFit.request (hashSlow : Header Rest → B256)
    {state : SerialState Rest Body} (hstate : state.BodiesFit bodyOf capacity)
    {event : HandlerEvent Rest Body} (hevent : event.Fitting bodyOf capacity) :
    let handled :=
      handleRequest hashSlow event.fetchClient state.blockImport.cache event.request
    (state.reply handled).BodiesFit bodyOf capacity ∧ event.RepliedRight bodyOf handled.1 := by
  obtain ⟨incoming, fetchClient⟩ := event
  cases incoming with
  | getBlockHeaders request =>
    have hsame := bodiesByHash_getBlockHeaders hashSlow fetchClient.getHeaders
      state.blockImport.cache request
    refine ⟨⟨?_, ?_⟩, rfl, fun _ hrequest ↦ (nomatch hrequest)⟩
    · show ∀ entry ∈ (getBlockHeaders hashSlow fetchClient.getHeaders state.blockImport.cache
        request).cache.bodiesByHash.entries, entry.2 = bodyOf entry.1
      rw [hsame]
      exact hstate.bodies
    · exact (congrArg LruCache.capacity hsame).trans hstate.capacity
  | getBlockBodies request =>
    obtain ⟨hnodup, hfits, hpeer⟩ := hevent request rfl
    rw [← hstate.capacity] at hfits
    obtain ⟨hright, served, hsublist, hresponse, hcomplete⟩ :=
      getBlockBodies_fitting hstate.bodies hnodup hfits hpeer
    refine ⟨⟨hright, (capacity_getBlockBodies _ _ _).trans hstate.capacity⟩, rfl, ?_⟩
    rintro _ ⟨⟩
    exact ⟨served, hsublist, congrArg (some ∘ EthResponse.blockBodies) hresponse, hcomplete⟩
  | getNodeData | getReceipts | getReceipts69 | getReceipts70 | getBlockAccessLists =>
    exact ⟨⟨hstate.bodies, hstate.capacity⟩, rfl, fun _ hrequest ↦ (nomatch hrequest)⟩

/-- The replies of a serial run are right, one for each request. -/
theorem serial_right (hashSlow : Header Rest → B256) (capacity : ℕ)
    {trace : List (SerialEvent Rest Body)}
    (htrace : ∀ event ∈ trace, event.Fitting bodyOf (BlockCache.effectiveCapacity capacity)) :
    List.Forall₂ (HandlerEvent.RepliedRight bodyOf) (trace.filterMap SerialEvent.handled)
      (run (SerialState.step hashSlow)
        { blockImport := { cache := .new capacity, rebroadcastTx := [] }, replies := [] }
        trace).replies := by
  refine (run_history (fun before (state : SerialState Rest Body) ↦
    (∀ event ∈ before, event.Fitting bodyOf (BlockCache.effectiveCapacity capacity)) →
      state.BodiesFit bodyOf (BlockCache.effectiveCapacity capacity) ∧
      List.Forall₂ (HandlerEvent.RepliedRight bodyOf) (before.filterMap SerialEvent.handled)
        state.replies) ?_ ?_ trace htrace).2
  · exact fun _ ↦ ⟨⟨List.forall_mem_nil _, rfl⟩, .nil⟩
  · intro before state event hbefore hevents
    obtain ⟨hearlier, hlast⟩ := List.forall_mem_append.mp hevents
    have hevent := hlast event List.mem_cons_self
    obtain ⟨hfit, hreplies⟩ := hbefore hearlier
    rw [List.filterMap_append]
    cases event with
    | newBlock event =>
      refine ⟨hfit.newBlock hevent, ?_⟩
      rw [List.filterMap_cons_none rfl, List.filterMap_nil, List.append_nil]
      exact hreplies
    | request event =>
      obtain ⟨hafter, hreply⟩ := hfit.request hashSlow hevent
      exact ⟨hafter, List.rel_append hreplies (.cons hreply .nil)⟩

/-- The blocks and requests of a run that fit are those of a serial run that fit. -/
theorem fitting_trace (hashSlow : Header Rest → B256) (blockImport : CachingBlockImport Rest Body)
    {events : List (TaskEvent Rest Body)}
    (hevents : ∀ event ∈ events, event.Fitting bodyOf capacity) :
    ∀ event ∈ TaskState.trace hashSlow blockImport events, event.Fitting bodyOf capacity := by
  intro event hevent
  cases event with
  | newBlock event =>
    have hannounced : event ∈ events.filterMap TaskEvent.announced := by
      rw [← TaskState.announced_trace hashSlow blockImport]
      exact List.mem_filterMap.mpr ⟨_, hevent, rfl⟩
    obtain ⟨original, horiginal, heq⟩ := List.mem_filterMap.mp hannounced
    have hfitting := hevents original horiginal
    cases original with
    | newBlock other =>
      obtain rfl := Option.some.inj heq
      cases other <;> exact hfitting
    | incoming _ | advance | answer => cases heq
  | request event =>
    have hhandled := List.mem_filterMap.mpr ⟨_, hevent, (rfl : SerialEvent.handled _ = some event)⟩
    rw [TaskState.handled_trace] at hhandled
    exact hevents _ ((TaskState.accepted_sublist hashSlow blockImport events).subset
      (List.mem_map_of_mem (List.mem_of_mem_take hhandled)))

/-- Among honest peers, bodies are right. Assumes: a run of the handler in which blocks arrive only
while no request is served; every announced block has the body of its hash; the body requests are
free of duplicates and fit the cache, and every peer sends the beginning of the bodies it is asked
for, or nothing. The reply to a body request has the bodies of hashes of the request, in its order,
and of all of them when the peer has them all, whatever the cache evicts in between. -/
theorem task_honest_bodies (hashSlow : Header Rest → B256) (bodyOf : B256 → Body) (capacity : ℕ)
    (events : List (TaskEvent Rest Body))
    (hblocks : EachStep TaskState.BlocksBetween (TaskState.step hashSlow)
      (.initial { cache := .new capacity, rebroadcastTx := [] }) events)
    (hevents : ∀ event ∈ events, event.Fitting bodyOf (BlockCache.effectiveCapacity capacity)) :
    let state := run (TaskState.step hashSlow)
      (.initial { cache := .new capacity, rebroadcastTx := [] }) events
    List.Forall₂ (HandlerEvent.RepliedRight bodyOf) (state.accepted.take state.replies.length)
      state.replies := by
  intro state
  let blockImport : CachingBlockImport Rest Body := { cache := .new capacity, rebroadcastTx := [] }
  have hserial := serial_right hashSlow capacity (fitting_trace hashSlow blockImport hevents)
  rw [TaskState.handled_trace, ← TaskState.finished_run hblocks] at hserial
  have horder := TaskState.inOrder_run hashSlow blockImport events
  have htake := List.forall₂_take state.replies.length hserial
  rw [List.take_take, Nat.min_eq_left (Nat.le.intro horder.length_replies_add)] at htake
  rwa [← List.prefix_iff_eq_take.mp (TaskState.replies_prefix_finished hashSlow state)] at htake

/-- A block and a request with one body missing, which the peer has. -/
theorem task_honest_bodies_of_one :
    let client : FetchClient UInt8 (List UInt8) := ⟨fun _ ↦ none, honestPeer B256.bytes⟩
    let request : List B256 := [.repeatByte 1, .repeatByte 3]
    let events : List (TaskEvent UInt8 (List UInt8)) :=
      [.newBlock (.block ⟨.repeatByte 1, ⟨⟨.repeatByte 0, 5, 60, 1⟩, List.replicate 32 1⟩⟩),
        .incoming ⟨.getBlockBodies request, client⟩] ++
      List.replicate 7 .advance ++ [.answer] ++ List.replicate 5 .advance
    let state := run (TaskState.step fun _ ↦ .repeatByte 0)
      (.initial { cache := .new 4, rebroadcastTx := [] }) events
    state.replies.map Reply.response = [some (.blockBodies (request.map B256.bytes))] ∧
      List.Forall₂ (HandlerEvent.RepliedRight B256.bytes)
        (state.accepted.take state.replies.length) state.replies := by
  intro client request events state
  have hblocks : EachStep TaskState.BlocksBetween (TaskState.step fun _ ↦ .repeatByte 0)
      (.initial { cache := .new 4, rebroadcastTx := [] }) events := by decide +kernel
  have hblock : List.replicate 32 1 = (B256.repeatByte 1).bytes := by decide
  have hrequest : HandlerEvent.Fitting B256.bytes (BlockCache.effectiveCapacity 4)
      (⟨.getBlockBodies request, client⟩ : HandlerEvent UInt8 (List UInt8)) := by
    rintro _ ⟨⟩
    exact ⟨by decide, by decide, fun missing fetched hanswer ↦
      Option.some.inj hanswer ▸ List.prefix_refl _⟩
  have hevents : ∀ event ∈ events,
      event.Fitting B256.bytes (BlockCache.effectiveCapacity 4) := by
    simp only [events, List.forall_mem_append, List.forall_mem_cons, List.forall_mem_replicate]
    exact ⟨⟨⟨⟨hblock, hrequest, List.forall_mem_nil _⟩, Or.inr trivial⟩, trivial,
      List.forall_mem_nil _⟩, Or.inr trivial⟩
  exact ⟨by decide +kernel, task_honest_bodies (fun _ ↦ .repeatByte 0) B256.bytes 4 events hblocks
    hevents⟩

end Serial

end SentryNode.EthProxy
