import SentryNode.EthProxy.Task.Honest

/-!
# Sentries behind each other

The peer that a sentry fetches from may be another sentry, which answers from its own cache and
fetches what it lacks from a peer of its own. A line of sentries is their caches, each fetching from
the next one and the last one from an internet peer. Blocks are announced to any of them, and
requests are put to any of them.

`line_honest` states that a line of any length is as good as the peer behind it. In every run each
sentry of the line answers body requests with all the bodies asked for, and header requests with the
beginning of what the protocol defines, unless they have a skip and had to be fetched.
-/

set_option autoImplicit false
set_option relaxedAutoImplicit false

namespace SentryNode.EthProxy

open Library

variable {Rest Body : Type*}

/-! ### The line -/

/-- A header request as it arrives at the next peer: what is sent has no skip. -/
def receivedAs (request : HeadersRequest) : GetBlockHeaders where
  startBlock := request.start
  limit := request.limit
  skip := 0
  direction := request.direction

/-- A header request is put to the first sentry of a line, in front of a peer. -/
def serveHeaders (hashSlow : Header Rest → B256)
    (peer : HeadersRequest → Option (List (Header Rest))) :
    List (BlockCache Rest Body) → GetBlockHeaders →
      Option (List (Header Rest)) × List (BlockCache Rest Body)
  | [], request => (peer (proxyRequest request), [])
  | cache :: behind, request =>
    let outcome := getBlockHeaders hashSlow
      (fun proxied ↦ (serveHeaders hashSlow peer behind (receivedAs proxied)).1) cache request
    (some outcome.response, outcome.cache :: match outcome.asked with
      | some proxied => (serveHeaders hashSlow peer behind (receivedAs proxied)).2
      | none => behind)

/-- A body request is put to the first sentry of a line. -/
def serveBodies (peer : List B256 → Option (List Body)) :
    List (BlockCache Rest Body) → List B256 → Option (List Body) × List (BlockCache Rest Body)
  | [], request => (peer request, [])
  | cache :: behind, request =>
    let outcome := getBlockBodies (fun missing ↦ (serveBodies peer behind missing).1) cache request
    (some outcome.response, outcome.cache :: match outcome.asked with
      | some missing => (serveBodies peer behind missing).2
      | none => behind)

/-- What happens to the sentry at a position. -/
inductive LineEvent (Rest Body : Type*)
  | newBlock (position : ℕ) (event : NewBlockEvent Rest Body)
  | headers (position : ℕ) (request : GetBlockHeaders)
  | bodies (position : ℕ) (request : List B256)

/-- The cache of a sentry after an announcement. -/
def announcedTo (cache : BlockCache Rest Body) (event : NewBlockEvent Rest Body) :
    BlockCache Rest Body :=
  (CachingBlockImport.onNewBlock { cache, rebroadcastTx := [] } event).cache

/-- A request concerns the sentry it is put to and those behind. -/
def lineStep (hashSlow : Header Rest → B256) (client : FetchClient Rest Body)
    (caches : List (BlockCache Rest Body)) : LineEvent Rest Body → List (BlockCache Rest Body)
  | .newBlock position event =>
    match caches[position]? with
    | some cache => caches.set position (announcedTo cache event)
    | none => caches
  | .headers position request =>
    caches.take position ++
      (serveHeaders hashSlow client.getHeaders (caches.drop position) request).2
  | .bodies position request =>
    caches.take position ++ (serveBodies client.getBlockBodies (caches.drop position) request).2

/-! ### Right headers -/

/-- The cached headers are headers of the chain, under their numbers and their hashes. -/
structure HeadersRight (hashSlow : Header Rest → B256) (chain : Chain Rest)
    (cache : BlockCache Rest Body) : Prop where
  byNumber : cache.headersByNumber.Reflects fun number ↦ chain.headers[number.toNat]?
  byHash : cache.headersByHash.Reflects fun hash ↦ chain.headers.find? (hashSlow · = hash)

section Headers

variable {hashSlow : Header Rest → B256} {chain : Chain Rest} {cache : BlockCache Rest Body}

theorem headersRight_new (capacity : ℕ) :
    HeadersRight hashSlow chain (.new capacity : BlockCache Rest Body) where
  byNumber := LruCache.reflects_new _ _ _
  byHash := LruCache.reflects_new _ _ _

theorem HeadersRight.insertHeader (hright : HeadersRight hashSlow chain cache)
    (hdistinct : Set.InjOn hashSlow { header | header ∈ chain.headers }) {header : Header Rest}
    (hheader : header ∈ chain.headers) :
    HeadersRight hashSlow chain (cache.insertHeader (hashSlow header) header) where
  byNumber := hright.byNumber.push (Chain.getElem?_number hheader)
  byHash := hright.byHash.push (Chain.find?_hash hdistinct hheader)

theorem HeadersRight.fetched (hright : HeadersRight hashSlow chain cache)
    (hdistinct : Set.InjOn hashSlow { header | header ∈ chain.headers })
    {fetched : List (Header Rest)} (hfetched : ∀ header ∈ fetched, header ∈ chain.headers) :
    HeadersRight hashSlow chain (cacheHeaders hashSlow cache fetched) := by
  induction fetched generalizing cache with
  | nil => exact hright
  | cons header fetched ih =>
    obtain ⟨hheader, hrest⟩ := List.forall_mem_cons.mp hfetched
    exact ih (hright.insertHeader hdistinct hheader) hrest

/-- Looking headers up changes their order only. -/
theorem HeadersRight.resolved (hright : HeadersRight hashSlow chain cache)
    (request : GetBlockHeaders) :
    HeadersRight hashSlow chain (resolveHeadersFromCache cache request).2 := by
  cases hstart : request.startBlock with
  | number number =>
    simp only [resolveHeadersFromCache, hstart, startNumber, resolveHeadersLoop_eq]
    exact ⟨hright.byNumber.promoteAll _, hright.byHash⟩
  | hash hash =>
    simp only [resolveHeadersFromCache, hstart, startNumber, BlockCache.getHeaderByHash,
      LruCache.get, resolveHeadersLoop_eq]
    exact ⟨hright.byNumber.promoteAll _, hright.byHash.promote hash⟩

/-- What a right cache resolves is the beginning of the answer. -/
theorem HeadersRight.prefix_resolved (hright : HeadersRight hashSlow chain cache)
    (request : GetBlockHeaders) :
    (resolveHeadersFromCache cache request).1 <+: protocolAnswer hashSlow chain request := by
  have hchain : ∀ entry ∈ cachedWalk cache request,
      entry.2 ∈ chain.headers ∧ entry.2.number = entry.1 := fun entry hentry ↦ by
    have hheader := hright.byNumber entry.1 entry.2 (lookup_of_mem_walk hentry)
    exact ⟨List.mem_of_getElem? hheader,
      UInt64.toNat_inj.mp (Chain.number_of_getElem? hheader)⟩
  rw [resolveHeadersFromCache_fst]
  refine prefix_protocolAnswer ?_ (fun first hfirst ↦ ?_) ?_ ?_
  · rw [List.forall_mem_map]
    exact fun entry hentry ↦ (hchain entry hentry).1
  · rw [List.head?_map, Option.map_eq_some_iff] at hfirst
    obtain ⟨entry, hentry, rfl⟩ := hfirst
    have hstart := head?_walk_eq_some hentry
    rw [(hchain entry (List.mem_of_mem_head? hentry)).2]
    cases hblock : request.startBlock with
    | number number =>
      rw [hblock, startAt, Option.some_inj] at hstart
      rw [hstart, Chain.numberOf]
    | hash hash =>
      rw [hblock, startAt, Option.map_eq_some_iff] at hstart
      obtain ⟨header, hpeek, hnumber⟩ := hstart
      have hfind : chain.headers.find? (hashSlow · = hash) = some header :=
        hright.byHash hash header hpeek
      rw [Chain.numberOf, hfind, Option.map_some, hnumber]
  · rw [List.isChain_map]
    refine (isChain_walk _ _).imp_of_mem_imp fun first second hfirst hsecond hnext ↦ ?_
    rw [(hchain first hfirst).2, (hchain second hsecond).2]
    exact hnext
  · rw [List.length_map]
    exact length_walk_le _ _

end Headers

/-! ### Right caches -/

/-- A cache with headers of the chain and with the bodies of their hashes, with room for requests of
some length. -/
structure RightCache (hashSlow : Header Rest → B256) (chain : Chain Rest) (bodyOf : B256 → Body)
    (room : ℕ) (cache : BlockCache Rest Body) : Prop where
  headers : HeadersRight hashSlow chain cache
  bodies : BodiesRight bodyOf cache
  room : room ≤ cache.bodiesByHash.capacity

/-- A peer with headers of the chain, and with all the bodies. -/
structure RightPeer (hashSlow : Header Rest → B256) (chain : Chain Rest) (bodyOf : B256 → Body)
    (client : FetchClient Rest Body) : Prop where
  headers : HonestPeer hashSlow chain client.getHeaders
  bodies : client.getBlockBodies = honestPeer bodyOf

section Bodies

variable {bodyOf : B256 → Body} {cache : BlockCache Rest Body} {request : List B256}

/-- Only the answer to the uncached hashes matters. -/
theorem getBlockBodies_congr {first second : List B256 → Option (List Body)}
    (hsame : first (uncachedHashes cache request) = second (uncachedHashes cache request)) :
    getBlockBodies first cache request = getBlockBodies second cache request := by
  by_cases hcached : uncachedHashes cache request = []
  · simp only [getBlockBodies, beginBodies_of_cached hcached]
  · simp only [getBlockBodies, beginBodies_of_uncached hcached, hsame]

theorem asked_getBlockBodies (peer : List B256 → Option (List Body)) :
    (getBlockBodies peer cache request).asked =
      if uncachedHashes cache request = [] then none else some (uncachedHashes cache request) := by
  split_ifs with hcached
  · simp only [getBlockBodies, beginBodies_of_cached hcached]
  · simp only [getBlockBodies, beginBodies_of_uncached hcached]

/-- Serving bodies leaves the headers alone. -/
theorem HeadersRight.merged {hashSlow : Header Rest → B256} {chain : Chain Rest}
    {state : MergeState Rest Body} (hright : HeadersRight hashSlow chain state.cache)
    (hash : B256) : HeadersRight hashSlow chain (mergeStep state hash).cache := by
  cases hbody : state.cache.bodiesByHash.peek hash with
  | some body =>
    rw [mergeStep_of_cached hbody]
    exact ⟨hright.byNumber, hright.byHash⟩
  | none =>
    cases hfetch : state.fetchIter with
    | nil => rwa [mergeStep_of_exhausted hbody hfetch]
    | cons body fetchIter =>
      rw [mergeStep_of_fetched hbody hfetch]
      exact ⟨hright.byNumber, hright.byHash⟩

theorem HeadersRight.mergedAll {hashSlow : Header Rest → B256} {chain : Chain Rest}
    {state : MergeState Rest Body} (hright : HeadersRight hashSlow chain state.cache)
    (hashes : List B256) : HeadersRight hashSlow chain (hashes.foldl mergeStep state).cache := by
  induction hashes generalizing state with
  | nil => exact hright
  | cons hash hashes ih => exact ih (hright.merged hash)

theorem HeadersRight.bodiesServed {hashSlow : Header Rest → B256} {chain : Chain Rest}
    (hright : HeadersRight hashSlow chain cache) (peer : List B256 → Option (List Body))
    (request : List B256) :
    HeadersRight hashSlow chain (getBlockBodies peer cache request).cache := by
  by_cases hcached : uncachedHashes cache request = []
  · simp only [getBlockBodies, beginBodies_of_cached hcached]
    exact ⟨hright.byNumber, hright.byHash⟩
  · simp only [getBlockBodies, beginBodies_of_uncached hcached]
    cases peer (uncachedHashes cache request) with
    | none => exact ⟨hright.byNumber, hright.byHash⟩
    | some fetched =>
      have hstart : HeadersRight hashSlow chain
          (MergeState.start (promoteBodies (promoteBodies cache request) request) fetched).cache :=
        ⟨hright.byNumber, hright.byHash⟩
      exact hstart.mergedAll request

end Bodies

/-! ### One request -/

section Requests

variable {hashSlow : Header Rest → B256} {chain : Chain Rest} {bodyOf : B256 → Body} {room : ℕ}
  {client : FetchClient Rest Body} {cache : BlockCache Rest Body}

/-- A header request in front of an honest peer. -/
theorem RightCache.headersServed (hcache : RightCache hashSlow chain bodyOf room cache)
    (hdistinct : Set.InjOn hashSlow { header | header ∈ chain.headers })
    {peer : HeadersRequest → Option (List (Header Rest))} (hpeer : HonestPeer hashSlow chain peer)
    (request : GetBlockHeaders) :
    RightCache hashSlow chain bodyOf room (getBlockHeaders hashSlow peer cache request).cache ∧
      ((getBlockHeaders hashSlow peer cache request).response <+:
          protocolAnswer hashSlow chain request ↔
        (resolveHeadersFromCache cache request).1 ≠ [] ∨ request.skip = 0 ∨
          (getBlockHeaders hashSlow peer cache request).response.length ≤ 1) := by
  have hbodies := bodiesByHash_getBlockHeaders hashSlow peer cache request
  have hresolved := hcache.headers.resolved request
  suffices hheaders : HeadersRight hashSlow chain
      (getBlockHeaders hashSlow peer cache request).cache ∧ _ by
    refine ⟨⟨hheaders.1, ?_, ?_⟩, hheaders.2⟩
    · rw [BodiesRight, hbodies]
      exact hcache.bodies
    · rw [hbodies]
      exact hcache.room
  by_cases hcached : (resolveHeadersFromCache cache request).1 = []
  · cases hanswer : peer (proxyRequest request) with
    | none =>
      rw [getBlockHeaders_of_failed hcached hanswer]
      exact ⟨hresolved, iff_of_true List.nil_prefix (Or.inr (Or.inr (Nat.zero_le 1)))⟩
    | some fetched =>
      have hconsecutive := hpeer _ fetched hanswer
      rw [getBlockHeaders_of_fetched hcached hanswer]
      refine ⟨hresolved.fetched hdistinct fun header hheader ↦ ?_, ?_⟩
      · exact Chain.mem_of_mem_answer (hconsecutive.subset hheader)
      · simp only [initial_protocolAnswer_iff hconsecutive, hcached, ne_eq, not_true_eq_false,
          false_or]
  · rw [getBlockHeaders_of_cached hcached]
    exact ⟨hresolved, iff_of_true (hcache.headers.prefix_resolved request) (Or.inl hcached)⟩

/-- A body request in front of a peer that has the missing bodies. -/
theorem RightCache.bodiesServed (hcache : RightCache hashSlow chain bodyOf room cache)
    {request : List B256} (hnodup : request.Nodup) (hfits : request.length ≤ room)
    (peer : List B256 → Option (List Body))
    (hpeer : peer (uncachedHashes cache request) =
      honestPeer bodyOf (uncachedHashes cache request)) :
    RightCache hashSlow chain bodyOf room (getBlockBodies peer cache request).cache ∧
      (getBlockBodies peer cache request).response = request.map bodyOf := by
  have hroom := Nat.le_trans hfits hcache.room
  rw [getBlockBodies_congr hpeer]
  have hhonest : ∀ missing fetched, honestPeer bodyOf missing = some fetched →
      fetched <+: missing.map bodyOf := fun missing fetched hanswer ↦
    Option.some.inj hanswer ▸ List.prefix_rfl
  obtain ⟨hright, served, -, hresponse, hcomplete⟩ :=
    getBlockBodies_fitting hcache.bodies hnodup hroom hhonest
  refine ⟨⟨hcache.headers.bodiesServed _ request, hright, ?_⟩, ?_⟩
  · rw [capacity_getBlockBodies]
    exact hcache.room
  · rw [hresponse, hcomplete fun _ ↦ rfl]

theorem RightCache.announced (hcache : RightCache hashSlow chain bodyOf room cache)
    (hdistinct : Set.InjOn hashSlow { header | header ∈ chain.headers })
    {event : NewBlockEvent Rest Body}
    (hchain : (TaskEvent.newBlock event).OnChain hashSlow chain)
    (hfitting : (TaskEvent.newBlock event).Fitting bodyOf room) :
    RightCache hashSlow chain bodyOf room (announcedTo cache event) := by
  cases event with
  | block msg =>
    obtain ⟨hheader, hhash⟩ := hchain
    have hbody : some (bodyOf msg.hash) = some msg.block.body := congrArg some hfitting.symm
    have hheaders := hcache.headers.insertHeader hdistinct hheader
    rw [← hhash] at hheaders
    exact ⟨⟨hheaders.byNumber, hheaders.byHash⟩,
      bodiesRight_iff.mpr ((bodiesRight_iff.mp hcache.bodies).push hbody), hcache.room⟩
  | hashes hashes => exact hcache

end Requests

/-! ### The whole line -/

section Lines

variable {hashSlow : Header Rest → B256} {chain : Chain Rest} {bodyOf : B256 → Body} {room : ℕ}

/-- A line in front of an honest peer is an honest peer for requests without skip, and it stays
right. -/
theorem serveHeaders_right (hdistinct : Set.InjOn hashSlow { header | header ∈ chain.headers })
    {peer : HeadersRequest → Option (List (Header Rest))} (hpeer : HonestPeer hashSlow chain peer)
    {line : List (BlockCache Rest Body)}
    (hline : ∀ cache ∈ line, RightCache hashSlow chain bodyOf room cache)
    (request : GetBlockHeaders) :
    (∀ cache ∈ (serveHeaders hashSlow peer line request).2,
        RightCache hashSlow chain bodyOf room cache) ∧
      ∀ headers, (serveHeaders hashSlow peer line request).1 = some headers →
        request.skip = 0 → headers <+: protocolAnswer hashSlow chain request := by
  induction line generalizing request with
  | nil =>
    refine ⟨List.forall_mem_nil _, fun headers hanswer hskip ↦ ?_⟩
    rw [protocolAnswer, hskip]
    exact hpeer _ headers hanswer
  | cons cache behind ih =>
    obtain ⟨hcache, hbehind⟩ := List.forall_mem_cons.mp hline
    have hnext : HonestPeer hashSlow chain fun proxied ↦
        (serveHeaders hashSlow peer behind (receivedAs proxied)).1 := fun proxied headers hanswer ↦
      (ih hbehind (receivedAs proxied)).2 headers hanswer rfl
    obtain ⟨hafter, hresponse⟩ := hcache.headersServed hdistinct hnext request
    refine ⟨List.forall_mem_cons.mpr ⟨hafter, ?_⟩, ?_⟩
    · split
      next proxied _ => exact (ih hbehind (receivedAs proxied)).1
      next => exact hbehind
    · rintro headers ⟨⟩ hskip
      exact hresponse.mpr (Or.inr (Or.inl hskip))

/-- A line in front of a peer that has all bodies has all bodies. -/
theorem serveBodies_right {line : List (BlockCache Rest Body)}
    (hline : ∀ cache ∈ line, RightCache hashSlow chain bodyOf room cache) {request : List B256}
    (hnodup : request.Nodup) (hfits : request.length ≤ room) :
    (∀ cache ∈ (serveBodies (honestPeer bodyOf) line request).2,
        RightCache hashSlow chain bodyOf room cache) ∧
      (serveBodies (honestPeer bodyOf) line request).1 = some (request.map bodyOf) := by
  induction line generalizing request with
  | nil => exact ⟨List.forall_mem_nil _, rfl⟩
  | cons cache behind ih =>
    obtain ⟨hcache, hbehind⟩ := List.forall_mem_cons.mp hline
    have hmissing := ih hbehind (hnodup.filter _ : (uncachedHashes cache request).Nodup)
      (Nat.le_trans (List.length_filter_le _ _) hfits)
    obtain ⟨hafter, hresponse⟩ := hcache.bodiesServed hnodup hfits
      (fun missing ↦ (serveBodies (honestPeer bodyOf) behind missing).1) hmissing.2
    refine ⟨List.forall_mem_cons.mpr ⟨hafter, ?_⟩, congrArg some hresponse⟩
    rw [asked_getBlockBodies]
    split
    next missing hasked =>
      split_ifs at hasked
      rw [← Option.some.inj hasked]
      exact hmissing.1
    next => exact hbehind

/-- An announcement is right, and a body request is free of duplicates and fits. -/
def LineEvent.Fitting (hashSlow : Header Rest → B256) (chain : Chain Rest) (bodyOf : B256 → Body)
    (room : ℕ) : LineEvent Rest Body → Prop
  | .newBlock _ event => (TaskEvent.newBlock event).OnChain hashSlow chain ∧
    (TaskEvent.newBlock event).Fitting bodyOf room
  | .headers _ _ => True
  | .bodies _ request => request.Nodup ∧ request.length ≤ room

/-- What happens to some of the line keeps the rest. -/
theorem forall_mem_take_append {property : BlockCache Rest Body → Prop}
    {line served : List (BlockCache Rest Body)} (hline : ∀ cache ∈ line, property cache)
    (hserved : ∀ cache ∈ served, property cache) (position : ℕ) :
    ∀ cache ∈ line.take position ++ served, property cache := by
  intro cache hcache
  rcases List.mem_append.mp hcache with htaken | hafter
  · exact hline cache (List.mem_of_mem_take htaken)
  · exact hserved cache hafter

theorem lineStep_right (hdistinct : Set.InjOn hashSlow { header | header ∈ chain.headers })
    {client : FetchClient Rest Body} (hclient : RightPeer hashSlow chain bodyOf client)
    {line : List (BlockCache Rest Body)}
    (hline : ∀ cache ∈ line, RightCache hashSlow chain bodyOf room cache)
    {event : LineEvent Rest Body} (hevent : event.Fitting hashSlow chain bodyOf room) :
    ∀ cache ∈ lineStep hashSlow client line event,
      RightCache hashSlow chain bodyOf room cache := by
  have hbehind : ∀ position, ∀ cache ∈ line.drop position,
      RightCache hashSlow chain bodyOf room cache := fun position cache hcache ↦
    hline cache (List.mem_of_mem_drop hcache)
  cases event with
  | newBlock position event =>
    simp only [lineStep]
    split
    next cache hposition =>
      intro other hother
      rcases List.mem_or_eq_of_mem_set hother with hkept | rfl
      · exact hline other hkept
      · exact (hline cache (List.mem_of_getElem? hposition)).announced hdistinct hevent.1 hevent.2
    next => exact hline
  | headers position request =>
    exact forall_mem_take_append hline
      (serveHeaders_right hdistinct hclient.headers (hbehind position) request).1 position
  | bodies position request =>
    rw [lineStep, hclient.bodies]
    exact forall_mem_take_append hline
      (serveBodies_right (hbehind position) hevent.1 hevent.2).1 position

/-- A line of sentries is as good as the peer behind it. Assumes: no two headers of the chain have
the same hash; the peer answers with consecutive headers of the chain and has every body; announced
blocks are on the chain with the bodies of their hashes; body requests are free of duplicates and
have room in every cache. After every run, whichever sentries were asked and whatever they evicted,
each sentry of the line, in front of those behind it, answers such body requests in full, and header
requests with the beginning of what the protocol defines exactly when it has a header for them, they
have no skip, or at most one header came back. -/
theorem line_honest (hashSlow : Header Rest → B256) (chain : Chain Rest) (bodyOf : B256 → Body)
    (hdistinct : Set.InjOn hashSlow { header | header ∈ chain.headers })
    (client : FetchClient Rest Body) (hclient : RightPeer hashSlow chain bodyOf client)
    (capacities : List ℕ) (room : ℕ)
    (hroom : ∀ capacity ∈ capacities, room ≤ BlockCache.effectiveCapacity capacity)
    (events : List (LineEvent Rest Body))
    (hevents : ∀ event ∈ events, event.Fitting hashSlow chain bodyOf room) :
    let line := run (lineStep hashSlow client) (capacities.map BlockCache.new) events
    ∀ cache behind, cache :: behind <:+ line →
      (∀ request : List B256, request.Nodup → request.length ≤ room →
        (serveBodies client.getBlockBodies (cache :: behind) request).1 =
          some (request.map bodyOf)) ∧
      ∀ request, ∃ headers,
        (serveHeaders hashSlow client.getHeaders (cache :: behind) request).1 = some headers ∧
        (headers <+: protocolAnswer hashSlow chain request ↔
          (resolveHeadersFromCache cache request).1 ≠ [] ∨ request.skip = 0 ∨
            headers.length ≤ 1) := by
  intro line cache behind hsuffix
  have hstart : ∀ cache ∈ (capacities.map .new : List (BlockCache Rest Body)),
      RightCache hashSlow chain bodyOf room cache := by
    rw [List.forall_mem_map]
    exact fun capacity hcapacity ↦
      ⟨headersRight_new capacity, List.forall_mem_nil _, hroom capacity hcapacity⟩
  have hline : ∀ cache ∈ line, RightCache hashSlow chain bodyOf room cache :=
    run_invariant (fun line ↦ ∀ cache ∈ line, RightCache hashSlow chain bodyOf room cache)
      (fun line event hevent hline ↦ lineStep_right hdistinct hclient hline hevent) hstart
      (eachStep_of_forall hevents)
  have hall : ∀ other ∈ cache :: behind, RightCache hashSlow chain bodyOf room other :=
    fun other hother ↦ hline other (hsuffix.subset hother)
  obtain ⟨hcache, hbehind⟩ := List.forall_mem_cons.mp hall
  refine ⟨fun request hnodup hfits ↦ ?_, fun request ↦ ⟨_, rfl, ?_⟩⟩
  · rw [hclient.bodies]
    exact (serveBodies_right hall hnodup hfits).2
  · refine (hcache.headersServed hdistinct (fun proxied headers hanswer ↦ ?_) request).2
    exact (serveHeaders_right hdistinct hclient.headers hbehind (receivedAs proxied)).2 headers
      hanswer rfl

/-- Two sentries: a block is announced to the second, and the first is asked for two bodies,
twice. -/
theorem line_honest_of_two :
    let hashOf : Header UInt8 → B256 := fun header ↦ .repeatByte header.rest
    let client : FetchClient UInt8 (List UInt8) :=
      ⟨consecutivePeer hashOf threeHeaders, honestPeer B256.bytes⟩
    let request : List B256 := [.repeatByte 1, .repeatByte 2]
    let events : List (LineEvent UInt8 (List UInt8)) :=
      [.newBlock 1 (.block ⟨.repeatByte 1, ⟨⟨.repeatByte 0, 1, 12, 1⟩, List.replicate 32 1⟩⟩),
        .bodies 0 request]
    (serveBodies client.getBlockBodies
      (run (lineStep hashOf client) ([4, 4].map BlockCache.new) events) request).1 =
        some (request.map B256.bytes) := by
  intro hashOf client request events
  have hdistinct : ∀ first ∈ threeHeaders.headers, ∀ second ∈ threeHeaders.headers,
      hashOf first = hashOf second → first = second := by decide
  have hclient : RightPeer hashOf threeHeaders B256.bytes client :=
    ⟨honestPeer_consecutivePeer hashOf threeHeaders, rfl⟩
  have hevents : ∀ event ∈ events, event.Fitting hashOf threeHeaders B256.bytes 2 := by
    simp only [events, List.forall_mem_cons]
    exact ⟨⟨⟨by decide, by decide⟩, (by decide : List.replicate 32 1 = (B256.repeatByte 1).bytes)⟩,
      ⟨by decide, by decide⟩, List.forall_mem_nil _⟩
  obtain ⟨cache, behind, hline⟩ : ∃ cache behind,
      run (lineStep hashOf client) ([4, 4].map BlockCache.new) events = cache :: behind :=
    ⟨_, _, rfl⟩
  have hhonest := line_honest hashOf threeHeaders B256.bytes
    (fun first hfirst second hsecond ↦ hdistinct first hfirst second hsecond) client hclient [4, 4]
    2 (by decide) events hevents cache behind (hline ▸ List.suffix_rfl)
  rw [hline]
  exact hhonest.1 request (by decide) (by decide)

end Lines

end SentryNode.EthProxy
