import SentryNode.EthProxy.Bodies
import SentryNode.EthProxy.HeadersInterleaved

/-!
# Requests that fetch nothing

The loop of the request handler takes the requests of all peers one after the other. Header and body
requests have an arm of their own; every other kind gets an empty response or none, and touches
neither the cache nor a peer.

A request fetches nothing when it is answered without a peer or when the fetch fails
(`FetchesNothing`). Such a request makes lookups only, and a lookup changes nothing but the recency
order, so a run of such requests leaves every map as it was (`unfetched_run`). Each reply is then
one of the cache as the run found it (`Reply.FromCache`): the bodies it has of those requested, and
the headers it has from the start block on, none of them when a peer was asked.
-/

set_option autoImplicit false
set_option relaxedAutoImplicit false

namespace SentryNode.EthProxy

open Library

variable {Rest Body : Type*}

/-! ### The handler -/

/-- A request of a peer. What the handler reads of it is kept: the start and the hashes. -/
inductive IncomingEthRequest
  | getBlockHeaders (request : GetBlockHeaders)
  | getBlockBodies (request : List B256)
  | getNodeData
  | getReceipts
  | getReceipts69
  | getReceipts70
  | getBlockAccessLists
deriving DecidableEq

/-- A response the handler sends. It never has a receipt or an access list to send. -/
inductive EthResponse (Rest Body : Type*)
  | blockHeaders (headers : List (Header Rest))
  | blockBodies (bodies : List Body)
  | noReceipts
  | noReceipts69
  | noReceipts70 (lastBlockIncomplete : Bool)
  | noBlockAccessLists
deriving DecidableEq

/-- The answers of the internet peers. A failed fetch is `none`. -/
structure FetchClient (Rest Body : Type*) where
  getHeaders : HeadersRequest → Option (List (Header Rest))
  getBlockBodies : List B256 → Option (List Body)

/-- What became of a request: the response, unless none is sent, and whether a peer was asked. -/
structure Reply (Rest Body : Type*) where
  request : IncomingEthRequest
  response : Option (EthResponse Rest Body)
  askedPeer : Bool
deriving DecidableEq

/-- The handler: the cache it shares and the replies so far. -/
structure HandlerState (Rest Body : Type*) where
  cache : BlockCache Rest Body
  replies : List (Reply Rest Body)

/-- A request is received, in front of the peers as they are then. -/
structure HandlerEvent (Rest Body : Type*) where
  request : IncomingEthRequest
  fetchClient : FetchClient Rest Body

/-- A request the handler has nothing for. -/
def replyEmpty (request : IncomingEthRequest) (response : Option (EthResponse Rest Body)) :
    Reply Rest Body :=
  { request, response, askedPeer := false }

/-- One iteration of the loop: the reply and the cache after it. -/
def handleRequest (hashSlow : Header Rest → B256) (fetchClient : FetchClient Rest Body)
    (cache : BlockCache Rest Body) (incoming : IncomingEthRequest) :
    Reply Rest Body × BlockCache Rest Body :=
  match incoming with
  | .getBlockHeaders request =>
    let outcome := getBlockHeaders hashSlow fetchClient.getHeaders cache request
    ({ request := incoming
       response := some (.blockHeaders outcome.response)
       askedPeer := outcome.asked.isSome }, outcome.cache)
  | .getBlockBodies request =>
    let outcome := getBlockBodies fetchClient.getBlockBodies cache request
    ({ request := incoming
       response := some (.blockBodies outcome.response)
       askedPeer := outcome.asked.isSome }, outcome.cache)
  | .getNodeData => (replyEmpty incoming none, cache)
  | .getReceipts => (replyEmpty incoming (some .noReceipts), cache)
  | .getReceipts69 => (replyEmpty incoming (some .noReceipts69), cache)
  | .getReceipts70 => (replyEmpty incoming (some (.noReceipts70 false)), cache)
  | .getBlockAccessLists => (replyEmpty incoming (some .noBlockAccessLists), cache)

namespace HandlerState

/-- The handler before its first request. -/
def initial (cache : BlockCache Rest Body) : HandlerState Rest Body := { cache, replies := [] }

def step (hashSlow : Header Rest → B256) (state : HandlerState Rest Body)
    (event : HandlerEvent Rest Body) : HandlerState Rest Body :=
  let (reply, cache) := handleRequest hashSlow event.fetchClient state.cache event.request
  { cache, replies := state.replies ++ [reply] }

end HandlerState

/-! ### A request that fetches nothing -/

/-- No peer answers: the request is one that asks none, or the fetch fails. -/
def FetchesNothing (hashSlow : Header Rest → B256) (state : HandlerState Rest Body)
    (event : HandlerEvent Rest Body) : Prop :=
  match event.request with
  | .getBlockHeaders request =>
    ∀ asked ∈ (getBlockHeaders hashSlow event.fetchClient.getHeaders state.cache request).asked,
      event.fetchClient.getHeaders asked = none
  | .getBlockBodies request =>
    ∀ asked ∈ (getBlockBodies event.fetchClient.getBlockBodies state.cache request).asked,
      event.fetchClient.getBlockBodies asked = none
  | _ => True

/-- The reply is what a cache holds for the request: the headers from its start block on, which are
none when a peer was asked, or the bodies of its hashes, in its order and with multiplicity. -/
def Reply.FromCache (cache : BlockCache Rest Body) (reply : Reply Rest Body) : Prop :=
  match reply.request with
  | .getBlockHeaders request =>
    reply.response = some (.blockHeaders (resolveHeadersFromCache cache request).1) ∧
      (reply.askedPeer → reply.response = some (.blockHeaders []))
  | .getBlockBodies request =>
    reply.response = some (.blockBodies (request.filterMap cache.bodiesByHash.peek))
  | _ => reply.askedPeer = false

theorem sameContents_promoteBodies (cache : BlockCache Rest Body) (hashes : List B256) :
    cache.SameContents (promoteBodies cache hashes) where
  headersByHash := .refl _
  headersByNumber := .refl _
  hashByNumber := .refl _
  bodiesByHash := LruCache.sameEntries_promoteAll _ _
  capacity := rfl

/-- The headers resolved depend on the contents of the cache only. -/
theorem resolveHeadersFromCache_of_sameContents {first second : BlockCache Rest Body}
    (hsame : first.SameContents second) (request : GetBlockHeaders) :
    (resolveHeadersFromCache second request).1 = (resolveHeadersFromCache first request).1 := by
  rw [resolveHeadersFromCache_fst, resolveHeadersFromCache_fst, cachedWalk, cachedWalk,
    startAt_of_sameContents hsame, hsame.headersByNumber.peek_eq]

section Unfetched

variable {hashSlow : Header Rest → B256} {cache : BlockCache Rest Body}

theorem getBlockHeaders_unfetched {peer : HeadersRequest → Option (List (Header Rest))}
    {request : GetBlockHeaders}
    (hunfetched : ∀ asked ∈ (getBlockHeaders hashSlow peer cache request).asked,
      peer asked = none) :
    let outcome := getBlockHeaders hashSlow peer cache request
    outcome.response = (resolveHeadersFromCache cache request).1 ∧
      (outcome.asked.isSome → outcome.response = []) ∧ cache.SameContents outcome.cache := by
  intro outcome
  have hsame := sameContents_resolveHeadersFromCache cache request
  by_cases hcached : (resolveHeadersFromCache cache request).1 = []
  · cases hanswer : peer (proxyRequest request) with
    | none =>
      simp only [outcome, getBlockHeaders_of_failed hcached hanswer]
      exact ⟨hcached.symm, fun _ ↦ trivial, hsame⟩
    | some fetched =>
      rw [getBlockHeaders_of_fetched hcached hanswer] at hunfetched
      simp [hanswer] at hunfetched
  · simp only [outcome, getBlockHeaders_of_cached hcached]
    exact ⟨trivial, fun hasked ↦ by simp at hasked, hsame⟩

theorem getBlockBodies_unfetched {peer : List B256 → Option (List Body)} {request : List B256}
    (hunfetched : ∀ asked ∈ (getBlockBodies peer cache request).asked, peer asked = none) :
    let outcome := getBlockBodies peer cache request
    outcome.response = request.filterMap cache.bodiesByHash.peek ∧
      cache.SameContents outcome.cache := by
  intro outcome
  have hsame := sameContents_promoteBodies cache request
  by_cases hcached : uncachedHashes cache request = []
  · simp only [outcome, getBlockBodies, beginBodies_of_cached hcached]
    exact ⟨trivial, hsame⟩
  · simp only [getBlockBodies, beginBodies_of_uncached hcached, Option.mem_def,
      Option.some.injEq, forall_eq'] at hunfetched
    simp only [outcome, getBlockBodies, beginBodies_of_uncached hcached, hunfetched, finishBodies]
    exact ⟨trivial, hsame.trans (sameContents_promoteBodies _ _)⟩

/-- One request. -/
theorem handleRequest_unfetched {state : HandlerState Rest Body} {event : HandlerEvent Rest Body}
    (hunfetched : FetchesNothing hashSlow state event) :
    let handled := handleRequest hashSlow event.fetchClient state.cache event.request
    handled.1.FromCache state.cache ∧ state.cache.SameContents handled.2 := by
  obtain ⟨incoming, fetchClient⟩ := event
  cases incoming with
  | getBlockHeaders request =>
    obtain ⟨hresponse, hempty, hsame⟩ := getBlockHeaders_unfetched hunfetched
    refine ⟨⟨congrArg (some ∘ EthResponse.blockHeaders) hresponse, fun hasked ↦ ?_⟩, hsame⟩
    exact congrArg (some ∘ EthResponse.blockHeaders) (hempty hasked)
  | getBlockBodies request =>
    obtain ⟨hresponse, hsame⟩ := getBlockBodies_unfetched hunfetched
    exact ⟨congrArg (some ∘ EthResponse.blockBodies) hresponse, hsame⟩
  | getNodeData | getReceipts | getReceipts69 | getReceipts70 | getBlockAccessLists =>
    exact ⟨rfl, .refl _⟩

theorem Reply.FromCache.of_sameContents {first second : BlockCache Rest Body}
    {reply : Reply Rest Body} (hreply : reply.FromCache second)
    (hsame : first.SameContents second) : reply.FromCache first := by
  unfold Reply.FromCache at hreply ⊢
  cases hrequest : reply.request with
  | getBlockHeaders request =>
    rw [hrequest] at hreply
    simpa only [resolveHeadersFromCache_of_sameContents hsame] using hreply
  | getBlockBodies request =>
    rw [hrequest] at hreply
    simpa only [hsame.bodiesByHash.peek_eq] using hreply
  | getNodeData | getReceipts | getReceipts69 | getReceipts70 | getBlockAccessLists =>
    rwa [hrequest] at hreply

end Unfetched

/-! ### Runs -/

section Runs

variable {hashSlow : Header Rest → B256} {cache : BlockCache Rest Body}

/-- The cache holds what it held, and the replies are made of that. -/
structure Unchanged (cache : BlockCache Rest Body) (state : HandlerState Rest Body) : Prop where
  contents : cache.SameContents state.cache
  replies : ∀ reply ∈ state.replies, reply.FromCache cache

theorem Unchanged.step {state : HandlerState Rest Body} {event : HandlerEvent Rest Body}
    (hunfetched : FetchesNothing hashSlow state event) (hunchanged : Unchanged cache state) :
    Unchanged cache (state.step hashSlow event) := by
  obtain ⟨hreply, hsame⟩ := handleRequest_unfetched hunfetched
  refine ⟨hunchanged.contents.trans hsame, fun reply hmem ↦ ?_⟩
  rcases List.mem_append.mp hmem with hbefore | hlast
  · exact hunchanged.replies reply hbefore
  · rw [List.mem_singleton.mp hlast]
    exact hreply.of_sameContents hunchanged.contents

theorem request_handleRequest (fetchClient : FetchClient Rest Body) (cache : BlockCache Rest Body)
    (incoming : IncomingEthRequest) :
    (handleRequest hashSlow fetchClient cache incoming).1.request = incoming := by
  cases incoming <;> rfl

/-- Every request gets one reply, in the order of the requests. -/
theorem map_request_replies (cache : BlockCache Rest Body)
    (events : List (HandlerEvent Rest Body)) :
    (run (HandlerState.step hashSlow) (.initial cache) events).replies.map Reply.request =
      events.map HandlerEvent.request := by
  refine run_history (fun before (state : HandlerState Rest Body) ↦
    state.replies.map Reply.request = before.map HandlerEvent.request) rfl ?_ events
  intro before state event hrequests
  simp only [HandlerState.step, List.map_append, hrequests, List.map_cons, List.map_nil,
    request_handleRequest]

/-- Requests that fetch nothing change nothing. Assumes: a run of requests of any kind of which
each one is answered without a peer or has its fetch fail. Every map has the entries it had before,
and every request gets a reply of the cache as it was before. -/
theorem unfetched_run (hashSlow : Header Rest → B256) (cache : BlockCache Rest Body)
    (events : List (HandlerEvent Rest Body))
    (hunfetched : EachStep (FetchesNothing hashSlow) (HandlerState.step hashSlow) (.initial cache)
      events) :
    let done := run (HandlerState.step hashSlow) (.initial cache) events
    cache.SameContents done.cache ∧
      done.replies.map Reply.request = events.map HandlerEvent.request ∧
      ∀ reply ∈ done.replies, reply.FromCache cache := by
  intro done
  have hinitial : Unchanged cache (.initial cache) :=
    ⟨.refl cache, fun reply hmem ↦ absurd hmem List.not_mem_nil⟩
  have hdone : Unchanged cache done :=
    run_invariant (Unchanged cache) (fun _ _ hfetch hunchanged ↦ hunchanged.step hfetch) hinitial
      hunfetched
  exact ⟨hdone.contents, map_request_replies cache events, hdone.replies⟩

/-- A body request with a body missing and a header request, whose fetches fail, and a request for
receipts. -/
theorem unfetched_run_of_three :
    let cache : BlockCache UInt8 UInt8 :=
      ((BlockCache.new 4).insert (.repeatByte 1) ⟨.repeatByte 0, 5, 60, 1⟩ 11).insert
        (.repeatByte 2) ⟨.repeatByte 1, 6, 72, 2⟩ 12
    let offline : FetchClient UInt8 UInt8 := ⟨fun _ ↦ none, fun _ ↦ none⟩
    let events : List (HandlerEvent UInt8 UInt8) :=
      [⟨.getBlockBodies [.repeatByte 1, .repeatByte 3, .repeatByte 1], offline⟩,
        ⟨.getBlockHeaders ⟨.number 7, 2, 0, .rising⟩, offline⟩, ⟨.getReceipts, offline⟩]
    let done := run (HandlerState.step fun _ ↦ .repeatByte 0) (.initial cache) events
    cache.SameContents done.cache ∧
      done.replies.map Reply.response =
        [some (.blockBodies [11, 11]), some (.blockHeaders []), some .noReceipts] := by
  intro cache offline events done
  have hunfetched : EachStep (FetchesNothing fun _ ↦ .repeatByte 0)
      (HandlerState.step fun _ ↦ .repeatByte 0) (.initial cache) events :=
    ⟨fun _ _ ↦ rfl, fun _ _ ↦ rfl, trivial, trivial⟩
  exact ⟨(unfetched_run (fun _ ↦ .repeatByte 0) cache events hunfetched).1, by decide⟩

end Runs

end SentryNode.EthProxy
