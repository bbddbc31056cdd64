import SentryNode.EthProxy.BodiesInterleaved
import SentryNode.EthProxy.Handler

/-!
# The request handler as a task

The handler runs beside the block import. It takes a request from its channel, makes its accesses
to the cache one at a time, waits for a peer where it fetches, sends its reply, and only then takes
the next request. `TaskState.step` takes one of these steps, an announcement, or the arrival of a
request; a run is any list of them: every order in which the requests, the fetches, the accesses and
the blocks can follow each other.

Whatever the order, the requests that found room in the channel are replied to in their order, each
once, and no more than its capacity wait (`InOrder`).
-/

set_option autoImplicit false
set_option relaxedAutoImplicit false

namespace SentryNode.EthProxy

open Library

variable {Rest Body : Type*}

/-! ### The task -/

/-- The capacity of the channel that requests arrive in. -/
def requestCapacity : ℕ := 256

/-- Where the task is with a request, with its local values. A header request is resolved from the
cache, fetched, and the fetched headers are cached one by one. A body request goes through its own
phases; `asked` is whether a peer was. -/
inductive Serving (Rest Body : Type*)
  | resolving (request : GetBlockHeaders) (phase : WalkPhase Rest)
  | fetching (request : GetBlockHeaders)
  | caching (request : GetBlockHeaders) (fetched rest : List (Header Rest))
  | bodies (request : List B256) (phase : Phase Body) (asked : Bool)

/-- What comes of a step: the request is still being served, or it has its reply. -/
inductive Turn (Rest Body : Type*)
  | serving (serving : Serving Rest Body)
  | replied (reply : Reply Rest Body)

/-- The task, beside the block import that shares the cache with it. The channel holds the requests
`accepted` but not yet `taken`; each comes with the answers its fetches will have. -/
structure TaskState (Rest Body : Type*) where
  blockImport : CachingBlockImport Rest Body
  accepted : List (HandlerEvent Rest Body)
  taken : ℕ
  current : Option (Serving Rest Body × FetchClient Rest Body)
  replies : List (Reply Rest Body)

/-- What can happen next: an announcement, the arrival of a request, the next step of the task, or
the end of its fetch. -/
inductive TaskEvent (Rest Body : Type*)
  | newBlock (event : NewBlockEvent Rest Body)
  | incoming (event : HandlerEvent Rest Body)
  | advance
  | answer

def headersReply (request : GetBlockHeaders) (headers : List (Header Rest)) (askedPeer : Bool) :
    Reply Rest Body :=
  { request := .getBlockHeaders request, response := some (.blockHeaders headers), askedPeer }

def bodiesReply (request : List B256) (bodies : List Body) (askedPeer : Bool) : Reply Rest Body :=
  { request := .getBlockBodies request, response := some (.blockBodies bodies), askedPeer }

namespace Serving

/-- The request that is served. -/
def request : Serving Rest Body → IncomingEthRequest
  | resolving request _ => .getBlockHeaders request
  | fetching request => .getBlockHeaders request
  | caching request _ _ => .getBlockHeaders request
  | bodies request _ _ => .getBlockBodies request

/-- The task waits for the end of a fetch. -/
def isFetching : Serving Rest Body → Bool
  | fetching _ => true
  | bodies _ (.fetching _ _) _ => true
  | _ => false

/-- The task takes a request. Those that need neither the cache nor a peer are replied to at
once. -/
def begin (hashSlow : Header Rest → B256) (blockImport : CachingBlockImport Rest Body)
    (event : HandlerEvent Rest Body) : Turn Rest Body :=
  match event.request with
  | .getBlockHeaders request =>
    .serving (.resolving request (ResolveState.initial blockImport request).phase)
  | .getBlockBodies request =>
    .serving (.bodies request (ServeState.start blockImport request).phase false)
  | request => .replied (handleRequest hashSlow event.fetchClient blockImport.cache request).1

/-- The next access to the cache, or the next decision between two accesses. -/
def advance (hashSlow : Header Rest → B256) (blockImport : CachingBlockImport Rest Body) :
    Serving Rest Body → CachingBlockImport Rest Body × Turn Rest Body
  | resolving request (.resolved []) => (blockImport, .serving (fetching request))
  | resolving request (.resolved headers) =>
    (blockImport, .replied (headersReply request headers false))
  | resolving request phase =>
    let state := ResolveState.lookup request { blockImport, phase, start := none, found := [] }
    (state.blockImport, .serving (resolving request state.phase))
  | fetching request => (blockImport, .serving (fetching request))
  | caching request fetched (header :: rest) =>
    ({ blockImport with cache := blockImport.cache.insertHeader (hashSlow header) header },
      .serving (caching request fetched rest))
  | caching request fetched [] => (blockImport, .replied (headersReply request fetched true))
  | bodies request (.replied response) asked =>
    (blockImport, .replied (bodiesReply request response asked))
  | bodies request (.fetching found missing) asked =>
    (blockImport, .serving (bodies request (.fetching found missing) asked))
  | bodies request phase asked =>
    let state := handlerStep (fun _ ↦ none) request { blockImport, phase }
    (state.blockImport, .serving (bodies request state.phase asked))

/-- The fetch ends, if the task waits for one. -/
def answer (fetchClient : FetchClient Rest Body) : Serving Rest Body → Turn Rest Body
  | fetching request =>
    match fetchClient.getHeaders (proxyRequest request) with
    | some fetched => .serving (caching request fetched fetched)
    | none => .replied (headersReply request [] true)
  | bodies request (.fetching found missing) _ =>
    match fetchClient.getBlockBodies missing with
    | some fetched => .serving (bodies request (.merging missing fetched [] request) true)
    | none => .serving (bodies request (.replied found) true)
  | serving => .serving serving

end Serving

namespace TaskState

/-- The task before its first request. -/
def initial (blockImport : CachingBlockImport Rest Body) : TaskState Rest Body where
  blockImport := blockImport
  accepted := []
  taken := 0
  current := none
  replies := []

/-- What the task does with the outcome of a step. -/
def turn (state : TaskState Rest Body) (fetchClient : FetchClient Rest Body) :
    Turn Rest Body → TaskState Rest Body
  | .serving serving => { state with current := some (serving, fetchClient) }
  | .replied reply => { state with current := none, replies := state.replies ++ [reply] }

def step (hashSlow : Header Rest → B256) (state : TaskState Rest Body) :
    TaskEvent Rest Body → TaskState Rest Body
  | .newBlock event => { state with blockImport := state.blockImport.onNewBlock event }
  | .incoming event =>
    if state.accepted.length < state.taken + requestCapacity then
      { state with accepted := state.accepted ++ [event] }
    else state
  | .advance =>
    match state.current with
    | some (serving, fetchClient) =>
      let (blockImport, outcome) := serving.advance hashSlow state.blockImport
      { state with blockImport }.turn fetchClient outcome
    | none =>
      match state.accepted[state.taken]? with
      | some event =>
        { state with taken := state.taken + 1 }.turn event.fetchClient
          (Serving.begin hashSlow state.blockImport event)
      | none => state
  | .answer =>
    match state.current with
    | some (serving, fetchClient) => state.turn fetchClient (serving.answer fetchClient)
    | none => state

end TaskState

/-! ### The order of the replies -/

/-- The request of an outcome. -/
def Turn.request : Turn Rest Body → IncomingEthRequest
  | .serving now => now.request
  | .replied reply => reply.request

section Requests

variable {hashSlow : Header Rest → B256} {blockImport : CachingBlockImport Rest Body}

theorem Serving.request_begin (event : HandlerEvent Rest Body) :
    (Serving.begin hashSlow blockImport event).request = event.request := by
  unfold Serving.begin
  split
  next request hrequest => exact hrequest.symm
  next request hrequest => exact hrequest.symm
  next => exact request_handleRequest _ _ _

theorem Serving.request_advance (serving : Serving Rest Body) :
    (serving.advance hashSlow blockImport).2.request = serving.request := by
  fun_cases Serving.advance <;> rfl

theorem Serving.request_answer (serving : Serving Rest Body)
    (fetchClient : FetchClient Rest Body) :
    (serving.answer fetchClient).request = serving.request := by
  fun_cases Serving.answer <;> rfl

end Requests

namespace TaskState

/-- The requests that were replied to, and the one that is served. -/
def requests (state : TaskState Rest Body) : List IncomingEthRequest :=
  state.replies.map Reply.request ++ state.current.toList.map fun served ↦ served.1.request

/-- What was taken from the channel, in its order, is replied to, except the last request while it
is served. No more than the capacity waits. -/
structure InOrder (state : TaskState Rest Body) : Prop where
  taken : state.requests = (state.accepted.take state.taken).map HandlerEvent.request
  taken_le : state.taken ≤ state.accepted.length
  waiting_le : state.accepted.length ≤ state.taken + requestCapacity

theorem InOrder.length_replies_add {state : TaskState Rest Body} (hstate : state.InOrder) :
    state.replies.length + state.current.toList.length = state.taken := by
  have htaken := congrArg List.length hstate.taken
  have htakenLe := hstate.taken_le
  rw [requests, List.length_append, List.length_map, List.length_map, List.length_map,
    List.length_take] at htaken
  omega

/-- What was sent replies to the first requests of the channel. -/
theorem InOrder.replies_prefix {state : TaskState Rest Body} (hstate : state.InOrder) :
    state.replies.map Reply.request <+: state.accepted.map HandlerEvent.request := by
  have htaken := (List.take_prefix state.taken state.accepted).map HandlerEvent.request
  rw [← hstate.taken] at htaken
  exact (List.prefix_append _ _).trans htaken

theorem requests_turn (state : TaskState Rest Body) (fetchClient : FetchClient Rest Body)
    (outcome : Turn Rest Body) :
    (state.turn fetchClient outcome).requests =
      state.replies.map Reply.request ++ [outcome.request] := by
  cases outcome with
  | serving serving => rfl
  | replied reply =>
    simp only [turn, requests, List.map_append, Option.toList_none, List.map_nil, List.append_nil]
    rfl

@[simp] theorem accepted_turn (state : TaskState Rest Body) (fetchClient : FetchClient Rest Body)
    (outcome : Turn Rest Body) : (state.turn fetchClient outcome).accepted = state.accepted := by
  cases outcome <;> rfl

@[simp] theorem taken_turn (state : TaskState Rest Body) (fetchClient : FetchClient Rest Body)
    (outcome : Turn Rest Body) : (state.turn fetchClient outcome).taken = state.taken := by
  cases outcome <;> rfl

/-- A step of the request that is served keeps the order. -/
theorem InOrder.turn {state : TaskState Rest Body} (hstate : state.InOrder)
    {serving : Serving Rest Body} {fetchClient : FetchClient Rest Body}
    (hcurrent : state.current = some (serving, fetchClient)) {outcome : Turn Rest Body}
    (houtcome : outcome.request = serving.request) (blockImport : CachingBlockImport Rest Body) :
    ({ state with blockImport }.turn fetchClient outcome).InOrder where
  taken := by
    have hrequests : state.requests = state.replies.map Reply.request ++ [serving.request] := by
      rw [requests, hcurrent]
      rfl
    rw [requests_turn, accepted_turn, taken_turn, houtcome]
    exact hrequests.symm.trans hstate.taken
  taken_le := by simpa using hstate.taken_le
  waiting_le := by simpa using hstate.waiting_le

/-- The next request is taken. -/
theorem InOrder.take {state : TaskState Rest Body} (hstate : state.InOrder)
    (hcurrent : state.current = none) {event : HandlerEvent Rest Body}
    (hevent : state.accepted[state.taken]? = some event) {outcome : Turn Rest Body}
    (houtcome : outcome.request = event.request) :
    ({ state with taken := state.taken + 1 }.turn event.fetchClient outcome).InOrder := by
  have hlt := (List.getElem?_eq_some_iff.mp hevent).1
  have hrequests : state.requests = state.replies.map Reply.request := by
    rw [requests, hcurrent, Option.toList_none, List.map_nil, List.append_nil]
  refine ⟨?_, ?_, ?_⟩
  · rw [requests_turn, accepted_turn, taken_turn, houtcome, List.take_add_one, hevent,
      List.map_append, ← hstate.taken, hrequests]
    rfl
  · rw [accepted_turn, taken_turn]
    exact hlt
  · rw [accepted_turn, taken_turn]
    have hwaiting := hstate.waiting_le
    show state.accepted.length ≤ state.taken + 1 + requestCapacity
    omega

theorem InOrder.step (hashSlow : Header Rest → B256) {state : TaskState Rest Body}
    (hstate : state.InOrder) (event : TaskEvent Rest Body) :
    (state.step hashSlow event).InOrder := by
  cases event with
  | newBlock event => exact ⟨hstate.taken, hstate.taken_le, hstate.waiting_le⟩
  | incoming event =>
    simp only [TaskState.step]
    split_ifs with hroom
    · refine ⟨?_, ?_, ?_⟩
      · rw [List.take_append_of_le_length hstate.taken_le]
        exact hstate.taken
      · rw [List.length_append]
        exact Nat.le_add_right_of_le hstate.taken_le
      · rw [List.length_append]
        exact hroom
    · exact hstate
  | advance =>
    simp only [TaskState.step]
    split
    next serving fetchClient hcurrent =>
      exact hstate.turn hcurrent (Serving.request_advance serving) _
    next hcurrent =>
      split
      next event hevent => exact hstate.take hcurrent hevent (Serving.request_begin event)
      next => exact hstate
  | answer =>
    simp only [TaskState.step]
    split
    next serving fetchClient hcurrent =>
      exact hstate.turn hcurrent (Serving.request_answer serving fetchClient) state.blockImport
    next => exact hstate

/-- The channel takes in what comes, as long as it has room. -/
theorem accepted_sublist (hashSlow : Header Rest → B256)
    (blockImport : CachingBlockImport Rest Body) (events : List (TaskEvent Rest Body)) :
    ((run (TaskState.step hashSlow) (.initial blockImport) events).accepted.map
      TaskEvent.incoming).Sublist events := by
  refine run_history (fun before (state : TaskState Rest Body) ↦
    (state.accepted.map TaskEvent.incoming).Sublist before) (List.Sublist.refl _) ?_ events
  intro before state event hstate
  have hmore : (state.accepted.map TaskEvent.incoming).Sublist (before ++ [event]) :=
    hstate.trans (List.sublist_append_left _ _)
  cases event with
  | newBlock event => exact hmore
  | incoming event =>
    simp only [TaskState.step]
    split_ifs
    · rw [List.map_append]
      exact hstate.append (List.Sublist.refl _)
    · exact hmore
  | advance =>
    simp only [TaskState.step]
    split
    next => rwa [accepted_turn]
    next =>
      split
      next => rwa [accepted_turn]
      next => exact hmore
  | answer =>
    simp only [TaskState.step]
    split
    next => rwa [accepted_turn]
    next => exact hmore

theorem inOrder_run (hashSlow : Header Rest → B256) (blockImport : CachingBlockImport Rest Body)
    (events : List (TaskEvent Rest Body)) :
    (run (TaskState.step hashSlow) (.initial blockImport) events).InOrder :=
  run_invariant InOrder (fun _ event _ hstate ↦ hstate.step hashSlow event)
    ⟨rfl, Nat.le_refl 0, Nat.zero_le _⟩ (eachStep_of_forall fun _ _ ↦ trivial)

end TaskState

end SentryNode.EthProxy
