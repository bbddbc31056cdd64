import SentryNode.EthProxy.Task

/-!
# The request handler and its serial counterpart

As long as every block arrives while the handler waits for a request, the order of its accesses does
not matter: a request might as well be handled at once, at the moment it is taken. `SerialState` is
the machine that does so, and `TaskState.finished` the state of it that a state of the handler
stands for: the request that is served is carried through, by `Serving.finish`. A step leaves what
is carried through as it was, a block and the taking of a request are the same step of both
machines, and so every run of the one is a run of the other (`task_serial`).
-/

set_option autoImplicit false
set_option relaxedAutoImplicit false

namespace SentryNode.EthProxy

open Library

variable {Rest Body : Type*}

/-! ### The serial machine -/

/-- The block import and the replies so far. -/
structure SerialState (Rest Body : Type*) where
  blockImport : CachingBlockImport Rest Body
  replies : List (Reply Rest Body)

/-- An announcement, or a request that is handled at once. -/
inductive SerialEvent (Rest Body : Type*)
  | newBlock (event : NewBlockEvent Rest Body)
  | request (event : HandlerEvent Rest Body)

/-- A reply is sent and the cache is left as given. -/
def SerialState.reply (state : SerialState Rest Body)
    (handled : Reply Rest Body × BlockCache Rest Body) : SerialState Rest Body where
  blockImport := { state.blockImport with cache := handled.2 }
  replies := state.replies ++ [handled.1]

def SerialState.step (hashSlow : Header Rest → B256) (state : SerialState Rest Body) :
    SerialEvent Rest Body → SerialState Rest Body
  | .newBlock event => { state with blockImport := state.blockImport.onNewBlock event }
  | .request event =>
    state.reply (handleRequest hashSlow event.fetchClient state.blockImport.cache event.request)

def SerialEvent.handled : SerialEvent Rest Body → Option (HandlerEvent Rest Body)
  | .newBlock _ => none
  | .request event => some event

def SerialEvent.announced : SerialEvent Rest Body → Option (NewBlockEvent Rest Body)
  | .newBlock event => some event
  | .request _ => none

def TaskEvent.announced : TaskEvent Rest Body → Option (NewBlockEvent Rest Body)
  | .newBlock event => some event
  | _ => none

/-! ### Carrying a request through -/

section Finish

variable (hashSlow : Header Rest → B256) (fetchClient : FetchClient Rest Body)

/-- The rest of a resolution. -/
def WalkPhase.finish (request : GetBlockHeaders) (cache : BlockCache Rest Body) :
    WalkPhase Rest → List (Header Rest) × BlockCache Rest Body
  | .starting hash =>
    let (header, cache) := cache.getHeaderByHash hash
    resolveHeadersLoop request.direction (stepOf request) request.limit.toNat
      (header.map Header.number) [] cache
  | .walking left number headers =>
    resolveHeadersLoop request.direction (stepOf request) (left + 1) (some number) headers cache
  | .resolved headers => (headers, cache)

/-- The rest of a header request, from its fetch on. -/
def finishFetch (request : GetBlockHeaders) (cache : BlockCache Rest Body) :
    Reply Rest Body × BlockCache Rest Body :=
  match fetchClient.getHeaders (proxyRequest request) with
  | some fetched => (headersReply request fetched true, cacheHeaders hashSlow cache fetched)
  | none => (headersReply request [] true, cache)

/-- The rest of a header request, from the end of its resolution on. -/
def finishHeaders (request : GetBlockHeaders) :
    List (Header Rest) × BlockCache Rest Body → Reply Rest Body × BlockCache Rest Body
  | ([], cache) => finishFetch hashSlow fetchClient request cache
  | (headers, cache) => (headersReply request headers false, cache)

/-- The rest of a body request, from its fetch on. -/
def finishFetchBodies (request : List B256) (cache : BlockCache Rest Body) (found : List Body)
    (missing : List B256) : Reply Rest Body × BlockCache Rest Body :=
  let (response, cache) := finishBodies cache request found (fetchClient.getBlockBodies missing)
  (bodiesReply request response true, cache)

/-- The rest of a body request, from the end of its second pass on. -/
def finishCollect (request : List B256) (asked : Bool) (found : List Body) (missing : List B256)
    (cache : BlockCache Rest Body) : Reply Rest Body × BlockCache Rest Body :=
  if missing = [] then (bodiesReply request found asked, cache)
  else finishFetchBodies fetchClient request cache found missing

/-- The rest of a body request, from the end of its first pass on. -/
def finishResolve (request : List B256) (asked : Bool) (found : List Body)
    (cache : BlockCache Rest Body) : Reply Rest Body × BlockCache Rest Body :=
  if found.length = request.length ∧ 0 < request.length then
    (bodiesReply request found asked, cache)
  else
    let (missing, cache) := missingHashes cache request
    finishCollect fetchClient request asked found missing cache

/-- The rest of a body request, from the end of its merge on. -/
def finishMerge (request : List B256) (asked : Bool) (merged : MergeState Rest Body) :
    Reply Rest Body × BlockCache Rest Body :=
  (bodiesReply request merged.allBodies asked, merged.cache)

/-- The rest of a body request. -/
def Phase.finish (request : List B256) (cache : BlockCache Rest Body) (asked : Bool) :
    Phase Body → Reply Rest Body × BlockCache Rest Body
  | .resolving found rest =>
    let (found, cache) := rest.foldl resolveBodiesStep (found, cache)
    finishResolve fetchClient request asked found cache
  | .collecting found missing rest =>
    let (missing, cache) := rest.foldl missingHashesStep (missing, cache)
    finishCollect fetchClient request asked found missing cache
  | .fetching found missing => finishFetchBodies fetchClient request cache found missing
  | .merging _ fetchIter allBodies rest =>
    finishMerge request asked (rest.foldl mergeStep { cache, fetchIter, allBodies })
  | .storing _ hash body fetchIter allBodies rest =>
    finishMerge request asked (rest.foldl mergeStep
      { cache := cache.insertBody hash body, fetchIter, allBodies := allBodies ++ [body] })
  | .replied response => (bodiesReply request response asked, cache)

/-- The rest of a request. -/
def Serving.finish (cache : BlockCache Rest Body) :
    Serving Rest Body → Reply Rest Body × BlockCache Rest Body
  | .resolving request phase =>
    finishHeaders hashSlow fetchClient request (phase.finish request cache)
  | .fetching request => finishFetch hashSlow fetchClient request cache
  | .caching request fetched rest =>
    (headersReply request fetched true, cacheHeaders hashSlow cache rest)
  | .bodies request phase asked => phase.finish fetchClient request cache asked

/-- What is carried through of an outcome. -/
def Turn.finish (cache : BlockCache Rest Body) :
    Turn Rest Body → Reply Rest Body × BlockCache Rest Body
  | .serving now => now.finish hashSlow fetchClient cache
  | .replied reply => (reply, cache)

end Finish

/-! ### A step leaves it as it was -/

section Steps

variable {hashSlow : Header Rest → B256} {fetchClient : FetchClient Rest Body}
  {blockImport : CachingBlockImport Rest Body}

theorem WalkPhase.finish_loopHead (request : GetBlockHeaders) (cache : BlockCache Rest Body)
    (left : ℕ) (current : Option UInt64) (headers : List (Header Rest)) :
    (WalkPhase.loopHead left current headers).finish request cache =
      resolveHeadersLoop request.direction (stepOf request) left current headers cache := by
  cases left with
  | zero => rfl
  | succ left => cases current <;> rfl

theorem WalkPhase.finish_lookup (request : GetBlockHeaders) (phase : WalkPhase Rest) :
    let state := ResolveState.lookup request { blockImport, phase, start := none, found := [] }
    state.phase.finish request state.cache = phase.finish request blockImport.cache := by
  cases phase with
  | starting hash => exact finish_loopHead request _ _ _ _
  | walking left number headers =>
    cases hpeek : blockImport.cache.headersByNumber.peek number with
    | none =>
      rw [lookup_walking_none hpeek]
      simp only [finish, resolveHeadersLoop, BlockCache.getHeaderByNumber, LruCache.get, hpeek]
      rfl
    | some header =>
      rw [lookup_walking_some hpeek]
      refine (finish_loopHead request _ _ _ _).trans ?_
      simp only [finish, resolveHeadersLoop, BlockCache.getHeaderByNumber, LruCache.get, hpeek]
      rfl
  | resolved headers => rfl

theorem Phase.finish_handlerStep (request : List B256) (asked : Bool) {phase : Phase Body}
    (hphase : ∀ found missing, phase ≠ .fetching found missing) :
    let state := handlerStep (fun _ ↦ none) request { blockImport, phase }
    state.phase.finish fetchClient request state.cache asked =
      phase.finish fetchClient request blockImport.cache asked := by
  cases phase with
  | resolving found rest =>
    cases rest with
    | nil =>
      simp only [handlerStep]
      split_ifs with hfull
      · exact (if_pos hfull).symm
      · exact (if_neg hfull).symm
    | cons hash rest => rfl
  | collecting found missing rest =>
    cases rest with
    | nil =>
      simp only [handlerStep]
      split_ifs with hnone
      · exact (if_pos hnone).symm
      · exact (if_neg hnone).symm
    | cons hash rest => rfl
  | fetching found missing => exact absurd rfl (hphase found missing)
  | merging hashes fetchIter allBodies rest =>
    cases rest with
    | nil => rfl
    | cons hash rest =>
      cases hpeek : blockImport.cache.bodiesByHash.peek hash with
      | some body =>
        rw [handlerStep_merging_cached hpeek]
        simp only [finish, List.foldl_cons]
        rw [mergeStep_of_cached hpeek]
        rfl
      | none =>
        cases fetchIter with
        | nil =>
          rw [handlerStep_merging_exhausted hpeek]
          simp only [finish, List.foldl_cons]
          rw [mergeStep_of_exhausted hpeek rfl]
          rfl
        | cons body fetchIter =>
          rw [handlerStep_merging_fetched hpeek]
          simp only [finish, List.foldl_cons]
          rw [mergeStep_of_fetched hpeek rfl]
          rfl
  | storing hashes hash body fetchIter allBodies rest => rfl
  | replied response => rfl

/-- A step of the request leaves what is carried through as it was. -/
theorem Serving.finish_advance (serving : Serving Rest Body) :
    (serving.advance hashSlow blockImport).2.finish hashSlow fetchClient
        (serving.advance hashSlow blockImport).1.cache =
      serving.finish hashSlow fetchClient blockImport.cache := by
  fun_cases Serving.advance with
  | case1 request => rfl
  | case2 request headers hsome =>
    cases headers with
    | nil => exact absurd rfl hsome
    | cons header headers => rfl
  | case3 request phase =>
    exact congrArg (finishHeaders hashSlow fetchClient request)
      (WalkPhase.finish_lookup request phase)
  | case4 request => rfl
  | case5 request fetched header rest => rfl
  | case6 request fetched => rfl
  | case7 request response asked => rfl
  | case8 request found missing asked => rfl
  | case9 request phase asked _ hphase => exact Phase.finish_handlerStep request asked hphase

/-- So does the end of its fetch. -/
theorem Serving.finish_answer (serving : Serving Rest Body) (cache : BlockCache Rest Body) :
    (serving.answer fetchClient).finish hashSlow fetchClient cache =
      serving.finish hashSlow fetchClient cache := by
  fun_cases Serving.answer with
  | case1 request fetched hanswer => simp only [Turn.finish, finish, finishFetch, hanswer]
  | case2 request hanswer => simp only [Turn.finish, finish, finishFetch, hanswer]
  | case3 request found missing asked fetched hanswer =>
    simp only [Turn.finish, finish, Phase.finish, finishFetchBodies, hanswer]
    rfl
  | case4 request found missing asked hanswer =>
    simp only [Turn.finish, finish, Phase.finish, finishFetchBodies, hanswer]
    rfl
  | case5 => rfl

theorem WalkPhase.finish_initial (blockImport : CachingBlockImport Rest Body)
    (request : GetBlockHeaders) :
    (ResolveState.initial blockImport request).phase.finish request blockImport.cache =
      resolveHeadersFromCache blockImport.cache request := by
  unfold ResolveState.initial
  split
  next number hnumber =>
    rw [finish_loopHead, resolveHeadersFromCache, hnumber]
    rfl
  next hash hhash =>
    rw [resolveHeadersFromCache, hhash]
    rfl

theorem finishHeaders_resolve (request : GetBlockHeaders) (cache : BlockCache Rest Body) :
    finishHeaders hashSlow fetchClient request (resolveHeadersFromCache cache request) =
      handleRequest hashSlow fetchClient cache (.getBlockHeaders request) := by
  simp only [handleRequest, getBlockHeaders]
  rcases resolveHeadersFromCache cache request with ⟨- | ⟨header, headers⟩, resolved⟩
  · simp only [finishHeaders, finishFetch]
    cases fetchClient.getHeaders (proxyRequest request) <;> rfl
  · rfl

theorem finishResolve_resolve (request : List B256) (cache : BlockCache Rest Body) :
    finishResolve fetchClient request false (resolveBodiesFromCache cache request).1
        (resolveBodiesFromCache cache request).2 =
      handleRequest hashSlow fetchClient cache (.getBlockBodies request) := by
  simp only [handleRequest, getBlockBodies, beginBodies, finishResolve, finishCollect]
  split_ifs <;> rfl

/-- A request that is taken and carried through is a request handled at once. -/
theorem Serving.finish_begin (event : HandlerEvent Rest Body) :
    (Serving.begin hashSlow blockImport event).finish hashSlow event.fetchClient
        blockImport.cache =
      handleRequest hashSlow event.fetchClient blockImport.cache event.request := by
  obtain ⟨incoming, fetchClient⟩ := event
  cases incoming with
  | getBlockHeaders request =>
    have hresolve := WalkPhase.finish_initial blockImport request
    exact (congrArg (finishHeaders hashSlow fetchClient request) hresolve).trans
      (finishHeaders_resolve request blockImport.cache)
  | getBlockBodies request => exact finishResolve_resolve request blockImport.cache
  | getNodeData | getReceipts | getReceipts69 | getReceipts70 | getBlockAccessLists => rfl

theorem rebroadcastTx_lookup (request : GetBlockHeaders) (state : ResolveState Rest Body) :
    (state.lookup request).blockImport.rebroadcastTx = state.blockImport.rebroadcastTx := by
  unfold ResolveState.lookup
  split
  next => rfl
  next => split <;> rfl
  next => rfl

theorem rebroadcastTx_handlerStep (peer : List B256 → Option (List Body)) (request : List B256)
    (state : ServeState Rest Body) :
    (handlerStep peer request state).blockImport.rebroadcastTx =
      state.blockImport.rebroadcastTx := by
  fun_cases handlerStep <;> rfl

/-- The accesses of a request send nothing to the rebroadcast task. -/
theorem Serving.rebroadcastTx_advance (serving : Serving Rest Body) :
    (serving.advance hashSlow blockImport).1.rebroadcastTx = blockImport.rebroadcastTx := by
  fun_cases Serving.advance with
  | case3 request phase => exact rebroadcastTx_lookup request _
  | case9 request phase => exact rebroadcastTx_handlerStep _ request _
  | case1 | case2 | case4 | case5 | case6 | case7 | case8 => rfl

end Steps

/-! ### Refinement -/

namespace TaskState

/-- The state of the serial machine that a state stands for: the request that is served is carried
through. -/
def finished (hashSlow : Header Rest → B256) (state : TaskState Rest Body) :
    SerialState Rest Body :=
  let serial : SerialState Rest Body :=
    { blockImport := state.blockImport, replies := state.replies }
  match state.current with
  | some (serving, fetchClient) =>
    serial.reply (serving.finish hashSlow fetchClient state.blockImport.cache)
  | none => serial

/-- What a step stands for: a block, or the request it takes. -/
def serialEvents (state : TaskState Rest Body) :
    TaskEvent Rest Body → List (SerialEvent Rest Body)
  | .newBlock event => [.newBlock event]
  | .advance =>
    match state.current with
    | some _ => []
    | none => (state.accepted[state.taken]?.map SerialEvent.request).toList
  | _ => []

/-- A block arrives while no request is served. -/
def BlocksBetween (state : TaskState Rest Body) (event : TaskEvent Rest Body) : Prop :=
  event.announced.isSome → state.current = none

instance (state : TaskState Rest Body) (event : TaskEvent Rest Body) :
    Decidable (state.BlocksBetween event) :=
  inferInstanceAs (Decidable (event.announced.isSome → state.current = none))

theorem finished_turn (hashSlow : Header Rest → B256) (state : TaskState Rest Body)
    (fetchClient : FetchClient Rest Body) (outcome : Turn Rest Body) :
    (state.turn fetchClient outcome).finished hashSlow =
      SerialState.reply { blockImport := state.blockImport, replies := state.replies }
        (outcome.finish hashSlow fetchClient state.blockImport.cache) := by
  cases outcome <;> rfl

theorem finished_of_current {hashSlow : Header Rest → B256} {state : TaskState Rest Body}
    {serving : Serving Rest Body} {fetchClient : FetchClient Rest Body}
    (hcurrent : state.current = some (serving, fetchClient)) :
    state.finished hashSlow =
      SerialState.reply { blockImport := state.blockImport, replies := state.replies }
        (serving.finish hashSlow fetchClient state.blockImport.cache) := by
  simp only [finished, hcurrent]

theorem finished_of_idle {hashSlow : Header Rest → B256} {state : TaskState Rest Body}
    (hcurrent : state.current = none) :
    state.finished hashSlow = { blockImport := state.blockImport, replies := state.replies } := by
  simp only [finished, hcurrent]

/-- One step of the handler is what it stands for. -/
theorem finished_step {hashSlow : Header Rest → B256} (state : TaskState Rest Body)
    (event : TaskEvent Rest Body) (hevent : state.BlocksBetween event) :
    (state.step hashSlow event).finished hashSlow =
      run (SerialState.step hashSlow) (state.finished hashSlow) (state.serialEvents event) := by
  cases event with
  | newBlock event =>
    have hcurrent : state.current = none := hevent rfl
    rw [finished_of_idle hcurrent]
    exact finished_of_idle hcurrent
  | incoming event =>
    simp only [TaskState.step]
    split_ifs <;> rfl
  | advance =>
    cases hcurrent : state.current with
    | some served =>
      obtain ⟨serving, fetchClient⟩ := served
      simp only [TaskState.step, serialEvents, hcurrent, run_nil]
      rw [finished_turn, finished_of_current hcurrent, Serving.finish_advance]
      simp only [SerialState.reply, Serving.rebroadcastTx_advance]
    | none =>
      rw [finished_of_idle hcurrent]
      cases hevent : state.accepted[state.taken]? with
      | some event =>
        simp only [TaskState.step, serialEvents, hcurrent, hevent]
        rw [finished_turn, Serving.finish_begin]
        rfl
      | none =>
        simp only [TaskState.step, serialEvents, hcurrent, hevent]
        exact finished_of_idle hcurrent
  | answer =>
    cases hcurrent : state.current with
    | some served =>
      obtain ⟨serving, fetchClient⟩ := served
      simp only [TaskState.step, serialEvents, hcurrent, run_nil]
      rw [finished_turn, finished_of_current hcurrent, Serving.finish_answer]
    | none =>
      simp only [TaskState.step, serialEvents, hcurrent, run_nil]

/-- What is taken from the channel, and what a step stands for. -/
theorem taken_step (hashSlow : Header Rest → B256) {state : TaskState Rest Body}
    (hstate : state.InOrder) (event : TaskEvent Rest Body) :
    (state.step hashSlow event).accepted.take (state.step hashSlow event).taken =
      state.accepted.take state.taken ++
        (state.serialEvents event).filterMap SerialEvent.handled := by
  cases event with
  | newBlock event => exact (List.append_nil _).symm
  | incoming event =>
    simp only [TaskState.step, serialEvents, List.filterMap_nil, List.append_nil]
    split_ifs
    · exact List.take_append_of_le_length hstate.taken_le
    · rfl
  | advance =>
    cases hcurrent : state.current with
    | some served =>
      simp only [TaskState.step, serialEvents, hcurrent, accepted_turn, taken_turn,
        List.filterMap_nil, List.append_nil]
    | none =>
      cases hevent : state.accepted[state.taken]? with
      | some event =>
        simp only [TaskState.step, serialEvents, hcurrent, hevent, accepted_turn, taken_turn,
          List.take_add_one]
        rfl
      | none =>
        simp only [TaskState.step, serialEvents, hcurrent, hevent]
        exact (List.append_nil _).symm
  | answer =>
    cases hcurrent : state.current with
    | some served =>
      simp only [TaskState.step, serialEvents, hcurrent, accepted_turn, taken_turn,
        List.filterMap_nil, List.append_nil]
    | none =>
      simp only [TaskState.step, serialEvents, hcurrent, List.filterMap_nil, List.append_nil]

theorem announced_serialEvents (state : TaskState Rest Body) (event : TaskEvent Rest Body) :
    (state.serialEvents event).filterMap SerialEvent.announced = event.announced.toList := by
  cases event with
  | newBlock event => rfl
  | incoming event => rfl
  | advance =>
    simp only [serialEvents]
    split
    · rfl
    · cases state.accepted[state.taken]? <;> rfl
  | answer => rfl

/-- The serial machine's run that a run of the handler stands for. -/
def trace (hashSlow : Header Rest → B256) (blockImport : CachingBlockImport Rest Body)
    (events : List (TaskEvent Rest Body)) : List (SerialEvent Rest Body) :=
  traced serialEvents (TaskState.step hashSlow) (.initial blockImport) events

section Runs

variable {hashSlow : Header Rest → B256} {blockImport : CachingBlockImport Rest Body}
  {events : List (TaskEvent Rest Body)}

theorem finished_run
    (hblocks : EachStep BlocksBetween (TaskState.step hashSlow) (.initial blockImport) events) :
    (run (TaskState.step hashSlow) (.initial blockImport) events).finished hashSlow =
      run (SerialState.step hashSlow) { blockImport, replies := [] }
        (trace hashSlow blockImport events) :=
  run_traced (TaskState.finished hashSlow) TaskState.finished_step hblocks

theorem handled_trace (hashSlow : Header Rest → B256) (blockImport : CachingBlockImport Rest Body)
    (events : List (TaskEvent Rest Body)) :
    let state := run (TaskState.step hashSlow) (.initial blockImport) events
    (trace hashSlow blockImport events).filterMap SerialEvent.handled =
      state.accepted.take state.taken := by
  intro state
  have hhandled := run_collected (fun state : TaskState Rest Body ↦
    state.accepted.take state.taken) InOrder (fun _ event hstate ↦ hstate.step hashSlow event)
    (fun _ event hstate ↦ taken_step hashSlow hstate event)
    (inOrder_run hashSlow blockImport []) events
  exact hhandled.symm

theorem announced_trace (hashSlow : Header Rest → B256)
    (blockImport : CachingBlockImport Rest Body) (events : List (TaskEvent Rest Body)) :
    (trace hashSlow blockImport events).filterMap SerialEvent.announced =
      events.filterMap TaskEvent.announced :=
  filterMap_traced announced_serialEvents _ _ events

/-- What was sent is what is sent in the end, but for the reply that is under way. -/
theorem replies_prefix_finished (hashSlow : Header Rest → B256) (state : TaskState Rest Body) :
    state.replies <+: (state.finished hashSlow).replies := by
  cases hcurrent : state.current with
  | some served =>
    rw [finished_of_current hcurrent]
    exact List.prefix_append _ _
  | none => simp only [finished_of_idle hcurrent, List.prefix_refl]

end Runs

end TaskState

/-- The handler is serial between blocks. Assumes: a run in which blocks arrive only while no
request is served. The state it stands for is the one that the serial machine reaches, over the
blocks of the run and the requests taken from the channel, each in their order. What was sent is
what that machine replied, but for the request that is still served. -/
theorem task_serial (hashSlow : Header Rest → B256) (blockImport : CachingBlockImport Rest Body)
    (events : List (TaskEvent Rest Body))
    (hblocks : EachStep TaskState.BlocksBetween (TaskState.step hashSlow) (.initial blockImport)
      events) :
    let state := run (TaskState.step hashSlow) (.initial blockImport) events
    let trace := TaskState.trace hashSlow blockImport events
    let serial := run (SerialState.step hashSlow) { blockImport, replies := [] } trace
    trace.filterMap SerialEvent.handled = state.accepted.take state.taken ∧
      trace.filterMap SerialEvent.announced = events.filterMap TaskEvent.announced ∧
      state.finished hashSlow = serial ∧ state.replies <+: serial.replies ∧
      (state.current = none → state.blockImport = serial.blockImport ∧
        state.replies = serial.replies) := by
  intro state trace serial
  have hfinished : state.finished hashSlow = serial := TaskState.finished_run hblocks
  refine ⟨TaskState.handled_trace hashSlow blockImport events,
    TaskState.announced_trace hashSlow blockImport events, hfinished, ?_, fun hcurrent ↦ ?_⟩
  · rw [← hfinished]
    exact TaskState.replies_prefix_finished hashSlow state
  · rw [← hfinished, TaskState.finished_of_idle hcurrent]
    exact ⟨rfl, rfl⟩

/-- A block, a body request with one body missing, which a peer has, and a request for receipts. -/
theorem task_serial_of_two :
    let blockImport : CachingBlockImport UInt8 UInt8 := { cache := .new 4, rebroadcastTx := [] }
    let client : FetchClient UInt8 UInt8 :=
      ⟨fun _ ↦ none, fun missing ↦ some (missing.map fun _ ↦ 13)⟩
    let events : List (TaskEvent UInt8 UInt8) :=
      [.newBlock (.block ⟨.repeatByte 1, ⟨⟨.repeatByte 0, 5, 60, 1⟩, 11⟩⟩),
        .incoming ⟨.getBlockBodies [.repeatByte 1, .repeatByte 3], client⟩,
        .incoming ⟨.getReceipts, client⟩] ++
      List.replicate 7 .advance ++ [.answer] ++ List.replicate 6 .advance
    let state := run (TaskState.step fun _ ↦ .repeatByte 0) (.initial blockImport) events
    let trace := TaskState.trace (fun _ ↦ .repeatByte 0) blockImport events
    state.replies = (run (SerialState.step fun _ ↦ .repeatByte 0) ⟨blockImport, []⟩ trace).replies ∧
      state.replies.map Reply.response = [some (.blockBodies [11, 13]), some .noReceipts] := by
  intro blockImport client events state trace
  have hblocks : EachStep TaskState.BlocksBetween (TaskState.step fun _ ↦ .repeatByte 0)
      (.initial blockImport) events := by decide +kernel
  have hidle : state.current = none := by decide +kernel
  obtain ⟨-, -, -, -, hserial⟩ := task_serial (fun _ ↦ .repeatByte 0) blockImport events hblocks
  exact ⟨(hserial hidle).2, by decide +kernel⟩

end SentryNode.EthProxy
