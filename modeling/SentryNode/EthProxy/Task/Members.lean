import SentryNode.BlockCache.Collection
import SentryNode.EthProxy.Task

/-!
# What the request handler serves

`task_keeps` states what every run of the handler keeps, whatever blocks arrive between two of its
accesses. The cache and the replies are made of what was announced or fetched (`broughtIn`), and of
nothing else. The headers of a reply from the cache follow their request: they begin at its start
and go on in its steps, although no moment may have had them all (`Follows`). The bodies of a reply
are those of hashes of the request, as they were announced or fetched for it (`Gathered`).
-/

set_option autoImplicit false
set_option relaxedAutoImplicit false

namespace SentryNode.EthProxy

open Library

variable {Rest Body : Type*}

/-! ### What requests are on their way to -/

section Ways

variable {hashSlow : Header Rest → B256} {collection : Collection Rest Body} {capacity : ℕ}
  {request : GetBlockHeaders} {headers : List (Header Rest)} {left : ℕ}
  {blockImport : CachingBlockImport Rest Body}

/-- A number that a header request can start at. -/
def IsStart (collection : Collection Rest Body) : BlockHashOrNumber → UInt64 → Prop
  | .number start, number => number = start
  | .hash hash, number => ∃ header, (hash, header) ∈ collection.headers ∧ header.number = number

/-- The headers are members of the collection and follow the request: they begin at its start, go on
in its steps, and are no more than its limit. -/
structure Follows (collection : Collection Rest Body) (request : GetBlockHeaders)
    (headers : List (Header Rest)) : Prop where
  members : ∀ header ∈ headers, ∃ hash, (hash, header) ∈ collection.headers
  starts : ∀ first, headers.head? = some first →
    IsStart collection request.startBlock first.number
  steps : headers.IsChain fun first second ↦
    nextNumber request.direction (stepOf request) first.number = some second.number
  length_le : headers.length ≤ request.limit.toNat

theorem follows_nil (collection : Collection Rest Body) (request : GetBlockHeaders) :
    Follows collection request [] where
  members := List.forall_mem_nil _
  starts := fun _ hfirst ↦ by cases hfirst
  steps := List.isChain_nil
  length_le := Nat.zero_le _

/-- The number of the next header of an answer. -/
structure Awaits (collection : Collection Rest Body) (request : GetBlockHeaders)
    (headers : List (Header Rest)) (number : UInt64) : Prop where
  starts : headers = [] → IsStart collection request.startBlock number
  continues : ∀ last ∈ headers.getLast?,
    nextNumber request.direction (stepOf request) last.number = some number

/-- A resolver is on its way to headers that follow the request. -/
def Resolves (collection : Collection Rest Body) (request : GetBlockHeaders) :
    WalkPhase Rest → Prop
  | .starting hash => request.startBlock = .hash hash
  | .walking left number headers => headers.length + left < request.limit.toNat ∧
    Follows collection request headers ∧ Awaits collection request headers number
  | .resolved headers => Follows collection request headers

theorem resolves_loopHead (hfollows : Follows collection request headers)
    (hleft : headers.length + left ≤ request.limit.toNat) {current : Option UInt64}
    (hnext : ∀ number ∈ current, Awaits collection request headers number) :
    Resolves collection request (.loopHead left current headers) := by
  cases left with
  | zero => exact hfollows
  | succ left =>
    cases current with
    | none => exact hfollows
    | some number => exact ⟨by omega, hfollows, hnext number rfl⟩

theorem awaits_start {number : UInt64} (hstart : IsStart collection request.startBlock number) :
    Awaits collection request [] number where
  starts := fun _ ↦ hstart
  continues := fun _ hlast ↦ nomatch hlast

/-- One header more. -/
theorem Follows.concat {header : Header Rest} {hash : B256}
    (hfollows : Follows collection request headers)
    (hawaits : Awaits collection request headers header.number)
    (hmem : (hash, header) ∈ collection.headers) (hlimit : headers.length < request.limit.toNat) :
    Follows collection request (headers ++ [header]) where
  members := by
    intro member hmember
    rcases List.mem_append.mp hmember with hbefore | hlast
    · exact hfollows.members member hbefore
    · rw [List.mem_singleton.mp hlast]
      exact ⟨hash, hmem⟩
  starts := by
    intro first hfirst
    by_cases hnil : headers = []
    · rw [hnil, List.nil_append, List.head?_cons, Option.some_inj] at hfirst
      rw [← hfirst]
      exact hawaits.starts hnil
    · rw [List.head?_append_of_ne_nil _ hnil] at hfirst
      exact hfollows.starts first hfirst
  steps := by
    rw [List.isChain_append]
    refine ⟨hfollows.steps, List.isChain_singleton _, fun last hlast next hnext ↦ ?_⟩
    rw [List.head?_cons, Option.mem_some] at hnext
    rw [← hnext]
    exact hawaits.continues last hlast
  length_le := by
    rw [List.length_append]
    exact hlimit

theorem resolves_start (collection : Collection Rest Body) (request : GetBlockHeaders)
    (blockImport : CachingBlockImport Rest Body) :
    Resolves collection request (ResolveState.initial blockImport request).phase := by
  unfold ResolveState.initial
  split
  next number hnumber =>
    refine resolves_loopHead (follows_nil _ _) (Nat.le_of_eq (Nat.zero_add _)) ?_
    rintro _ ⟨⟩
    refine awaits_start ?_
    rw [hnumber]
    rfl
  next hash hhash => exact hhash

/-- A lookup of the resolver keeps its way, whatever the cache holds by now. -/
theorem resolves_lookup (hcache : PartOf collection capacity blockImport.cache)
    {phase : WalkPhase Rest} (hresolves : Resolves collection request phase) :
    let state := ResolveState.lookup request { blockImport, phase, start := none, found := [] }
    PartOf collection capacity state.cache ∧ Resolves collection request state.phase := by
  cases phase with
  | starting hash =>
    have hlookup : PartOf collection capacity (blockImport.cache.apply (.getHeaderByHash hash)) :=
      hcache.lookup rfl rfl
    refine ⟨hlookup, resolves_loopHead (follows_nil _ _) (Nat.le_of_eq (Nat.zero_add _)) ?_⟩
    intro number hnumber
    obtain ⟨found, hfound, rfl⟩ := Option.map_eq_some_iff.mp hnumber
    refine awaits_start ?_
    rw [show request.startBlock = .hash hash from hresolves]
    exact ⟨found, hcache.header_under hfound, rfl⟩
  | walking left number headers =>
    obtain ⟨hlimit, hfollows, hawaits⟩ := hresolves
    have hlookup : PartOf collection capacity
        (blockImport.cache.apply (.getHeaderByNumber number)) := hcache.lookup rfl rfl
    cases hpeek : blockImport.cache.headersByNumber.peek number with
    | none =>
      rw [lookup_walking_none hpeek]
      exact ⟨hlookup, hfollows⟩
    | some header =>
      obtain ⟨rfl, hash, hmem, -⟩ := hcache.header_at hpeek
      rw [lookup_walking_some hpeek]
      refine ⟨hlookup, resolves_loopHead (hfollows.concat hawaits hmem (by omega)) ?_ ?_⟩
      · rw [List.length_append, List.length_singleton]
        omega
      · intro next hnext
        refine ⟨fun hnil ↦ absurd hnil (by simp), fun last hlast ↦ ?_⟩
        rw [List.getLast?_concat, Option.mem_some] at hlast
        rw [← hlast]
        exact hnext
  | resolved headers => exact ⟨hcache, hresolves⟩

/-- Bodies gathered for a request, with room for as many more as are left: each of them is a member
under a hash of the request. -/
structure Gathered (collection : Collection Rest Body) (request : List B256) (found : List Body)
    (left : ℕ) : Prop where
  members : ∀ body ∈ found, ∃ hash ∈ request, (hash, body) ∈ collection.bodies
  length_le : found.length + left ≤ request.length

/-- The bodies of a fetch are members under every hash of the request. -/
def Usable (collection : Collection Rest Body) (request : List B256) (fetched : List Body) : Prop :=
  ∀ body ∈ fetched, ∀ hash ∈ request, (hash, body) ∈ collection.bodies

/-- A body request is on its way to bodies that are members under its hashes. -/
def Serves (collection : Collection Rest Body) (request : List B256) : Phase Body → Prop
  | .resolving found rest => rest ⊆ request ∧ Gathered collection request found rest.length
  | .collecting found _ _ => Gathered collection request found 0
  | .fetching found _ => Gathered collection request found 0
  | .merging _ fetchIter allBodies rest => rest ⊆ request ∧
    Gathered collection request allBodies rest.length ∧ Usable collection request fetchIter
  | .storing _ hash body fetchIter allBodies rest => rest ⊆ request ∧
    Gathered collection request (allBodies ++ [body]) rest.length ∧
    (hash, body) ∈ collection.bodies ∧ Usable collection request fetchIter
  | .replied response => Gathered collection request response 0

section Bodies

variable {hashes found rest : List B256} {bodies : List Body} {hash : B256} {body : Body}

theorem Gathered.mono {more : ℕ} (hgathered : Gathered collection hashes bodies left)
    (hmore : more ≤ left) : Gathered collection hashes bodies more :=
  ⟨hgathered.members, Nat.le_trans (Nat.add_le_add_left hmore _) hgathered.length_le⟩

theorem Gathered.concat (hgathered : Gathered collection hashes bodies (left + 1))
    (hhash : hash ∈ hashes) (hbody : (hash, body) ∈ collection.bodies) :
    Gathered collection hashes (bodies ++ [body]) left where
  members := by
    intro member hmember
    rcases List.mem_append.mp hmember with hbefore | hlast
    · exact hgathered.members member hbefore
    · rw [List.mem_singleton.mp hlast]
      exact ⟨hash, hhash, hbody⟩
  length_le := by
    have hlength := hgathered.length_le
    rw [List.length_append, List.length_singleton]
    omega

theorem partOf_lookedUp (hcache : PartOf collection capacity blockImport.cache) (hash : B256) :
    PartOf collection capacity (lookedUp blockImport hash).cache := by
  have hlookup : PartOf collection capacity (blockImport.cache.apply (.getBodyByHash hash)) :=
    hcache.lookup rfl rfl
  exact hlookup

/-- An access of a body request keeps its way, whatever the cache holds by now. -/
theorem serves_handlerStep (hcache : PartOf collection capacity blockImport.cache)
    {phase : Phase Body} (hserves : Serves collection hashes phase) :
    let state := handlerStep (fun _ ↦ none) hashes { blockImport, phase }
    PartOf collection capacity state.cache ∧ Serves collection hashes state.phase := by
  cases phase with
  | resolving found rest =>
    obtain ⟨hrest, hgathered⟩ := hserves
    cases rest with
    | nil =>
      simp only [handlerStep]
      split_ifs
      · exact ⟨hcache, hgathered⟩
      · exact ⟨hcache, hgathered⟩
    | cons hash rest =>
      obtain ⟨hhash, hrest⟩ := List.cons_subset.mp hrest
      rw [handlerStep_resolving]
      refine ⟨partOf_lookedUp hcache hash, hrest, ?_⟩
      cases hpeek : blockImport.cache.bodiesByHash.peek hash with
      | none =>
        rw [Option.toList_none, List.append_nil]
        exact hgathered.mono (Nat.le_succ _)
      | some body => exact hgathered.concat hhash (hcache.body_under hpeek)
  | collecting found missing rest =>
    cases rest with
    | nil =>
      simp only [handlerStep]
      split_ifs
      · exact ⟨hcache, hserves⟩
      · exact ⟨hcache, hserves⟩
    | cons hash rest =>
      rw [handlerStep_collecting]
      exact ⟨partOf_lookedUp hcache hash, hserves⟩
  | fetching found missing => exact ⟨hcache, hserves⟩
  | merging asked fetchIter allBodies rest =>
    obtain ⟨hrest, hgathered, husable⟩ := hserves
    cases rest with
    | nil => exact ⟨hcache, hgathered⟩
    | cons hash rest =>
      obtain ⟨hhash, hrest⟩ := List.cons_subset.mp hrest
      cases hpeek : blockImport.cache.bodiesByHash.peek hash with
      | some body =>
        rw [handlerStep_merging_cached hpeek]
        exact ⟨partOf_lookedUp hcache hash, hrest,
          hgathered.concat hhash (hcache.body_under hpeek), husable⟩
      | none =>
        cases fetchIter with
        | nil =>
          rw [handlerStep_merging_exhausted hpeek]
          exact ⟨hcache, hrest, hgathered.mono (Nat.le_succ _), husable⟩
        | cons body fetchIter =>
          rw [handlerStep_merging_fetched hpeek]
          obtain ⟨hbody, husable⟩ := List.forall_mem_cons.mp husable
          exact ⟨hcache, hrest, hgathered.concat hhash (hbody hash hhash), hbody hash hhash,
            husable⟩
  | storing asked hash body fetchIter allBodies rest =>
    obtain ⟨hrest, hgathered, hbody, husable⟩ := hserves
    exact ⟨hcache.apply (Collection.admits_insertBody hbody), hrest, hgathered, husable⟩
  | replied response => exact ⟨hcache, hserves⟩

end Bodies

end Ways

/-! ### What a request is served -/

/-- Where members come from: announced blocks, and the headers and bodies that a fetch for a request
came back with. -/
structure Sources (Rest Body : Type*) where
  blocks : Set (NewBlockMessage Rest Body)
  headers : Set (GetBlockHeaders × List (Header Rest))
  bodies : Set (List B256 × List Body)

namespace Sources

/-- Fetched headers are members under the hashes computed from them, and fetched bodies under every
hash of the request: which one the merge pairs them with depends on the cache. -/
def collection (hashSlow : Header Rest → B256) (sources : Sources Rest Body) :
    Collection Rest Body where
  headers := { entry | (∃ msg ∈ sources.blocks, entry = (msg.hash, msg.block.header)) ∨
    ∃ answer ∈ sources.headers, entry.2 ∈ answer.2 ∧ entry.1 = hashSlow entry.2 }
  bodies := { entry | (∃ msg ∈ sources.blocks, entry = (msg.hash, msg.block.body)) ∨
    ∃ answer ∈ sources.bodies, entry.1 ∈ answer.1 ∧ entry.2 ∈ answer.2 }

/-- What comes from one comes from another. -/
structure Within (first second : Sources Rest Body) : Prop where
  blocks : first.blocks ⊆ second.blocks
  headers : first.headers ⊆ second.headers
  bodies : first.bodies ⊆ second.bodies

/-- What is brought in on the way. -/
def collected {S E : Type*} (brings : S → E → Sources Rest Body) (step : S → E → S) (start : S)
    (events : List E) : Sources Rest Body where
  blocks := { msg | SomeStep (fun state event ↦ msg ∈ (brings state event).blocks) step start
    events }
  headers := { answer | SomeStep (fun state event ↦ answer ∈ (brings state event).headers) step
    start events }
  bodies := { answer | SomeStep (fun state event ↦ answer ∈ (brings state event).bodies) step start
    events }

theorem within_of_collected_cons {S E : Type*} {brings : S → E → Sources Rest Body}
    {step : S → E → S} {start : S} {event : E} {events : List E} {sources : Sources Rest Body}
    (hcollected : (collected brings step start (event :: events)).Within sources) :
    (brings start event).Within sources ∧
      (collected brings step (step start event) events).Within sources := by
  obtain ⟨hblocks, hheaders, hbodies⟩ := hcollected
  constructor
  · exact ⟨fun _ hmem ↦ hblocks (Or.inl hmem), fun _ hmem ↦ hheaders (Or.inl hmem),
      fun _ hmem ↦ hbodies (Or.inl hmem)⟩
  · exact ⟨fun _ hmem ↦ hblocks (Or.inr hmem), fun _ hmem ↦ hheaders (Or.inr hmem),
      fun _ hmem ↦ hbodies (Or.inr hmem)⟩

end Sources

/-- A request that is served is on its way to members. -/
def Serving.Sound (hashSlow : Header Rest → B256) (sources : Sources Rest Body) :
    Serving Rest Body → Prop
  | .resolving request phase => Resolves (sources.collection hashSlow) request phase
  | .fetching _ => True
  | .caching request fetched rest => rest ⊆ fetched ∧ (request, fetched) ∈ sources.headers
  | .bodies request phase _ => Serves (sources.collection hashSlow) request phase

/-- The reply is made of what came in. Headers from the cache follow the request, and there is at
least one; a peer's are those that the fetch came back with, and none when it failed. -/
def Reply.MadeOf (hashSlow : Header Rest → B256) (sources : Sources Rest Body)
    (reply : Reply Rest Body) : Prop :=
  match reply.request with
  | .getBlockHeaders request => ∃ headers, reply.response = some (.blockHeaders headers) ∧
    if reply.askedPeer then headers = [] ∨ (request, headers) ∈ sources.headers
    else headers ≠ [] ∧ Follows (sources.collection hashSlow) request headers
  | .getBlockBodies request => ∃ bodies, reply.response = some (.blockBodies bodies) ∧
    Gathered (sources.collection hashSlow) request bodies 0
  | request => ∃ response, reply = replyEmpty request response

def Turn.Sound (hashSlow : Header Rest → B256) (sources : Sources Rest Body) :
    Turn Rest Body → Prop
  | .serving now => now.Sound hashSlow sources
  | .replied reply => reply.MadeOf hashSlow sources

section Served

variable {hashSlow : Header Rest → B256} {sources : Sources Rest Body} {capacity : ℕ}
  {blockImport : CachingBlockImport Rest Body}

theorem Serving.sound_begin (event : HandlerEvent Rest Body) :
    (Serving.begin hashSlow blockImport event).Sound hashSlow sources := by
  obtain ⟨incoming, fetchClient⟩ := event
  cases incoming with
  | getBlockHeaders request => exact resolves_start _ request blockImport
  | getBlockBodies request =>
    exact ⟨List.Subset.refl _, List.forall_mem_nil _, Nat.le_of_eq (Nat.zero_add _)⟩
  | getNodeData | getReceipts | getReceipts69 | getReceipts70 | getBlockAccessLists =>
    exact ⟨_, rfl⟩

/-- A step of the task keeps the cache and the request on their way. -/
theorem Serving.sound_advance
    (hcache : PartOf (sources.collection hashSlow) capacity blockImport.cache)
    {serving : Serving Rest Body} (hserving : serving.Sound hashSlow sources) :
    PartOf (sources.collection hashSlow) capacity (serving.advance hashSlow blockImport).1.cache ∧
      (serving.advance hashSlow blockImport).2.Sound hashSlow sources := by
  fun_cases Serving.advance with
  | case1 request => exact ⟨hcache, trivial⟩
  | case2 request headers hsome => exact ⟨hcache, headers, rfl, hsome, hserving⟩
  | case3 request phase => exact resolves_lookup hcache hserving
  | case4 request => exact ⟨hcache, trivial⟩
  | case5 request fetched header rest =>
    obtain ⟨hrest, hfetched⟩ := hserving
    obtain ⟨hheader, hrest⟩ := List.cons_subset.mp hrest
    have hmem : (hashSlow header, header) ∈ (sources.collection hashSlow).headers :=
      Or.inr ⟨_, hfetched, hheader, rfl⟩
    exact ⟨hcache.apply (Collection.admits_insertHeader hmem), hrest, hfetched⟩
  | case6 request fetched => exact ⟨hcache, fetched, rfl, Or.inr hserving.2⟩
  | case7 request response asked => exact ⟨hcache, response, rfl, hserving⟩
  | case8 request found missing asked => exact ⟨hcache, hserving⟩
  | case9 request phase asked => exact serves_handlerStep hcache hserving

/-- What the end of a fetch brings in. -/
def Serving.fetched (fetchClient : FetchClient Rest Body) : Serving Rest Body → Sources Rest Body
  | .fetching request =>
    { blocks := ∅
      headers := { answer | answer.1 = request ∧
        fetchClient.getHeaders (proxyRequest request) = some answer.2 }
      bodies := ∅ }
  | .bodies request (.fetching _ missing) _ =>
    { blocks := ∅
      headers := ∅
      bodies := { answer | answer.1 = request ∧
        fetchClient.getBlockBodies missing = some answer.2 } }
  | _ => { blocks := ∅, headers := ∅, bodies := ∅ }

theorem Serving.sound_answer {fetchClient : FetchClient Rest Body} {serving : Serving Rest Body}
    (hserving : serving.Sound hashSlow sources)
    (hfetched : (serving.fetched fetchClient).Within sources) :
    (serving.answer fetchClient).Sound hashSlow sources := by
  fun_cases Serving.answer with
  | case1 request fetched hanswer =>
    exact ⟨List.Subset.refl _, hfetched.headers ⟨rfl, hanswer⟩⟩
  | case2 request hanswer => exact ⟨[], rfl, Or.inl rfl⟩
  | case3 request found missing asked fetched hanswer =>
    have hmem : (request, fetched) ∈ sources.bodies := hfetched.bodies ⟨rfl, hanswer⟩
    exact ⟨List.Subset.refl _, ⟨List.forall_mem_nil _, Nat.le_of_eq (Nat.zero_add _)⟩,
      fun body hbody hash hhash ↦ Or.inr ⟨_, hmem, hhash, hbody⟩⟩
  | case4 request found missing asked hanswer => exact hserving
  | case5 => exact hserving

end Served

/-! ### Runs -/

namespace TaskState

/-- What an event brings in: the announced block, or what the fetch that ends comes back with. -/
def brings (state : TaskState Rest Body) : TaskEvent Rest Body → Sources Rest Body
  | .newBlock (.block msg) => { blocks := {msg}, headers := ∅, bodies := ∅ }
  | .answer =>
    match state.current with
    | some (serving, fetchClient) => serving.fetched fetchClient
    | none => { blocks := ∅, headers := ∅, bodies := ∅ }
  | _ => { blocks := ∅, headers := ∅, bodies := ∅ }

/-- The cache, the request that is served and the replies are made of what came in. -/
structure Keeps (hashSlow : Header Rest → B256) (sources : Sources Rest Body) (capacity : ℕ)
    (state : TaskState Rest Body) : Prop where
  cache : PartOf (sources.collection hashSlow) capacity state.blockImport.cache
  current : ∀ served ∈ state.current, served.1.Sound hashSlow sources
  replies : ∀ reply ∈ state.replies, reply.MadeOf hashSlow sources

section Keeps

variable {hashSlow : Header Rest → B256} {sources : Sources Rest Body} {capacity : ℕ}

theorem Keeps.turn (state : TaskState Rest Body)
    (hcache : PartOf (sources.collection hashSlow) capacity state.blockImport.cache)
    (hreplies : ∀ reply ∈ state.replies, reply.MadeOf hashSlow sources)
    {outcome : Turn Rest Body} (houtcome : outcome.Sound hashSlow sources)
    (fetchClient : FetchClient Rest Body) :
    Keeps hashSlow sources capacity (state.turn fetchClient outcome) := by
  cases outcome with
  | serving now =>
    refine ⟨hcache, ?_, hreplies⟩
    rintro _ ⟨⟩
    exact houtcome
  | replied reply =>
    refine ⟨hcache, fun _ hserved ↦ (nomatch hserved), fun other hother ↦ ?_⟩
    rcases List.mem_append.mp hother with hbefore | hlast
    · exact hreplies other hbefore
    · rw [List.mem_singleton.mp hlast]
      exact houtcome

/-- A step keeps what is served within what came in. -/
theorem Keeps.step {state : TaskState Rest Body} (hstate : Keeps hashSlow sources capacity state)
    {event : TaskEvent Rest Body} (hevent : (state.brings event).Within sources) :
    Keeps hashSlow sources capacity (state.step hashSlow event) := by
  cases event with
  | newBlock event =>
    refine ⟨?_, hstate.current, hstate.replies⟩
    cases event with
    | block msg =>
      have hmem : msg ∈ sources.blocks := hevent.blocks rfl
      exact hstate.cache.apply (Collection.admits_insert_iff.mpr
        ⟨Or.inl ⟨msg, hmem, rfl⟩, Or.inl ⟨msg, hmem, rfl⟩⟩)
    | hashes hashes => exact hstate.cache
  | incoming event =>
    simp only [TaskState.step]
    split_ifs
    · exact ⟨hstate.cache, hstate.current, hstate.replies⟩
    · exact hstate
  | advance =>
    simp only [TaskState.step]
    split
    next serving fetchClient hcurrent =>
      obtain ⟨hcache, houtcome⟩ :=
        Serving.sound_advance hstate.cache (hstate.current _ hcurrent)
      exact Keeps.turn { state with blockImport := _ } hcache hstate.replies houtcome fetchClient
    next =>
      split
      next event _ =>
        exact Keeps.turn { state with taken := state.taken + 1 } hstate.cache hstate.replies
          (Serving.sound_begin event) event.fetchClient
      next => exact hstate
  | answer =>
    simp only [TaskState.step]
    split
    next serving fetchClient hcurrent =>
      rw [brings, hcurrent] at hevent
      exact Keeps.turn state hstate.cache hstate.replies
        (Serving.sound_answer (hstate.current _ hcurrent) hevent) fetchClient
    next => exact hstate

end Keeps

end TaskState

/-- What came in on the way: the announced blocks, and the headers and bodies fetched. -/
def broughtIn (hashSlow : Header Rest → B256) (start : TaskState Rest Body)
    (events : List (TaskEvent Rest Body)) : Sources Rest Body :=
  .collected TaskState.brings (TaskState.step hashSlow) start events

theorem TaskState.Keeps.run {hashSlow : Header Rest → B256} {sources : Sources Rest Body}
    {capacity : ℕ} {start : TaskState Rest Body} {events : List (TaskEvent Rest Body)}
    (hstart : start.Keeps hashSlow sources capacity)
    (hbrought : (broughtIn hashSlow start events).Within sources) :
    (run (TaskState.step hashSlow) start events).Keeps hashSlow sources capacity := by
  induction events generalizing start with
  | nil => exact hstart
  | cons event events ih =>
    obtain ⟨hbrings, hrest⟩ := Sources.within_of_collected_cons hbrought
    exact ih (hstart.step hbrings) hrest

/-- What is served is what came in. After every run of the request handler, with blocks, requests
and the ends of fetches at any moment: the cache comes from insertions of announced blocks and of
fetched headers and bodies; the requests that came in and found room in the channel are replied to
in their order, each once, but for those not taken and the one that is served; and each reply is
made of what was announced or fetched, headers from the cache in the steps of their request. -/
theorem task_keeps (hashSlow : Header Rest → B256) (capacity : ℕ)
    (events : List (TaskEvent Rest Body)) :
    let start : TaskState Rest Body := .initial { cache := .new capacity, rebroadcastTx := [] }
    let state := run (TaskState.step hashSlow) start events
    let sources := broughtIn hashSlow start events
    PartOf (sources.collection hashSlow) capacity state.blockImport.cache ∧
      (state.accepted.map TaskEvent.incoming).Sublist events ∧
      state.replies.map Reply.request ++ state.current.toList.map (fun served ↦ served.1.request) =
        (state.accepted.take state.taken).map HandlerEvent.request ∧
      state.accepted.length ≤ state.taken + requestCapacity ∧
      ∀ reply ∈ state.replies, reply.MadeOf hashSlow sources := by
  intro start state sources
  have hstart : start.Keeps hashSlow sources capacity :=
    ⟨.new _ capacity, fun _ hserved ↦ (nomatch hserved), List.forall_mem_nil _⟩
  have hkeeps : state.Keeps hashSlow sources capacity :=
    hstart.run ⟨Set.Subset.rfl, Set.Subset.rfl, Set.Subset.rfl⟩
  have horder := TaskState.inOrder_run hashSlow start.blockImport events
  exact ⟨hkeeps.cache, TaskState.accepted_sublist hashSlow start.blockImport events, horder.taken,
    horder.waiting_le, hkeeps.replies⟩

end SentryNode.EthProxy
