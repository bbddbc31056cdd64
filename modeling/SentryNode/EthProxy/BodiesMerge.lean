import SentryNode.EthProxy.Bodies

/-!
# When the merge pairs fetched bodies with their hashes

Bodies carry no hash, so the merge loop pairs by position: the next body of the fetched list goes to
the next requested hash the cache does not hold when the loop reaches it. The list was fetched for
the hashes the cache did not hold before the loop, and the loop's own insertions move the cache in
between: they add hashes and evict others.

`mergePlaced_right_iff` is the exact condition for one run of the loop, against any fetched list. On
the hashes found absent during the loop, in their order, the fetched bodies must be right up to the
shorter of the two lists. The hashes found absent are read off the recency window of the cache
(`windowMisses`) and depend on no body. `getBlockBodies_right_iff` is the condition for a whole
request against an honest and complete peer: the hashes outside the window when the loop reaches
them have the same bodies, position by position, as the hashes the cache did not hold at the start.
A repeated uncached hash, or a cached hash that the insertions push out, breaks it.
-/

set_option autoImplicit false
set_option relaxedAutoImplicit false

namespace SentryNode.EthProxy

open Library Library.Recency

variable {Rest Body : Type*}

/-! ### Right caches and honest peers -/

/-- Each cached body is the body of the hash it is stored under. -/
def BodiesRight (bodyOf : B256 → Body) (cache : BlockCache Rest Body) : Prop :=
  ∀ entry ∈ cache.bodiesByHash.entries, entry.2 = bodyOf entry.1

instance [DecidableEq Body] (bodyOf : B256 → Body) (cache : BlockCache Rest Body) :
    Decidable (BodiesRight bodyOf cache) := inferInstanceAs (Decidable (∀ entry ∈ _, _))

/-- A right cache is a part of the store of all bodies. -/
theorem bodiesRight_iff {bodyOf : B256 → Body} {cache : BlockCache Rest Body} :
    BodiesRight bodyOf cache ↔ cache.bodiesByHash.Reflects fun hash ↦ some (bodyOf hash) := by
  simp only [BodiesRight, LruCache.Reflects, LruCache.peek_eq_some_iff, Prod.forall,
    Option.some_inj]
  exact forall₃_congr fun _ _ _ ↦ eq_comm

/-- The peer that answers honestly and completely. -/
def honestPeer (bodyOf : B256 → Body) (missing : List B256) : Option (List Body) :=
  some (missing.map bodyOf)

/-! ### One iteration -/

/-- The body that an iteration pushes, if any. -/
def MergeState.next (state : MergeState Rest Body) (hash : B256) : Option Body :=
  (state.cache.bodiesByHash.peek hash).or state.fetchIter.head?

theorem mergeStep_of_cached {state : MergeState Rest Body} {hash : B256} {body : Body}
    (hbody : state.cache.bodiesByHash.peek hash = some body) :
    mergeStep state hash =
      { state with
        cache := { state.cache with bodiesByHash := state.cache.bodiesByHash.promote hash }
        allBodies := state.allBodies ++ [body] } := by
  simp only [mergeStep, BlockCache.getBodyByHash, LruCache.get, hbody]

/-- Assumes: the hash is not cached and a fetched body is left. It is cached and pushed. -/
theorem mergeStep_of_fetched {state : MergeState Rest Body} {hash : B256} {body : Body}
    {fetchIter : List Body} (hbody : state.cache.bodiesByHash.peek hash = none)
    (hfetch : state.fetchIter = body :: fetchIter) :
    mergeStep state hash =
      { cache := state.cache.insertBody hash body
        fetchIter
        allBodies := state.allBodies ++ [body] } := by
  have hkeys := LruCache.promote_of_not_mem (LruCache.peek_eq_none_iff.mp hbody)
  simp only [mergeStep, BlockCache.getBodyByHash, LruCache.get, hbody, hfetch, hkeys]

/-- Assumes: the hash is not cached and no fetched body is left. Nothing happens. -/
theorem mergeStep_of_exhausted {state : MergeState Rest Body} {hash : B256}
    (hbody : state.cache.bodiesByHash.peek hash = none) (hfetch : state.fetchIter = []) :
    mergeStep state hash = state := by
  have hkeys := LruCache.promote_of_not_mem (LruCache.peek_eq_none_iff.mp hbody)
  obtain ⟨cache, fetchIter, allBodies⟩ := state
  subst hfetch
  simp only [mergeStep, BlockCache.getBodyByHash, LruCache.get, hbody, hkeys]

theorem allBodies_mergeStep (state : MergeState Rest Body) (hash : B256) :
    (mergeStep state hash).allBodies = state.allBodies ++ (state.next hash).toList := by
  cases hbody : state.cache.bodiesByHash.peek hash with
  | some body => simp [mergeStep_of_cached hbody, MergeState.next, hbody]
  | none =>
    cases hfetch : state.fetchIter with
    | nil => simp [mergeStep_of_exhausted hbody hfetch, MergeState.next, hbody, hfetch]
    | cons body fetchIter =>
      simp [mergeStep_of_fetched hbody hfetch, MergeState.next, hbody, hfetch]

/-- An iteration that pushes nothing leaves the state as it was. -/
theorem mergeStep_of_next_none {state : MergeState Rest Body} {hash : B256}
    (hnext : state.next hash = none) : mergeStep state hash = state := by
  obtain ⟨hbody, hfetch⟩ := Option.or_eq_none_iff.mp hnext
  exact mergeStep_of_exhausted hbody (List.head?_eq_none_iff.mp hfetch)

/-- An iteration that pushes a body accesses its hash, by a lookup or by an insertion. -/
theorem bodiesByHash_mergeStep {state : MergeState Rest Body} {hash : B256} {body : Body}
    (hnext : state.next hash = some body) :
    (mergeStep state hash).cache.bodiesByHash = state.cache.bodiesByHash.promote hash ∧
        state.cache.bodiesByHash.peek hash = some body ∨
      (mergeStep state hash).cache.bodiesByHash = state.cache.bodiesByHash.push hash body ∧
        state.cache.bodiesByHash.peek hash = none := by
  rw [MergeState.next] at hnext
  cases hbody : state.cache.bodiesByHash.peek hash with
  | some found =>
    rw [hbody, Option.some_or, Option.some_inj] at hnext
    exact Or.inl ⟨by rw [mergeStep_of_cached hbody], congrArg some hnext⟩
  | none =>
    rw [hbody, Option.none_or] at hnext
    obtain ⟨fetchIter, hfetch⟩ := List.head?_eq_some_iff.mp hnext
    exact Or.inr ⟨by rw [mergeStep_of_fetched hbody hfetch]; rfl, rfl⟩

@[simp] theorem capacity_mergeStep (state : MergeState Rest Body) (hash : B256) :
    (mergeStep state hash).cache.bodiesByHash.capacity = state.cache.bodiesByHash.capacity := by
  cases hnext : state.next hash with
  | none => rw [mergeStep_of_next_none hnext]
  | some body => rcases bodiesByHash_mergeStep hnext with ⟨h, -⟩ | ⟨h, -⟩ <;> rw [h] <;> rfl

theorem keys_mergeStep {state : MergeState Rest Body} {hash : B256} {body : Body}
    (hnext : state.next hash = some body) :
    (mergeStep state hash).cache.bodiesByHash.keys =
      touch state.cache.bodiesByHash.capacity hash state.cache.bodiesByHash.keys := by
  rcases bodiesByHash_mergeStep hnext with ⟨hmap, hbody⟩ | ⟨hmap, -⟩
  · rw [hmap, LruCache.keys_promote_of_mem (LruCache.mem_keys_iff.mpr ⟨body, hbody⟩)]
  · rw [hmap, LruCache.keys_push]

theorem peek_mergeStep_self {state : MergeState Rest Body} {hash : B256} {body : Body}
    (hnext : state.next hash = some body) :
    (mergeStep state hash).cache.bodiesByHash.peek hash = some body := by
  rcases bodiesByHash_mergeStep hnext with ⟨hmap, hbody⟩ | ⟨hmap, -⟩
  · rw [hmap, LruCache.peek_promote, hbody]
  · rw [hmap, LruCache.peek_push_self]

/-- An iteration can only drop the bodies of other hashes. -/
theorem peek_of_peek_mergeStep {state : MergeState Rest Body} {hash other : B256} {found : Body}
    (hne : other ≠ hash)
    (hpeek : (mergeStep state hash).cache.bodiesByHash.peek other = some found) :
    state.cache.bodiesByHash.peek other = some found := by
  cases hnext : state.next hash with
  | none => rwa [mergeStep_of_next_none hnext] at hpeek
  | some body =>
    rcases bodiesByHash_mergeStep hnext with ⟨hmap, -⟩ | ⟨hmap, -⟩
    · rwa [hmap, LruCache.peek_promote] at hpeek
    · rw [hmap] at hpeek
      exact LruCache.peek_of_peek_push hne hpeek

/-- The keys after an iteration are the window of the history extended by its access. -/
theorem keys_mergeStep_window {state : MergeState Rest Body} {hash : B256} {body : Body}
    {history : List B256} (hnext : state.next hash = some body)
    (hkeys : state.cache.bodiesByHash.keys = window state.cache.bodiesByHash.capacity history) :
    (mergeStep state hash).cache.bodiesByHash.keys =
      window (mergeStep state hash).cache.bodiesByHash.capacity (hash :: history) := by
  rw [keys_mergeStep hnext, hkeys, touch_window, capacity_mergeStep]

/-! ### The bodies placed by the loop -/

/-- The bodies the loop pushes, each with the requested hash of its iteration. -/
def mergePlaced (state : MergeState Rest Body) : List B256 → List (B256 × Body)
  | [] => []
  | hash :: hashes =>
    ((state.next hash).map (hash, ·)).toList ++ mergePlaced (mergeStep state hash) hashes

theorem allBodies_foldl_mergeStep (hashes : List B256) (state : MergeState Rest Body) :
    (hashes.foldl mergeStep state).allBodies =
      state.allBodies ++ (mergePlaced state hashes).map Prod.snd := by
  induction hashes generalizing state with
  | nil => rw [List.foldl_nil, mergePlaced, List.map_nil, List.append_nil]
  | cons hash hashes ih =>
    rw [List.foldl_cons, ih, allBodies_mergeStep, mergePlaced, List.map_append, List.append_assoc]
    cases state.next hash <;> rfl

/-- The response of the merge is what it placed. -/
theorem allBodies_mergeBodies (cache : BlockCache Rest Body) (hashes : List B256)
    (fetchedBodies : List Body) :
    (mergeBodies cache hashes fetchedBodies).allBodies =
      (mergePlaced (.start cache fetchedBodies) hashes).map Prod.snd :=
  allBodies_foldl_mergeStep hashes _

/-- Placing right bodies keeps the cache right. -/
theorem bodiesRight_mergeStep {bodyOf : B256 → Body} {state : MergeState Rest Body} {hash : B256}
    (hright : BodiesRight bodyOf state.cache)
    (hnext : ∀ body, state.next hash = some body → body = bodyOf hash) :
    BodiesRight bodyOf (mergeStep state hash).cache := by
  rw [bodiesRight_iff] at hright ⊢
  cases hbody : state.cache.bodiesByHash.peek hash with
  | some body =>
    rw [mergeStep_of_cached hbody]
    exact hright.promote hash
  | none =>
    cases hfetch : state.fetchIter with
    | nil =>
      rw [mergeStep_of_exhausted hbody hfetch]
      exact hright
    | cons body fetchIter =>
      rw [mergeStep_of_fetched hbody hfetch]
      have hplaced : body = bodyOf hash := hnext body (by simp [MergeState.next, hbody, hfetch])
      exact hright.push (congrArg some hplaced.symm)

theorem bodiesRight_foldl_mergeStep {bodyOf : B256 → Body} (hashes : List B256)
    {state : MergeState Rest Body} (hright : BodiesRight bodyOf state.cache)
    (hplaced : ∀ placed ∈ mergePlaced state hashes, placed.2 = bodyOf placed.1) :
    BodiesRight bodyOf (hashes.foldl mergeStep state).cache := by
  induction hashes generalizing state with
  | nil => exact hright
  | cons hash hashes ih =>
    refine ih (bodiesRight_mergeStep hright fun body hbody ↦ ?_) fun placed hmem ↦
      hplaced placed (List.mem_append_right _ hmem)
    exact hplaced (hash, body) (List.mem_append_left _ (by simp [hbody]))

/-- The exact condition for a run of the merge. Assumes: a right cache whose keys are the window of
some history. The bodies placed are right exactly when the fetched bodies are those of the hashes
found outside the window, up to the shorter of the two lists. -/
theorem mergePlaced_right_iff (bodyOf : B256 → Body) (hashes : List B256)
    {state : MergeState Rest Body} (hright : BodiesRight bodyOf state.cache) {history : List B256}
    (hkeys : state.cache.bodiesByHash.keys = window state.cache.bodiesByHash.capacity history) :
    (∀ placed ∈ mergePlaced state hashes, placed.2 = bodyOf placed.1) ↔
      ∀ pair ∈ (windowMisses state.cache.bodiesByHash.capacity history hashes).zip state.fetchIter,
        pair.2 = bodyOf pair.1 := by
  induction hashes generalizing state history with
  | nil => simp [mergePlaced, windowMisses]
  | cons hash hashes ih =>
    cases hbody : state.cache.bodiesByHash.peek hash with
    | some body =>
      -- A hit: the cursor into the fetched list does not move, and the cached body is right.
      have hmem : hash ∈ state.cache.bodiesByHash.keys := LruCache.mem_keys_iff.mpr ⟨body, hbody⟩
      have hbodyRight : body = bodyOf hash := hright _ (LruCache.peek_eq_some_iff.mp hbody)
      have hnext : state.next hash = some body := by simp [MergeState.next, hbody]
      have hrightNext := bodiesRight_mergeStep hright fun found hfound ↦ by
        rw [hnext] at hfound
        exact (Option.some.inj hfound).symm.trans hbodyRight
      have hstep := ih hrightNext (keys_mergeStep_window hnext hkeys)
      rw [mergePlaced, hnext, windowMisses, if_pos (hkeys ▸ hmem)]
      rw [mergeStep_of_cached hbody] at hstep ⊢
      simpa [hbodyRight] using hstep
    | none =>
      have hmem : hash ∉ state.cache.bodiesByHash.keys := LruCache.peek_eq_none_iff.mp hbody
      rw [mergePlaced, windowMisses, if_neg (hkeys ▸ hmem)]
      cases hfetch : state.fetchIter with
      | nil =>
        -- Nothing is left to place: every later body comes from the right cache.
        have hnext : state.next hash = none := by simp [MergeState.next, hbody, hfetch]
        have hstep := ih hright hkeys
        rw [hfetch, List.zip_nil_right] at hstep
        rw [hnext, mergeStep_of_exhausted hbody hfetch, List.zip_nil_right]
        simpa using hstep
      | cons body fetchIter =>
        have hnext : state.next hash = some body := by simp [MergeState.next, hbody, hfetch]
        rw [hnext, Option.map_some, Option.toList_some, List.singleton_append, List.zip_cons_cons,
          List.forall_mem_cons, List.forall_mem_cons]
        refine and_congr_right fun hplaced ↦ ?_
        have hrightNext := bodiesRight_mergeStep hright fun found hfound ↦ by
          rw [hnext] at hfound
          exact (Option.some.inj hfound).symm.trans hplaced
        have hstep := ih hrightNext (keys_mergeStep_window hnext hkeys)
        rw [mergeStep_of_fetched hbody hfetch] at hstep ⊢
        exact hstep

/-! ### A whole request -/

/-- The bodies the first pass pushes, each with the requested hash of its iteration. -/
def resolvePlaced (cache : BlockCache Rest Body) (request : List B256) : List (B256 × Body) :=
  request.filterMap fun hash ↦ (cache.bodiesByHash.peek hash).map (hash, ·)

theorem map_snd_resolvePlaced (cache : BlockCache Rest Body) (request : List B256) :
    (resolvePlaced cache request).map Prod.snd = request.filterMap cache.bodiesByHash.peek := by
  rw [resolvePlaced, List.map_filterMap]
  congr 1
  funext hash
  cases cache.bodiesByHash.peek hash <;> rfl

theorem resolvePlaced_right {bodyOf : B256 → Body} {cache : BlockCache Rest Body}
    (hright : BodiesRight bodyOf cache) (request : List B256) :
    ∀ placed ∈ resolvePlaced cache request, placed.2 = bodyOf placed.1 := by
  intro placed hplaced
  obtain ⟨hash, -, hbody⟩ := List.mem_filterMap.mp hplaced
  obtain ⟨body, hpeek, rfl⟩ := Option.map_eq_some_iff.mp hbody
  exact hright _ (LruCache.peek_eq_some_iff.mp hpeek)

/-- The bodies placed in the response, each with the requested hash that was being processed. -/
def placedBodies (peer : List B256 → Option (List Body)) (cache : BlockCache Rest Body)
    (request : List B256) : List (B256 × Body) :=
  match beginBodies cache request with
  | (.send _, _) => resolvePlaced cache request
  | (.fetch missing _, fetching) =>
    match peer missing with
    | some fetchedBodies => mergePlaced (.start fetching fetchedBodies) request
    | none => resolvePlaced cache request

/-- The response is what was placed, in that order. -/
theorem response_getBlockBodies (peer : List B256 → Option (List Body))
    (cache : BlockCache Rest Body) (request : List B256) :
    (getBlockBodies peer cache request).response =
      (placedBodies peer cache request).map Prod.snd := by
  by_cases hcached : uncachedHashes cache request = []
  · simp only [getBlockBodies, placedBodies, beginBodies_of_cached hcached, map_snd_resolvePlaced]
  · simp only [getBlockBodies, placedBodies, beginBodies_of_uncached hcached]
    cases peer (uncachedHashes cache request) with
    | none => exact (map_snd_resolvePlaced cache request).symm
    | some fetchedBodies => exact allBodies_mergeBodies _ _ _

/-- The cache in which the merge of a request starts: each cached body of the request has been
looked up twice. -/
def fetchingCache (cache : BlockCache Rest Body) (request : List B256) : BlockCache Rest Body :=
  promoteBodies (promoteBodies cache request) request

theorem bodiesRight_promoteBodies {bodyOf : B256 → Body} {cache : BlockCache Rest Body}
    (hashes : List B256) :
    BodiesRight bodyOf (promoteBodies cache hashes) ↔ BodiesRight bodyOf cache := by
  simp only [bodiesRight_iff, LruCache.Reflects, promoteBodies, LruCache.peek_promoteAll]

@[simp] theorem capacity_fetchingCache (cache : BlockCache Rest Body) (request : List B256) :
    (fetchingCache cache request).bodiesByHash.capacity = cache.bodiesByHash.capacity := by
  simp only [fetchingCache, promoteBodies, LruCache.capacity_promoteAll]

theorem bodiesRight_fetchingCache {bodyOf : B256 → Body} {cache : BlockCache Rest Body}
    (request : List B256) :
    BodiesRight bodyOf (fetchingCache cache request) ↔ BodiesRight bodyOf cache := by
  rw [fetchingCache, bodiesRight_promoteBodies, bodiesRight_promoteBodies]

/-- The history of accesses a merge starts with, most recent first: the cached hashes of the
request, then the cache as it was. -/
def mergeHistory (cache : BlockCache Rest Body) (request : List B256) : List B256 :=
  (request.filter (· ∈ cache.bodiesByHash.keys)).reverse ++ cache.bodiesByHash.keys

/-- The second pass looks up what the first one did, so the two leave the recency order of one. -/
theorem keys_fetchingCache (cache : BlockCache Rest Body) (request : List B256) :
    (fetchingCache cache request).bodiesByHash.keys =
      window cache.bodiesByHash.capacity (mergeHistory cache request) := by
  have hfirst := LruCache.keys_promoteAll cache.bodiesByHash.window_keys.symm request
  have hkept : (cache.bodiesByHash.promoteAll request).keys =
      window (cache.bodiesByHash.promoteAll request).capacity (mergeHistory cache request) := by
    rw [LruCache.capacity_promoteAll]
    exact hfirst
  have hsecond := LruCache.keys_promoteAll hkept request
  have hmem : request.filter (· ∈ (cache.bodiesByHash.promoteAll request).keys) =
      request.filter (· ∈ cache.bodiesByHash.keys) :=
    List.filter_congr fun hash _ ↦ by simp only [LruCache.mem_keys_promoteAll]
  rw [hmem, LruCache.capacity_promoteAll] at hsecond
  exact hsecond.trans (window_congr (recencyOrder_append_self _ _))

/-- The requested hashes outside the window of the last distinct hashes when the merge reaches
them. -/
def mergeMisses (cache : BlockCache Rest Body) (request : List B256) : List B256 :=
  windowMisses cache.bodiesByHash.capacity (mergeHistory cache request) request

/-- The merge of a request against a fetched list, from a right cache. -/
theorem mergePlaced_fetchingCache_right_iff {bodyOf : B256 → Body} {cache : BlockCache Rest Body}
    (hright : BodiesRight bodyOf cache) (request : List B256) (fetchedBodies : List Body) :
    (∀ placed ∈ mergePlaced (.start (fetchingCache cache request) fetchedBodies) request,
        placed.2 = bodyOf placed.1) ↔
      ∀ pair ∈ (mergeMisses cache request).zip fetchedBodies, pair.2 = bodyOf pair.1 := by
  have hfetching := (bodiesRight_fetchingCache request).mpr hright
  have hcapacity := capacity_fetchingCache cache request
  have hkeys := keys_fetchingCache cache request
  rw [← hcapacity] at hkeys
  rw [mergePlaced_right_iff bodyOf request hfetching hkeys, mergeMisses, ← hcapacity]
  rfl

/-- A right cache stays right when right bodies are placed. -/
theorem bodiesRight_getBlockBodies {bodyOf : B256 → Body}
    (peer : List B256 → Option (List Body)) {cache : BlockCache Rest Body} {request : List B256}
    (hright : BodiesRight bodyOf cache)
    (hplaced : ∀ placed ∈ placedBodies peer cache request, placed.2 = bodyOf placed.1) :
    BodiesRight bodyOf (getBlockBodies peer cache request).cache := by
  by_cases hcached : uncachedHashes cache request = []
  · simp only [getBlockBodies, beginBodies_of_cached hcached]
    exact (bodiesRight_promoteBodies request).mpr hright
  · have hfetching := (bodiesRight_fetchingCache request).mpr hright
    simp only [getBlockBodies, placedBodies, beginBodies_of_uncached hcached] at hplaced ⊢
    cases hpeer : peer (uncachedHashes cache request) with
    | none => exact hfetching
    | some fetchedBodies =>
      rw [hpeer] at hplaced
      exact bodiesRight_foldl_mergeStep request hfetching hplaced

/-- When an honest and complete peer keeps a request from mixing blocks up. Assumes: a right cache.
Every body placed for a requested hash is that hash's body, and the cache stays right, exactly when
the hashes that are outside the window as the merge reaches them have, position by position, the
bodies of the hashes that were uncached at the start, up to the shorter of the two lists. -/
theorem getBlockBodies_right_iff (bodyOf : B256 → Body) (cache : BlockCache Rest Body)
    (request : List B256) (hright : BodiesRight bodyOf cache) :
    ((∀ placed ∈ placedBodies (honestPeer bodyOf) cache request, placed.2 = bodyOf placed.1) ∧
        BodiesRight bodyOf (getBlockBodies (honestPeer bodyOf) cache request).cache) ↔
      ∀ pair ∈ (mergeMisses cache request).zip (uncachedHashes cache request),
        bodyOf pair.1 = bodyOf pair.2 := by
  have hplaced : (∀ placed ∈ placedBodies (honestPeer bodyOf) cache request,
      placed.2 = bodyOf placed.1) ↔
      ∀ pair ∈ (mergeMisses cache request).zip (uncachedHashes cache request),
        bodyOf pair.1 = bodyOf pair.2 := by
    by_cases hcached : uncachedHashes cache request = []
    · simp only [placedBodies, beginBodies_of_cached hcached, hcached, List.zip_nil_right]
      exact iff_of_true (resolvePlaced_right hright request) (by simp)
    · simp only [placedBodies, beginBodies_of_uncached hcached, honestPeer]
      refine (mergePlaced_fetchingCache_right_iff hright request _).trans ?_
      rw [List.zip_map_right, List.forall_mem_map]
      exact forall₂_congr fun _ _ ↦ eq_comm
  rw [← hplaced]
  exact and_iff_left_of_imp (bodiesRight_getBlockBodies _ hright)

/-- A fresh cache of four blocks meets the condition on a request that fits it. -/
theorem getBlockBodies_right_fresh :
    (∀ placed ∈ placedBodies (honestPeer B256.bytes) (.new 4 : BlockCache Unit (List UInt8))
        [.repeatByte 1, .repeatByte 2], placed.2 = placed.1.bytes) ∧
      BodiesRight B256.bytes (getBlockBodies (honestPeer B256.bytes)
        (.new 4 : BlockCache Unit (List UInt8)) [.repeatByte 1, .repeatByte 2]).cache :=
  (getBlockBodies_right_iff B256.bytes (.new 4) [.repeatByte 1, .repeatByte 2] (by decide)).mpr
    (by decide)

/-- An uncached hash asked for twice: the third requested hash is given, and cached under, the body
of the first. -/
theorem getBlockBodies_mixed_on_repeated_hash :
    BodiesRight B256.bytes (.new 4 : BlockCache Unit (List UInt8)) ∧
      ¬ ((∀ placed ∈ placedBodies (honestPeer B256.bytes) (.new 4 : BlockCache Unit (List UInt8))
          [.repeatByte 1, .repeatByte 1, .repeatByte 2], placed.2 = placed.1.bytes) ∧
        BodiesRight B256.bytes (getBlockBodies (honestPeer B256.bytes)
          (.new 4 : BlockCache Unit (List UInt8))
          [.repeatByte 1, .repeatByte 1, .repeatByte 2]).cache) := by
  decide

end SentryNode.EthProxy
