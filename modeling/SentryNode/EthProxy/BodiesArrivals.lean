import SentryNode.EthProxy.BodiesInterleaved

/-!
# Bodies served while blocks arrive

A block that arrives while the handler is between two accesses can change what the handler finds. In
a cache that is right, evicts nothing and receives right blocks only, two of its branches are then
wrong. A body missed by the first pass may have arrived when the second pass looks for it; when that
leaves nothing to fetch, the incomplete bodies of the first pass are sent. And a hash put to the
peer may have arrived when the merge reaches it; its fetched body is then not taken, and a later
missing hash takes it in place of its own.

`InStep` excludes these two branches and nothing else, and `served_right` proves that every run that
avoids them keeps the cache right and ends with the requested bodies in the order of the request.
The invariant is `PhaseRight`: what the handler has so far is right for the part of the request
done, every requested hash not put to the peer is cached, and the fetched bodies left are the last
ones. A run in which no requested block arrives is in step throughout (`inStep_of_foreign`).
-/

set_option autoImplicit false
set_option relaxedAutoImplicit false

namespace SentryNode.EthProxy

open Library

variable {Rest Body : Type*}

/-! ### Conditions on the steps -/

/-- An announced block has the body of its hash. -/
def ServeEvent.Right (bodyOf : B256 → Body) : ServeEvent Rest Body → Prop
  | .newBlock (.block msg) => msg.block.body = bodyOf msg.hash
  | _ => True

/-- A step evicts no body. -/
def EvictsNoBody (peer : List B256 → Option (List Body)) (request : List B256)
    (state : ServeState Rest Body) (event : ServeEvent Rest Body) : Prop :=
  ∀ hash ∈ state.cache.bodiesByHash.keys,
    hash ∈ (step peer request state event).cache.bodiesByHash.keys

/-- The next access does not take one of the two branches that an arrival can make wrong. When the
second pass ends with nothing missing, the first one had found every body. When the merge takes a
fetched body, as many of them are left as hashes put to the peer. -/
def PhaseInStep (request : List B256) (cache : BlockCache Rest Body) : Phase Body → Prop
  | .collecting bodies [] [] => bodies.length = request.length
  | .merging asked fetchIter _ (hash :: rest) =>
    hash ∉ cache.bodiesByHash.keys →
      fetchIter.length = ((hash :: rest).filter (· ∈ asked)).length
  | _ => True

/-- A step takes neither of these branches; an announcement never does. -/
def InStep (request : List B256) (state : ServeState Rest Body) : ServeEvent Rest Body → Prop
  | .newBlock _ => True
  | .handler => PhaseInStep request state.cache state.phase

instance [DecidableEq Body] (bodyOf : B256 → Body) :
    ∀ event : ServeEvent Rest Body, Decidable (event.Right bodyOf)
  | .handler => inferInstanceAs (Decidable True)
  | .newBlock (.block msg) => inferInstanceAs (Decidable (msg.block.body = bodyOf msg.hash))
  | .newBlock (.hashes _) => inferInstanceAs (Decidable True)

instance (peer : List B256 → Option (List Body)) (request : List B256)
    (state : ServeState Rest Body) (event : ServeEvent Rest Body) :
    Decidable (EvictsNoBody peer request state event) :=
  inferInstanceAs (Decidable (∀ hash ∈ state.cache.bodiesByHash.keys, _))

instance (request : List B256) (cache : BlockCache Rest Body) :
    ∀ phase, Decidable (PhaseInStep request cache phase)
  | .resolving _ _ => inferInstanceAs (Decidable True)
  | .collecting bodies [] [] => inferInstanceAs (Decidable (bodies.length = request.length))
  | .collecting _ [] (_ :: _) => inferInstanceAs (Decidable True)
  | .collecting _ (_ :: _) _ => inferInstanceAs (Decidable True)
  | .fetching _ _ => inferInstanceAs (Decidable True)
  | .merging _ _ _ [] => inferInstanceAs (Decidable True)
  | .merging asked fetchIter _ (hash :: rest) =>
    inferInstanceAs (Decidable (hash ∉ cache.bodiesByHash.keys →
      fetchIter.length = ((hash :: rest).filter (· ∈ asked)).length))
  | .storing _ _ _ _ _ _ => inferInstanceAs (Decidable True)
  | .replied _ => inferInstanceAs (Decidable True)

instance (request : List B256) (state : ServeState Rest Body) :
    ∀ event, Decidable (InStep request state event)
  | .newBlock _ => inferInstanceAs (Decidable True)
  | .handler => inferInstanceAs (Decidable (PhaseInStep request state.cache state.phase))

/-! ### The invariant -/

/-- Every hash of a list that was not put to the peer has its body cached. -/
def Covered (cache : BlockCache Rest Body) (asked hashes : List B256) : Prop :=
  ∀ hash ∈ hashes, hash ∉ asked → hash ∈ cache.bodiesByHash.keys

/-- The merge before the hashes of `rest`. -/
structure MergeRight (bodyOf : B256 → Body) (request : List B256) (cache : BlockCache Rest Body)
    (asked : List B256) (fetchIter allBodies : List Body) (rest : List B256) : Prop where
  placed : ∃ done, done ++ rest = request ∧ allBodies = done.map bodyOf
  asked_sublist : asked.Sublist request
  covered : Covered cache asked rest
  fetched : fetchIter <:+ asked.map bodyOf

/-- What the handler holds in each phase is right. -/
def PhaseRight (bodyOf : B256 → Body) (request : List B256) (cache : BlockCache Rest Body) :
    Phase Body → Prop
  | .resolving bodies rest => ∃ done, done ++ rest = request ∧
      (bodies = done.map bodyOf ∨ bodies.length < done.length)
  | .collecting bodies missing rest =>
      (bodies.length = request.length → bodies = request.map bodyOf) ∧
        ∃ done, done ++ rest = request ∧ missing.Sublist done ∧ Covered cache missing done
  | .fetching _ missing => missing.Sublist request ∧ Covered cache missing request
  | .merging asked fetchIter allBodies rest =>
      MergeRight bodyOf request cache asked fetchIter allBodies rest
  | .storing asked hash body fetchIter allBodies rest =>
      body = bodyOf hash ∧
        MergeRight bodyOf request cache asked fetchIter allBodies (hash :: rest)
  | .replied response => response = request.map bodyOf

/-- The cache is right, and so is what the handler holds. -/
structure ServesRight (bodyOf : B256 → Body) (request : List B256) (state : ServeState Rest Body) :
    Prop where
  bodies : BodiesRight bodyOf state.cache
  phase : PhaseRight bodyOf request state.cache state.phase

section Steps

variable {bodyOf : B256 → Body} {request : List B256} {cache next : BlockCache Rest Body}

theorem Covered.mono {asked hashes : List B256} (hcovered : Covered cache asked hashes)
    (hkeys : ∀ hash ∈ cache.bodiesByHash.keys, hash ∈ next.bodiesByHash.keys) :
    Covered next asked hashes :=
  fun hash hhash hasked ↦ hkeys hash (hcovered hash hhash hasked)

theorem MergeRight.mono {asked rest : List B256} {fetchIter allBodies : List Body}
    (hmerge : MergeRight bodyOf request cache asked fetchIter allBodies rest)
    (hkeys : ∀ hash ∈ cache.bodiesByHash.keys, hash ∈ next.bodiesByHash.keys) :
    MergeRight bodyOf request next asked fetchIter allBodies rest :=
  { hmerge with covered := hmerge.covered.mono hkeys }

/-- What the handler holds stays right while the cache keeps its bodies. -/
theorem PhaseRight.mono {phase : Phase Body} (hphase : PhaseRight bodyOf request cache phase)
    (hkeys : ∀ hash ∈ cache.bodiesByHash.keys, hash ∈ next.bodiesByHash.keys) :
    PhaseRight bodyOf request next phase := by
  cases phase with
  | resolving bodies rest => exact hphase
  | collecting bodies missing rest =>
    obtain ⟨hbodies, done, hdone, hmissing, hcovered⟩ := hphase
    exact ⟨hbodies, done, hdone, hmissing, hcovered.mono hkeys⟩
  | fetching bodies missing => exact ⟨hphase.1, hphase.2.mono hkeys⟩
  | merging asked fetchIter allBodies rest => exact MergeRight.mono hphase hkeys
  | storing asked hash body fetchIter allBodies rest =>
    exact ⟨hphase.1, hphase.2.mono hkeys⟩
  | replied response => exact hphase

/-- The merge moves on with the right body. -/
theorem MergeRight.advance {asked rest : List B256} {hash : B256} {fetchIter allBodies : List Body}
    (hmerge : MergeRight bodyOf request cache asked fetchIter allBodies (hash :: rest)) :
    MergeRight bodyOf request cache asked fetchIter (allBodies ++ [bodyOf hash]) rest := by
  obtain ⟨⟨done, hdone, hplaced⟩, hasked, hcovered, hfetched⟩ := hmerge
  refine ⟨⟨done ++ [hash], ?_, ?_⟩, hasked, ?_, hfetched⟩
  · rw [List.append_assoc, List.singleton_append, hdone]
  · rw [List.map_append, List.map_singleton, hplaced]
  · exact fun other hother ↦ hcovered other (List.mem_cons_of_mem _ hother)

/-- The part of a duplicate-free list in one of its sublists is the sublist. -/
theorem filter_mem_eq_of_sublist {hashes part : List B256} (hnodup : hashes.Nodup)
    (hsublist : part.Sublist hashes) : hashes.filter (· ∈ part) = part := by
  induction hsublist with
  | slnil => rfl
  | @cons part hashes hash hsublist ih =>
    obtain ⟨hhash, hrest⟩ := List.nodup_cons.mp hnodup
    have hnot : hash ∉ part := fun hmem ↦ hhash (hsublist.subset hmem)
    rw [List.filter_cons_of_neg (by simpa using hnot), ih hrest]
  | @cons_cons part hashes hash hsublist ih =>
    obtain ⟨hhash, hrest⟩ := List.nodup_cons.mp hnodup
    have hsame : hashes.filter (· ∈ hash :: part) = hashes.filter (· ∈ part) :=
      List.filter_congr fun other hother ↦ by
        have hne : other ≠ hash := fun h ↦ hhash (h ▸ hother)
        simp [hne]
    rw [List.filter_cons_of_pos (by simp), hsame, ih hrest]

/-- The next fetched body is the one of an absent hash, as long as the merge is in step. -/
theorem MergeRight.fetchIter_eq {asked rest : List B256} {hash : B256}
    {fetchIter allBodies : List Body} (hnodup : request.Nodup)
    (hmerge : MergeRight bodyOf request cache asked fetchIter allBodies (hash :: rest))
    (habsent : hash ∉ cache.bodiesByHash.keys)
    (hlength : fetchIter.length = ((hash :: rest).filter (· ∈ asked)).length) :
    fetchIter = bodyOf hash :: (rest.filter (· ∈ asked)).map bodyOf := by
  obtain ⟨⟨done, hdone, -⟩, hsublist, hcovered, hfetched⟩ := hmerge
  have hasked : hash ∈ asked := by
    by_contra hnot
    exact habsent (hcovered hash List.mem_cons_self hnot)
  -- The hashes still to be fetched are the last ones put to the peer.
  have hlater : (hash :: rest).filter (· ∈ asked) <:+ asked := by
    conv_rhs => rw [← filter_mem_eq_of_sublist hnodup hsublist, ← hdone, List.filter_append]
    exact List.suffix_append _ _
  have heq : fetchIter = ((hash :: rest).filter (· ∈ asked)).map bodyOf := by
    refine (List.suffix_of_suffix_length_le hfetched (hlater.map bodyOf) ?_).eq_of_length ?_
    · rw [hlength, List.length_map]
    · rw [hlength, List.length_map]
  rw [heq, List.filter_cons_of_pos (by simpa using hasked), List.map_cons]

/-! ### The handler -/

/-- A lookup of the first pass: a found body is right, and a miss leaves the bodies incomplete. -/
theorem phaseRight_resolving_cons {bodies : List Body} {hash : B256} {rest : List B256}
    (hright : BodiesRight bodyOf cache)
    (hphase : PhaseRight bodyOf request cache (.resolving bodies (hash :: rest))) :
    PhaseRight bodyOf request next
      (.resolving (bodies ++ (cache.bodiesByHash.peek hash).toList) rest) := by
  obtain ⟨done, hdone, hbodies⟩ := hphase
  refine ⟨done ++ [hash], by rw [List.append_assoc, List.singleton_append, hdone], ?_⟩
  cases hbody : cache.bodiesByHash.peek hash with
  | none =>
    refine Or.inr ?_
    rw [Option.toList_none, List.append_nil, List.length_append, List.length_singleton]
    rcases hbodies with rfl | hlength
    · rw [List.length_map]
      exact Nat.lt_succ_self _
    · exact Nat.lt_succ_of_lt hlength
  | some body =>
    have hsame : body = bodyOf hash := hright _ (LruCache.peek_eq_some_iff.mp hbody)
    rw [Option.toList_some]
    rcases hbodies with rfl | hlength
    · exact Or.inl (by rw [hsame, List.map_append, List.map_singleton])
    · refine Or.inr ?_
      rw [List.length_append, List.length_append]
      exact Nat.add_lt_add_right hlength 1

/-- At the end of the first pass, as many bodies as requested are the requested ones. -/
theorem eq_map_of_resolving_nil {bodies : List Body}
    (hphase : PhaseRight bodyOf request cache (.resolving bodies []))
    (hlength : bodies.length = request.length) : bodies = request.map bodyOf := by
  obtain ⟨done, hdone, hbodies⟩ := hphase
  rw [List.append_nil] at hdone
  subst hdone
  rcases hbodies with rfl | hshort
  · rfl
  · exact absurd hlength (Nat.ne_of_lt hshort)

/-- A test of the second pass. -/
theorem phaseRight_collecting_cons {bodies : List Body} {missing : List B256} {hash : B256}
    {rest : List B256}
    (hphase : PhaseRight bodyOf request cache (.collecting bodies missing (hash :: rest))) :
    PhaseRight bodyOf request cache
      (.collecting bodies (missing ++ [hash].filter (· ∉ cache.bodiesByHash.keys)) rest) := by
  obtain ⟨hbodies, done, hdone, hmissing, hcovered⟩ := hphase
  refine ⟨hbodies, done ++ [hash], by rw [List.append_assoc, List.singleton_append, hdone],
    hmissing.append List.filter_sublist, fun other hother hnot ↦ ?_⟩
  rw [List.mem_append, not_or] at hnot
  rcases List.mem_append.mp hother with h | h
  · exact hcovered other h hnot.1
  · by_contra habsent
    exact hnot.2 (List.mem_filter.mpr ⟨h, by simpa using habsent⟩)

end Steps

/-- An access of the handler keeps the invariant. Assumes: a duplicate-free request, an access that
evicts nothing, and one that is in step. -/
theorem ServesRight.handlerStep {bodyOf : B256 → Body} {request : List B256}
    {state : ServeState Rest Body} (hnodup : request.Nodup)
    (hkeeps : EvictsNoBody (honestPeer bodyOf) request state .handler)
    (hinStep : InStep request state .handler) (hserves : ServesRight bodyOf request state) :
    ServesRight bodyOf request (handlerStep (honestPeer bodyOf) request state) := by
  obtain ⟨hright, hphase⟩ := hserves
  obtain ⟨blockImport, phase⟩ := state
  have hlookup (hash : B256) : BodiesRight bodyOf (promoteBodies blockImport.cache [hash]) :=
    (bodiesRight_promoteBodies [hash]).mpr hright
  cases phase with
  | resolving bodies rest =>
    cases rest with
    | nil =>
      simp only [EthProxy.handlerStep]
      split_ifs with hfull
      · exact ⟨hright, eq_map_of_resolving_nil hphase hfull.1⟩
      · exact ⟨hright, eq_map_of_resolving_nil hphase, [], rfl, List.nil_sublist _,
          fun _ hhash ↦ absurd hhash List.not_mem_nil⟩
    | cons hash rest =>
      rw [handlerStep_resolving]
      exact ⟨hlookup hash, phaseRight_resolving_cons hright hphase⟩
  | collecting bodies missing rest =>
    cases rest with
    | nil =>
      obtain ⟨hbodies, done, hdone, hmissing, hcovered⟩ := hphase
      rw [List.append_nil] at hdone
      subst hdone
      simp only [EthProxy.handlerStep]
      split_ifs with hnone
      · subst hnone
        exact ⟨hright, hbodies hinStep⟩
      · exact ⟨hright, hmissing, hcovered⟩
    | cons hash rest =>
      rw [handlerStep_collecting]
      exact ⟨hlookup hash,
        (phaseRight_collecting_cons hphase).mono fun _ ↦ mem_keys_promoteBodies.mpr⟩
  | fetching bodies missing =>
    exact ⟨hright, ⟨[], rfl, rfl⟩, hphase.1, hphase.2, List.suffix_refl _⟩
  | merging asked fetchIter allBodies rest =>
    cases rest with
    | nil =>
      obtain ⟨⟨done, hdone, hplaced⟩, -, -, -⟩ := hphase
      rw [List.append_nil] at hdone
      exact ⟨hright, hdone ▸ hplaced⟩
    | cons hash rest =>
      cases hbody : blockImport.cache.bodiesByHash.peek hash with
      | some body =>
        have hsame : body = bodyOf hash := hright _ (LruCache.peek_eq_some_iff.mp hbody)
        subst hsame
        rw [handlerStep_merging_cached hbody]
        exact ⟨hlookup hash, (MergeRight.advance hphase).mono fun _ ↦ mem_keys_promoteBodies.mpr⟩
      | none =>
        have habsent := LruCache.peek_eq_none_iff.mp hbody
        have hfetch := MergeRight.fetchIter_eq hnodup hphase habsent (hinStep habsent)
        subst hfetch
        rw [handlerStep_merging_fetched hbody]
        exact ⟨hright, rfl,
          { hphase with fetched := (List.suffix_cons _ _).trans hphase.fetched }⟩
  | storing asked hash body fetchIter allBodies rest =>
    obtain ⟨rfl, hmerge⟩ := hphase
    exact ⟨(bodiesRight_iff.mpr ((bodiesRight_iff.mp hright).push rfl)), hmerge.advance.mono hkeeps⟩
  | replied response => exact ⟨hright, hphase⟩

/-! ### Announcements and runs -/

/-- An announcement of a right block keeps the invariant, when it evicts nothing. -/
theorem ServesRight.newBlock {bodyOf : B256 → Body} {request : List B256}
    {peer : List B256 → Option (List Body)} {state : ServeState Rest Body}
    {event : NewBlockEvent Rest Body} (hevent : (ServeEvent.newBlock event).Right bodyOf)
    (hkeeps : EvictsNoBody peer request state (.newBlock event))
    (hserves : ServesRight bodyOf request state) :
    ServesRight bodyOf request (step peer request state (.newBlock event)) := by
  refine ⟨?_, hserves.phase.mono hkeeps⟩
  cases event with
  | hashes hashes => exact hserves.bodies
  | block msg =>
    exact bodiesRight_iff.mpr
      ((bodiesRight_iff.mp hserves.bodies).push (congrArg some hevent.symm))

/-- The invariant holds before the first access. -/
theorem servesRight_start {bodyOf : B256 → Body} {blockImport : CachingBlockImport Rest Body}
    (request : List B256) (hright : BodiesRight bodyOf blockImport.cache) :
    ServesRight bodyOf request (.start blockImport request) :=
  ⟨hright, [], rfl, Or.inl rfl⟩

/-- The invariant holds after every run of right blocks and accesses in step, without evictions. -/
theorem servesRight_run {bodyOf : B256 → Body} {blockImport : CachingBlockImport Rest Body}
    {request : List B256} {events : List (ServeEvent Rest Body)} (hnodup : request.Nodup)
    (hright : BodiesRight bodyOf blockImport.cache)
    (hevents : ∀ event ∈ events, event.Right bodyOf)
    (hkeeps : EachStep (EvictsNoBody (honestPeer bodyOf) request)
      (step (honestPeer bodyOf) request) (.start blockImport request) events)
    (hinStep : EachStep (InStep request) (step (honestPeer bodyOf) request)
      (.start blockImport request) events) :
    ServesRight bodyOf request
      (run (step (honestPeer bodyOf) request) (.start blockImport request) events) := by
  refine run_invariant (ServesRight bodyOf request) ?_ (servesRight_start request hright)
    (((eachStep_of_forall hevents).and hkeeps).and hinStep)
  rintro state event ⟨⟨hevent, hkept⟩, hstep⟩ hserves
  cases event with
  | handler => exact hserves.handlerStep hnodup hkept hstep
  | newBlock event => exact hserves.newBlock hevent hkept

/-! ### Runs without requested blocks -/

/-- An announced block is none of the requested ones. -/
def ServeEvent.Foreign (request : List B256) : ServeEvent Rest Body → Prop
  | .newBlock (.block msg) => msg.hash ∉ request
  | _ => True

/-- The cursors of the handler agree with the cache: a body missed is still to be found missing, and
the hashes put to the peer are absent until the merge reaches them. -/
def PhaseAligned (request : List B256) (cache : BlockCache Rest Body) : Phase Body → Prop
  | .resolving bodies rest =>
    bodies.length + rest.length = request.length ∨
      ∃ hash ∈ request, hash ∉ cache.bodiesByHash.keys
  | .collecting bodies missing rest =>
    (bodies.length = request.length ∨ missing ≠ [] ∨
        ∃ hash ∈ rest, hash ∉ cache.bodiesByHash.keys) ∧
      ∀ hash ∈ missing, hash ∉ cache.bodiesByHash.keys
  | .fetching _ missing => ∀ hash ∈ missing, hash ∉ cache.bodiesByHash.keys
  | .merging asked fetchIter _ rest | .storing asked _ _ fetchIter _ rest =>
    fetchIter.length = (rest.filter (· ∈ asked)).length ∧
      ∀ hash ∈ rest, hash ∈ asked → hash ∉ cache.bodiesByHash.keys
  | .replied _ => True

/-- Phases stay aligned while no absent requested body appears. -/
theorem PhaseAligned.mono {bodyOf : B256 → Body} {request : List B256}
    {cache next : BlockCache Rest Body} {phase : Phase Body}
    (hphase : PhaseRight bodyOf request cache phase) (haligned : PhaseAligned request cache phase)
    (habsent : ∀ hash ∈ request, hash ∉ cache.bodiesByHash.keys → hash ∉ next.bodiesByHash.keys) :
    PhaseAligned request next phase := by
  cases phase with
  | resolving bodies rest =>
    exact haligned.imp_right fun ⟨hash, hhash, hnot⟩ ↦ ⟨hash, hhash, habsent hash hhash hnot⟩
  | collecting bodies missing rest =>
    obtain ⟨-, done, rfl, hmissing, -⟩ := hphase
    refine ⟨haligned.1.imp_right (Or.imp_right fun ⟨hash, hhash, hnot⟩ ↦
      ⟨hash, hhash, habsent hash (List.mem_append_right _ hhash) hnot⟩), fun hash hhash ↦ ?_⟩
    exact habsent hash (List.mem_append_left _ (hmissing.subset hhash)) (haligned.2 hash hhash)
  | fetching bodies missing =>
    exact fun hash hhash ↦ habsent hash (hphase.1.subset hhash) (haligned hash hhash)
  | merging asked fetchIter allBodies rest =>
    obtain ⟨⟨done, rfl, -⟩, -, -, -⟩ := hphase
    exact ⟨haligned.1, fun hash hhash hasked ↦
      habsent hash (List.mem_append_right _ hhash) (haligned.2 hash hhash hasked)⟩
  | storing asked hash body fetchIter allBodies rest =>
    obtain ⟨-, ⟨done, rfl, -⟩, -, -, -⟩ := hphase
    exact ⟨haligned.1, fun other hother hasked ↦
      habsent other (List.mem_append_right _ (List.mem_cons_of_mem _ hother))
        (haligned.2 other hother hasked)⟩
  | replied response => trivial

/-- An aligned phase is in step. -/
theorem PhaseAligned.inStep {request : List B256} {cache : BlockCache Rest Body}
    {phase : Phase Body} (haligned : PhaseAligned request cache phase) :
    PhaseInStep request cache phase := by
  rcases phase with - | ⟨bodies, - | ⟨missing, others⟩, - | ⟨hash, rest⟩⟩ | - |
    ⟨asked, fetchIter, allBodies, - | ⟨hash, rest⟩⟩ | - | -
  case collecting.nil.nil =>
    rcases haligned.1 with hlength | hmissing | ⟨hash, hhash, -⟩
    · exact hlength
    · exact absurd rfl hmissing
    · cases hhash
  case merging.cons => exact fun _ ↦ haligned.1
  all_goals trivial

/-- A test of the second pass keeps the phase aligned. -/
theorem phaseAligned_collecting_cons {request : List B256} {cache : BlockCache Rest Body}
    {bodies : List Body} {missing : List B256} {hash : B256} {rest : List B256}
    (haligned : PhaseAligned request cache (.collecting bodies missing (hash :: rest))) :
    PhaseAligned request cache
      (.collecting bodies (missing ++ [hash].filter (· ∉ cache.bodiesByHash.keys)) rest) := by
  obtain ⟨hopen, hmissing⟩ := haligned
  by_cases hhash : hash ∈ cache.bodiesByHash.keys
  · rw [List.filter_cons_of_neg (by simpa using hhash), List.filter_nil, List.append_nil]
    refine ⟨hopen.imp_right (Or.imp_right fun ⟨other, hother, hnot⟩ ↦ ⟨other, ?_, hnot⟩), hmissing⟩
    exact (List.mem_cons.mp hother).resolve_left fun h ↦ hnot (h ▸ hhash)
  · rw [List.filter_cons_of_pos (by simpa using hhash), List.filter_nil]
    have hopenNext := List.append_ne_nil_of_right_ne_nil missing (List.cons_ne_nil hash [])
    refine ⟨Or.inr (Or.inl hopenNext), fun other hother ↦ ?_⟩
    rcases List.mem_append.mp hother with h | h
    · exact hmissing other h
    · exact List.mem_singleton.mp h ▸ hhash

/-- An access of the handler keeps its phase aligned. -/
theorem PhaseAligned.handlerStep {bodyOf : B256 → Body} {request : List B256}
    {state : ServeState Rest Body} (hnodup : request.Nodup)
    (hserves : ServesRight bodyOf request state)
    (haligned : PhaseAligned request state.cache state.phase) :
    PhaseAligned request (handlerStep (honestPeer bodyOf) request state).cache
      (handlerStep (honestPeer bodyOf) request state).phase := by
  obtain ⟨hright, hphase⟩ := hserves
  obtain ⟨blockImport, phase⟩ := state
  have habsent (hashes : List B256) : ∀ hash ∈ request,
      hash ∉ blockImport.cache.bodiesByHash.keys →
      hash ∉ (promoteBodies blockImport.cache hashes).bodiesByHash.keys :=
    fun _ _ hnot ↦ mt mem_keys_promoteBodies.mp hnot
  cases phase with
  | resolving bodies rest =>
    cases rest with
    | nil =>
      simp only [EthProxy.handlerStep]
      split_ifs with hfull
      · trivial
      · exact ⟨haligned.imp_right Or.inr, fun _ hhash ↦ absurd hhash List.not_mem_nil⟩
    | cons hash rest =>
      rw [handlerStep_resolving]
      refine PhaseAligned.mono (phaseRight_resolving_cons hright hphase) ?_ (habsent [hash])
      cases hbody : blockImport.cache.bodiesByHash.peek hash with
      | none =>
        obtain ⟨done, rfl, -⟩ := hphase
        exact Or.inr ⟨hash, List.mem_append_right _ List.mem_cons_self,
          LruCache.peek_eq_none_iff.mp hbody⟩
      | some body =>
        refine haligned.imp_left fun hlength ↦ ?_
        rw [← hlength, Option.toList_some, List.length_append, List.length_singleton,
          List.length_cons, Nat.add_right_comm, Nat.add_assoc]
  | collecting bodies missing rest =>
    cases rest with
    | nil =>
      simp only [EthProxy.handlerStep]
      split_ifs with hnone
      · trivial
      · exact haligned.2
    | cons hash rest =>
      rw [handlerStep_collecting]
      exact PhaseAligned.mono (phaseRight_collecting_cons hphase)
        (phaseAligned_collecting_cons haligned) (habsent [hash])
  | fetching bodies missing =>
    refine ⟨?_, fun hash _ hmissing ↦ haligned hash hmissing⟩
    rw [filter_mem_eq_of_sublist hnodup hphase.1, List.length_map]
  | merging asked fetchIter allBodies rest =>
    cases rest with
    | nil => trivial
    | cons hash rest =>
      obtain ⟨hlength, hopen⟩ := haligned
      have hopenRest : ∀ other ∈ rest, other ∈ asked →
          other ∉ blockImport.cache.bodiesByHash.keys :=
        fun other hother hasked ↦ hopen other (List.mem_cons_of_mem _ hother) hasked
      cases hbody : blockImport.cache.bodiesByHash.peek hash with
      | some body =>
        -- A cached hash was not put to the peer, so none of the fetched bodies is for it.
        have hnot : hash ∉ asked := fun hasked ↦
          hopen hash List.mem_cons_self hasked (LruCache.mem_keys_iff.mpr ⟨body, hbody⟩)
        rw [List.filter_cons_of_neg (by simpa using hnot)] at hlength
        rw [handlerStep_merging_cached hbody]
        exact ⟨hlength, fun other hother hasked ↦
          mt mem_keys_promoteBodies.mp (hopenRest other hother hasked)⟩
      | none =>
        have hfetch := MergeRight.fetchIter_eq hnodup hphase (LruCache.peek_eq_none_iff.mp hbody)
          hlength
        subst hfetch
        rw [handlerStep_merging_fetched hbody]
        exact ⟨List.length_map _, hopenRest⟩
  | storing asked hash body fetchIter allBodies rest =>
    obtain ⟨-, ⟨done, rfl, -⟩, -, -, -⟩ := hphase
    refine ⟨haligned.1, fun other hother hasked hmem ↦ ?_⟩
    have hne : other ≠ hash := fun h ↦ by
      have hrest := (List.nodup_append.mp hnodup).2.1
      exact (List.nodup_cons.mp hrest).1 (h ▸ hother)
    exact haligned.2 other hother hasked (LruCache.mem_keys_of_mem_push hne hmem)
  | replied response => trivial

/-- As long as no requested block arrives, every step is in step. Assumes: a right cache, a
duplicate-free request, right blocks and no evictions. -/
theorem inStep_of_foreign {bodyOf : B256 → Body} {request : List B256}
    {state : ServeState Rest Body} {events : List (ServeEvent Rest Body)} (hnodup : request.Nodup)
    (hserves : ServesRight bodyOf request state)
    (haligned : PhaseAligned request state.cache state.phase)
    (hevents : ∀ event ∈ events, event.Right bodyOf)
    (hforeign : ∀ event ∈ events, event.Foreign request)
    (hkeeps : EachStep (EvictsNoBody (honestPeer bodyOf) request)
      (step (honestPeer bodyOf) request) state events) :
    EachStep (InStep request) (step (honestPeer bodyOf) request) state events := by
  induction events generalizing state with
  | nil => trivial
  | cons event events ih =>
    obtain ⟨hevent, hrest⟩ := List.forall_mem_cons.mp hevents
    obtain ⟨hother, hothers⟩ := List.forall_mem_cons.mp hforeign
    cases event with
    | handler =>
      exact ⟨haligned.inStep, ih (hserves.handlerStep hnodup hkeeps.1 haligned.inStep)
        (haligned.handlerStep hnodup hserves) hrest hothers hkeeps.2⟩
    | newBlock event =>
      refine ⟨trivial, ih (hserves.newBlock hevent hkeeps.1)
        (haligned.mono hserves.phase fun hash hhash hnot ↦ ?_) hrest hothers hkeeps.2⟩
      cases event with
      | hashes hashes => exact hnot
      | block msg => exact mt (LruCache.mem_keys_of_mem_push fun h ↦ hother (h ▸ hhash)) hnot

/-! ### The response is sent -/

/-- A bound on the accesses of the handler that are still to come. -/
def accessesLeft (request : List B256) : Phase Body → ℕ
  | .resolving _ rest => rest.length + 3 * request.length + 4
  | .collecting _ _ rest => rest.length + 2 * request.length + 3
  | .fetching _ _ => 2 * request.length + 2
  | .merging _ _ _ rest => 2 * rest.length + 1
  | .storing _ _ _ _ _ rest => 2 * rest.length + 2
  | .replied _ => 0

theorem eq_replied_of_accessesLeft {request : List B256} {phase : Phase Body}
    (hleft : accessesLeft request phase = 0) : ∃ response, phase = .replied response := by
  cases phase with
  | replied response => exact ⟨response, rfl⟩
  | _ => cases hleft

/-- Every access brings the response nearer. -/
theorem accessesLeft_handlerStep (peer : List B256 → Option (List Body)) (request : List B256)
    (state : ServeState Rest Body) :
    accessesLeft request (handlerStep peer request state).phase ≤
      accessesLeft request state.phase - 1 := by
  obtain ⟨blockImport, phase⟩ := state
  cases phase with
  | resolving bodies rest =>
    cases rest with
    | nil =>
      simp only [handlerStep]
      split_ifs
      · exact Nat.zero_le _
      · simp only [accessesLeft, List.length_nil]
        omega
    | cons hash rest =>
      rw [handlerStep_resolving]
      simp only [accessesLeft, List.length_cons]
      omega
  | collecting bodies missing rest =>
    cases rest with
    | nil =>
      simp only [handlerStep]
      split_ifs
      · exact Nat.zero_le _
      · simp only [accessesLeft, List.length_nil]
        omega
    | cons hash rest =>
      rw [handlerStep_collecting]
      simp only [accessesLeft, List.length_cons]
      omega
  | fetching bodies missing =>
    simp only [handlerStep]
    cases peer missing with
    | none => exact Nat.zero_le _
    | some fetchedBodies => exact Nat.le_refl _
  | merging asked fetchIter allBodies rest =>
    cases rest with
    | nil => exact Nat.zero_le _
    | cons hash rest =>
      cases hbody : blockImport.cache.bodiesByHash.peek hash with
      | some body =>
        rw [handlerStep_merging_cached hbody]
        simp only [accessesLeft, List.length_cons]
        omega
      | none =>
        cases fetchIter with
        | nil =>
          rw [handlerStep_merging_exhausted hbody]
          simp only [accessesLeft, List.length_cons]
          omega
        | cons body fetchIter =>
          rw [handlerStep_merging_fetched hbody]
          simp only [accessesLeft, List.length_cons]
          omega
  | storing asked hash body fetchIter allBodies rest => exact Nat.le_refl _
  | replied response => exact Nat.le_refl _

/-- An announcement leaves the handler where it is. -/
theorem accessesLeft_run (peer : List B256 → Option (List Body)) (request : List B256)
    (state : ServeState Rest Body) (events : List (ServeEvent Rest Body)) :
    accessesLeft request (run (step peer request) state events).phase ≤
      accessesLeft request state.phase - events.countP ServeEvent.isHandler := by
  induction events generalizing state with
  | nil => exact Nat.le_refl _
  | cons event events ih =>
    have hrest := ih (step peer request state event)
    rw [run_cons, List.countP_cons]
    cases event with
    | handler =>
      have hstep := accessesLeft_handlerStep peer request state
      simp only [step, ServeEvent.isHandler, if_true] at hrest ⊢
      omega
    | newBlock event => exact hrest

/-- However many blocks arrive, enough accesses of the handler lead to a response. -/
theorem exists_replied_run (peer : List B256 → Option (List Body))
    (blockImport : CachingBlockImport Rest Body) (request : List B256)
    (events : List (ServeEvent Rest Body))
    (haccesses : 4 * request.length + 4 ≤ events.countP ServeEvent.isHandler) :
    ∃ response, (run (step peer request) (.start blockImport request) events).phase =
      .replied response := by
  have hleft := accessesLeft_run peer request (.start blockImport request) events
  have hstart : accessesLeft request (ServeState.start blockImport request).phase =
      4 * request.length + 4 := by
    simp only [ServeState.start, accessesLeft]
    omega
  have hzero : accessesLeft request
      (run (step peer request) (.start blockImport request) events).phase = 0 := by
    omega
  exact eq_replied_of_accessesLeft hzero

/-! ### When the response is right -/

/-- Serving bodies while blocks arrive. Assumes: a right cache, a duplicate-free request, an honest
and complete peer, announcements of right blocks, and no evictions; and that no step takes one of
the two branches that an arrival made wrong. In every state the cache is right, and a response is
the requested bodies in the order of the request; with enough accesses of the handler there is
one. -/
theorem served_right (bodyOf : B256 → Body) (blockImport : CachingBlockImport Rest Body)
    (request : List B256) (events : List (ServeEvent Rest Body))
    (hright : BodiesRight bodyOf blockImport.cache) (hnodup : request.Nodup)
    (hevents : ∀ event ∈ events, event.Right bodyOf)
    (hkeeps : EachStep (EvictsNoBody (honestPeer bodyOf) request)
      (step (honestPeer bodyOf) request) (.start blockImport request) events)
    (hinStep : EachStep (InStep request) (step (honestPeer bodyOf) request)
      (.start blockImport request) events) :
    (∀ before, before <+: events →
        BodiesRight bodyOf
            (run (step (honestPeer bodyOf) request) (.start blockImport request) before).cache ∧
          ∀ response, (run (step (honestPeer bodyOf) request) (.start blockImport request)
              before).phase = .replied response → response = request.map bodyOf) ∧
      (4 * request.length + 4 ≤ events.countP ServeEvent.isHandler →
        (run (step (honestPeer bodyOf) request) (.start blockImport request) events).phase =
          .replied (request.map bodyOf)) := by
  have hserves : ∀ before, before <+: events → ServesRight bodyOf request
      (run (step (honestPeer bodyOf) request) (.start blockImport request) before) := by
    rintro before ⟨after, rfl⟩
    exact servesRight_run hnodup hright
      (fun event hevent ↦ hevents event (List.mem_append_left _ hevent)) hkeeps.of_append
      hinStep.of_append
  have hresponse : ∀ before, before <+: events → ∀ response,
      (run (step (honestPeer bodyOf) request) (.start blockImport request) before).phase =
        .replied response → response = request.map bodyOf := by
    intro before hbefore response hreplied
    have hphase := (hserves before hbefore).phase
    rw [hreplied] at hphase
    exact hphase
  refine ⟨fun before hbefore ↦ ⟨(hserves before hbefore).bodies, hresponse before hbefore⟩,
    fun haccesses ↦ ?_⟩
  obtain ⟨response, hreplied⟩ := exists_replied_run _ blockImport request events haccesses
  rw [hreplied, hresponse events (List.prefix_refl _) response hreplied]

/-- Another block arrives during the fetch of two. -/
theorem served_right_beside_another_block :
    let request : List B256 := [.repeatByte 1, .repeatByte 2]
    let blockImport : CachingBlockImport Unit (List UInt8) := ⟨.new 4, []⟩
    let arrival : ServeEvent Unit (List UInt8) :=
      .newBlock (.block ⟨.repeatByte 3, ⟨.repeatByte 0, 3, 36, ()⟩, List.replicate 32 3⟩)
    (run (step (honestPeer B256.bytes) request) (.start blockImport request)
        (List.replicate 6 .handler ++ arrival :: List.replicate 6 .handler)).phase =
      .replied (request.map B256.bytes) :=
  (served_right B256.bytes ⟨.new 4, []⟩ [.repeatByte 1, .repeatByte 2] _ (by decide) (by decide)
    (by decide) (by decide) (by decide)).2 (by decide)

/-- The first of two fetched blocks arrives during the fetch: the merge finds it cached, and stores
its fetched body under the hash of the second. -/
theorem served_wrong_after_arrival :
    let request : List B256 := [.repeatByte 1, .repeatByte 2]
    let blockImport : CachingBlockImport Unit (List UInt8) := ⟨.new 4, []⟩
    let arrival : ServeEvent Unit (List UInt8) :=
      .newBlock (.block ⟨.repeatByte 1, ⟨.repeatByte 0, 1, 12, ()⟩, List.replicate 32 1⟩)
    let events := List.replicate 6 .handler ++ arrival :: List.replicate 4 .handler
    BodiesRight B256.bytes blockImport.cache ∧ request.Nodup ∧
      (∀ event ∈ events, event.Right B256.bytes) ∧
      EachStep (EvictsNoBody (honestPeer B256.bytes) request)
        (step (honestPeer B256.bytes) request) (.start blockImport request) events ∧
      ¬ BodiesRight B256.bytes
        (run (step (honestPeer B256.bytes) request) (.start blockImport request) events).cache :=
  ⟨by decide, by decide, by decide, by decide, by decide⟩

-- The only requested block arrives between the two passes: nothing is fetched, and nothing is sent.
example :
    let request : List B256 := [.repeatByte 1]
    let arrival : ServeEvent Unit (List UInt8) :=
      .newBlock (.block ⟨.repeatByte 1, ⟨.repeatByte 0, 1, 12, ()⟩, List.replicate 32 1⟩)
    (run (step (honestPeer B256.bytes) request) (.start ⟨.new 4, []⟩ request)
      [.handler, .handler, arrival, .handler, .handler]).phase = .replied [] := rfl

end SentryNode.EthProxy
