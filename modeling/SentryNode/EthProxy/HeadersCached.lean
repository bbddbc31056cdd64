import SentryNode.EthProxy.HeadersProgression
import SentryNode.EthProxy.HeadersProxy

/-!
# Proxied headers in the cache

The headers fetched from a peer are cached before they are sent on. An honest answer lists the
headers of the numbers asked for from the start block on (`HonestAnswer`). They are distinct, so an
answer that fits the capacity is cached as a whole, whatever the maps held before.

`getBlockHeaders_cached` links the two paths of the handler: what the slow path writes is what the
fast path reads when the same request comes again.
-/

set_option autoImplicit false
set_option relaxedAutoImplicit false

namespace SentryNode.EthProxy

open Library

variable {Rest Body : Type*}

/-- A header is the start block of a request. -/
def StartsAt (hashSlow : Header Rest → B256) : BlockHashOrNumber → Header Rest → Prop
  | .number number, first => first.number = number
  | .hash hash, first => hashSlow first = hash

/-- An honest answer to a request: it begins with the start block, and the numbers go on from there
as requested, one after the other when there is no skip. -/
structure HonestAnswer (hashSlow : Header Rest → B256) (request : GetBlockHeaders)
    (fetched : List (Header Rest)) : Prop where
  starts : ∀ first, fetched.head? = some first → StartsAt hashSlow request.startBlock first
  numbers : ∀ first, fetched.head? = some first →
    ∀ position header, fetched[position]? = some header →
      (header.number.toNat : ℤ) = requestedNumber request first.number position

/-! ### What the slow path writes -/

theorem cacheHeaders_eq (hashSlow : Header Rest → B256) (cache : BlockCache Rest Body)
    (fetched : List (Header Rest)) :
    cacheHeaders hashSlow cache fetched =
      { cache with
        headersByHash := cache.headersByHash.pushAll (fetched.map fun header ↦
          (hashSlow header, header))
        headersByNumber := cache.headersByNumber.pushAll (fetched.map fun header ↦
          (header.number, header))
        hashByNumber := cache.hashByNumber.pushAll (fetched.map fun header ↦
          (header.number, hashSlow header)) } := by
  induction fetched generalizing cache with
  | nil => rfl
  | cons header fetched ih => exact ih (cache.insertHeader (hashSlow header) header)

section Fetched

variable {hashSlow : Header Rest → B256} {cache : BlockCache Rest Body} {request : GetBlockHeaders}
  {fetched : List (Header Rest)} {capacity : ℕ}

theorem HonestAnswer.nodup_numbers (hhonest : HonestAnswer hashSlow request fetched) :
    (fetched.map Header.number).Nodup := by
  cases fetched with
  | nil => exact List.nodup_nil
  | cons first rest =>
    rw [List.Nodup, List.pairwise_map, List.pairwise_iff_getElem]
    intro lower upper hlower hupper hlt heq
    have hlowerNumber := hhonest.numbers first rfl lower _ (List.getElem?_eq_getElem hlower)
    have hupperNumber := hhonest.numbers first rfl upper _ (List.getElem?_eq_getElem hupper)
    rw [heq, hupperNumber] at hlowerNumber
    exact Nat.ne_of_gt hlt (requestedNumber_injective request first.number hlowerNumber)

/-- Fetched headers that fit are found by number. -/
theorem peek_headersByNumber_cacheHeaders (hcapacity : cache.HasCapacity capacity)
    (hnumbers : (fetched.map Header.number).Nodup) (hfits : fetched.length ≤ capacity)
    {header : Header Rest} (hheader : header ∈ fetched) :
    (cacheHeaders hashSlow cache fetched).headersByNumber.peek header.number = some header := by
  have hpair := List.mem_map_of_mem (f := fun header ↦ (header.number, header)) hheader
  rw [cacheHeaders_eq]
  refine LruCache.peek_pushAll_of_fits ?_ ?_ hpair
  · rwa [List.map_map]
  · rwa [List.length_map, hcapacity.headersByNumber]

/-- Fetched headers that fit are found by hash, unless two of them have one hash. -/
theorem peek_headersByHash_cacheHeaders (hcapacity : cache.HasCapacity capacity)
    (hhashes : (fetched.map hashSlow).Nodup) (hfits : fetched.length ≤ capacity)
    {header : Header Rest} (hheader : header ∈ fetched) :
    (cacheHeaders hashSlow cache fetched).headersByHash.peek (hashSlow header) = some header := by
  have hpair := List.mem_map_of_mem (f := fun header ↦ (hashSlow header, header)) hheader
  rw [cacheHeaders_eq]
  refine LruCache.peek_pushAll_of_fits ?_ ?_ hpair
  · rwa [List.map_map]
  · rwa [List.length_map, hcapacity.headersByHash]

/-- After an honest answer has been cached, its request starts at its first header. -/
theorem startAt_cacheHeaders (hcapacity : cache.HasCapacity capacity)
    (hhashes : (fetched.map hashSlow).Nodup) (hfits : fetched.length ≤ capacity)
    {first : Header Rest} (hfirst : first ∈ fetched)
    (hstart : StartsAt hashSlow request.startBlock first) :
    startAt (cacheHeaders hashSlow cache fetched) request.startBlock = some first.number := by
  cases hblock : request.startBlock with
  | number number =>
    rw [hblock] at hstart
    exact congrArg some hstart.symm
  | hash hash =>
    rw [hblock] at hstart
    have hpeek := peek_headersByHash_cacheHeaders hcapacity hhashes hfits hfirst
    rw [startAt, ← (hstart : hashSlow first = hash), hpeek, Option.map_some]

/-- After an honest answer has been cached, its headers are found first. -/
theorem prefix_resolveHeaders_cacheHeaders (hcapacity : cache.HasCapacity capacity)
    (hhonest : HonestAnswer hashSlow request fetched) (hhashes : (fetched.map hashSlow).Nodup)
    (hfits : fetched.length ≤ capacity) (hlimit : fetched.length ≤ request.limit.toNat) :
    fetched <+:
      (resolveHeadersFromCache (cacheHeaders hashSlow cache fetched) request).1 := by
  cases fetched with
  | nil => exact List.nil_prefix
  | cons first rest =>
    have hstart := startAt_cacheHeaders hcapacity hhashes hfits List.mem_cons_self
      (hhonest.starts first rfl)
    have hbegins : (first :: rest).map (fun header ↦ (header.number, header)) <+:
        cachedWalk (cacheHeaders hashSlow cache (first :: rest)) request := by
      refine prefix_walk (fun position entry hentry ↦ ?_) (fun entry hentry ↦ ?_) ?_
      · rw [List.getElem?_map] at hentry
        obtain ⟨header, hheader, rfl⟩ := Option.map_eq_some_iff.mp hentry
        rw [hstart]
        exact reach_nextNumber_iff.mpr (hhonest.numbers first rfl position header hheader)
      · obtain ⟨header, hheader, rfl⟩ := List.mem_map.mp hentry
        exact peek_headersByNumber_cacheHeaders hcapacity hhonest.nodup_numbers hfits hheader
      · rwa [List.length_map]
    have hheaders := hbegins.map Prod.snd
    have hvalues : Prod.snd ∘ (fun header : Header Rest ↦ (header.number, header)) = id := rfl
    rwa [List.map_map, hvalues, List.map_id, ← resolveHeadersFromCache_fst] at hheaders

/-- A cache that has the headers of an answer first serves them. -/
theorem getBlockHeaders_of_prefix {peer : HeadersRequest → Option (List (Header Rest))}
    (hbegins : fetched <+: (resolveHeadersFromCache cache request).1)
    (hsome : 1 ≤ fetched.length) :
    let again := getBlockHeaders hashSlow peer cache request
    again.asked = none ∧ fetched <+: again.response ∧
      (fetched.length = request.limit.toNat → again.response = fetched) := by
  have hcached : (resolveHeadersFromCache cache request).1 ≠ [] := fun hnil ↦ by
    rw [hnil, List.prefix_nil] at hbegins
    rw [hbegins] at hsome
    cases hsome
  rw [getBlockHeaders_of_cached hcached]
  refine ⟨rfl, hbegins, fun hfull ↦ (hbegins.eq_of_length_le ?_).symm⟩
  rw [hfull]
  exact length_resolveHeaders_le cache request

end Fetched

/-- A proxied answer is served from the cache next time. Assumes: a cache of a capacity that has
nothing for the request; an honest answer of the peer, not empty, within the limit and the capacity,
of headers with different hashes. When the same request comes again, no peer is asked and the
response begins with the same headers; it has no others when the limit was reached. -/
theorem getBlockHeaders_cached (hashSlow : Header Rest → B256)
    (peer laterPeer : HeadersRequest → Option (List (Header Rest))) (cache : BlockCache Rest Body)
    (capacity : ℕ) (request : GetBlockHeaders) (fetched : List (Header Rest))
    (hcapacity : cache.HasCapacity capacity)
    (huncached : (resolveHeadersFromCache cache request).1 = [])
    (hfetched : peer (proxyRequest request) = some fetched)
    (hhonest : HonestAnswer hashSlow request fetched)
    (hcollision : ∀ first ∈ fetched, ∀ second ∈ fetched,
      hashSlow first = hashSlow second → first = second)
    (hsome : 1 ≤ fetched.length) (hfits : fetched.length ≤ min request.limit.toNat capacity) :
    let again := getBlockHeaders hashSlow laterPeer
      (getBlockHeaders hashSlow peer cache request).cache request
    again.asked = none ∧ fetched <+: again.response ∧
      (fetched.length = request.limit.toNat → again.response = fetched) := by
  obtain ⟨hlimit, hroom⟩ := Nat.le_min.mp hfits
  have hhashes : (fetched.map hashSlow).Nodup :=
    List.Nodup.map_on hcollision (List.Nodup.of_map _ hhonest.nodup_numbers)
  rw [getBlockHeaders_of_fetched huncached hfetched]
  refine getBlockHeaders_of_prefix ?_ hsome
  exact prefix_resolveHeaders_cacheHeaders
    ((sameContents_resolveHeadersFromCache cache request).hasCapacity hcapacity) hhonest hhashes
    hroom hlimit

/-- Two headers upwards from a hash, into an empty cache of two. -/
theorem getBlockHeaders_cached_of_two :
    let hashOf : Header UInt8 → B256 := fun header ↦ .repeatByte header.rest
    let request : GetBlockHeaders := ⟨.hash (.repeatByte 0), 2, 0, .rising⟩
    let again := getBlockHeaders hashOf (fun _ ↦ none) (getBlockHeaders hashOf
      (consecutivePeer hashOf threeHeaders) (.new 2 : BlockCache UInt8 Unit) request).cache request
    again.asked = none ∧ threeHeaders.headers.take 2 <+: again.response ∧
      ((threeHeaders.headers.take 2).length = request.limit.toNat →
        again.response = threeHeaders.headers.take 2) := by
  intro hashOf request
  have hhonest : HonestAnswer hashOf request (threeHeaders.headers.take 2) := {
    starts := by
      rintro first ⟨⟩
      rfl
    numbers := by
      rintro first ⟨⟩ position header hheader
      rcases position with - | - | position
      · obtain rfl := Option.some.inj hheader
        decide
      · obtain rfl := Option.some.inj hheader
        decide
      · cases hheader }
  exact getBlockHeaders_cached hashOf (consecutivePeer hashOf threeHeaders) (fun _ ↦ none) (.new 2)
    2 request _ (BlockCache.hasCapacity_new 2) (by decide) (by decide) hhonest (by decide)
    (by decide) (by decide)

end SentryNode.EthProxy
