import SentryNode.EthProxy.Headers

/-!
# Proxied headers

What the eth protocol defines as the answer to a header request, on a chain: the headers at the
start block, `skip + 1` further, and so on (`protocolAnswer`). A request that the cache cannot
answer is put to an internet peer as a `HeadersRequest`, whose answer is the consecutive headers
from the start block (`Chain.answer` with stride one), and that answer is sent back unchanged.

`getBlockHeaders_initial_iff` states when the two agree. The skip is lost on the way, so the
response is an initial segment of the protocol's answer exactly when there was no skip to lose, or
when the peer's answer is too short to show it.
-/

set_option autoImplicit false
set_option relaxedAutoImplicit false

namespace SentryNode.EthProxy

open Library

variable {Rest Body : Type*}

/-! ### Answers on a chain -/

/-- A chain of headers, each at the position of its number. -/
structure Chain (Rest : Type*) where
  headers : List (Header Rest)
  number_eq : ∀ position (hposition : position < headers.length),
    headers[position].number.toNat = position

namespace Chain

/-- The number of a start block on the chain. -/
def numberOf (hashOf : Header Rest → B256) (chain : Chain Rest) : BlockHashOrNumber → Option ℕ
  | .number number => some number.toNat
  | .hash hash => (chain.headers.find? (hashOf · = hash)).map (·.number.toNat)

/-- The number a stride away in a direction. -/
def nextOf (direction : HeadersDirection) (stride number : ℕ) : Option ℕ :=
  match direction with
  | .rising => some (number + stride)
  | .falling => if stride ≤ number then some (number - stride) else none

/-- The headers of the chain from a start block on, a stride apart, at most `limit` of them. -/
def answer (hashOf : Header Rest → B256) (chain : Chain Rest) (start : BlockHashOrNumber)
    (limit : UInt64) (direction : HeadersDirection) (stride : ℕ) : List (Header Rest) :=
  (walk (nextOf direction stride) (chain.headers[·]?) limit.toNat
    (chain.numberOf hashOf start)).map Prod.snd

end Chain

/-- The answer the eth protocol defines for a request. -/
def protocolAnswer (hashOf : Header Rest → B256) (chain : Chain Rest) (request : GetBlockHeaders) :
    List (Header Rest) :=
  chain.answer hashOf request.startBlock request.limit request.direction (request.skip.toNat + 1)

/-- A peer whose answers are consecutive headers of the chain, from the start block in the requested
direction and at most as many as asked for. -/
def HonestPeer (hashOf : Header Rest → B256) (chain : Chain Rest)
    (peer : HeadersRequest → Option (List (Header Rest))) : Prop :=
  ∀ request answer, peer request = some answer →
    answer <+: chain.answer hashOf request.start request.limit request.direction 1

/-! ### Strides -/

section Strides

variable {hashOf : Header Rest → B256} {chain : Chain Rest} {start : BlockHashOrNumber}
  {limit : UInt64} {direction : HeadersDirection} {stride : ℕ}

theorem Chain.number_of_getElem? {position : ℕ} {header : Header Rest}
    (hheader : chain.headers[position]? = some header) : header.number.toNat = position := by
  obtain ⟨hposition, rfl⟩ := List.getElem?_eq_some_iff.mp hheader
  exact chain.number_eq position hposition

/-- The neighbours of an answer are a stride apart. -/
theorem Chain.isChain_answer :
    (chain.answer hashOf start limit direction stride).IsChain fun first second ↦
      Chain.nextOf direction stride first.number.toNat = some second.number.toNat := by
  rw [Chain.answer, List.isChain_map]
  refine (isChain_walk _ _).imp_of_mem_imp fun first second hfirst hsecond hnext ↦ ?_
  rw [Chain.number_of_getElem? (lookup_of_mem_walk hfirst),
    Chain.number_of_getElem? (lookup_of_mem_walk hsecond), hnext]

/-- The first header of an answer does not depend on the stride. -/
theorem Chain.head?_answer (other : ℕ) :
    (chain.answer hashOf start limit direction stride).head? =
      (chain.answer hashOf start limit direction other).head? := by
  rw [Chain.answer, Chain.answer, List.head?_map, List.head?_map]
  rcases Nat.eq_zero_or_pos limit.toNat with hlimit | hlimit
  · rw [hlimit, walk_zero, walk_zero]
  · rw [head?_walk hlimit, head?_walk hlimit]

/-- Two strides that lead from one number to the same next one are equal. -/
theorem Chain.nextOf_inj {first second number next : ℕ}
    (hfirst : Chain.nextOf direction first number = some next)
    (hsecond : Chain.nextOf direction second number = some next) : first = second := by
  cases direction with
  | rising =>
    rw [Chain.nextOf, Option.some_inj] at hfirst hsecond
    omega
  | falling =>
    rw [Chain.nextOf, Option.ite_none_right_eq_some, Option.some_inj] at hfirst hsecond
    omega

/-- Consecutive headers are an initial segment of the answer with a stride exactly when the stride
is one or at most one header is there. -/
theorem Chain.initial_answer_iff {consecutive : List (Header Rest)}
    (hconsecutive : consecutive <+: chain.answer hashOf start limit direction 1) :
    consecutive <+: chain.answer hashOf start limit direction stride ↔
      stride = 1 ∨ consecutive.length ≤ 1 := by
  constructor
  · intro hinitial
    rcases consecutive with - | ⟨first, - | ⟨second, rest⟩⟩
    · exact Or.inr (Nat.zero_le 1)
    · exact Or.inr (Nat.le_refl 1)
    · have hone := List.IsChain.prefix Chain.isChain_answer hconsecutive
      have hstride := List.IsChain.prefix Chain.isChain_answer hinitial
      exact Or.inl (Chain.nextOf_inj (List.isChain_cons_cons.mp hstride).1
        (List.isChain_cons_cons.mp hone).1)
  · rintro (rfl | hshort)
    · exact hconsecutive
    · rcases consecutive with - | ⟨first, - | ⟨second, rest⟩⟩
      · exact List.nil_prefix
      · have hhead : (chain.answer hashOf start limit direction stride).head? = some first := by
          obtain ⟨rest, hrest⟩ := hconsecutive
          rw [Chain.head?_answer 1, ← hrest]
          rfl
        obtain ⟨rest, hrest⟩ := List.head?_eq_some_iff.mp hhead
        rw [hrest]
        exact List.prefix_append [first] rest
      · exact absurd hshort (by simp)

end Strides

/-! ### The response -/

/-- When a proxied response obeys the request. Assumes: a request the cache has nothing for, and a
peer that answers honestly from a chain. The response is an initial segment of what the protocol
defines exactly when the request has no skip, or the peer's answer is at most one header. -/
theorem getBlockHeaders_initial_iff (hashSlow : Header Rest → B256) (chain : Chain Rest)
    (peer : HeadersRequest → Option (List (Header Rest))) (cache : BlockCache Rest Body)
    (request : GetBlockHeaders) (fetched : List (Header Rest))
    (huncached : (resolveHeadersFromCache cache request).1 = [])
    (hpeer : HonestPeer hashSlow chain peer)
    (hfetched : peer (proxyRequest request) = some fetched) :
    (getBlockHeaders hashSlow peer cache request).response <+:
        protocolAnswer hashSlow chain request ↔
      request.skip = 0 ∨ fetched.length ≤ 1 := by
  have hconsecutive := hpeer _ fetched hfetched
  rw [getBlockHeaders_of_fetched huncached hfetched, protocolAnswer]
  have hskip : request.skip.toNat + 1 = 1 ↔ request.skip = 0 := by
    rw [Nat.add_eq_right, ← UInt32.toNat_inj]
    rfl
  rw [← hskip]
  exact Chain.initial_answer_iff hconsecutive

/-- Three headers, numbered from zero. -/
def threeHeaders : Chain UInt8 where
  headers := [⟨.repeatByte 9, 0, 0, 0⟩, ⟨.repeatByte 0, 1, 12, 1⟩, ⟨.repeatByte 1, 2, 24, 2⟩]
  number_eq := by decide

/-- The peer that sends all of the consecutive headers asked for. -/
def consecutivePeer (hashOf : Header Rest → B256) (chain : Chain Rest) (request : HeadersRequest) :
    Option (List (Header Rest)) :=
  some (chain.answer hashOf request.start request.limit request.direction 1)

theorem honestPeer_consecutivePeer (hashOf : Header Rest → B256) (chain : Chain Rest) :
    HonestPeer hashOf chain (consecutivePeer hashOf chain) := by
  intro request answer hanswer
  obtain rfl := Option.some.inj hanswer
  exact List.prefix_refl _

/-- Two headers without skip, from an empty cache. -/
theorem getBlockHeaders_initial_of_no_skip :
    let hashOf : Header UInt8 → B256 := fun header ↦ .repeatByte header.rest
    (getBlockHeaders hashOf (consecutivePeer hashOf threeHeaders)
        (.new 4 : BlockCache UInt8 Unit) ⟨.number 0, 2, 0, .rising⟩).response <+:
      protocolAnswer hashOf threeHeaders ⟨.number 0, 2, 0, .rising⟩ :=
  (getBlockHeaders_initial_iff _ threeHeaders _ _ ⟨.number 0, 2, 0, .rising⟩ _ (by decide)
    (honestPeer_consecutivePeer _ _) rfl).mpr (Or.inl rfl)

/-- Two headers with a skip of one: the response is the headers `0` and `1` in place of `0` and
`2`. -/
theorem getBlockHeaders_loses_skip :
    let hashOf : Header UInt8 → B256 := fun header ↦ .repeatByte header.rest
    let cache : BlockCache UInt8 Unit := .new 4
    let request : GetBlockHeaders := ⟨.number 0, 2, 1, .rising⟩
    (resolveHeadersFromCache cache request).1 = [] ∧
      HonestPeer hashOf threeHeaders (consecutivePeer hashOf threeHeaders) ∧
      ¬ (getBlockHeaders hashOf (consecutivePeer hashOf threeHeaders) cache request).response <+:
        protocolAnswer hashOf threeHeaders request :=
  ⟨by decide, honestPeer_consecutivePeer _ _, by decide⟩

end SentryNode.EthProxy
