import Mathlib.Algebra.Ring.Nat
import SentryNode.BlockCache.History
import SentryNode.EthProxy.HeadersProgression

/-!
# Answers page by page and back to front

A peer that wants many headers asks for them in pages, each of which starts behind the last header
of the page before. The lookups of a page move entries in the recency order, and nothing else, so
the pages put together are the answer to one request for all of them (`resolvePages_eq`). And an
answer asked for again from its last header, in the opposite direction, is the same list from back
to front (`resolveHeaders_opposite`).

Both rest on the numbers of the headers: what the cache finds at a number has that number.
-/

set_option autoImplicit false
set_option relaxedAutoImplicit false

namespace SentryNode.EthProxy

open Library

variable {Rest Body : Type*}

/-! ### Pages -/

/-- The request for the page behind a header: it goes on in the same steps. -/
def pageBehind (request : GetBlockHeaders) (last : Header Rest) : Option GetBlockHeaders :=
  (nextNumber request.direction (stepOf request) last.number).map fun number ↦
    { request with startBlock := .number number }

/-- The headers of some pages, one after the other, and the cache after them. A peer stops at a page
without headers, or where the numbers end. -/
def resolvePages (cache : BlockCache Rest Body) (request : GetBlockHeaders) :
    List UInt64 → List (Header Rest) × BlockCache Rest Body
  | [] => ([], cache)
  | limit :: limits =>
    let (page, cache) := resolveHeadersFromCache cache { request with limit }
    match page.getLast?.bind (pageBehind request) with
    | none => (page, cache)
    | some request =>
      let (pages, cache) := resolvePages cache request limits
      (page ++ pages, cache)

/-- Every header found at a number has that number. -/
def NumbersRight (cache : BlockCache Rest Body) : Prop :=
  ∀ number header, cache.headersByNumber.peek number = some header → header.number = number

theorem numbersRight_after (capacity : ℕ) (ops : List (CacheOp Rest Body)) :
    NumbersRight (BlockCache.after capacity ops) := by
  intro number header hpeek
  obtain ⟨-, -, hnumber⟩ := (coherentWith_after capacity ops).header_at hpeek
  exact hnumber

theorem NumbersRight.of_sameContents {first second : BlockCache Rest Body}
    (hnumbers : NumbersRight first) (hsame : first.SameContents second) : NumbersRight second := by
  intro number header hpeek
  rw [← hsame.headersByNumber.peek_eq] at hpeek
  exact hnumbers number header hpeek

/-- The last header of an answer is found at its own number. -/
theorem getLast?_cachedWalk {cache : BlockCache Rest Body} (hnumbers : NumbersRight cache)
    {request : GetBlockHeaders} {last : Header Rest}
    (hlast : (resolveHeadersFromCache cache request).1.getLast? = some last) :
    (cachedWalk cache request).getLast? = some (last.number, last) := by
  rw [resolveHeadersFromCache_fst, List.getLast?_map] at hlast
  obtain ⟨⟨number, header⟩, hentry, rfl⟩ := Option.map_eq_some_iff.mp hlast
  have hpeek := lookup_of_mem_walk (List.mem_of_getLast? hentry)
  rw [hentry, hnumbers number header hpeek]

/-- The pages are the walk of all their headers. -/
theorem resolvePages_fst {cache : BlockCache Rest Body} (hnumbers : NumbersRight cache)
    (request : GetBlockHeaders) {limits : List UInt64} (hlimits : ∀ limit ∈ limits, 0 < limit) :
    (resolvePages cache request limits).1 =
      (walk (nextNumber request.direction (stepOf request)) cache.headersByNumber.peek
        (limits.map UInt64.toNat).sum (startAt cache request.startBlock)).map Prod.snd := by
  induction limits generalizing cache request with
  | nil => rfl
  | cons limit limits ih =>
    obtain ⟨hlimit, hrest⟩ := List.forall_mem_cons.mp hlimits
    let page : GetBlockHeaders := { request with limit }
    have hsame := sameContents_resolveHeadersFromCache cache page
    have hpage : (resolveHeadersFromCache cache page).1 = (cachedWalk cache page).map Prod.snd :=
      resolveHeadersFromCache_fst cache page
    rw [List.map_cons, List.sum_cons]
    cases hlast : (resolveHeadersFromCache cache page).1.getLast? with
    | none =>
      -- Nothing is found behind a page without headers.
      have hempty := List.getLast?_eq_none_iff.mp hlast
      have hresult : (resolvePages cache request (limit :: limits)).1 =
          (resolveHeadersFromCache cache page).1 := by
        simp only [resolvePages, page, hlast, Option.bind_none]
      rw [hresult, hempty, eq_comm, List.map_eq_nil_iff]
      rw [hpage, List.map_eq_nil_iff] at hempty
      exact walk_add_of_eq_nil (UInt64.lt_iff_toNat_lt.mp hlimit) hempty _
    | some last =>
      have hwalk := walk_add_of_getLast? (getLast?_cachedWalk hnumbers hlast)
        (limits.map UInt64.toNat).sum
      refine Eq.trans ?_ (congrArg (List.map Prod.snd) hwalk).symm
      rw [List.map_append, ← cachedWalk, ← hpage]
      cases hnext : nextNumber request.direction (stepOf request) last.number with
      | none =>
        have hresult : (resolvePages cache request (limit :: limits)).1 =
            (resolveHeadersFromCache cache page).1 := by
          simp only [resolvePages, page, hlast, Option.bind_some, pageBehind, hnext,
            Option.map_none]
        have hend : nextNumber page.direction (stepOf page) last.number = none := hnext
        rw [hresult, hend, walk_none, List.map_nil, List.append_nil]
      | some number =>
        have hresult : (resolvePages cache request (limit :: limits)).1 =
            (resolveHeadersFromCache cache page).1 ++
              (resolvePages (resolveHeadersFromCache cache page).2
                { request with startBlock := .number number } limits).1 := by
          simp only [resolvePages, page, hlast, Option.bind_some, pageBehind, hnext,
            Option.map_some]
        have hstart : nextNumber page.direction (stepOf page) last.number = some number := hnext
        rw [hresult, hstart, ih (hnumbers.of_sameContents hsame) _ hrest,
          ← hsame.headersByNumber.peek_eq]
        rfl

/-- Pages put together are one answer. Assumes: every page asks for a header at least, and the sum
of the limits is a limit itself. After any history of the cache, the pages have the headers that one
request for all of them has, although each page is resolved after the lookups of those before it. -/
theorem resolvePages_eq (capacity : ℕ) (ops : List (CacheOp Rest Body)) (request : GetBlockHeaders)
    (limits : List UInt64) (hlimits : ∀ limit ∈ limits, 0 < limit) (total : UInt64)
    (htotal : total.toNat = (limits.map UInt64.toNat).sum) :
    (resolvePages (BlockCache.after capacity ops) request limits).1 =
      (resolveHeadersFromCache (BlockCache.after capacity ops)
        { request with limit := total }).1 := by
  rw [resolvePages_fst (numbersRight_after capacity ops) request hlimits, ← htotal,
    resolveHeadersFromCache_fst]
  rfl

/-- Three blocks in two pages, of which the second one is not full. -/
theorem resolvePages_eq_of_two :
    let ops : List (CacheOp UInt8 Unit) :=
      [.insert (.repeatByte 1) ⟨.repeatByte 0, 5, 60, 1⟩ (),
        .insert (.repeatByte 2) ⟨.repeatByte 1, 6, 72, 2⟩ (),
        .insert (.repeatByte 3) ⟨.repeatByte 2, 7, 84, 3⟩ ()]
    (resolvePages (BlockCache.after 4 ops) ⟨.number 5, 0, 0, .rising⟩ [2, 2]).1 =
      (resolveHeadersFromCache (BlockCache.after 4 ops) ⟨.number 5, 4, 0, .rising⟩).1 :=
  resolvePages_eq 4 _ ⟨.number 5, 0, 0, .rising⟩ [2, 2] (by simp) 4 rfl

/-! ### Back to front -/

/-- `HeadersDirection` the other way. -/
def opposite : HeadersDirection → HeadersDirection
  | .rising => .falling
  | .falling => .rising

/-- A step in one direction is undone by a step in the other. -/
theorem nextNumber_opposite {direction : HeadersDirection} {step first second : UInt64}
    (hnext : nextNumber direction step first = some second) :
    nextNumber (opposite direction) step second = some first := by
  cases direction with
  | rising => exact checkedSub_eq_some_iff.mpr (checkedAdd_eq_some_iff.mp hnext).symm
  | falling => exact checkedAdd_eq_some_iff.mpr (checkedSub_eq_some_iff.mp hnext).symm

/-- The request for an answer from its last header back to its first. -/
def requestBack (request : GetBlockHeaders) (served : List (Header Rest)) (last : Header Rest) :
    GetBlockHeaders where
  startBlock := .number last.number
  limit := .ofNat served.length
  skip := request.skip
  direction := opposite request.direction

/-- An answer asked for from its last header, in the opposite direction, is the same list from back
to front. Assumes: the answer has a last header. After any history of the cache and for every
request, although the second answer is resolved after the lookups of the first. -/
theorem resolveHeaders_opposite (capacity : ℕ) (ops : List (CacheOp Rest Body))
    (request : GetBlockHeaders) (last : Header Rest)
    (hlast : (resolveHeadersFromCache (BlockCache.after capacity ops) request).1.getLast? =
      some last) :
    let first := resolveHeadersFromCache (BlockCache.after capacity ops) request
    (resolveHeadersFromCache first.2 (requestBack request first.1 last)).1 = first.1.reverse := by
  intro first
  have hsame := sameContents_resolveHeadersFromCache (BlockCache.after capacity ops) request
  have hwalk : first.1 = (cachedWalk (BlockCache.after capacity ops) request).map Prod.snd :=
    resolveHeadersFromCache_fst _ _
  have hlength : (requestBack request first.1 last).limit.toNat =
      (cachedWalk (BlockCache.after capacity ops) request).length := by
    have hle := length_resolveHeaders_le (BlockCache.after capacity ops) request
    have hlimit := request.limit.toNat_lt
    rw [← List.length_map Prod.snd, ← hwalk]
    exact UInt64.toNat_ofNat_of_lt' (Nat.lt_of_le_of_lt hle hlimit)
  have hback := walk_reverse (fun _ _ ↦ nextNumber_opposite)
    (getLast?_cachedWalk (numbersRight_after capacity ops) hlast)
  rw [resolveHeadersFromCache_fst, cachedWalk, hlength, ← hsame.headersByNumber.peek_eq, hwalk,
    ← List.map_reverse]
  exact congrArg (List.map Prod.snd) hback

/-- Two blocks, rising and falling. -/
theorem resolveHeaders_opposite_of_two :
    let ops : List (CacheOp UInt8 Unit) :=
      [.insert (.repeatByte 1) ⟨.repeatByte 0, 5, 60, 1⟩ (),
        .insert (.repeatByte 2) ⟨.repeatByte 1, 6, 72, 2⟩ ()]
    let request : GetBlockHeaders := ⟨.hash (.repeatByte 1), 9, 0, .rising⟩
    let first := resolveHeadersFromCache (BlockCache.after 2 ops) request
    (resolveHeadersFromCache first.2 (requestBack request first.1 ⟨.repeatByte 1, 6, 72, 2⟩)).1 =
      first.1.reverse :=
  resolveHeaders_opposite 2 _ _ _ (by decide)

end SentryNode.EthProxy
