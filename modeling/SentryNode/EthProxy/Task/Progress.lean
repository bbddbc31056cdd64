import SentryNode.EthProxy.BodiesArrivals
import SentryNode.EthProxy.Task
import SentryNode.Library.Progress

/-!
# Progress of the request handler

The handler has no time limit of its own, and it serves one request at a time. A request has a
bounded number of steps (`Serving.work`), whatever blocks arrive between them, so the only thing it
can wait for is a fetch. `task_answers_or_waits` states what follows for the requests in the channel
at any moment, when the handler is not stopped from making its steps: either all of them are replied
to, in order, although further requests and blocks keep coming in, or there is a fetch that never
ends, and from then on nobody is replied to.
-/

set_option autoImplicit false
set_option relaxedAutoImplicit false

namespace SentryNode.EthProxy

open Library

variable {Rest Body : Type*}

/-! ### The steps of a request -/

/-- The lookups of a resolution that are still to come, at most. -/
def WalkPhase.lookupsLeft (limit : ℕ) : WalkPhase Rest → ℕ
  | starting _ => limit + 1
  | walking left _ _ => left + 1
  | resolved _ => 0

/-- The steps of a header request from its fetch on: its end, the headers to be cached, the
reply. -/
def fetchWork (fetchClient : FetchClient Rest Body) (request : GetBlockHeaders) : ℕ :=
  ((fetchClient.getHeaders (proxyRequest request)).getD []).length + 2

/-- The steps of a request that are still to come, at most. -/
def Serving.work (fetchClient : FetchClient Rest Body) : Serving Rest Body → ℕ
  | resolving request phase =>
    phase.lookupsLeft request.limit.toNat + 1 + fetchWork fetchClient request
  | fetching request => fetchWork fetchClient request
  | caching _ _ rest => rest.length + 1
  | bodies request phase _ => accessesLeft request phase + 1

def Turn.work (fetchClient : FetchClient Rest Body) : Turn Rest Body → ℕ
  | .serving now => now.work fetchClient
  | .replied _ => 0

/-- The steps of a request that has not been taken, at most. -/
def HandlerEvent.work (event : HandlerEvent Rest Body) : ℕ :=
  match event.request with
  | .getBlockHeaders request => request.limit.toNat + 3 + fetchWork event.fetchClient request
  | .getBlockBodies request => 4 * request.length + 6
  | _ => 1

section Steps

variable {hashSlow : Header Rest → B256} {blockImport : CachingBlockImport Rest Body}
  {fetchClient : FetchClient Rest Body}

theorem WalkPhase.lookupsLeft_loopHead_le (limit left : ℕ) (current : Option UInt64)
    (headers : List (Header Rest)) : (loopHead left current headers).lookupsLeft limit ≤ left := by
  cases left with
  | zero => exact Nat.le_refl 0
  | succ left =>
    cases current with
    | none => exact Nat.zero_le _
    | some number => exact Nat.le_refl _

theorem WalkPhase.lookupsLeft_lookup (blockImport : CachingBlockImport Rest Body)
    (request : GetBlockHeaders) {phase : WalkPhase Rest}
    (hphase : ∀ headers, phase ≠ .resolved headers) :
    (ResolveState.lookup request
        { blockImport, phase, start := none, found := [] }).phase.lookupsLeft
      request.limit.toNat < phase.lookupsLeft request.limit.toNat := by
  cases phase with
  | starting hash => exact Nat.lt_succ_of_le (lookupsLeft_loopHead_le _ _ _ _)
  | walking left number headers =>
    cases hpeek : blockImport.cache.headersByNumber.peek number with
    | none =>
      rw [lookup_walking_none hpeek]
      exact Nat.succ_pos left
    | some header =>
      rw [lookup_walking_some hpeek]
      exact Nat.lt_succ_of_le (lookupsLeft_loopHead_le _ _ _ _)
  | resolved headers => exact absurd rfl (hphase headers)

/-- Waiting for a fetch, the task makes no step. -/
theorem Serving.advance_of_fetching {serving : Serving Rest Body}
    (hfetching : serving.isFetching = true) :
    serving.advance hashSlow blockImport = (blockImport, .serving serving) := by
  fun_cases Serving.isFetching with
  | case1 request => rfl
  | case2 request found missing asked => rfl
  | case3 => simp [isFetching] at hfetching

theorem Serving.work_advance {serving : Serving Rest Body}
    (hfetching : serving.isFetching = false) :
    (serving.advance hashSlow blockImport).2.work fetchClient < serving.work fetchClient := by
  fun_cases Serving.advance with
  | case1 request => exact Nat.lt_add_of_pos_left (Nat.succ_pos 0)
  | case2 request headers => exact Nat.lt_of_lt_of_le (Nat.succ_pos _) (Nat.le_add_left _ _)
  | case3 request phase _ hphase =>
    have hless := WalkPhase.lookupsLeft_lookup blockImport request hphase
    exact Nat.add_lt_add_right (Nat.add_lt_add_right hless 1) _
  | case4 request => cases hfetching
  | case5 request fetched header rest => exact Nat.lt_succ_self _
  | case6 request fetched => exact Nat.succ_pos _
  | case7 request response asked => exact Nat.succ_pos _
  | case8 request found missing asked => cases hfetching
  | case9 request phase asked hreplied =>
    have hle := accessesLeft_handlerStep (fun _ ↦ none) request
      ({ blockImport, phase } : ServeState Rest Body)
    have hpos : accessesLeft request phase ≠ 0 := fun hzero ↦ by
      obtain ⟨response, hphase⟩ := eq_replied_of_accessesLeft hzero
      exact hreplied response hphase
    have hless : accessesLeft request (handlerStep (fun _ ↦ none) request
        { blockImport, phase }).phase < accessesLeft request phase :=
      Nat.lt_of_le_of_lt hle (Nat.sub_one_lt hpos)
    exact Nat.add_lt_add_right hless 1

/-- The end of a fetch is a step of the request that waits for it. -/
theorem Serving.work_answer {serving : Serving Rest Body} (hfetching : serving.isFetching = true) :
    (serving.answer fetchClient).work fetchClient < serving.work fetchClient := by
  fun_cases Serving.answer with
  | case1 request fetched hanswer => simp [Turn.work, work, fetchWork, hanswer]
  | case2 request hanswer => exact Nat.succ_pos _
  | case3 request found missing asked fetched hanswer =>
    simp only [Turn.work, work, accessesLeft]
    omega
  | case4 request found missing asked hanswer =>
    simp only [Turn.work, work, accessesLeft]
    omega
  | case5 _ hheaders hbodies =>
    unfold isFetching at hfetching
    split at hfetching
    · exact absurd rfl (hheaders _)
    · exact absurd rfl (hbodies _ _ _ _)
    · cases hfetching

theorem Serving.answer_of_not_fetching {serving : Serving Rest Body}
    (hfetching : serving.isFetching = false) :
    serving.answer fetchClient = .serving serving := by
  fun_cases Serving.answer with
  | case1 | case2 | case3 | case4 => cases hfetching
  | case5 => rfl

theorem Serving.work_begin (event : HandlerEvent Rest Body) :
    (Serving.begin hashSlow blockImport event).work event.fetchClient < event.work := by
  obtain ⟨incoming, fetchClient⟩ := event
  cases incoming with
  | getBlockHeaders request =>
    have hle : (ResolveState.initial blockImport request).phase.lookupsLeft request.limit.toNat ≤
        request.limit.toNat + 1 := by
      unfold ResolveState.initial
      split
      · exact Nat.le_succ_of_le (WalkPhase.lookupsLeft_loopHead_le _ _ _ _)
      · exact Nat.le_refl _
    exact Nat.add_lt_add_right (Nat.add_lt_add_right (Nat.lt_succ_of_le hle) 1) _
  | getBlockBodies request =>
    simp only [Serving.begin, ServeState.start, Turn.work, Serving.work, accessesLeft,
      HandlerEvent.work]
    omega
  | getNodeData | getReceipts | getReceipts69 | getReceipts70 | getBlockAccessLists =>
    exact Nat.one_pos

end Steps

/-! ### The requests of a moment -/

/-- What is left for the first requests of the channel: those not taken, and the one that is
served. -/
structure TaskView (Rest Body : Type*) where
  accepted : List (HandlerEvent Rest Body)
  taken : ℕ
  current : Option (Serving Rest Body × FetchClient Rest Body)
  replies : List (Reply Rest Body)

/-- The steps that are still to come, at most. -/
def TaskView.work (view : TaskView Rest Body) : ℕ :=
  ((view.accepted.drop view.taken).map HandlerEvent.work).sum +
    (view.current.map fun served ↦ served.1.work served.2).getD 0

namespace TaskState

/-- The first `count` requests of the channel. -/
def view (count : ℕ) (state : TaskState Rest Body) : TaskView Rest Body where
  accepted := state.accepted.take count
  taken := state.taken
  current := state.current
  replies := state.replies

/-- The task waits for the end of a fetch. -/
def Waits (state : TaskState Rest Body) : Prop :=
  ∃ served ∈ state.current, served.1.isFetching = true

section Views

variable {hashSlow : Header Rest → B256} {state : TaskState Rest Body} {count : ℕ}

theorem work_view_turn (state : TaskState Rest Body) (fetchClient : FetchClient Rest Body)
    (outcome : Turn Rest Body) :
    ((state.turn fetchClient outcome).view count).work =
      (((state.accepted.take count).drop state.taken).map HandlerEvent.work).sum +
        outcome.work fetchClient := by
  cases outcome <;> rfl

/-- A step of a request brings its reply nearer, unless it waits for a fetch. -/
theorem view_advance (hstate : state.InOrder) (hcount : count ≤ state.accepted.length)
    (hleft : state.replies.length < count) (hwaits : ¬ state.Waits) :
    ((state.step hashSlow .advance).view count).work < (state.view count).work := by
  cases hcurrent : state.current with
  | some served =>
    obtain ⟨serving, fetchClient⟩ := served
    have hfetching : serving.isFetching = false := by
      rw [← Bool.not_eq_true]
      exact fun h ↦ hwaits ⟨_, hcurrent, h⟩
    simp only [TaskState.step, hcurrent]
    rw [work_view_turn, TaskView.work, view, hcurrent]
    exact Nat.add_lt_add_left (Serving.work_advance hfetching) _
  | none =>
    have htaken := hstate.length_replies_add
    rw [hcurrent, Option.toList_none, List.length_nil, Nat.add_zero] at htaken
    obtain ⟨event, hevent⟩ : ∃ event, state.accepted[state.taken]? = some event :=
      ⟨_, List.getElem?_eq_getElem (by omega)⟩
    have hnext : (state.accepted.take count).drop state.taken =
        event :: (state.accepted.take count).drop (state.taken + 1) := by
      obtain ⟨hlt, rfl⟩ := List.getElem?_eq_some_iff.mp hevent
      rw [List.drop_eq_getElem_cons (by rw [List.length_take]; omega), List.getElem_take]
    simp only [TaskState.step, hcurrent, hevent]
    rw [work_view_turn, TaskView.work, view, hcurrent, hnext, List.map_cons, List.sum_cons]
    have hless : (Serving.begin hashSlow state.blockImport event).work event.fetchClient <
        event.work := Serving.work_begin event
    simp only [Option.map_none, Option.getD_none]
    omega

/-- So does the end of the fetch that it waits for. -/
theorem view_answer (hwaits : state.Waits) :
    ((state.step hashSlow .answer).view count).work < (state.view count).work := by
  obtain ⟨⟨serving, fetchClient⟩, hcurrent, hfetching⟩ := hwaits
  rw [Option.mem_def] at hcurrent
  simp only [TaskState.step, hcurrent]
  rw [work_view_turn, TaskView.work, view, hcurrent]
  exact Nat.add_lt_add_left (Serving.work_answer hfetching) _

theorem view_answer_of_not_waits (hwaits : ¬ state.Waits) :
    (state.step hashSlow .answer).view count = state.view count := by
  cases hcurrent : state.current with
  | some served =>
    obtain ⟨serving, fetchClient⟩ := served
    have hfetching : serving.isFetching = false := by
      rw [← Bool.not_eq_true]
      exact fun h ↦ hwaits ⟨_, hcurrent, h⟩
    simp only [TaskState.step, hcurrent, Serving.answer_of_not_fetching hfetching, turn, view]
  | none => simp only [TaskState.step, hcurrent]

/-- Waiting is no step. -/
theorem view_advance_of_waits (hwaits : state.Waits) :
    (state.step hashSlow .advance).view count = state.view count := by
  obtain ⟨⟨serving, fetchClient⟩, hcurrent, hfetching⟩ := hwaits
  simp only [TaskState.step, Option.mem_def.mp hcurrent, Serving.advance_of_fetching hfetching,
    turn, view]

/-- Whatever happens, the first requests are as they were, or have fewer steps left. -/
theorem view_step (hstate : state.InOrder) (hcount : count ≤ state.accepted.length)
    (hleft : state.replies.length < count) (event : TaskEvent Rest Body) :
    (state.step hashSlow event).view count = state.view count ∨
      ((state.step hashSlow event).view count).work < (state.view count).work := by
  cases event with
  | newBlock event => exact Or.inl rfl
  | incoming event =>
    left
    simp only [TaskState.step]
    split_ifs
    · simp only [view, List.take_append_of_le_length hcount]
    · rfl
  | advance =>
    by_cases hwaits : state.Waits
    · exact Or.inl (view_advance_of_waits hwaits)
    · exact Or.inr (view_advance hstate hcount hleft hwaits)
  | answer =>
    by_cases hwaits : state.Waits
    · exact Or.inr (view_answer hwaits)
    · exact Or.inl (view_answer_of_not_waits hwaits)

theorem waits_of_view_eq {other : TaskState Rest Body} (hview : state.view count = other.view count)
    (hwaits : other.Waits) : state.Waits := by
  have hcurrent : state.current = other.current := congrArg TaskView.current hview
  rwa [Waits, hcurrent]

/-- The channel only grows. -/
theorem accepted_prefix_step (hashSlow : Header Rest → B256) (state : TaskState Rest Body)
    (event : TaskEvent Rest Body) :
    state.accepted <+: (state.step hashSlow event).accepted := by
  cases event with
  | newBlock event => exact List.prefix_rfl
  | incoming event =>
    simp only [TaskState.step]
    split_ifs
    · exact List.prefix_append _ _
    · exact List.prefix_rfl
  | advance =>
    simp only [TaskState.step]
    split
    next => rw [accepted_turn]
    next =>
      split
      next => rw [accepted_turn]
      next => exact List.prefix_rfl
  | answer =>
    simp only [TaskState.step]
    split
    next => rw [accepted_turn]
    next => exact List.prefix_rfl

end Views

end TaskState

/-- A step of the handler: the only events that it is up to the handler to make. -/
def TaskEvent.isAdvance : TaskEvent Rest Body → Bool
  | .advance => true
  | _ => false

section Schedules

variable {hashSlow : Header Rest → B256} {start : TaskState Rest Body}
  {schedule : ℕ → TaskEvent Rest Body}

theorem inOrder_stateAt (hstart : start.InOrder) (moment : ℕ) :
    (stateAt (TaskState.step hashSlow) start schedule moment).InOrder := by
  induction moment with
  | zero => exact hstart
  | succ moment ih => exact ih.step hashSlow _

theorem accepted_prefix_stateAt (moment : ℕ) :
    start.accepted <+: (stateAt (TaskState.step hashSlow) start schedule moment).accepted := by
  induction moment with
  | zero => exact List.prefix_rfl
  | succ moment ih => exact ih.trans (TaskState.accepted_prefix_step hashSlow _ _)

/-- As many replies as there were requests are the replies to these. -/
theorem prefix_replies_of_le (hstart : start.InOrder) {moment : ℕ}
    (hdone : start.accepted.length ≤
      (stateAt (TaskState.step hashSlow) start schedule moment).replies.length) :
    start.accepted.map HandlerEvent.request <+:
      (stateAt (TaskState.step hashSlow) start schedule moment).replies.map Reply.request := by
  let after := stateAt (TaskState.step hashSlow) start schedule moment
  have hreplied : after.replies.map Reply.request <+: after.accepted.map HandlerEvent.request :=
    TaskState.InOrder.replies_prefix (inOrder_stateAt hstart moment)
  refine List.prefix_of_prefix_length_le ?_ hreplied ?_
  · exact (accepted_prefix_stateAt moment).map HandlerEvent.request
  · simpa using hdone

/-- The requests in the channel are replied to, or a fetch never ends. Assumes: the handler goes on
making its steps, in a schedule that may bring further requests and blocks without end. Either the
requests that were in the channel are replied to, in their order, at some moment; or from some
moment on the handler waits for one fetch, which does not end, and sends no reply to anybody. -/
theorem task_answers_or_waits (hashSlow : Header Rest → B256)
    (blockImport : CachingBlockImport Rest Body) (events : List (TaskEvent Rest Body))
    (schedule : ℕ → TaskEvent Rest Body)
    (hfair : WeaklyFair TaskEvent.isAdvance (TaskState.step hashSlow)
      (run (TaskState.step hashSlow) (.initial blockImport) events) schedule) :
    let start := run (TaskState.step hashSlow) (.initial blockImport) events
    let after := stateAt (TaskState.step hashSlow) start schedule
    (∃ moment,
        start.accepted.map HandlerEvent.request <+: (after moment).replies.map Reply.request) ∨
      ∃ moment, (after moment).Waits ∧ ∀ later ≥ moment, schedule later ≠ .answer ∧
        (after later).current = (after moment).current ∧
        (after later).replies = (after moment).replies := by
  intro start after
  have hstart : start.InOrder := TaskState.inOrder_run hashSlow blockImport events
  by_cases hdone : ∃ moment, start.accepted.length ≤ (after moment).replies.length
  · obtain ⟨moment, hmoment⟩ := hdone
    exact Or.inl ⟨moment, prefix_replies_of_le hstart hmoment⟩
  right
  push Not at hdone
  have hlength : ∀ moment, start.accepted.length ≤ (after moment).accepted.length := fun moment ↦
    (accepted_prefix_stateAt moment).length_le
  -- What is left for these requests changes only by getting less.
  obtain ⟨moment, hstays⟩ : ∃ moment, ∀ later ≥ moment,
      (after later).view start.accepted.length = (after moment).view start.accepted.length :=
    exists_stays (TaskState.view start.accepted.length) TaskView.work fun moment ↦
      TaskState.view_step (inOrder_stateAt hstart moment) (hlength moment) (hdone moment) _
  have hwaits : (after moment).Waits := by
    by_contra hnot
    obtain ⟨later, hlater, hsame⟩ :=
      hfair.exists_unchanged (TaskState.view start.accepted.length) hstays
        (rfl : TaskEvent.isAdvance .advance = true)
    have hless : (((after later).step hashSlow .advance).view start.accepted.length).work <
        ((after later).view start.accepted.length).work :=
      TaskState.view_advance (inOrder_stateAt hstart later) (hlength later) (hdone later)
        (mt (TaskState.waits_of_view_eq (hstays later hlater).symm) hnot)
    exact Nat.ne_of_lt hless (congrArg TaskView.work hsame)
  refine ⟨moment, hwaits, fun later hlater ↦ ⟨fun hanswer ↦ ?_,
    congrArg TaskView.current (hstays later hlater),
    congrArg TaskView.replies (hstays later hlater)⟩⟩
  have hless : (((after later).step hashSlow .answer).view start.accepted.length).work <
      ((after later).view start.accepted.length).work :=
    TaskState.view_answer (TaskState.waits_of_view_eq (hstays later hlater) hwaits)
  have hnext := hstays (later + 1) (Nat.le_succ_of_le hlater)
  rw [← hstays later hlater] at hnext
  refine Nat.ne_of_lt hless (congrArg TaskView.work ?_)
  rw [← hanswer]
  exact hnext

/-- A request that needs no fetch, while the handler makes all the steps. -/
theorem task_answers_or_waits_of_one :
    let blockImport : CachingBlockImport UInt8 UInt8 := { cache := .new 4, rebroadcastTx := [] }
    let events : List (TaskEvent UInt8 UInt8) :=
      [.incoming ⟨.getReceipts, ⟨fun _ ↦ none, fun _ ↦ none⟩⟩]
    let step := TaskState.step fun _ ↦ .repeatByte 0
    let start := run step (.initial blockImport) events
    ∃ moment, [.getReceipts] <+:
      (stateAt step start (fun _ ↦ .advance) moment).replies.map Reply.request := by
  intro blockImport events step start
  have hstays : ∀ moment, stateAt step start (fun _ ↦ .advance) (moment + 1) =
      step start .advance := fun moment ↦ by
    induction moment with
    | zero => rfl
    | succ moment ih =>
      rw [stateAt, ih]
      rfl
  have hidle : ∀ moment, ¬ (stateAt step start (fun _ ↦ .advance) moment).Waits := by
    rintro (_ | moment) ⟨served, hserved, -⟩
    · cases hserved
    · rw [hstays] at hserved
      cases hserved
  rcases task_answers_or_waits (fun _ ↦ .repeatByte 0) blockImport events (fun _ ↦ .advance)
    (fun event hevent moment _ ↦ ⟨moment, le_rfl, by cases event <;> first | rfl | cases hevent⟩)
    with hreplied | ⟨moment, hwaits, -⟩
  · exact hreplied
  · exact absurd hwaits (hidle moment)

end Schedules

end SentryNode.EthProxy
