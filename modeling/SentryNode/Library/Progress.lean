import Mathlib.Algebra.BigOperators.Group.Finset.Piecewise
import Mathlib.Algebra.Ring.Nat
import Mathlib.Data.Nat.Find
import Mathlib.Order.WellFounded
import SentryNode.Library.Run

/-!
# Progress of a deterministic machine

Some events of a machine are its inputs; the others are moves that it makes on its own or that its
environment owes it. `Works` says that a number, the work left, measures these moves: a move that
changes the state decreases it. Two things follow.

A run without idle moves is short: its length is bounded by its inputs (`length_add_work_le`). And a
schedule of moves comes to rest in a state that no move changes, when it is weakly fair, that is,
when it does not pass over forever a move that could be made (`WeaklyFair.eventually_quiet`). Where
other events keep coming in, the same holds of what they leave alone (`exists_stays`,
`WeaklyFair.exists_unchanged`), and a goal that some move always brings nearer is reached
(`WeaklyFair.leads_to`). A machine that works only until it makes more work for itself need
not come to rest, and then makes it without end (`WeaklyFair.exists_le_count`). Where the state is a
list of parties and the work left is that of each of them, `sum_map_set_add` is how it changes with
the one that moves, and `sum_update_add` where the parties are a type.
-/

set_option autoImplicit false
set_option relaxedAutoImplicit false

namespace SentryNode.Library

variable {S E : Type*}

/-- The number measures the work left: a move leaves a state as it is or decreases the number. -/
def Works (isMove : E → Bool) (step : S → E → S) (work : S → ℕ) : Prop :=
  ∀ state event, isMove event → step state event = state ∨ work (step state event) < work state

/-- No move changes the state. -/
def Quiet (isMove : E → Bool) (step : S → E → S) (state : S) : Prop :=
  ∀ event, isMove event → step state event = state

/-- How a sum over the parties changes with the one that moves. -/
theorem sum_map_set_add {P : Type*} {parties : List P} {index : ℕ} {party : P}
    (hparty : parties[index]? = some party) (weight : P → ℕ) (moved : P) :
    ((parties.set index moved).map weight).sum + weight party =
      (parties.map weight).sum + weight moved := by
  obtain ⟨before, after, hparties, hset⟩ := exists_set_eq hparty
  rw [hset, hparties, List.map_append, List.map_append, List.map_cons, List.map_cons,
    List.sum_append, List.sum_append, List.sum_cons, List.sum_cons]
  omega

/-- How a sum over a type of parties changes with the one that moves. -/
theorem sum_update_add {I P : Type*} [Fintype I] [DecidableEq I] (parties : I → P) (index : I)
    (weight : P → ℕ) (moved : P) :
    ∑ other, weight (Function.update parties index moved other) + weight (parties index) =
      ∑ other, weight (parties other) + weight moved := by
  have hupdate : (fun other ↦ weight (Function.update parties index moved other)) =
      Function.update (weight ∘ parties) index (weight moved) := Function.comp_update _ _ _ _
  rw [hupdate, Finset.sum_update_of_mem (Finset.mem_univ index),
    Finset.sum_eq_add_sum_sdiff_singleton_of_mem (Finset.mem_univ index)
      (fun other ↦ weight (parties other))]
  simp only [Function.comp_apply]
  omega

/-! ### Runs without idle moves -/

/-- How long a run can be. Assumes: in states that meet an invariant an input adds a bounded amount
of work, and every move of the run changes the state. -/
theorem Works.length_add_work_le {isMove : E → Bool} {step : S → E → S} {work : S → ℕ}
    (hworks : Works isMove step work) (invariant : S → Prop) {gain : ℕ}
    (hkept : ∀ state event, invariant state → invariant (step state event))
    (hgain : ∀ state event, invariant state → isMove event = false →
      work (step state event) ≤ work state + gain)
    {start : S} (hstart : invariant start) {events : List E}
    (hsteps : EachStep (fun state event ↦ isMove event → step state event ≠ state) step start
      events) :
    events.length + work (run step start events) ≤
      work start + (gain + 1) * events.countP fun event ↦ !isMove event := by
  induction events generalizing start with
  | nil => simp
  | cons event events ih =>
    obtain ⟨hchanges, hrest⟩ := hsteps
    have hnext := ih (hkept start event hstart) hrest
    rw [run_cons, List.length_cons]
    by_cases hmove : isMove event
    · have hdecreases := (hworks start event hmove).resolve_left (hchanges hmove)
      rw [List.countP_cons_of_neg (by simpa using hmove)]
      omega
    · rw [Bool.not_eq_true] at hmove
      have hincreases := hgain start event hstart hmove
      rw [List.countP_cons_of_pos (by simpa using hmove), Nat.mul_add, Nat.mul_one]
      omega

/-! ### Schedules -/

/-- The state at each moment of a schedule. -/
def stateAt (step : S → E → S) (start : S) (schedule : ℕ → E) : ℕ → S
  | 0 => start
  | moment + 1 => step (stateAt step start schedule moment) (schedule moment)

/-- A move that would change the state at every moment from one on is made at some of them. -/
def WeaklyFair (isMove : E → Bool) (step : S → E → S) (start : S) (schedule : ℕ → E) : Prop :=
  ∀ event, isMove event → ∀ moment,
    (∀ later ≥ moment, step (stateAt step start schedule later) event ≠
      stateAt step start schedule later) →
    ∃ later ≥ moment, schedule later = event

section Schedule

variable {isMove : E → Bool} {step : S → E → S} {start : S} {schedule : ℕ → E}

/-- The states of a schedule are those of runs. -/
theorem stateAt_run (events : List E) (moment : ℕ) :
    stateAt step (run step start events) schedule moment =
      run step start (events ++ (List.range moment).map schedule) := by
  induction moment with
  | zero => simp [stateAt]
  | succ moment ih =>
    rw [stateAt, ih, List.range_succ, List.map_append, List.map_singleton, ← List.append_assoc,
      run_concat]

theorem stateAt_add (first moment : ℕ) :
    stateAt step start schedule (first + moment) =
      stateAt step (stateAt step start schedule first) (fun later ↦ schedule (first + later))
        moment := by
  induction moment with
  | zero => rfl
  | succ moment ih => rw [← Nat.add_assoc, stateAt, stateAt, ih]

/-- What is left of a weakly fair schedule is one. -/
theorem WeaklyFair.rest (hfair : WeaklyFair isMove step start schedule) (first : ℕ) :
    WeaklyFair isMove step (stateAt step start schedule first)
      fun later ↦ schedule (first + later) := by
  intro event hevent moment hchanges
  obtain ⟨later, hlater, heq⟩ := hfair event hevent (first + moment) fun later hlater ↦ by
    obtain ⟨count, rfl⟩ := Nat.exists_eq_add_of_le (Nat.le_of_add_right_le hlater)
    rw [stateAt_add]
    exact hchanges count (Nat.le_of_add_le_add_left hlater)
  obtain ⟨count, rfl⟩ := Nat.exists_eq_add_of_le (Nat.le_of_add_right_le hlater)
  exact ⟨count, Nat.le_of_add_le_add_left hlater, heq⟩

/-- A quiet state stays. -/
theorem Quiet.stateAt_eq {moment : ℕ}
    (hquiet : Quiet isMove step (stateAt step start schedule moment))
    (hmoves : ∀ moment, isMove (schedule moment)) {later : ℕ} (hlater : moment ≤ later) :
    stateAt step start schedule later = stateAt step start schedule moment := by
  induction later, hlater using Nat.le_induction with
  | base => rfl
  | succ later _ ih =>
    rw [stateAt, ih]
    exact hquiet _ (hmoves later)

/-- A schedule that has come to rest passes over nothing. -/
theorem Quiet.weaklyFair {moment : ℕ}
    (hquiet : Quiet isMove step (stateAt step start schedule moment))
    (hmoves : ∀ moment, isMove (schedule moment)) :
    WeaklyFair isMove step start schedule := by
  intro event hevent first hchanges
  have hsame := hquiet.stateAt_eq hmoves (Nat.le_max_right first moment)
  refine absurd ?_ (hchanges (max first moment) (Nat.le_max_left first moment))
  rw [hsame]
  exact hquiet event hevent

/-- What is seen of the state stays as it is when each of its changes decreases a number. -/
theorem exists_stays {V : Type*} (view : S → V) (potential : V → ℕ)
    (hdecreases : ∀ moment,
      view (stateAt step start schedule (moment + 1)) = view (stateAt step start schedule moment) ∨
        potential (view (stateAt step start schedule (moment + 1))) <
          potential (view (stateAt step start schedule moment))) :
    ∃ moment, ∀ later ≥ moment,
      view (stateAt step start schedule later) = view (stateAt step start schedule moment) := by
  -- From where the number is least.
  let potentialAt := fun moment ↦ potential (view (stateAt step start schedule moment))
  have hleast := Function.argmin_le potentialAt
  refine ⟨Function.argmin potentialAt, fun later hlater ↦ ?_⟩
  induction later, hlater using Nat.le_induction with
  | base => rfl
  | succ later _ ih =>
    have hnot : ¬ potential (view (stateAt step start schedule (later + 1))) <
        potential (view (stateAt step start schedule later)) := by
      rw [ih]
      exact Nat.not_lt_of_le (hleast (later + 1))
    rw [← ih]
    exact (hdecreases later).resolve_right hnot

/-- While nothing seen of the state changes, a weakly fair schedule does not pass over a move that
would change it. -/
theorem WeaklyFair.exists_unchanged {V : Type*} (hfair : WeaklyFair isMove step start schedule)
    (view : S → V) {moment : ℕ}
    (hstays : ∀ later ≥ moment,
      view (stateAt step start schedule later) = view (stateAt step start schedule moment))
    {event : E} (hevent : isMove event) :
    ∃ later ≥ moment, view (step (stateAt step start schedule later) event) =
      view (stateAt step start schedule later) := by
  by_contra! hchanges
  obtain ⟨later, hlater, rfl⟩ := hfair event hevent moment fun later hlater heq ↦
    hchanges later hlater (congrArg view heq)
  refine hchanges later hlater ?_
  have hnext := hstays (later + 1) (Nat.le_succ_of_le hlater)
  rwa [← hstays later hlater] at hnext

/-- A weakly fair schedule stays only in a quiet state. -/
theorem WeaklyFair.quiet_of_stays (hfair : WeaklyFair isMove step start schedule) {moment : ℕ}
    (hstays : ∀ later ≥ moment,
      stateAt step start schedule later = stateAt step start schedule moment) :
    Quiet isMove step (stateAt step start schedule moment) := by
  intro event hevent
  obtain ⟨later, hlater, hsame⟩ := hfair.exists_unchanged id hstays hevent
  rwa [id, id, hstays later hlater] at hsame

/-- A weakly fair schedule comes to rest. Assumes: it makes moves only, and the machine works. -/
theorem WeaklyFair.eventually_quiet {work : S → ℕ}
    (hfair : WeaklyFair isMove step start schedule) (hworks : Works isMove step work)
    (hmoves : ∀ moment, isMove (schedule moment)) :
    ∃ moment, Quiet isMove step (stateAt step start schedule moment) ∧
      ∀ later ≥ moment, stateAt step start schedule later = stateAt step start schedule moment := by
  obtain ⟨moment, hstays⟩ := exists_stays id work fun moment ↦
    hworks (stateAt step start schedule moment) (schedule moment) (hmoves moment)
  exact ⟨moment, hfair.quiet_of_stays hstays, hstays⟩

/-- A weakly fair schedule reaches a goal. Assumes: a state of some rank is followed by the goal or
by a state of no higher rank, and each rank has a move that leads to the goal or to a lower rank. -/
theorem WeaklyFair.leads_to (hfair : WeaklyFair isMove step start schedule) (goal : S → Prop)
    (ranked : ℕ → S → Prop) (helpful : ℕ → E) (hmoves : ∀ rank, isMove (helpful rank))
    (hkept : ∀ rank moment, ranked rank (stateAt step start schedule moment) →
      goal (stateAt step start schedule (moment + 1)) ∨
        ∃ lower ≤ rank, ranked lower (stateAt step start schedule (moment + 1)))
    (hhelps : ∀ rank moment, ranked rank (stateAt step start schedule moment) →
      goal (step (stateAt step start schedule moment) (helpful rank)) ∨
        ∃ lower < rank, ranked lower (step (stateAt step start schedule moment) (helpful rank)))
    {rank : ℕ} (hstart : ranked rank start) :
    ∃ moment, goal (stateAt step start schedule moment) := by
  classical
  by_contra! hnever
  -- The least rank that is ever reached, and a moment from which it lasts.
  have hreached : ∃ rank moment, ranked rank (stateAt step start schedule moment) :=
    ⟨rank, 0, hstart⟩
  obtain ⟨moment, hmoment⟩ := Nat.find_spec hreached
  have hleast : ∀ lower < Nat.find hreached, ∀ moment,
      ¬ ranked lower (stateAt step start schedule moment) := fun lower hlower moment hranked ↦
    Nat.find_min hreached hlower ⟨moment, hranked⟩
  have hlasts : ∀ later ≥ moment,
      ranked (Nat.find hreached) (stateAt step start schedule later) := fun later hlater ↦ by
    induction later, hlater using Nat.le_induction with
    | base => exact hmoment
    | succ later _ ih =>
      obtain ⟨lower, hlower, hranked⟩ := (hkept _ later ih).resolve_left (hnever _)
      rcases Nat.lt_or_eq_of_le hlower with hless | rfl
      · exact absurd hranked (hleast lower hless _)
      · exact hranked
  have hchanges : ∀ later ≥ moment, step (stateAt step start schedule later)
      (helpful (Nat.find hreached)) ≠ stateAt step start schedule later := by
    intro later hlater hsame
    obtain hgoal | ⟨lower, hlower, hranked⟩ := hhelps _ later (hlasts later hlater)
    · rw [hsame] at hgoal
      exact hnever later hgoal
    · rw [hsame] at hranked
      exact hleast lower hlower later hranked
  obtain ⟨later, hlater, hevent⟩ := hfair _ (hmoves (Nat.find hreached)) moment hchanges
  have hhelped := hhelps _ later (hlasts later hlater)
  rw [← hevent] at hhelped
  obtain hgoal | ⟨lower, hlower, hranked⟩ := hhelped
  · exact hnever (later + 1) hgoal
  · exact hleast lower hlower (later + 1) hranked

/-- A weakly fair schedule that never comes to rest raises a count without bound. Assumes: it makes
moves only, and a move that changes the state adds less work than `gain` times what it adds to the
count. -/
theorem WeaklyFair.exists_le_count {work count : S → ℕ} {gain : ℕ}
    (hfair : WeaklyFair isMove step start schedule)
    (hmoves : ∀ moment, isMove (schedule moment))
    (hworks : ∀ state event, isMove event → step state event = state ∨
      work (step state event) + gain * count state <
        work state + gain * count (step state event))
    (hnever : ∀ moment, ¬ Quiet isMove step (stateAt step start schedule moment)) (bound : ℕ) :
    ∃ moment, bound ≤ count (stateAt step start schedule moment) := by
  by_contra! hbelow
  have hroom : ∀ moment, gain * (bound - count (stateAt step start schedule moment)) +
      gain * count (stateAt step start schedule moment) = gain * bound := by
    intro moment
    rw [← Nat.mul_add, Nat.sub_add_cancel (Nat.le_of_lt (hbelow moment))]
  obtain ⟨moment, hstays⟩ : ∃ moment, ∀ later ≥ moment,
      stateAt step start schedule later = stateAt step start schedule moment := by
    refine exists_stays id (fun state ↦ work state + gain * (bound - count state)) fun moment ↦ ?_
    refine (hworks (stateAt step start schedule moment) (schedule moment) (hmoves moment)).imp_right
      fun hadds ↦ ?_
    have hbefore := hroom moment
    have hafter := hroom (moment + 1)
    rw [stateAt] at hafter ⊢
    simp only [id_eq]
    omega
  exact hnever moment (hfair.quiet_of_stays hstays)

end Schedule

end SentryNode.Library
