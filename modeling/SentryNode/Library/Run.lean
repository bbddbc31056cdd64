import Mathlib.Data.Nat.Notation

/-!
# Runs of a deterministic machine

A machine is a step function on states and events, and a run is the fold of the step over a list of
events. Whoever chooses the events (a peer, a scheduler, the network) is outside the machine, so a
statement about every list of events is a statement about every interleaving.

Two induction rules are stated once. `run_history` carries a relation between the events so far and
the state. `run_invariant` carries a property of states through the events that meet a side
condition in the state where they are taken (`EachStep`). `EachStep.of_append` and
`eachStep_concat_iff` cut such a run, so that a property of the final state is one of every state
passed through. `SomeStep` states that something happened on the way. `run_traced` is refinement:
a run is one of another machine, over the events that its steps stand for. Where a state keeps a
list that grows at its end, `getElem?_concat_cases` tells the new entry from the others. Where the
state is a list of parties that move one at a time, `exists_set_eq` cuts the list around the one
that moves, `map_set_eq` states that a label it keeps is kept by the list, and `countP_set_add` how
a count changes.
-/

set_option autoImplicit false
set_option relaxedAutoImplicit false

namespace SentryNode.Library

variable {S E : Type*}

/-- The state after a list of events. -/
def run (step : S → E → S) (start : S) (events : List E) : S := events.foldl step start

@[simp] theorem run_nil (step : S → E → S) (start : S) : run step start [] = start := rfl

@[simp] theorem run_cons (step : S → E → S) (start : S) (event : E) (events : List E) :
    run step start (event :: events) = run step (step start event) events := rfl

theorem run_append (step : S → E → S) (start : S) (before after : List E) :
    run step start (before ++ after) = run step (run step start before) after :=
  List.foldl_append

theorem run_concat (step : S → E → S) (start : S) (before : List E) (event : E) :
    run step start (before ++ [event]) = step (run step start before) event := by
  rw [run_append, run_cons, run_nil]

/-- A relation between the events so far and the state holds after every run. Assumes: it holds at
the start, and one step extends it by the event taken. -/
theorem run_history {step : S → E → S} {start : S} (related : List E → S → Prop)
    (hstart : related [] start)
    (hstep : ∀ before state event, related before state →
      related (before ++ [event]) (step state event))
    (events : List E) : related events (run step start events) := by
  suffices hall : ∀ rest before state, related before state →
      related (before ++ rest) (run step state rest) by
    simpa using hall events [] start hstart
  intro rest
  induction rest with
  | nil =>
    intro before state hrelated
    rwa [List.append_nil]
  | cons event rest ih =>
    intro before state hrelated
    have hnext := ih (before ++ [event]) (step state event) (hstep before state event hrelated)
    rwa [List.append_assoc, List.singleton_append] at hnext

/-- Every event meets a side condition in the state in which it is taken. -/
def EachStep (condition : S → E → Prop) (step : S → E → S) : S → List E → Prop
  | _, [] => True
  | state, event :: events =>
    condition state event ∧ EachStep condition step (step state event) events

theorem EachStep.of_append {condition : S → E → Prop} {step : S → E → S} {start : S}
    {before after : List E} (hsteps : EachStep condition step start (before ++ after)) :
    EachStep condition step start before := by
  induction before generalizing start with
  | nil => trivial
  | cons event before ih => exact ⟨hsteps.1, ih hsteps.2⟩

theorem eachStep_concat_iff {condition : S → E → Prop} {step : S → E → S} {start : S}
    {before : List E} {event : E} :
    EachStep condition step start (before ++ [event]) ↔
      EachStep condition step start before ∧ condition (run step start before) event := by
  induction before generalizing start with
  | nil => exact ⟨fun h ↦ ⟨trivial, h.1⟩, fun h ↦ ⟨h.2, trivial⟩⟩
  | cons first before ih => exact (and_congr_right fun _ ↦ ih).trans and_assoc.symm

instance EachStep.decidable {condition : S → E → Prop}
    [∀ state event, Decidable (condition state event)] {step : S → E → S} :
    ∀ start events, Decidable (EachStep condition step start events)
  | _, [] => inferInstanceAs (Decidable True)
  | start, event :: events =>
    have : Decidable (EachStep condition step (step start event) events) :=
      EachStep.decidable (step start event) events
    inferInstanceAs (Decidable (condition start event ∧ _))

theorem EachStep.and {first second : S → E → Prop} {step : S → E → S} {start : S} {events : List E}
    (hfirst : EachStep first step start events) (hsecond : EachStep second step start events) :
    EachStep (fun state event ↦ first state event ∧ second state event) step start events := by
  induction events generalizing start with
  | nil => trivial
  | cons event events ih => exact ⟨⟨hfirst.1, hsecond.1⟩, ih hfirst.2 hsecond.2⟩

/-- A side condition on the events alone. -/
theorem eachStep_of_forall {condition : E → Prop} {step : S → E → S} {start : S} {events : List E}
    (hevents : ∀ event ∈ events, condition event) :
    EachStep (fun _ event ↦ condition event) step start events := by
  induction events generalizing start with
  | nil => trivial
  | cons event events ih =>
    obtain ⟨hevent, hrest⟩ := List.forall_mem_cons.mp hevents
    exact ⟨hevent, ih hrest⟩

/-- Some event meets a condition in the state in which it is taken. -/
def SomeStep (condition : S → E → Prop) (step : S → E → S) : S → List E → Prop
  | _, [] => False
  | state, event :: events =>
    condition state event ∨ SomeStep condition step (step state event) events

/-- A property kept by every step that meets the side condition holds after every run of such
steps. -/
theorem run_invariant {condition : S → E → Prop} {step : S → E → S} (invariant : S → Prop)
    (hstep : ∀ state event, condition state event → invariant state → invariant (step state event))
    {start : S} (hstart : invariant start) {events : List E}
    (hsteps : EachStep condition step start events) : invariant (run step start events) := by
  induction events generalizing start with
  | nil => exact hstart
  | cons event events ih => exact ih (hstep start event hsteps.1 hstart) hsteps.2

/-- The events of another machine that the steps of a run stand for, in their order. -/
def traced {F : Type*} (emits : S → E → List F) (step : S → E → S) : S → List E → List F
  | _, [] => []
  | state, event :: events => emits state event ++ traced emits step (step state event) events

/-- A machine refines another when each of its steps is what the events it stands for do to the
abstraction of the state: then every run is. -/
theorem run_traced {T F : Type*} {condition : S → E → Prop} {step : S → E → S}
    {emits : S → E → List F} {abstractStep : T → F → T} (abstraction : S → T)
    (hstep : ∀ state event, condition state event → abstraction (step state event) =
      run abstractStep (abstraction state) (emits state event))
    {start : S} {events : List E} (hsteps : EachStep condition step start events) :
    abstraction (run step start events) =
      run abstractStep (abstraction start) (traced emits step start events) := by
  induction events generalizing start with
  | nil => rfl
  | cons event events ih =>
    rw [run_cons, ih hsteps.2, hstep start event hsteps.1, traced, run_append]

/-- What is observed of the events a run stands for. -/
theorem filterMap_traced {F O : Type*} {emits : S → E → List F} {observe : F → Option O}
    {observed : E → Option O}
    (hemits : ∀ state event, (emits state event).filterMap observe = (observed event).toList)
    (step : S → E → S) (start : S) (events : List E) :
    (traced emits step start events).filterMap observe = events.filterMap observed := by
  induction events generalizing start with
  | nil => rfl
  | cons event events ih =>
    rw [traced, List.filterMap_append, hemits, ih, ← List.singleton_append,
      List.filterMap_append]
    cases hevent : observed event <;> simp [hevent]

/-- What a state has collected is what is observed of the events its run stands for. -/
theorem run_collected {F O : Type*} {step : S → E → S} {emits : S → E → List F}
    {observe : F → Option O} (collected : S → List O) (invariant : S → Prop)
    (hkeeps : ∀ state event, invariant state → invariant (step state event))
    (hstep : ∀ state event, invariant state → collected (step state event) =
      collected state ++ (emits state event).filterMap observe)
    {start : S} (hstart : invariant start) (events : List E) :
    collected (run step start events) =
      collected start ++ (traced emits step start events).filterMap observe := by
  induction events generalizing start with
  | nil => exact (List.append_nil _).symm
  | cons event events ih =>
    rw [run_cons, ih (hkeeps start event hstart), hstep start event hstart, traced,
      List.filterMap_append, List.append_assoc]

/-- An entry of a list with one more at the end is an earlier one or the last. -/
theorem getElem?_concat_cases {A : Type*} {entries : List A} {last entry : A} {position : ℕ}
    (hentry : (entries ++ [last])[position]? = some entry) :
    (position < entries.length ∧ entries[position]? = some entry) ∨
      (position = entries.length ∧ entry = last) := by
  rcases Nat.lt_trichotomy position entries.length with hlt | rfl | hgt
  · rw [List.getElem?_append_left hlt] at hentry
    exact Or.inl ⟨hlt, hentry⟩
  · rw [List.getElem?_concat_length] at hentry
    exact Or.inr ⟨rfl, (Option.some.inj hentry).symm⟩
  · rw [List.getElem?_eq_none (by simpa [Nat.succ_le_iff] using hgt)] at hentry
    cases hentry

/-- One party of a list moves: the others stay as they were. -/
theorem exists_set_eq {P : Type*} {parties : List P} {index : ℕ} {party : P}
    (hparty : parties[index]? = some party) :
    ∃ before after, parties = before ++ party :: after ∧
      ∀ moved, parties.set index moved = before ++ moved :: after := by
  obtain ⟨hindex, rfl⟩ := List.getElem?_eq_some_iff.mp hparty
  refine ⟨parties.take index, parties.drop (index + 1), ?_, fun moved ↦ ?_⟩
  · rw [← List.drop_eq_getElem_cons hindex, List.take_append_drop]
  · rw [List.set_eq_take_append_cons_drop, if_pos hindex]

/-- A party that keeps a label when it moves leaves the list of labels as it was. -/
theorem map_set_eq {P A : Type*} {parties : List P} {index : ℕ} {party moved : P} {label : P → A}
    (hparty : parties[index]? = some party) (hkept : label moved = label party) :
    (parties.set index moved).map label = parties.map label := by
  obtain ⟨before, after, hparties, hset⟩ := exists_set_eq hparty
  rw [hset, hparties, List.map_append, List.map_append, List.map_cons, List.map_cons, hkept]

/-- How a count of parties changes with the one that moves. -/
theorem countP_set_add {P : Type*} {parties : List P} {index : ℕ} {party : P}
    (hparty : parties[index]? = some party) (counted : P → Bool) (moved : P) :
    (parties.set index moved).countP counted + (if counted party then 1 else 0) =
      parties.countP counted + if counted moved then 1 else 0 := by
  obtain ⟨before, after, hparties, hset⟩ := exists_set_eq hparty
  rw [hset, hparties, List.countP_append, List.countP_append, List.countP_cons, List.countP_cons]
  omega

theorem count_set_add {P : Type*} [DecidableEq P] {parties : List P} {index : ℕ} {party : P}
    (hparty : parties[index]? = some party) (counted moved : P) :
    (parties.set index moved).count counted + (if party = counted then 1 else 0) =
      parties.count counted + if moved = counted then 1 else 0 := by
  have hcount := countP_set_add hparty (· == counted) moved
  simpa only [beq_iff_eq, ← List.count_eq_countP'] using hcount

/-- A party that stays leaves the list as it was. -/
theorem set_eq_self {P : Type*} {parties : List P} {index : ℕ} {party : P}
    (hparty : parties[index]? = some party) : parties.set index party = parties := by
  obtain ⟨before, after, hparties, hset⟩ := exists_set_eq hparty
  rw [hset, hparties]

/-- A party that is modified is set to what becomes of it. -/
theorem modify_eq_set {P : Type*} {parties : List P} {index : ℕ} {party : P}
    (hparty : parties[index]? = some party) (move : P → P) :
    parties.modify index move = parties.set index (move party) := by
  obtain ⟨hindex, rfl⟩ := List.getElem?_eq_some_iff.mp hparty
  rw [List.modify_eq_take_cons_drop hindex, List.set_eq_take_append_cons_drop, if_pos hindex]

/-- A party that moves changes the list. -/
theorem set_ne_self {P : Type*} {parties : List P} {index : ℕ} {party moved : P}
    (hparty : parties[index]? = some party) (hmoved : moved ≠ party) :
    parties.set index moved ≠ parties := by
  intro heq
  have hindex := (List.getElem?_eq_some_iff.mp hparty).1
  rw [← heq, List.getElem?_set_self hindex] at hparty
  exact hmoved (Option.some.inj hparty)

end SentryNode.Library
