import Mathlib.Data.Nat.Notation
import Mathlib.Tactic.SplitIfs

/-!
# A broadcast channel that forgets

Every value sent reaches every receiver, but the channel retains the newest ones only. A receiver
keeps the position of the next value it is to get. When that value is no longer retained, the
receive reports how many values are skipped and moves on to the oldest one retained (`receive`).

`Accounts` relates the results of the receives so far to what was sent since the receiver subscribed
and to what is still pending: a value stands for itself, and a lag for as many values as it reports.
It is kept by a send (`Accounts.send`) and by a receive (`Accounts.receive`). What was received is
then a sublist of what was sent, and without a lag nothing is missing.
-/

set_option autoImplicit false
set_option relaxedAutoImplicit false

namespace SentryNode.Library

variable {A : Type*}

/-- The result of a receive: the next value, or the number of values that were skipped. -/
inductive Received (A : Type*)
  | value (value : A)
  | lagged (skipped : ℕ)
deriving DecidableEq

/-- The value of a result that has one. -/
def Received.value? : Received A → Option A
  | .value received => some received
  | .lagged _ => none

/-- The values received, in order. -/
def receivedValues (results : List (Received A)) : List A := results.filterMap Received.value?

/-- No receive reported a lag. -/
def NeverLagged (results : List (Received A)) : Prop := ∀ skipped, .lagged skipped ∉ results

theorem neverLagged_concat_value {results : List (Received A)} (hresults : NeverLagged results)
    (value : A) : NeverLagged (results ++ [.value value]) := by
  intro skipped hmem
  rcases List.mem_append.mp hmem with hbefore | hlast
  · exact hresults skipped hbefore
  · cases List.mem_singleton.mp hlast

/-- A receive at a position: the result and the position after it, none while there is no value to
get. The values in front of the last `retained` ones are gone. -/
def receive (retained : ℕ) (sent : List A) (next : ℕ) : Option (Received A × ℕ) :=
  if next < sent.length - retained then
    some (.lagged (sent.length - retained - next), sent.length - retained)
  else sent[next]?.map fun value ↦ (.value value, next + 1)

/-- A receiver that is not behind by more than what is retained gets the next value. -/
theorem receive_of_le {retained next : ℕ} {sent : List A}
    (hle : sent.length - next ≤ retained) :
    receive retained sent next = sent[next]?.map fun value ↦ (.value value, next + 1) := by
  unfold receive
  rw [if_neg (by omega)]

/-- What a receive can do: it takes the next value, or skips values and reports their number. -/
theorem receive_cases {retained next after : ℕ} {sent : List A} {result : Received A}
    (hreceive : receive retained sent next = some (result, after)) :
    (∃ value, result = .value value ∧ sent.drop next = value :: sent.drop after) ∨
      ∃ skipped, result = .lagged skipped.length ∧ sent.drop next = skipped ++ sent.drop after := by
  unfold receive at hreceive
  split_ifs at hreceive with hlag
  · obtain ⟨rfl, rfl⟩ := Prod.mk.inj (Option.some.inj hreceive)
    have hskip : (sent.drop next).drop (sent.length - retained - next) =
        sent.drop (sent.length - retained) := by
      rw [List.drop_drop, Nat.add_sub_cancel' (Nat.le_of_lt hlag)]
    refine Or.inr ⟨(sent.drop next).take (sent.length - retained - next), ?_, ?_⟩
    · rw [List.length_take, List.length_drop, Nat.min_eq_left (by omega)]
    · rw [← hskip, List.take_append_drop]
  · obtain ⟨value, hvalue, heq⟩ := Option.map_eq_some_iff.mp hreceive
    obtain ⟨rfl, rfl⟩ := Prod.mk.inj heq
    obtain ⟨hlt, rfl⟩ := List.getElem?_eq_some_iff.mp hvalue
    exact Or.inl ⟨_, rfl, List.drop_eq_getElem_cons hlt⟩

theorem le_length_of_receive {retained next after : ℕ} {sent : List A} {result : Received A}
    (hreceive : receive retained sent next = some (result, after)) : after ≤ sent.length := by
  unfold receive at hreceive
  split_ifs at hreceive with hlag
  · obtain ⟨rfl, rfl⟩ := Prod.mk.inj (Option.some.inj hreceive)
    exact Nat.sub_le _ _
  · obtain ⟨value, hvalue, heq⟩ := Option.map_eq_some_iff.mp hreceive
    obtain ⟨rfl, rfl⟩ := Prod.mk.inj heq
    exact (List.getElem?_eq_some_iff.mp hvalue).1

/-- A receive moves on. -/
theorem lt_of_receive {retained next after : ℕ} {sent : List A} {result : Received A}
    (hreceive : receive retained sent next = some (result, after)) : next < after := by
  unfold receive at hreceive
  split_ifs at hreceive with hlag
  · obtain ⟨rfl, rfl⟩ := Prod.mk.inj (Option.some.inj hreceive)
    exact hlag
  · obtain ⟨value, hvalue, heq⟩ := Option.map_eq_some_iff.mp hreceive
    obtain ⟨rfl, rfl⟩ := Prod.mk.inj heq
    exact Nat.lt_succ_self next

/-- A receive gets nothing only where nothing is pending. -/
theorem length_le_of_receive_eq_none {retained next : ℕ} {sent : List A}
    (hreceive : receive retained sent next = none) : sent.length ≤ next := by
  unfold receive at hreceive
  split_ifs at hreceive with hlag
  exact List.getElem?_eq_none_iff.mp (Option.map_eq_none_iff.mp hreceive)

/-! ### Accounting for what was sent -/

/-- The results, in order, account for all that was sent but what is pending. -/
inductive Accounts (pending : List A) : List (Received A) → List A → Prop
  | nil : Accounts pending [] pending
  | value {results : List (Received A)} {since : List A} (value : A) :
    Accounts pending results since → Accounts pending (.value value :: results) (value :: since)
  | lagged {results : List (Received A)} {since : List A} (skipped : List A) :
    Accounts pending results since →
      Accounts pending (.lagged skipped.length :: results) (skipped ++ since)

namespace Accounts

variable {pending since : List A} {results : List (Received A)}

/-- One more value is sent. -/
theorem send (haccounts : Accounts pending results since) (sent : A) :
    Accounts (pending ++ [sent]) results (since ++ [sent]) := by
  induction haccounts with
  | nil => exact .nil
  | value value _ ih => exact .value value ih
  | lagged skipped _ ih =>
    rw [List.append_assoc]
    exact .lagged skipped ih

/-- One more result, of the first pending values. -/
theorem concat {result : Received A} {taken rest : List A}
    (haccounts : Accounts (taken ++ rest) results since)
    (hresult : Accounts rest [result] (taken ++ rest)) :
    Accounts rest (results ++ [result]) since := by
  induction haccounts with
  | nil => exact hresult
  | value value _ ih => exact .value value ih
  | lagged skipped _ ih => exact .lagged skipped ih

/-- One more receive. -/
theorem receive {retained next after : ℕ} {sent : List A} {result : Received A}
    (haccounts : Accounts (sent.drop next) results since)
    (hreceive : Library.receive retained sent next = some (result, after)) :
    Accounts (sent.drop after) (results ++ [result]) since := by
  rcases receive_cases hreceive with ⟨value, rfl, hdrop⟩ | ⟨skipped, rfl, hdrop⟩
  · rw [hdrop, ← List.singleton_append] at haccounts
    exact haccounts.concat (.value value .nil)
  · rw [hdrop] at haccounts
    exact haccounts.concat (.lagged skipped .nil)

/-- The values received and those pending are among those sent, in order. -/
theorem sublist (haccounts : Accounts pending results since) :
    (receivedValues results ++ pending).Sublist since := by
  induction haccounts with
  | nil => exact List.Sublist.refl _
  | value value _ ih => exact ih.cons_cons value
  | lagged skipped _ ih => exact ih.trans (List.sublist_append_right _ _)

/-- Without a lag, everything sent was received or is pending. -/
theorem eq_of_neverLagged (haccounts : Accounts pending results since)
    (hresults : NeverLagged results) : receivedValues results ++ pending = since := by
  induction haccounts with
  | nil => rfl
  | value value _ ih =>
    have hrest := ih fun skipped hmem ↦ hresults skipped (List.mem_cons_of_mem _ hmem)
    exact congrArg (value :: ·) hrest
  | lagged skipped _ _ => exact absurd List.mem_cons_self (hresults skipped.length)

end Accounts

end SentryNode.Library
