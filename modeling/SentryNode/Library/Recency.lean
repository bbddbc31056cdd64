import Mathlib.Data.List.Basic
import Mathlib.Data.List.Dedup
import Mathlib.Data.List.Nodup
import Mathlib.Data.List.Perm.Subperm

/-!
# Recency order and the window of the last distinct keys

A history of accesses is a list of keys, most recent access first. Its recency order
(`recencyOrder`) lists the distinct keys, the most recently accessed first, and its window of a
capacity (`window`) is the part of that order a cache of the capacity still holds under
least-recently-used replacement. `touch` is the effect of one access on such a list of keys, and
`touch_window` states that touching a window is the window of the longer history, so that a cache
never has to be replayed access by access: what it holds is read off the history.

The misses of a trace (`windowMisses`) are the keys found outside the window when they are reached,
each access being recorded. `mem_window_append` is the residency rule: a key accessed among at most
`capacity` distinct keys is still inside. With it a duplicate-free trace that fits the capacity, all
of whose resident keys have just been accessed, misses exactly the keys that were absent at the
start (`windowMisses_eq_filter`), and a trace drawn from so few keys misses each of them once
(`windowMisses_of_fits`).
-/

set_option autoImplicit false
set_option relaxedAutoImplicit false

namespace SentryNode.Library.Recency

variable {K : Type*} [DecidableEq K]

/-! ### Recency order -/

/-- The distinct keys of a history, most recently accessed first. -/
def recencyOrder : List K → List K
  | [] => []
  | key :: older => key :: (recencyOrder older).erase key

@[simp] theorem recencyOrder_nil : recencyOrder ([] : List K) = [] := rfl

theorem nodup_recencyOrder (history : List K) : (recencyOrder history).Nodup := by
  induction history with
  | nil => exact List.nodup_nil
  | cons key older ih => exact List.nodup_cons.mpr ⟨ih.not_mem_erase, ih.erase key⟩

theorem recencyOrder_cons (key : K) (older : List K) :
    recencyOrder (key :: older) = key :: (recencyOrder older).filter (· ≠ key) := by
  rw [recencyOrder, (nodup_recencyOrder older).erase_eq_filter]
  congr 1
  exact List.filter_congr fun other _ ↦ by by_cases hother : other = key <;> simp [hother]

@[simp] theorem mem_recencyOrder {key : K} {history : List K} :
    key ∈ recencyOrder history ↔ key ∈ history := by
  induction history with
  | nil => simp
  | cons first older ih =>
    rw [recencyOrder_cons, List.mem_cons, List.mem_cons, List.mem_filter, ih]
    by_cases hkey : key = first <;> simp [hkey]

/-- A history without repetitions is its own recency order. -/
theorem recencyOrder_of_nodup {history : List K} (hnodup : history.Nodup) :
    recencyOrder history = history := by
  induction history with
  | nil => rfl
  | cons key older ih =>
    obtain ⟨hkey, holder⟩ := List.nodup_cons.mp hnodup
    rw [recencyOrder, ih holder, List.erase_of_not_mem hkey]

/-- The keys of the later part come first, followed by those of the earlier part that the later part
does not mention. -/
theorem recencyOrder_append (later earlier : List K) :
    recencyOrder (later ++ earlier) =
      recencyOrder later ++ (recencyOrder earlier).filter (· ∉ later) := by
  induction later with
  | nil => simp
  | cons key rest ih =>
    rw [List.cons_append, recencyOrder_cons, recencyOrder_cons, ih, List.filter_append,
      List.filter_filter, List.cons_append]
    congr 2
    exact List.filter_congr fun other _ ↦ by simp [List.mem_cons, not_or]

/-- Repeating a block of accesses at once leaves the recency order as it was. -/
theorem recencyOrder_append_self (later earlier : List K) :
    recencyOrder (later ++ (later ++ earlier)) = recencyOrder (later ++ earlier) := by
  have hlater : (recencyOrder later).filter (· ∉ later) = [] :=
    List.filter_eq_nil_iff.mpr fun key hkey ↦ by simpa using hkey
  rw [recencyOrder_append later (later ++ earlier), recencyOrder_append later earlier,
    List.filter_append, hlater, List.nil_append, List.filter_filter]
  simp only [Bool.and_self]

/-- A history drawn from a list has at most as many distinct keys as the list has entries. -/
theorem length_recencyOrder_le {history keys : List K} (hsubset : history ⊆ keys) :
    (recencyOrder history).length ≤ keys.length :=
  ((nodup_recencyOrder history).subperm
    fun _ hkey ↦ hsubset (mem_recencyOrder.mp hkey)).length_le

theorem length_recencyOrder (history : List K) :
    (recencyOrder history).length = history.dedup.length := by
  refine ((List.perm_ext_iff_of_nodup (nodup_recencyOrder history) history.nodup_dedup).mpr ?_)
    |>.length_eq
  intro key
  rw [mem_recencyOrder, List.mem_dedup]

/-! ### The window of a capacity -/

/-- The keys a cache of the given capacity holds after a history of accesses: the most recently
accessed distinct keys, as many as fit. -/
def window (capacity : ℕ) (history : List K) : List K := (recencyOrder history).take capacity

/-- The effect of one access on the keys of a cache, most recent first. -/
def touch (capacity : ℕ) (key : K) (keys : List K) : List K := (key :: keys.erase key).take capacity

theorem window_of_fits {capacity : ℕ} {keys : List K} (hnodup : keys.Nodup)
    (hfits : keys.length ≤ capacity) : window capacity keys = keys := by
  rw [window, recencyOrder_of_nodup hnodup, List.take_of_length_le hfits]

/-- Erasing a key before or after the cut leaves the same list, once the key has taken a place of
its own in front. -/
theorem take_erase_take (key : K) (count : ℕ) (keys : List K) :
    ((keys.take (count + 1)).erase key).take count = (keys.erase key).take count := by
  induction keys generalizing count with
  | nil => rfl
  | cons first rest ih =>
    by_cases hfirst : first = key
    · subst hfirst
      rw [List.take_succ_cons, List.erase_cons_head, List.erase_cons_head, List.take_take,
        Nat.min_self]
    · rw [List.take_succ_cons, List.erase_cons_tail (by simpa using hfirst),
        List.erase_cons_tail (by simpa using hfirst)]
      cases count with
      | zero => rfl
      | succ count => rw [List.take_succ_cons, List.take_succ_cons, ih count]

/-- Touching the window of a history is the window of the history extended by the access. -/
theorem touch_window (capacity : ℕ) (key : K) (history : List K) :
    touch capacity key (window capacity history) = window capacity (key :: history) := by
  cases capacity with
  | zero => rfl
  | succ count =>
    rw [touch, window, window, recencyOrder, List.take_succ_cons, List.take_succ_cons,
      take_erase_take]

theorem window_congr {capacity : ℕ} {first second : List K}
    (horder : recencyOrder first = recencyOrder second) :
    window capacity first = window capacity second := by
  rw [window, window, horder]

theorem mem_history_of_mem_window {capacity : ℕ} {key : K} {history : List K}
    (hkey : key ∈ window capacity history) : key ∈ history :=
  mem_recencyOrder.mp (List.mem_of_mem_take hkey)

/-- The residency rule. Assumes: the later part of the history has at most `capacity` distinct keys.
Then every key it mentions is in the window. -/
theorem mem_window_append {capacity : ℕ} {later : List K} (earlier : List K) {key : K}
    (hkey : key ∈ later) (hfits : (recencyOrder later).length ≤ capacity) :
    key ∈ window capacity (later ++ earlier) := by
  rw [window, recencyOrder_append, List.take_append, List.take_of_length_le hfits]
  exact List.mem_append_left _ (mem_recencyOrder.mpr hkey)

/-- A key last accessed before `later` is in the window when `later` has room for it. -/
theorem mem_window_append_cons {capacity : ℕ} {later : List K} (earlier : List K) {key : K}
    (hkey : key ∉ later) :
    key ∈ window capacity (later ++ key :: earlier) ↔ later.dedup.length < capacity := by
  have hfirst : key ∉ recencyOrder later := mt mem_recencyOrder.mp hkey
  rw [window, recencyOrder_append, recencyOrder_cons, List.filter_cons_of_pos (by simpa using hkey),
    ← length_recencyOrder, List.take_append]
  constructor
  · intro hmem
    by_contra hfull
    rw [Nat.sub_eq_zero_of_le (Nat.le_of_not_lt hfull), List.take_zero, List.append_nil] at hmem
    exact hfirst (List.mem_of_mem_take hmem)
  · intro hroom
    obtain ⟨count, hcount⟩ := Nat.exists_eq_succ_of_ne_zero (Nat.sub_ne_zero_of_lt hroom)
    rw [hcount, List.take_succ_cons]
    exact List.mem_append_right _ List.mem_cons_self

/-- What the window of a history holds, without its recency order: the keys since whose last access
fewer than `capacity` distinct other keys were accessed. -/
theorem mem_window_iff {capacity : ℕ} {key : K} {history : List K} :
    key ∈ window capacity history ↔
      ∃ later earlier, history = later ++ key :: earlier ∧ key ∉ later ∧
        later.dedup.length < capacity := by
  constructor
  · intro hkey
    obtain ⟨later, earlier, rfl, hlater⟩ :=
      List.eq_append_cons_of_mem (mem_history_of_mem_window hkey)
    exact ⟨later, earlier, rfl, hlater, (mem_window_append_cons earlier hlater).mp hkey⟩
  · rintro ⟨later, earlier, rfl, hlater, hroom⟩
    exact (mem_window_append_cons earlier hlater).mpr hroom

/-! ### Misses of a trace -/

/-- The keys of a trace found outside the window when they are reached, in the order of the trace.
Every access, hit or miss, is recorded in the history. -/
def windowMisses (capacity : ℕ) : List K → List K → List K
  | _, [] => []
  | history, key :: rest =>
    if key ∈ window capacity history then windowMisses capacity (key :: history) rest
    else key :: windowMisses capacity (key :: history) rest

/-- Presence inside a fitting duplicate-free trace. Assumes: the key has not been accessed yet,
every key resident at the start and in the trace has been accessed just before the trace, and the
accesses so far stay inside a trace that fits the capacity. Then the key is in the window exactly
when it was resident at the start. -/
theorem mem_window_iff_of_fits {capacity : ℕ} {trace done resident base : List K} {key : K}
    (hfits : trace.length ≤ capacity) (hdone : done ⊆ trace) (hresident : resident ⊆ trace)
    (hmem : ∀ other ∈ trace, other ∈ resident ↔ other ∈ base) (hkey : key ∈ trace)
    (hfresh : key ∉ done) :
    key ∈ window capacity (done ++ (resident ++ base)) ↔ key ∈ base := by
  constructor
  · intro hwindow
    rcases List.mem_append.mp (mem_history_of_mem_window hwindow) with h | h
    · exact absurd h hfresh
    · rcases List.mem_append.mp h with h | h
      · exact (hmem key hkey).mp h
      · exact h
  · intro hbase
    rw [← List.append_assoc]
    refine mem_window_append base (List.mem_append_right _ ((hmem key hkey).mpr hbase)) ?_
    exact Nat.le_trans (length_recencyOrder_le (List.append_subset.mpr ⟨hdone, hresident⟩)) hfits

/-- A duplicate-free trace that fits misses the keys that were not resident at the start. Assumes:
every key resident at the start and in the trace has been accessed just before the trace. -/
theorem windowMisses_eq_filter {capacity : ℕ} {trace resident base : List K} (hnodup : trace.Nodup)
    (hfits : trace.length ≤ capacity) (hresident : resident ⊆ trace)
    (hmem : ∀ key ∈ trace, key ∈ resident ↔ key ∈ base) :
    windowMisses capacity (resident ++ base) trace = trace.filter (· ∉ base) := by
  suffices hall : ∀ rest done, done.reverse ++ rest = trace →
      windowMisses capacity (done ++ (resident ++ base)) rest = rest.filter (· ∉ base) from
    hall trace [] rfl
  intro rest
  induction rest with
  | nil => intro done _; rfl
  | cons key rest ih =>
    intro done htrace
    have hdone : done ⊆ trace := fun other hother ↦ by
      rw [← htrace]
      exact List.mem_append_left _ (List.mem_reverse.mpr hother)
    have hkey : key ∈ trace := by
      rw [← htrace]
      exact List.mem_append_right _ List.mem_cons_self
    have hfresh : key ∉ done := fun hother ↦ by
      rw [← htrace, List.nodup_append] at hnodup
      exact hnodup.2.2 key (List.mem_reverse.mpr hother) key List.mem_cons_self rfl
    have hpresent := mem_window_iff_of_fits hfits hdone hresident hmem hkey hfresh
    have hrest := ih (key :: done) (by rw [List.reverse_cons, List.append_assoc]; exact htrace)
    rw [List.cons_append] at hrest
    by_cases hbase : key ∈ base
    · rw [windowMisses, if_pos (hpresent.mpr hbase), hrest,
        List.filter_cons_of_neg (by simpa using hbase)]
    · rw [windowMisses, if_neg (mt hpresent.mp hbase), hrest,
        List.filter_cons_of_pos (by simpa using hbase)]

/-- A trace that fits misses each of its keys once, the first time it occurs. Assumes: the history
and the trace are drawn from at most `capacity` keys. -/
theorem windowMisses_of_fits {capacity : ℕ} {keys trace : List K} (hfits : keys.length ≤ capacity)
    (htrace : trace ⊆ keys) {history : List K} (hhistory : history ⊆ keys) :
    (windowMisses capacity history trace).Nodup ∧
      ∀ key, key ∈ windowMisses capacity history trace ↔ key ∈ trace ∧ key ∉ history := by
  induction trace generalizing history with
  | nil => exact ⟨List.nodup_nil, fun key ↦ by simp [windowMisses]⟩
  | cons first rest ih =>
    obtain ⟨hfirst, hrest⟩ := List.cons_subset.mp htrace
    obtain ⟨hnodup, hmem⟩ := ih hrest (List.cons_subset.mpr ⟨hfirst, hhistory⟩)
    have hwindow : first ∈ window capacity history ↔ first ∈ history := by
      rw [window, List.take_of_length_le (Nat.le_trans (length_recencyOrder_le hhistory) hfits),
        mem_recencyOrder]
    by_cases hseen : first ∈ history
    · rw [windowMisses, if_pos (hwindow.mpr hseen)]
      refine ⟨hnodup, fun key ↦ ?_⟩
      rw [hmem, List.mem_cons, List.mem_cons]
      by_cases hkey : key = first <;> simp [hkey, hseen]
    · rw [windowMisses, if_neg (mt hwindow.mp hseen)]
      refine ⟨List.nodup_cons.mpr ⟨?_, hnodup⟩, fun key ↦ ?_⟩
      · rw [hmem]
        simp
      · rw [List.mem_cons, hmem, List.mem_cons, List.mem_cons]
        by_cases hkey : key = first <;> simp [hkey, hseen]

end SentryNode.Library.Recency
