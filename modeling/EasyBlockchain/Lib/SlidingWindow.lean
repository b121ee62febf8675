/-
Limiting events by key over a sliding window, as a specification on histories.

A history records what was asked, in order, and what was answered. It follows the
limit if an event is allowed exactly when fewer than the limit were allowed for its
key within the window before it, since the key was last cleared. That says what every
answer is, so histories that follow the limit and ask the same are equal; what it says
of one key mentions that key only; and it bounds every window of the key in which it
is not cleared.
-/
import Mathlib.Algebra.Order.Group.Defs
import Mathlib.Data.List.Induction
import Mathlib.Tactic.Common

set_option autoImplicit false

namespace EasyBlockchain.Lib.SlidingWindow

variable {κ T : Type*}

/-- What is asked of a limiter. -/
inductive Request (κ T : Type*)
  | allow (key : κ) (now : T)
  | reset (key : κ)
  deriving DecidableEq

/-- A call with its answer. -/
inductive Entry (κ T : Type*)
  | answered (key : κ) (now : T) (allowed : Bool)
  | cleared (key : κ)
  deriving DecidableEq

namespace Request

def key : Request κ T → κ
  | allow key _ | reset key => key

/-- The times of the calls that have one. -/
def time : Request κ T → Option T
  | allow _ now => some now
  | reset _ => none

end Request

namespace Entry

def key : Entry κ T → κ
  | answered key _ _ | cleared key => key

def call : Entry κ T → Request κ T
  | answered key now _ => .allow key now
  | cleared key => .reset key

@[simp] theorem call_key (e : Entry κ T) : e.call.key = e.key := by
  cases e <;> rfl

end Entry

section Histories

variable [DecidableEq κ]

/-- The events of `key` that are still counted after one more entry. -/
def count (key : κ) (times : List T) : Entry κ T → List T
  | .answered k now allowed => if k = key ∧ allowed = true then times ++ [now] else times
  | .cleared k => if k = key then [] else times

/-- The times of the events of `key` allowed since it was last cleared. -/
def since (key : κ) (log : List (Entry κ T)) : List T := log.foldl (count key) []

/-- The allowed event of `key` an entry stands for. -/
def Entry.event (key : κ) : Entry κ T → Option T
  | answered k now allowed => if k = key ∧ allowed = true then some now else none
  | cleared _ => none

/-- The times of all events of `key` that were allowed. -/
def allowed_times (key : κ) (log : List (Entry κ T)) : List T := log.filterMap (Entry.event key)

/-- The event of `key` an entry stands for, allowed or not. -/
def Entry.ask (key : κ) : Entry κ T → Option T
  | answered k now _ => if k = key then some now else none
  | cleared _ => none

/-- The times of all events of `key` that were asked for. -/
def asked_times (key : κ) (log : List (Entry κ T)) : List T := log.filterMap (Entry.ask key)

variable {key : κ} {log : List (Entry κ T)}

theorem allowed_times_snoc (key : κ) (log : List (Entry κ T)) (e : Entry κ T) :
    allowed_times key (log ++ [e]) = allowed_times key log ++ (e.event key).toList := by
  rw [allowed_times, List.filterMap_append, ← allowed_times]
  cases h : e.event key with
  | none => simp [h]
  | some t => simp [h]

omit [DecidableEq κ] in
theorem filter_snoc (p : Entry κ T → Bool) (log : List (Entry κ T)) (e : Entry κ T) :
    (log ++ [e]).filter p = if p e = true then log.filter p ++ [e] else log.filter p := by
  rw [List.filter_append]
  by_cases h : p e = true
  · simp [h]
  · simp [h]

theorem since_snoc (key : κ) (log : List (Entry κ T)) (e : Entry κ T) :
    since key (log ++ [e]) = count key (since key log) e := by
  rw [since, List.foldl_append, List.foldl_cons, List.foldl_nil, since]

theorem count_of_other {e : Entry κ T} (h : e.key ≠ key) (times : List T) :
    count key times e = times := by
  cases e with
  | answered k now allowed => exact if_neg fun hk => h hk.1
  | cleared k => exact if_neg h

/-- What is counted was asked for. -/
theorem since_sublist (key : κ) (log : List (Entry κ T)) :
    (since key log).Sublist (asked_times key log) := by
  induction log using List.reverseRecOn with
  | nil => exact List.Sublist.refl _
  | append_singleton log e ih =>
      rw [since_snoc, asked_times, List.filterMap_append, ← asked_times]
      cases e with
      | answered k now allowed =>
          by_cases hk : k = key
          · by_cases hallowed : allowed = true
            · simpa [count, Entry.ask, hk, hallowed] using ih
            · simpa [count, Entry.ask, hk, hallowed] using ih.trans (List.sublist_append_left _ _)
          · simpa [count, Entry.ask, hk] using ih
      | cleared k =>
          by_cases hk : k = key
          · simp [count, hk]
          · simpa [count, Entry.ask, hk, List.filterMap_cons] using ih

/-- Only the entries of a key count for it. -/
theorem since_filter (key : κ) (log : List (Entry κ T)) :
    since key (log.filter (·.key = key)) = since key log := by
  induction log using List.reverseRecOn with
  | nil => rfl
  | append_singleton log e ih =>
      rw [filter_snoc, since_snoc]
      by_cases he : e.key = key
      · rw [if_pos (by simpa using he), since_snoc, ih]
      · rw [if_neg (by simpa using he), ih, count_of_other he]

/-- Where a key is not cleared, its events add up. -/
theorem since_append (log : List (Entry κ T)) {stretch : List (Entry κ T)}
    (h : ∀ e ∈ stretch, e ≠ .cleared key) :
    since key (log ++ stretch) = since key log ++ allowed_times key stretch := by
  induction stretch using List.reverseRecOn with
  | nil => simp [allowed_times]
  | append_singleton stretch e ih =>
      have ih := ih fun e he => h e (List.mem_append_left _ he)
      rw [← List.append_assoc, since_snoc, ih, allowed_times_snoc, ← List.append_assoc]
      cases e with
      | answered k now allowed =>
          by_cases hk : k = key ∧ allowed = true
          · simp [count, Entry.event, hk]
          · simp [count, Entry.event, hk]
      | cleared k =>
          have hk : k ≠ key := by
            rintro rfl
            exact h _ (List.mem_append_right _ List.mem_cons_self) rfl
          simp [count, Entry.event, hk]

end Histories

/-! ## The limit -/

section Limit

variable [DecidableEq κ] [AddCommGroup T] [LinearOrder T]

/-- The events of `key` within the window that ends now. -/
def recent (window : T) (key : κ) (log : List (Entry κ T)) (now : T) : List T :=
  (since key log).filter (now - window ≤ ·)

/-- Every event is allowed exactly when fewer than `limit` are counted. -/
def Follows (limit : ℤ) (window : T) (log : List (Entry κ T)) : Prop :=
  ∀ before key now allowed after, log = before ++ .answered key now allowed :: after →
    (allowed = true ↔ ((recent window key before now).length : ℤ) < limit)

variable {limit : ℤ} {window : T} {log log' : List (Entry κ T)}

theorem follows_nil : Follows limit window ([] : List (Entry κ T)) := by
  intro before key now allowed after h
  exact absurd h.symm (by simp)

theorem Follows.of_append {after : List (Entry κ T)} (h : Follows limit window (log ++ after)) :
    Follows limit window log := by
  intro before key now allowed rest hlog
  refine h before key now allowed (rest ++ after) ?_
  rw [hlog, List.append_assoc, List.cons_append]

theorem Follows.last {key : κ} {now : T} {allowed : Bool}
    (h : Follows limit window (log ++ [.answered key now allowed])) :
    allowed = true ↔ ((recent window key log now).length : ℤ) < limit :=
  h log key now allowed [] rfl

/-- One more entry, answered by the limit. -/
theorem Follows.snoc (h : Follows limit window log) {e : Entry κ T}
    (he : ∀ key now allowed, e = .answered key now allowed →
      (allowed = true ↔ ((recent window key log now).length : ℤ) < limit)) :
    Follows limit window (log ++ [e]) := by
  intro before key now allowed after hlog
  rcases List.eq_nil_or_concat after with rfl | ⟨rest, last, rfl⟩
  · obtain ⟨rfl, heq⟩ := List.append_inj' hlog rfl
    exact he key now allowed (List.cons.inj heq).1
  · rw [List.concat_eq_append, ← List.cons_append, ← List.append_assoc] at hlog
    obtain ⟨rfl, -⟩ := List.append_inj' hlog rfl
    exact h before key now allowed rest rfl

/-- The answers are determined by what is asked. -/
theorem Follows.unique (h : Follows limit window log) (h' : Follows limit window log')
    (hcalls : log.map Entry.call = log'.map Entry.call) : log = log' := by
  induction log using List.reverseRecOn generalizing log' with
  | nil => exact (List.map_eq_nil_iff.mp hcalls.symm).symm
  | append_singleton log e ih =>
      rcases List.eq_nil_or_concat log' with rfl | ⟨log', e', rfl⟩
      · simp at hcalls
      rw [List.concat_eq_append] at h' hcalls ⊢
      rw [List.map_append, List.map_append] at hcalls
      obtain ⟨hinit, hlast⟩ := List.append_inj' hcalls rfl
      obtain rfl := ih h.of_append h'.of_append hinit
      have hcall : e.call = e'.call := by simpa using hlast
      congr 2
      cases e with
      | answered key now allowed =>
          cases e' with
          | answered key' now' allowed' =>
              obtain ⟨rfl, rfl⟩ := Request.allow.inj hcall
              rw [Bool.eq_iff_iff.mpr (h.last.trans h'.last.symm)]
          | cleared key' => cases hcall
      | cleared key =>
          cases e' with
          | answered key' now' allowed' => cases hcall
          | cleared key' => rw [Request.reset.inj hcall]

/-- What the limit says of one key does not mention the others. -/
theorem Follows.filter (h : Follows limit window log) (key : κ) :
    Follows limit window (log.filter (·.key = key)) := by
  induction log using List.reverseRecOn with
  | nil => exact follows_nil
  | append_singleton log e ih =>
      rw [filter_snoc]
      by_cases he : e.key = key
      · rw [if_pos (by simpa using he)]
        refine (ih h.of_append).snoc ?_
        rintro k now allowed rfl
        obtain rfl : k = key := he
        rw [recent, since_filter, ← recent]
        exact h.last
      · rw [if_neg (by simpa using he)]
        exact ih h.of_append

/-- Two histories that ask the same about a key answer the same about it. -/
theorem Follows.same_answers (h : Follows limit window log) (h' : Follows limit window log')
    {key : κ} (hcalls : (log.map Entry.call).filter (·.key = key)
      = (log'.map Entry.call).filter (·.key = key)) :
    log.filter (·.key = key) = log'.filter (·.key = key) := by
  refine (h.filter key).unique (h'.filter key) ?_
  simpa [List.filter_map, Function.comp_def] using hcalls

variable [IsOrderedAddMonoid T]

/-- Every window of a key that is not cleared holds at most `limit` allowed events. The
induction is on the stretch of the history: the last event in the window was allowed,
so it found fewer than `limit` before it. -/
theorem Follows.window_bound (hlimit : 0 ≤ limit) (h : Follows limit window log)
    {before stretch after : List (Entry κ T)} (hlog : log = before ++ stretch ++ after) {key : κ}
    (hclear : ∀ e ∈ stretch, e ≠ .cleared key) (start : T) :
    (((allowed_times key stretch).filter fun t => start ≤ t ∧ t ≤ start + window).length : ℤ)
      ≤ limit := by
  subst hlog
  replace h := h.of_append
  clear after
  induction stretch using List.reverseRecOn with
  | nil => simpa [allowed_times] using hlimit
  | append_singleton stretch e ih =>
      have hstretch : ∀ e ∈ stretch, e ≠ .cleared key :=
        fun e he => hclear e (List.mem_append_left _ he)
      rw [← List.append_assoc] at h
      have ih := ih hstretch h.of_append
      rw [allowed_times_snoc, List.filter_append, List.length_append]
      cases e with
      | cleared k => simpa [Entry.event] using ih
      | answered k now allowed =>
          by_cases hk : k = key ∧ allowed = true
          swap
          · simpa [Entry.event, hk] using ih
          obtain ⟨rfl, rfl⟩ := hk
          by_cases hin : start ≤ now ∧ now ≤ start + window
          swap
          · simpa [Entry.event, hin] using ih
          -- what lies in the window and was allowed before was counted for this event
          have hcount := h.last.mp rfl
          rw [recent, since_append before hstretch, List.filter_append, List.length_append]
            at hcount
          have hsub : ((allowed_times k stretch).filter
              fun t => start ≤ t ∧ t ≤ start + window).length
              ≤ ((allowed_times k stretch).filter (now - window ≤ ·)).length := by
            rw [← List.countP_eq_length_filter, ← List.countP_eq_length_filter]
            apply List.countP_mono_left
            intro t _ ht
            simp only [decide_eq_true_eq] at ht ⊢
            exact le_trans (sub_le_iff_le_add.mpr hin.2) ht.1
          simp only [Entry.event, hin, and_self, if_true, Option.toList_some, List.filter_cons,
            decide_true, List.filter_nil, List.length_cons, List.length_nil]
          push_cast
          omega

omit [IsOrderedAddMonoid T] in
/-- Fewer than no events are none. -/
theorem Follows.max_zero (h : Follows limit window log) : Follows (max limit 0) window log := by
  intro before key now allowed after hlog
  rw [h before key now allowed after hlog]
  omega

/-- A key that stays within the limit is always allowed. -/
theorem Follows.allowed_of_modest (h : Follows limit window log) (hpos : 0 ≤ window) {key : κ}
    (hordered : (asked_times key log).Pairwise (· ≤ ·))
    (hmodest : ∀ start, (((asked_times key log).filter
      fun t => start ≤ t ∧ t ≤ start + window).length : ℤ) ≤ limit)
    {now : T} {allowed : Bool} (hmem : .answered key now allowed ∈ log) : allowed = true := by
  obtain ⟨before, after, rfl⟩ := List.append_of_mem hmem
  rw [h before key now allowed after rfl]
  have hasked : asked_times key (before ++ .answered key now allowed :: after)
      = asked_times key before ++ now :: asked_times key after := by
    simp [asked_times, Entry.ask]
  have hwindow := hmodest (now - window)
  rw [hasked] at hordered hwindow
  -- what is counted was asked for before, so it lies in the window with this event
  have hcounted : (recent window key before now).length
      ≤ ((asked_times key before).filter
        fun t => now - window ≤ t ∧ t ≤ now - window + window).length := by
    rw [recent, ← List.countP_eq_length_filter, ← List.countP_eq_length_filter]
    refine le_trans ((since_sublist key before).countP_le) (List.countP_mono_left ?_)
    intro t ht hrecent
    have hle : t ≤ now := (List.pairwise_append.mp hordered).2.2 t ht now List.mem_cons_self
    simpa [hle] using hrecent
  rw [List.filter_append, List.length_append, List.filter_cons_of_pos (by simpa using hpos),
    List.length_cons] at hwindow
  omega

end Limit

end EasyBlockchain.Lib.SlidingWindow
