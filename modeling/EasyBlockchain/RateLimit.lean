/-
`network/rate_limit.py`: the sliding-window limiter refines its specification.

The limiter keeps a deque of times and the time of the last access for each key, and
now and then deletes the keys that were not accessed for a window. `Tracks` says what
the two tables are to the history: a deque is the end of the events still counted, and
what is missing before it has left every window that can still be asked about.
Deleting a stale key only moves its whole deque into that part.

Times are those of any ordered additive group, so nothing is rounded.
-/
import EasyBlockchain.Lib.SlidingWindow
import EasyBlockchain.Py.Exceptions
import EasyBlockchain.Py.StrDict
import Mathlib.Data.List.Nodup
import Mathlib.Data.List.TakeWhile
import Mathlib.Algebra.Order.Group.Int

set_option autoImplicit false

namespace EasyBlockchain

open Py Lib SlidingWindow

/-- `del m[key]`, which raises where the key is absent. -/
def Py.StrDict.del {α : Type} (m : StrDict α) (key : Str) : PyM (StrDict α) :=
  if m.contains key then .ok (m.pop key) else .error .keyError

structure SlidingWindowRateLimiter (T : Type) where
  max_events : ℤ
  window_seconds : T
  events : StrDict (List T)
  last_access : StrDict T
  last_prune : T

namespace SlidingWindowRateLimiter

section Limiter

variable {T : Type} [AddCommGroup T] [LinearOrder T]

def init (max_events : ℤ) (window_seconds : T) : SlidingWindowRateLimiter T :=
  ⟨max_events, window_seconds, .empty, .empty, 0⟩

/-- The body of the loop of `_prune_stale_keys`. -/
def forget (self : SlidingWindowRateLimiter T) (key : Str) :
    PyM (SlidingWindowRateLimiter T) := do
  let events ← self.events.del key
  let last_access ← self.last_access.del key
  return { self with events, last_access }

/-- `[key for key, last in self._last_access.items() if last < cutoff]`. -/
def stale_keys (self : SlidingWindowRateLimiter T) (cutoff : T) : List Str :=
  (self.last_access.entries.filter fun p => p.2 < cutoff).map Prod.fst

def prune_stale_keys (self : SlidingWindowRateLimiter T) (current : T) :
    PyM (SlidingWindowRateLimiter T) :=
  if current - self.last_prune < self.window_seconds then .ok self
  else (self.stale_keys (current - self.window_seconds)).foldlM forget
    { self with last_prune := current }

/-- `self._events[key]`; a missing key has an empty deque. -/
def deque (self : SlidingWindowRateLimiter T) (key : Str) : List T :=
  (self.events.find key).getD []

/-- `allow` after the pruning. -/
def allow_unpruned (self : SlidingWindowRateLimiter T) (key : Str) (current : T) :
    Bool × SlidingWindowRateLimiter T :=
  let cutoff := current - self.window_seconds
  let events := (self.deque key).dropWhile (· < cutoff)
  let last_access := self.last_access.set key current
  if self.max_events ≤ events.length then
    (false, { self with events := self.events.set key events, last_access })
  else (true, { self with events := self.events.set key (events ++ [current]), last_access })

def allow (self : SlidingWindowRateLimiter T) (key : Str) (current : T) :
    PyM (Bool × SlidingWindowRateLimiter T) := do
  let self ← self.prune_stale_keys current
  return self.allow_unpruned key current

def reset (self : SlidingWindowRateLimiter T) (key : Str) : SlidingWindowRateLimiter T :=
  { self with events := self.events.pop key, last_access := self.last_access.pop key }

/-- One call, with the answer it gets. -/
def call (self : SlidingWindowRateLimiter T) :
    Request Str T → PyM (Entry Str T × SlidingWindowRateLimiter T)
  | .allow key now => do
    let (allowed, after) ← self.allow key now
    return (.answered key now allowed, after)
  | .reset key => .ok (.cleared key, self.reset key)

/-- The calls one after the other, and the history of the answers. -/
def calls (self : SlidingWindowRateLimiter T) :
    List (Request Str T) → PyM (List (Entry Str T) × SlidingWindowRateLimiter T)
  | [] => .ok ([], self)
  | c :: rest => do
    let (entry, after) ← self.call c
    let (log, last) ← after.calls rest
    return (entry :: log, last)

/-- One call to a limiter that never prunes. -/
def call_unpruned (self : SlidingWindowRateLimiter T) :
    Request Str T → Entry Str T × SlidingWindowRateLimiter T
  | .allow key now => (.answered key now (self.allow_unpruned key now).1, (self.allow_unpruned key now).2)
  | .reset key => (.cleared key, self.reset key)

/-- The history of the answers of a limiter that never prunes. -/
def calls_unpruned (self : SlidingWindowRateLimiter T) : List (Request Str T) → List (Entry Str T)
  | [] => []
  | c :: rest => (self.call_unpruned c).1 :: (self.call_unpruned c).2.calls_unpruned rest

/-! ## Deleting keys -/

variable {self after : SlidingWindowRateLimiter T} {key : Str}

/-- The two tables have the same keys. -/
def SameKeys (self : SlidingWindowRateLimiter T) : Prop :=
  ∀ key, self.events.contains key = self.last_access.contains key

omit [AddCommGroup T] [LinearOrder T] in
theorem forget_eq_ok (hsame : self.SameKeys) (h : self.last_access.contains key = true) :
    self.forget key
      = .ok { self with events := self.events.pop key, last_access := self.last_access.pop key } := by
  rw [forget, StrDict.del, StrDict.del, hsame key, if_pos h, if_pos h]
  rfl

/-- What is left of the tables after some keys are deleted. -/
structure Without (start : SlidingWindowRateLimiter T) (keys : List Str)
    (after : SlidingWindowRateLimiter T) : Prop where
  max_events : after.max_events = start.max_events
  window_seconds : after.window_seconds = start.window_seconds
  events : ∀ key, after.events.find key = if key ∈ keys then none else start.events.find key
  last_access : ∀ key,
    after.last_access.find key = if key ∈ keys then none else start.last_access.find key

omit [AddCommGroup T] [LinearOrder T] in
/-- Each of the keys is in both tables when its turn comes. -/
theorem forget_all (hsame : self.SameKeys) {keys : List Str} (hnodup : keys.Nodup)
    (hkeys : ∀ key ∈ keys, self.last_access.contains key = true) :
    ∃ after, keys.foldlM forget self = .ok after ∧ self.Without keys after := by
  induction keys generalizing self with
  | nil => exact ⟨self, rfl, rfl, rfl, fun _ => by simp, fun _ => by simp⟩
  | cons k rest ih =>
      rw [List.nodup_cons] at hnodup
      have hforget := forget_eq_ok hsame (hkeys k List.mem_cons_self)
      obtain ⟨after, hrest, hwithout⟩ := @ih
        { self with events := self.events.pop k, last_access := self.last_access.pop k }
        (by
          intro key
          rw [StrDict.contains_pop, StrDict.contains_pop, hsame key])
        hnodup.2
        (by
          intro key hkey
          have hne : key ≠ k := fun h => hnodup.1 (h ▸ hkey)
          rw [StrDict.contains_pop, hkeys key (List.mem_cons_of_mem _ hkey)]
          simp [hne])
      refine ⟨after, ?_, hwithout.max_events, hwithout.window_seconds, ?_, ?_⟩
      · rw [List.foldlM_cons, hforget]
        exact hrest
      · intro key
        rw [hwithout.events, StrDict.find_pop]
        by_cases hk : key = k <;> simp [hk]
      · intro key
        rw [hwithout.last_access, StrDict.find_pop]
        by_cases hk : key = k <;> simp [hk]

omit [AddCommGroup T] in
/-- The stale keys were last accessed before the cutoff. -/
theorem mem_stale_keys {cutoff : T} (h : key ∈ self.stale_keys cutoff) :
    ∃ last, self.last_access.find key = some last ∧ last < cutoff := by
  unfold stale_keys at h
  obtain ⟨p, hp, rfl⟩ := List.mem_map.mp h
  obtain ⟨hmem, hlast⟩ := List.mem_filter.mp hp
  exact ⟨p.2, (StrDict.lookup_eq_some_iff_mem self.last_access.nodup).mpr hmem,
    of_decide_eq_true hlast⟩

/-! ## The tables and the history -/

/-- The limiter has the events of a history whose calls are not after `clock`. What
is missing from a deque has left every window that ends at `clock` or later. -/
structure Tracks (start : SlidingWindowRateLimiter T) (log : List (Entry Str T)) (clock : T) :
    Prop where
  same_keys : start.SameKeys
  recorded : ∀ key, ∃ expired, since key log = expired ++ start.deque key ∧
    ∀ t ∈ expired, t < clock - start.window_seconds
  accessed : ∀ key last, start.last_access.find key = some last → ∀ t ∈ start.deque key, t ≤ last
  ordered : ∀ key, (since key log).Pairwise (· ≤ ·)
  past : ∀ key, ∀ t ∈ since key log, t ≤ clock

variable {log : List (Entry Str T)} {clock now : T} {max_events : ℤ} {window : T}

variable (clock max_events window) in
theorem tracks_init : (init max_events window).Tracks [] clock := by
  refine ⟨fun key => rfl, fun key => ⟨[], rfl, ?_⟩, ?_, fun key => List.Pairwise.nil, ?_⟩
  · intro t ht
    cases ht
  · intro key last hlast
    cases hlast
  · intro key t ht
    cases ht

omit [AddCommGroup T] [LinearOrder T] in
theorem deque_of_find {after : SlidingWindowRateLimiter T} {key : Str}
    (h : after.events.find key = self.events.find key) : after.deque key = self.deque key := by
  rw [deque, h, deque]

variable [IsOrderedAddMonoid T]

omit [AddCommGroup T] [IsOrderedAddMonoid T] in
/-- In an ordered list the events at its front that have expired are all that have. -/
theorem dropWhile_spec {times : List T} (h : times.Pairwise (· ≤ ·)) (cutoff : T) :
    ∃ expired, times = expired ++ times.dropWhile (· < cutoff) ∧ (∀ t ∈ expired, t < cutoff) ∧
      ∀ t ∈ times.dropWhile (· < cutoff), cutoff ≤ t := by
  refine ⟨times.takeWhile (· < cutoff), (List.takeWhile_append_dropWhile).symm, ?_, ?_⟩
  · intro t ht
    simpa using List.mem_takeWhile_imp ht
  · induction times with
    | nil =>
        intro t ht
        cases ht
    | cons first rest ih =>
        rw [List.pairwise_cons] at h
        intro t ht
        by_cases hfirst : first < cutoff
        · rw [List.dropWhile_cons_of_pos (by simpa using hfirst)] at ht
          exact ih h.2 t ht
        · rw [List.dropWhile_cons_of_neg (by simpa using hfirst)] at ht
          rcases List.mem_cons.mp ht with rfl | ht
          · exact not_lt.mp hfirst
          · exact le_trans (not_lt.mp hfirst) (h.1 t ht)

/-- Pruning does not raise, and forgets only what has expired. -/
theorem Tracks.prune (h : self.Tracks log clock) (hnow : clock ≤ now) :
    ∃ after, self.prune_stale_keys now = .ok after ∧ after.Tracks log now ∧
      after.max_events = self.max_events ∧ after.window_seconds = self.window_seconds := by
  have hcutoff : clock - self.window_seconds ≤ now - self.window_seconds :=
    sub_le_sub_right hnow _
  have hpast : ∀ key, ∀ t ∈ since key log, t ≤ now := fun key t ht => le_trans (h.past key t ht) hnow
  unfold prune_stale_keys
  split_ifs with hrecent
  · refine ⟨self, rfl, ⟨h.same_keys, ?_, h.accessed, h.ordered, hpast⟩, rfl, rfl⟩
    intro key
    obtain ⟨expired, hsince, hexpired⟩ := h.recorded key
    exact ⟨expired, hsince, fun t ht => lt_of_lt_of_le (hexpired t ht) hcutoff⟩
  · have hstale : ∀ key ∈ self.stale_keys (now - self.window_seconds),
        self.last_access.contains key = true := by
      intro key hkey
      obtain ⟨last, hlast, -⟩ := mem_stale_keys hkey
      rw [StrDict.contains, hlast]
      rfl
    have hnodup : (self.stale_keys (now - self.window_seconds)).Nodup :=
      self.last_access.nodup.sublist (List.filter_sublist.map _)
    obtain ⟨after, hafter, hwithout⟩ := @forget_all T
      { self with last_prune := now } h.same_keys _ hnodup hstale
    refine ⟨after, hafter, ⟨?_, ?_, ?_, h.ordered, hpast⟩, hwithout.max_events,
      hwithout.window_seconds⟩
    · intro key
      rw [StrDict.contains, StrDict.contains, hwithout.events, hwithout.last_access]
      split_ifs with hkey
      · rfl
      · exact h.same_keys key
    · intro key
      rw [hwithout.window_seconds]
      obtain ⟨expired, hsince, hexpired⟩ := h.recorded key
      have hfind := hwithout.events key
      by_cases hkey : key ∈ self.stale_keys (now - self.window_seconds)
      · -- the whole deque is older than the last access, which is before the cutoff
        obtain ⟨last, hlast, hlt⟩ := mem_stale_keys hkey
        rw [if_pos hkey] at hfind
        have hempty : after.deque key = [] := by
          rw [deque, hfind]
          rfl
        refine ⟨since key log, by rw [hempty, List.append_nil], ?_⟩
        intro t ht
        rw [hsince] at ht
        rcases List.mem_append.mp ht with ht | ht
        · exact lt_of_lt_of_le (hexpired t ht) hcutoff
        · exact lt_of_le_of_lt (h.accessed key last hlast t ht) hlt
      · rw [if_neg hkey] at hfind
        refine ⟨expired, ?_, fun t ht => lt_of_lt_of_le (hexpired t ht) hcutoff⟩
        rw [deque_of_find hfind]
        exact hsince
    · intro key last hlast t ht
      rw [hwithout.last_access] at hlast
      split_ifs at hlast with hkey
      have hfind := hwithout.events key
      rw [if_neg hkey] at hfind
      rw [deque_of_find hfind] at ht
      exact h.accessed key last hlast t ht

omit [IsOrderedAddMonoid T] in
/-- The events in the window that ends now are what is left of the deque. -/
theorem Tracks.recent_eq (h : self.Tracks log now) (key : Str) :
    recent self.window_seconds key log now
      = (self.deque key).dropWhile (· < now - self.window_seconds) ∧
    ∃ expired, since key log
      = expired ++ (self.deque key).dropWhile (· < now - self.window_seconds) ∧
      ∀ t ∈ expired, t < now - self.window_seconds := by
  obtain ⟨expired, hsince, hexpired⟩ := h.recorded key
  have hordered : (self.deque key).Pairwise (· ≤ ·) := by
    have hall := h.ordered key
    rw [hsince] at hall
    exact (List.pairwise_append.mp hall).2.1
  obtain ⟨gone, hdeque, hgone, hkept⟩ := dropWhile_spec hordered (now - self.window_seconds)
  rw [hdeque, ← List.append_assoc] at hsince
  have hold : ∀ t ∈ expired ++ gone, t < now - self.window_seconds := by
    intro t ht
    rcases List.mem_append.mp ht with ht | ht
    · exact hexpired t ht
    · exact hgone t ht
  refine ⟨?_, expired ++ gone, hsince, hold⟩
  rw [recent, hsince, List.filter_append]
  have hnone : (expired ++ gone).filter (now - self.window_seconds ≤ ·) = [] := by
    apply List.filter_eq_nil_iff.mpr
    intro t ht
    simpa using hold t ht
  rw [hnone, List.nil_append]
  apply List.filter_eq_self.mpr
  intro t ht
  simpa using hkept t ht

omit [IsOrderedAddMonoid T] in
/-- The call is answered by the limit, and the tables track the history with it. -/
theorem Tracks.allow_unpruned (h : self.Tracks log now) (key : Str) :
    ((self.allow_unpruned key now).1 = true ↔
      ((recent self.window_seconds key log now).length : ℤ) < self.max_events) ∧
    (self.allow_unpruned key now).2.Tracks (log ++ [.answered key now (self.allow_unpruned key now).1]) now ∧
    (self.allow_unpruned key now).2.max_events = self.max_events ∧
    (self.allow_unpruned key now).2.window_seconds = self.window_seconds := by
  obtain ⟨hrecent, expired, hsince, hexpired⟩ := h.recent_eq key
  rw [hrecent]
  generalize hkept : (self.deque key).dropWhile (· < now - self.window_seconds) = kept at *
  -- what the deque of the key is afterwards, and what the key counts
  obtain ⟨allowed, after, times, hallow, hanswer, hafter, htimes, hcount⟩ :
      ∃ allowed after times, self.allow_unpruned key now = (allowed, after) ∧
        (allowed = true ↔ (kept.length : ℤ) < self.max_events) ∧
        after = { self with events := self.events.set key times
                            last_access := self.last_access.set key now } ∧
        (∀ t ∈ times, t ∈ kept ∨ t = now) ∧
        count key (since key log) (.answered key now allowed) = expired ++ times := by
    rw [SlidingWindowRateLimiter.allow_unpruned, hkept]
    by_cases hfull : self.max_events ≤ kept.length
    · rw [if_pos hfull]
      exact ⟨false, _, kept, rfl, by simp [hfull], rfl, fun t ht => Or.inl ht, by simp [count, hsince]⟩
    · rw [if_neg hfull]
      refine ⟨true, _, kept ++ [now], rfl, by simpa using hfull, rfl, ?_, by simp [count, hsince]⟩
      intro t ht
      rcases List.mem_append.mp ht with ht | ht
      · exact Or.inl ht
      · exact Or.inr (List.mem_singleton.mp ht)
  rw [hallow]
  subst hafter
  have hother : ∀ k, k ≠ key → since k (log ++ [.answered key now allowed]) = since k log := by
    intro k hk
    rw [since_snoc, count_of_other (Ne.symm hk)]
  have hself : since key (log ++ [.answered key now allowed]) = expired ++ times := by
    rw [since_snoc, hcount]
  have hmem : ∀ t ∈ expired ++ times, t ∈ since key log ∨ t = now := by
    intro t ht
    rw [hsince]
    rcases List.mem_append.mp ht with ht | ht
    · exact Or.inl (List.mem_append_left _ ht)
    · rcases htimes t ht with ht | rfl
      · exact Or.inl (List.mem_append_right _ ht)
      · exact Or.inr rfl
  refine ⟨hanswer, ⟨?_, ?_, ?_, ?_, ?_⟩, rfl, rfl⟩
  · intro k
    rw [StrDict.contains_set, StrDict.contains_set, h.same_keys k]
  · intro k
    by_cases hk : k = key
    · subst hk
      refine ⟨expired, ?_, hexpired⟩
      rw [hself, deque, StrDict.find_set, if_pos rfl, Option.getD_some]
    · obtain ⟨old, hold, hlt⟩ := h.recorded k
      refine ⟨old, ?_, hlt⟩
      rw [hother k hk, deque, StrDict.find_set, if_neg hk]
      exact hold
  · intro k last hlast t ht
    rw [StrDict.find_set] at hlast
    rw [deque, StrDict.find_set] at ht
    by_cases hk : k = key
    · subst hk
      rw [if_pos rfl] at hlast ht
      obtain rfl := Option.some.inj hlast
      rcases hmem t (List.mem_append_right _ ht) with ht | rfl
      · exact h.past k t ht
      · exact le_rfl
    · rw [if_neg hk] at hlast ht
      exact h.accessed k last hlast t ht
  · intro k
    by_cases hk : k = key
    · subst hk
      rw [since_snoc]
      simp only [count]
      split_ifs
      · exact List.pairwise_append.mpr ⟨h.ordered k, List.pairwise_singleton _ _,
          fun t ht u hu => (List.mem_singleton.mp hu) ▸ h.past k t ht⟩
      · exact h.ordered k
    · rw [hother k hk]
      exact h.ordered k
  · intro k t ht
    by_cases hk : k = key
    · subst hk
      rw [hself] at ht
      rcases hmem t ht with ht | rfl
      · exact h.past k t ht
      · exact le_rfl
    · rw [hother k hk] at ht
      exact h.past k t ht

omit [IsOrderedAddMonoid T] in
theorem Tracks.reset (h : self.Tracks log clock) (key : Str) :
    (self.reset key).Tracks (log ++ [.cleared key]) clock := by
  have hother : ∀ k, k ≠ key → since k (log ++ [.cleared key]) = since k log := by
    intro k hk
    rw [since_snoc, count_of_other (Ne.symm hk)]
  have hself : since key (log ++ [.cleared key]) = [] := by
    rw [since_snoc, count, if_pos rfl]
  refine ⟨?_, ?_, ?_, ?_, ?_⟩
  · intro k
    rw [SlidingWindowRateLimiter.reset, StrDict.contains_pop, StrDict.contains_pop, h.same_keys k]
  · intro k
    by_cases hk : k = key
    · subst hk
      refine ⟨[], ?_, fun t ht => by cases ht⟩
      rw [hself, deque, SlidingWindowRateLimiter.reset, StrDict.find_pop, if_pos rfl]
      rfl
    · obtain ⟨old, hold, hlt⟩ := h.recorded k
      refine ⟨old, ?_, hlt⟩
      rw [hother k hk, deque, SlidingWindowRateLimiter.reset, StrDict.find_pop, if_neg hk]
      exact hold
  · intro k last hlast t ht
    rw [SlidingWindowRateLimiter.reset, StrDict.find_pop] at hlast
    rw [deque, SlidingWindowRateLimiter.reset, StrDict.find_pop] at ht
    split_ifs at hlast with hk
    rw [if_neg hk] at ht
    exact h.accessed k last hlast t ht
  · intro k
    by_cases hk : k = key
    · rw [hk, hself]
      exact List.Pairwise.nil
    · rw [hother k hk]
      exact h.ordered k
  · intro k t ht
    by_cases hk : k = key
    · rw [hk, hself] at ht
      cases ht
    · rw [hother k hk] at ht
      exact h.past k t ht

/-- Time passes. -/
theorem Tracks.later (h : self.Tracks log clock) (hnow : clock ≤ now) : self.Tracks log now := by
  refine ⟨h.same_keys, ?_, h.accessed, h.ordered, fun key t ht => le_trans (h.past key t ht) hnow⟩
  intro key
  obtain ⟨expired, hsince, hexpired⟩ := h.recorded key
  exact ⟨expired, hsince, fun t ht => lt_of_lt_of_le (hexpired t ht) (sub_le_sub_right hnow _)⟩

/-! ## Runs -/

omit [IsOrderedAddMonoid T] in
/-- A call that got the answer of the limit, after a history that is tracked. -/
structure Answers (start : SlidingWindowRateLimiter T) (log : List (Entry Str T)) (clock : T)
    (c : Request Str T) (e : Entry Str T) (after : SlidingWindowRateLimiter T) : Prop where
  call : e.call = c
  answer : ∀ key now allowed, e = .answered key now allowed →
    (allowed = true ↔ ((recent start.window_seconds key log now).length : ℤ) < start.max_events)
  tracks : after.Tracks (log ++ [e]) (c.time.getD clock)
  max_events : after.max_events = start.max_events
  window_seconds : after.window_seconds = start.window_seconds

omit [IsOrderedAddMonoid T] in
theorem Tracks.answers_allow (h : self.Tracks log now) (clock : T) (key : Str) :
    self.Answers log clock (.allow key now) (.answered key now (self.allow_unpruned key now).1)
      (self.allow_unpruned key now).2 := by
  obtain ⟨hanswer, htracks, hmax, hwindow⟩ := h.allow_unpruned key
  refine ⟨rfl, ?_, htracks, hmax, hwindow⟩
  intro k t allowed heq
  obtain ⟨rfl, rfl, rfl⟩ := Entry.answered.inj heq
  exact hanswer

omit [IsOrderedAddMonoid T] in
theorem Tracks.answers_reset (h : self.Tracks log clock) (key : Str) :
    self.Answers log clock (.reset key) (.cleared key) (self.reset key) := by
  refine ⟨rfl, ?_, h.reset key, rfl, rfl⟩
  intro k t allowed heq
  cases heq

/-- A call does not raise and is answered by the limit. -/
theorem Tracks.call (h : self.Tracks log clock) {c : Request Str T}
    (hc : ∀ t, c.time = some t → clock ≤ t) :
    ∃ e after, self.call c = .ok (e, after) ∧ self.Answers log clock c e after := by
  cases c with
  | allow key now =>
      obtain ⟨pruned, hprune, htracks, hmax, hwindow⟩ := h.prune (hc now rfl)
      obtain ⟨hcall, hanswer, hafter, hmax', hwindow'⟩ := htracks.answers_allow clock key
      refine ⟨_, _, ?_, hcall, ?_, hafter, hmax'.trans hmax, hwindow'.trans hwindow⟩
      · rw [SlidingWindowRateLimiter.call, allow, hprune]
        rfl
      · rw [← hmax, ← hwindow]
        exact hanswer
  | reset key => exact ⟨_, _, rfl, h.answers_reset key⟩

/-- Without the pruning the answers are those of the limit too. -/
theorem Tracks.call_unpruned (h : self.Tracks log clock) {c : Request Str T}
    (hc : ∀ t, c.time = some t → clock ≤ t) :
    self.Answers log clock c (self.call_unpruned c).1 (self.call_unpruned c).2 := by
  cases c with
  | allow key now => exact (h.later (hc now rfl)).answers_allow _ key
  | reset key => exact h.answers_reset key

/-- The calls are made at times that do not decrease, from `clock` on. -/
def Chronological (clock : T) : List (Request Str T) → Prop
  | [] => True
  | c :: rest => (∀ t, c.time = some t → clock ≤ t) ∧ Chronological (c.time.getD clock) rest

omit [AddCommGroup T] [IsOrderedAddMonoid T] in
theorem chronological_of_pairwise {asked : List (Request Str T)} {clock : T}
    (h : (clock :: asked.filterMap Request.time).Pairwise (· ≤ ·)) : Chronological clock asked := by
  induction asked generalizing clock with
  | nil => trivial
  | cons c rest ih =>
      cases hc : c.time with
      | none =>
          rw [List.filterMap_cons_none hc] at h
          refine ⟨?_, ?_⟩
          · intro t ht
            rw [hc] at ht
            cases ht
          · rw [hc]
            exact ih h
      | some now =>
          rw [List.filterMap_cons_some hc, List.pairwise_cons] at h
          refine ⟨?_, ?_⟩
          · intro t ht
            rw [hc] at ht
            obtain rfl := Option.some.inj ht
            exact h.1 _ List.mem_cons_self
          · rw [hc]
            exact ih h.2

theorem Tracks.calls (h : self.Tracks log clock)
    (hlog : Follows self.max_events self.window_seconds log) {asked : List (Request Str T)}
    (hasked : Chronological clock asked) :
    ∃ more after, self.calls asked = .ok (more, after) ∧ more.map Entry.call = asked ∧
      Follows self.max_events self.window_seconds (log ++ more) := by
  induction asked generalizing self log clock with
  | nil => exact ⟨[], self, rfl, rfl, by rwa [List.append_nil]⟩
  | cons c rest ih =>
      obtain ⟨e, after, hcall, hanswers⟩ := h.call hasked.1
      have hnext := hlog.snoc hanswers.answer
      rw [← hanswers.max_events, ← hanswers.window_seconds] at hnext ⊢
      obtain ⟨more, last, hrest, hmap, hfollows⟩ := ih hanswers.tracks hnext hasked.2
      refine ⟨e :: more, last, ?_, ?_, ?_⟩
      · rw [SlidingWindowRateLimiter.calls, hcall, ok_bind]
        dsimp only
        rw [hrest]
        rfl
      · rw [List.map_cons, hanswers.call, hmap]
      · rwa [List.append_assoc, List.singleton_append] at hfollows

theorem Tracks.calls_unpruned (h : self.Tracks log clock)
    (hlog : Follows self.max_events self.window_seconds log) {asked : List (Request Str T)}
    (hasked : Chronological clock asked) :
    (self.calls_unpruned asked).map Entry.call = asked ∧
      Follows self.max_events self.window_seconds (log ++ self.calls_unpruned asked) := by
  induction asked generalizing self log clock with
  | nil => exact ⟨rfl, by rwa [SlidingWindowRateLimiter.calls_unpruned, List.append_nil]⟩
  | cons c rest ih =>
      have hanswers := h.call_unpruned hasked.1
      have hnext := hlog.snoc hanswers.answer
      rw [← hanswers.max_events, ← hanswers.window_seconds] at hnext ⊢
      obtain ⟨hmap, hfollows⟩ := ih hanswers.tracks hnext hasked.2
      refine ⟨?_, ?_⟩
      · rw [SlidingWindowRateLimiter.calls_unpruned, List.map_cons, hanswers.call, hmap]
      · rwa [List.append_assoc, List.singleton_append] at hfollows

end Limiter

/-- The time of the first call that has one can be taken as the start. -/
theorem chronological_from {T : Type} [Zero T] [LinearOrder T] {asked : List (Request Str T)}
    (h : (asked.filterMap Request.time).Pairwise (· ≤ ·)) : ∃ clock, Chronological clock asked := by
  cases hfirst : asked.filterMap Request.time with
  | nil => exact ⟨0, chronological_of_pairwise (by rw [hfirst]; exact List.pairwise_singleton _ _)⟩
  | cons first rest =>
      refine ⟨first, chronological_of_pairwise ?_⟩
      rw [hfirst] at h ⊢
      rw [List.pairwise_cons]
      refine ⟨?_, h⟩
      intro t ht
      rcases List.mem_cons.mp ht with rfl | ht
      · exact le_rfl
      · exact (List.pairwise_cons.mp h).1 t ht

/-- The limiter answers every sequence of calls at times that do not decrease, and
never raises. An event of `key` is allowed exactly when fewer than `max_events` were
allowed since the last reset in the window before it; where the key is not reset, no
closed window holds more; calls for other keys and the pruning change no answer. -/
theorem limiter_refines_limit {T : Type} [AddCommGroup T] [LinearOrder T] [IsOrderedAddMonoid T]
    {max_events : ℤ} (hmax : 0 ≤ max_events) (window : T) {asked : List (Request Str T)}
    (hchron : (asked.filterMap Request.time).Pairwise (· ≤ ·)) :
    ∃ log after, (init max_events window).calls asked = .ok (log, after) ∧
      log.map Entry.call = asked ∧
      (∀ before key now allowed rest, log = before ++ .answered key now allowed :: rest →
        (allowed = true ↔
          (((since key before).filter (now - window ≤ ·)).length : ℤ) < max_events)) ∧
      (∀ before stretch rest key, log = before ++ stretch ++ rest →
        (∀ e ∈ stretch, e ≠ .cleared key) → ∀ start,
        (((allowed_times key stretch).filter
          fun t => start ≤ t ∧ t ≤ start + window).length : ℤ) ≤ max_events) ∧
      (∀ other log' after', (other.filterMap Request.time).Pairwise (· ≤ ·) →
        (init max_events window).calls other = .ok (log', after') → ∀ key,
        asked.filter (·.key = key) = other.filter (·.key = key) →
        log.filter (·.key = key) = log'.filter (·.key = key)) ∧
      (init max_events window).calls_unpruned asked = log := by
  have hruns : ∀ asked : List (Request Str T), (asked.filterMap Request.time).Pairwise (· ≤ ·) →
      ∃ log after, (init max_events window).calls asked = .ok (log, after) ∧
        log.map Entry.call = asked ∧ Follows max_events window log := by
    intro asked hchron
    obtain ⟨clock, hclock⟩ := chronological_from hchron
    exact (tracks_init clock max_events window).calls follows_nil hclock
  obtain ⟨log, after, hcalls, hmap, hfollows⟩ := hruns asked hchron
  obtain ⟨clock, hclock⟩ := chronological_from hchron
  obtain ⟨hmap', hunpruned⟩ := (tracks_init clock max_events window).calls_unpruned
    follows_nil hclock
  refine ⟨log, after, hcalls, hmap, hfollows, ?_, ?_, hunpruned.unique hfollows (hmap'.trans hmap.symm)⟩
  · intro before stretch rest key hlog hclear start
    exact hfollows.window_bound hmax hlog hclear start
  · intro other log' after' hother hcalls' key hsame
    obtain ⟨log'', after'', hcalls'', hmap'', hfollows'⟩ := hruns other hother
    rw [hcalls'] at hcalls''
    obtain ⟨rfl, -⟩ := Prod.mk.inj (Except.ok.inj hcalls'')
    apply hfollows.same_answers hfollows'
    rw [hmap, hmap'']
    exact hsame

/-! ## A key that is reset -/

/-- One event in a window of one second, and a reset between two events. -/
def reset_between : List (Request Str ℤ) :=
  [.allow (lit "k") 0, .reset (lit "k"), .allow (lit "k") 0]

theorem reset_between_refines :
    ∃ log after, (init 1 (1 : ℤ)).calls reset_between = .ok (log, after) ∧
      log.map Entry.call = reset_between ∧
      (∀ before key now allowed rest, log = before ++ .answered key now allowed :: rest →
        (allowed = true ↔ (((since key before).filter (now - 1 ≤ ·)).length : ℤ) < 1)) ∧
      (∀ before stretch rest key, log = before ++ stretch ++ rest →
        (∀ e ∈ stretch, e ≠ .cleared key) → ∀ start,
        (((allowed_times key stretch).filter fun t => start ≤ t ∧ t ≤ start + 1).length : ℤ)
          ≤ 1) ∧
      (∀ other log' after', (other.filterMap Request.time).Pairwise (· ≤ ·) →
        (init 1 (1 : ℤ)).calls other = .ok (log', after') → ∀ key,
        reset_between.filter (·.key = key) = other.filter (·.key = key) →
        log.filter (·.key = key) = log'.filter (·.key = key)) ∧
      (init 1 (1 : ℤ)).calls_unpruned reset_between = log :=
  limiter_refines_limit (by decide) 1 (by decide)

/-- Two allowed events in one closed window, with a limit of one. -/
theorem two_events_in_window :
    (reset_between.filterMap Request.time).Pairwise (· ≤ ·) ∧
    ∃ log after, (init 1 (1 : ℤ)).calls reset_between = .ok (log, after) ∧
      ¬ ∀ start, (((allowed_times (lit "k") log).filter
        fun t => start ≤ t ∧ t ≤ start + 1).length : ℤ) ≤ 1 := by
  refine ⟨by decide, _, _, rfl, fun h => ?_⟩
  exact absurd (h 0) (by decide)

end SlidingWindowRateLimiter

end EasyBlockchain
