/-
`network/rate_limit.py` and `network/server.py`: what a server remembers of addresses.

A limiter keeps two entries for every key it is asked about, and anyone who has many
addresses can ask about many keys. What bounds its tables is `_prune_stale_keys`,
which a call runs at most once in a window. So after a call the limiter has every key
of the window before it, whose answers depend on what it has, and no key that is two
windows old; and what it has of a key are the events that counted for its last call.
-/
import EasyBlockchain.Flooding

set_option autoImplicit false

namespace EasyBlockchain

open Py Lib SlidingWindow

/-! ## Deleting keys -/

namespace SlidingWindowRateLimiter

section Prune

variable {T : Type} [AddCommGroup T] [LinearOrder T] {self after : SlidingWindowRateLimiter T}
  {key : Str}

omit [AddCommGroup T] [LinearOrder T] in
theorem last_prune_of_forget (h : self.forget key = .ok after) :
    after.last_prune = self.last_prune := by
  simp only [forget, bind_eq_ok, pure_eq, Except.ok.injEq] at h
  obtain ⟨events, -, last_access, -, rfl⟩ := h
  rfl

omit [AddCommGroup T] [LinearOrder T] in
theorem last_prune_of_forget_all {keys : List Str} (h : keys.foldlM forget self = .ok after) :
    after.last_prune = self.last_prune := by
  induction keys generalizing self with
  | nil =>
      obtain rfl := Except.ok.inj h
      rfl
  | cons k rest ih =>
      rw [List.foldlM_cons] at h
      obtain ⟨next, hforget, hrest⟩ := bind_eq_ok.mp h
      rw [ih hrest, last_prune_of_forget hforget]

omit [AddCommGroup T] in
theorem stale_of_find {cutoff last : T} (h : self.last_access.find key = some last)
    (hlast : last < cutoff) : key ∈ self.stale_keys cutoff := by
  have hmem := (StrDict.lookup_eq_some_iff_mem self.last_access.nodup).mp h
  exact List.mem_map.mpr ⟨(key, last), List.mem_filter.mpr ⟨hmem, decide_eq_true hlast⟩, rfl⟩

/-- A call deletes nothing, or all stale keys if the last time was a window ago. -/
theorem prune_cases (hsame : self.SameKeys) {now : T}
    (h : self.prune_stale_keys now = .ok after) :
    (now - self.last_prune < self.window_seconds ∧ after = self) ∨
    (after.last_prune = now ∧ self.Without (self.stale_keys (now - self.window_seconds)) after) := by
  unfold prune_stale_keys at h
  split_ifs at h with hrecent
  · exact Or.inl ⟨hrecent, (Except.ok.inj h).symm⟩
  · refine Or.inr ⟨last_prune_of_forget_all h, ?_⟩
    have hstale : ∀ key ∈ self.stale_keys (now - self.window_seconds),
        self.last_access.contains key = true := by
      intro key hkey
      obtain ⟨last, hlast, -⟩ := mem_stale_keys hkey
      rw [StrDict.contains, hlast]
      rfl
    have hnodup : (self.stale_keys (now - self.window_seconds)).Nodup :=
      self.last_access.nodup.sublist (List.filter_sublist.map _)
    obtain ⟨after', hafter, hwithout⟩ := @forget_all T
      { self with last_prune := now } hsame _ hnodup hstale
    obtain rfl := Except.ok.inj (h.symm.trans hafter)
    exact ⟨hwithout.max_events, hwithout.window_seconds, hwithout.events, hwithout.last_access⟩

/-- A call writes the two entries of its key. -/
theorem allow_unpruned_writes (self : SlidingWindowRateLimiter T) (key : Str) (now : T) :
    ∃ times, (self.allow_unpruned key now).2 = { self with
      events := self.events.set key times
      last_access := self.last_access.set key now } := by
  rw [allow_unpruned]
  split_ifs
  · exact ⟨_, rfl⟩
  · exact ⟨_, rfl⟩

end Prune

end SlidingWindowRateLimiter

/-! ## What a limiter remembers -/

namespace LimitedServer

section Memory

/-- The tables of a limiter that pruned less than a window before `now`, if it did so
whenever it had to. -/
structure Remembers (limiter : SlidingWindowRateLimiter ℚ) (window : ℚ)
    (log : List (Entry Str ℚ)) (now : ℚ) : Prop where
  pruned_past : limiter.last_prune ≤ now
  pruned : now < limiter.last_prune + window
  accessed : ∀ key last, limiter.last_access.find key = some last →
    limiter.last_prune ≤ last + window ∧ last ∈ asked_times key log ∧
      ∀ t ∈ asked_times key log, t ≤ last
  forgotten : ∀ key, limiter.last_access.find key = none →
    ∀ t ∈ asked_times key log, t + window < limiter.last_prune
  recorded : ∀ key last, limiter.last_access.find key = some last →
    limiter.deque key = (allowed_times key log).filter (last - window ≤ ·)

variable {limiter after : SlidingWindowRateLimiter ℚ} {limit : ℤ} {window clock now : ℚ}
  {log : List (Entry Str ℚ)} {key : Str} {allowed : Bool}

theorem remembers_init (limit : ℤ) (hwindow : 0 < window) :
    Remembers (.init limit window) window [] 0 where
  pruned_past := le_refl 0
  pruned := by
    change (0 : ℚ) < 0 + window
    rwa [zero_add]
  accessed _ _ h := by cases h
  forgotten _ _ _ ht := absurd ht List.not_mem_nil
  recorded _ _ h := by cases h

/-- Pruning leaves the keys that were asked about since a window before. -/
theorem Remembers.prune (h : Remembers limiter window log clock) (hnow : clock ≤ now)
    (hwindow : limiter.window_seconds = window) (hpos : 0 < window) (hsame : limiter.SameKeys)
    (hprune : limiter.prune_stale_keys now = .ok after) : Remembers after window log now := by
  subst hwindow
  rcases SlidingWindowRateLimiter.prune_cases hsame hprune with ⟨hrecent, rfl⟩ | ⟨hlast, hwithout⟩
  · exact ⟨h.pruned_past.trans hnow, by linarith, h.accessed, h.forgotten, h.recorded⟩
  · -- all that was last accessed before the window is gone, and nothing else
    have hkept : ∀ key last, after.last_access.find key = some last →
        limiter.last_access.find key = some last ∧
          key ∉ limiter.stale_keys (now - limiter.window_seconds) := by
      intro key last hfind
      rw [hwithout.last_access] at hfind
      split_ifs at hfind with hkey
      exact ⟨hfind, hkey⟩
    refine ⟨hlast.le, by linarith, ?_, ?_, ?_⟩
    · intro key last hfind
      obtain ⟨hfind, hkey⟩ := hkept key last hfind
      obtain ⟨-, hmem, hmax⟩ := h.accessed key last hfind
      have hfresh : now - limiter.window_seconds ≤ last :=
        not_lt.mp fun hlt => hkey (SlidingWindowRateLimiter.stale_of_find hfind hlt)
      exact ⟨by linarith, hmem, hmax⟩
    · intro key hnone t ht
      rw [hlast]
      -- a key that is missing was deleted now, or was missing before
      rw [hwithout.last_access] at hnone
      split_ifs at hnone with hkey
      · obtain ⟨last, hfind, hlt⟩ := SlidingWindowRateLimiter.mem_stale_keys hkey
        have hle := (h.accessed key last hfind).2.2 t ht
        linarith
      · have hold := h.forgotten key hnone t ht
        have hpast := h.pruned_past
        linarith
    · intro key last hfind
      obtain ⟨hfind, hkey⟩ := hkept key last hfind
      have hevents := hwithout.events key
      rw [if_neg hkey] at hevents
      rw [SlidingWindowRateLimiter.deque_of_find hevents]
      exact h.recorded key last hfind

theorem allowed_times_answered (key k : Str) (log : List (Entry Str ℚ)) (now : ℚ) (allowed : Bool) :
    allowed_times k (log ++ [.answered key now allowed])
      = allowed_times k log ++ if key = k ∧ allowed = true then [now] else [] := by
  rw [allowed_times_snoc, Entry.event]
  split_ifs
  · rfl
  · rfl

/-- Without clearing, what counts for a key are its allowed events. -/
theorem Counted.recent_eq (h : Counted limiter limit window log clock) (key : Str) (now : ℚ) :
    recent window key log now = (allowed_times key log).filter (now - window ≤ ·) := by
  have hall : since key log = allowed_times key log := by
    have happend : since key ([] ++ log) = since key [] ++ allowed_times key log :=
      since_append [] fun e he heq => h.uncleared key (heq ▸ he)
    simpa [since] using happend
  rw [recent, hall]

/-- What the deque of a key is after a call for it. -/
theorem Counted.deque_eq (h : Counted limiter limit window log now) (key : Str) :
    (limiter.allow_unpruned key now).2.deque key
      = (allowed_times key log).filter (now - window ≤ ·)
        ++ if (limiter.allow_unpruned key now).1 = true then [now] else [] := by
  obtain ⟨hrecent, -⟩ := h.tracks.recent_eq key
  rw [h.window_seconds, h.recent_eq] at hrecent
  rw [hrecent, SlidingWindowRateLimiter.allow_unpruned, h.window_seconds]
  by_cases hlimit : limiter.max_events
      ≤ ((limiter.deque key).dropWhile (· < now - window)).length
  · rw [if_pos hlimit, SlidingWindowRateLimiter.deque, StrDict.find_set, if_pos rfl]
    exact (List.append_nil _).symm
  · rw [if_neg hlimit, SlidingWindowRateLimiter.deque, StrDict.find_set, if_pos rfl]
    rfl

/-- A call after the pruning. -/
theorem Remembers.allow_unpruned (h : Remembers limiter window log now) (hpos : 0 < window)
    (hcounted : Counted limiter limit window log now) (key : Str) :
    Remembers (limiter.allow_unpruned key now).2 window
      (log ++ [.answered key now (limiter.allow_unpruned key now).1]) now := by
  have hdeque := hcounted.deque_eq key
  obtain ⟨times, hwrites⟩ := limiter.allow_unpruned_writes key now
  generalize (limiter.allow_unpruned key now).1 = allowed at hdeque ⊢
  rw [hwrites] at hdeque ⊢
  have hfind : ∀ k, (limiter.last_access.set key now).find k
      = if k = key then some now else limiter.last_access.find k :=
    fun k => StrDict.find_set ..
  have hother : ∀ k, k ≠ key →
      ({ limiter with
        events := limiter.events.set key times
        last_access := limiter.last_access.set key now } : SlidingWindowRateLimiter ℚ).deque k
          = limiter.deque k := by
    intro k hk
    apply SlidingWindowRateLimiter.deque_of_find
    rw [StrDict.find_set, if_neg hk]
  refine ⟨h.pruned_past, h.pruned, ?_, ?_, ?_⟩
  · intro k last hlast
    rw [hfind] at hlast
    rw [asked_times_snoc]
    by_cases hk : k = key
    · subst hk
      rw [if_pos rfl] at hlast ⊢
      obtain rfl := Option.some.inj hlast
      refine ⟨by linarith [h.pruned_past], by simp, ?_⟩
      intro t ht
      rcases List.mem_append.mp ht with ht | ht
      · exact hcounted.past k t ht
      · exact (List.mem_singleton.mp ht).le
    · rw [if_neg hk] at hlast
      rw [if_neg (Ne.symm hk), List.append_nil]
      exact h.accessed k last hlast
  · intro k hnone
    rw [hfind] at hnone
    rw [asked_times_snoc]
    by_cases hk : k = key
    · rw [if_pos hk] at hnone
      cases hnone
    · rw [if_neg hk] at hnone
      rw [if_neg (Ne.symm hk), List.append_nil]
      exact h.forgotten k hnone
  · intro k last hlast
    rw [hfind] at hlast
    rw [allowed_times_answered]
    by_cases hk : k = key
    · subst hk
      rw [if_pos rfl] at hlast
      obtain rfl := Option.some.inj hlast
      rw [hdeque, List.filter_append]
      -- the event that is recorded, if any, lies in the window that ends with it
      congr 1
      cases allowed with
      | false => simp
      | true => simp [hpos.le]
    · rw [if_neg hk] at hlast
      rw [if_neg fun hkey => hk hkey.1.symm, List.append_nil, hother k hk]
      exact h.recorded k last hlast

/-- The step lemma. -/
theorem Remembers.allow {last : ℚ} (h : Remembers limiter window log last) (hlast : last ≤ clock)
    (hpos : 0 < window) (hcounted : Counted limiter limit window log clock) (hnow : clock ≤ now)
    (hallow : limiter.allow key now = .ok (allowed, after)) :
    Remembers after window (log ++ [.answered key now allowed]) now := by
  obtain ⟨pruned, hprune, hpruned⟩ := hcounted.prune hnow
  rw [SlidingWindowRateLimiter.allow, hprune, ok_bind] at hallow
  obtain ⟨rfl, rfl⟩ := Prod.mk.inj (Except.ok.inj hallow)
  have hready := h.prune (hlast.trans hnow) hcounted.window_seconds hpos hcounted.tracks.same_keys hprune
  exact hready.allow_unpruned hpos hpruned key

/-- The time of the last call, 0 before there is one. -/
def latest (log : List (Entry Str ℚ)) : ℚ := (log.filterMap (·.call.time)).getLast?.getD 0

theorem latest_snoc (key : Str) (log : List (Entry Str ℚ)) (now : ℚ) (allowed : Bool) :
    latest (log ++ [.answered key now allowed]) = now := by
  simp [latest, Entry.call, Request.time]

/-- What is left of the calls in the tables of a limiter. -/
structure Memory (limiter : SlidingWindowRateLimiter ℚ) (limit : ℤ) (window : ℚ)
    (log : List (Entry Str ℚ)) : Prop where
  same_keys : ∀ key, limiter.events.contains key = limiter.last_access.contains key
  /-- A key is there for a window after a call. -/
  kept : ∀ key, ∀ t ∈ asked_times key log, latest log ≤ t + window →
    limiter.events.contains key = true
  /-- After two windows it is gone. -/
  forgotten : ∀ key, limiter.events.contains key = true →
    ∃ t ∈ asked_times key log, latest log < t + 2 * window
  /-- The deque of a key has the events that counted for its last call. -/
  recorded : ∀ key times, limiter.events.find key = some times →
    (∃ last ∈ asked_times key log, (∀ t ∈ asked_times key log, t ≤ last) ∧
      times = (allowed_times key log).filter (last - window ≤ ·)) ∧
    (times.length : ℤ) ≤ max limit 0

theorem allowed_times_subset (key : Str) (log : List (Entry Str ℚ)) :
    ∀ t ∈ allowed_times key log, t ∈ asked_times key log := by
  intro t ht
  obtain ⟨e, he, hevent⟩ := List.mem_filterMap.mp ht
  refine List.mem_filterMap.mpr ⟨e, he, ?_⟩
  cases e with
  | answered k now allowed =>
      simp only [Entry.event] at hevent
      split_ifs at hevent with hk
      rw [Entry.ask, if_pos hk.1]
      exact hevent
  | cleared k => cases hevent

theorem Remembers.memory (h : Remembers limiter window log (latest log))
    (hcounted : Counted limiter limit window log clock) : Memory limiter limit window log := by
  have hsame := hcounted.tracks.same_keys
  -- a key that is in one of the tables was accessed
  have hfind : ∀ key, limiter.events.contains key = true →
      ∃ last, limiter.last_access.find key = some last := by
    intro key hkey
    rw [hsame key] at hkey
    exact Option.isSome_iff_exists.mp hkey
  refine ⟨hsame, ?_, ?_, ?_⟩
  · intro key t ht hlatest
    by_contra hgone
    rw [hsame key, StrDict.contains, Bool.not_eq_true, Option.isSome_eq_false_iff,
      Option.isNone_iff_eq_none] at hgone
    have hold := h.forgotten key hgone t ht
    linarith [h.pruned_past]
  · intro key hkey
    obtain ⟨last, hlast⟩ := hfind key hkey
    obtain ⟨hfresh, hmem, -⟩ := h.accessed key last hlast
    exact ⟨last, hmem, by linarith [h.pruned]⟩
  · intro key times htimes
    obtain ⟨last, hlast⟩ := hfind key (by rw [StrDict.contains, htimes]; rfl)
    obtain ⟨-, hmem, hmax⟩ := h.accessed key last hlast
    have hdeque := h.recorded key last hlast
    rw [SlidingWindowRateLimiter.deque, htimes, Option.getD_some] at hdeque
    refine ⟨⟨last, hmem, hmax, hdeque⟩, ?_⟩
    have hbound := hcounted.window_bound key (last - window)
    have hwindow : (allowed_times key log).filter
        (fun u => last - window ≤ u ∧ u ≤ last - window + window) = times := by
      rw [hdeque]
      apply List.filter_congr
      intro t ht
      have hle := hmax t (allowed_times_subset key log t ht)
      simp [hle]
    rwa [hwindow] at hbound

end Memory

/-! ## Runs -/

section Runs

variable [Runtime] {server after : LimitedServer} {event : TrafficEvent} {reactions : List Reaction}
  {trace : List Reaction} {clock : ℚ}

/-- What an event has to do with a limiter: nothing, or one call. -/
inductive Asks (limiter : SlidingWindowRateLimiter ℚ) (time : Option ℚ) :
    List (Entry Str ℚ) → SlidingWindowRateLimiter ℚ → Prop
  | nothing : Asks limiter time [] limiter
  | call {key : Str} {now : ℚ} {allowed : Bool} {after : SlidingWindowRateLimiter ℚ}
      (htime : time = some now) (h : limiter.allow key now = .ok (allowed, after)) :
      Asks limiter time [.answered key now allowed] after

theorem asks_of_step (h : server.step event = .ok (reactions, after)) :
    Asks server.connection_limiter event.time (admissions reactions) after.connection_limiter ∧
      Asks server.message_limiter event.time (readings reactions) after.message_limiter := by
  have hnone : ∀ key act, (.ok ([], server.update key act) : PyM (List Reaction × LimitedServer))
      = .ok (reactions, after) →
      Asks server.connection_limiter event.time (admissions reactions) after.connection_limiter ∧
        Asks server.message_limiter event.time (readings reactions) after.message_limiter := by
    intro key act heq
    obtain ⟨rfl, rfl⟩ := Prod.mk.inj (Except.ok.inj heq)
    exact ⟨.nothing, .nothing⟩
  cases event with
  | connects client_ip peer_id room now =>
      change server.handle_connection client_ip peer_id room now = _ at h
      obtain ⟨⟨allowed, limiter⟩, hallow, h⟩ := bind_eq_ok.mp h
      have hcall : Asks server.connection_limiter (some now)
          (admissions [.admits client_ip now allowed]) limiter := .call rfl hallow
      cases allowed with
      | false =>
          obtain ⟨rfl, rfl⟩ := Prod.mk.inj (Except.ok.inj h)
          exact ⟨hcall, .nothing⟩
      | true =>
          cases room with
          | false =>
              obtain ⟨rfl, rfl⟩ := Prod.mk.inj (Except.ok.inj h)
              exact ⟨hcall, .nothing⟩
          | true =>
              obtain ⟨rfl, rfl⟩ := Prod.mk.inj (Except.ok.inj h)
              exact ⟨hcall, .nothing⟩
  | frame key i raw now =>
      change server.receive key i raw now = _ at h
      rw [receive] at h
      split at h
      · obtain ⟨rfl, rfl⟩ := Prod.mk.inj (Except.ok.inj h)
        exact ⟨.nothing, .nothing⟩
      · split_ifs at h
        · obtain ⟨⟨allowed, limiter⟩, hallow, h⟩ := bind_eq_ok.mp h
          obtain ⟨rfl, rfl⟩ := Prod.mk.inj (Except.ok.inj h)
          exact ⟨.nothing, .call rfl hallow⟩
        · obtain ⟨rfl, rfl⟩ := Prod.mk.inj (Except.ok.inj h)
          exact ⟨.nothing, .nothing⟩
  | dialed host peer_id => exact hnone host _ h
  | authenticates key i => exact hnone key _ h
  | closes key i => exact hnone key _ h
  | ends key i => exact hnone key _ h

omit [Runtime] in
/-- A limiter that is asked in time goes on remembering. -/
theorem Remembers.asks {limiter after : SlidingWindowRateLimiter ℚ} {limit : ℤ} {window : ℚ}
    {log entries : List (Entry Str ℚ)} {time : Option ℚ}
    (h : Remembers limiter window log (latest log) ∧ latest log ≤ clock) (hpos : 0 < window)
    (hcounted : Counted limiter limit window log clock)
    (htime : ∀ t, time = some t → clock ≤ t) (hasks : Asks limiter time entries after) :
    Remembers after window (log ++ entries) (latest (log ++ entries)) ∧
      latest (log ++ entries) ≤ time.getD clock := by
  cases hasks with
  | nothing =>
      rw [List.append_nil]
      refine ⟨h.1, h.2.trans ?_⟩
      cases hnow : time with
      | none => exact le_refl clock
      | some now => exact htime now hnow
  | call hnow hallow =>
      rw [latest_snoc, hnow]
      exact ⟨h.1.allow h.2 hpos hcounted (htime _ hnow) hallow, le_refl _⟩

/-- Both limiters remember what the server did. -/
structure Keeps (server : LimitedServer) (trace : List Reaction) (clock : ℚ) : Prop where
  connections : Remembers server.connection_limiter 60 (admissions trace)
    (latest (admissions trace)) ∧ latest (admissions trace) ≤ clock
  messages : Remembers server.message_limiter 1 (readings trace) (latest (readings trace)) ∧
    latest (readings trace) ≤ clock

omit [Runtime] in
theorem keeps_start (rate_limit : RateLimitSettings) (peer_auth_enabled : Bool) :
    (start rate_limit peer_auth_enabled).Keeps [] 0 :=
  ⟨⟨remembers_init _ (by norm_num), le_refl 0⟩, ⟨remembers_init _ (by norm_num), le_refl 0⟩⟩

/-- The step lemma. -/
theorem Keeps.step (h : server.Keeps trace clock) (hcounts : server.Counts trace clock)
    (htime : ∀ t, event.time = some t → clock ≤ t)
    (hstep : server.step event = .ok (reactions, after)) :
    after.Keeps (trace ++ reactions) (event.time.getD clock) := by
  obtain ⟨hconnection, hmessage⟩ := asks_of_step hstep
  refine ⟨?_, ?_⟩
  · rw [admissions_append]
    exact Remembers.asks h.connections (by norm_num) hcounts.connections htime hconnection
  · rw [readings_append]
    exact Remembers.asks h.messages (by norm_num) hcounts.messages htime hmessage

/-- The run lemma. -/
theorem Keeps.run (h : server.Keeps trace clock) (hcounts : server.Counts trace clock)
    {events : List TrafficEvent}
    (htimes : (clock :: events.filterMap TrafficEvent.time).Pairwise (· ≤ ·)) :
    ∃ reactions last later, server.run events = .ok (reactions, last) ∧
      last.Keeps (trace ++ reactions) later ∧ last.Counts (trace ++ reactions) later ∧
        SameSettings server last := by
  induction events generalizing server trace clock with
  | nil =>
      rw [← List.append_nil trace] at h hcounts
      exact ⟨[], server, clock, rfl, h, hcounts, rfl, rfl⟩
  | cons event rest ih =>
      obtain ⟨htime, hrest⟩ := times_cons htimes
      obtain ⟨after, hreacts⟩ := hcounts.step htime
      have hkeeps := h.step hcounts htime hreacts.step
      obtain ⟨reactions, last, later, hrun, hkept, hcounted, hsettings⟩ :=
        ih hkeeps hreacts.counts hrest
      refine ⟨_, last, later, run_cons hreacts.step hrun, ?_, ?_, hreacts.settings.trans hsettings⟩
      · rw [← List.append_assoc]
        exact hkept
      · rw [← List.append_assoc]
        exact hcounted

/-- Floods are forgotten. Whatever reached a server whose clock starts at 0 or later,
each of its limiters has the addresses that it was asked about in the window before
its last call, none that it was not asked about in the last two windows, and for each
of them the events that counted for its last answer, within the limit. -/
theorem floods_forgotten (rate_limit : RateLimitSettings) (peer_auth_enabled : Bool)
    {events : List TrafficEvent}
    (htimes : (0 :: events.filterMap TrafficEvent.time).Pairwise (· ≤ ·)) :
    ∃ trace last, (start rate_limit peer_auth_enabled).run events = .ok (trace, last) ∧
      Memory last.connection_limiter rate_limit.max_connections_per_ip_per_minute 60
        (admissions trace) ∧
      Memory last.message_limiter rate_limit.max_messages_per_peer_per_second 1 (readings trace) := by
  obtain ⟨trace, last, later, hrun, hkeeps, hcounts, hsettings⟩ :=
    (keeps_start rate_limit peer_auth_enabled).run
      (counts_start rate_limit peer_auth_enabled 0) htimes
  rw [List.nil_append] at hkeeps hcounts
  have hrate : last.rate_limit = rate_limit := hsettings.rate_limit
  have hconnections := hkeeps.connections.1.memory hcounts.connections
  have hmessages := hkeeps.messages.1.memory hcounts.messages
  rw [hrate] at hconnections hmessages
  exact ⟨trace, last, hrun, hconnections, hmessages⟩

end Runs

end LimitedServer

/-! ## An address that does not come back -/

namespace ThreeVisits

attribute [local instance] cpython

def first : Str := lit "10.0.0.1"

def second : Str := lit "10.0.0.2"

/-- An address, and another one a minute later and once more. -/
def traffic : List TrafficEvent :=
  [.connects first (lit "a") true 0, .connects second (lit "b") true 60,
    .connects second (lit "c") true 121]

theorem first_is_forgotten : ∃ trace last,
    (LimitedServer.start TwoAddresses.rate_limit false).run traffic = .ok (trace, last) ∧
      last.connection_limiter.events.contains first = false ∧
      LimitedServer.Memory last.connection_limiter 2 60 (LimitedServer.admissions trace) := by
  have hordered : (0 :: traffic.filterMap TrafficEvent.time).Pairwise (· ≤ ·) := by decide +kernel
  obtain ⟨trace, last, hrun, hmemory, -⟩ :=
    LimitedServer.floods_forgotten TwoAddresses.rate_limit false hordered
  have hgone : ((LimitedServer.start TwoAddresses.rate_limit false).run traffic).map
      (fun p => p.2.connection_limiter.events.contains first) = .ok false := by decide +kernel
  rw [hrun] at hgone
  exact ⟨trace, last, hrun, Except.ok.inj hgone, hmemory⟩

end ThreeVisits

end EasyBlockchain
