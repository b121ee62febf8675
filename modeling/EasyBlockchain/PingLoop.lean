/-
`Node._ping_loop` and the handler of PONG: when a silent peer is closed.

The loop writes the time of an outstanding PING, the handler the time of the last
PONG; the two are compared at every iteration. What the two times mean is said on the
history of a peer since its registration: while the peer is open and has not answered,
the PING time is that of the earliest iteration after its last PONG.

An iteration reads the clock once and then looks at one peer after the other. A PONG
may be handled in between, while the loop waits for another peer to close; so the
check of a peer is an event of its own. Times are those of any ordered group.
-/
import EasyBlockchain.Lib.Run
import EasyBlockchain.Py.StrDict
import Mathlib.Algebra.Order.Group.Int

set_option autoImplicit false

namespace EasyBlockchain

open Py Lib

/-- The part of `PeerConnection` that the loop looks at. -/
structure PingState (T : Type) where
  last_ping_at : Option T
  last_pong_at : Option T
  closed : Bool
  deriving DecidableEq

/-- What happens to the peers of a node. -/
inductive PingEvent (T : Type)
  | registers (peer_id : Str)
  | unregisters (peer_id : Str)
  /-- the connection is closed for another reason -/
  | closes (peer_id : Str)
  /-- the iteration with `now = t` looks at the peer -/
  | checks (peer_id : Str) (t : T)
  | pong (peer_id : Str) (t : T)

structure PingNode (T : Type) where
  pong_timeout_seconds : T
  peers : StrDict (PingState T)

/-- What happens to one peer. -/
inductive PeerEvent (T : Type)
  | check (t : T)
  | pong (t : T)
  | close
  deriving DecidableEq

/-! ## The code -/

namespace PingState

variable {T : Type} [AddCommGroup T] [LinearOrder T]

/-- `PeerConnection.__init__`. -/
def fresh : PingState T := ⟨none, none, false⟩

/-- `peer.last_pong_at is None or peer.last_pong_at < peer.last_ping_at`. -/
def unanswered (self : PingState T) (ping : T) : Bool :=
  match self.last_pong_at with
  | none => true
  | some pong => pong < ping

/-- The first `if` of the loop after `peer.closed`. -/
def timed_out (self : PingState T) (pong_timeout now : T) : Bool :=
  match self.last_ping_at with
  | none => false
  | some ping => self.unanswered ping && pong_timeout < now - ping

/-- The second `if`. -/
def pings_again (self : PingState T) : Bool :=
  match self.last_ping_at with
  | none => true
  | some ping =>
    match self.last_pong_at with
    | none => false
    | some pong => ping ≤ pong

/-- The body of the loop over the peers. -/
def check (self : PingState T) (pong_timeout now : T) : PingState T :=
  if self.closed then self
  else if self.timed_out pong_timeout now then { self with closed := true }
  else if self.pings_again then { self with last_ping_at := some now }
  else self

def apply (pong_timeout : T) (self : PingState T) : PeerEvent T → PingState T
  | .check t => self.check pong_timeout t
  | .pong t => { self with last_pong_at := some t }
  | .close => { self with closed := true }

end PingState

namespace PingNode

section Node

variable {T : Type} [AddCommGroup T] [LinearOrder T]

def init (pong_timeout_seconds : T) : PingNode T := ⟨pong_timeout_seconds, .empty⟩

/-- An event of a peer that is in the table; `peers.get(peer_id)` finds no other. -/
def act (self : PingNode T) (peer_id : Str) (e : PeerEvent T) : PingNode T :=
  { self with peers := self.peers.modify peer_id (·.apply self.pong_timeout_seconds e) }

def step (self : PingNode T) : PingEvent T → PingNode T
  | .registers peer_id => { self with peers := self.peers.set peer_id .fresh }
  | .unregisters peer_id => { self with peers := self.peers.pop peer_id }
  | .closes peer_id => self.act peer_id .close
  | .checks peer_id t => self.act peer_id (.check t)
  | .pong peer_id t => self.act peer_id (.pong t)

/-- The events of one iteration: `for peer_id, peer in list(self.p2p.peers.items())`. -/
def iteration (self : PingNode T) (now : T) : List (PingEvent T) :=
  self.peers.keys.map (.checks · now)

end Node

/-! ## The history of a peer -/

section History

variable {T : Type}

/-- The events of a peer since it was registered, `none` while it is not. -/
def record (peer_id : Str) (h : Option (List (PeerEvent T))) : PingEvent T → Option (List (PeerEvent T))
  | .registers k => if k = peer_id then some [] else h
  | .unregisters k => if k = peer_id then none else h
  | .closes k => if k = peer_id then h.map (· ++ [.close]) else h
  | .checks k t => if k = peer_id then h.map (· ++ [.check t]) else h
  | .pong k t => if k = peer_id then h.map (· ++ [.pong t]) else h

def history (peer_id : Str) (events : List (PingEvent T)) : Option (List (PeerEvent T)) :=
  events.foldl (record peer_id) none

/-- The times of the iterations that looked at the peer. -/
def iterations (h : List (PeerEvent T)) : List T :=
  h.filterMap fun
    | .check t => some t
    | _ => none

/-- The time of the last PONG of the peer. -/
def last_pong (h : List (PeerEvent T)) : Option T :=
  (h.filterMap fun
    | .pong t => some t
    | _ => none).getLast?

variable {h : List (PeerEvent T)} {t : T}

@[simp] theorem iterations_check : iterations (h ++ [.check t]) = iterations h ++ [t] := by
  simp [iterations]

@[simp] theorem iterations_pong : iterations (h ++ [.pong t]) = iterations h := by
  simp [iterations]

@[simp] theorem iterations_close : iterations (h ++ [.close]) = iterations h := by
  simp [iterations]

@[simp] theorem last_pong_check : last_pong (h ++ [.check t]) = last_pong h := by
  simp [last_pong]

@[simp] theorem last_pong_pong : last_pong (h ++ [.pong t]) = some t := by
  simp [last_pong]

@[simp] theorem last_pong_close : last_pong (h ++ [.close]) = last_pong h := by
  simp [last_pong]

variable [LinearOrder T]

/-- The iteration at `s` is later than the last PONG, if there was one. -/
def AfterPong (h : List (PeerEvent T)) (s : T) : Prop := ∀ p, last_pong h = some p → p < s

/-- `s` is the earliest iteration after the last PONG. -/
structure Earliest (h : List (PeerEvent T)) (s : T) : Prop where
  mem : s ∈ iterations h
  after : AfterPong h s
  least : ∀ s' ∈ iterations h, AfterPong h s' → s ≤ s'

theorem Earliest.unique {s s' : T} (hs : Earliest h s) (hs' : Earliest h s') : s = s' :=
  le_antisymm (hs.least s' hs'.mem hs'.after) (hs'.least s hs.mem hs.after)

/-- The next event takes place later than the iterations before it, and no PONG at the
time of an iteration. -/
def FitsAfter (h : List (PeerEvent T)) : PeerEvent T → Prop
  | .check t => (∀ s ∈ iterations h, s < t) ∧ ∀ p, last_pong h = some p → p ≠ t
  | .pong t => ∀ s ∈ iterations h, s < t
  | .close => True

def Timed (h : List (PeerEvent T)) : Prop :=
  ∀ before e after, h = before ++ e :: after → FitsAfter before e

theorem Timed.of_append {after : List (PeerEvent T)} (htimed : Timed (h ++ after)) : Timed h := by
  intro before e rest heq
  refine htimed before e (rest ++ after) ?_
  rw [heq, List.append_assoc, List.cons_append]

theorem Timed.last {e : PeerEvent T} (htimed : Timed (h ++ [e])) : FitsAfter h e :=
  htimed h e [] rfl

end History

/-! ## The state of a peer is read off its history -/

section Tracking

variable {T : Type} [AddCommGroup T] [LinearOrder T] {timeout : T}

/-- The state of a peer with this history. -/
def state_after (timeout : T) (h : List (PeerEvent T)) : PingState T :=
  h.foldl (PingState.apply timeout) .fresh

theorem state_after_snoc (h : List (PeerEvent T)) (e : PeerEvent T) :
    state_after timeout (h ++ [e]) = (state_after timeout h).apply timeout e := by
  rw [state_after, List.foldl_append, List.foldl_cons, List.foldl_nil, state_after]

theorem step_timeout (self : PingNode T) (e : PingEvent T) :
    (self.step e).pong_timeout_seconds = self.pong_timeout_seconds := by
  cases e <;> rfl

theorem run_timeout (events : List (PingEvent T)) :
    (run step (init timeout) events).pong_timeout_seconds = timeout := by
  induction events using List.reverseRecOn with
  | nil => rfl
  | append_singleton events e ih =>
      rw [run_append]
      exact (step_timeout _ e).trans ih

theorem find_act (self : PingNode T) (k peer_id : Str) (e : PeerEvent T) :
    (self.act k e).peers.find peer_id = if peer_id = k
      then (self.peers.find peer_id).map (·.apply self.pong_timeout_seconds e)
      else self.peers.find peer_id :=
  StrDict.find_modify _ _ _ _

/-- The table holds the peers that are registered, in the state of their history. -/
theorem find_run (timeout : T) (peer_id : Str) (events : List (PingEvent T)) :
    (run step (init timeout) events).peers.find peer_id
      = (history peer_id events).map (state_after timeout) := by
  induction events using List.reverseRecOn with
  | nil => rfl
  | append_singleton events e ih =>
      have hact : ∀ (k : Str) (e : PeerEvent T),
          ((run step (init timeout) events).act k e).peers.find peer_id
            = (if k = peer_id then (history peer_id events).map (· ++ [e])
                else history peer_id events).map (state_after timeout) := by
        intro k e
        rw [find_act, ih, run_timeout]
        by_cases hk : k = peer_id
        · rw [if_pos hk, if_pos hk.symm, Option.map_map, Option.map_map]
          congr 1
          funext h
          exact (state_after_snoc h e).symm
        · rw [if_neg hk, if_neg (Ne.symm hk)]
      have hhistory : history peer_id (events ++ [e]) = record peer_id (history peer_id events) e := by
        rw [history, List.foldl_append, List.foldl_cons, List.foldl_nil, history]
      rw [run_append, hhistory]
      change ((run step (init timeout) events).step e).peers.find peer_id = _
      cases e with
      | registers k =>
          rw [step, StrDict.find_set, ih, record]
          by_cases hk : k = peer_id
          · rw [if_pos hk, if_pos hk.symm]
            rfl
          · rw [if_neg hk, if_neg (Ne.symm hk)]
      | unregisters k =>
          rw [step, StrDict.find_pop, ih, record]
          by_cases hk : k = peer_id
          · rw [if_pos hk, if_pos hk.symm]
            rfl
          · rw [if_neg hk, if_neg (Ne.symm hk)]
      | closes k => exact hact k .close
      | checks k t => exact hact k (.check t)
      | pong k t => exact hact k (.pong t)

/-! ### The two times -/

/-- What the times of an open peer say of its history. -/
structure Tracks (h : List (PeerEvent T)) (peer : PingState T) : Prop where
  pong : peer.last_pong_at = last_pong h
  none : peer.closed = false → peer.last_ping_at = none → iterations h = []
  mem : peer.closed = false → ∀ s, peer.last_ping_at = some s → s ∈ iterations h
  outstanding : peer.closed = false → ∀ s, peer.last_ping_at = some s → AfterPong h s → Earliest h s
  answered : peer.closed = false → ∀ s p, peer.last_ping_at = some s → last_pong h = some p → s ≤ p →
    ∀ i ∈ iterations h, i < p

variable {h : List (PeerEvent T)} {peer : PingState T} {t : T}

omit [AddCommGroup T] in
theorem tracks_fresh : Tracks ([] : List (PeerEvent T)) .fresh := by
  refine ⟨rfl, fun _ _ => rfl, ?_, ?_, ?_⟩
  · intro _ s hs
    cases hs
  · intro _ s hs
    cases hs
  · intro _ s p hs
    cases hs

omit [AddCommGroup T] in
/-- A closed peer stays as it is, up to the time of a late PONG. -/
theorem tracks_of_closed (hpong : peer.last_pong_at = last_pong h) (hclosed : peer.closed = true) :
    Tracks h peer := by
  have habsurd : peer.closed = false → False := by
    rw [hclosed]
    exact Bool.noConfusion
  exact ⟨hpong, fun ho => (habsurd ho).elim, fun ho => (habsurd ho).elim,
    fun ho => (habsurd ho).elim, fun ho => (habsurd ho).elim⟩

omit [AddCommGroup T] in
theorem Tracks.unanswered_iff (htracks : Tracks h peer) {s : T} :
    peer.unanswered s = true ↔ AfterPong h s := by
  unfold PingState.unanswered AfterPong
  rw [htracks.pong]
  cases last_pong h with
  | none => simp
  | some p => simp

/-- An open peer times out exactly if the earliest iteration after its last PONG is too
long ago. -/
theorem Tracks.timed_out_iff (htracks : Tracks h peer) (hopen : peer.closed = false) :
    peer.timed_out timeout t = true ↔ ∃ s, Earliest h s ∧ timeout < t - s := by
  unfold PingState.timed_out
  cases hping : peer.last_ping_at with
  | none =>
      have hempty := htracks.none hopen hping
      constructor
      · intro habsurd
        cases habsurd
      · rintro ⟨s, hs, -⟩
        have := hs.mem
        rw [hempty] at this
        cases this
  | some s =>
      simp only [Bool.and_eq_true, htracks.unanswered_iff, decide_eq_true_eq]
      constructor
      · rintro ⟨hafter, hlate⟩
        exact ⟨s, htracks.outstanding hopen s hping hafter, hlate⟩
      · rintro ⟨s', hs', hlate⟩
        -- an answered PING leaves no iteration after the PONG
        have hafter : AfterPong h s := by
          intro p hp
          by_contra hle
          have hlt := htracks.answered hopen s p hping hp (not_lt.mp hle) s' hs'.mem
          exact absurd (hs'.after p hp) (lt_asymm hlt)
        obtain rfl := (htracks.outstanding hopen s hping hafter).unique hs'
        exact ⟨hafter, hlate⟩

theorem pings_again_iff (htracks : Tracks h peer) : peer.pings_again = true ↔
    ∀ s, peer.last_ping_at = some s → ∃ p, last_pong h = some p ∧ s ≤ p := by
  unfold PingState.pings_again
  rw [htracks.pong]
  cases peer.last_ping_at with
  | none => simp
  | some s =>
      cases last_pong h with
      | none => simp
      | some p => simp

/-- What the loop does to an open peer. -/
theorem check_cases (hopen : peer.closed = false) (timeout t : T) :
    (peer.timed_out timeout t = true ∧ peer.check timeout t = { peer with closed := true }) ∨
    (peer.timed_out timeout t = false ∧ peer.pings_again = true ∧
      peer.check timeout t = { peer with last_ping_at := some t }) ∨
    (peer.timed_out timeout t = false ∧ peer.pings_again = false ∧ peer.check timeout t = peer) := by
  unfold PingState.check
  rw [hopen, if_neg Bool.false_ne_true]
  cases htimed : peer.timed_out timeout t with
  | true => exact Or.inl ⟨rfl, by rw [if_pos rfl]⟩
  | false =>
      rw [if_neg Bool.false_ne_true]
      cases hagain : peer.pings_again with
      | true => exact Or.inr (Or.inl ⟨rfl, rfl, by rw [if_pos rfl]⟩)
      | false => exact Or.inr (Or.inr ⟨rfl, rfl, by rw [if_neg Bool.false_ne_true]⟩)

theorem check_of_closed (hclosed : peer.closed = true) (timeout t : T) :
    peer.check timeout t = peer := by
  rw [PingState.check, if_pos hclosed]

theorem Tracks.check (htracks : Tracks h peer) (hfits : FitsAfter h (.check t)) :
    Tracks (h ++ [.check t]) (peer.check timeout t) := by
  obtain ⟨hlater, hapart⟩ := hfits
  cases hopen : peer.closed with
  | true =>
      rw [check_of_closed hopen]
      exact tracks_of_closed (by rw [last_pong_check, htracks.pong]) hopen
  | false =>
      have hafter : ∀ s, AfterPong (h ++ [.check t]) s ↔ AfterPong h s := by
        intro s
        rw [AfterPong, AfterPong, last_pong_check]
      rcases check_cases hopen timeout t with ⟨-, hcheck⟩ | ⟨-, hagain, hcheck⟩ | ⟨-, hagain, hcheck⟩
      · rw [hcheck]
        exact tracks_of_closed (by rw [last_pong_check]; exact htracks.pong) rfl
      · rw [hcheck]
        rw [pings_again_iff htracks] at hagain
        -- no earlier iteration came after the last PONG
        have hnone : ∀ i ∈ iterations h, ¬ AfterPong h i := by
          intro i hi hi'
          cases hping : peer.last_ping_at with
          | none =>
              rw [htracks.none hopen hping] at hi
              cases hi
          | some s =>
              obtain ⟨p, hp, hle⟩ := hagain s hping
              exact lt_asymm (hi' p hp) (htracks.answered hopen s p hping hp hle i hi)
        refine ⟨by rw [last_pong_check]; exact htracks.pong, ?_, ?_, ?_, ?_⟩
        · intro _ hping
          cases hping
        · intro _ s hs
          obtain rfl := Option.some.inj hs
          rw [iterations_check]
          exact List.mem_append_right _ List.mem_cons_self
        · intro _ s hs hs'
          obtain rfl := Option.some.inj hs
          refine ⟨by rw [iterations_check]; exact List.mem_append_right _ List.mem_cons_self, hs', ?_⟩
          intro i hi hi'
          rw [iterations_check] at hi
          rcases List.mem_append.mp hi with hi | hi
          · exact absurd ((hafter i).mp hi') (hnone i hi)
          · rw [List.mem_singleton.mp hi]
        · intro _ s p hs hp hle i hi
          obtain rfl := Option.some.inj hs
          rw [last_pong_check] at hp
          have hlt : t < p := lt_of_le_of_ne hle (Ne.symm (hapart p hp))
          rw [iterations_check] at hi
          rcases List.mem_append.mp hi with hi | hi
          · exact lt_trans (hlater i hi) hlt
          · rw [List.mem_singleton.mp hi]
            exact hlt
      · rw [hcheck]
        -- the PING is outstanding and stays the earliest
        have hwaits : ∀ s, peer.last_ping_at = some s → AfterPong h s := by
          intro s hs p hp
          by_contra hle
          have htrue : peer.pings_again = true := by
            rw [pings_again_iff htracks]
            intro s' hs'
            rw [hs] at hs'
            obtain rfl := Option.some.inj hs'
            exact ⟨p, hp, not_lt.mp hle⟩
          rw [hagain] at htrue
          cases htrue
        refine ⟨by rw [last_pong_check]; exact htracks.pong, ?_, ?_, ?_, ?_⟩
        · intro _ hping
          have htrue : peer.pings_again = true := by
            rw [pings_again_iff htracks]
            intro s hs
            rw [hping] at hs
            cases hs
          rw [hagain] at htrue
          cases htrue
        · intro _ s hs
          rw [iterations_check]
          exact List.mem_append_left _ (htracks.mem hopen s hs)
        · intro _ s hs hs'
          have hearliest := htracks.outstanding hopen s hs (hwaits s hs)
          refine ⟨by rw [iterations_check]; exact List.mem_append_left _ hearliest.mem, hs', ?_⟩
          intro i hi hi'
          rw [iterations_check] at hi
          rcases List.mem_append.mp hi with hi | hi
          · exact hearliest.least i hi ((hafter i).mp hi')
          · rw [List.mem_singleton.mp hi]
            exact (hlater s hearliest.mem).le
        · intro _ s p hs hp hle
          rw [last_pong_check] at hp
          exact absurd (hwaits s hs p hp) (not_lt.mpr hle)

omit [AddCommGroup T] in
theorem Tracks.answer (htracks : Tracks h peer) (hfits : FitsAfter h (.pong t)) :
    Tracks (h ++ [.pong t]) { peer with last_pong_at := some t } := by
  refine ⟨by rw [last_pong_pong], ?_, ?_, ?_, ?_⟩
  · intro hopen hping
    rw [iterations_pong]
    exact htracks.none hopen hping
  · intro hopen s hs
    rw [iterations_pong]
    exact htracks.mem hopen s hs
  · intro hopen s hs hafter
    have hlt := hafter t last_pong_pong
    exact absurd (hfits s (htracks.mem hopen s hs)) (lt_asymm hlt)
  · intro _ s p _ hp _ i hi
    rw [last_pong_pong] at hp
    obtain rfl := Option.some.inj hp
    rw [iterations_pong] at hi
    exact hfits i hi

theorem tracks_of_timed (timeout : T) (htimed : Timed h) : Tracks h (state_after timeout h) := by
  induction h using List.reverseRecOn with
  | nil => exact tracks_fresh
  | append_singleton h e ih =>
      have hfits := htimed.last
      have htracks := ih htimed.of_append
      rw [state_after_snoc]
      cases e with
      | check t => exact htracks.check hfits
      | pong t => exact htracks.answer hfits
      | close => exact tracks_of_closed (by rw [last_pong_close]; exact htracks.pong) rfl

/-! ## When a peer is closed -/

omit [AddCommGroup T] [LinearOrder T] in
/-- Where there is a PONG there is a last one. -/
theorem exists_last_pong (before : List (PeerEvent T)) {mid : List (PeerEvent T)} {p : T} (hp : .pong p ∈ mid) :
    ∃ mid₁ p' mid₂, mid = mid₁ ++ .pong p' :: mid₂ ∧ last_pong (before ++ mid) = some p' := by
  induction mid using List.reverseRecOn with
  | nil => cases hp
  | append_singleton mid e ih =>
      rw [← List.append_assoc]
      have hmem : e ≠ .pong p → .pong p ∈ mid := by
        intro hne
        rcases List.mem_append.mp hp with hp | hp
        · exact hp
        · exact absurd (List.mem_singleton.mp hp).symm hne
      cases e with
      | pong q => exact ⟨mid, q, [], rfl, last_pong_pong⟩
      | check t =>
          obtain ⟨mid₁, p', mid₂, hmid, hlast⟩ := ih (hmem fun heq => by cases heq)
          refine ⟨mid₁, p', mid₂ ++ [.check t], ?_, by rw [last_pong_check, hlast]⟩
          rw [hmid, List.append_assoc, List.cons_append]
      | close =>
          obtain ⟨mid₁, p', mid₂, hmid, hlast⟩ := ih (hmem fun heq => by cases heq)
          refine ⟨mid₁, p', mid₂ ++ [.close], ?_, by rw [last_pong_close, hlast]⟩
          rw [hmid, List.append_assoc, List.cons_append]

/-- Between any two iterations there is a PONG. -/
def Answered (h : List (PeerEvent T)) : Prop :=
  ∀ before t mid t' after, h = before ++ .check t :: mid ++ .check t' :: after → ∃ p, .pong p ∈ mid

omit [AddCommGroup T] in
/-- Then no iteration is waiting for an answer when the next one comes. -/
theorem Answered.not_earliest (hanswered : Answered (h ++ [.check t])) (htimed : Timed h) (s : T) :
    ¬ Earliest h s := by
  intro hs
  obtain ⟨e, he, hes⟩ := List.mem_filterMap.mp hs.mem
  cases e with
  | pong p => cases hes
  | close => cases hes
  | check i =>
      obtain rfl := Option.some.inj hes
      obtain ⟨before, mid, rfl⟩ := List.append_of_mem he
      obtain ⟨p, hp⟩ := hanswered before i mid t [] rfl
      obtain ⟨mid₁, p', mid₂, hmid, hlast⟩ :=
        exists_last_pong (before ++ [.check i]) hp
      rw [List.append_assoc, List.singleton_append] at hlast
      have hfits : FitsAfter (before ++ .check i :: mid₁) (.pong p') :=
        htimed _ _ mid₂ (by rw [hmid, List.append_assoc, List.cons_append])
      have hbefore : i < p' := hfits i (by simp [iterations])
      exact lt_asymm hbefore (hs.after p' hlast)

theorem open_of_answered (timeout : T) (htimed : Timed h) (hanswered : Answered h)
    (hclose : .close ∉ h) : (state_after timeout h).closed = false := by
  induction h using List.reverseRecOn with
  | nil => rfl
  | append_singleton h e ih =>
      have hbefore : Answered h := by
        intro before t mid t' after heq
        refine hanswered before t mid t' (after ++ [e]) ?_
        rw [heq, List.append_assoc, List.cons_append]
      have hopen := ih htimed.of_append hbefore fun hmem => hclose (List.mem_append_left _ hmem)
      rw [state_after_snoc]
      cases e with
      | close => exact absurd (List.mem_append_right _ List.mem_cons_self) hclose
      | pong p => exact hopen
      | check t =>
          have htracks := tracks_of_timed timeout htimed.of_append
          rw [PingState.apply]
          rcases check_cases hopen timeout t with ⟨hlate, -⟩ | ⟨-, -, hcheck⟩ | ⟨-, -, hcheck⟩
          · obtain ⟨s, hs, -⟩ := (htracks.timed_out_iff hopen).mp hlate
            exact absurd hs (hanswered.not_earliest htimed.of_append s)
          · rw [hcheck]
            exact hopen
          · rw [hcheck]
            exact hopen

/-- The check closes an open peer exactly if it times out. -/
theorem closed_check_iff (hopen : peer.closed = false) :
    (peer.check timeout t).closed = true ↔ peer.timed_out timeout t = true := by
  rcases check_cases hopen timeout t with ⟨hlate, hcheck⟩ | ⟨hlate, -, hcheck⟩ | ⟨hlate, -, hcheck⟩
  · simp [hcheck, hlate]
  · simp [hcheck, hlate, hopen]
  · simp [hcheck, hlate, hopen]

/-- Counting the iteration itself changes nothing where the timeout is not negative. -/
theorem earliest_check_iff (hfits : FitsAfter h (.check t)) (hpos : 0 ≤ timeout) :
    (∃ s, Earliest (h ++ [.check t]) s ∧ timeout < t - s) ↔ ∃ s, Earliest h s ∧ timeout < t - s := by
  have hafter : ∀ s, AfterPong (h ++ [.check t]) s ↔ AfterPong h s := by
    intro s
    rw [AfterPong, AfterPong, last_pong_check]
  constructor
  · rintro ⟨s, hs, hlate⟩
    have hmem := hs.mem
    rw [iterations_check] at hmem
    rcases List.mem_append.mp hmem with hmem | hmem
    · refine ⟨s, ⟨hmem, (hafter s).mp hs.after, ?_⟩, hlate⟩
      intro i hi hi'
      exact hs.least i (by rw [iterations_check]; exact List.mem_append_left _ hi) ((hafter i).mpr hi')
    · obtain rfl := List.mem_singleton.mp hmem
      rw [sub_self] at hlate
      exact absurd hlate (not_lt.mpr hpos)
  · rintro ⟨s, hs, hlate⟩
    refine ⟨s, ⟨by rw [iterations_check]; exact List.mem_append_left _ hs.mem,
      (hafter s).mpr hs.after, ?_⟩, hlate⟩
    intro i hi hi'
    rw [iterations_check] at hi
    rcases List.mem_append.mp hi with hi | hi
    · exact hs.least i hi ((hafter i).mp hi')
    · rw [List.mem_singleton.mp hi]
      exact (hfits.1 s hs.mem).le

/-- An outstanding PING keeps its time until a PONG. -/
theorem last_ping_of_unanswered {s : T} (hping : (state_after timeout h).last_ping_at = some s)
    (hwaits : (state_after timeout h).unanswered s = true) {more : List (PeerEvent T)}
    (hmore : ∀ p, .pong p ∉ more) : (state_after timeout (h ++ more)).last_ping_at = some s ∧
      (state_after timeout (h ++ more)).unanswered s = true := by
  induction more using List.reverseRecOn with
  | nil => rw [List.append_nil]; exact ⟨hping, hwaits⟩
  | append_singleton more e ih =>
      obtain ⟨hping, hwaits⟩ := ih fun p hp => hmore p (List.mem_append_left _ hp)
      rw [← List.append_assoc, state_after_snoc]
      generalize state_after timeout (h ++ more) = peer at hping hwaits
      cases e with
      | close => exact ⟨hping, hwaits⟩
      | pong p => exact absurd (List.mem_append_right _ List.mem_cons_self) (hmore p)
      | check t =>
          rw [PingState.apply]
          cases hopen : peer.closed with
          | true =>
              rw [check_of_closed hopen]
              exact ⟨hping, hwaits⟩
          | false =>
              rcases check_cases hopen timeout t with ⟨-, hcheck⟩ | ⟨-, hagain, -⟩ | ⟨-, -, hcheck⟩
              · rw [hcheck]
                exact ⟨hping, hwaits⟩
              · unfold PingState.pings_again at hagain
                unfold PingState.unanswered at hwaits
                rw [hping] at hagain
                cases hpong : peer.last_pong_at with
                | none => simp [hpong] at hagain
                | some p =>
                    simp only [hpong, decide_eq_true_eq] at hagain hwaits
                    exact absurd hwaits (not_lt.mpr hagain)
              · rw [hcheck]
                exact ⟨hping, hwaits⟩

theorem find_checks (self : PingNode T) (now : T) (peer_id : Str) {keys : List Str}
    (hnodup : keys.Nodup) :
    (run step self (keys.map (.checks · now))).peers.find peer_id = if peer_id ∈ keys
      then (self.peers.find peer_id).map (·.check self.pong_timeout_seconds now)
      else self.peers.find peer_id := by
  induction keys generalizing self with
  | nil => rfl
  | cons k rest ih =>
      rw [List.nodup_cons] at hnodup
      have hrest := ih (self.step (.checks k now)) hnodup.2
      rw [step_timeout, step, find_act] at hrest
      refine hrest.trans ?_
      by_cases hk : peer_id = k
      · subst hk
        rw [if_neg hnodup.1, if_pos rfl, if_pos List.mem_cons_self]
        rfl
      · simp [hk]

/-- One iteration checks every peer in the table. -/
theorem find_iteration (self : PingNode T) (now : T) (peer_id : Str) :
    (run step self (self.iteration now)).peers.find peer_id
      = (self.peers.find peer_id).map (·.check self.pong_timeout_seconds now) := by
  rw [iteration, StrDict.keys, find_checks self now peer_id self.peers.nodup]
  split_ifs with hmem
  · rfl
  · rw [StrDict.mem_map_fst, StrDict.contains, Bool.not_eq_true,
      Option.isSome_eq_false_iff, Option.isNone_iff_eq_none] at hmem
    rw [hmem]
    rfl

/-- An open peer is closed at an iteration exactly if the earliest iteration after its
last PONG, or after its registration, is longer ago than the timeout. Until a PONG the
time of the outstanding PING stays; with a PONG between any two iterations the loop
never closes the peer. -/
theorem pong_timeout_exact (timeout : T) (peer_id : Str) {events : List (PingEvent T)}
    {h : List (PeerEvent T)} (hhistory : history peer_id events = some h) (htimed : Timed h) :
    ∃ peer, (run step (init timeout) events).peers.find peer_id = some peer ∧
      (peer.closed = false → ∀ t, FitsAfter h (.check t) →
        ∃ after, (run step (init timeout) (events ++ [.checks peer_id t])).peers.find peer_id
            = some after ∧
          (after.closed = true ↔ ∃ s, Earliest h s ∧ timeout < t - s) ∧
          (0 ≤ timeout →
            (after.closed = true ↔ ∃ s, Earliest (h ++ [.check t]) s ∧ timeout < t - s))) ∧
      (∀ s, peer.last_ping_at = some s → AfterPong h s → ∀ later more,
        history peer_id later = some (h ++ more) → (∀ p, .pong p ∉ more) →
        ∃ after, (run step (init timeout) later).peers.find peer_id = some after ∧
          after.last_ping_at = some s) ∧
      (Answered h → .close ∉ h → peer.closed = false) := by
  have hfind : ∀ later h', history peer_id later = some h' →
      (run step (init timeout) later).peers.find peer_id = some (state_after timeout h') := by
    intro later h' hlater
    rw [find_run, hlater, Option.map_some]
  have htracks := tracks_of_timed timeout htimed
  refine ⟨_, hfind events h hhistory, ?_, ?_, open_of_answered timeout htimed⟩
  · intro hopen t hfits
    have hnext : history peer_id (events ++ [.checks peer_id t]) = some (h ++ [.check t]) := by
      rw [history, List.foldl_append, ← history, hhistory]
      exact if_pos rfl
    have hclosed : (state_after timeout (h ++ [.check t])).closed = true ↔
        ∃ s, Earliest h s ∧ timeout < t - s := by
      rw [state_after_snoc, PingState.apply, closed_check_iff hopen, htracks.timed_out_iff hopen]
    refine ⟨_, hfind _ _ hnext, hclosed, ?_⟩
    intro hpos
    rw [hclosed, earliest_check_iff hfits hpos]
  · intro s hping hafter later more hlater hmore
    exact ⟨_, hfind later _ hlater,
      (last_ping_of_unanswered hping (htracks.unanswered_iff.mpr hafter) hmore).1⟩

end Tracking

/-! A peer that never answers, with a timeout of three seconds and an iteration every
two seconds. -/

def silent : List (PingEvent ℤ) :=
  [.registers (lit "p"), .checks (lit "p") 0, .checks (lit "p") 2]

def silent_history : List (PeerEvent ℤ) := [.check 0, .check 2]

theorem silent_timed : Timed silent_history := by
  intro before e after h
  rcases before with _ | ⟨e₁, _ | ⟨e₂, before⟩⟩
  · obtain ⟨rfl, -⟩ := List.cons.inj h
    refine ⟨?_, ?_⟩
    · intro s hs
      cases hs
    · intro p hp
      cases hp
  · obtain ⟨h₁, h₂⟩ := List.cons.inj h
    obtain ⟨h₃, -⟩ := List.cons.inj h₂
    rw [← h₁, ← h₃]
    refine ⟨?_, ?_⟩
    · intro s hs
      obtain rfl : s = 0 := by simpa [iterations] using hs
      decide
    · intro p hp
      cases hp
  · have := congrArg List.length h
    simp [silent_history] at this

theorem silent_exact :
    ∃ peer, (run step (init 3) silent).peers.find (lit "p") = some peer ∧
      (peer.closed = false → ∀ t, FitsAfter silent_history (.check t) →
        ∃ after, (run step (init 3) (silent ++ [.checks (lit "p") t])).peers.find (lit "p")
            = some after ∧
          (after.closed = true ↔ ∃ s, Earliest silent_history s ∧ 3 < t - s) ∧
          (0 ≤ (3 : ℤ) →
            (after.closed = true ↔ ∃ s, Earliest (silent_history ++ [.check t]) s ∧ 3 < t - s))) ∧
      (∀ s, peer.last_ping_at = some s → AfterPong silent_history s → ∀ later more,
        history (lit "p") later = some (silent_history ++ more) → (∀ p, .pong p ∉ more) →
        ∃ after, (run step (init 3) later).peers.find (lit "p") = some after ∧
          after.last_ping_at = some s) ∧
      (Answered silent_history → .close ∉ silent_history → peer.closed = false) :=
  pong_timeout_exact 3 (lit "p") (by decide) silent_timed

end PingNode

end EasyBlockchain
