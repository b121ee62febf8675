/-
`network/reconnect.py` under `Node.connect_peer`: what the recorded number of
attempts says about the dials of a URL.

A dial attempt is decided when `P2PServer.connect_peer` returns without a
connection, when it raises, or when the dial finds its peer authenticated or not.
The count agrees with the failed attempts in a row where each attempt is recorded
once; it is reset too early by `record_success`, which follows the connection and
not the authentication, and increased once too often by `_on_peer_disconnected`.
-/
import EasyBlockchain.DialChanges
import EasyBlockchain.Py.CPython

set_option autoImplicit false

namespace EasyBlockchain

open Py Lib

/-! ## Attempts in a row -/

/-- The attempts of one URL, the last one first. -/
def attempts_at (outcomes : List Outcome) (url : Str) : List Outcome :=
  (outcomes.filter (·.url = url)).reverse

/-- How many of its last attempts failed, since one that did not. -/
def failures_in_a_row (outcomes : List Outcome) (url : Str) : ℕ :=
  ((attempts_at outcomes url).takeWhile (!·.authenticated)).length

/-- When the last attempt was decided. -/
def last_attempt (outcomes : List Outcome) (url : Str) : Option PyFloat :=
  (attempts_at outcomes url).head?.map (·.time)

section Attempts

variable {outcomes : List Outcome} {o : Outcome} {url : Str}

theorem attempts_at_append : attempts_at (outcomes ++ [o]) url =
    if o.url = url then o :: attempts_at outcomes url else attempts_at outcomes url := by
  unfold attempts_at
  rw [List.filter_append, List.reverse_append]
  by_cases h : o.url = url
  · simp [h]
  · simp [h]

theorem failures_of_other (h : o.url ≠ url) :
    failures_in_a_row (outcomes ++ [o]) url = failures_in_a_row outcomes url := by
  rw [failures_in_a_row, attempts_at_append, if_neg h, failures_in_a_row]

theorem last_attempt_of_other (h : o.url ≠ url) :
    last_attempt (outcomes ++ [o]) url = last_attempt outcomes url := by
  rw [last_attempt, attempts_at_append, if_neg h, last_attempt]

theorem failures_of_failed (now : PyFloat) :
    failures_in_a_row (outcomes ++ [⟨url, false, now⟩]) url = failures_in_a_row outcomes url + 1 := by
  rw [failures_in_a_row, attempts_at_append, if_pos rfl, List.takeWhile_cons]
  rfl

theorem failures_of_authenticated (now : PyFloat) :
    failures_in_a_row (outcomes ++ [⟨url, true, now⟩]) url = 0 := by
  rw [failures_in_a_row, attempts_at_append, if_pos rfl, List.takeWhile_cons]
  rfl

theorem last_attempt_self (authenticated : Bool) (now : PyFloat) :
    last_attempt (outcomes ++ [⟨url, authenticated, now⟩]) url = some now := by
  rw [last_attempt, attempts_at_append, if_pos rfl]
  rfl

end Attempts

namespace DialingNode

section Counting

variable [Runtime] [FloatMath]

/-- Each attempt is recorded once: no call raises in the resolution, no dial gives
its connection up after another failed attempt, and no connection that is entered
under a URL ends. -/
def CountsOnce (node : DialingNode) : DialEvent → Prop
  | .call dial .fails _ => ∀ d ∈ node.dials[dial]?,
      match d.point with
      | .calling call => ∀ c ∈ node.server.calls[call]?, c.point ≠ .resolving
      | _ => True
  | .hello_sent dial _ => ∀ d ∈ node.dials[dial]?, ∀ p ∈ waiting d,
      node.look p false = some false → failures_in_a_row node.outcomes d.url = 0
  | .polls dial expired _ => ∀ d ∈ node.dials[dial]?, ∀ p ∈ waiting d,
      node.look p expired = some false → failures_in_a_row node.outcomes d.url = 0
  | .on_closed i _ => ∀ c ∈ node.server.connections[i]?, c.listen = .closing →
      node.url_by_peer.contains c.peer_id = false
  | _ => True

instance (node : DialingNode) (e : DialEvent) : Decidable (CountsOnce node e) :=
  match e with
  | .call dial .fails _ =>
    have (d : Dial) : Decidable (match d.point with
        | .calling call => ∀ c ∈ node.server.calls[call]?, c.point ≠ .resolving
        | _ => True) := by
      split <;> infer_instance
    inferInstanceAs (Decidable (∀ _ ∈ _, _))
  | .hello_sent _ _ => inferInstanceAs (Decidable (∀ _ ∈ _, ∀ _ ∈ _, _ → _))
  | .polls _ _ _ => inferInstanceAs (Decidable (∀ _ ∈ _, ∀ _ ∈ _, _ → _))
  | .on_closed _ _ => inferInstanceAs (Decidable (∀ _ ∈ _, _ → _))
  | .call _ (.resolved _) _ | .call _ (.connected _) _ | .call _ .registers _ | .call _ .closed _
  | .connect_peer _ _ | .dial_ends _ | .hello _ _ _ | .greeted _ | .accepts _ _ | .listen_ends _
  | .closes _ | .handshake_done _ | .handshake_timeout _ | .handler_ends _ => .isTrue trivial

/-- A dial of the URL waits for its peer. -/
def Undecided (node : DialingNode) (url : Str) : Prop :=
  ∃ d ∈ node.dials, d.url = url ∧ ∃ p, waiting d = some p

/-! ## The invariant -/

/-- The recorded attempts of a URL are its failed attempts in a row, and the time of
the next one follows from them; while a dial waits for its peer they are reset. -/
structure Counted (node : DialingNode) (url : Str) : Prop where
  reset : node.Undecided url → node.reconnect.attempts_of url = 0
  counted : ¬ node.Undecided url →
    node.reconnect.attempts_of url = failures_in_a_row node.outcomes url
  delayed : ¬ node.Undecided url → 0 < failures_in_a_row node.outcomes url →
    ∃ t, last_attempt node.outcomes url = some t ∧
      ∀ retry, ReconnectManager.retry_at node.reconnect.settings
          (failures_in_a_row node.outcomes url) t = .ok retry →
        node.reconnect.next_retry_at.find url = some retry

section Small

variable {node after : DialingNode} {url : Str}

/-- Nothing that concerns the URL changes. -/
theorem Counted.of_eq (h : Counted node url)
    (hdials : after.Undecided url ↔ node.Undecided url)
    (hsettings : after.reconnect.settings = node.reconnect.settings)
    (hattempts : after.reconnect.attempts_of url = node.reconnect.attempts_of url)
    (hretry : after.reconnect.next_retry_at.find url = node.reconnect.next_retry_at.find url)
    (hfailures : failures_in_a_row after.outcomes url = failures_in_a_row node.outcomes url)
    (hlast : last_attempt after.outcomes url = last_attempt node.outcomes url) :
    Counted after url where
  reset := by
    rw [hdials, hattempts]
    exact h.reset
  counted := by
    rw [hdials, hattempts, hfailures]
    exact h.counted
  delayed := by
    rw [hdials, hsettings, hretry, hfailures, hlast]
    exact h.delayed

/-- A failed attempt of a URL that was counted right before. -/
theorem Counted.of_failed (henabled : node.reconnect.settings.enabled = true) {now : PyFloat}
    (hcount : node.reconnect.attempts_of url = failures_in_a_row node.outcomes url)
    (hdials : ¬ after.Undecided url)
    (hreconnect : after.reconnect = (node.reconnect.record_failure url now).1)
    (houtcomes : after.outcomes = node.outcomes ++ [⟨url, false, now⟩]) : Counted after url where
  reset := fun h => absurd h hdials
  counted := by
    intro _
    rw [hreconnect, houtcomes, ReconnectManager.attempts_of_record_failure henabled, if_pos rfl,
      hcount]
    exact (failures_of_failed now).symm
  delayed := by
    intro _ _
    rw [houtcomes]
    refine ⟨now, last_attempt_self false now, fun retry hretry => ?_⟩
    rw [hreconnect, ReconnectManager.record_failure_settings, failures_of_failed now, ← hcount]
      at hretry
    rw [hreconnect]
    exact ReconnectManager.next_retry_at_record_failure henabled hretry

/-- Another URL's failed attempt. -/
theorem Counted.of_other_failed (henabled : node.reconnect.settings.enabled = true)
    (h : Counted node url) {other : Str} {now : PyFloat} (hne : url ≠ other)
    (hdials : after.Undecided url ↔ node.Undecided url)
    (hreconnect : after.reconnect = (node.reconnect.record_failure other now).1)
    (houtcomes : after.outcomes = node.outcomes ++ [⟨other, false, now⟩]) : Counted after url := by
  refine h.of_eq hdials ?_ ?_ ?_ ?_ ?_
  · rw [hreconnect, ReconnectManager.record_failure_settings]
  · rw [hreconnect, ReconnectManager.attempts_of_record_failure henabled, if_neg hne]
  · rw [hreconnect, ReconnectManager.next_retry_at_record_failure_other hne]
  · rw [houtcomes]
    exact failures_of_other (Ne.symm hne)
  · rw [houtcomes]
    exact last_attempt_of_other (Ne.symm hne)

end Small

/-! ## The dials of a URL -/

section Undecided

omit [Runtime] [FloatMath]

variable {settings : ServerSettings} {node after : DialingNode} {url : Str}

theorem undecided_of_eq (hdials : after.dials = node.dials) :
    after.Undecided url ↔ node.Undecided url := by
  rw [Undecided, hdials, Undecided]

/-- A new dial does not wait for a peer yet. -/
theorem undecided_append {new : Dial} (hdials : after.dials = node.dials ++ [new])
    (hnew : waiting new = none) : after.Undecided url ↔ node.Undecided url := by
  unfold Undecided
  rw [hdials]
  constructor
  · rintro ⟨d, hd, hurl, p, hp⟩
    rcases List.mem_append.mp hd with hd | hd
    · exact ⟨d, hd, hurl, p, hp⟩
    · rw [List.mem_singleton.mp hd, hnew] at hp
      cases hp
  · rintro ⟨d, hd, hurl, p, hp⟩
    exact ⟨d, List.mem_append_left _ hd, hurl, p, hp⟩

variable {dial : ℕ} {d : Dial} {point : DialPoint} (hdial : node.dials[dial]? = some d)
  (hdials : after.dials = node.dials.modify dial fun d => { d with point := point })
include hdial hdials

/-- The dials of another URL stay. -/
theorem undecided_of_other (hne : url ≠ d.url) : after.Undecided url ↔ node.Undecided url := by
  unfold Undecided
  rw [hdials]
  constructor
  · rintro ⟨d', hd', hurl, p, hp⟩
    obtain ⟨i, hi⟩ := List.mem_iff_getElem?.mp hd'
    rcases modify_point_cases hi with ⟨rfl, -, d'', hd'', hsame⟩ | ⟨-, hi⟩
    · rw [hdial] at hd''
      obtain rfl := Option.some.inj hd''
      exact absurd (hurl.symm.trans hsame.symm) hne
    · exact ⟨d', List.mem_of_getElem? hi, hurl, p, hp⟩
  · rintro ⟨d', hd', hurl, p, hp⟩
    obtain ⟨i, hi⟩ := List.mem_iff_getElem?.mp hd'
    have hi' : dial ≠ i := by
      rintro rfl
      rw [hdial] at hi
      obtain rfl := Option.some.inj hi
      exact hne hurl.symm
    refine ⟨d', List.mem_of_getElem? (i := i) ?_, hurl, p, hp⟩
    rw [List.getElem?_modify_ne _ _ hi']
    exact hi

variable (point) in
/-- The dial that no longer waits was the only one of its URL. -/
theorem decided_of_suspend (hwf : Wf settings node) (hunder : d.point ≠ .returned)
    (hpoint : waiting ⟨d.url, point⟩ = none) : ¬ after.Undecided d.url := by
  rintro ⟨d', hd', hurl, p, hp⟩
  rw [hdials] at hd'
  obtain ⟨i, hi⟩ := List.mem_iff_getElem?.mp hd'
  rcases modify_point_cases hi with ⟨-, hsame, -⟩ | ⟨hne, hi⟩
  · rw [waiting, hsame] at hp
    rw [waiting, hp] at hpoint
    cases hpoint
  · exact hne (hwf.distinct i dial d' d hi hdial (ne_returned_of_waiting hp) hunder hurl)

theorem undecided_of_suspend {p : Str} (hpoint : waiting ⟨d.url, point⟩ = some p) :
    after.Undecided d.url := by
  refine ⟨⟨d.url, point⟩, ?_, rfl, p, hpoint⟩
  rw [hdials]
  refine List.mem_of_getElem? (i := dial) ?_
  simp [hdial]

end Undecided

omit [Runtime] [FloatMath] in
/-- While a dial waits for its call, none of its URL waits for a peer. -/
theorem decided_of_calling {settings : ServerSettings} {node : DialingNode} (hwf : Wf settings node)
    {dial : ℕ} {d : Dial} (hdial : node.dials[dial]? = some d) (hunder : d.point ≠ .returned)
    (hcalling : waiting d = none) : ¬ node.Undecided d.url := by
  rintro ⟨d', hd', hurl, p, hp⟩
  obtain ⟨i, hi⟩ := List.mem_iff_getElem?.mp hd'
  obtain rfl := hwf.distinct i dial d' d hi hdial (ne_returned_of_waiting hp) hunder hurl
  rw [hdial] at hi
  obtain rfl := Option.some.inj hi
  rw [hcalling] at hp
  cases hp

/-! ## Every step -/

section Steps

variable {settings : ServerSettings} {node after : DialingNode} {url : Str}

/-- The peer a dial waited for, and found unauthenticated. -/
theorem auth_result_counted (henabled : node.reconnect.settings.enabled = true)
    (hwf : Wf settings node) (h : ∀ u, Counted node u) {dial : ℕ} {d : Dial} {p : Str}
    {now : PyFloat} (hdial : node.dials[dial]? = some d) (hwaiting : waiting d = some p)
    (hfirst : failures_in_a_row node.outcomes d.url = 0) :
    Counted (node.auth_result dial d.url p false now) url := by
  have hunder := ne_returned_of_waiting hwaiting
  have hundecided : node.Undecided d.url := ⟨d, List.mem_of_getElem? hdial, rfl, p, hwaiting⟩
  have hcount : node.reconnect.attempts_of d.url = failures_in_a_row node.outcomes d.url := by
    rw [(h d.url).reset hundecided, hfirst]
  have hresult : ∃ point, waiting ⟨d.url, point⟩ = none ∧
      (node.auth_result dial d.url p false now).dials
        = node.dials.modify dial (fun d => { d with point := point }) ∧
      (node.auth_result dial d.url p false now).reconnect
        = (node.reconnect.record_failure d.url now).1 ∧
      (node.auth_result dial d.url p false now).outcomes = node.outcomes ++ [⟨d.url, false, now⟩] := by
    unfold auth_result
    simp only [Bool.false_eq_true, if_false]
    split
    · exact ⟨.returned, rfl, rfl, rfl, rfl⟩
    · rw [close_peer_eq]
      exact ⟨.closing, rfl, rfl, rfl, rfl⟩
  obtain ⟨point, hpoint, hdials, hreconnect, houtcomes⟩ := hresult
  by_cases hurl : url = d.url
  · subst hurl
    exact Counted.of_failed henabled hcount (decided_of_suspend _ hdial hdials hwf hunder hpoint)
      hreconnect houtcomes
  · exact (h url).of_other_failed henabled hurl (undecided_of_other hdial hdials hurl) hreconnect
      houtcomes

theorem Counted.change (henabled : node.reconnect.settings.enabled = true) (hwf : Wf settings node)
    (h : ∀ u, Counted node u) {e : DialEvent} (honce : CountsOnce node e)
    (hchange : Change node e after) : Counted after url := by
  cases hchange with
  | stays => exact h url
  | starts => exact (h url).of_eq (undecided_append rfl rfl) rfl rfl rfl rfl rfl
  | @refused other now hdials =>
      by_cases hurl : url = other
      · subst hurl
        have hidle : ¬ node.Undecided url := by
          rintro ⟨d, hd, hurl, p, hp⟩
          obtain ⟨i, hi⟩ := List.mem_iff_getElem?.mp hd
          exact hdials.idle (hurl ▸ hwf.dialing i d hi (ne_returned_of_waiting hp))
        exact Counted.of_failed henabled ((h url).counted hidle)
          (mt (undecided_append rfl rfl).mp hidle) rfl rfl
      · exact (h url).of_other_failed henabled hurl (undecided_append rfl rfl) rfl rfl
  | goes_on => exact (h url).of_eq (undecided_of_eq rfl) rfl rfl rfl rfl rfl
  | @fails dial call other step now server hdial hgoes =>
      by_cases hurl : url = other
      · subst hurl
        have hidle := decided_of_calling hwf hdial (by simp) rfl
        exact Counted.of_failed henabled ((h url).counted hidle)
          (decided_of_suspend .returned (d := ⟨url, .calling call⟩) hdial rfl hwf
            (by simp) rfl) rfl rfl
      · exact (h url).of_other_failed henabled hurl
          (undecided_of_other (d := ⟨other, .calling call⟩) hdial rfl hurl)
          rfl rfl
  | raises hdial hcall hpoint =>
      -- the attempt would not be recorded
      exact absurd hpoint (honce _ hdial _ hcall)
  | @dialed dial call other peer_id step now hdial hknows =>
      by_cases hurl : url = other
      · subst hurl
        have hundecided : ({ node with server := node.server.registered call url peer_id }.dialed dial
            url peer_id).Undecided url :=
          undecided_of_suspend (d := ⟨url, .calling call⟩) hdial rfl (p := peer_id) rfl
        refine ⟨fun _ => ?_, fun hno => absurd hundecided hno, fun hno => absurd hundecided hno⟩
        exact ReconnectManager.attempts_of_record_success.trans (if_pos rfl)
      · refine (h url).of_eq (undecided_of_other (d := ⟨other, .calling call⟩) hdial rfl hurl) rfl ?_
          ?_ rfl rfl
        · exact ReconnectManager.attempts_of_record_success.trans (if_neg hurl)
        · exact ReconnectManager.next_retry_at_record_success.trans (if_neg hurl)
  | @sleeps _ dial d p hdial hwaiting =>
      by_cases hurl : url = d.url
      · subst hurl
        have hbefore : node.Undecided d.url := ⟨d, List.mem_of_getElem? hdial, rfl, p, hwaiting⟩
        have hafter : (node.suspend dial (.authenticating p)).Undecided d.url :=
          undecided_of_suspend hdial rfl (p := p) rfl
        exact (h d.url).of_eq (iff_of_true hafter hbefore) rfl rfl rfl rfl rfl
      · exact (h url).of_eq (undecided_of_other hdial rfl hurl) rfl rfl rfl rfl rfl
  | @authenticated _ dial d p now hdial hwaiting =>
      by_cases hurl : url = d.url
      · subst hurl
        have hdecided : ¬ ((node.decided d.url true now).suspend dial .sending_peers).Undecided d.url :=
          decided_of_suspend .sending_peers hdial rfl hwf (ne_returned_of_waiting hwaiting) rfl
        have hnone : failures_in_a_row ((node.decided d.url true now).suspend dial
            .sending_peers).outcomes d.url = 0 := failures_of_authenticated now
        refine ⟨fun hyes => absurd hyes hdecided, fun _ => ?_, fun _ hpos => ?_⟩
        · rw [hnone]
          exact (h d.url).reset ⟨d, List.mem_of_getElem? hdial, rfl, p, hwaiting⟩
        · rw [hnone] at hpos
          cases hpos
      · exact (h url).of_eq (undecided_of_other hdial rfl hurl) rfl rfl rfl
          (failures_of_other (Ne.symm hurl)) (last_attempt_of_other (Ne.symm hurl))
  | @unauthenticated _ dial d p expired now he hdial hwaiting hlook =>
      refine auth_result_counted henabled hwf h hdial hwaiting ?_
      rcases he with ⟨rfl, rfl⟩ | rfl
      · exact honce d hdial p hwaiting hlook
      · exact honce d hdial p hwaiting hlook
  | @ends dial d hdial hpoint =>
      have hunder : d.point ≠ .returned ∧ waiting d = none := by
        unfold waiting
        rcases hpoint with hpoint | hpoint <;> simp [hpoint]
      by_cases hurl : url = d.url
      · subst hurl
        have hbefore := decided_of_calling hwf hdial hunder.1 hunder.2
        have hafter : ¬ (node.end_dial dial d.url).Undecided d.url :=
          decided_of_suspend .returned hdial rfl hwf hunder.1 rfl
        exact (h d.url).of_eq (iff_of_false hafter hbefore) rfl rfl rfl rfl rfl
      · exact (h url).of_eq (undecided_of_other hdial rfl hurl) rfl rfl rfl rfl rfl
  | greets => exact (h url).of_eq (undecided_of_eq rfl) rfl rfl rfl rfl rfl
  | greeted => exact (h url).of_eq (undecided_of_eq rfl) rfl rfl rfl rfl rfl
  | enters => exact (h url).of_eq (undecided_of_eq rfl) rfl rfl rfl rfl rfl
  | serves => exact (h url).of_eq (undecided_of_eq rfl) rfl rfl rfl rfl rfl
  | @disconnected i c now hc hlisten =>
      have hunknown := honce c hc hlisten
      have hnone : node.url_by_peer.find c.peer_id = none := by
        simpa [StrDict.contains] using hunknown
      simp only [on_peer_disconnected, hnone]
      exact (h url).of_eq (undecided_of_eq rfl) rfl rfl rfl rfl rfl

/-- No event changes the settings. -/
theorem change_settings {e : DialEvent} (hchange : Change node e after) :
    after.reconnect.settings = node.reconnect.settings := by
  cases hchange with
  | refused => exact ReconnectManager.record_failure_settings
  | fails => exact ReconnectManager.record_failure_settings
  | unauthenticated =>
      unfold auth_result
      simp only [Bool.false_eq_true, if_false]
      split
      · exact ReconnectManager.record_failure_settings
      · rw [close_peer_eq]
        exact ReconnectManager.record_failure_settings
  | disconnected =>
      unfold on_peer_disconnected
      dsimp only
      split
      · rfl
      · split
        · rfl
        · exact ReconnectManager.record_failure_settings
  | _ => rfl

end Steps

/-- What holds along a run in which each attempt is recorded once. -/
structure CountInv (settings : ServerSettings) (reconnect : ReconnectSettings)
    (node : DialingNode) : Prop where
  tasks : Wf settings node
  settings_eq : node.reconnect.settings = reconnect
  counted : ∀ url, Counted node url

section Runs

variable {settings : ServerSettings} {reconnect : ReconnectSettings} {node : DialingNode}

theorem CountInv.start (settings : ServerSettings) (local_url : Str) (reconnect : ReconnectSettings) :
    CountInv settings reconnect (start local_url settings reconnect) where
  tasks := Wf.start settings local_url reconnect
  settings_eq := rfl
  counted := fun url => {
    reset := fun ⟨d, hd, _⟩ => by cases hd
    counted := fun _ => rfl
    delayed := fun _ hpos => by cases hpos }

theorem CountInv.step (henabled : reconnect.enabled = true) (h : CountInv settings reconnect node)
    {e : DialEvent} (honce : CountsOnce node e) : CountInv settings reconnect (node.step e) where
  tasks := h.tasks.step e
  settings_eq := (change_settings (step_change h.tasks e)).trans h.settings_eq
  counted := fun _ =>
    Counted.change (h.settings_eq ▸ henabled) h.tasks h.counted honce (step_change h.tasks e)

/-- After the last of the allowed attempts a URL is not dialed. -/
theorem CountInv.given_up (henabled : reconnect.enabled = true) (h : CountInv settings reconnect node)
    {url : Str} (hmax : 0 < reconnect.max_attempts)
    (hfailed : reconnect.max_attempts ≤ failures_in_a_row node.outcomes url) (now : PyFloat) :
    node.connect_peer url now = node := by
  unfold connect_peer
  split_ifs with hguard hretry
  · rfl
  · rfl
  · exfalso
    simp only [not_or] at hguard
    have hidle : ¬ node.Undecided url := by
      rintro ⟨d, hd, hurl, p, hp⟩
      obtain ⟨i, hi⟩ := List.mem_iff_getElem?.mp hd
      exact hguard.2.2.2 (hurl ▸ h.tasks.dialing i d hi (ne_returned_of_waiting hp))
    obtain ⟨t, -, hdelayed⟩ := (h.counted url).delayed hidle (by omega)
    have hinf := hdelayed (.inf false) (by
      rw [ReconnectManager.retry_at, h.settings_eq, if_pos ⟨hmax, hfailed⟩])
    rw [ReconnectManager.should_retry_of_inf (h.settings_eq ▸ henabled) hinf] at hretry
    exact hretry rfl

end Runs

/-- In a run in which each attempt is recorded once, the recorded attempts of a URL
are its failed attempts in a row, the next one waits for the backoff step of that
number, and after `max_attempts` of them it is not dialed. -/
theorem attempts_counted (local_url : Str) (settings : ServerSettings)
    (reconnect : ReconnectSettings) (henabled : reconnect.enabled = true)
    (events : List DialEvent)
    (honce : AlwaysMeets CountsOnce step (start local_url settings reconnect) events) (k : ℕ) :
    let node := run step (start local_url settings reconnect) (events.take k)
    ∀ url, 0 < failures_in_a_row node.outcomes url →
      (¬ node.Undecided url →
        node.reconnect.attempts_of url = failures_in_a_row node.outcomes url ∧
          ∃ t, last_attempt node.outcomes url = some t ∧
            ∀ retry, ReconnectManager.retry_at reconnect
                (failures_in_a_row node.outcomes url) t = .ok retry →
              node.reconnect.next_retry_at.find url = some retry) ∧
      (0 < reconnect.max_attempts →
        reconnect.max_attempts ≤ failures_in_a_row node.outcomes url →
          ∀ now, node.step (.connect_peer url now) = node) := by
  intro node url hpos
  have h : CountInv settings reconnect node :=
    run_invariant_take (fun _ _ h honce => h.step henabled honce)
      (CountInv.start settings local_url reconnect) honce k
  refine ⟨fun hidle => ⟨(h.counted url).counted hidle, ?_⟩, fun hmax hfailed now => ?_⟩
  · have hdelayed := (h.counted url).delayed hidle hpos
    rw [h.settings_eq] at hdelayed
    exact hdelayed
  · exact h.given_up henabled hmax hfailed now

end Counting

end DialingNode

/-! A URL that is dialed in vain, with two attempts allowed. -/

namespace DialedInVain

attribute [local instance] cpython FloatMath.rounded

def settings : ServerSettings := ⟨25, true, false⟩

def reconnect : ReconnectSettings := ⟨true, .fin 1, .fin 60, 2, .fin 1⟩

def url : Str := lit "ws://u"

def start : DialingNode := .start (lit "ws://self") settings reconnect

/-- The address resolves, and no one listens there. -/
def refused (n : ℕ) (now : PyFloat) : List DialEvent :=
  [.connect_peer url now, .call n (.resolved true) now, .call n .fails now]

/-- Someone listens there who does not authenticate in time. -/
def silent (n : ℕ) (peer_id : Str) (now : PyFloat) : List DialEvent :=
  [.connect_peer url now, .call n (.resolved true) now, .call n (.connected peer_id) now,
    .hello_sent n now, .polls n true now, .dial_ends n]

/-- Someone listens there and closes the connection. -/
def closing : List DialEvent :=
  [.connect_peer url (.fin 0), .call 0 (.resolved true) (.fin 0),
    .call 0 (.connected (lit "a")) (.fin 0), .hello_sent 0 (.fin 0), .listen_ends 0,
    .on_closed 0 (.fin 0), .polls 0 false (.fin 0)]

theorem refused_counted :
    let node := run DialingNode.step start ((refused 0 (.fin 0) ++ refused 1 (.fin 5)).take 6)
    ∀ u, 0 < failures_in_a_row node.outcomes u →
      (¬ node.Undecided u →
        node.reconnect.attempts_of u = failures_in_a_row node.outcomes u ∧
          ∃ t, last_attempt node.outcomes u = some t ∧
            ∀ retry, ReconnectManager.retry_at reconnect
                (failures_in_a_row node.outcomes u) t = .ok retry →
              node.reconnect.next_retry_at.find u = some retry) ∧
      (0 < reconnect.max_attempts →
        reconnect.max_attempts ≤ failures_in_a_row node.outcomes u →
          ∀ now, node.step (.connect_peer u now) = node) :=
  DialingNode.attempts_counted (lit "ws://self") settings reconnect rfl
    (refused 0 (.fin 0) ++ refused 1 (.fin 5)) (by decide +kernel) 6

/-- Two attempts that came to a connection are recorded as one, and a third is made;
one that the other side closed is recorded as two. -/
theorem attempts_miscounted :
    (let node := run DialingNode.step start
        (silent 0 (lit "a") (.fin 0) ++ silent 1 (lit "b") (.fin 5));
      ¬ node.Undecided url ∧ failures_in_a_row node.outcomes url = 2 ∧
        node.reconnect.attempts_of url = 1 ∧
        (node.step (.connect_peer url (.fin 10))).dials.length = node.dials.length + 1) ∧
    (let node := run DialingNode.step start closing;
      ¬ node.Undecided url ∧ failures_in_a_row node.outcomes url = 1 ∧
        node.reconnect.attempts_of url = 2) := by
  refine ⟨⟨?_, by decide +kernel, by decide +kernel, by decide +kernel⟩,
    ⟨?_, by decide +kernel, by decide +kernel⟩⟩
  · rintro ⟨d, hd, -, p, hp⟩
    have hnone : ∀ d ∈ (run DialingNode.step start
        (silent 0 (lit "a") (.fin 0) ++ silent 1 (lit "b") (.fin 5))).dials,
        DialingNode.waiting d = none := by decide +kernel
    rw [hnone d hd] at hp
    cases hp
  · rintro ⟨d, hd, -, p, hp⟩
    have hnone : ∀ d ∈ (run DialingNode.step start closing).dials,
        DialingNode.waiting d = none := by decide +kernel
    rw [hnone d hd] at hp
    cases hp

end DialedInVain

end EasyBlockchain
