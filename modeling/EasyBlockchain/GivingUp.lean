/-
`network/node.py`: when a URL is dialed, and when never again.

Calls of `connect_peer` come from the reconnect loop, from discovery and from the
start of the node, and overlap in any way. The dials of one URL do not: a call goes
on only where the URL is neither connected nor being dialed, and is due. A URL whose
recorded attempts reach `max_attempts` is never due again. Only `record_success`
takes that back, and a connection comes from a dial; so once no dial of the URL is
under way, the node has given it up for good.
-/
import EasyBlockchain.RetryCount

set_option autoImplicit false

namespace EasyBlockchain

open Py Lib

/-! ## Attempts that are used up -/

namespace ReconnectManager

/-- As many attempts are recorded for the URL as are allowed. -/
structure UsedUp (manager : ReconnectManager) (url : Str) : Prop where
  enabled : manager.settings.enabled = true
  limited : 0 < manager.settings.max_attempts
  reached : manager.settings.max_attempts ≤ manager.attempts_of url

/-- A URL whose attempts are used up has no time of a retry. -/
def Barred (manager : ReconnectManager) : Prop :=
  ∀ url, manager.UsedUp url → manager.next_retry_at.find url = some (.inf false)

variable {manager : ReconnectManager} {url other : Str} {now : PyFloat}

theorem barred_start (settings : ReconnectSettings) : (start settings).Barred := by
  intro url h
  have hreached : settings.max_attempts ≤ 0 := h.reached
  exact absurd h.limited (not_lt.mpr hreached)

theorem Barred.should_retry (h : manager.Barred) (hused : manager.UsedUp url) (now : PyFloat) :
    manager.should_retry url now = false :=
  should_retry_of_inf hused.enabled (h url hused)

theorem Barred.record_success (h : manager.Barred) (url : Str) :
    (manager.record_success url).Barred := by
  intro other hused
  have hreached := hused.reached
  rw [record_success_settings, attempts_of_record_success] at hreached
  rw [next_retry_at_record_success]
  split_ifs at hreached ⊢ with hother
  · exact absurd hused.limited (not_lt.mpr hreached)
  · exact h other ⟨hused.enabled, hused.limited, hreached⟩

/-- The connection of another URL gives no attempts back. -/
theorem UsedUp.record_success (h : manager.UsedUp url) (hother : url ≠ other) :
    (manager.record_success other).UsedUp url := by
  refine ⟨h.enabled, h.limited, ?_⟩
  rw [attempts_of_record_success, if_neg hother]
  exact h.reached

variable [Runtime] [FloatMath]

/-- A failure uses attempts up. -/
theorem UsedUp.record_failure (h : manager.UsedUp url) (failed : Str) (now : PyFloat) :
    (manager.record_failure failed now).1.UsedUp url := by
  refine ⟨?_, ?_, ?_⟩
  · rw [record_failure_settings]
    exact h.enabled
  · rw [record_failure_settings]
    exact h.limited
  · rw [record_failure_settings, attempts_of_record_failure h.enabled]
    have hreached := h.reached
    split_ifs with hurl
    · subst hurl
      omega
    · exact hreached

theorem Barred.record_failure (h : manager.Barred) (url : Str) (now : PyFloat) :
    (manager.record_failure url now).1.Barred := by
  intro other hused
  have henabled := hused.enabled
  have hlimited := hused.limited
  have hreached := hused.reached
  rw [record_failure_settings] at henabled hlimited hreached
  rw [attempts_of_record_failure henabled] at hreached
  split_ifs at hreached with hother
  · -- the attempt that is the last one sets the time to infinity
    subst hother
    refine next_retry_at_record_failure henabled ?_
    rw [retry_at, if_pos ⟨hlimited, hreached⟩]
  · rw [next_retry_at_record_failure_other hother]
    exact h other ⟨henabled, hlimited, hreached⟩

end ReconnectManager

namespace DialingNode

/-! ## What an event does to the dials -/

/-- The URLs of all dials, in the order in which they began. -/
def dialed_urls (node : DialingNode) : List Str := node.dials.map (·.url)

/-- A dial of the URL is in `P2PServer.connect_peer`. -/
def Calling (node : DialingNode) (url : Str) : Prop :=
  ∃ d ∈ node.dials, d.url = url ∧ ∃ call, d.point = .calling call

section Dials

variable {node after : DialingNode} {url : Str}

/-- The dials are the same ones; none of them is back in its call. -/
structure SameDials (node after : DialingNode) : Prop where
  urls : after.dialed_urls = node.dialed_urls
  calling : ∀ url, after.Calling url → node.Calling url

theorem SameDials.of_eq (h : after.dials = node.dials) : SameDials node after := by
  refine ⟨by rw [dialed_urls, h, dialed_urls], ?_⟩
  intro url hcalling
  rw [Calling, h] at hcalling
  exact hcalling

/-- One dial has come to another point. -/
theorem SameDials.of_suspend {dial : ℕ} {point : DialPoint} (hpoint : ∀ call, point ≠ .calling call)
    (h : after.dials = node.dials.modify dial fun d => { d with point := point }) :
    SameDials node after := by
  refine ⟨?_, ?_⟩
  · rw [dialed_urls, h, dialed_urls]
    apply List.ext_getElem?
    intro i
    rw [List.getElem?_map, List.getElem?_map, List.getElem?_modify, Option.map_eq_map,
      Option.map_map]
    congr 1
    funext d
    by_cases hi : dial = i
    · simp [hi]
    · simp [hi]
  · rintro url ⟨d, hd, hurl, call, hcall⟩
    rw [h] at hd
    obtain ⟨i, hi⟩ := List.mem_iff_getElem?.mp hd
    rcases modify_point_cases hi with ⟨-, hsame, -⟩ | ⟨-, hi⟩
    · exact absurd (hsame.symm.trans hcall) (hpoint call)
    · exact ⟨d, List.mem_of_getElem? hi, hurl, call, hcall⟩

/-- One more dial has begun; the other URLs keep theirs. -/
structure NewDial (node after : DialingNode) (url : Str) : Prop where
  urls : after.dialed_urls = node.dialed_urls ++ [url]
  calling : ∀ other, other ≠ url → after.Calling other → node.Calling other

theorem NewDial.of_append {new : Dial} (h : after.dials = node.dials ++ [new])
    (hurl : new.url = url) : NewDial node after url := by
  refine ⟨?_, ?_⟩
  · rw [dialed_urls, h, List.map_append, dialed_urls, List.map_singleton, hurl]
  · rintro other hother ⟨d, hd, hd_url, hcall⟩
    rw [h] at hd
    rcases List.mem_append.mp hd with hd | hd
    · exact ⟨d, hd, hd_url, hcall⟩
    · rw [List.mem_singleton.mp hd, hurl] at hd_url
      exact absurd hd_url.symm hother

end Dials

section Steps

variable [Runtime] [FloatMath] {settings : ServerSettings} {node after : DialingNode} {url : Str}

/-- A dial gives up its connection: where it goes on, and what is recorded. -/
theorem auth_result_eq (node : DialingNode) (dial : ℕ) (url p : Str) (now : PyFloat) :
    ∃ point, (∀ call, point ≠ DialPoint.calling call) ∧
      (node.auth_result dial url p false now).dials
        = node.dials.modify dial (fun d => { d with point := point }) ∧
      (node.auth_result dial url p false now).reconnect
        = (node.reconnect.record_failure url now).1 := by
  unfold auth_result
  simp only [Bool.false_eq_true, if_false]
  split
  · exact ⟨.returned, by simp, rfl, rfl⟩
  · rw [close_peer_eq]
    exact ⟨.closing, by simp, rfl, rfl⟩

/-- An event begins a dial only where `connect_peer` goes on. -/
theorem change_dials {e : DialEvent} (hchange : Change node e after) :
    SameDials node after ∨
      ∃ url now, e = .connect_peer url now ∧ node.Dials url now ∧ NewDial node after url := by
  cases hchange with
  | stays => exact Or.inl (.of_eq rfl)
  | starts hdials => exact Or.inr ⟨_, _, rfl, hdials, .of_append rfl rfl⟩
  | refused hdials => exact Or.inr ⟨_, _, rfl, hdials, .of_append rfl rfl⟩
  | goes_on => exact Or.inl (.of_eq rfl)
  | fails => exact Or.inl (.of_suspend (by simp) rfl)
  | raises => exact Or.inl (.of_suspend (by simp) rfl)
  | dialed => exact Or.inl (.of_suspend (by simp) rfl)
  | sleeps => exact Or.inl (.of_suspend (by simp) rfl)
  | authenticated => exact Or.inl (.of_suspend (by simp) rfl)
  | @unauthenticated _ dial d p _ now =>
      obtain ⟨point, hpoint, hdials, -⟩ := auth_result_eq node dial d.url p now
      exact Or.inl (.of_suspend hpoint hdials)
  | ends => exact Or.inl (.of_suspend (by simp) rfl)
  | greets => exact Or.inl (.of_eq rfl)
  | greeted => exact Or.inl (.of_eq rfl)
  | enters => exact Or.inl (.of_eq rfl)
  | serves => exact Or.inl (.of_eq rfl)
  | disconnected =>
      refine Or.inl (.of_eq ?_)
      unfold on_peer_disconnected
      dsimp only
      split
      · rfl
      · split <;> rfl

/-- What an event records: nothing, a failure, or the success of a dial that was in
its call. -/
inductive Records (node : DialingNode) : ReconnectManager → Prop
  | keeps : Records node node.reconnect
  | fails (url : Str) (now : PyFloat) : Records node (node.reconnect.record_failure url now).1
  | connects {url : Str} (h : node.Calling url) : Records node (node.reconnect.record_success url)

theorem change_records {e : DialEvent} (hchange : Change node e after) :
    node.Records after.reconnect := by
  cases hchange with
  | refused => exact .fails _ _
  | fails => exact .fails _ _
  | dialed hdial => exact .connects ⟨_, List.mem_of_getElem? hdial, rfl, _, rfl⟩
  | @unauthenticated _ dial d p _ now =>
      obtain ⟨point, -, -, hreconnect⟩ := auth_result_eq node dial d.url p now
      rw [hreconnect]
      exact .fails _ _
  | disconnected =>
      unfold on_peer_disconnected
      dsimp only
      split
      · exact .keeps
      · split
        · exact .keeps
        · exact .fails _ _
  | _ => exact .keeps

/-! ## Given up -/

omit [Runtime] [FloatMath] in
/-- The attempts of the URL are used up, and no dial of it may still connect. -/
structure GivenUp (node : DialingNode) (url : Str) : Prop where
  barred : node.reconnect.Barred
  used_up : node.reconnect.UsedUp url
  idle : ¬ node.Calling url

theorem barred_change (h : node.reconnect.Barred) {e : DialEvent} (hchange : Change node e after) :
    after.reconnect.Barred := by
  have hrecords := change_records hchange
  generalize after.reconnect = manager at hrecords ⊢
  cases hrecords with
  | keeps => exact h
  | fails url now => exact h.record_failure url now
  | connects => exact h.record_success _

theorem GivenUp.used_up_change (h : GivenUp node url) {e : DialEvent}
    (hchange : Change node e after) : after.reconnect.UsedUp url := by
  have hrecords := change_records hchange
  generalize after.reconnect = manager at hrecords ⊢
  cases hrecords with
  | keeps => exact h.used_up
  | fails failed now => exact h.used_up.record_failure failed now
  | @connects other hcalling =>
      refine h.used_up.record_success ?_
      rintro rfl
      exact h.idle hcalling

/-- Whatever happens, a URL that is given up is not dialed and stays given up. -/
theorem GivenUp.change (h : GivenUp node url) {e : DialEvent} (hchange : Change node e after) :
    GivenUp after url ∧ after.dialed_urls.count url = node.dialed_urls.count url := by
  have hbarred := barred_change h.barred hchange
  have hused := h.used_up_change hchange
  rcases change_dials hchange with hsame | ⟨other, now, -, hdials, hnew⟩
  · refine ⟨⟨hbarred, hused, fun hcalling => h.idle (hsame.calling url hcalling)⟩, ?_⟩
    rw [hsame.urls]
  · have hother : url ≠ other := by
      rintro rfl
      have hdue := hdials.due
      rw [h.barred.should_retry h.used_up now] at hdue
      cases hdue
    refine ⟨⟨hbarred, hused, fun hcalling => h.idle (hnew.calling url hother hcalling)⟩, ?_⟩
    rw [hnew.urls, List.count_append, List.count_singleton, if_neg (by simpa using Ne.symm hother),
      Nat.add_zero]

/-- The node at a time of a run. -/
def node_at (node : DialingNode) (events : List DialEvent) (k : ℕ) : DialingNode :=
  run DialingNode.step node (events.take k)

/-- How a node dials. -/
structure DialsWell (node : ℕ → DialingNode) (events : List DialEvent) : Prop where
  /-- No two dials of a URL are under way at once. -/
  apart : ∀ (k i j : ℕ) (d d' : Dial), (node k).dials[i]? = some d → (node k).dials[j]? = some d' →
    d.point ≠ .returned → d'.point ≠ .returned → d.url = d'.url → i = j
  /-- A dial begins with a call of `connect_peer` for a URL that is neither connected
  nor being dialed, and whose time has come. -/
  begun : ∀ k url, (node (k + 1)).dialed_urls.count url ≠ (node k).dialed_urls.count url →
    ∃ now, events[k]? = some (.connect_peer url now) ∧ (node k).Dials url now
  /-- A URL whose attempts are used up while none of its dials may still connect is
  never dialed again. -/
  final : ∀ k l url, k ≤ l → (node k).reconnect.UsedUp url → ¬ (node k).Calling url →
    (node l).dialed_urls.count url = (node k).dialed_urls.count url

theorem barred_step (hwf : Wf settings node) (h : node.reconnect.Barred) (e : DialEvent) :
    (node.step e).reconnect.Barred :=
  barred_change h (step_change hwf e)

/-- The tasks are in order, and no URL with used up attempts is due. -/
theorem node_at_sound (local_url : Str) (settings : ServerSettings) (reconnect : ReconnectSettings)
    (events : List DialEvent) (k : ℕ) :
    Wf settings (node_at (start local_url settings reconnect) events k) ∧
      (node_at (start local_url settings reconnect) events k).reconnect.Barred := by
  refine run_invariant_take (C := fun _ _ => True)
    (I := fun node => Wf settings node ∧ node.reconnect.Barred) ?_
    ⟨Wf.start settings local_url reconnect, ReconnectManager.barred_start reconnect⟩
    (alwaysMeets_true _ _ events) k
  rintro node e ⟨hwf, hbarred⟩ -
  exact ⟨hwf.step e, barred_step hwf hbarred e⟩

/-- In every run, whichever tasks call `connect_peer` and however they interleave, the
dials of a URL do not overlap, begin when they are due, and end for good after
`max_attempts` recorded failures. -/
theorem dials_well (local_url : Str) (settings : ServerSettings) (reconnect : ReconnectSettings)
    (events : List DialEvent) :
    DialsWell (node_at (start local_url settings reconnect) events) events := by
  have hsound := node_at_sound local_url settings reconnect events
  generalize start local_url settings reconnect = first at hsound
  -- the node after one more event, if there is one
  have hnext : ∀ k, (∃ e, events[k]? = some e ∧
      Change (node_at first events k) e (node_at first events (k + 1))) ∨
      node_at first events (k + 1) = node_at first events k := by
    intro k
    cases hevent : events[k]? with
    | none =>
        have hlength := List.getElem?_eq_none_iff.mp hevent
        refine Or.inr ?_
        rw [node_at, node_at, List.take_of_length_le hlength, List.take_of_length_le (by omega)]
    | some e =>
        refine Or.inl ⟨e, rfl, ?_⟩
        have hstep : node_at first events (k + 1) = (node_at first events k).step e :=
          run_take_succ DialingNode.step first hevent
        rw [hstep]
        exact step_change (hsound k).1 e
  refine ⟨?_, ?_, ?_⟩
  · intro k i j d d' hd hd' hunder hunder' hurl
    exact (hsound k).1.distinct i j d d' hd hd' hunder hunder' hurl
  · intro k url hcount
    rcases hnext k with ⟨e, hevent, hchange⟩ | hsame
    · rcases change_dials hchange with hsame | ⟨other, now, rfl, hdials, hnew⟩
      · exact absurd (by rw [hsame.urls]) hcount
      · have hurl : url = other := by
          by_contra hne
          rw [hnew.urls, List.count_append, List.count_singleton,
            if_neg (by simpa using Ne.symm hne)] at hcount
          exact hcount rfl
        subst hurl
        exact ⟨now, hevent, hdials⟩
    · exact absurd (by rw [hsame]) hcount
  · intro k l url hkl hused hidle
    have hgiven : GivenUp (node_at first events l) url ∧
        (node_at first events l).dialed_urls.count url
          = (node_at first events k).dialed_urls.count url := by
      induction l, hkl using Nat.le_induction with
      | base => exact ⟨⟨(hsound k).2, hused, hidle⟩, rfl⟩
      | succ l hkl ih =>
          rcases hnext l with ⟨e, -, hchange⟩ | hsame
          · obtain ⟨hstill, hcount⟩ := ih.1.change hchange
            exact ⟨hstill, hcount.trans ih.2⟩
          · rw [hsame]
            exact ih
    exact hgiven.2

end Steps

end DialingNode

/-! A URL that refuses both attempts it is given. -/

namespace DialedInVain

attribute [local instance] cpython FloatMath.rounded

/-- Much later the reconnect loop comes to the URL again. -/
def once_more : List DialEvent :=
  refused 0 (.fin 0) ++ refused 1 (.fin 5) ++ [.connect_peer url (.fin 1000)]

theorem given_up_for_good :
    (DialingNode.node_at start once_more 6).reconnect.UsedUp url ∧
      (DialingNode.node_at start once_more 7).dialed_urls.count url = 2 := by
  have hused : (DialingNode.node_at start once_more 6).reconnect.UsedUp url :=
    ⟨by decide +kernel, by decide +kernel, by decide +kernel⟩
  have hreturned : ∀ d ∈ (DialingNode.node_at start once_more 6).dials, d.point = .returned := by
    decide +kernel
  have hidle : ¬ (DialingNode.node_at start once_more 6).Calling url := by
    rintro ⟨d, hd, -, call, hcall⟩
    rw [hreturned d hd] at hcall
    cases hcall
  have htwice : (DialingNode.node_at start once_more 6).dialed_urls.count url = 2 := by
    decide +kernel
  refine ⟨hused, ?_⟩
  rw [← htwice]
  exact (DialingNode.dials_well (lit "ws://self") settings reconnect once_more).final 6 7 url
    (by decide) hused hidle

end DialedInVain

end EasyBlockchain
