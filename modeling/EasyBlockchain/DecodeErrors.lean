/-
`PeerConnection.listen` and frames that do not decode.

`_decode_errors` counts the undecodable frames of a connection and is never set back,
where `docs/p2p.md` speaks of consecutive errors. The two ways of counting close a
connection at the same frame exactly when no decodable frame stands between two of
the first `max_decode_errors_before_disconnect` undecodable ones.
-/
import EasyBlockchain.PeerGate
import EasyBlockchain.Lib.Streak

set_option autoImplicit false

namespace EasyBlockchain

open Py Lib

/-! ## What `json.loads` raises -/

section Loads

variable {α β : Type} {x : PyM α} {f : α → PyM β} {p : Prop}

/-- The computation returns, or raises one of the exceptions of a refused text: no
JSON, or an integer with too many digits. -/
def Refuses (x : PyM α) : Prop := ∀ e, x = .error e → e = .jsonDecodeError ∨ e = .valueError

theorem refuses_ok (a : α) : Refuses (.ok a : PyM α) := by
  intro e h
  cases h

theorem refuses_json : Refuses (.error .jsonDecodeError : PyM α) := by
  intro e h
  exact Or.inl (Except.error.inj h).symm

theorem refuses_value : Refuses (.error .valueError : PyM α) := by
  intro e h
  exact Or.inr (Except.error.inj h).symm

theorem refuses_bind (hx : Refuses x) (hf : ∀ a, Refuses (f a)) : Refuses (x >>= f) := by
  cases x with
  | error e' =>
      intro e h
      rw [error_bind] at h
      exact hx e (by rw [Except.error.inj h])
  | ok a => exact hf a

theorem refuses_ite [Decidable p] {y : PyM α} (hx : Refuses x) (hy : Refuses y) :
    Refuses (if p then x else y) := by
  split_ifs
  · exact hx
  · exact hy

theorem refuses_orRaise (o : Option α) : Refuses (orRaise .jsonDecodeError o) := by
  cases o with
  | none => exact refuses_json
  | some a => exact refuses_ok a

variable [Runtime]

theorem refuses_scanUnsigned (negative : Bool) (s : Str) : Refuses (scanUnsigned negative s) := by
  unfold scanUnsigned
  dsimp only
  split
  · exact refuses_json
  · exact refuses_ite (refuses_ite (refuses_ok _) refuses_value) (refuses_ok _)

theorem refuses_scanScalar (s : Str) : Refuses (scanScalar s) := by
  unfold scanScalar
  split
  iterate 6 exact refuses_ok _
  split
  · exact refuses_ite (refuses_scanUnsigned _ _) (refuses_scanUnsigned _ _)
  · exact refuses_json

/-- The three parsers call each other with less fuel. -/
theorem refuses_parse (fuel : ℕ) : (∀ s, Refuses (parseValue fuel s)) ∧
    (∀ s, Refuses (parseElements fuel s)) ∧ ∀ s, Refuses (parseMembers fuel s) := by
  induction fuel with
  | zero =>
      refine ⟨?_, ?_, ?_⟩
      · intro s
        rw [parseValue]
        exact refuses_json
      · intro s
        rw [parseElements]
        exact refuses_json
      · intro s
        rw [parseMembers]
        exact refuses_json
  | succ fuel ih =>
      obtain ⟨hvalue, helements, hmembers⟩ := ih
      refine ⟨?_, ?_, ?_⟩
      · intro s
        cases s with
        | nil =>
            rw [parseValue]
            exact refuses_json
            simp
        | cons c rest =>
            rw [parseValue]
            refine refuses_ite ?_ (refuses_ite ?_ (refuses_ite ?_ (refuses_scanScalar _)))
            · exact refuses_bind (refuses_orRaise _) fun _ => refuses_ok _
            · split
              · exact refuses_json
              · exact refuses_ite (refuses_ok _) (refuses_bind (helements _) fun _ => refuses_ok _)
            · split
              · exact refuses_json
              · exact refuses_ite (refuses_ok _) (refuses_bind (hmembers _) fun _ => refuses_ok _)
      · intro s
        rw [parseElements]
        refine refuses_bind (hvalue s) fun _ => ?_
        split
        split
        · exact refuses_json
        · exact refuses_ite (refuses_ok _)
            (refuses_ite (refuses_bind (helements _) fun _ => refuses_ok _) refuses_json)
      · intro s
        cases s with
        | nil =>
            rw [parseMembers]
            exact refuses_json
            simp
        | cons c rest =>
            rw [parseMembers]
            refine refuses_ite (refuses_bind (refuses_orRaise _) fun _ => ?_) refuses_json
            split
            split
            · exact refuses_json
            · refine refuses_ite (refuses_bind (hvalue _) fun _ => ?_) refuses_json
              split
              split
              · exact refuses_json
              · exact refuses_ite (refuses_ok _)
                  (refuses_ite (refuses_bind (hmembers _) fun _ => refuses_ok _) refuses_json)

theorem refuses_loads (s : Str) : Refuses (loads s) := by
  unfold loads
  refine refuses_ite refuses_json (refuses_bind ((refuses_parse _).1 _) fun _ => ?_)
  exact refuses_ite (refuses_ok _) refuses_json

/-- What `decode_message` raises is caught by `except (json.JSONDecodeError, ValueError)`. -/
theorem isValueError_of_decode {raw : Str} {e : PyErr} (h : decode_message raw = .error e) :
    e.isValueError = true := by
  unfold decode_message at h
  have hloads := refuses_loads raw
  cases hdata : loads raw with
  | error e' =>
      rw [hdata] at h
      rcases hloads e' hdata with rfl | rfl
      · obtain rfl := Except.error.inj h
        rfl
      · obtain rfl := Except.error.inj h
        rfl
  | ok data =>
      rw [hdata] at h
      cases data with
      | dict d =>
          cases htype : Dict.find d (lit "type") with
          | none =>
              simp only [Except.mapError, ok_bind, htype, orRaise, error_bind] at h
              obtain rfl := Except.error.inj h
              rfl
          | some value =>
              cases hvalue : MessageType.of_value value with
              | none =>
                  simp only [Except.mapError, ok_bind, htype, hvalue, orRaise, error_bind] at h
                  obtain rfl := Except.error.inj h
                  rfl
              | some msg_type =>
                  simp only [Except.mapError, ok_bind, htype, hvalue, orRaise, pure_eq] at h
                  cases h
      | _ =>
          obtain rfl := Except.error.inj h
          rfl

end Loads

/-! ## The loop of `listen` -/

deriving instance DecidableEq for Reading

/-- A received frame; `authenticates` is whether its handler, should it run, marks
the connection as authenticated. -/
structure Frame where
  raw : Str
  authenticates : Bool
  deriving DecidableEq

section Frames

variable [Runtime]

def Frame.message (f : Frame) : Option (MessageType × Dict) := (decode_message f.raw).toOption

def Frame.undecodable (f : Frame) : Bool := f.message.isNone

/-- The message that was given to the handler. -/
def Reading.message : Reading → Option (MessageType × Dict)
  | .handles msg_type payload => some (msg_type, payload)
  | _ => none

/-- The readings of `listen` within the rate limit, one for each frame it reads; the
handlers do not raise. -/
def ListenState.listen (self : ListenState) (max_decode_errors : ℤ) : List Frame → List Reading
  | [] => []
  | f :: rest =>
    match self.read max_decode_errors f.raw true with
    | (.returns, _) => [.returns]
    | (.skips, after) => .skips :: after.listen max_decode_errors rest
    | (.handles msg_type payload, after) =>
      .handles msg_type payload ::
        (if f.authenticates then after.mark_authenticated else after).listen max_decode_errors rest

/-- The number of undecodable frames that closes a connection: one if the setting is
not positive. -/
def decode_limit (max_decode_errors : ℤ) : ℕ := (max 1 max_decode_errors).toNat

/-- The frames before the first that is refused for want of a HELLO. -/
def admitted (authenticated : Bool) : List Frame → List Frame
  | [] => []
  | f :: rest =>
    match f.message with
    | none => f :: admitted authenticated rest
    | some (msg_type, _) =>
      if !authenticated && msg_type ≠ .hello then []
      else f :: admitted (authenticated || f.authenticates) rest

/-! ### One frame -/

variable {self : ListenState} {max_decode_errors : ℤ} {f : Frame}

omit [Runtime] in
theorem one_le_limit : 0 < decode_limit max_decode_errors := by
  unfold decode_limit
  omega

variable (self max_decode_errors) in
theorem read_undecodable (hf : f.message = none) :
    self.read max_decode_errors f.raw true
      = if decode_limit max_decode_errors ≤ self.decode_errors + 1 then
          (.returns, { self with decode_errors := self.decode_errors + 1 }.finish)
        else (.skips, { self with decode_errors := self.decode_errors + 1 }) := by
  have hlimit : max_decode_errors ≤ ((self.decode_errors + 1 : ℕ) : ℤ) ↔
      decode_limit max_decode_errors ≤ self.decode_errors + 1 := by
    unfold decode_limit
    omega
  unfold Frame.message at hf
  cases hdecode : decode_message f.raw with
  | ok m =>
      rw [hdecode] at hf
      cases hf
  | error e =>
      unfold ListenState.read
      simp only [Bool.not_true, Bool.false_eq_true, if_false, hdecode, isValueError_of_decode hdecode,
        if_true, ListenState.decode_error, hlimit]

variable (self max_decode_errors) in
theorem read_decodable {msg_type : MessageType} {payload : Dict}
    (hf : f.message = some (msg_type, payload)) :
    self.read max_decode_errors f.raw true
      = if self.refuses msg_type then (.returns, self.finish)
        else (.handles msg_type payload, self) := by
  unfold Frame.message at hf
  cases hdecode : decode_message f.raw with
  | error e =>
      rw [hdecode] at hf
      cases hf
  | ok m =>
      rw [hdecode] at hf
      obtain rfl : m = (msg_type, payload) := Option.some.inj hf
      unfold ListenState.read
      simp only [Bool.not_true, Bool.false_eq_true, if_false, hdecode]

/-- A connection that need not authenticate is authenticated. -/
def ListenState.Gated (self : ListenState) : Prop := self.require_auth = false → self.authenticated = true

omit [Runtime] in
theorem refuses_iff (h : self.Gated) {msg_type : MessageType} :
    self.refuses msg_type = (!self.authenticated && decide (msg_type ≠ .hello)) := by
  unfold ListenState.refuses
  cases hrequire : self.require_auth with
  | false =>
      rw [h hrequire]
      rfl
  | true => rw [Bool.true_and]

/-! ### All frames -/

theorem admitted_isPrefix (authenticated : Bool) (frames : List Frame) :
    admitted authenticated frames <+: frames := by
  induction frames generalizing authenticated with
  | nil => exact List.prefix_rfl
  | cons f rest ih =>
      rw [admitted]
      split
      · exact (List.prefix_cons_inj f).mpr (ih _)
      · split_ifs
        · exact List.nil_prefix
        · exact (List.prefix_cons_inj f).mpr (ih _)

/-- A frame that stops `admitted` is decodable. -/
theorem lt_admitted {authenticated : Bool} {frames : List Frame} {n : ℕ}
    (hf : frames[n]? = some f) (hundecodable : f.undecodable = true)
    (hn : n ≤ (admitted authenticated frames).length) :
    n < (admitted authenticated frames).length := by
  induction frames generalizing authenticated n with
  | nil => cases hf
  | cons first rest ih =>
      rw [admitted] at hn ⊢
      cases n with
      | zero =>
          obtain rfl := Option.some.inj hf
          have hnone : first.message = none := Option.isNone_iff_eq_none.mp hundecodable
          simp only [hnone]
          exact Nat.succ_pos _
      | succ n =>
          split at hn
          · rename_i hnone
            rw [List.length_cons] at hn ⊢
            have := ih hf (Nat.le_of_succ_le_succ hn)
            omega
          · split_ifs at hn with hgate
            · cases hn
            · rw [if_neg hgate, List.length_cons]
              rw [List.length_cons] at hn
              have := ih hf (Nat.le_of_succ_le_succ hn)
              omega

/-- The connection after a handler has run. -/
def handled (self : ListenState) (f : Frame) : ListenState :=
  if f.authenticates then self.mark_authenticated else self

omit [Runtime] in
theorem handled_spec (h : self.Gated) (f : Frame) : (handled self f).Gated ∧
    (handled self f).authenticated = (self.authenticated || f.authenticates) ∧
    (handled self f).decode_errors = self.decode_errors := by
  unfold handled
  split_ifs with hf
  · exact ⟨fun _ => rfl, by rw [hf, Bool.or_true]; rfl, rfl⟩
  · exact ⟨h, by simp [hf], rfl⟩

variable (max_decode_errors) in
/-- The ways `listen` goes on from one frame to the next. -/
theorem listen_cons (h : self.Gated) (f : Frame) (rest : List Frame) :
    (f.message = none ∧ decode_limit max_decode_errors ≤ self.decode_errors + 1 ∧
      self.listen max_decode_errors (f :: rest) = [.returns]) ∨
    (f.message = none ∧ self.decode_errors + 1 < decode_limit max_decode_errors ∧
      self.listen max_decode_errors (f :: rest) = .skips ::
        { self with decode_errors := self.decode_errors + 1 }.listen max_decode_errors rest) ∨
    ((∃ m, f.message = some m) ∧ admitted self.authenticated (f :: rest) = [] ∧
      self.listen max_decode_errors (f :: rest) = [.returns]) ∨
    ∃ m, f.message = some m ∧
      admitted self.authenticated (f :: rest)
        = f :: admitted (self.authenticated || f.authenticates) rest ∧
      self.listen max_decode_errors (f :: rest) = .handles m.1 m.2 ::
        (handled self f).listen max_decode_errors rest := by
  cases hf : f.message with
  | none =>
      have hread := read_undecodable self max_decode_errors hf
      by_cases hlimit : decode_limit max_decode_errors ≤ self.decode_errors + 1
      · rw [if_pos hlimit] at hread
        exact Or.inl ⟨rfl, hlimit, by rw [ListenState.listen, hread]⟩
      · rw [if_neg hlimit] at hread
        exact Or.inr (Or.inl ⟨rfl, by omega, by rw [ListenState.listen, hread]⟩)
  | some m =>
      obtain ⟨msg_type, payload⟩ := m
      have hread := read_decodable self max_decode_errors hf
      rw [refuses_iff h] at hread
      cases hgate : !self.authenticated && decide (msg_type ≠ .hello) with
      | true =>
          rw [hgate, if_pos rfl] at hread
          refine Or.inr (Or.inr (Or.inl ⟨⟨_, rfl⟩, ?_, by rw [ListenState.listen, hread]⟩))
          simp only [admitted, hf, hgate, if_true]
      | false =>
          rw [hgate, if_neg Bool.false_ne_true] at hread
          refine Or.inr (Or.inr (Or.inr ⟨_, rfl, ?_, by rw [ListenState.listen, hread]; rfl⟩))
          simp only [admitted, hf, hgate, Bool.false_eq_true, if_false]

theorem admitted_undecodable {authenticated : Bool} {rest : List Frame} (hf : f.message = none) :
    admitted authenticated (f :: rest) = f :: admitted authenticated rest := by
  simp only [admitted, hf]

theorem countP_take_succ (f : Frame) (rest : List Frame) (n : ℕ) :
    ((f :: rest).take (n + 1)).countP Frame.undecodable
      = (rest.take n).countP Frame.undecodable + if f.message = none then 1 else 0 := by
  rw [List.take_succ_cons, List.countP_cons]
  simp only [Frame.undecodable, Option.isNone_iff_eq_none]

variable (max_decode_errors) in
/-- What `listen` does with the frames before the count reaches the limit, and with
the one after them. The induction carries the count along. -/
theorem listen_at {frames : List Frame} (h : self.Gated) {n : ℕ}
    (hn : n ≤ (admitted self.authenticated frames).length)
    (hbelow : self.decode_errors + (frames.take n).countP Frame.undecodable
      < decode_limit max_decode_errors) :
    ((self.listen max_decode_errors frames).take n).filterMap Reading.message
      = (frames.take n).filterMap Frame.message ∧
    ∀ f, frames[n]? = some f → ∃ reading, (self.listen max_decode_errors frames)[n]? = some reading ∧
      (f.undecodable = true → (reading = .returns ↔ decode_limit max_decode_errors
        ≤ self.decode_errors + (frames.take n).countP Frame.undecodable + 1)) := by
  induction frames generalizing self n with
  | nil =>
      refine ⟨by simp [ListenState.listen], ?_⟩
      intro f hf
      cases hf
  | cons first rest ih =>
      have hcases := listen_cons max_decode_errors h first rest
      cases n with
      | zero =>
          refine ⟨rfl, ?_⟩
          intro f hf
          obtain rfl := Option.some.inj hf
          rw [List.take_zero, List.countP_nil, Nat.add_zero]
          rcases hcases with ⟨-, hlimit, hlisten⟩ | ⟨-, hlimit, hlisten⟩ | ⟨⟨m, hm⟩, -, hlisten⟩ |
            ⟨m, hm, -, hlisten⟩
          · exact ⟨_, by rw [hlisten]; rfl, fun _ => ⟨fun _ => hlimit, fun _ => rfl⟩⟩
          · refine ⟨.skips, by rw [hlisten]; rfl, fun _ => ⟨?_, ?_⟩⟩
            · intro heq
              cases heq
            · intro hle
              omega
          · exact ⟨_, by rw [hlisten]; rfl, fun hu => by simp [Frame.undecodable, hm] at hu⟩
          · exact ⟨_, by rw [hlisten]; rfl, fun hu => by simp [Frame.undecodable, hm] at hu⟩
      | succ n =>
          rw [countP_take_succ] at hbelow ⊢
          rcases hcases with ⟨hm, hlimit, -⟩ | ⟨hm, -, hlisten⟩ | ⟨-, hadmitted, -⟩ |
            ⟨m, hm, hadmitted, hlisten⟩
          · rw [if_pos hm] at hbelow
            omega
          · rw [if_pos hm] at hbelow ⊢
            rw [admitted_undecodable hm, List.length_cons] at hn
            obtain ⟨hmessages, hnext⟩ := @ih { self with decode_errors := self.decode_errors + 1 } h
              n (Nat.le_of_succ_le_succ hn) (by dsimp only; omega)
            rw [hlisten, List.take_succ_cons, List.take_succ_cons]
            refine ⟨by rw [List.filterMap_cons_none rfl, List.filterMap_cons_none hm, hmessages], ?_⟩
            intro f hf
            obtain ⟨reading, hreading, hreturns⟩ := hnext f hf
            refine ⟨reading, hreading, fun hu => (hreturns hu).trans ?_⟩
            dsimp only
            omega
          · rw [hadmitted] at hn
            cases hn
          · obtain ⟨hgated, hauth, herrors⟩ := handled_spec h first
            rw [if_neg (by rw [hm]; exact Option.some_ne_none m)] at hbelow ⊢
            rw [hadmitted, List.length_cons, ← hauth] at hn
            obtain ⟨hmessages, hnext⟩ := ih hgated (Nat.le_of_succ_le_succ hn)
              (by rw [herrors]; exact hbelow)
            have hreading : Reading.message (.handles m.1 m.2) = some m := rfl
            rw [hlisten, List.take_succ_cons, List.take_succ_cons]
            refine ⟨by rw [List.filterMap_cons_some hreading, List.filterMap_cons_some hm, hmessages],
              ?_⟩
            intro f hf
            obtain ⟨reading, hreading, hreturns⟩ := hnext f hf
            rw [herrors] at hreturns
            exact ⟨reading, hreading, hreturns⟩

/-- A frame that is read comes after admitted frames with a count below the limit. -/
theorem of_received {frames : List Frame} (h : self.Gated)
    (hstart : self.decode_errors < decode_limit max_decode_errors) {n : ℕ}
    (hn : n < (self.listen max_decode_errors frames).length) :
    n < frames.length ∧ n ≤ (admitted self.authenticated frames).length ∧
      self.decode_errors + (frames.take n).countP Frame.undecodable
        < decode_limit max_decode_errors := by
  induction frames generalizing self n with
  | nil => cases hn
  | cons first rest ih =>
      cases n with
      | zero => exact ⟨Nat.succ_pos _, Nat.zero_le _, by simpa using hstart⟩
      | succ n =>
          rw [countP_take_succ, List.length_cons]
          rcases listen_cons max_decode_errors h first rest with
            ⟨-, -, hlisten⟩ | ⟨hm, hlimit, hlisten⟩ | ⟨-, -, hlisten⟩ | ⟨m, hm, hadmitted, hlisten⟩
          · rw [hlisten] at hn
            simp at hn
          · rw [hlisten, List.length_cons] at hn
            obtain ⟨hlength, hle, hbelow⟩ := @ih { self with decode_errors := self.decode_errors + 1 }
              h hlimit n (by omega)
            rw [admitted_undecodable hm, List.length_cons, if_pos hm]
            dsimp only at hle hbelow
            omega
          · rw [hlisten] at hn
            simp at hn
          · obtain ⟨hgated, hauth, herrors⟩ := handled_spec h first
            rw [hlisten, List.length_cons] at hn
            obtain ⟨hlength, hle, hbelow⟩ := ih hgated (by rw [herrors]; exact hstart)
              (n := n) (by omega)
            rw [hadmitted, List.length_cons, if_neg (by rw [hm]; exact Option.some_ne_none m)]
            rw [hauth] at hle
            rw [herrors] at hbelow
            omega

/-! ## Errors in a row -/

/-- The connection is closed for decode errors at a frame exactly when the last frames,
as many as the limit, were all undecodable; and every decodable frame before such a
point, as long as no frame is refused for want of a HELLO, is handled once, in order. -/
structure ClosesInARow (max_decode_errors : ℤ) (start : ListenState) (frames : List Frame) : Prop where
  closes : ∀ (n : ℕ) (f : Frame), frames[n]? = some f →
    n < (start.listen max_decode_errors frames).length →
    ((f.undecodable = true ∧ (start.listen max_decode_errors frames)[n]? = some .returns) ↔
      Streak Frame.undecodable (decode_limit max_decode_errors) (frames.take (n + 1)))
  handles : ∀ n ≤ (admitted start.authenticated frames).length,
    (∀ m < n, ¬ Streak Frame.undecodable (decode_limit max_decode_errors) (frames.take (m + 1))) →
    ((start.listen max_decode_errors frames).take n).filterMap Reading.message
      = (frames.take n).filterMap Frame.message

theorem take_admitted {authenticated : Bool} {frames : List Frame} {n : ℕ}
    (hn : n ≤ (admitted authenticated frames).length) :
    (admitted authenticated frames).take n = frames.take n := by
  obtain ⟨rest, hrest⟩ := admitted_isPrefix authenticated frames
  conv_rhs => rw [← hrest]
  rw [List.take_append_of_le_length hn]

/-- A new connection closes for errors in a row exactly on frames where no decodable
frame interrupts the first undecodable ones. -/
theorem closes_in_a_row_iff (peer_id : Str) (require_auth : Bool) (max_decode_errors : ℤ)
    (frames : List Frame) :
    ClosesInARow max_decode_errors (.create peer_id require_auth) frames ↔
      Unbroken Frame.undecodable (decode_limit max_decode_errors) (admitted (!require_auth) frames) := by
  generalize hself : ListenState.create peer_id require_auth = self
  have hgated : self.Gated := by
    rw [← hself]
    intro h
    change require_auth = false at h
    subst h
    rfl
  have hauth : self.authenticated = !require_auth := by
    rw [← hself]
    rfl
  have hzero : self.decode_errors = 0 := by
    rw [← hself]
    rfl
  rw [← hauth, unbroken_iff one_le_limit]
  -- where the count reaches the limit, for the admitted frames and for all of them
  have hreaches : ∀ n, Reaches Frame.undecodable (decode_limit max_decode_errors)
      (admitted self.authenticated frames) n → ∃ f, frames[n]? = some f ∧ f.undecodable = true ∧
      (frames.take n).countP Frame.undecodable < decode_limit max_decode_errors ∧
      decode_limit max_decode_errors ≤ (frames.take n).countP Frame.undecodable + 1 := by
    rintro n ⟨hn, hbelow, hreach⟩
    have hlength := (admitted_isPrefix self.authenticated frames).length_le
    obtain ⟨f, hf⟩ : ∃ f, frames[n]? = some f := ⟨_, List.getElem?_eq_getElem (by omega)⟩
    rw [take_admitted hn.le] at hbelow
    rw [take_admitted hn, List.take_add_one, hf, Option.toList_some, List.countP_append,
      List.countP_singleton] at hreach
    split_ifs at hreach with hu
    · exact ⟨f, hf, hu, hbelow, hreach.ge⟩
    · omega
  have hat : ∀ n ≤ (admitted self.authenticated frames).length,
      (frames.take n).countP Frame.undecodable < decode_limit max_decode_errors → _ :=
    fun n hn hbelow => listen_at max_decode_errors hgated hn
      (by rw [hzero, Nat.zero_add]; exact hbelow)
  constructor
  · intro h n hn
    obtain ⟨f, hf, hu, hbelow, hlimit⟩ := hreaches n hn
    obtain ⟨-, hnext⟩ := hat n hn.1.le hbelow
    obtain ⟨reading, hreading, hreturns⟩ := hnext f hf
    rw [hzero, Nat.zero_add] at hreturns
    obtain rfl := (hreturns hu).mpr hlimit
    rw [take_admitted hn.1]
    exact (h.closes n f hf (List.getElem?_eq_some_iff.mp hreading).1).mp ⟨hu, hreading⟩
  · intro h
    refine ⟨?_, ?_⟩
    · intro n f hf hn
      obtain ⟨hlength, hle, hbelow⟩ := of_received hgated (by rw [hzero]; exact one_le_limit) hn
      rw [hzero, Nat.zero_add] at hbelow
      obtain ⟨-, hnext⟩ := hat n hle hbelow
      obtain ⟨reading, hreading, hreturns⟩ := hnext f hf
      rw [hzero, Nat.zero_add] at hreturns
      constructor
      · rintro ⟨hu, hclosed⟩
        rw [hreading] at hclosed
        have hlimit := (hreturns hu).mp (Option.some.inj hclosed)
        have hlt := lt_admitted hf hu hle
        rw [← take_admitted hlt]
        refine h n ⟨hlt, by rw [take_admitted hle]; exact hbelow, ?_⟩
        rw [take_admitted hlt, List.take_add_one, hf, Option.toList_some, List.countP_append,
          List.countP_singleton, if_pos hu]
        omega
      · intro hstreak
        obtain ⟨-, -, hreach⟩ := reaches_of_streak hlength hstreak hbelow
        rw [List.take_add_one, hf, Option.toList_some, List.countP_append, List.countP_singleton]
          at hreach
        split_ifs at hreach with hu
        · refine ⟨hu, ?_⟩
          rw [hreading, (hreturns hu).mpr hreach.ge]
        · omega
    · intro n hn hnone
      refine (hat n hn ?_).1
      by_contra hfull
      rw [not_lt] at hfull
      -- the count reached the limit at an earlier frame, where there is a streak
      obtain ⟨m, hm, hbelow, hreach⟩ := exists_reaches one_le_limit hfull
      rw [List.length_take] at hm
      have hmn : m < n := by omega
      rw [List.take_take, Nat.min_eq_left (by omega)] at hbelow hreach
      apply hnone m hmn
      have htake := @take_admitted _ self.authenticated frames (m + 1) (by omega)
      rw [← htake]
      refine h m ⟨by omega, ?_, ?_⟩
      · rw [take_admitted (by omega)]
        exact hbelow
      · rw [take_admitted (by omega)]
        exact hreach

end Frames

/-! ## An interrupted count -/

namespace Interrupted

attribute [local instance] cpython

def bad : Frame := ⟨lit "x", false⟩

def good : Frame := ⟨lit "\x7b\"type\": \"PING\"\x7d", false⟩

/-- With a limit of two, the second undecodable frame closes the connection though a
PING came before it. -/
theorem closed_after_good :
    ¬ ClosesInARow 2 (.create (lit "p") false) [bad, good, bad] := by
  intro h
  have hlength : ((ListenState.create (lit "p") false).listen 2 [bad, good, bad]).length = 3 := by
    decide +kernel
  obtain ⟨-, hstreak⟩ := (h.closes 2 bad rfl (by rw [hlength]; decide)).mp
    ⟨by decide +kernel, by decide +kernel⟩
  have hgood := hstreak good (by decide)
  exact absurd hgood (by decide +kernel)

end Interrupted

end EasyBlockchain
