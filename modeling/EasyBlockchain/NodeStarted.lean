/-
What holds of a node from its construction on.

`Created` is what the factory makes for a proof-of-stake node: a protocol that
knows one key, the node's own. `LiveNode.Started` holds after every constructor
and is kept by all that happens to a running node, as long as the validators
that are registered later are others.
-/
import EasyBlockchain.NodeInit
import EasyBlockchain.NodeChanges

set_option autoImplicit false

namespace EasyBlockchain

open Py Lib

/-! ## The protocol a constructor creates -/

section Create

variable [Rsa] {settings : ConsensusSettings} {own : Str} {key : Rsa.PrivateKey}
  {genesis_stakes : StakeMap}

/-- The PEM text of the public key of a key pair. -/
def publicPem (key : Rsa.PrivateKey) : Str := Rsa.public_bytes (Rsa.public_key key)

/-- The rules a constructor creates: the only registered key is the node's own. -/
structure Created (settings : ConsensusSettings) (own : Str) (key : Rsa.PrivateKey)
    (pos : ProofOfStake) : Prop where
  same_settings : pos.settings = settings.pos
  own_id : pos.node_validator_id = some own
  manager : pos.signature_manager = .of_key key
  genesis : pos.genesis_prev_hash = settings.genesis_prev_hash
  keys : ∀ id, pos.validator_public_keys.find id = if id = own then some (publicPem key) else none

/-- What `register_validator` does without a key. -/
theorem register_validator_own {p : ProofOfStake} (hown : p.node_validator_id = some own)
    (hmanager : p.signature_manager = .of_key key) (id : Str) (stake : ℤ) :
    p.register_validator id stake none =
      if stake < p.settings.min_stake then .error .valueError
      else .ok { p with
        validators := p.validators.set id stake
        validator_public_keys := if id = own then p.validator_public_keys.set id (publicPem key)
          else p.validator_public_keys } := by
  unfold ProofOfStake.register_validator
  by_cases hmin : stake < p.settings.min_stake
  · rw [if_pos hmin, if_pos hmin]
  rw [if_neg hmin, if_neg hmin]
  simp only [ProofOfStake.register_validator.register_own, hmanager, SignatureManager.of_key, hown,
    Option.some.injEq]
  by_cases hid : own = id
  · rw [if_pos hid, if_pos hid.symm]
    rfl
  · rw [if_neg hid, if_neg (Ne.symm hid)]

/-- Registering validators without keys succeeds where all stakes are at least
the minimum. -/
theorem register_all_own_ok {p : ProofOfStake} (hown : p.node_validator_id = some own)
    (hmanager : p.signature_manager = .of_key key) {entries : List (Str × ℤ)}
    (h : ∀ entry ∈ entries, p.settings.min_stake ≤ entry.2) :
    ∃ q, entries.foldlM (fun (p : ProofOfStake) entry =>
      p.register_validator entry.1 entry.2 none) p = .ok q := by
  induction entries generalizing p with
  | nil => exact ⟨p, rfl⟩
  | cons entry rest ih =>
      rw [List.forall_mem_cons] at h
      rw [List.foldlM_cons, register_validator_own hown hmanager, if_neg (not_lt.mpr h.1), ok_bind]
      exact ih hown hmanager h.2

/-- Registering validators without keys registers a key for the node only. -/
theorem register_all_own {p q : ProofOfStake} (hown : p.node_validator_id = some own)
    (hmanager : p.signature_manager = .of_key key) {entries : List (Str × ℤ)}
    (h : entries.foldlM (fun (p : ProofOfStake) entry =>
      p.register_validator entry.1 entry.2 none) p = .ok q) :
    (∀ entry ∈ entries, p.settings.min_stake ≤ entry.2) ∧
      q.settings = p.settings ∧ q.node_validator_id = some own ∧
      q.signature_manager = .of_key key ∧ q.genesis_prev_hash = p.genesis_prev_hash ∧
      (∀ id, id ≠ own → q.validator_public_keys.find id = p.validator_public_keys.find id) ∧
      (own ∈ entries.map Prod.fst ∨ p.validator_public_keys.find own = some (publicPem key) →
        q.validator_public_keys.find own = some (publicPem key)) := by
  induction entries generalizing p with
  | nil =>
      obtain rfl := Except.ok.inj h
      exact ⟨by simp, rfl, hown, hmanager, rfl, fun _ _ => rfl, by simp⟩
  | cons entry rest ih =>
      rw [List.foldlM_cons, register_validator_own hown hmanager] at h
      by_cases hmin : entry.2 < p.settings.min_stake
      · rw [if_pos hmin] at h
        cases h
      rw [if_neg hmin, ok_bind] at h
      obtain ⟨hall, hsettings, hid, hq_manager, hgenesis, hothers, hkey⟩ := ih (by exact hown)
        (by exact hmanager) h
      refine ⟨List.forall_mem_cons.mpr ⟨not_lt.mp hmin, hall⟩, hsettings, hid, hq_manager, hgenesis,
        ?_, ?_⟩
      · intro id hne
        rw [hothers id hne]
        by_cases hentry : entry.1 = own
        · rw [if_pos hentry, StrDict.find_set, if_neg (fun heq => hne (heq.trans hentry))]
        · rw [if_neg hentry]
      · intro hknown
        apply hkey
        by_cases hentry : entry.1 = own
        · right
          rw [if_pos hentry, StrDict.find_set, if_pos hentry.symm]
        · rw [if_neg hentry]
          rcases hknown with hmem | hregistered
          · left
            rcases List.mem_cons.mp hmem with hfirst | hrest
            · exact absurd hfirst.symm hentry
            · exact hrest
          · exact Or.inr hregistered

omit [Rsa] in
/-- The node is among the stakes it registers. -/
theorem mem_registered_stakes (settings : ConsensusSettings) (hown : own ≠ [])
    (genesis_stakes : StakeMap) :
    own ∈ (Consensus.registered_stakes settings (some own) (some genesis_stakes)).entries.map
      Prod.fst := by
  rw [StrDict.mem_map_fst]
  simp only [Consensus.registered_stakes, Option.getD_some, Bool.and_eq_true, Bool.not_eq_true',
    List.isEmpty_eq_false_iff]
  by_cases hcontains : genesis_stakes.contains own = true
  · rw [if_neg (by simp [hcontains])]
    exact hcontains
  · rw [if_pos ⟨hown, by simpa using hcontains⟩, StrDict.contains, StrDict.find_set, if_pos rfl]
    rfl

variable (settings) in
omit [Rsa] in
/-- The stakes a proof-of-stake node registers are the genesis stakes where it
is among them. -/
theorem registered_stakes_eq_iff (hown : own ≠ []) :
    Consensus.registered_stakes settings (some own) (some genesis_stakes) = genesis_stakes ↔
      genesis_stakes.contains own = true := by
  constructor
  · intro h
    have hmem := mem_registered_stakes settings hown genesis_stakes
    rw [h] at hmem
    exact StrDict.mem_map_fst.mp hmem
  · intro h
    simp [Consensus.registered_stakes, h]

/-- What a proof-of-stake constructor creates; it needs stakes of at least the
minimum. -/
theorem create_pos (htype : settings.type = lit "pos") (hown : own ≠ []) {c : Consensus}
    (h : Consensus.create_consensus settings (some own) (.of_key key) (some genesis_stakes)
      = .ok c) :
    (∀ entry ∈ (Consensus.registered_stakes settings (some own) (some genesis_stakes)).entries,
      settings.pos.min_stake ≤ entry.2) ∧
    ∃ pos, c = .pos pos ∧ Created settings own key pos ∧
      pos.validators = Consensus.registered_stakes settings (some own) (some genesis_stakes) := by
  rw [Consensus.create_consensus, htype, if_neg (by decide), if_pos rfl] at h
  obtain ⟨registered, hregistered, h⟩ := bind_eq_ok.mp h
  obtain ⟨hall, hsettings, hid, hmanager, hgenesis, hothers, hkey⟩ :=
    @register_all_own _ own key _ _ rfl rfl _ hregistered
  obtain ⟨-, -, -, hentries⟩ := register_all_eq_ok hregistered
    (Consensus.registered_stakes settings (some own) (some genesis_stakes)).nodup
  refine ⟨hall, registered, (Except.ok.inj h).symm, ⟨hsettings, hid, hmanager, hgenesis, ?_⟩, ?_⟩
  · intro id
    by_cases hid : id = own
    · rw [if_pos hid, hid]
      exact hkey (Or.inl (mem_registered_stakes settings hown genesis_stakes))
    · rw [if_neg hid, hothers id hid]
      rfl
  · rcases hv : registered.validators with ⟨entries, hnodup⟩
    rw [hv] at hentries
    subst hentries
    rfl

/-- A created protocol elects proposers with the genesis stakes it was given. -/
theorem create_pos_genesis {manager : SignatureManager} {pos : ProofOfStake}
    (h : Consensus.create_consensus settings (some own) manager (some genesis_stakes)
      = .ok (.pos pos)) : pos.genesis_stakes = some genesis_stakes := by
  unfold Consensus.create_consensus at h
  split at h
  · cases h
  split at h
  swap
  · cases h
  obtain ⟨registered, hregistered, h⟩ := bind_eq_ok.mp h
  obtain rfl := Consensus.pos.inj (Except.ok.inj h)
  obtain ⟨-, -, hgenesis, -⟩ := register_all_eq_ok hregistered
    (Consensus.registered_stakes settings (some own) (some genesis_stakes)).nodup
  exact hgenesis

variable (key) in
theorem create_pos_ok (htype : settings.type = lit "pos")
    (h : ∀ entry ∈ (Consensus.registered_stakes settings (some own) (some genesis_stakes)).entries,
      settings.pos.min_stake ≤ entry.2) :
    ∃ c, Consensus.create_consensus settings (some own) (.of_key key) (some genesis_stakes)
      = .ok c := by
  rw [Consensus.create_consensus, htype, if_neg (by decide), if_pos rfl]
  obtain ⟨q, hq⟩ := @register_all_own_ok _ own key
    ⟨settings.pos, some own, .of_key key, .empty, some genesis_stakes, .empty,
      settings.genesis_prev_hash⟩ rfl rfl _ h
  exact ⟨.pos q, bind_eq_ok.mpr ⟨q, hq, rfl⟩⟩

end Create

/-! ## What holds of a node from its construction on -/

namespace LiveNode

/-- What changes the chain of a node or its protocol while it runs: local blocks
and blocks accepted from other nodes, and validators that are registered. -/
inductive Event
  | chain (op : StakeOp)
  | register_validator (validator_id : Str) (stake : ℤ) (public_key_pem : Option Str)

section Runs

variable [Runtime] [Rsa]

def step (self : LiveNode) : Event → LiveNode
  | .chain op => { self with node := self.node.stake_step op }
  | .register_validator validator_id stake public_key_pem =>
    match self.node.blockchain.consensus with
    | some (.pos pos) =>
      match pos.register_validator validator_id stake public_key_pem with
      | .ok pos =>
        let blockchain := { self.node.blockchain with consensus := some (.pos pos) }
        { self with node := { self.node with blockchain := blockchain } }
      | .error _ => self
    | _ => self

variable [PrivateKeys]

omit [Runtime] in
/-- A key that was given from outside, or need not be. -/
def KeyFrom (args : NodeArgs) (given : Option (List UInt8)) (key : Rsa.PrivateKey) : Prop :=
  match given with
  | some pem => import_private_key pem = some key
  | none => args.settings.require_external_keys = false

omit [Runtime] [PrivateKeys] in
/-- A proof-of-work node. -/
structure RunsPow (args : NodeArgs) (live : LiveNode) : Prop where
  type : args.settings.consensus.type = lit "pow"
  consensus : live.node.blockchain.consensus = some (.pow
    ⟨args.settings.consensus.pow, args.settings.consensus.genesis_prev_hash⟩)

omit [Runtime] in
/-- A proof-of-stake node that signs with a key. -/
structure RunsPos (args : NodeArgs) (live : LiveNode) (pos : ProofOfStake) (key : Rsa.PrivateKey) :
    Prop where
  type : args.settings.consensus.type = lit "pos"
  consensus : live.node.blockchain.consensus = some (.pos pos)
  manager : live.signature_manager = .of_key key
  from_args : KeyFrom args args.validator_private_key_pem key
  same_settings : pos.settings = args.settings.consensus.pos
  genesis : pos.genesis_prev_hash = args.settings.consensus.genesis_prev_hash
  signs : SignsAs live.node.node_id (publicPem key) pos
  stakes : ∀ entry ∈ (Consensus.registered_stakes args.settings.consensus (some live.node.node_id)
    (some live.node.genesis_stakes)).entries, args.settings.consensus.pos.min_stake ≤ entry.2
  blocks : ∀ block ∈ live.node.blockchain.chain,
    NamesKey live.node.node_id (publicPem key) block

omit [Runtime] in
/-- A node that a constructor with these arguments made, at any time after. -/
structure Started (args : NodeArgs) (live : LiveNode) : Prop where
  named : live.node.node_id ≠ []
  genesis : live.node.blockchain.genesis_prev_hash = args.settings.consensus.genesis_prev_hash
  stakes : live.node.genesis_stakes.isEmpty = true →
    args.genesis_stakes.getD .empty = live.node.genesis_stakes
  identity : ∃ key, live.p2p_identity_manager = .of_key key ∧
    KeyFrom args args.p2p_identity_key_pem key
  protocol : RunsPow args live ∨ ∃ pos key, RunsPos args live pos key

variable {args : NodeArgs} {generated : Generated} {persisted : Option PersistedState}
  {self : LiveNode}

omit [Runtime] [Rsa] [PrivateKeys] in
theorem passing_eq_ok {α : Type} {x : PyM α} {a : α} : passing x = .ok a ↔ x = .ok a := by
  cases x with
  | error e => simp [passing, Except.mapError]
  | ok b => simp [passing, Except.mapError]

omit [Runtime] in
theorem keyFrom_of_resolve {given saved : Option (List UInt8)} {drawn key : Rsa.PrivateKey}
    (h : resolve_key args given saved drawn = .ok key) : KeyFrom args given key := by
  unfold resolve_key at h
  cases given with
  | some pem => exact orRaise_eq_ok.mp (passing_eq_ok.mp h)
  | none =>
      simp only at h
      by_cases hrequire : args.settings.require_external_keys = true
      · rw [if_pos hrequire] at h
        cases h
      · exact Bool.eq_false_iff.mpr hrequire

omit [Runtime] [PrivateKeys] in
theorem resolve_node_id_ne (args : NodeArgs) (generated : Generated)
    (persisted : Option PersistedState) : resolve_node_id args generated persisted ≠ [] := by
  have hconfigured : (if args.settings.node_id.isEmpty then generated.uuid
      else args.settings.node_id) ≠ [] := by
    split
    · exact generated.uuid_ne
    · rename_i h
      simpa using h
  unfold resolve_node_id
  cases persisted with
  | none => exact hconfigured
  | some persisted =>
      simp only
      split
      · exact hconfigured
      · rename_i h
        simpa using h

omit [Runtime] [PrivateKeys] [Rsa] in
theorem resolve_genesis_stakes_empty
    (h : (resolve_genesis_stakes args persisted).isEmpty = true) :
    args.genesis_stakes.getD .empty = resolve_genesis_stakes args persisted := by
  unfold resolve_genesis_stakes at h ⊢
  cases persisted with
  | none => rfl
  | some persisted =>
      simp only at h ⊢
      split
      · rfl
      · rename_i hne
        rw [if_neg hne] at h
        exact absurd h hne

omit [Runtime] in
/-- What construction puts together, before the chain is restored. -/
theorem construct_eq_ok : construct args generated persisted = .ok self ↔
    ∃ manager key consensus, resolve_signature_manager args generated persisted = .ok manager ∧
      resolve_key args args.p2p_identity_key_pem (persisted.bind (·.p2p_identity_pem))
        generated.p2p_identity_key = .ok key ∧
      Consensus.create_consensus args.settings.consensus
        (if args.settings.consensus.type = lit "pos" then
          some (resolve_node_id args generated persisted) else none)
        manager (some (resolve_genesis_stakes args persisted)) = .ok consensus ∧
      self = ⟨⟨resolve_node_id args generated persisted, args.settings.network,
        resolve_genesis_stakes args persisted,
        { BlockChain.new (some consensus) args.settings.consensus.genesis_prev_hash with
          enable_signature := args.settings.consensus.type = lit "pos"
          signature_manager :=
            if args.settings.consensus.type = lit "pos" then some ⟨none, none⟩ else none }⟩,
        manager, .of_key key⟩ := by
  simp only [construct, bind_eq_ok, passing_eq_ok, pure_eq, Except.ok.injEq]
  constructor
  · rintro ⟨manager, hmanager, key, hkey, consensus, hconsensus, rfl⟩
    exact ⟨manager, key, consensus, hmanager, hkey, hconsensus, rfl⟩
  · rintro ⟨manager, key, consensus, hmanager, hkey, hconsensus, rfl⟩
    exact ⟨manager, hmanager, key, hkey, consensus, hconsensus, rfl⟩

omit [Runtime] in
theorem started_of_construct (h : construct args generated persisted = .ok self) :
    self.Started args := by
  obtain ⟨manager, identity, consensus, hmanager, hidentity, hconsensus, rfl⟩ :=
    construct_eq_ok.mp h
  refine ⟨resolve_node_id_ne args generated persisted, rfl, resolve_genesis_stakes_empty,
    ⟨identity, rfl, keyFrom_of_resolve hidentity⟩, ?_⟩
  by_cases htype : args.settings.consensus.type = lit "pos"
  · right
    simp only [resolve_signature_manager, if_pos htype, bind_eq_ok, pure_eq, Except.ok.injEq]
      at hmanager
    obtain ⟨key, hkey, rfl⟩ := hmanager
    rw [if_pos htype] at hconsensus
    obtain ⟨hall, pos, rfl, hcreated, -⟩ :=
      create_pos htype (resolve_node_id_ne args generated persisted) hconsensus
    refine ⟨pos, key, htype, rfl, rfl, keyFrom_of_resolve hkey, hcreated.same_settings,
      hcreated.genesis, ⟨hcreated.own_id, ?_, ?_⟩, hall, ?_⟩
    · rw [hcreated.manager]
      rfl
    · rw [hcreated.keys, if_pos rfl]
    · intro block hblock
      cases hblock
  · left
    rw [if_neg htype, Consensus.create_consensus] at hconsensus
    by_cases hpow : args.settings.consensus.type = lit "pow"
    · rw [if_pos hpow, Except.ok.injEq] at hconsensus
      rw [← hconsensus]
      exact ⟨hpow, rfl⟩
    · rw [if_neg hpow, if_neg htype] at hconsensus
      cases hconsensus

omit [Runtime] in
/-- A node keeps what holds of it as long as its protocol differs in the stakes
only, and the blocks under its id carry its key. -/
theorem Started.congr (h : self.Started args) {node : Node}
    (hid : node.node_id = self.node.node_id)
    (hstakes : node.genesis_stakes = self.node.genesis_stakes)
    (hcore : node.blockchain.core = self.node.blockchain.core)
    (hblocks : ∀ pos key, RunsPos args self pos key →
      ∀ block ∈ node.blockchain.chain, NamesKey self.node.node_id (publicPem key) block) :
    Started args { self with node := node } := by
  obtain ⟨hconsensus, hgenesis⟩ := Prod.mk.inj hcore
  refine ⟨by rw [hid]; exact h.named, hgenesis.trans h.genesis, by rw [hstakes]; exact h.stakes,
    h.identity, ?_⟩
  rcases h.protocol with hpow | ⟨pos, key, hpos⟩
  · left
    refine ⟨hpow.type, ?_⟩
    rw [hpow.consensus, Option.map_some, Option.map_eq_some_iff] at hconsensus
    obtain ⟨c, hc, hcore⟩ := hconsensus
    cases c with
    | pow pow => rw [hc, Consensus.pow.inj hcore]
    | pos pos => cases hcore
  · right
    have hnamed := hblocks pos key hpos
    rw [hpos.consensus, Option.map_some, Option.map_eq_some_iff] at hconsensus
    obtain ⟨c, hc, hcore⟩ := hconsensus
    cases c with
    | pow pow => cases hcore
    | pos pos' =>
        have hfields := Consensus.pos.inj hcore
        have hsettings := congrArg ProofOfStake.settings hfields
        have hprev := congrArg ProofOfStake.genesis_prev_hash hfields
        have hsigns := hpos.signs.congr hcore
        have hall := hpos.stakes
        rw [← hid] at hsigns hnamed hall
        rw [← hstakes] at hall
        exact ⟨pos', key, hpos.type, hc, hpos.manager, hpos.from_args,
          hsettings.trans hpos.same_settings, hprev.trans hpos.genesis, hsigns, hall, hnamed⟩

omit [Runtime] [PrivateKeys] in
/-- Registering another validator leaves the node's own key registered. -/
theorem signsAs_register {own key id : Str} {pos pos' : ProofOfStake} (h : SignsAs own key pos)
    (hne : id ≠ own) {stake : ℤ} {public_key_pem : Option Str}
    (hregister : pos.register_validator id stake public_key_pem = .ok pos') :
    SignsAs own key pos' ∧ pos'.settings = pos.settings ∧
      pos'.genesis_prev_hash = pos.genesis_prev_hash := by
  unfold ProofOfStake.register_validator at hregister
  have hown : ¬ (some own = some id) := fun heq => hne (Option.some.inj heq).symm
  have hwithout : ∀ validators : StakeMap,
      ProofOfStake.register_validator.register_own { pos with validators := validators } id
        = .ok { pos with validators := validators } := by
    intro validators
    simp only [ProofOfStake.register_validator.register_own, h.own_id, if_neg hown]
    split
    · rfl
    · rfl
  by_cases hmin : stake < pos.settings.min_stake
  · rw [if_pos hmin] at hregister
    cases hregister
  rw [if_neg hmin] at hregister
  simp only [hwithout] at hregister
  cases public_key_pem with
  | none =>
      obtain rfl := Except.ok.inj hregister
      exact ⟨⟨h.own_id, h.exported, h.registered⟩, rfl, rfl⟩
  | some pem =>
      by_cases hempty : pem.isEmpty = true
      · simp only [hempty, if_true] at hregister
        obtain rfl := Except.ok.inj hregister
        exact ⟨⟨h.own_id, h.exported, h.registered⟩, rfl, rfl⟩
      · simp only [hempty] at hregister
        obtain rfl := Except.ok.inj hregister
        refine ⟨⟨h.own_id, h.exported, ?_⟩, rfl, rfl⟩
        simp only
        rw [StrDict.find_set, if_neg hne.symm]
        exact h.registered

/-- One step, other validators being registered only. -/
theorem Started.step (h : self.Started args) {event : Event}
    (hothers : ∀ id stake pem, event = .register_validator id stake pem → id ≠ self.node.node_id) :
    (self.step event).Started args ∧ (self.step event).node.node_id = self.node.node_id := by
  cases event with
  | chain op =>
      obtain ⟨hstep, hid, hstakes⟩ := stake_step_cases self.node op
      refine ⟨h.congr hid hstakes hstep.core_eq ?_, hid⟩
      intro pos key hpos
      exact hstep.namesKey hpos.consensus hpos.signs hpos.blocks
  | register_validator id stake pem =>
      have hne := hothers id stake pem rfl
      rcases h.protocol with hpow | ⟨pos, key, hpos⟩
      · simp only [LiveNode.step, hpow.consensus]
        exact ⟨h, trivial⟩
      · simp only [LiveNode.step, hpos.consensus]
        rcases hregister : pos.register_validator id stake pem with e | pos'
        · exact ⟨h, rfl⟩
        · obtain ⟨hsigns, hsettings, hgenesis⟩ := signsAs_register hpos.signs hne hregister
          refine ⟨⟨h.named, h.genesis, h.stakes, h.identity, Or.inr ⟨pos', key, ?_⟩⟩, rfl⟩
          exact ⟨hpos.type, rfl, hpos.manager, hpos.from_args,
            hsettings.trans hpos.same_settings, hgenesis.trans hpos.genesis, hsigns, hpos.stakes,
            hpos.blocks⟩

/-- Every run. -/
theorem Started.run (h : self.Started args) {events : List Event}
    (hothers : ∀ id stake pem, .register_validator id stake pem ∈ events →
      id ≠ self.node.node_id) : (run LiveNode.step self events).Started args := by
  induction events generalizing self with
  | nil => exact h
  | cons event events ih =>
      have hother : ∀ id stake pem, event = .register_validator id stake pem →
          id ≠ self.node.node_id := by
        intro id stake pem heq
        exact hothers id stake pem (by rw [heq]; exact List.mem_cons_self)
      obtain ⟨hstep, hid⟩ := h.step hother
      apply ih hstep
      intro id stake pem hmem
      rw [hid]
      exact hothers id stake pem (List.mem_cons_of_mem event hmem)

/-! ## Restoring the chain -/

omit [Runtime] in
theorem Started.runs (h : self.Started args) : ∃ c, self.node.Runs c := by
  rcases h.protocol with hpow | ⟨pos, key, hpos⟩
  · exact ⟨_, hpow.consensus, h.genesis⟩
  · exact ⟨.pos pos, hpos.consensus, h.genesis.trans hpos.genesis.symm⟩

omit [PrivateKeys] in
/-- A saved chain is restored exactly when it is valid for the protocol just
created. -/
theorem restore_chain_eq_ok {c : Consensus} (hruns : self.node.Runs c) {saved : PersistedState}
    {live : LiveNode} : self.restore_chain args saved = .ok live ↔
      (saved.genesis_prev_hash = [] ∨
        saved.genesis_prev_hash = args.settings.consensus.genesis_prev_hash) ∧
      (saved.chain = [] ∧ live = self ∨
        saved.chain ≠ [] ∧ Grows (c.ChainStep self.node.genesis_stakes) saved.chain ∧
          live = { self with node := self.node.with_chain c saved.chain }) := by
  unfold restore_chain
  by_cases hgenesis : saved.genesis_prev_hash = [] ∨
      saved.genesis_prev_hash = args.settings.consensus.genesis_prev_hash
  swap
  · obtain ⟨hne, hother⟩ := not_or.mp hgenesis
    simp [hne, hother]
  have hguard : (!saved.genesis_prev_hash.isEmpty &&
      decide (saved.genesis_prev_hash ≠ args.settings.consensus.genesis_prev_hash)) = false := by
    rcases hgenesis with hempty | heq
    · simp [hempty]
    · simp [heq]
  simp only [hguard, Bool.false_eq_true, if_false, hgenesis, true_and]
  by_cases hempty : saved.chain = []
  · simp [hempty, eq_comm]
  rw [if_neg (by simpa using hempty)]
  simp only [hempty, false_and, false_or, ne_eq, not_false_eq_true, true_and]
  have hsynced := (c.sameProtocol_synced self.node.genesis_stakes saved.chain).chainStep
    self.node.genesis_stakes
  constructor
  · intro h
    rcases hreplace : self.node.blockchain.replace_chain saved.chain
      (some self.node.genesis_stakes) with ⟨e | _ | _, blockchain⟩
    · simp only [hreplace] at h
      cases h
    · simp only [hreplace] at h
      cases h
    · have hverifies := verifies_of_replace_chain hreplace
      rw [hruns.consensus, hruns.genesis] at hverifies
      have hgrows := Consensus.verifies_iff.mp hverifies
      rw [hruns.replace_chain hgrows] at hreplace h
      simp only [bind_eq_ok] at h
      obtain ⟨verification, -, h⟩ := h
      refine ⟨hgrows, ?_⟩
      split at h
      · cases h
      · exact (Except.ok.inj h).symm
  · rintro ⟨hgrows, rfl⟩
    rw [hruns.replace_chain hgrows]
    -- the second verification runs with the stakes of the chain, and repeats the first
    obtain ⟨verification, hverification, hvalid⟩ :=
      (hruns.with_chain saved.chain).verifies_iff.mpr (by
        show Grows _ saved.chain
        rw [← hsynced] at hgrows
        exact hgrows)
    simp only [bind_eq_ok, passing_eq_ok]
    refine ⟨verification, hverification, ?_⟩
    rw [if_neg (by simp [hvalid])]
    rfl

omit [Runtime] [PrivateKeys] in
theorem core_with_chain {node : Node} {c : Consensus} (h : node.Runs c) (chain : List Block) :
    (node.with_chain c chain).blockchain.core = node.blockchain.core := by
  simp only [BlockChain.core, Node.with_chain, h.consensus, Option.map_some]
  cases c with
  | pow pow => rfl
  | pos pos => rfl

/-- A restored chain leaves what holds of the node. -/
theorem Started.restore_chain (h : self.Started args) {saved : PersistedState} {live : LiveNode}
    (hrestore : self.restore_chain args saved = .ok live) : live.Started args := by
  obtain ⟨c, hruns⟩ := h.runs
  obtain ⟨-, ⟨-, rfl⟩ | ⟨-, hgrows, rfl⟩⟩ := (restore_chain_eq_ok hruns).mp hrestore
  · exact h
  · refine h.congr rfl rfl (core_with_chain hruns saved.chain) ?_
    intro pos key hpos block hblock
    obtain ⟨i, hi, rfl⟩ := List.mem_iff_getElem.mp hblock
    have hc := hruns.consensus
    rw [hpos.consensus, Option.some.injEq] at hc
    rw [← hc] at hgrows
    exact namesKey_of_step hpos.signs.registered (hgrows.getElem hi)

theorem started_of_init [Stringify] {files files' : Files}
    (h : init args generated files = (.ok self, files')) : self.Started args := by
  unfold init at h
  rcases hload : load args.settings.persistence files with e | saved
  · rw [hload] at h
    cases h
  rcases hconstruct : construct args generated saved with e | live
  · simp only [hload, hconstruct] at h
    cases h
  have hstarted := started_of_construct hconstruct
  simp only [hload, hconstruct] at h
  cases saved with
  | some saved => exact hstarted.restore_chain (Prod.mk.inj h).1
  | none =>
      simp only [Prod.mk.injEq] at h
      obtain ⟨hsaved, -⟩ := h
      rcases hpersist : (live.persist_state args files).1 with e | _
      · rw [hpersist] at hsaved
        cases hsaved
      · rw [hpersist] at hsaved
        obtain rfl := Except.ok.inj hsaved
        exact hstarted

end Runs

end LiveNode

end EasyBlockchain
