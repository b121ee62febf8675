/-
Stopping a node and constructing it again over the same directory.

The directory keeps the chain, the id, the genesis stakes and the keys of the
node, but not the keys of other validators, which were registered with the
protocol that ran. The saved chain is verified under the protocol that a
constructor creates, and this one knows a single key.
-/
import EasyBlockchain.NodeStarted
import EasyBlockchain.StoreAtomicity

set_option autoImplicit false

namespace EasyBlockchain

open Py Lib

namespace LiveNode

/-! ## Stopping and starting again -/

section Restart

variable [Runtime] [Rsa] [PrivateKeys] {args : NodeArgs} {generated : Generated}
  {self : LiveNode} {files files' : Files}

omit [PrivateKeys] [Rsa] in
/-- A save leaves the keys it was given. -/
theorem saved_keys {settings : PersistenceSettings} {state : PersistedState}
    (h : (save settings state).2 = .ok ()) (hdisk : settings.store_keys_on_disk = true)
    (files : Files) :
    (∀ pem, state.private_key_pem = some pem →
      applyAll (save settings state).1 files (.file .private_key_file) = some pem) ∧
    ∀ pem, state.p2p_identity_pem = some pem →
      applyAll (save settings state).1 files (.file .p2p_identity_file) = some pem := by
  obtain ⟨cc, sc, chain_bytes, stakes_bytes, meta_bytes, -, -, -, -, -, -, hops⟩ := save_ok h
  -- besides the two writes, the operations on the key files change nothing
  have hdirectory : ∀ files name, applyAll [.mkdir, .chmod name] files = files := fun _ _ => rfl
  have hchmod : ∀ files name, applyAll [.chmod name] files = files := fun _ _ => rfl
  have hsync : ∀ files, applyAll [.fsync_directory] files = files := fun _ => rfl
  have hmkdir : ∀ files, applyAll [.mkdir] files = files := fun _ => rfl
  have hnil : ∀ files, applyAll [] files = files := fun _ => rfl
  rw [hops, ← List.singleton_append]
  simp only [applyAll_append, hsync, hmkdir]
  generalize applyAll (write_bytes_atomic .meta_file meta_bytes) _ = written
  rw [key_ops, if_pos hdisk]
  simp only [applyAll_append, hsync]
  constructor
  · intro pem hpem
    rcases hidentity : state.p2p_identity_pem with _ | identity
    · simp [hpem, applyAll_append, hdirectory, hchmod, applyAll_write, hnil]
    · simp [hpem, applyAll_append, hdirectory, hchmod, applyAll_write]
  · intro pem hpem
    simp [hpem, applyAll_append, hchmod, applyAll_write]

omit [Runtime] in
/-- A key that was given, or saved, is found again; otherwise one is drawn. -/
theorem resolve_saved_key (hkeys : KeysReadBack) {given : Option (List UInt8)}
    (saved : Option (List UInt8)) {key : Rsa.PrivateKey} (hfrom : KeyFrom args given key)
    (hsaved : given = none → args.settings.persistence.store_keys_on_disk = true →
      saved = some (PrivateKeys.private_bytes key))
    (hnone : args.settings.persistence.store_keys_on_disk = false → saved = none)
    (drawn : Rsa.PrivateKey) :
    resolve_key args given saved drawn = .ok
      (if given.isSome ∨ args.settings.persistence.store_keys_on_disk then key else drawn) := by
  unfold resolve_key
  cases given with
  | some pem =>
      have himport : import_private_key pem = some key := hfrom
      simp only [himport, Option.isSome_some, true_or, if_true]
      rfl
  | none =>
      have hrequire : args.settings.require_external_keys = false := hfrom
      by_cases hdisk : args.settings.persistence.store_keys_on_disk = true
      · rw [hsaved rfl hdisk]
        simp only [hrequire, Bool.false_eq_true, if_false, hkeys key, hdisk, or_true, if_true]
        rfl
      · rw [hnone (Bool.eq_false_iff.mpr hdisk)]
        simp [hrequire, hdisk]

theorem stop_eq_ok : self.stop args files = (.ok (), files') ↔
    (save args.settings.persistence (self.build_persisted_state args)).2 = .ok () ∧
      applyAll (save args.settings.persistence (self.build_persisted_state args)).1 files
        = files' := by
  rw [← Prod.mk.injEq]
  rfl

theorem stop_of_ok (h : (self.stop args files).1 = .ok ()) :
    self.stop args files = (.ok (), (self.stop args files).2) := by
  rw [← h]

/-- What a load finds after a stop: the chain as its file is read, the rest as
it was. -/
theorem load_after_stop [Stringify] (hstop : self.stop args files = (.ok (), files')) :
    load args.settings.persistence files' ≠ .ok none ∧
      ∀ saved, load args.settings.persistence files' = .ok (some saved) ↔
        ∃ chain checksum, compute_checksum (.list self.node.blockchain.chain) = .ok checksum ∧
          RereadAs self.node.blockchain.chain chain checksum ∧
          saved =
            { chain := chain
              node_id := self.node.node_id
              genesis_prev_hash := args.settings.consensus.genesis_prev_hash
              genesis_stakes := self.node.genesis_stakes
              private_key_pem := if args.settings.persistence.store_keys_on_disk then
                files' (.file .private_key_file) else none
              p2p_identity_pem := if args.settings.persistence.store_keys_on_disk then
                files' (.file .p2p_identity_file) else none } := by
  obtain ⟨hsave, hfiles⟩ := stop_eq_ok.mp hstop
  obtain ⟨cc, sc, hcc, hsc, hholding⟩ := holding_save hsave files
  rw [hfiles] at hholding
  obtain ⟨hnone, hsome⟩ := load_holding hholding
  refine ⟨hnone, ?_⟩
  intro saved
  rw [hsome]
  constructor
  · rintro ⟨chain, hreread, -, rfl⟩
    exact ⟨chain, cc, hcc, hreread, rfl⟩
  · rintro ⟨chain, checksum, hchecksum, hreread, rfl⟩
    have hcc' : compute_checksum (.list self.node.blockchain.chain) = .ok cc := hcc
    rw [hchecksum, Except.ok.injEq] at hcc'
    subst hcc'
    exact ⟨chain, hreread, hsc, rfl⟩

/-- The protocol the next constructor creates. -/
inductive Recreated (args : NodeArgs) (generated : Generated) (live : LiveNode) :
    Consensus → Prop
  | pow (h : RunsPow args live) : Recreated args generated live
      (.pow ⟨args.settings.consensus.pow, args.settings.consensus.genesis_prev_hash⟩)
  | pos (pos pos' : ProofOfStake) (key key' : Rsa.PrivateKey) (h : RunsPos args live pos key)
      (hkey : key' = if args.validator_private_key_pem.isSome ∨
        args.settings.persistence.store_keys_on_disk then key else generated.validator_key)
      (hcreated : Created args.settings.consensus live.node.node_id key' pos')
      (hvalidators : pos'.validators = Consensus.registered_stakes args.settings.consensus
        (some live.node.node_id) (some live.node.genesis_stakes)) :
      Recreated args generated live (.pos pos')

variable (generated) in
/-- The next constructor takes over what was saved, up to the chain. -/
theorem construct_after_stop (hkeys : KeysReadBack) (hstarted : self.Started args)
    (hstop : self.stop args files = (.ok (), files')) (saved : PersistedState)
    (hnode_id : saved.node_id = self.node.node_id)
    (hstakes : saved.genesis_stakes = self.node.genesis_stakes)
    (hprivate : saved.private_key_pem = if args.settings.persistence.store_keys_on_disk then
      files' (.file .private_key_file) else none)
    (hidentity : saved.p2p_identity_pem = if args.settings.persistence.store_keys_on_disk then
      files' (.file .p2p_identity_file) else none) :
    ∃ live c, construct args generated (some saved) = .ok live ∧
      live.node.node_id = self.node.node_id ∧
      live.node.genesis_stakes = self.node.genesis_stakes ∧
      live.node.blockchain.chain = [] ∧ live.node.Runs c ∧ Recreated args generated self c := by
  obtain ⟨hsave, rfl⟩ := stop_eq_ok.mp hstop
  have hid : resolve_node_id args generated (some saved) = self.node.node_id := by
    simp [resolve_node_id, hnode_id, hstarted.named]
  have hresolved : resolve_genesis_stakes args (some saved) = self.node.genesis_stakes := by
    simp only [resolve_genesis_stakes, hstakes]
    split
    · rename_i hempty
      exact hstarted.stakes hempty
    · rfl
  -- the key of the connections does not matter, but it has to be found
  obtain ⟨identity, hmanager, hfrom⟩ := hstarted.identity
  have hidentity_key := resolve_saved_key hkeys saved.p2p_identity_pem hfrom
    (by
      intro hgiven hdisk
      rw [hidentity, if_pos hdisk]
      apply (saved_keys hsave hdisk files).2
      simp [build_persisted_state, hdisk, hgiven, hmanager, SignatureManager.of_key])
    (by
      intro hdisk
      rw [hidentity, if_neg (by simp [hdisk])])
    generated.p2p_identity_key
  rcases hstarted.protocol with hpow | ⟨pos, key, hpos⟩
  · have hne : args.settings.consensus.type ≠ lit "pos" := by
      rw [hpow.type]
      decide
    have hmanager : resolve_signature_manager args generated (some saved) = .ok ⟨none, none⟩ := by
      rw [resolve_signature_manager, if_neg hne]
      rfl
    have hcreate : Consensus.create_consensus args.settings.consensus
        (if args.settings.consensus.type = lit "pos" then
          some (resolve_node_id args generated (some saved)) else none)
        ⟨none, none⟩ (some (resolve_genesis_stakes args (some saved)))
        = .ok (.pow ⟨args.settings.consensus.pow, args.settings.consensus.genesis_prev_hash⟩) := by
      rw [Consensus.create_consensus, if_pos hpow.type]
    exact ⟨_, _, construct_eq_ok.mpr ⟨_, _, _, hmanager, hidentity_key, hcreate, rfl⟩, hid,
      hresolved, rfl, ⟨rfl, rfl⟩, .pow hpow⟩
  · have hvalidator_key := resolve_saved_key hkeys saved.private_key_pem hpos.from_args
      (by
        intro hgiven hdisk
        rw [hprivate, if_pos hdisk]
        apply (saved_keys hsave hdisk files).1
        simp [build_persisted_state, hdisk, hgiven, hpos.manager, hpos.type,
          SignatureManager.of_key])
      (by
        intro hdisk
        rw [hprivate, if_neg (by simp [hdisk])])
      generated.validator_key
    generalize hkey' : (if args.validator_private_key_pem.isSome ∨
      args.settings.persistence.store_keys_on_disk then key else generated.validator_key) = key'
      at hvalidator_key
    obtain ⟨c, hc⟩ := create_pos_ok key' hpos.type hpos.stakes
    obtain ⟨-, pos', rfl, hcreated, hvalidators⟩ := create_pos hpos.type hstarted.named hc
    have hmanager : resolve_signature_manager args generated (some saved)
        = .ok (.of_key key') := by
      rw [resolve_signature_manager, if_pos hpos.type, Option.bind_some, hvalidator_key]
      rfl
    rw [← hid, ← hresolved] at hc
    have hcreate : Consensus.create_consensus args.settings.consensus
        (if args.settings.consensus.type = lit "pos" then
          some (resolve_node_id args generated (some saved)) else none)
        (.of_key key') (some (resolve_genesis_stakes args (some saved))) = .ok (.pos pos') := by
      rw [if_pos hpos.type]
      exact hc
    exact ⟨_, _, construct_eq_ok.mpr ⟨_, _, _, hmanager, hidentity_key, hcreate, rfl⟩, hid,
      hresolved, rfl, ⟨rfl, hcreated.genesis.symm⟩,
      .pos pos pos' key key' hpos hkey'.symm hcreated hvalidators⟩

omit [PrivateKeys] in
/-- Under a created protocol a block may follow when it may under the protocol
that ran before, and names the node itself. -/
theorem posStep_created {settings : ConsensusSettings} {own pem g : Str} {key : Rsa.PrivateKey}
    {pos pos' : ProofOfStake} (hcreated : Created settings own key pos')
    (hsettings : pos.settings = settings.pos)
    (hgenesis : pos.genesis_prev_hash = settings.genesis_prev_hash)
    (hregistered : pos.validator_public_keys.find own = some pem) (hkey : publicPem key = pem)
    {genesis_stakes : StakeMap} {seen : List Block} {block : Block} :
    PosStep pos' g genesis_stakes seen block ↔
      PosStep pos g genesis_stakes seen block ∧ HeaderIs block (lit "validator_id") (.str own) := by
  rw [PosStep, PosStep, hcreated.genesis, hgenesis, hcreated.same_settings, hsettings]
  constructor
  · rintro ⟨hlink, f, hof, hvalid⟩
    have hfind := hvalid.registered
    rw [hcreated.keys] at hfind
    by_cases hid : f.validator_id = own
    swap
    · rw [if_neg hid] at hfind
      cases hfind
    rw [if_pos hid, hkey] at hfind
    refine ⟨⟨hlink, f, hof, { hvalid with registered := ?_ }⟩, ?_⟩
    · rw [hid, hregistered, hfind]
    · rw [← hid]
      exact hof.validator_id
  · rintro ⟨⟨hlink, f, hof, hvalid⟩, hheader⟩
    have hid : f.validator_id = own := PyVal.str.inj (hof.validator_id.unique hheader)
    refine ⟨hlink, f, hof, { hvalid with registered := ?_ }⟩
    have hfind := hvalid.registered
    rw [hid, hregistered] at hfind
    rw [hcreated.keys, if_pos hid, hkey, hfind]

omit [PrivateKeys] in
theorem grows_created {settings : ConsensusSettings} {own pem g : Str} {key : Rsa.PrivateKey}
    {pos pos' : ProofOfStake} (hcreated : Created settings own key pos')
    (hsettings : pos.settings = settings.pos)
    (hgenesis : pos.genesis_prev_hash = settings.genesis_prev_hash)
    (hregistered : pos.validator_public_keys.find own = some pem) (hkey : publicPem key = pem)
    {genesis_stakes : StakeMap} {chain : List Block} :
    Grows (PosStep pos' g genesis_stakes) chain ↔
      Grows (PosStep pos g genesis_stakes) chain ∧
        ∀ block ∈ chain, HeaderIs block (lit "validator_id") (.str own) := by
  have hstep := @posStep_created _ _ settings own pem g key pos pos' hcreated hsettings hgenesis
    hregistered hkey genesis_stakes
  constructor
  · intro h
    refine ⟨h.imp fun seen block _ hblock => (hstep.mp hblock).1, ?_⟩
    intro block hblock
    obtain ⟨i, hi, rfl⟩ := List.mem_iff_getElem.mp hblock
    exact (hstep.mp (h.getElem hi)).2
  · rintro ⟨h, hnamed⟩
    induction chain using List.reverseRecOn with
    | nil => exact grows_nil
    | append_singleton chain block ih =>
        rw [grows_snoc] at h ⊢
        exact ⟨ih h.1 fun b hb => hnamed b (List.mem_append_left _ hb),
          hstep.mpr ⟨h.2, hnamed block (by simp)⟩⟩

omit [PrivateKeys] in
/-- A chain that a created protocol accepts tells its key: the node's blocks
carry the key it had when it was stopped. -/
theorem key_of_grows {settings : ConsensusSettings} {own pem g : Str} {key : Rsa.PrivateKey}
    {pos : ProofOfStake} (hcreated : Created settings own key pos) {genesis_stakes : StakeMap}
    {chain saved : List Block} (hgrows : Grows (PosStep pos g genesis_stakes) chain)
    (hne : chain ≠ []) (heq : (PyVal.list chain).eq (.list saved) = true)
    (hsaved : ∀ block ∈ saved, NamesKey own pem block) : publicPem key = pem := by
  obtain ⟨block, rest, rfl⟩ := List.exists_cons_of_ne_nil hne
  obtain ⟨-, f, hof, hvalid⟩ := hgrows.getElem (i := 0) (by simp)
  simp only [List.getElem_cons_zero] at hof
  have hfind := hvalid.registered
  rw [hcreated.keys] at hfind
  by_cases hid : f.validator_id = own
  swap
  · rw [if_neg hid] at hfind
    cases hfind
  rw [if_pos hid, Option.some.injEq] at hfind
  rw [PyVal.eq, PyVal.eqList_iff] at heq
  cases heq with
  | @cons _ other _ others hblock _ =>
      obtain ⟨id, hheader, hitem⟩ := hsaved other List.mem_cons_self
      have hother := hof.validator_id.of_eq hblock
      obtain rfl := PyVal.str.inj (hheader.unique hother)
      obtain ⟨w, hw, hpem⟩ := PyVal.item_of_eq hblock hof.public_key
      rw [hitem hid, Except.ok.injEq] at hw
      rw [← hw, PyVal.str_eq_iff] at hpem
      rw [hfind, PyVal.str.inj hpem]

/-- The validator key is found again: it was given, or saved, or the key drawn
has the same public key. -/
def KeepsKey (args : NodeArgs) (generated : Generated) (self : LiveNode) : Prop :=
  args.validator_private_key_pem.isSome = true ∨
    args.settings.persistence.store_keys_on_disk = true ∨
    export_public_key (.of_key generated.validator_key) = export_public_key self.signature_manager

/-- The next constructor can take over a chain. -/
structure CanRestore (args : NodeArgs) (generated : Generated) (live : LiveNode)
    (chain : List Block) : Prop where
  valid : Verifies (verify_chain_integrity chain live.node.blockchain.consensus
    live.node.blockchain.genesis_prev_hash (some live.node.genesis_stakes))
  own : ∀ pos, live.node.blockchain.consensus = some (.pos pos) → ∀ block ∈ chain,
    HeaderIs block (lit "validator_id") (.str live.node.node_id)
  key : ∀ pos, live.node.blockchain.consensus = some (.pos pos) → chain ≠ [] →
    KeepsKey args generated live
  member : ∀ pos, live.node.blockchain.consensus = some (.pos pos) → chain = [] →
    live.node.genesis_stakes.contains live.node.node_id = true

/-- The chain file of a stopped node is read as an equal chain, with its
checksum, and this one can be restored. -/
def Survives (args : NodeArgs) (generated : Generated) (self : LiveNode) : Prop :=
  ∃ chain checksum, compute_checksum (.list self.node.blockchain.chain) = .ok checksum ∧
    RereadAs self.node.blockchain.chain chain checksum ∧
    (PyVal.list chain).eq (.list self.node.blockchain.chain) = true ∧
    CanRestore args generated self chain

/-- A node constructed over the directory has the chain, the id and the genesis
stakes of the stopped one, and the stakes of the chain. -/
def Restores [Stringify] (args : NodeArgs) (generated : Generated) (files : Files)
    (self : LiveNode) : Prop :=
  ∃ live files', init args generated files = (.ok live, files') ∧
    (PyVal.list live.node.blockchain.chain).eq (.list self.node.blockchain.chain) = true ∧
    live.node.node_id = self.node.node_id ∧
    live.node.genesis_stakes = self.node.genesis_stakes ∧ live.node.StakesReplayed

/-- A constructor that starts has read the chain file. -/
theorem reread_of_init [Stringify] (hstop : self.stop args files = (.ok (), files'))
    {live : LiveNode} {after : Files} (hinit : init args generated files' = (.ok live, after)) :
    ∃ chain checksum, compute_checksum (.list self.node.blockchain.chain) = .ok checksum ∧
      RereadAs self.node.blockchain.chain chain checksum := by
  obtain ⟨hnone, hsome⟩ := load_after_stop hstop
  unfold init at hinit
  rcases hload : load args.settings.persistence files' with e | _ | saved
  · rw [hload] at hinit
    cases hinit
  · exact absurd hload hnone
  · obtain ⟨chain, checksum, hchecksum, hreread, -⟩ := (hsome saved).mp hload
    exact ⟨chain, checksum, hchecksum, hreread⟩

variable (generated) in
/-- What the next constructor makes of the chain it reads. -/
theorem init_after_stop [Stringify] (hkeys : KeysReadBack) (hstarted : self.Started args)
    (hstop : self.stop args files = (.ok (), files')) {chain : List Block} {checksum : Str}
    (hchecksum : compute_checksum (.list self.node.blockchain.chain) = .ok checksum)
    (hreread : RereadAs self.node.blockchain.chain chain checksum) :
    ∃ fresh c, fresh.node.node_id = self.node.node_id ∧
      fresh.node.genesis_stakes = self.node.genesis_stakes ∧
      fresh.node.blockchain.chain = [] ∧ fresh.node.Runs c ∧ Recreated args generated self c ∧
      ∀ live, (∃ after, init args generated files' = (.ok live, after)) ↔
        (chain = [] ∧ live = fresh ∨
          chain ≠ [] ∧ Grows (c.ChainStep fresh.node.genesis_stakes) chain ∧
            live = { fresh with node := fresh.node.with_chain c chain }) := by
  obtain ⟨-, hsome⟩ := load_after_stop hstop
  let saved : PersistedState :=
    { chain := chain
      node_id := self.node.node_id
      genesis_prev_hash := args.settings.consensus.genesis_prev_hash
      genesis_stakes := self.node.genesis_stakes
      private_key_pem := if args.settings.persistence.store_keys_on_disk then
        files' (.file .private_key_file) else none
      p2p_identity_pem := if args.settings.persistence.store_keys_on_disk then
        files' (.file .p2p_identity_file) else none }
  have hload : load args.settings.persistence files' = .ok (some saved) :=
    (hsome saved).mpr ⟨chain, checksum, hchecksum, hreread, rfl⟩
  obtain ⟨fresh, c, hconstruct, hid, hstakes, hempty, hruns, hcreated⟩ :=
    construct_after_stop generated hkeys hstarted hstop saved rfl rfl
      rfl rfl
  refine ⟨fresh, c, hid, hstakes, hempty, hruns, hcreated, ?_⟩
  intro live
  have hrestore : fresh.restore_chain args saved = .ok live ↔ _ := restore_chain_eq_ok hruns
  simp only [init, hload, hconstruct, Prod.mk.injEq, exists_eq_right', hrestore]
  simp only [saved, or_true, true_and]

/-- The chain that was read is restored where the node's own protocol accepts it
and its own key suffices for it. -/
theorem Recreated.grows_iff (hstarted : self.Started args) {c : Consensus}
    (h : Recreated args generated self c) {chain : List Block} (hne : chain ≠ [])
    (heq : (PyVal.list chain).eq (.list self.node.blockchain.chain) = true) :
    Grows (c.ChainStep self.node.genesis_stakes) chain ↔ CanRestore args generated self chain := by
  have hverifies : ∀ c', self.node.Runs c' →
      (Verifies (verify_chain_integrity chain self.node.blockchain.consensus
        self.node.blockchain.genesis_prev_hash (some self.node.genesis_stakes)) ↔
          Grows (c'.ChainStep self.node.genesis_stakes) chain) := by
    intro c' hruns
    rw [hruns.consensus, hruns.genesis]
    exact Consensus.verifies_iff
  cases h with
  | pow h =>
      have hiff := hverifies _ ⟨h.consensus, hstarted.genesis⟩
      constructor
      · intro hgrows
        have hnot : ∀ pos, self.node.blockchain.consensus ≠ some (.pos pos) := by
          intro pos hpos
          rw [h.consensus] at hpos
          cases hpos
        exact ⟨hiff.mpr hgrows, fun pos hpos => absurd hpos (hnot pos),
          fun pos hpos => absurd hpos (hnot pos), fun pos hpos => absurd hpos (hnot pos)⟩
      · intro hcan
        exact hiff.mp hcan.valid
  | pos pos pos' key key' h hkey hcreated hvalidators =>
      have hgenesis := hstarted.genesis.trans h.genesis.symm
      have hiff := hverifies (.pos pos) ⟨h.consensus, hgenesis⟩
      have hexport : export_public_key self.signature_manager = .ok (publicPem key) := by
        rw [h.manager]
        rfl
      have hsame : publicPem key' = publicPem key →
          (Grows (PosStep pos' pos'.genesis_prev_hash self.node.genesis_stakes) chain ↔
            Grows (PosStep pos pos.genesis_prev_hash self.node.genesis_stakes) chain ∧
              ∀ block ∈ chain, HeaderIs block (lit "validator_id") (.str self.node.node_id)) := by
        intro hpem
        rw [hcreated.genesis, h.genesis]
        exact grows_created hcreated h.same_settings h.genesis h.signs.registered hpem
      constructor
      · intro hgrows
        have hpem := key_of_grows hcreated hgrows hne heq h.blocks
        obtain ⟨hvalid, hown⟩ := (hsame hpem).mp hgrows
        refine ⟨hiff.mpr hvalid, fun _ _ => hown, ?_, fun _ _ hempty => absurd hempty hne⟩
        intro _ _ _
        by_cases hkept : args.validator_private_key_pem.isSome = true ∨
            args.settings.persistence.store_keys_on_disk = true
        · exact hkept.imp_right Or.inl
        · right; right
          rw [if_neg hkept] at hkey
          rw [hexport, ← hpem, hkey]
          rfl
      · intro hcan
        apply (hsame ?_).mpr ⟨hiff.mp hcan.valid, hcan.own pos h.consensus⟩
        by_cases hkept : args.validator_private_key_pem.isSome = true ∨
            args.settings.persistence.store_keys_on_disk = true
        · rw [hkey, if_pos hkept]
        · rw [hkey, if_neg hkept]
          rcases hcan.key pos h.consensus hne with hgiven | hdisk | hdrawn
          · exact absurd (Or.inl hgiven) hkept
          · exact absurd (Or.inr hdisk) hkept
          · rw [hexport] at hdrawn
            exact Except.ok.inj hdrawn

omit [Runtime] in
/-- Without a chain, the stakes match where the node is among the genesis stakes. -/
theorem Recreated.stakesReplayed_iff (hstarted : self.Started args) {c : Consensus}
    (h : Recreated args generated self c) {fresh : LiveNode}
    (hstakes : fresh.node.genesis_stakes = self.node.genesis_stakes)
    (hempty : fresh.node.blockchain.chain = []) (hruns : fresh.node.Runs c) :
    fresh.node.StakesReplayed ↔ ∀ pos, self.node.blockchain.consensus = some (.pos pos) →
      self.node.genesis_stakes.contains self.node.node_id = true := by
  cases h with
  | pow h =>
      constructor
      · intro _ pos hpos
        rw [h.consensus] at hpos
        cases hpos
      · intro _ pos hpos
        rw [hruns.consensus] at hpos
        cases hpos
  | pos pos pos' key key' h hkey hcreated hvalidators =>
      rw [← registered_stakes_eq_iff args.settings.consensus hstarted.named,
        ← hvalidators]
      constructor
      · intro hreplayed _ _
        have hcompute := hreplayed pos' hruns.consensus
        rw [hempty, hstakes] at hcompute
        exact (Except.ok.inj hcompute).symm
      · intro hsame p hp
        rw [hruns.consensus, Option.some.injEq, Consensus.pos.injEq] at hp
        rw [hempty, hstakes, ← hp, hsame pos h.consensus]
        rfl

theorem survives_of_restores [Stringify] (hkeys : KeysReadBack) (hstarted : self.Started args)
    (hstop : self.stop args files = (.ok (), files')) (h : Restores args generated files' self) :
    Survives args generated self := by
  obtain ⟨live, after, hinit, heq, -, -, hreplayed⟩ := h
  obtain ⟨chain, checksum, hchecksum, hreread⟩ := reread_of_init hstop hinit
  obtain ⟨fresh, c, -, hstakes, hempty, hruns, hcreated, hlive⟩ :=
    init_after_stop generated hkeys hstarted hstop hchecksum hreread
  refine ⟨chain, checksum, hchecksum, hreread, ?_⟩
  rcases (hlive live).mp ⟨after, hinit⟩ with ⟨rfl, rfl⟩ | ⟨hne, hgrows, rfl⟩
  · rw [hempty] at heq
    have hmember := (hcreated.stakesReplayed_iff hstarted hstakes hempty hruns).mp hreplayed
    obtain ⟨c', hruns'⟩ := hstarted.runs
    refine ⟨heq, ?_, ?_, fun _ _ hne => absurd rfl hne, fun pos hpos _ => hmember pos hpos⟩
    · rw [hruns'.consensus, hruns'.genesis]
      exact Consensus.verifies_iff.mpr grows_nil
    · intro _ _ block hblock
      cases hblock
  · rw [hstakes] at hgrows
    exact ⟨heq, (hcreated.grows_iff hstarted hne heq).mp hgrows⟩

theorem restores_of_survives [Stringify] (hkeys : KeysReadBack) (hstarted : self.Started args)
    (hstop : self.stop args files = (.ok (), files')) (h : Survives args generated self) :
    Restores args generated files' self := by
  obtain ⟨chain, checksum, hchecksum, hreread, heq, hcan⟩ := h
  obtain ⟨fresh, c, hid, hstakes, hempty, hruns, hcreated, hlive⟩ :=
    init_after_stop generated hkeys hstarted hstop hchecksum hreread
  by_cases hne : chain = []
  · subst hne
    obtain ⟨after, hinit⟩ := (hlive fresh).mpr (Or.inl ⟨rfl, rfl⟩)
    refine ⟨fresh, after, hinit, ?_, hid, hstakes, ?_⟩
    · rw [hempty]
      exact heq
    · apply (hcreated.stakesReplayed_iff hstarted hstakes hempty hruns).mpr
      intro pos hpos
      exact hcan.member pos hpos rfl
  · have hgrows := (hcreated.grows_iff hstarted hne heq).mpr hcan
    rw [← hstakes] at hgrows
    obtain ⟨after, hinit⟩ := (hlive _).mpr (Or.inr ⟨hne, hgrows, rfl⟩)
    exact ⟨_, after, hinit, heq, hid, hstakes, hruns.stakesReplayed hgrows⟩

/-- Stopped normally and constructed again over the same directory, a node is
restored exactly when its chain is read back from its file, verifies in the
stopped node, and needs no other key than the node's own. -/
theorem restart_restores [Stringify] (hkeys : KeysReadBack) {generated₀ : Generated}
    {files₀ files₁ : Files} {live₀ : LiveNode}
    (hstart : init args generated₀ files₀ = (.ok live₀, files₁)) {events : List Event}
    (hothers : ∀ id stake pem, .register_validator id stake pem ∈ events → id ≠ live₀.node.node_id)
    (hstop : (run step live₀ events).stop args files = (.ok (), files')) :
    Restores args generated files' (run step live₀ events) ↔
      Survives args generated (run step live₀ events) := by
  have hstarted := (started_of_init hstart).run hothers
  constructor
  · exact survives_of_restores hkeys hstarted hstop
  · exact restores_of_survives hkeys hstarted hstop

/-- A constructor over a directory without a saved state saves its own. -/
theorem init_of_empty [Stringify] {live : LiveNode} (hempty : files (.file .meta_file) = none)
    (hconstruct : construct args generated none = .ok live)
    (hpersist : (live.persist_state args files).1 = .ok ()) :
    init args generated files = (.ok live, (live.persist_state args files).2) := by
  have hload := load_of_no_meta args.settings.persistence hempty
  simp only [init, hload, hconstruct, hpersist]
  rfl

end Restart

end LiveNode

/-! ## A block of its own, and a block of another validator -/

namespace Restarted

open LiveNode

attribute [local instance] cpython letterRsa

local instance : Stringify := ⟨fun _ => []⟩

/-- The file of a private key is a small letter. -/
@[reducible] def letterKeys : @PrivateKeys letterRsa where
  load_pem_private_key bytes :=
    (List.finRange 26).find? fun key => bytes = List.replicate 5 0x2d ++ [letterByte key + 0x20]
  load_der_private_key _ := none
  private_bytes key := List.replicate 5 0x2d ++ [letterByte key + 0x20]

attribute [local instance] letterKeys

local instance : DecidableEq (@Rsa.PrivateKey letterRsa) := inferInstanceAs (DecidableEq (Fin 26))

theorem keysReadBack : KeysReadBack := by
  show ∀ key : Fin 26, import_private_key (PrivateKeys.private_bytes key) = some key
  decide +kernel

/-- A node of either protocol, on the genesis stakes of the validator `v`. -/
def args (type : String) : NodeArgs where
  settings :=
    ⟨{ OwnStakes.settings with type := lit type }, Rewritten.network, StoppedSave.settings, lit "w",
      false⟩
  genesis_stakes := some TwoBlocks.stakes
  validator_private_key_pem := none
  p2p_identity_key_pem := none

def generated : Generated := ⟨lit "uuid", by decide, (22 : Fin 26), (23 : Fin 26)⟩

/-- What the first constructor makes. -/
def pow_node : LiveNode :=
  ⟨⟨lit "w", Rewritten.network, TwoBlocks.stakes,
    BlockChain.new (some (.pow FutureBlock.pow)) DEFAULT_GENESIS_PREV_HASH⟩, ⟨none, none⟩,
    .of_key (23 : Fin 26)⟩

theorem init_pow : init (args "pow") generated (fun _ => none)
    = (.ok pow_node, (pow_node.persist_state (args "pow") fun _ => none).2) :=
  init_of_empty rfl rfl (by decide +kernel)

/-- A proof-of-work node that receives a block. -/
def pow_events : List Event := [.chain (.add_block FutureBlock.received)]

theorem stop_pow : (run step pow_node pow_events).stop (args "pow") (fun _ => none)
    = (.ok (), ((run step pow_node pow_events).stop (args "pow") fun _ => none).2) :=
  stop_of_ok (by decide +kernel)

/-- The theorem on it. -/
theorem restarted_pow :
    Restores (args "pow") generated
        ((run step pow_node pow_events).stop (args "pow") fun _ => none).2
        (run step pow_node pow_events) ↔
      Survives (args "pow") generated (run step pow_node pow_events) :=
  restart_restores keysReadBack init_pow (by simp [pow_events]) stop_pow

/-- What the first constructor of a proof-of-stake node makes. -/
def pos_node : LiveNode :=
  ⟨⟨lit "w", Rewritten.network, TwoBlocks.stakes,
    { BlockChain.new (some (.pos ⟨OwnStakes.settings.pos, some (lit "w"), .of_key (22 : Fin 26),
        ⟨[(lit "v", 100), (lit "w", 100)], by decide⟩, some TwoBlocks.stakes,
        .single (lit "w") (lit "-----W"), DEFAULT_GENESIS_PREV_HASH⟩))
        DEFAULT_GENESIS_PREV_HASH with
      enable_signature := true, signature_manager := some ⟨none, none⟩ }⟩,
    .of_key (22 : Fin 26), .of_key (23 : Fin 26)⟩

theorem init_pos : init (args "pos") generated (fun _ => none)
    = (.ok pos_node, (pos_node.persist_state (args "pos") fun _ => none).2) :=
  init_of_empty rfl rfl (by decide +kernel)

/-- A proof-of-stake node that registers the validator `v` and receives its block. -/
def pos_events : List Event :=
  [.register_validator (lit "v") 100 (some (lit "-----A")), .chain (.add_block TwoBlocks.blockA)]

theorem chain_pos : (run step pos_node pos_events).node.blockchain.chain = [TwoBlocks.blockA] := by
  decide +kernel

theorem stop_pos : (run step pos_node pos_events).stop (args "pos") (fun _ => none)
    = (.ok (), ((run step pos_node pos_events).stop (args "pos") fun _ => none).2) :=
  stop_of_ok (by decide +kernel)

theorem others_pos : ∀ id stake pem, .register_validator id stake pem ∈ pos_events →
    id ≠ pos_node.node.node_id := by
  intro id stake pem hmem
  rcases List.mem_pair.mp hmem with heq | heq
  · obtain ⟨rfl, -, -⟩ := Event.register_validator.inj heq
    decide
  · cases heq

/-- The block is in the chain of the stopped node, which is not restored. -/
theorem other_validator_not_restored :
    init (args "pos") generated (fun _ => none)
      = (.ok pos_node, (pos_node.persist_state (args "pos") fun _ => none).2) ∧
    (run step pos_node pos_events).stop (args "pos") (fun _ => none)
      = (.ok (), ((run step pos_node pos_events).stop (args "pos") fun _ => none).2) ∧
    (run step pos_node pos_events).node.blockchain.chain = [TwoBlocks.blockA] ∧
    ¬ Restores (args "pos") generated
      ((run step pos_node pos_events).stop (args "pos") fun _ => none).2
      (run step pos_node pos_events) := by
  refine ⟨init_pos, stop_pos, chain_pos, ?_⟩
  intro hrestores
  have hstarted := (started_of_init init_pos).run others_pos
  have hsurvives := survives_of_restores keysReadBack hstarted stop_pos hrestores
  have hchain := chain_pos
  have hname : (run step pos_node pos_events).node.node_id = lit "w" := by decide +kernel
  generalize run step pos_node pos_events = stopped at hstarted hsurvives hchain hname
  obtain ⟨chain, -, -, -, heq, hcan⟩ := hsurvives
  rw [hchain, PyVal.eq, PyVal.eqList_iff] at heq
  cases heq with
  | @cons block _ rest _ hblock _ =>
      rcases hstarted.protocol with hpow | ⟨pos, key, hpos⟩
      · exact absurd hpow.type (by decide)
      · have hown := (hcan.own pos hpos.consensus block List.mem_cons_self).of_eq hblock
        have hother : HeaderIs TwoBlocks.blockA (lit "validator_id") (.str (lit "v")) :=
          ⟨_, rfl, rfl⟩
        have hid := PyVal.str.inj (hown.unique hother)
        rw [hname] at hid
        exact absurd hid (by decide)

end Restarted

end EasyBlockchain
