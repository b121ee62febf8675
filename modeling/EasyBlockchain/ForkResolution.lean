/-
What `_resolve_fork` can do to a node.

The blocks received from a peer are joined to the local chain or stand on their
own, one candidate against the local chain; the selected chain is verified once
more before it is stored. `resolve_fork_cases` says all there is to say about
one call, and the properties of runs follow from it.
-/
import EasyBlockchain.Node
import EasyBlockchain.Lib.Run

set_option autoImplicit false

namespace EasyBlockchain

open Py Lib

/-! ## Protocols that judge alike -/

namespace Consensus

variable [Runtime] [Rsa]

/-- The same protocol up to the running stakes. -/
def SameProtocol (c c' : Consensus) : Prop :=
  match c, c' with
  | pow self, pow self' => self' = self
  | pos self, pos self' => SameRules self self'
  | _, _ => False

omit [Runtime] in
theorem SameProtocol.refl (c : Consensus) : c.SameProtocol c := by
  cases c with
  | pow self => exact rfl
  | pos self => exact ⟨rfl, rfl, rfl⟩

omit [Runtime] in
theorem SameProtocol.trans {c c' c'' : Consensus} (h : c.SameProtocol c')
    (h' : c'.SameProtocol c'') : c.SameProtocol c'' := by
  cases c with
  | pow self =>
      cases c' with
      | pow self' =>
          cases c'' with
          | pow self'' => exact Eq.trans h' h
          | pos self'' => exact h'.elim
      | pos self' => exact h.elim
  | pos self =>
      cases c' with
      | pow self' => exact h.elim
      | pos self' =>
          cases c'' with
          | pow self'' => exact h'.elim
          | pos self'' =>
              exact ⟨h'.settings.trans h.settings, h'.keys.trans h.keys,
                h'.genesis.trans h.genesis⟩

variable {c c' : Consensus} (h : c.SameProtocol c') (genesis_stakes : StakeMap)
include h

omit [Runtime] in
theorem SameProtocol.genesis_prev_hash : c'.genesis_prev_hash = c.genesis_prev_hash := by
  cases c with
  | pow self =>
      cases c' with
      | pow self' => exact congrArg ProofOfWork.genesis_prev_hash h
      | pos self' => exact h.elim
  | pos self =>
      cases c' with
      | pow self' => exact h.elim
      | pos self' => exact h.genesis

theorem SameProtocol.chainStep : c'.ChainStep genesis_stakes = c.ChainStep genesis_stakes := by
  cases c with
  | pow self =>
      cases c' with
      | pow self' =>
          obtain rfl : self' = self := h
          rfl
      | pos self' => exact h.elim
  | pos self =>
      cases c' with
      | pow self' => exact h.elim
      | pos self' =>
          simp only [ChainStep, SameRules.posStep h, SameRules.genesis h]

omit [Runtime] in
theorem SameProtocol.fork_score : c'.fork_score genesis_stakes = c.fork_score genesis_stakes := by
  cases c with
  | pow self =>
      cases c' with
      | pow self' => rfl
      | pos self' => exact h.elim
  | pos self =>
      cases c' with
      | pow self' => exact h.elim
      | pos self' =>
          funext chain
          simp only [Consensus.fork_score, ProofOfStake.canonical_score, ProofOfStake.stake_weight,
            Option.getD_some, SameRules.settings h]

omit [Runtime] in
theorem SameProtocol.outscores {R L : List Block} :
    c'.Outscores genesis_stakes R L ↔ c.Outscores genesis_stakes R L := by
  simp only [Outscores, h.fork_score]

end Consensus

/-! ## Replacing the chain -/

section Replace

variable [Runtime] [Rsa]

/-- The protocol once its stakes are those of a chain. -/
def Consensus.synced (c : Consensus) (genesis_stakes : StakeMap) (chain : List Block) : Consensus :=
  match c with
  | .pow self => .pow self
  | .pos self => .pos
    { self with
      genesis_stakes := some genesis_stakes
      validators := rewarded self.settings genesis_stakes chain }

omit [Runtime] in
theorem Consensus.sameProtocol_synced (c : Consensus) (genesis_stakes : StakeMap)
    (chain : List Block) : c.SameProtocol (c.synced genesis_stakes chain) := by
  cases c with
  | pow self => exact rfl
  | pos self => exact ⟨rfl, rfl, rfl⟩

/-- A node runs one protocol, on the genesis hash of its chain. -/
structure Node.Runs (node : Node) (c : Consensus) : Prop where
  consensus : node.blockchain.consensus = some c
  genesis : node.blockchain.genesis_prev_hash = c.genesis_prev_hash

/-- The node with another chain, and the stakes of it. -/
def Node.with_chain (self : Node) (c : Consensus) (chain : List Block) : Node :=
  { self with blockchain := { self.blockchain with
      chain := chain
      consensus := some (c.synced self.genesis_stakes chain) } }

variable {self : Node} {c : Consensus}

omit [Runtime] in
theorem Node.Runs.with_chain (h : self.Runs c) (chain : List Block) :
    (self.with_chain c chain).Runs (c.synced self.genesis_stakes chain) :=
  ⟨rfl, h.genesis.trans (c.sameProtocol_synced self.genesis_stakes chain).genesis_prev_hash.symm⟩

/-- Verification of the local chain decides growth. -/
theorem Node.Runs.verifies_iff (h : self.Runs c) :
    Verifies (self.blockchain.verify_chain (some self.genesis_stakes)) ↔
      Grows (c.ChainStep self.genesis_stakes) self.blockchain.chain := by
  rw [BlockChain.verify_chain, h.consensus, h.genesis]
  exact Consensus.verifies_iff

/-- A valid chain is stored, with the stakes replayed along it. -/
theorem Node.Runs.replace_chain (h : self.Runs c) {chain : List Block}
    (hvalid : Grows (c.ChainStep self.genesis_stakes) chain) :
    self.blockchain.replace_chain chain (some self.genesis_stakes)
      = (.ok true, (self.with_chain c chain).blockchain) := by
  obtain ⟨v, hv, hok⟩ := Consensus.verifies_iff.mpr hvalid
  rw [← h.genesis, ← h.consensus] at hv
  unfold BlockChain.replace_chain
  rw [hv]
  simp only [hok, Bool.not_true, Bool.false_eq_true, if_false, h.consensus]
  cases c with
  | pow pow =>
      simp only [Node.with_chain, Consensus.synced]
  | pos pos =>
      have hcompute := ProofOfStake.compute_validators_eq_replay pos.settings self.genesis_stakes
        (Consensus.namesValidators_of_grows hvalid)
      rw [replay_eq_rewarded] at hcompute
      simp only [ProofOfStake.sync_validators_from_chain, hcompute, ok_bind, pure_eq,
        Node.with_chain, Consensus.synced]

end Replace

/-! ## One resolution -/

section Resolution

variable [Runtime] [Rsa] {self : Node} {c : Consensus}

omit [Runtime] [Rsa] in
/-- The fragment follows the local chain, or it does not. -/
theorem join_chain_suffix_cases {local_chain suffix : List Block} {joined : Option (List Block)}
    (h : join_chain_suffix local_chain suffix = .ok joined) :
    joined = none ∨ joined = some (local_chain ++ suffix) := by
  simp only [join_chain_suffix, bind_eq_ok, pure_eq] at h
  obtain ⟨_, -, _, -, prev_hash, -, _, -, _, -, tran_hash, -, h⟩ := h
  by_cases heq : prev_hash.eq tran_hash = true
  · right
    simpa [heq] using h.symm
  · left
    simpa [heq] using h.symm

omit [Runtime] [Rsa] in
/-- Between a tip and a first block that hold strings, the hashes decide. -/
theorem join_chain_suffix_eq {local_chain suffix : List Block} {last first : Block} {t p : Str}
    (hlast : local_chain.getLast? = some last) (hfirst : suffix.head? = some first)
    (ht : TranHashIs last t) (hp : PrevHashIs first p) :
    join_chain_suffix local_chain suffix
      = .ok (if p = t then some (local_chain ++ suffix) else none) := by
  obtain ⟨last_header, hlh, ht⟩ := ht
  obtain ⟨first_header, hfh, hp⟩ := hp
  have heq : (PyVal.str p).eq (.str t) = decide (p = t) := rfl
  simp only [join_chain_suffix, hfirst, hlast, orRaise_some, ok_bind, hlh, hfh,
    PyVal.get_of_item ht, PyVal.get_of_item hp, heq, pure_eq]
  by_cases h : p = t
  · simp [h]
  · simp [h]

/-- The chain that received blocks are compared as: joined to the local chain,
or on their own. -/
def Node.IsCandidate (self : Node) (remote_chain candidate : List Block) : Prop :=
  self.blockchain.chain = [] ∧ candidate = remote_chain ∨
    self.blockchain.chain ≠ [] ∧ ∃ joined,
      join_chain_suffix self.blockchain.chain remote_chain = .ok joined ∧
        candidate = joined.getD remote_chain

omit [Runtime] in
theorem Node.IsCandidate.forms {remote_chain candidate : List Block}
    (h : self.IsCandidate remote_chain candidate) :
    candidate = remote_chain ∨ candidate = self.blockchain.chain ++ remote_chain := by
  rcases h with ⟨-, rfl⟩ | ⟨-, joined, hjoined, rfl⟩
  · exact Or.inl rfl
  · rcases join_chain_suffix_cases hjoined with rfl | rfl
    · exact Or.inl rfl
    · exact Or.inr rfl

/-- The selected chain is the local one, or a valid candidate that scores
strictly higher. -/
theorem Node.Runs.canonical_chain_cases (h : self.Runs c)
    (hvalid : Grows (c.ChainStep self.genesis_stakes) self.blockchain.chain)
    {remote_chain canonical : List Block} (hne : remote_chain ≠ [])
    (hcanonical : self.canonical_chain remote_chain = .ok canonical) :
    canonical = self.blockchain.chain ∨
      self.IsCandidate remote_chain canonical ∧
        Grows (c.ChainStep self.genesis_stakes) canonical ∧
        c.Outscores self.genesis_stakes canonical self.blockchain.chain := by
  simp only [Node.canonical_chain, h.consensus, orRaise_some, ok_bind, bind_eq_ok] at hcanonical
  obtain ⟨candidates, hcandidates, hselect⟩ := hcanonical
  unfold Node.fork_candidates at hcandidates
  by_cases hempty : self.blockchain.chain = []
  · -- without a local chain the received one is the only candidate
    rw [if_pos (by simpa using hempty)] at hcandidates
    obtain rfl := Except.ok.inj hcandidates
    rcases Consensus.select_single hselect with hnil | ⟨rfl, hgrows⟩
    · exact Or.inl (hnil.trans hempty.symm)
    · refine Or.inr ⟨Or.inl ⟨hempty, rfl⟩, hgrows, ?_⟩
      rw [hempty]
      exact Consensus.outscores_of_extends hgrows List.nil_prefix (Ne.symm hne)
  · rw [if_neg (by simpa using hempty)] at hcandidates
    obtain ⟨joined, hjoined, hcandidates⟩ := bind_eq_ok.mp hcandidates
    obtain rfl := Except.ok.inj hcandidates
    rcases Consensus.select_pair hvalid hselect with hlocal | ⟨rfl, hgrows, hscore⟩
    · exact Or.inl hlocal
    · exact Or.inr ⟨Or.inr ⟨hempty, joined, hjoined, rfl⟩, hgrows, hscore⟩

/-- One resolution changes nothing, or stores a valid candidate that scores
strictly higher, with the stakes replayed along it. -/
theorem Node.Runs.resolve_fork_cases (h : self.Runs c)
    (hvalid : Grows (c.ChainStep self.genesis_stakes) self.blockchain.chain)
    (remote_chain : List Block) :
    (self.resolve_fork remote_chain).2 = self ∨
      ∃ chain, self.IsCandidate remote_chain chain ∧
        Grows (c.ChainStep self.genesis_stakes) chain ∧
        c.Outscores self.genesis_stakes chain self.blockchain.chain ∧
        self.resolve_fork remote_chain = (.ok (), self.with_chain c chain) := by
  unfold Node.resolve_fork
  by_cases hempty : remote_chain.isEmpty = true
  · left
    rw [if_pos hempty]
  rw [if_neg hempty]
  rcases hcanonical : self.canonical_chain remote_chain with e | canonical
  · exact Or.inl rfl
  simp only
  by_cases hchange : (!canonical.isEmpty && differs canonical self.blockchain.chain) = true
  · have hne : remote_chain ≠ [] := by simpa using hempty
    have hdiffers : canonical ≠ self.blockchain.chain := by
      simp only [differs, Bool.and_eq_true, ne_eq, decide_eq_true_eq] at hchange
      exact hchange.2.1
    rcases h.canonical_chain_cases hvalid hne hcanonical with hlocal | ⟨hform, hgrows, hscore⟩
    · exact absurd hlocal hdiffers
    · right
      refine ⟨canonical, hform, hgrows, hscore, ?_⟩
      rw [if_pos hchange, h.replace_chain hgrows]
      rfl
  · left
    rw [if_neg hchange]

omit [Runtime] [Rsa] in
/-- Lists of different lengths are different to Python. -/
theorem differs_of_length {xs ys : List Block} (h : xs.length ≠ ys.length) : differs xs ys = true := by
  have hne : xs ≠ ys := fun heq => h (congrArg List.length heq)
  have heq : PyVal.eqList xs ys = false := by
    rw [Bool.eq_false_iff]
    exact fun heq => h (PyVal.eqList_iff.mp heq).length_eq
  simp [differs, hne, PyVal.eq, heq]

/-- What is selected is stored, where it is valid and not the local chain. -/
theorem Node.Runs.resolve_fork_selected (h : self.Runs c) {remote_chain canonical : List Block}
    (hne : remote_chain ≠ []) (hcanonical : self.canonical_chain remote_chain = .ok canonical)
    (hvalid : Grows (c.ChainStep self.genesis_stakes) canonical) (hcne : canonical ≠ [])
    (hdiffers : differs canonical self.blockchain.chain = true) :
    self.resolve_fork remote_chain = (.ok (), self.with_chain c canonical) := by
  have hchange : (!canonical.isEmpty && differs canonical self.blockchain.chain) = true := by
    simp [hcne, hdiffers]
  unfold Node.resolve_fork
  rw [if_neg (by simpa using hne), hcanonical]
  simp only
  rw [if_pos hchange, h.replace_chain hvalid]
  rfl

/-- A better candidate than the local chain is stored. -/
theorem Node.Runs.resolve_fork_better (h : self.Runs c) {remote_chain candidate : List Block}
    (hlocal : Grows (c.ChainStep self.genesis_stakes) self.blockchain.chain)
    (hne : remote_chain ≠ [])
    (hcandidate : self.IsCandidate remote_chain candidate)
    (hvalid : Grows (c.ChainStep self.genesis_stakes) candidate)
    (hscore : c.Outscores self.genesis_stakes candidate self.blockchain.chain)
    (hdiffers : differs candidate self.blockchain.chain = true) :
    self.resolve_fork remote_chain = (.ok (), self.with_chain c candidate) := by
  apply h.resolve_fork_selected hne ?_ hvalid (hscore.ne_nil hlocal) hdiffers
  unfold Node.canonical_chain Node.fork_candidates
  rcases hcandidate with ⟨hempty, rfl⟩ | ⟨hnonempty, joined, hjoined, rfl⟩
  · rw [if_pos (by simpa using hempty), h.consensus]
    exact Consensus.select_single_valid hvalid
  · rw [if_neg (by simpa using hnonempty), h.consensus, hjoined]
    exact Consensus.select_better hlocal hvalid hscore

/-- The blocks that follow the local chain extend it. -/
theorem Node.Runs.resolve_fork_extends (h : self.Runs c) {R : List Block}
    (hR : Grows (c.ChainStep self.genesis_stakes) R) {n : ℕ} (hn : n < R.length)
    (hlocal : self.blockchain.chain = R.take n) :
    self.resolve_fork (R.drop n) = (.ok (), self.with_chain c R) := by
  have hlen : (R.take n).length = n := List.length_take_of_le hn.le
  have hne : R.take n ≠ R := by
    intro heq
    rw [heq] at hlen
    omega
  have hprefix : R.take n <+: R := List.take_prefix n R
  apply h.resolve_fork_better
  · rw [hlocal]
    exact hR.prefix_closed hprefix
  · intro hdrop
    rw [List.drop_eq_nil_iff] at hdrop
    omega
  · rcases Nat.eq_zero_or_pos n with rfl | hpos
    · left
      rw [hlocal]
      exact ⟨List.take_zero, List.drop_zero.symm⟩
    · right
      have hnonempty : R.take n ≠ [] := by
        rw [← List.length_pos_iff, hlen]
        exact hpos
      rw [hlocal]
      refine ⟨hnonempty, some (R.take n ++ R.drop n), ?_, (List.take_append_drop n R).symm⟩
      obtain ⟨p, hp, htip⟩ := Consensus.hashes_meet hR hn
      rcases hlast : (R.take n).getLast? with _ | last
      · exact absurd (List.getLast?_eq_none_iff.mp hlast) hnonempty
      simp only [TipIs, hlast] at htip
      have hfirst : (R.drop n).head? = some (R.get ⟨n, hn⟩) := by
        rw [List.head?_drop]
        simp [hn]
      rw [join_chain_suffix_eq hlast hfirst htip hp, if_pos rfl]
  · exact hR
  · rw [hlocal]
    exact Consensus.outscores_of_extends hR hprefix hne
  · apply differs_of_length
    rw [hlocal, hlen]
    omega

end Resolution

/-! ## Runs of resolutions -/

section Runs

variable [Runtime] [Rsa]

/-- The running stakes are the replay of the chain. -/
def Node.StakesReplayed (self : Node) : Prop :=
  ∀ pos, self.blockchain.consensus = some (.pos pos) →
    ProofOfStake.compute_validators_from_chain self.blockchain.chain self.genesis_stakes pos.settings
      = .ok pos.validators

/-- The state a resolution leaves, whether it returns or raises. -/
def Node.after_fork (self : Node) (remote_chain : List Block) : Node :=
  (self.resolve_fork remote_chain).2

/-- The node still runs the protocol, up to the running stakes, on a valid chain. -/
structure Node.Sound (node : Node) (c : Consensus) (genesis_stakes : StakeMap) : Prop where
  stakes : node.genesis_stakes = genesis_stakes
  protocol : ∃ c', node.Runs c' ∧ c.SameProtocol c'
  valid : Grows (c.ChainStep genesis_stakes) node.blockchain.chain

variable {self : Node} {c : Consensus} {genesis_stakes : StakeMap}

theorem Node.Runs.stakesReplayed (h : self.Runs c) {chain : List Block}
    (hvalid : Grows (c.ChainStep self.genesis_stakes) chain) :
    (self.with_chain c chain).StakesReplayed := by
  intro pos hpos
  cases c with
  | pow pow => simp [Node.with_chain, Consensus.synced] at hpos
  | pos pos' =>
      obtain rfl : { pos' with
          genesis_stakes := some self.genesis_stakes
          validators := rewarded pos'.settings self.genesis_stakes chain } = pos := by
        simpa [Node.with_chain, Consensus.synced] using hpos
      have hcompute := ProofOfStake.compute_validators_eq_replay pos'.settings self.genesis_stakes
        (Consensus.namesValidators_of_grows hvalid)
      rw [replay_eq_rewarded] at hcompute
      exact hcompute

/-- One step of a run. -/
theorem Node.Sound.after_fork (h : self.Sound c genesis_stakes) (remote_chain : List Block) :
    (self.after_fork remote_chain).Sound c genesis_stakes ∧
      ((self.after_fork remote_chain).blockchain.chain = self.blockchain.chain ∨
        c.Outscores genesis_stakes (self.after_fork remote_chain).blockchain.chain
          self.blockchain.chain) := by
  obtain ⟨rfl, ⟨c', hrun, hsame⟩, hvalid⟩ := h
  have hvalid' := hvalid
  rw [← hsame.chainStep] at hvalid'
  rcases hrun.resolve_fork_cases hvalid' remote_chain with hstay | ⟨chain, -, hgrows, hscore, hfork⟩
  · rw [Node.after_fork, hstay]
    exact ⟨⟨rfl, ⟨c', hrun, hsame⟩, hvalid⟩, Or.inl rfl⟩
  · rw [Node.after_fork, hfork]
    rw [hsame.chainStep] at hgrows
    refine ⟨⟨rfl, ⟨_, hrun.with_chain chain, ?_⟩, hgrows⟩, Or.inr (hsame.outscores _ |>.mp hscore)⟩
    exact hsame.trans (c'.sameProtocol_synced self.genesis_stakes chain)

/-- A run keeps the chain, or ends at one that scores strictly higher. -/
theorem Node.Sound.run (h : self.Sound c genesis_stakes) (forks : List (List Block)) :
    (run Node.after_fork self forks).Sound c genesis_stakes ∧
      ((run Node.after_fork self forks).blockchain.chain = self.blockchain.chain ∨
        c.Outscores genesis_stakes (run Node.after_fork self forks).blockchain.chain
          self.blockchain.chain) := by
  induction forks generalizing self with
  | nil => exact ⟨h, Or.inl rfl⟩
  | cons fork forks ih =>
      obtain ⟨hsound, hstep⟩ := h.after_fork fork
      obtain ⟨hfinal, hrest⟩ := ih hsound
      refine ⟨hfinal, ?_⟩
      have hrun : Lib.run Node.after_fork self (fork :: forks)
          = Lib.run Node.after_fork (self.after_fork fork) forks := rfl
      rw [hrun]
      rcases hrest with heq | hscore
      · rw [heq]
        exact hstep
      · right
        rcases hstep with heq' | hscore'
        · rw [← heq']
          exact hscore
        · exact hscore.trans hscore'

/-- Fork resolution is safe: whatever a peer sends, the node stays as it is, or
stores one of the two chains the blocks can make, verified, with a strictly
higher score and the stakes replayed. Along a run the chain at a later time is
the chain at an earlier time or scores strictly higher. -/
theorem resolve_fork_safe (hrun : self.Runs c)
    (hvalid : Verifies (self.blockchain.verify_chain (some self.genesis_stakes))) :
    (∀ remote_chain, self.after_fork remote_chain = self ∨
      ((self.after_fork remote_chain).blockchain.chain = remote_chain ∨
        (self.after_fork remote_chain).blockchain.chain = self.blockchain.chain ++ remote_chain) ∧
      Verifies ((self.after_fork remote_chain).blockchain.verify_chain (some self.genesis_stakes)) ∧
      c.Outscores self.genesis_stakes (self.after_fork remote_chain).blockchain.chain
        self.blockchain.chain ∧
      (self.after_fork remote_chain).StakesReplayed) ∧
    ∀ (forks : List (List Block)) (i j : ℕ), i ≤ j →
      (run Node.after_fork self (forks.take j)).blockchain.chain
          = (run Node.after_fork self (forks.take i)).blockchain.chain ∨
        c.Outscores self.genesis_stakes (run Node.after_fork self (forks.take j)).blockchain.chain
          (run Node.after_fork self (forks.take i)).blockchain.chain := by
  have hgrows := hrun.verifies_iff.mp hvalid
  constructor
  · intro remote_chain
    rcases hrun.resolve_fork_cases hgrows remote_chain with hstay | ⟨chain, hform, hchain, hscore, hfork⟩
    · exact Or.inl hstay
    · right
      have hafter : self.after_fork remote_chain = self.with_chain c chain := by
        rw [Node.after_fork, hfork]
      rw [hafter]
      refine ⟨hform.forms, ?_, hscore, hrun.stakesReplayed hchain⟩
      rw [← (c.sameProtocol_synced self.genesis_stakes chain).chainStep] at hchain
      exact (hrun.with_chain chain).verifies_iff.mpr hchain
  · intro forks i j hij
    have hsound : self.Sound c self.genesis_stakes :=
      ⟨rfl, ⟨c, hrun, Consensus.SameProtocol.refl c⟩, hgrows⟩
    rw [run_take_of_le Node.after_fork self forks hij]
    exact ((hsound.run (forks.take i)).1.run ((forks.take j).drop i)).2

end Runs

/-! ## A node -/

namespace Rewritten

attribute [local instance] cpython letterRsa

def network : NetworkSettings := ⟨1048576, 100, 10000, 104857600, by decide, by decide⟩

/-- A proof-of-work node with a chain. -/
def node (network : NetworkSettings) (chain : List Block) : Node :=
  ⟨lit "local", network, .empty,
    { BlockChain.new (some (.pow pow)) DEFAULT_GENESIS_PREV_HASH with chain := chain }⟩

theorem node_runs (network : NetworkSettings) (chain : List Block) :
    (node network chain).Runs (.pow pow) := ⟨rfl, rfl⟩

theorem grows_mined {genesis_stakes : StakeMap} :
    Grows ((Consensus.pow pow).ChainStep genesis_stakes) mined :=
  (pow_verifies_iff.mp verifies_mined).2

/-- The node that holds the first of the three blocks. -/
theorem resolve_fork_safe_mined :
    (∀ remote_chain, (node network (mined.take 1)).after_fork remote_chain
        = node network (mined.take 1) ∨
      (((node network (mined.take 1)).after_fork remote_chain).blockchain.chain = remote_chain ∨
        ((node network (mined.take 1)).after_fork remote_chain).blockchain.chain
          = mined.take 1 ++ remote_chain) ∧
      Verifies (((node network (mined.take 1)).after_fork remote_chain).blockchain.verify_chain
        (some .empty)) ∧
      (Consensus.pow pow).Outscores .empty
        ((node network (mined.take 1)).after_fork remote_chain).blockchain.chain (mined.take 1) ∧
      ((node network (mined.take 1)).after_fork remote_chain).StakesReplayed) ∧
    ∀ (forks : List (List Block)) (i j : ℕ), i ≤ j →
      (run Node.after_fork (node network (mined.take 1)) (forks.take j)).blockchain.chain
          = (run Node.after_fork (node network (mined.take 1)) (forks.take i)).blockchain.chain ∨
        (Consensus.pow pow).Outscores .empty
          (run Node.after_fork (node network (mined.take 1)) (forks.take j)).blockchain.chain
          (run Node.after_fork (node network (mined.take 1)) (forks.take i)).blockchain.chain :=
  resolve_fork_safe (node_runs network (mined.take 1))
    ((node_runs network _).verifies_iff.mpr (grows_mined.prefix_closed (List.take_prefix 1 mined)))

end Rewritten

end EasyBlockchain
