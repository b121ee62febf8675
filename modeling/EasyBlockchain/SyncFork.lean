/-
Synchronisation between nodes whose chains have parted.

The request asks for the blocks above the requester's own height, and the first
block of the answer has to follow the requester's tip. So an exchange brings the
responder's chain where the requester's begins it, and nowhere else: fork
resolution never sees the blocks before the height asked for.
-/
import EasyBlockchain.SyncProgress

set_option autoImplicit false

namespace EasyBlockchain

open Py Lib

section Fork

variable [Runtime] [Rsa] {requester responder : Node} {c c' : Consensus}

/-- A complete exchange, whether or not the responder is closed in it, after which
the requester holds `chain`. -/
def Completes (requester responder : Node) (chain : List Block) : Prop :=
  ∃ x n y, Exchange.start requester = .ok x ∧
    Exchange.after requester (fun _ => responder) x n = .ok y ∧ y.request = none ∧
    (requester.finish_session y.session).2.blockchain.chain = chain

/-- Two nodes of one protocol, each on a valid chain with integer indices, of
which the responder's scores strictly higher; what it has above the requester's
height is within the limits of a session. -/
structure Parted (requester responder : Node) (c c' : Consensus) : Prop where
  runs : requester.Runs c
  responder_runs : responder.Runs c'
  same_protocol : c.SameProtocol c'
  same_stakes : responder.genesis_stakes = requester.genesis_stakes
  valid : Verifies (requester.blockchain.verify_chain (some requester.genesis_stakes))
  responder_valid : Verifies (responder.blockchain.verify_chain (some responder.genesis_stakes))
  integers : ∀ block ∈ requester.blockchain.chain ++ responder.blockchain.chain,
    ∃ i : ℤ, block.item (lit "block_index") = .ok (.int i)
  better : c.Outscores requester.genesis_stakes responder.blockchain.chain
    requester.blockchain.chain
  requester_batch : 1 ≤ requester.network.chain_sync_batch_size
  responder_batch : 1 ≤ responder.network.chain_sync_batch_size
  within : Within requester.network
    (responder.blockchain.chain.drop requester.blockchain.chain.length)

variable (hp : Parted requester responder c c')
include hp

theorem Parted.grows :
    Grows (c.ChainStep requester.genesis_stakes) requester.blockchain.chain :=
  hp.runs.verifies_iff.mp hp.valid

/-- The responder's chain is valid for the requester too. -/
theorem Parted.responder_grows :
    Grows (c.ChainStep requester.genesis_stakes) responder.blockchain.chain := by
  have hgrows := hp.responder_runs.verifies_iff.mp hp.responder_valid
  rw [hp.same_stakes, hp.same_protocol.chainStep] at hgrows
  exact hgrows

/-- What an exchange can bring: the responder's chain only where the requester's
begins it. -/
theorem Parted.begins_of_completes
    (h : Completes requester responder responder.blockchain.chain) :
    requester.blockchain.chain <+: responder.blockchain.chain := by
  have hL := hp.grows
  have hR := hp.responder_grows
  obtain ⟨x, n, y, hx, hy, -, hafter⟩ := h
  obtain ⟨tip, htip⟩ := exists_hashAfter_take hL requester.blockchain.chain.length
  rw [List.take_length] at htip
  rw [Exchange.start, start_session_eq htip, ok_bind, pure_eq, Except.ok.injEq] at hx
  subst hx
  rw [finish_session_eq] at hafter
  rcases hp.runs.resolve_fork_cases hL y.session.blocks with hstay | ⟨chain, hform, -, hscore, hfork⟩
  · rw [hstay] at hafter
    rw [hafter]
  rw [hfork] at hafter
  obtain rfl : chain = responder.blockchain.chain := hafter
  rcases hform.forms with heq | heq
  · -- collected blocks that are the whole chain start at its first height
    rcases Exchange.after_kept hy with hcollected | ⟨hnil, -⟩
    · have hgrows := hcollected.linked
      rw [← heq] at hgrows
      have hpos : 0 < responder.blockchain.chain.length := by
        rw [List.length_pos_iff]
        exact hp.better.ne_nil hL
      have hheight := heightIs_of_grows hgrows hpos
      have hfirst := Consensus.heightIs_of_indexFollows
        (Consensus.linked_of_chainStep (hR.getElem hpos)).2.1 ⟨_, hheight⟩ (by simp)
      have hzero := Consensus.HeightIs.unique hheight hfirst
      simp only [List.take_zero, List.length_nil] at hzero
      have hempty : requester.blockchain.chain = [] := by
        rw [← List.length_eq_zero_iff]
        omega
      rw [hempty]
      exact List.nil_prefix
    · rw [hnil] at heq
      exact absurd heq (hp.better.ne_nil hL)
  · rw [heq]
    exact List.prefix_append _ _

/-- The requester's chain begins the responder's: it is behind on one chain. -/
theorem Parted.behind
    (hpre : requester.blockchain.chain <+: responder.blockchain.chain) :
    Behind requester responder c responder.blockchain.chain
      requester.blockchain.chain.length where
  runs := hp.runs
  valid := Consensus.verifies_iff.mpr hp.responder_grows
  behind := by
    apply lt_of_le_of_ne hpre.length_le
    intro heq
    have hsame := hpre.eq_of_length heq
    have hbetter := hp.better
    rw [← hsame] at hbetter
    exact Consensus.Outscores.irrefl _ hbetter
  requester_chain := List.prefix_iff_eq_take.mp hpre
  responder_chain := rfl
  requester_batch := hp.requester_batch
  responder_batch := hp.responder_batch

/-- The responder's chain begins with the requester's: the exchange brings it. -/
theorem Parted.completes_of_begins
    (hpre : requester.blockchain.chain <+: responder.blockchain.chain) :
    Completes requester responder responder.blockchain.chain := by
  have hb := hp.behind hpre
  have hR := hp.responder_grows
  have hint : ∀ block ∈ responder.blockchain.chain,
      ∃ i : ℤ, block.item (lit "block_index") = .ok (.int i) :=
    fun block hblock => hp.integers block (List.mem_append_right _ hblock)
  have hsync := (hb.synchronises fun n hn _ => Consensus.heights_of_integers hR hint hn).mpr
    ⟨hp.within, rfl⟩
  obtain ⟨x, n, y, hx, hy, hrequest, -, hchain⟩ := hsync
  exact ⟨x, n, y, hx, hy, hrequest, hchain⟩

end Fork

/-! ## A fork above the first block -/

namespace Rewritten

attribute [local instance] cpython letterRsa

/-- The first of the three blocks, and another second one. -/
def forked : List Block := mined.take 1 ++
  [block 2 "2024-01-01 00:00:10" hash₁
    (lit "054383ecfbef70db17612fb55f1073068b775ea7d0b6df9eea711cd26b7d7c68") 4 1 "x" "y"]

theorem verifies_forked :
    Verifies (verify_chain_integrity forked (some (.pow pow)) DEFAULT_GENESIS_PREV_HASH none) :=
  ⟨.ok, by decide +kernel, rfl⟩

theorem integers_forked :
    ∀ block ∈ forked, ∃ i : ℤ, block.item (lit "block_index") = .ok (.int i) := by
  intro block hblock
  rcases List.mem_append.mp hblock with hfirst | hsecond
  · exact integers_mined block (List.mem_of_mem_take hfirst)
  · obtain rfl := List.mem_singleton.mp hsecond
    exact ⟨2, rfl⟩

/-- The three blocks against a valid chain with a lower score. -/
theorem parted {chain : List Block}
    (hgrows : Grows ((Consensus.pow pow).ChainStep .empty) chain)
    (hint : ∀ block ∈ chain, ∃ i : ℤ, block.item (lit "block_index") = .ok (.int i))
    (hbetter : (Consensus.pow pow).Outscores .empty mined chain)
    (hwithin : Within network (mined.drop chain.length)) :
    Parted (node network chain) (node network mined) (.pow pow) (.pow pow) where
  runs := node_runs network chain
  responder_runs := node_runs network mined
  same_protocol := rfl
  same_stakes := rfl
  valid := (node_runs network chain).verifies_iff.mpr hgrows
  responder_valid := (node_runs network mined).verifies_iff.mpr grows_mined
  integers := by
    intro block hblock
    rcases List.mem_append.mp hblock with hlocal | hremote
    · exact hint block hlocal
    · exact integers_mined block hremote
  better := hbetter
  requester_batch := by show 1 ≤ network.chain_sync_batch_size; decide
  responder_batch := by show 1 ≤ network.chain_sync_batch_size; decide
  within := hwithin

theorem parted_forked :
    Parted (node network forked) (node network mined) (.pow pow) (.pow pow) := by
  refine parted (pow_verifies_iff.mp verifies_forked).2 integers_forked ?_ (by decide +kernel)
  have hforked : ProofOfWork.score_chain forked = .ok (toLex (2, 2)) := by decide +kernel
  have hmined : ProofOfWork.score_chain mined = .ok (toLex (3, 3)) := by decide +kernel
  exact ⟨_, _, congrArg (Except.map powScore) hforked, congrArg (Except.map powScore) hmined,
    powScore_strictMono (by decide)⟩

/-- The only answer is refused. -/
theorem completes_forked : Completes (node network forked) (node network mined) forked := by
  have hrun : (do
      let x ← Exchange.start (node network forked)
      let y ← Exchange.after (node network forked) (fun _ => node network mined) x 1
      return (y.request, ((node network forked).finish_session y.session).2.blockchain.chain))
      = (.ok (none, forked) : PyM (Option ℤ × List Block)) := by
    decide +kernel
  obtain ⟨x, hx, hrun⟩ := bind_eq_ok.mp hrun
  obtain ⟨y, hy, hrun⟩ := bind_eq_ok.mp hrun
  obtain ⟨hrequest, hchain⟩ := Prod.mk.inj (Except.ok.inj hrun)
  exact ⟨x, 1, y, hx, hy, hrequest, hchain⟩

end Rewritten

end EasyBlockchain
