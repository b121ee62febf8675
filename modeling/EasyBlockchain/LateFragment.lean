/-
Blocks that arrive twice.

A session that was started at height `n` ends with the blocks from there on.
Blocks that arrived one by one in the meantime have taken the local chain to
height `m`, so the fragment overlaps it. `_join_chain_suffix` only joins a
fragment to the very tip, and a fragment that is not joined is a candidate on its
own, which fails as soon as it does not start at the genesis block.
-/
import EasyBlockchain.SyncSession
import EasyBlockchain.ForkResolution

set_option autoImplicit false

namespace EasyBlockchain

open Py Lib

section Late

variable [Runtime] [Rsa] {self : Node} {c : Consensus} {R : List Block} {n m : ℕ}

/-- The handover of a session is the resolution of its blocks. -/
theorem finish_session_eq (self : Node) (session : ChainSyncSession) :
    self.finish_session session = self.resolve_fork session.blocks := by
  unfold Node.finish_session
  by_cases hnil : session.blocks.isEmpty = true
  · rw [if_pos hnil, Node.resolve_fork, if_pos hnil]
  · rw [if_neg hnil]

omit [Rsa] in
/-- Batches taken one after the other keep what a session collects. -/
theorem collected_of_batches {network : NetworkSettings} {first session : ChainSyncSession}
    {start : ℤ} {tip : PyVal} (hfirst : first.Collected network start tip)
    (hbatches : Relation.ReflTransGen
      (fun s s' => ∃ payload, accept_chain_batch network s payload = .ok (some s')) first session) :
    session.Collected network start tip := by
  induction hbatches with
  | refl => exact hfirst
  | tail _ hstep ih =>
      obtain ⟨payload, haccept⟩ := hstep
      exact ih.accept haccept

/-- The whole of `R` after a beginning of it is the local chain again, or does
not change it. -/
theorem resolve_fork_overlap (hrun : self.Runs c) (hR : Grows (c.ChainStep self.genesis_stakes) R)
    (hlocal : self.blockchain.chain = R)
    (hheights : ∀ (k : ℕ) (hk : k < R.length), n ≤ k →
      Consensus.HeightIs (R.get ⟨k, hk⟩) (k + 1)) :
    (self.resolve_fork (R.drop n)).2.blockchain.chain = R := by
  have hgrows : Grows (c.ChainStep self.genesis_stakes) self.blockchain.chain := by
    rw [hlocal]
    exact hR
  rcases hrun.resolve_fork_cases hgrows (R.drop n) with hstay | ⟨chain, hform, hchain, hscore, -⟩
  · rw [hstay]
    exact hlocal
  exfalso
  rw [hlocal] at hscore
  rcases hform.forms with rfl | rfl
  · -- on its own the fragment scores no higher than the whole chain
    have hsplit : R = R.take n ++ R.drop n := (List.take_append_drop n R).symm
    rw [hsplit] at hR hscore
    exact Consensus.not_outscores_suffix hR hchain (by simpa using hscore)
  · -- joined to the tip the indices do not carry on
    rw [hlocal] at hchain hscore
    by_cases hn : n < R.length
    · have hdrop : R.drop n = R.get ⟨n, hn⟩ :: R.drop (n + 1) := List.drop_eq_getElem_cons hn
      rw [hdrop] at hchain
      have hindex := (Consensus.linked_of_chainStep (growsFrom_append.mp hchain).2.1).2.1
      have hheight := hheights n hn le_rfl
      have hnext := Consensus.heightIs_of_indexFollows hindex ⟨_, hheight⟩ (by
        intro last hlast
        rw [List.nil_append, List.getLast?_eq_getElem?,
          List.getElem?_eq_getElem (by omega : R.length - 1 < R.length)] at hlast
        obtain rfl := Option.some.inj hlast
        have h := hheights (R.length - 1) (by omega) (by omega)
        rw [Nat.sub_add_cancel (by omega)] at h
        exact h)
      have heq := Consensus.HeightIs.unique hheight hnext
      rw [List.nil_append] at heq
      omega
    · rw [List.drop_eq_nil_of_le (not_lt.mp hn), List.append_nil] at hscore
      exact Consensus.Outscores.irrefl R hscore

/-- A fragment that starts after a height `n` below the tip is lost, unless it
is the whole chain and is not mistaken for a continuation of the tip. -/
theorem resolve_fork_late (hrun : self.Runs c) (hR : Grows (c.ChainStep self.genesis_stakes) R)
    (hlocal : self.blockchain.chain = R.take m) (hnm : n < m) (hm : m < R.length) :
    (self.resolve_fork (R.drop n)).2.blockchain.chain = R ↔
      n = 0 ∧ ∀ tip, (R.take m).getLast? = some tip → ¬ TranHashIs tip c.genesis_prev_hash := by
  have hlen : (R.take m).length = m := List.length_take_of_le hm.le
  have hnonempty : self.blockchain.chain ≠ [] := by
    rw [hlocal, ← List.length_pos_iff, hlen]
    omega
  have hgrows : Grows (c.ChainStep self.genesis_stakes) self.blockchain.chain := by
    rw [hlocal]
    exact hR.prefix_closed (List.take_prefix m R)
  obtain ⟨last, hlast⟩ : ∃ last, (R.take m).getLast? = some last := by
    rw [hlocal] at hnonempty
    exact ⟨_, List.getLast?_eq_some_getLast hnonempty⟩
  obtain ⟨t, ht⟩ : ∃ t, TranHashIs last t := by
    obtain ⟨init, hinit⟩ := List.getLast?_eq_some_iff.mp hlast
    rw [hlocal, hinit] at hgrows
    exact (Consensus.linked_of_chainStep (grows_snoc.mp hgrows).2).2.2
  obtain ⟨p, hp, hstart⟩ := Consensus.hashes_meet hR (by omega : 0 < R.length)
  have hgenesis : p = c.genesis_prev_hash := by
    rw [List.take_zero] at hstart
    exact hstart
  have hfirst : R.head? = some (R.get ⟨0, by omega⟩) := by
    rw [List.head?_eq_getElem?, List.getElem?_eq_getElem (by omega)]
    rfl
  constructor
  · intro hafter
    rcases hrun.resolve_fork_cases hgrows (R.drop n) with hstay | ⟨chain, hform, -, -, hfork⟩
    · rw [hstay, hlocal] at hafter
      rw [hafter] at hlen
      omega
    · rw [hfork] at hafter
      obtain rfl : chain = R := hafter
      rcases hform with ⟨hnil, -⟩ | ⟨-, joined, hjoined, hform⟩
      · exact absurd hnil hnonempty
      have hnot : joined ≠ some (self.blockchain.chain ++ chain.drop n) := by
        rintro rfl
        have := congrArg List.length hform
        rw [Option.getD_some, List.length_append, hlocal, hlen, List.length_drop] at this
        omega
      obtain rfl := (join_chain_suffix_cases hjoined).resolve_right hnot
      have hzero : n = 0 := by
        have := congrArg List.length hform
        rw [Option.getD_none, List.length_drop] at this
        omega
      refine ⟨hzero, ?_⟩
      intro tip htip htran
      rw [hlast, Option.some.injEq] at htip
      subst htip
      subst hzero
      rw [List.drop_zero, hlocal, join_chain_suffix_eq hlast hfirst htran hp, if_pos hgenesis,
        Except.ok.injEq] at hjoined
      cases hjoined
  · rintro ⟨rfl, htip⟩
    rw [List.drop_zero]
    rw [@Node.Runs.resolve_fork_better _ _ _ _ hrun _ R hgrows]
    · rfl
    · rw [← List.length_pos_iff]
      omega
    · right
      refine ⟨hnonempty, none, ?_, rfl⟩
      rw [hlocal, join_chain_suffix_eq hlast hfirst ht hp, if_neg]
      rintro rfl
      rw [hgenesis] at ht
      exact htip last hlast ht
    · exact hR
    · rw [hlocal]
      apply Consensus.outscores_of_extends hR (List.take_prefix m R)
      intro heq
      rw [heq] at hlen
      omega
    · apply differs_of_length
      rw [hlocal, hlen]
      omega

/-- A session that started at height `n` of a valid chain `R` and holds the
blocks from there on, after the local chain has grown along `R` to height `m`.
The blocks are stored exactly when nothing arrived in the meantime, when all of
them did, or when the session started with no blocks at all and the new tip
does not have the genesis hash. -/
theorem sync_after_gossip (hrun : self.Runs c)
    (hvalid : Verifies (verify_chain_integrity R (some c) c.genesis_prev_hash
      (some self.genesis_stakes))) (hnm : n ≤ m) (hm : m ≤ R.length)
    (hlocal : self.blockchain.chain = R.take m) {started : Node}
    (hstarted : started.blockchain.chain = R.take n) {first session : ChainSyncSession}
    (hfirst : started.start_session = .ok first)
    (hbatches : Relation.ReflTransGen
      (fun s s' => ∃ payload, accept_chain_batch self.network s payload = .ok (some s')) first session)
    (hblocks : session.blocks = R.drop n) :
    (self.finish_session session).2.blockchain.chain = R ↔
      n = m ∨ m = R.length ∨
        n = 0 ∧ ∀ tip, (R.take m).getLast? = some tip → ¬ TranHashIs tip c.genesis_prev_hash := by
  have hR := Consensus.verifies_iff.mp hvalid
  have hlen : (R.take n).length = n := List.length_take_of_le (hnm.trans hm)
  -- the session has checked the indices of what it holds
  have hheights : ∀ (k : ℕ) (hk : k < R.length), n ≤ k →
      Consensus.HeightIs (R.get ⟨k, hk⟩) (k + 1) := by
    obtain ⟨tip, htip⟩ := exists_hashAfter_take hR n
    have hstart := @start_session_eq _ started tip (by rw [hstarted]; exact htip)
    rw [hstart, Except.ok.injEq] at hfirst
    subst hfirst
    have hcollected := collected_of_batches (collected_new self.network false _ tip) hbatches
    have hgrows := hcollected.linked
    rw [hblocks, hstarted, hlen] at hgrows
    intro k hk hnk
    have hindex := heightIs_of_grows hgrows (i := k - n) (by rw [List.length_drop]; omega)
    simpa [Nat.add_sub_cancel' hnk] using hindex
  rw [finish_session_eq, hblocks]
  rcases Nat.lt_or_ge m R.length with hlt | hge
  · rcases Nat.eq_or_lt_of_le hnm with rfl | hlt'
    · rw [hrun.resolve_fork_extends hR hlt hlocal]
      exact ⟨fun _ => Or.inl rfl, fun _ => rfl⟩
    · rw [resolve_fork_late hrun hR hlocal hlt' hlt]
      constructor
      · exact fun h => Or.inr (Or.inr h)
      · rintro (heq | heq | h)
        · omega
        · omega
        · exact h
  · have hwhole : R.take m = R := List.take_of_length_le hge
    rw [hwhole] at hlocal
    rw [resolve_fork_overlap hrun hR hlocal hheights]
    exact ⟨fun _ => Or.inr (Or.inl (by omega)), fun _ => rfl⟩

end Late

/-! ## A lost fragment -/

namespace Rewritten

attribute [local instance] cpython letterRsa

/-- The session of a node that holds the first block, after the answer with the
other two. -/
theorem session_mined : ∃ first session,
    (node network (mined.take 1)).start_session = .ok first ∧
    accept_chain_batch network first ((node network mined).chain_reply 2 100)
      = .ok (some session) ∧
    session.blocks = mined.drop 1 := by
  have hrun : (do
      let first ← (node network (mined.take 1)).start_session
      let session ← accept_chain_batch network first ((node network mined).chain_reply 2 100)
      return session.map ChainSyncSession.blocks) = .ok (some (mined.drop 1)) := by
    decide +kernel
  obtain ⟨first, hfirst, hrun⟩ := bind_eq_ok.mp hrun
  obtain ⟨session, haccept, hrun⟩ := bind_eq_ok.mp hrun
  obtain ⟨session, rfl, hblocks⟩ := Option.map_eq_some_iff.mp (Except.ok.inj hrun)
  exact ⟨first, session, hfirst, haccept, hblocks⟩

theorem verifies_mined_stakes (genesis_stakes : StakeMap) :
    Verifies (verify_chain_integrity mined (some (.pow pow)) (Consensus.pow pow).genesis_prev_hash
      (some genesis_stakes)) :=
  Consensus.verifies_iff.mpr grows_mined

/-- The second block arrives on its own before the session ends with the second
and the third; the third is lost. -/
theorem late_fragment_lost : ∃ first session,
    (node network (mined.take 1)).start_session = .ok first ∧
    accept_chain_batch network first ((node network mined).chain_reply 2 100)
      = .ok (some session) ∧
    session.blocks = mined.drop 1 ∧
    Verifies (verify_chain_integrity mined (some (.pow pow)) (Consensus.pow pow).genesis_prev_hash
      (some .empty)) ∧
    ((node network (mined.take 2)).finish_session session).2.blockchain.chain ≠ mined := by
  obtain ⟨first, session, hfirst, haccept, hblocks⟩ := session_mined
  refine ⟨first, session, hfirst, haccept, hblocks, verifies_mined_stakes .empty, ?_⟩
  rw [finish_session_eq, hblocks]
  intro hafter
  have hlate := resolve_fork_late (node_runs network (mined.take 2)) grows_mined rfl
    (by decide : 1 < 2) (by decide)
  exact absurd (hlate.mp hafter).1 (by decide)

/-- The theorem on this run. -/
theorem sync_after_gossip_mined : ∃ first session,
    (node network (mined.take 1)).start_session = .ok first ∧
    accept_chain_batch network first ((node network mined).chain_reply 2 100)
      = .ok (some session) ∧
    (((node network (mined.take 2)).finish_session session).2.blockchain.chain = mined ↔
      1 = 2 ∨ 2 = mined.length ∨
        1 = 0 ∧ ∀ tip, (mined.take 2).getLast? = some tip →
          ¬ TranHashIs tip (Consensus.pow pow).genesis_prev_hash) := by
  obtain ⟨first, session, hfirst, haccept, hblocks⟩ := session_mined
  exact ⟨first, session, hfirst, haccept,
    sync_after_gossip (node_runs network (mined.take 2)) (verifies_mined_stakes .empty)
      (by decide) (by decide) rfl
      (show (node network (mined.take 1)).blockchain.chain = mined.take 1 from rfl) hfirst
      (.single ⟨_, haccept⟩) hblocks⟩

end Rewritten

end EasyBlockchain
