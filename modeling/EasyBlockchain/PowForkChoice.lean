/-
What proof-of-work fork choice follows.

A block of difficulty `d` stands for `16 ^ d` hash trials. The score of a chain
is the sum of the exponents and not of the trials, so the chain of the largest
total difficulty is selected, and this is the chain of the most work only where
the two sums order the candidates alike, as they do where all blocks declare one
difficulty.
-/
import EasyBlockchain.ForkResolution

set_option autoImplicit false

namespace EasyBlockchain

open Py Lib

namespace ProofOfWork

/-- The expected hash trials behind a chain. -/
def expected_work (chain : List Block) : PyM ℕ := do
  let difficulties ← mapPy block_difficulty chain
  return (difficulties.map fun d => 16 ^ d.toNat).sum

variable [Runtime]

/-- A valid candidate that has strictly more of something than every other valid
candidate. -/
structure StrictlyMost {κ : Type} [LT κ] (measure : List Block → PyM κ)
    (consensus : ProofOfWork) (chains : List (List Block)) (best : List Block) : Prop where
  mem : best ∈ chains
  valid : consensus.is_chain_valid best = .ok true
  most : ∃ m, measure best = .ok m ∧ ∀ chain ∈ chains, consensus.is_chain_valid chain = .ok true →
    chain ≠ best → ∃ n, measure chain = .ok n ∧ n < m

variable {self : ProofOfWork} {chains : List (List Block)} {best : List Block}

/-- Where validation raises on no candidate, the largest total difficulty is selected. -/
theorem select_of_most_difficulty
    (hchecked : ∀ chain ∈ chains, ∃ b, self.is_chain_valid chain = .ok b)
    (h : StrictlyMost total_difficulty self chains best) :
    self.select_canonical_chain chains = .ok best := by
  obtain ⟨d, hd, hmost⟩ := h.most
  have hfilter : filterPy self.is_chain_valid chains
      = .ok (chains.filter fun chain => self.is_chain_valid chain = .ok true) :=
    filterPy_eq_ok.mpr ⟨hchecked, rfl⟩
  have hmem : best ∈ chains.filter fun chain => self.is_chain_valid chain = .ok true := by
    rw [List.mem_filter, decide_eq_true_eq]
    exact ⟨h.mem, h.valid⟩
  have hscore : ∀ {chain : List Block} {e : ℤ}, total_difficulty chain = .ok e →
      score_chain chain = .ok (toLex (e, chain.length)) := by
    intro chain e he
    rw [score_chain, he, ok_bind, pure_eq]
  have hmax : maxBy score_chain (chains.filter fun chain => self.is_chain_valid chain = .ok true)
      = .ok (some best) := by
    apply maxBy_eq_of_lt hmem (hscore hd)
    intro chain hchain hne
    rw [List.mem_filter, decide_eq_true_eq] at hchain
    obtain ⟨e, he, hlt⟩ := hmost chain hchain.1 hchain.2 hne
    refine ⟨_, hscore he, ?_⟩
    rw [Prod.Lex.toLex_lt_toLex]
    left
    exact hlt
  rw [select_canonical_chain, hfilter, ok_bind, hmax]
  rfl

omit [Runtime] in
/-- Blocks of one difficulty: the trials and the total difficulty count the blocks. -/
theorem sums_of_uniform {chain : List Block} {d : ℤ}
    (h : ∀ block ∈ chain, block_difficulty block = .ok d) :
    expected_work chain = .ok (chain.length * 16 ^ d.toNat) ∧
      total_difficulty chain = .ok (chain.length * d) := by
  have hmap : mapPy block_difficulty chain = .ok (List.replicate chain.length d) := by
    induction chain with
    | nil => rfl
    | cons block rest ih =>
        rw [mapPy, h block List.mem_cons_self, ok_bind,
          ih fun b hb => h b (List.mem_cons_of_mem block hb), ok_bind, pure_eq]
        rfl
  rw [expected_work, total_difficulty, hmap]
  simp only [ok_bind, pure_eq, List.map_replicate, List.sum_replicate, nsmul_eq_mul,
    Nat.cast_id, and_self]

/-- Where all blocks declare one difficulty, the most work is the largest total difficulty. -/
theorem most_difficulty_of_most_work {d : ℤ}
    (huniform : ∀ chain ∈ chains, self.is_chain_valid chain = .ok true →
      ∀ block ∈ chain, block_difficulty block = .ok d)
    (h : StrictlyMost expected_work self chains best) :
    StrictlyMost total_difficulty self chains best := by
  obtain ⟨m, hm, hmost⟩ := h.most
  obtain ⟨hwork, htotal⟩ := sums_of_uniform (huniform best h.mem h.valid)
  rw [hwork, Except.ok.injEq] at hm
  subst hm
  refine ⟨h.mem, h.valid, _, htotal, ?_⟩
  intro chain hchain hvalid hne
  obtain ⟨hwork', htotal'⟩ := sums_of_uniform (huniform chain hchain hvalid)
  obtain ⟨n, hn, hlt⟩ := hmost chain hchain hvalid hne
  rw [hwork', Except.ok.injEq] at hn
  subst hn
  have hlength : chain.length < best.length := lt_of_mul_lt_mul_right hlt (Nat.zero_le _)
  -- the longer chain has a block, whose difficulty validation finds positive
  obtain ⟨block, hblock⟩ := List.exists_mem_of_length_pos (Nat.zero_lt_of_lt hlength)
  obtain ⟨e, he, hpos⟩ := Consensus.block_difficulty_of_grows (is_chain_valid_iff.mp h.valid) hblock
  rw [huniform best h.mem h.valid block hblock, Except.ok.injEq] at he
  subst he
  exact ⟨_, htotal', mul_lt_mul_of_pos_right (Nat.cast_lt.mpr hlength) hpos⟩

/-- Fork choice follows the total difficulty, and the work where all blocks of
the valid candidates declare one difficulty. -/
theorem fork_choice_follows_difficulty (self : ProofOfWork) (chains : List (List Block))
    (hchecked : ∀ chain ∈ chains, ∃ b, self.is_chain_valid chain = .ok b) :
    (∀ best, StrictlyMost total_difficulty self chains best →
      self.select_canonical_chain chains = .ok best) ∧
    ∀ d, (∀ chain ∈ chains, self.is_chain_valid chain = .ok true →
        ∀ block ∈ chain, block_difficulty block = .ok d) →
      ∀ best, StrictlyMost expected_work self chains best →
        self.select_canonical_chain chains = .ok best := by
  refine ⟨fun best h => select_of_most_difficulty hchecked h, ?_⟩
  intro d huniform best h
  exact select_of_most_difficulty hchecked (most_difficulty_of_most_work huniform h)

end ProofOfWork

/-! ## Five easy blocks against one hard one -/

namespace Rewritten

attribute [local instance] cpython letterRsa

def hash₄ : Str := lit "0ba79074a66234283b91f7985660ab81f9050098d298677473976861cb6c0bf5"

def hash₅ : Str := lit "0e3bf08cb79fd1a4ad92174868bb47021acd024f8ff071e7daca82820115b4ab"

/-- Five blocks, ten seconds apart as targeted. -/
def patient : List Block :=
  [block 1 "2024-01-01 00:00:00" DEFAULT_GENESIS_PREV_HASH hash₁ 8 1 "a" "b",
    block 2 "2024-01-01 00:00:10" hash₁ hash₂ 1 1 "c" "d",
    block 3 "2024-01-01 00:00:20" hash₂ hash₃ 255 1 "e" "f",
    block 4 "2024-01-01 00:00:30" hash₃ hash₄ 1 1 "g" "h",
    block 5 "2024-01-01 00:00:40" hash₄ hash₅ 14 1 "i" "j"]

theorem is_chain_valid_patient : pow.is_chain_valid patient = .ok true := by decide +kernel

theorem is_chain_valid_rewritten : pow.is_chain_valid rewritten = .ok true :=
  is_chain_valid_iff.mpr (pow_verifies_iff.mp verifies_rewritten).2

theorem is_chain_valid_mined : pow.is_chain_valid mined = .ok true :=
  is_chain_valid_iff.mpr (pow_verifies_iff.mp verifies_mined).2

theorem patient_most_difficult :
    ProofOfWork.StrictlyMost ProofOfWork.total_difficulty pow [patient, rewritten] patient := by
  refine ⟨by simp, is_chain_valid_patient, 5, by decide +kernel, ?_⟩
  intro chain hchain _ hne
  rcases List.mem_pair.mp hchain with rfl | rfl
  · exact absurd rfl hne
  · exact ⟨4, by decide +kernel, by decide⟩

theorem patient_most_work :
    ProofOfWork.StrictlyMost ProofOfWork.expected_work pow [mined, patient] patient := by
  refine ⟨by simp, is_chain_valid_patient, 80, by decide +kernel, ?_⟩
  intro chain hchain _ hne
  rcases List.mem_pair.mp hchain with rfl | rfl
  · exact ⟨48, by decide +kernel, by decide⟩
  · exact absurd rfl hne

theorem checked {chain₁ chain₂ : List Block} {b₁ b₂ : Bool}
    (h₁ : pow.is_chain_valid chain₁ = .ok b₁) (h₂ : pow.is_chain_valid chain₂ = .ok b₂) :
    ∀ chain ∈ [chain₁, chain₂], ∃ b, pow.is_chain_valid chain = .ok b := by
  intro chain hchain
  rcases List.mem_pair.mp hchain with rfl | rfl
  · exact ⟨b₁, h₁⟩
  · exact ⟨b₂, h₂⟩

/-- The five blocks are selected against the hard one, which makes the larger
work, and against three of them, which declare the same difficulty. -/
theorem patient_selected :
    pow.select_canonical_chain [patient, rewritten] = .ok patient ∧
    pow.select_canonical_chain [mined, patient] = .ok patient := by
  constructor
  · exact (ProofOfWork.fork_choice_follows_difficulty pow [patient, rewritten]
      (checked is_chain_valid_patient is_chain_valid_rewritten)).1 patient patient_most_difficult
  · have huniform : ∀ chain ∈ [mined, patient], ∀ block ∈ chain,
        ProofOfWork.block_difficulty block = .ok 1 := by decide +kernel
    exact (ProofOfWork.fork_choice_follows_difficulty pow [mined, patient]
      (checked is_chain_valid_mined is_chain_valid_patient)).2 1
        (fun chain hchain _ => huniform chain hchain) patient patient_most_work

/-- The three blocks stand for 288 trials, the five for 80; the five are selected.
And an empty block, on which validation raises, keeps the only valid candidate
from being selected. -/
theorem most_work_not_selected :
    ProofOfWork.StrictlyMost ProofOfWork.expected_work pow [patient, rewritten] rewritten ∧
    pow.select_canonical_chain [patient, rewritten] = .ok patient ∧
    ProofOfWork.StrictlyMost ProofOfWork.expected_work pow [rewritten, [.dict []]] rewritten ∧
    pow.select_canonical_chain [rewritten, [.dict []]] = .error .keyError := by
  have hwork : ProofOfWork.expected_work rewritten = .ok 288 := by decide +kernel
  have hraise : pow.is_chain_valid [.dict []] = .error .keyError := by decide +kernel
  refine ⟨⟨by simp, is_chain_valid_rewritten, 288, hwork, ?_⟩, ?_,
    ⟨by simp, is_chain_valid_rewritten, 288, hwork, ?_⟩, ?_⟩
  · intro chain hchain _ hne
    rcases List.mem_pair.mp hchain with rfl | rfl
    · exact ⟨80, by decide +kernel, by decide⟩
    · exact absurd rfl hne
  · exact ProofOfWork.select_of_most_difficulty
      (checked is_chain_valid_patient is_chain_valid_rewritten) patient_most_difficult
  · intro chain hchain hvalid hne
    rcases List.mem_pair.mp hchain with rfl | rfl
    · exact absurd rfl hne
    · rw [hraise] at hvalid
      cases hvalid
  · rw [ProofOfWork.select_canonical_chain, filterPy, is_chain_valid_rewritten, ok_bind, filterPy,
      hraise]
    rfl

end Rewritten

end EasyBlockchain
