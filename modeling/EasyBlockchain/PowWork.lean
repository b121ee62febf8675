/-
How much of the work a proof-of-work chain claims is fixed by its hashes.

The hash of a block covers `prev_hash`, the body and the nonce. The required
difficulty is recomputed from `block_item`, which no hash covers, over a window
of `adjustment_interval` blocks. So the hashes bound the declared difficulties,
and the times select within the bound: chains whose windows span the same
number of seconds declare the same difficulties.
-/
import EasyBlockchain.HashCommitment

set_option autoImplicit false

namespace EasyBlockchain

open Py Lib

namespace ProofOfWork

/-! ## What the difficulty depends on -/

section Window

variable [Runtime]

/-- The declared difficulty of a block. -/
def DifficultyIs (block : Block) (difficulty : ℤ) : Prop :=
  ∃ v, HeaderIs block (lit "difficulty") v ∧ v.toInt = .ok difficulty

/-- Two blocks declare the same difficulty. -/
def SameDifficulty (x y : Block) : Prop := ∃ difficulty, DifficultyIs x difficulty ∧
  DifficultyIs y difficulty

/-- The seconds `get_difficulty` measures: from the first to the last block of
the window at the end of the chain. -/
def window_span (settings : PowSettings) (chain : List Block) : PyM ℤ := do
  let recent := sliceFrom chain (-settings.adjustment_interval)
  let first ← orRaise .indexError recent.head?
  let final ← orRaise .indexError recent.getLast?
  elapsed_seconds settings first final

/-- Below height `n`, wherever a window is complete, it spans the same number of
seconds in both chains. -/
def SameSpans (settings : PowSettings) (C D : List Block) (n : ℕ) : Prop :=
  ∀ m, 0 < m → m < n → settings.adjustment_interval ≤ m →
    window_span settings (C.take m) = window_span settings (D.take m)

variable {settings : PowSettings}

omit [Runtime] in
theorem header_difficulty_of {block : Block} {difficulty : ℤ} (h : DifficultyIs block difficulty) :
    (do let header ← block.item (lit "block_header"); header_difficulty settings header)
      = .ok difficulty := by
  obtain ⟨v, ⟨header, hheader, hv⟩, hint⟩ := h
  simp [hheader, header_difficulty, PyVal.get_of_item hv, hint]

/-- The required difficulty reads the declared difficulties and one span. -/
theorem get_difficulty_congr {C D : List Block} (h : List.Forall₂ SameDifficulty C D)
    (hspan : C ≠ [] → settings.adjustment_interval ≤ C.length →
      window_span settings C = window_span settings D) :
    get_difficulty settings C = get_difficulty settings D := by
  have hlen := h.length_eq
  rcases List.eq_nil_or_concat C with rfl | ⟨C₀, x, rfl⟩
  · obtain rfl := List.forall₂_nil_left_iff.mp h
    rfl
  rcases List.eq_nil_or_concat D with rfl | ⟨D₀, y, rfl⟩
  · simp at hlen
  simp only [List.concat_eq_append] at *
  unfold get_difficulty
  simp only [List.getLast?_concat]
  by_cases hshort : ((C₀ ++ [x]).length : ℤ) < settings.adjustment_interval
  · -- before the first adjustment: the last declared difficulty
    rw [if_pos hshort, if_pos (hlen ▸ hshort)]
    obtain ⟨d, hx, hy⟩ : SameDifficulty x y := by
      have hlast := (List.forall₂_reverse_iff.mpr h)
      simp only [List.reverse_append, List.reverse_cons, List.reverse_nil, List.nil_append,
        List.cons_append, List.forall₂_cons] at hlast
      exact hlast.1
    exact (header_difficulty_of hx).trans (header_difficulty_of hy).symm
  · rw [if_neg hshort, if_neg (hlen ▸ hshort)]
    have hspan := hspan (by simp) (not_lt.mp hshort)
    have hrecent : List.Forall₂ SameDifficulty
        (sliceFrom (C₀ ++ [x]) (-settings.adjustment_interval))
        (sliceFrom (D₀ ++ [y]) (-settings.adjustment_interval)) := by
      unfold sliceFrom
      rw [hlen]
      exact List.forall₂_drop _ h
    simp only [window_span] at hspan
    generalize sliceFrom (C₀ ++ [x]) (-settings.adjustment_interval) = recent at hrecent hspan ⊢
    generalize sliceFrom (D₀ ++ [y]) (-settings.adjustment_interval) = recent' at hrecent hspan ⊢
    cases hrecent with
    | nil => rfl
    | @cons u v us vs huv _ =>
        obtain ⟨d, hu, hv⟩ := huv
        simp only [List.head?_cons, orRaise_some, ok_bind] at hspan ⊢
        simp only [← bind_assoc, header_difficulty_of hu, header_difficulty_of hv] at hspan ⊢
        simp only [hspan, bind_assoc, ok_bind]

end Window

/-! ## Declared difficulties along two chains -/

section TwoChains

variable [Runtime] [Rsa] {pow : ProofOfWork} {g : Str} {C D : List Block}

omit [Rsa] in
/-- An accepted block declares the difficulty required of it, and its hash has
that many leading zeros. -/
theorem difficulty_of_step {seen : List Block} {block : Block} (h : PowStep pow g seen block) :
    ∃ difficulty hash, DifficultyIs block difficulty ∧ TranHashIs block hash ∧
      get_difficulty pow.settings seen = .ok difficulty ∧
      0 < difficulty ∧ difficulty ≤ leading_zeros hash := by
  obtain ⟨f, hof, hvalid⟩ := accepts_validate_block.mp h.2
  exact ⟨f.difficulty, f.tran_hash, hof.difficulty, hof.tran_hash, hvalid.difficulty,
    meets_difficulty_iff.mp hvalid.work⟩

omit [Rsa] in
/-- Up to a height below which the windows span the same seconds, two accepted
chains declare the same difficulties. -/
theorem sameDifficulty_take (hC : Grows (PowStep pow g) C) (hD : Grows (PowStep pow g) D) {n : ℕ}
    (hnC : n ≤ C.length) (hnD : n ≤ D.length) (hspans : SameSpans pow.settings C D n) :
    List.Forall₂ SameDifficulty (C.take n) (D.take n) := by
  induction n with
  | zero => exact List.Forall₂.nil
  | succ n ih =>
      have hxC : n < C.length := hnC
      have hxD : n < D.length := hnD
      have hlower := ih (by omega) (by omega) fun m hpos hm => hspans m hpos (by omega)
      rw [List.take_succ_eq_append_getElem hxC, List.take_succ_eq_append_getElem hxD]
      refine List.rel_append hlower (List.Forall₂.cons ?_ List.Forall₂.nil)
      obtain ⟨d, -, hd, -, hreq, -⟩ := difficulty_of_step (hC.getElem hxC)
      obtain ⟨d', -, hd', -, hreq', -⟩ := difficulty_of_step (hD.getElem hxD)
      have hsame : get_difficulty pow.settings (C.take n) = get_difficulty pow.settings (D.take n) := by
        refine get_difficulty_congr hlower fun hne hfull => ?_
        rw [List.length_take_of_le (by omega)] at hfull
        refine hspans n (Nat.pos_of_ne_zero ?_) (by omega) hfull
        rintro rfl
        exact hne rfl
      rw [hreq, hreq'] at hsame
      obtain rfl := Except.ok.inj hsame
      exact ⟨d, hd, hd'⟩

omit [Runtime] [Rsa] in
/-- Equal declared difficulties add up to equal scores. -/
theorem score_chain_congr (h : List.Forall₂ SameDifficulty C D) :
    ∃ score, score_chain C = .ok score ∧ score_chain D = .ok score := by
  have hmap : ∃ ds, mapPy block_difficulty C = .ok ds ∧ mapPy block_difficulty D = .ok ds := by
    induction h with
    | nil => exact ⟨[], rfl, rfl⟩
    | @cons x y C D hxy _ ih =>
        obtain ⟨ds, hds, hds'⟩ := ih
        obtain ⟨d, ⟨v, ⟨hx, hheader, hv⟩, hd⟩, ⟨v', ⟨hx', hheader', hv'⟩, hd'⟩⟩ := hxy
        refine ⟨d :: ds, ?_, ?_⟩
        · simp [mapPy, block_difficulty, hheader, PyVal.get_of_item hv, hd, hds]
        · simp [mapPy, block_difficulty, hheader', PyVal.get_of_item hv', hd', hds']
  obtain ⟨ds, hds, hds'⟩ := hmap
  have hlen := h.length_eq
  exact ⟨toLex (ds.sum, C.length), by simp [score_chain, total_difficulty, hds],
    by simp [score_chain, total_difficulty, hds', hlen]⟩

/-- Two accepted chains with the same hashes declare the same difficulties
wherever the windows below span the same number of seconds, and then have the
same score. Whatever the times, the zeros of the common hash bound the
difficulty that either chain declares at a height. -/
theorem work_bounded_by_hashes {genesis_stakes : Option StakeMap}
    (hC : Verifies (verify_chain_integrity C (some (.pow pow)) g genesis_stakes))
    (hD : Verifies (verify_chain_integrity D (some (.pow pow)) g genesis_stakes))
    (hhash : List.Forall₂ (fun x y => ∃ h, TranHashIs x h ∧ TranHashIs y h) C D) :
    (∀ n, SameSpans pow.settings C D n → ∀ (i : ℕ) (hi : i < C.length) (hj : i < D.length),
      i < n → SameDifficulty (C.get ⟨i, hi⟩) (D.get ⟨i, hj⟩)) ∧
    (SameSpans pow.settings C D C.length →
      ∃ score, score_chain C = .ok score ∧ score_chain D = .ok score) ∧
    ∀ (i : ℕ) (hi : i < C.length) (hj : i < D.length), ∃ h d d',
      TranHashIs (C.get ⟨i, hi⟩) h ∧ TranHashIs (D.get ⟨i, hj⟩) h ∧
      DifficultyIs (C.get ⟨i, hi⟩) d ∧ DifficultyIs (D.get ⟨i, hj⟩) d' ∧
      (0 < d ∧ d ≤ leading_zeros h) ∧ 0 < d' ∧ d' ≤ leading_zeros h := by
  obtain ⟨-, hgC⟩ := pow_verifies_iff.mp hC
  obtain ⟨-, hgD⟩ := pow_verifies_iff.mp hD
  obtain ⟨hlen, hat⟩ := List.forall₂_iff_get.mp hhash
  refine ⟨?_, ?_, ?_⟩
  · intro n hspans i hi hj hin
    have hsame := sameDifficulty_take hgC hgD (n := i + 1) hi hj
      fun m hpos hm => hspans m hpos (by omega)
    obtain ⟨-, hget⟩ := List.forall₂_iff_get.mp hsame
    simpa using hget i (by simp; omega) (by simp; omega)
  · intro hspans
    have hsame := sameDifficulty_take hgC hgD le_rfl hlen.le hspans
    rw [List.take_length, hlen, List.take_length] at hsame
    exact score_chain_congr hsame
  · intro i hi hj
    obtain ⟨h, hx, hy⟩ := hat i hi hj
    obtain ⟨d, hash, hd, htran, -, hwork⟩ := difficulty_of_step (hgC.getElem hi)
    obtain ⟨d', hash', hd', htran', -, hwork'⟩ := difficulty_of_step (hgD.getElem hj)
    obtain rfl := PyVal.str.inj (htran.unique hx)
    obtain rfl := PyVal.str.inj (htran'.unique hy)
    exact ⟨_, d, d', hx, hy, hd, hd', hwork, hwork'⟩

end TwoChains

end ProofOfWork

/-! ## Work that is rewritten

The third block has a hash with two leading zeros. It was mined with difficulty
one; moving the time of the second block, which no hash covers, makes the
required difficulty two, and the hash meets that as well. -/

namespace Rewritten

attribute [local instance] cpython letterRsa

/-- The difficulty is adjusted at every height from the third on. -/
def pow : ProofOfWork := ⟨⟨1, 2, .fin 2, 1000, 10⟩, DEFAULT_GENESIS_PREV_HASH⟩

def hash₁ : Str := lit "0ab9a86e1308ecba21faebaf6c218d4a8fb4bd0d62b4407b1d78f3d7e10ea662"

def hash₂ : Str := lit "0f5d7cce8a37c0a92d9f2188c016ae4513cac95b06dfab223c033418f34c0c79"

def hash₃ : Str := lit "006b058b68300f5d59ed4871eecddad0869c5b985f749768151c9749ea7de4b1"

def block (block_index : ℤ) (block_item : String) (prev_hash tran_hash : Str)
    (nonce difficulty : ℤ) (input_data output_data : String) : Block := .dict
  [(.str (lit "block_index"), .int block_index),
    (.str (lit "block_item"), .str (lit block_item)),
    (.str (lit "block_header"), .dict
      [(.str (lit "prev_hash"), .str prev_hash),
        (.str (lit "consensus_type"), .str (lit "pow")),
        (.str (lit "tran_hash"), .str tran_hash),
        (.str (lit "nonce"), .int nonce),
        (.str (lit "difficulty"), .int difficulty)]),
    (.str (lit "tran_counter"), .int 2),
    (.str (lit "tran_body"), .dict
      [(.str (lit "input_data"), .str (lit input_data)),
        (.str (lit "output_data"), .str (lit output_data))])]

/-- Three blocks; `second` is the time of the second one, `difficulty` the
difficulty declared in the third. -/
def chain (second : String) (difficulty : ℤ) : List Block :=
  [block 1 "2024-01-01 00:00:00" DEFAULT_GENESIS_PREV_HASH hash₁ 8 1 "a" "b",
    block 2 second hash₁ hash₂ 1 1 "c" "d",
    block 3 "2024-01-01 00:00:10" hash₂ hash₃ 255 difficulty "e" "f"]

/-- As mined: ten seconds between the first two blocks, as targeted. -/
def mined : List Block := chain "2024-01-01 00:00:10" 1

/-- As rewritten: five seconds, so the third block counts twice. -/
def rewritten : List Block := chain "2024-01-01 00:00:05" 2

/-- The texts hashed for either chain. -/
def texts : List Str :=
  ((mapPy (hashed_texts (some (.pow pow))) mined).toOption.getD []).flatten

theorem hashedIn_subset {text : Str} (h : text ∈ HashedIn (some (.pow pow)) (mined ++ rewritten)) :
    text ∈ texts := by
  have hall : ∀ b ∈ mined ++ rewritten,
      ∀ t ∈ (hashed_texts (some (.pow pow)) b).toOption.getD [], t ∈ texts := by decide +kernel
  obtain ⟨b, hb, ts, hts, htext⟩ := h
  refine hall b hb text ?_
  rw [hts]
  exact htext

theorem noCollision :
    NoCollision (HashedIn (some (.pow pow)) (mined ++ rewritten)) DEFAULT_GENESIS_PREV_HASH := by
  have hinj : ∀ s ∈ texts, ∀ t ∈ texts, sha256_hex s = sha256_hex t → s = t := by decide +kernel
  have hgen : ∀ s ∈ texts, sha256_hex s ≠ .ok DEFAULT_GENESIS_PREV_HASH := by decide +kernel
  constructor
  · intro s hs t ht h hsh hth
    exact hinj s (hashedIn_subset hs) t (hashedIn_subset ht) (hsh.trans hth.symm)
  · exact fun s hs => hgen s (hashedIn_subset hs)

theorem verifies_mined :
    Verifies (verify_chain_integrity mined (some (.pow pow)) DEFAULT_GENESIS_PREV_HASH none) :=
  ⟨.ok, by decide +kernel, rfl⟩

theorem verifies_rewritten :
    Verifies (verify_chain_integrity rewritten (some (.pow pow)) DEFAULT_GENESIS_PREV_HASH none) :=
  ⟨.ok, by decide +kernel, rfl⟩

theorem same_hashes (s t : String) (d e : ℤ) :
    List.Forall₂ (fun x y => ∃ h, TranHashIs x h ∧ TranHashIs y h) (chain s d) (chain t e) :=
  .cons ⟨hash₁, ⟨_, rfl, rfl⟩, _, rfl, rfl⟩ (.cons ⟨hash₂, ⟨_, rfl, rfl⟩, _, rfl, rfl⟩
    (.cons ⟨hash₃, ⟨_, rfl, rfl⟩, _, rfl, rfl⟩ .nil))

/-- Two accepted chains with the same hashes, without a collision, and different
scores. -/
theorem work_rewritten :
    Verifies (verify_chain_integrity mined (some (.pow pow)) DEFAULT_GENESIS_PREV_HASH none) ∧
    Verifies (verify_chain_integrity rewritten (some (.pow pow)) DEFAULT_GENESIS_PREV_HASH none) ∧
    List.Forall₂ (fun x y => ∃ h, TranHashIs x h ∧ TranHashIs y h) mined rewritten ∧
    NoCollision (HashedIn (some (.pow pow)) (mined ++ rewritten)) DEFAULT_GENESIS_PREV_HASH ∧
    ProofOfWork.score_chain mined = .ok (toLex (3, 3)) ∧
    ProofOfWork.score_chain rewritten = .ok (toLex (4, 3)) :=
  ⟨verifies_mined, verifies_rewritten, same_hashes _ _ _ _, noCollision, by decide +kernel,
    by decide +kernel⟩

/-- The theorem on the two chains. -/
theorem work_bounded :
    (∀ n, ProofOfWork.SameSpans pow.settings mined rewritten n →
      ∀ (i : ℕ) (hi : i < mined.length) (hj : i < rewritten.length), i < n →
        ProofOfWork.SameDifficulty (mined.get ⟨i, hi⟩) (rewritten.get ⟨i, hj⟩)) ∧
    (ProofOfWork.SameSpans pow.settings mined rewritten mined.length →
      ∃ score, ProofOfWork.score_chain mined = .ok score ∧
        ProofOfWork.score_chain rewritten = .ok score) ∧
    ∀ (i : ℕ) (hi : i < mined.length) (hj : i < rewritten.length), ∃ h d d',
      TranHashIs (mined.get ⟨i, hi⟩) h ∧ TranHashIs (rewritten.get ⟨i, hj⟩) h ∧
      ProofOfWork.DifficultyIs (mined.get ⟨i, hi⟩) d ∧
      ProofOfWork.DifficultyIs (rewritten.get ⟨i, hj⟩) d' ∧
      (0 < d ∧ d ≤ leading_zeros h) ∧ 0 < d' ∧ d' ≤ leading_zeros h :=
  ProofOfWork.work_bounded_by_hashes verifies_mined verifies_rewritten (same_hashes _ _ _ _)

end Rewritten

end EasyBlockchain
