/-
Lists linked by hashes.

Every element names the hash of its predecessor, and the first one names a
start value. If equal hashes come only from elements that agree, and no element
hashes to the start value, then the hash of the last element determines the
list: its length, and each element up to what the hash covers.
-/
import EasyBlockchain.Lib.Growth
import Mathlib.Data.List.Forall2

set_option autoImplicit false

namespace EasyBlockchain.Lib

variable {α H : Type*} {Prev Hash : α → H → Prop} {g : H} {R : α → α → Prop}

/-- `h` is the hash of the last element, or the start value of an empty list. -/
def TipIs (Hash : α → H → Prop) (g : H) (xs : List α) (h : H) : Prop :=
  match xs.getLast? with
  | none => h = g
  | some x => Hash x h

/-- An element may follow a list whose tip it names. -/
def LinksTo (Prev Hash : α → H → Prop) (g : H) (xs : List α) (x : α) : Prop :=
  ∃ h, Prev x h ∧ TipIs Hash g xs h

@[simp] theorem tipIs_nil {h : H} : TipIs Hash g [] h ↔ h = g := Iff.rfl

@[simp] theorem tipIs_snoc {xs : List α} {x : α} {h : H} :
    TipIs Hash g (xs ++ [x]) h ↔ Hash x h := by
  simp [TipIs]

/-- What an element names is the start value or the hash of an element. -/
theorem LinksTo.prev {xs : List α} {x : α} (h : LinksTo Prev Hash g xs x) :
    ∃ p, Prev x p ∧ (p = g ∨ ∃ y ∈ xs, Hash y p) := by
  obtain ⟨p, hp, htip⟩ := h
  refine ⟨p, hp, ?_⟩
  rcases List.eq_nil_or_concat xs with rfl | ⟨init, y, rfl⟩
  · exact Or.inl htip
  · rw [List.concat_eq_append, tipIs_snoc] at htip
    exact Or.inr ⟨y, by simp, htip⟩

/-- Lists with the same tip agree element by element. -/
theorem forall₂_of_same_tip {xs ys : List α} (hxs : Grows (LinksTo Prev Hash g) xs)
    (hys : Grows (LinksTo Prev Hash g) ys)
    (hprev : ∀ x p q, Prev x p → Prev x q → p = q)
    (hbind : ∀ x ∈ xs, ∀ y ∈ ys, ∀ h, Hash x h → Hash y h → (∀ p, Prev x p → Prev y p) ∧ R x y)
    (hgx : ∀ x ∈ xs, ¬ Hash x g) (hgy : ∀ y ∈ ys, ¬ Hash y g) {h : H}
    (hx : TipIs Hash g xs h) (hy : TipIs Hash g ys h) : List.Forall₂ R xs ys := by
  induction xs using List.reverseRecOn generalizing ys h with
  | nil =>
      rw [tipIs_nil] at hx
      subst hx
      rcases List.eq_nil_or_concat ys with rfl | ⟨ys, y, rfl⟩
      · exact List.Forall₂.nil
      · rw [List.concat_eq_append] at hy hgy
        exact absurd (tipIs_snoc.mp hy) (hgy y (by simp))
  | append_singleton xs x ih =>
      rw [tipIs_snoc] at hx
      rcases List.eq_nil_or_concat ys with rfl | ⟨ys, y, rfl⟩
      · rw [tipIs_nil] at hy
        subst hy
        exact absurd hx (hgx x (by simp))
      · rw [List.concat_eq_append] at hys hbind hgy hy ⊢
        rw [tipIs_snoc] at hy
        obtain ⟨hxs, p, hp, htip⟩ := grows_snoc.mp hxs
        obtain ⟨hys, q, hq, htip'⟩ := grows_snoc.mp hys
        obtain ⟨hsame, hR⟩ := hbind x (by simp) y (by simp) h hx hy
        -- equal hashes name equal predecessors, so the beginnings have one tip too
        obtain rfl := hprev y p q (hsame p hp) hq
        refine List.rel_append (ih hxs hys ?_ ?_ ?_ htip htip')
          (List.Forall₂.cons hR List.Forall₂.nil)
        · exact fun u hu v hv => hbind u (List.mem_append_left _ hu) v (List.mem_append_left _ hv)
        · exact fun u hu => hgx u (List.mem_append_left _ hu)
        · exact fun v hv => hgy v (List.mem_append_left _ hv)

end EasyBlockchain.Lib
