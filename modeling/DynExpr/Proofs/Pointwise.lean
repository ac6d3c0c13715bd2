import Mathlib.Data.List.Forall2
import Mathlib.Data.List.Perm.Subperm

/-!
# Lists related member by member

Operands, elements and entries are compared member by member, by `List.Forall₂`. What is known of a
relation is often known of the members of the two lists only, and the lemmas here give the
memberships along.
-/

namespace DynExpr

variable {α β γ : Type} {R : α → β → Prop} {S : β → γ → Prop} {xs : List α} {ys : List β}
  {zs : List γ}

/-- A member of the first list is related to one of the second. -/
theorem forall₂_exists_right (h : List.Forall₂ R xs ys) {x : α} (hx : x ∈ xs) :
    ∃ y ∈ ys, R x y := by
  induction h with
  | nil => exact absurd hx List.not_mem_nil
  | cons hxy _ ih =>
    rcases List.mem_cons.mp hx with rfl | hx
    · exact ⟨_, List.mem_cons_self, hxy⟩
    · obtain ⟨y, hy, hxy⟩ := ih hx
      exact ⟨y, List.mem_cons_of_mem _ hy, hxy⟩

/-- A relation is weakened on the members of the lists. -/
theorem forall₂_imp_of_mem {R' : α → β → Prop} (h : List.Forall₂ R xs ys)
    (himp : ∀ x ∈ xs, ∀ y ∈ ys, R x y → R' x y) : List.Forall₂ R' xs ys := by
  induction h with
  | nil => exact .nil
  | cons hxy _ ih =>
    have hhead := himp _ List.mem_cons_self _ List.mem_cons_self hxy
    refine .cons hhead (ih fun x hx y hy => ?_)
    exact himp x (List.mem_cons_of_mem _ hx) y (List.mem_cons_of_mem _ hy)

/-- Two relations are joined on the members of the lists. -/
theorem forall₂_trans_of_mem {T : α → γ → Prop} (hxy : List.Forall₂ R xs ys)
    (hyz : List.Forall₂ S ys zs)
    (htrans : ∀ x ∈ xs, ∀ y ∈ ys, ∀ z ∈ zs, R x y → S y z → T x z) : List.Forall₂ T xs zs := by
  induction hxy generalizing zs with
  | nil =>
    cases hyz
    exact .nil
  | cons hhead _ ih =>
    cases hyz with
    | cons hhead' htail' =>
      have h := htrans _ List.mem_cons_self _ List.mem_cons_self _ List.mem_cons_self hhead hhead'
      refine .cons h (ih htail' fun x hx y hy z hz => ?_)
      exact htrans x (List.mem_cons_of_mem _ hx) y (List.mem_cons_of_mem _ hy) z
        (List.mem_cons_of_mem _ hz)

/-- **Matching lists of one length.** If each member of the first list is related to one of the
second, and no two to the same one, then the first list is related to the second one rearranged. -/
theorem exists_perm_forall₂ {Q : α → α → Prop} (hdistinct : xs.Pairwise fun x x' => ¬ Q x' x)
    (hfound : ∀ x ∈ xs, ∃ y ∈ ys, R x y)
    (hshared : ∀ x ∈ xs, ∀ x' ∈ xs, ∀ y ∈ ys, R x y → R x' y → Q x' x)
    (hlength : xs.length = ys.length) : ∃ zs, zs.Perm ys ∧ List.Forall₂ R xs zs := by
  -- the partners that are chosen are members of the second list, each chosen once
  have hchosen : ∃ zs, List.Forall₂ R xs zs ∧ zs ⊆ ys ∧ zs.Nodup := by
    clear hlength
    induction xs with
    | nil => exact ⟨[], .nil, List.nil_subset _, List.nodup_nil⟩
    | cons x rest ih =>
      rw [List.pairwise_cons] at hdistinct
      rw [List.forall_mem_cons] at hfound
      obtain ⟨y, hy, hxy⟩ := hfound.1
      obtain ⟨zs, hrelated, hsubset, hnodup⟩ := ih hdistinct.2 hfound.2
        fun x hx x' hx' => hshared x (List.mem_cons_of_mem _ hx) x' (List.mem_cons_of_mem _ hx')
      refine ⟨y :: zs, .cons hxy hrelated, List.cons_subset.mpr ⟨hy, hsubset⟩,
        List.nodup_cons.mpr ⟨fun hmem => ?_, hnodup⟩⟩
      obtain ⟨x', hx', hx'y⟩ := forall₂_exists_right hrelated.flip hmem
      have hQ := hshared x List.mem_cons_self x' (List.mem_cons_of_mem _ hx') y hy hxy hx'y
      exact hdistinct.1 x' hx' hQ
  obtain ⟨zs, hrelated, hsubset, hnodup⟩ := hchosen
  have hle : ys.length ≤ zs.length := Nat.le_of_eq (hlength.symm.trans hrelated.length_eq)
  exact ⟨zs, (hnodup.subperm hsubset).perm_of_length_le hle, hrelated⟩

end DynExpr
