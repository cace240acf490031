import Mathlib.Data.List.Forall2
import Mathlib.Order.Lattice

/-
  Sorted lists side by side. A relation that leads from each list to the other and keeps the order
  pairs the lists entry by entry.
-/

namespace HotReload

variable {α β : Type} [LinearOrder α] [LinearOrder β]

theorem forall₂_of_lt_iff {R : α → β → Prop} {as : List α} {bs : List β}
    (has : as.Pairwise (· < ·)) (hbs : bs.Pairwise (· < ·)) (hto : ∀ a ∈ as, ∃ b ∈ bs, R a b)
    (hfrom : ∀ b ∈ bs, ∃ a ∈ as, R a b)
    (hlt : ∀ a ∈ as, ∀ a' ∈ as, ∀ b ∈ bs, ∀ b' ∈ bs, R a b → R a' b' → (a < a' ↔ b < b')) :
    List.Forall₂ R as bs := by
  induction as generalizing bs with
  | nil =>
    cases bs with
    | nil => exact .nil
    | cons b bs =>
      obtain ⟨a, ha, -⟩ := hfrom b List.mem_cons_self
      exact absurd ha List.not_mem_nil
  | cons a as ih =>
    cases bs with
    | nil =>
      obtain ⟨b, hb, -⟩ := hto a List.mem_cons_self
      exact absurd hb List.not_mem_nil
    | cons b bs =>
      -- the first entries belong together, since either has a partner that is not behind the other
      have hab : R a b := by
        obtain ⟨b', hb', hab'⟩ := hto a List.mem_cons_self
        obtain ⟨a', ha', hab⟩ := hfrom b List.mem_cons_self
        rcases List.mem_cons.1 hb' with rfl | hb'
        · exact hab'
        · rcases List.mem_cons.1 ha' with rfl | ha'
          · exact hab
          · have hbb' := List.rel_of_pairwise_cons hbs hb'
            have haa' := List.rel_of_pairwise_cons has ha'
            have := (hlt a' (List.mem_cons_of_mem _ ha') a List.mem_cons_self b List.mem_cons_self
              b' (List.mem_cons_of_mem _ hb') hab hab').2 hbb'
            exact absurd haa' (lt_asymm this)
      have hfront : ∀ x ∈ as, ∀ y ∈ b :: bs, R x y → y ∈ bs := by
        intro x hx y hy hxy
        rcases List.mem_cons.1 hy with rfl | hy'
        · have := (hlt a List.mem_cons_self x (List.mem_cons_of_mem _ hx) y hy y hy hab hxy).1
            (List.rel_of_pairwise_cons has hx)
          exact absurd this (lt_irrefl _)
        · exact hy'
      refine .cons hab (ih (List.Pairwise.of_cons has) (List.Pairwise.of_cons hbs) (fun x hx => ?_)
        (fun y hy => ?_) fun x hx x' hx' y hy y' hy' =>
          hlt x (List.mem_cons_of_mem _ hx) x' (List.mem_cons_of_mem _ hx') y
            (List.mem_cons_of_mem _ hy) y' (List.mem_cons_of_mem _ hy'))
      · obtain ⟨y, hy, hxy⟩ := hto x (List.mem_cons_of_mem _ hx)
        exact ⟨y, hfront x hx y hy hxy, hxy⟩
      · obtain ⟨x, hx, hxy⟩ := hfrom y (List.mem_cons_of_mem _ hy)
        rcases List.mem_cons.1 hx with rfl | hx
        · have := (hlt x List.mem_cons_self x List.mem_cons_self b List.mem_cons_self y
            (List.mem_cons_of_mem _ hy) hab hxy).2 (List.rel_of_pairwise_cons hbs hy)
          exact absurd this (lt_irrefl _)
        · exact ⟨x, hx, hxy⟩

theorem exists_of_forall₂ {α β : Type} {R : α → β → Prop} {as : List α} {bs : List β}
    (h : List.Forall₂ R as bs) {a : α} (ha : a ∈ as) : ∃ b ∈ bs, R a b := by
  induction h with
  | nil => exact absurd ha List.not_mem_nil
  | @cons a' b' as bs hab _ ih =>
    rcases List.mem_cons.1 ha with rfl | ha
    · exact ⟨b', List.mem_cons_self, hab⟩
    · obtain ⟨b, hb, hab⟩ := ih ha
      exact ⟨b, List.mem_cons_of_mem _ hb, hab⟩

theorem map_eq_of_forall₂ {α β γ : Type} {R : α → β → Prop} {as : List α} {bs : List β}
    {f : α → γ} {g : β → γ} (h : List.Forall₂ R as bs) (hR : ∀ a b, R a b → f a = g b) :
    as.map f = bs.map g := by
  rw [← List.forall₂_eq_eq_eq, List.forall₂_map_left_iff, List.forall₂_map_right_iff]
  exact h.imp hR

end HotReload
