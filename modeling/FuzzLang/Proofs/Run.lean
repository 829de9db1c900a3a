/-!
# Runs

A run is a stretch of a list whose members all pass a test and that ends at the end of the list or
before one that does not. Where a run ends can be told from the list alone, so a list is cut into a
run and a rest in one way only.
-/

namespace FuzzLang

theorem run_inj {α : Type} {p : α → Prop} {l₁ l₂ r₁ r₂ : List α} (h₁ : ∀ x ∈ l₁, p x)
    (h₂ : ∀ x ∈ l₂, p x) (hr₁ : ∀ x ∈ r₁.head?, ¬ p x) (hr₂ : ∀ x ∈ r₂.head?, ¬ p x)
    (h : l₁ ++ r₁ = l₂ ++ r₂) : l₁ = l₂ ∧ r₁ = r₂ := by
  induction l₁ generalizing l₂ with
  | nil =>
    cases l₂ with
    | nil => exact ⟨rfl, h⟩
    | cons y l₂ =>
      rw [List.nil_append] at h
      subst h
      exact absurd (h₂ _ List.mem_cons_self) (hr₁ y rfl)
  | cons x l₁ ih =>
    cases l₂ with
    | nil =>
      rw [List.nil_append] at h
      subst h
      exact absurd (h₁ _ List.mem_cons_self) (hr₂ x rfl)
    | cons y l₂ =>
      obtain ⟨rfl, ht⟩ := List.cons.inj h
      obtain ⟨rfl, rest⟩ := ih (fun z hz => h₁ z (List.mem_cons_of_mem _ hz))
        (fun z hz => h₂ z (List.mem_cons_of_mem _ hz)) ht
      exact ⟨rfl, rest⟩

/-- A run that ends before a member of the list. -/
theorem run_cons_inj {α : Type} {p : α → Prop} {l₁ l₂ r₁ r₂ : List α} {a₁ a₂ : α}
    (h₁ : ∀ x ∈ l₁, p x) (h₂ : ∀ x ∈ l₂, p x) (ha₁ : ¬ p a₁) (ha₂ : ¬ p a₂)
    (h : l₁ ++ a₁ :: r₁ = l₂ ++ a₂ :: r₂) : l₁ = l₂ ∧ a₁ = a₂ ∧ r₁ = r₂ := by
  obtain ⟨hl, hr⟩ := run_inj h₁ h₂ (by rintro x ⟨⟩; exact ha₁) (by rintro x ⟨⟩; exact ha₂) h
  exact ⟨hl, List.cons.inj hr⟩

end FuzzLang
