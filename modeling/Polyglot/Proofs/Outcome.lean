/-!
# Outcomes

A computation that may fail succeeds only if each of its steps does. These lemmas take the steps apart.
-/

namespace Polyglot

variable {ε α β : Type} {x : Except ε α} {b : β}

theorem exists_of_bind_eq_ok {f : α → Except ε β} (h : (x >>= f) = .ok b) :
    ∃ a, x = .ok a ∧ f a = .ok b := by
  rcases x with e | a
  · cases h
  · exact ⟨a, rfl, h⟩

/-- A last step that cannot fail only changes the result. -/
theorem bind_pure_eq_map (x : Except ε α) (f : α → β) : (x >>= fun a => pure (f a)) = x.map f := by
  rcases x with e | a
  · rfl
  · rfl

/-- Only its first step makes it fail. -/
theorem bind_pure_eq_error_iff {f : α → β} {e : ε} :
    (x >>= fun a => pure (f a)) = .error e ↔ x = .error e := by
  rcases x with e' | a
  · exact ⟨fun h => congrArg _ (Except.error.inj h), fun h => congrArg _ (Except.error.inj h)⟩
  · constructor <;> exact nofun

theorem exists_of_map_eq_ok {f : α → β} (h : x.map f = .ok b) : ∃ a, x = .ok a ∧ f a = b := by
  rcases x with e | a
  · cases h
  · exact ⟨a, rfl, Except.ok.inj h⟩

/-- What is made of the result does not matter for whether there is one. -/
theorem exists_map_eq_ok_iff {γ : Type} {f : α → β} {g : α → γ} :
    (∃ b, x.map f = .ok b) ↔ ∃ c, x.map g = .ok c := by
  rcases x with e | a
  · simp [Except.map]
  · exact iff_of_true ⟨f a, rfl⟩ ⟨g a, rfl⟩

theorem exists_of_any_toOption {p : β → Bool} {x : Except ε β} (h : x.toOption.any p = true) :
    ∃ b, x = .ok b ∧ p b = true := by
  rcases x with e | b
  · cases h
  · exact ⟨b, rfl, h⟩

end Polyglot
