import Mathlib
import Polyglot.Text.Span

/-!
# Lists of spans

Spans that tile a stretch leave nothing out and count nothing twice (`Tiles`); spans in order may leave
gaps (`InOrder`).
-/

namespace Polyglot

variable {i j k : ℕ} {r : Span} {rs rs' : List Span}

/-- Spans that are not empty, each right behind the one before, from `i` to `j`. -/
inductive Tiles : ℕ → ℕ → List Span → Prop
  | nil {i : ℕ} : Tiles i i []
  | cons {i j k : ℕ} {rs : List Span} : i < j → Tiles j k rs → Tiles i k (⟨i, j⟩ :: rs)

/-- Spans between `i` and `j`, none of which begins before the one in front of it ends. -/
inductive InOrder : ℕ → ℕ → List Span → Prop
  | nil {i j : ℕ} : i ≤ j → InOrder i j []
  | cons {i j : ℕ} {r : Span} {rs : List Span} : i ≤ r.start → r.start ≤ r.stop →
      InOrder r.stop j rs → InOrder i j (r :: rs)

namespace InOrder

theorem le (h : InOrder i j rs) : i ≤ j := by
  induction h with
  | nil hle => exact hle
  | cons hstart hle _ ih => omega

theorem mono_right (h : InOrder i j rs) (hle : j ≤ k) : InOrder i k rs := by
  induction h with
  | nil hij => exact .nil (hij.trans hle)
  | cons hstart hr _ ih => exact .cons hstart hr (ih hle)

theorem mono_left (h : InOrder i j rs) (hle : k ≤ i) : InOrder k j rs := by
  cases h with
  | nil hij => exact .nil (hle.trans hij)
  | cons hstart hr hrs => exact .cons (hle.trans hstart) hr hrs

theorem append (h : InOrder i j rs) (h' : InOrder j k rs') : InOrder i k (rs ++ rs') := by
  induction h with
  | nil hij => exact h'.mono_left hij
  | cons hstart hr _ ih => exact .cons hstart hr (ih h')

/-- Each span lies behind all that are in front of it. -/
theorem pairwise (h : InOrder i j rs) :
    (∀ r ∈ rs, i ≤ r.start ∧ r.start ≤ r.stop) ∧ rs.Pairwise fun a b => a.stop ≤ b.start := by
  induction h with
  | nil => exact ⟨nofun, .nil⟩
  | cons hstart hr _ ih =>
    refine ⟨List.forall_mem_cons.2 ⟨⟨hstart, hr⟩, fun r hmem => ?_⟩,
      .cons (fun r hmem => (ih.1 r hmem).1) ih.2⟩
    obtain ⟨hle, hr'⟩ := ih.1 r hmem
    exact ⟨by omega, hr'⟩

theorem stop_le (h : InOrder i j rs) : ∀ r ∈ rs, r.stop ≤ j := by
  induction h with
  | nil _ => exact nofun
  | cons _ _ hrs ih => exact List.forall_mem_cons.2 ⟨hrs.le, ih⟩

theorem concat (h : InOrder i j rs) (hstart : j ≤ r.start) (hr : r.start ≤ r.stop) :
    InOrder i r.stop (rs ++ [r]) := by
  induction h with
  | nil hij => exact .cons (hij.trans hstart) hr (.nil le_rfl)
  | cons hs hle _ ih => exact .cons hs hle (ih hstart)

theorem of_concat (h : InOrder i j (rs ++ [r])) :
    InOrder i r.start rs ∧ r.start ≤ r.stop ∧ r.stop ≤ j := by
  induction rs generalizing i with
  | nil =>
    cases h with
    | cons hstart hr hj => exact ⟨.nil hstart, hr, hj.le⟩
  | cons x rs ih =>
    cases h with
    | cons hs hle hrest =>
      obtain ⟨hrs, hbounds⟩ := ih hrest
      exact ⟨.cons hs hle hrs, hbounds⟩

end InOrder

end Polyglot
