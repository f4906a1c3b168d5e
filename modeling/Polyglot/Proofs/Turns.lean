import Mathlib
import Polyglot.Proofs.Outcome

/-!
# Readers that take turns

A reader takes turns. After a turn it is done, or it goes on, or it has another reader read first and
goes on from where that one is done. A function that answers what every turn leads to gives the
outcome of each reader (`Turn.Settles.ends_iff`), if something gets smaller with every turn: so every
reader ends.
-/

namespace Polyglot

/-- What a turn of a reader leads to. Readers are of type `σ`, and the places where they are done are
numbered. -/
inductive Turn (σ : Type) where
  | done (place : ℕ)
  | go (next : σ)
  /-- First `inner` reads; `back` goes on from where it is done. -/
  | call (inner : σ) (back : ℕ → σ)

namespace Turn

variable {σ ε : Type} {turn : σ → Except ε (Turn σ)} {f : σ → Except ε ℕ} {μ : σ → ℕ} {a b : σ}
  {r : Except ε ℕ} {n : ℕ}

/-! ## Runs -/

/-- The reader `a` ends, after finitely many turns of its own and of those that it calls: it is done at
a place, or a turn fails. -/
inductive Ends (turn : σ → Except ε (Turn σ)) : σ → Except ε ℕ → Prop
  | fail {a : σ} {e : ε} (h : turn a = .error e) : Ends turn a (.error e)
  | done {a : σ} {n : ℕ} (h : turn a = .ok (.done n)) : Ends turn a (.ok n)
  | go {a b : σ} {r : Except ε ℕ} (h : turn a = .ok (.go b)) (hb : Ends turn b r) : Ends turn a r
  | failInner {a b : σ} {back : ℕ → σ} {e : ε} (h : turn a = .ok (.call b back))
      (hb : Ends turn b (.error e)) : Ends turn a (.error e)
  | call {a b : σ} {back : ℕ → σ} {n : ℕ} {r : Except ε ℕ} (h : turn a = .ok (.call b back))
      (hb : Ends turn b (.ok n)) (hback : Ends turn (back n) r) : Ends turn a r

/-- What each turn hands on to its reader holds between every reader and the place where it is done. -/
theorem Ends.of_turns {P : σ → ℕ → Prop}
    (hdone : ∀ {a n}, turn a = .ok (.done n) → P a n)
    (hgo : ∀ {a b n}, turn a = .ok (.go b) → P b n → P a n)
    (hcall : ∀ {a b back m n}, turn a = .ok (.call b back) → P b m → P (back m) n → P a n)
    (h : Ends turn a (.ok n)) : P a n := by
  generalize hr : (.ok n : Except ε ℕ) = r at h
  induction h generalizing n with
  | fail | failInner => cases hr
  | done hturn =>
    obtain rfl := Except.ok.inj hr
    exact hdone hturn
  | go hturn _ ih => exact hgo hturn (ih hr)
  | call hturn _ _ ih ihback => exact hcall hturn (ih rfl) (ihback hr)

/-- The same reader, one turn later. -/
inductive Next (turn : σ → Except ε (Turn σ)) : σ → σ → Prop
  | go {a b : σ} (h : turn a = .ok (.go b)) : Next turn a b
  | back {a b : σ} {back : ℕ → σ} {n : ℕ} (h : turn a = .ok (.call b back))
      (hb : Ends turn b (.ok n)) : Next turn a (back n)

/-- The reader `a` has `b` read. -/
def Calls (turn : σ → Except ε (Turn σ)) (a b : σ) : Prop := ∃ back, turn a = .ok (.call b back)

/-- From `a` the turns lead to `b`. -/
def Leads (turn : σ → Except ε (Turn σ)) : σ → σ → Prop :=
  Relation.ReflTransGen fun a b => Next turn a b ∨ Calls turn a b

/-! ## Answers -/

/-- What a turn leads to, if `f` answers the readers. -/
def answer (f : σ → Except ε ℕ) : Turn σ → Except ε ℕ
  | .done n => .ok n
  | .go b => f b
  | .call b back => f b >>= fun n => f (back n)

/-- `f` answers every reader as its turns do, and with every turn `μ` gets smaller. -/
structure Settles (turn : σ → Except ε (Turn σ)) (f : σ → Except ε ℕ) (μ : σ → ℕ) : Prop where
  eq_answer : ∀ a, f a = turn a >>= answer f
  go_lt : ∀ {a b}, turn a = .ok (.go b) → μ b < μ a
  call_lt : ∀ {a b back}, turn a = .ok (.call b back) → μ b < μ a
  back_lt : ∀ {a b back n}, turn a = .ok (.call b back) → f b = .ok n → μ (back n) < μ a

namespace Settles

variable (h : Settles turn f μ)

include h

theorem eq_of_go (hturn : turn a = .ok (.go b)) : f a = f b := by
  rw [h.eq_answer, hturn]
  rfl

theorem eq_of_call (hturn : turn a = .ok (.call b back)) :
    f a = f b >>= fun n => f (back n) := by
  rw [h.eq_answer, hturn]
  rfl

theorem eq_of_ends (ha : Ends turn a r) : f a = r := by
  induction ha with
  | fail hturn | done hturn =>
    rw [h.eq_answer, hturn]
    rfl
  | go hturn _ ih => rw [h.eq_of_go hturn, ih]
  | failInner hturn _ ih =>
    rw [h.eq_of_call hturn, ih]
    rfl
  | call hturn _ _ ih ihback =>
    rw [h.eq_of_call hturn, ih]
    exact ihback

/-- **Ends.** Every reader ends, with its answer. -/
theorem ends (a : σ) : Ends turn a (f a) := by
  induction hm : μ a using Nat.strong_induction_on generalizing a with
  | _ m ih =>
    rcases hturn : turn a with e | n | b | ⟨b, back⟩
    · rw [h.eq_answer, hturn]
      exact .fail hturn
    · rw [h.eq_answer, hturn]
      exact .done hturn
    · rw [h.eq_of_go hturn]
      exact .go hturn (ih _ (hm ▸ h.go_lt hturn) b rfl)
    · have hb := ih _ (hm ▸ h.call_lt hturn) b rfl
      rw [h.eq_of_call hturn]
      rcases hfb : f b with e | n
      · exact .failInner hturn (hfb ▸ hb)
      · exact .call hturn (hfb ▸ hb) (ih _ (hm ▸ h.back_lt hturn hfb) (back n) rfl)

theorem ends_iff : Ends turn a r ↔ f a = r :=
  ⟨h.eq_of_ends, fun ha => ha ▸ h.ends a⟩

/-- The answer stays the same from turn to turn. -/
theorem eq_of_next (hab : Next turn a b) : f a = f b := by
  cases hab with
  | go hturn => exact h.eq_of_go hturn
  | back hturn hb =>
    rw [h.eq_of_call hturn, h.eq_of_ends hb]
    rfl

theorem exists_of_calls (hab : Calls turn a b) (ha : f a = .ok n) : ∃ m, f b = .ok m := by
  obtain ⟨back, hturn⟩ := hab
  rw [h.eq_of_call hturn] at ha
  obtain ⟨m, hm, -⟩ := exists_of_bind_eq_ok ha
  exact ⟨m, hm⟩

/-- If a reader is done at a place, then so are all that it leads to. -/
theorem exists_of_leads (hab : Leads turn a b) (ha : f a = .ok n) : ∃ m, f b = .ok m := by
  induction hab with
  | refl => exact ⟨n, ha⟩
  | tail _ hstep ih =>
    obtain ⟨m, hm⟩ := ih
    rcases hstep with hnext | hcalls
    · exact ⟨m, h.eq_of_next hnext ▸ hm⟩
    · exact h.exists_of_calls hcalls hm

end Settles

end Turn

end Polyglot
