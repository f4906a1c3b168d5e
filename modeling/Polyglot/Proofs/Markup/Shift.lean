import Polyglot.Proofs.Markup.Stream
import Polyglot.Proofs.Text.Octet

/-!
# Shifted tokens

The machine looks at octets and never at offsets, which it only copies. So a text reads the same wherever
it stands: all tokens are shifted by what stands in front of it (`tokensFrom_append`).
-/

namespace Polyglot.Markup

open Text

/-! ## Offsets further on -/

/-- The same error `d` bytes further on. -/
def Error.shift (e : Error) (d : ℕ) : Error := ⟨e.fault, e.offset + d⟩

/-- The same token `d` bytes further on. -/
def Token.shift (t : Token) (d : ℕ) : Token :=
  match t with
  | .text r => .text (r.shift d)
  | .expression r => .expression (r.shift d)
  | .openName r => .openName (r.shift d)
  | .openEnd i => .openEnd (i + d)
  | .selfClose i => .selfClose (i + d)
  | .closeTag start name stop => .closeTag (start + d) (name.shift d) (stop + d)
  | .attributeName r => .attributeName (r.shift d)
  | .attributeValue kind r => .attributeValue kind (r.shift d)
  | .shorthand r => .shorthand (r.shift d)
  | .comment r => .comment (r.shift d)
  | .doctype r => .doctype (r.shift d)
  | .error e => .error (e.shift d)
  | .finish => .finish

/-- The same mode with all that it remembers `d` bytes further on. -/
def Mode.shift (mode : Mode) (d : ℕ) : Mode :=
  match mode with
  | .text start => .text (start + d)
  | .textExpression start braces => .textExpression (start + d) braces
  | .beforeName lt => .beforeName (lt + d)
  | .openName start spelled => .openName (start + d) spelled
  | .selfClosing name => .selfClosing name
  | .beforeCloseName lt => .beforeCloseName (lt + d)
  | .closeName lt start => .closeName (lt + d) (start + d)
  | .afterCloseName lt name => .afterCloseName (lt + d) (name.shift d)
  | .beforeAttribute name => .beforeAttribute name
  | .attributeName name start => .attributeName name (start + d)
  | .afterAttributeName name => .afterAttributeName name
  | .beforeValue name => .beforeValue name
  | .doubleQuoted name start => .doubleQuoted name (start + d)
  | .singleQuoted name start => .singleQuoted name (start + d)
  | .unquoted name start => .unquoted name (start + d)
  | .attributeExpression name start isShorthand braces =>
    .attributeExpression name (start + d) isShorthand braces
  | .beforeDeclaration lt => .beforeDeclaration (lt + d)
  | .declaration lt => .declaration (lt + d)
  | .beforeComment lt => .beforeComment (lt + d)
  | .comment lt => .comment (lt + d)
  | .rawText name start => .rawText name (start + d)

/-- What a step leads to and reports, `d` bytes further on. -/
def shiftStep (d : ℕ) (r : Mode × List Token) : Mode × List Token :=
  (r.1.shift d, r.2.map (·.shift d))

variable {d i start lt : ℕ} {c : Char} {name rest : List Char}
  {r : Mode × List Token}

theorem pendingText_shift :
    pendingText (start + d) (i + d) = (pendingText start i).map (·.shift d) := by
  unfold pendingText
  simp only [Nat.add_lt_add_iff_right]
  split_ifs <;> rfl

/-! ## Steps -/

namespace Mode

variable {mode : Mode}

theorem stepText_shift : stepText (start + d) (i + d) c = shiftStep d (stepText start i c) := by
  unfold stepText
  rw [pendingText_shift]
  split_ifs <;> rfl

theorem afterStartTag_shift : afterStartTag name (i + d) = (afterStartTag name i).shift d := by
  unfold afterStartTag
  rw [Nat.add_right_comm]
  split_ifs <;> rfl

theorem stepAttribute_shift :
    stepAttribute name (i + d) c = shiftStep d (stepAttribute name i c) := by
  unfold stepAttribute
  rw [afterStartTag_shift]
  split_ifs <;> rfl

theorem stepAfterAttributeName_shift :
    stepAfterAttributeName name (i + d) c = shiftStep d (stepAfterAttributeName name i c) := by
  unfold stepAfterAttributeName
  rw [stepAttribute_shift]
  split_ifs <;> rfl

theorem stepDeclaration_shift :
    stepDeclaration (lt + d) (i + d) c = shiftStep d (stepDeclaration lt i c) := by
  unfold stepDeclaration
  rw [Nat.add_right_comm]
  split_ifs <;> rfl

theorem emitting_shift (t : Token) :
    emitting [t.shift d] (shiftStep d r) = shiftStep d (emitting [t] r) := by
  unfold emitting shiftStep
  rw [List.map_append, List.map_singleton]

/-- A step does not look at offsets. -/
theorem step_shift :
    (mode.shift d).step (i + d) c rest = shiftStep d (mode.step i c rest) := by
  cases mode
  case text => exact stepText_shift
  case beforeAttribute => exact stepAttribute_shift
  case afterAttributeName => exact stepAfterAttributeName_shift
  case declaration => exact stepDeclaration_shift
  case comment => rfl
  case textExpression =>
    rw [shift, step, step, Nat.add_right_comm]
    split <;> rfl
  case attributeExpression =>
    rw [shift, step, step]
    split
    · rfl
    · split_ifs
      all_goals
        rw [Nat.add_right_comm]
        rfl
  case openName start _ =>
    rw [shift, step, step]
    split_ifs
    · rw [stepAttribute_shift]
      exact emitting_shift (.openName ⟨start, i⟩)
    · rfl
  case attributeName _ start =>
    rw [shift, step, step]
    split_ifs
    · rw [stepAfterAttributeName_shift]
      exact emitting_shift (.attributeName ⟨start, i⟩)
    · rfl
  case unquoted _ start =>
    rw [shift, step, step]
    split_ifs
    · rw [stepAttribute_shift]
      exact emitting_shift (.attributeValue .unquoted ⟨start, i⟩)
    · rfl
  case rawText =>
    rw [shift, step, step, pendingText_shift]
    split_ifs <;> rfl
  case beforeDeclaration | beforeComment =>
    rw [shift, step, step, stepDeclaration_shift]
    split_ifs <;> rfl
  case doubleQuoted | singleQuoted =>
    rw [shift, step, step]
    split_ifs <;> rfl
  case beforeCloseName | closeName | afterCloseName =>
    rw [shift, step, step, Nat.add_right_comm]
    split_ifs <;> rfl
  case beforeName =>
    rw [shift, step, step, stepText_shift, afterStartTag_shift]
    split_ifs <;> rfl
  case selfClosing =>
    rw [shift, step, step, stepAttribute_shift, Nat.add_right_comm]
    split_ifs <;> rfl
  case beforeValue =>
    rw [shift, step, step, afterStartTag_shift, Nat.add_right_comm]
    split_ifs <;> rfl

theorem atEnd_shift : (mode.shift d).atEnd (i + d) = (mode.atEnd i).map (·.shift d) := by
  cases mode
  case text | rawText => exact pendingText_shift
  all_goals rfl

/-- Nor does a run. -/
theorem run_shift {cs : List Char} :
    (mode.shift d).run (i + d) cs = (mode.run i cs).map (·.shift d) := by
  induction mode, i, cs using Mode.run.induct with
  | case1 lt i rest ih =>
    rw [shift, run, run, List.map_cons, ← ih, Nat.add_right_comm]
    rfl
  | case2 mode i c rest hne r ih =>
    have hshift : ∀ (lt : ℕ) (after : List Char), mode.shift d = .comment lt → c = '-' →
        rest = '-' :: '>' :: after → False := by
      intro lt after hmode
      cases mode <;> cases hmode
      exact hne _ after rfl
    rw [run.eq_2 _ _ c rest hshift, run.eq_2 mode i c rest hne, step_shift, List.map_append, ← ih,
      Nat.add_right_comm]
    rfl
  | case3 mode i =>
    rw [run.eq_3, run.eq_3, atEnd_shift, List.map_append]
    rfl

end Mode

/-- **Shift.** Behind another text the tokens of a text are the same, shifted by what stands in front. -/
theorem tokensFrom_append (x s : String) :
    tokensFrom (x ++ s) (size x) = (tokensFrom s 0).map (·.shift (size x)) := by
  have hle : size x ≤ size (x ++ s) := by
    rw [size_append]
    exact Nat.le_add_right _ _
  have hrun : ((Mode.text 0).shift (size x)).run (0 + size x) (octets s) =
      ((Mode.text 0).run 0 (octets s)).map (·.shift (size x)) := Mode.run_shift
  rw [Mode.shift, Nat.zero_add] at hrun
  unfold tokensFrom
  dsimp only
  rw [Nat.min_eq_left hle, Nat.zero_min, List.drop_zero, ← hrun, octets_append,
    List.drop_left' (length_octets x)]

end Polyglot.Markup
