import Polyglot.Proofs.Map.Lookup

/-!
# Monotone lookups

Mappings that are apart in the generated text and in order in the source carry generated offsets
monotonically: an offset is held by one mapping at most (`Monotone.unique`), and an offset further
on is carried further on (`Monotone.carried_le`). So each end of a span can be carried on its own,
and the span is not inverted (`Monotone.scanSourceSpan?_eq`).
-/

namespace Polyglot

namespace Mapping

/-- The mappings are apart in the generated text, and in the same order in the source. -/
structure Monotone (ms : List Mapping) : Prop where
  generated_le : ∀ m ∈ ms, m.generated.start ≤ m.generated.stop
  source_le : ∀ m ∈ ms, m.source.start ≤ m.source.stop
  apart : ms.Pairwise fun a b => a.generated.stop < b.generated.start
  inOrder : ms.Pairwise fun a b => a.source.stop ≤ b.source.start

/-- A generated offset belongs to one of the mappings. -/
def Touches (ms : List Mapping) (g : ℕ) : Prop := ∃ m ∈ ms, m.generated.contains g = true

/-- Where a mapping leads from an offset that it holds. -/
def carried (m : Mapping) (g : ℕ) : ℕ := m.source.start + min (g - m.generated.start) m.source.length

/-- A generated offset in the source, through the first of the mappings that holds it. -/
def firstSource? (ms : List Mapping) (g : ℕ) : Option ℕ := ms.findSome? (·.toSource? g)

variable {ms : List Mapping} {m n : Mapping} {g g' : ℕ} {r q : Span}

theorem toSource?_eq_some_iff {o : ℕ} :
    m.toSource? g = some o ↔ m.generated.contains g = true ∧ m.carried g = o := by
  rcases hg : m.generated.contains g with _ | _
  · rw [toSource?, carry_eq_none hg]
    simp
  · rw [toSource?, carry_eq_some hg, carried]
    simp

theorem firstSource?_eq_none_iff : firstSource? ms g = none ↔ ¬ Touches ms g := by
  rw [firstSource?, List.findSome?_eq_none_iff]
  constructor
  · rintro h ⟨m, hm, hg⟩
    have hnone := h m hm
    rw [toSource?_eq_some_iff.2 ⟨hg, rfl⟩] at hnone
    cases hnone
  · exact fun h m hm => carry_eq_none (Bool.eq_false_iff.2 fun hg => h ⟨m, hm, hg⟩)

theorem span?_eq_none_iff : span? (firstSource? ms) r = none ↔
    ¬ (Touches ms r.start ∧ Touches ms r.stop) := by
  rw [not_and_or, ← firstSource?_eq_none_iff, ← firstSource?_eq_none_iff, span?]
  rcases firstSource? ms r.start with _ | i
  · simp
  · rcases firstSource? ms r.stop with _ | j
    · simp
    · simp

namespace Monotone

theorem of_cons (h : Monotone (m :: ms)) : Monotone ms :=
  ⟨(List.forall_mem_cons.1 h.generated_le).2, (List.forall_mem_cons.1 h.source_le).2,
    (List.pairwise_cons.1 h.apart).2, (List.pairwise_cons.1 h.inOrder).2⟩

/-- Of two mappings one is in front of the other, in both texts. -/
theorem eq_or_apart (h : Monotone ms) (hm : m ∈ ms) (hn : n ∈ ms) : m = n ∨
    (m.generated.stop < n.generated.start ∧ m.source.stop ≤ n.source.start) ∨
    n.generated.stop < m.generated.start ∧ n.source.stop ≤ m.source.start := by
  induction ms with
  | nil => cases hm
  | cons a ms ih =>
    have hfirst : ∀ b ∈ ms, a.generated.stop < b.generated.start ∧ a.source.stop ≤ b.source.start :=
      fun b hb => ⟨(List.pairwise_cons.1 h.apart).1 b hb, (List.pairwise_cons.1 h.inOrder).1 b hb⟩
    rcases List.mem_cons.1 hm with rfl | hm'
    · rcases List.mem_cons.1 hn with rfl | hn'
      · exact .inl rfl
      · exact .inr (.inl (hfirst n hn'))
    · rcases List.mem_cons.1 hn with rfl | hn'
      · exact .inr (.inr (hfirst m hm'))
      · exact ih h.of_cons hm' hn'

/-- An offset is held by one mapping at most. -/
theorem unique (h : Monotone ms) (hm : m ∈ ms) (hn : n ∈ ms) (hg : m.generated.contains g = true)
    (hg' : n.generated.contains g = true) : m = n := by
  rw [Span.contains_iff] at hg hg'
  rcases h.eq_or_apart hm hn with heq | ⟨hlt, -⟩ | ⟨hlt, -⟩
  · exact heq
  · omega
  · omega

theorem length_filter_le_one (h : Monotone ms) (g : ℕ) :
    (ms.filter (·.generated.contains g)).length ≤ 1 := by
  have hapart := h.apart.sublist (List.filter_sublist (p := (·.generated.contains g)))
  have hall : ∀ m ∈ ms.filter (·.generated.contains g), m.generated.contains g = true :=
    fun m hm => (List.mem_filter.1 hm).2
  generalize ms.filter (·.generated.contains g) = touched at hapart hall ⊢
  rcases touched with _ | ⟨a, _ | ⟨b, rest⟩⟩
  · exact Nat.zero_le 1
  · exact le_rfl
  · have hlt := (List.pairwise_cons.1 hapart).1 b List.mem_cons_self
    have ha := Span.contains_iff.1 (hall a List.mem_cons_self)
    have hb := Span.contains_iff.1 (hall b (List.mem_cons_of_mem a List.mem_cons_self))
    omega

/-- An offset that a mapping holds is carried through it. -/
theorem firstSource?_eq_some_iff (h : Monotone ms) {o : ℕ} : firstSource? ms g = some o ↔
    ∃ m ∈ ms, m.generated.contains g = true ∧ m.carried g = o := by
  constructor
  · intro hfirst
    obtain ⟨m, hm, ho⟩ := List.exists_of_findSome?_eq_some hfirst
    exact ⟨m, hm, toSource?_eq_some_iff.1 ho⟩
  · rintro ⟨m, hm, hg, rfl⟩
    rcases hfirst : firstSource? ms g with _ | o
    · exact absurd ⟨m, hm, hg⟩ (firstSource?_eq_none_iff.1 hfirst)
    · obtain ⟨n, hn, ho⟩ := List.exists_of_findSome?_eq_some hfirst
      obtain ⟨hg', rfl⟩ := toSource?_eq_some_iff.1 ho
      rw [h.unique hm hn hg hg']

theorem contains_carried (h : Monotone ms) (hm : m ∈ ms) (g : ℕ) :
    m.source.contains (m.carried g) = true := by
  have hle := h.source_le m hm
  rw [Span.contains_iff, carried, Span.length]
  omega

/-- **Monotonicity.** An offset further on is carried further on, through the same mapping or
through one behind it. -/
theorem carried_le (h : Monotone ms) (hm : m ∈ ms) (hn : n ∈ ms) (hg : m.generated.contains g = true)
    (hg' : n.generated.contains g' = true) (hle : g ≤ g') : m.carried g ≤ n.carried g' := by
  have hstop := Span.contains_iff.1 (h.contains_carried hm g)
  have hstart := Span.contains_iff.1 (h.contains_carried hn g')
  rw [Span.contains_iff] at hg hg'
  rcases h.eq_or_apart hm hn with rfl | ⟨-, hsource⟩ | ⟨hlt, -⟩
  · unfold carried
    omega
  · omega
  · omega

/-- An answer for a span: both ends are held, and each is carried through its own mapping. -/
theorem span?_eq_some_iff (h : Monotone ms) : span? (firstSource? ms) r = some q ↔
    ∃ m ∈ ms, ∃ n ∈ ms, m.generated.contains r.start = true ∧ n.generated.contains r.stop = true ∧
      ⟨m.carried r.start, n.carried r.stop⟩ = q := by
  constructor
  · intro hspan
    obtain ⟨i, hi, hspan⟩ := Option.bind_eq_some_iff.1 hspan
    obtain ⟨j, hj, hspan⟩ := Option.bind_eq_some_iff.1 hspan
    obtain ⟨m, hm, hstart, rfl⟩ := h.firstSource?_eq_some_iff.1 hi
    obtain ⟨n, hn, hstop, rfl⟩ := h.firstSource?_eq_some_iff.1 hj
    exact ⟨m, hm, n, hn, hstart, hstop, Option.some.inj hspan⟩
  · rintro ⟨m, hm, n, hn, hstart, hstop, rfl⟩
    rw [span?, h.firstSource?_eq_some_iff.2 ⟨m, hm, hstart, rfl⟩,
      h.firstSource?_eq_some_iff.2 ⟨n, hn, hstop, rfl⟩]
    rfl

/-- **Spans.** Both ends of a span are carried on their own, since that does not invert it. -/
theorem scanSpan?_eq (h : Monotone ms) (hr : r.start ≤ r.stop) :
    (ms.findSome? fun m => span? m.toSource? r).or (SourceMap.endsOf? (firstSource? ms) r) =
      span? (firstSource? ms) r := by
  rcases hwhole : ms.findSome? fun m => span? m.toSource? r with _ | q
  · rw [hwhole, Option.none_or, SourceMap.endsOf?, span?]
    rcases hstart : firstSource? ms r.start with _ | i
    · rfl
    · rcases hstop : firstSource? ms r.stop with _ | j
      · rfl
      · obtain ⟨m, hm, hg, rfl⟩ := h.firstSource?_eq_some_iff.1 hstart
        obtain ⟨n, hn, hg', rfl⟩ := h.firstSource?_eq_some_iff.1 hstop
        exact if_pos (h.carried_le hm hn hg hg' hr)
  · obtain ⟨m, hm, hspan⟩ := List.exists_of_findSome?_eq_some hwhole
    obtain ⟨i, hi, hspan⟩ := Option.bind_eq_some_iff.1 hspan
    obtain ⟨j, hj, hspan⟩ := Option.bind_eq_some_iff.1 hspan
    obtain ⟨hstart, rfl⟩ := toSource?_eq_some_iff.1 hi
    obtain ⟨hstop, rfl⟩ := toSource?_eq_some_iff.1 hj
    rw [hwhole, Option.some_or, eq_comm, h.span?_eq_some_iff]
    exact ⟨m, hm, m, hm, hstart, hstop, Option.some.inj hspan⟩

end Monotone

end Mapping

namespace SourceMap

open Mapping

variable {t : SourceMap} {filter : Capabilities} {g : ℕ} {r : Span}

theorem toSource?_eq_firstSource? (h : Ascend t.toList) (g : ℕ) (filter : Capabilities) :
    t.toSource? g filter = firstSource? (t.toList.filter (·.allows filter)) g :=
  toSource?_eq h g filter

/-- Where the mappings of a filter are monotone, a span is carried end by end. -/
theorem toSourceSpan?_eq_span? (h : Ascend t.toList)
    (hmonotone : Monotone (t.toList.filter (·.allows filter))) (hr : r.start ≤ r.stop) :
    t.toSourceSpan? r filter = span? (firstSource? (t.toList.filter (·.allows filter))) r := by
  rw [toSourceSpan?_eq h]
  exact hmonotone.scanSpan?_eq hr

end SourceMap

end Polyglot
