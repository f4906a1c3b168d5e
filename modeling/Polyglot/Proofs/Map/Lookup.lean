import Mathlib
import Polyglot.Map.SourceMap

/-!
# Lookups by generated offset

Where the generated spans of a map ascend, start by start and end by end, the window that binary search
opens holds every mapping around an offset (`candidates_eq_filter`). A lookup then answers as a scan
over all mappings in order would (`findByGenerated?_eq`, `toSource?_eq`, `toSourceSpan?_eq`).
-/

namespace Polyglot

/-! ## Binary search -/

section

variable {α : Type} {p : α → Bool} {xs : Array α} {as bs l : List α} {lo hi i n : ℕ}

theorem partitionPoint_eq (hlo : lo ≤ n) (hhi : n ≤ hi) (hlt : ∀ i < n, (xs[i]?).any p = true)
    (hge : ∀ i, n ≤ i → (xs[i]?).any p = false) : partitionPoint p xs lo hi = n := by
  fun_induction partitionPoint p xs lo hi with
  | case1 lo hi h mid hmid ih =>
    have hn : mid < n := by
      by_contra hn
      rw [hge mid (Nat.le_of_not_lt hn)] at hmid
      cases hmid
    exact ih hn hhi
  | case2 lo hi h mid hmid ih =>
    have hn : n ≤ mid := by
      by_contra hn
      exact hmid (hlt mid (Nat.lt_of_not_le hn))
    exact ih hlo hn
  | case3 lo hi h => omega

/-- Binary search finds the place where a list falls in two. -/
theorem partitionPoint_of_split (h : xs.toList = as ++ bs) (has : ∀ x ∈ as, p x = true)
    (hbs : ∀ x ∈ bs, p x = false) : partitionPoint p xs 0 xs.size = as.length := by
  have hsize : xs.size = as.length + bs.length := by
    rw [← Array.length_toList, h, List.length_append]
  refine partitionPoint_eq (Nat.zero_le _) (by omega) (fun i hi => ?_) fun i hi => ?_
  · rw [← Array.getElem?_toList, h, List.getElem?_append_left hi, List.getElem?_eq_getElem hi]
    exact has _ (List.getElem_mem hi)
  · rw [← Array.getElem?_toList, h, List.getElem?_append_right hi]
    rcases hb : bs[i - as.length]? with _ | x
    · rfl
    · exact hbs x (List.mem_of_getElem? hb)

theorem takeWhileFrom_eq (p : α → Bool) (xs : Array α) (i : ℕ) :
    takeWhileFrom p xs i = (xs.toList.drop i).takeWhile p := by
  fun_induction takeWhileFrom p xs i with
  | case1 i h hp ih =>
    have hi : i < xs.toList.length := h
    rw [List.drop_eq_getElem_cons hi, Array.getElem_toList, List.takeWhile_cons_of_pos hp, ih]
  | case2 i h hp =>
    have hi : i < xs.toList.length := h
    rw [List.drop_eq_getElem_cons hi, Array.getElem_toList, List.takeWhile_cons_of_neg hp]
  | case3 i h =>
    rw [List.drop_eq_nil_of_le (Nat.le_of_not_lt h), List.takeWhile_nil]

/-- What holds of no element behind one that it fails for fails for all from the first such one on. -/
theorem eq_false_of_mem_dropWhile (h : l.Pairwise fun a b => p b = true → p a = true) :
    ∀ x ∈ l.dropWhile p, p x = false := by
  induction l with
  | nil =>
    intro x hx
    cases hx
  | cons a l ih =>
    obtain ⟨ha, hl⟩ := List.pairwise_cons.1 h
    intro x hx
    by_cases hp : p a = true
    · rw [List.dropWhile_cons_of_pos hp] at hx
      exact ih hl x hx
    · rw [List.dropWhile_cons_of_neg hp] at hx
      rcases List.mem_cons.1 hx with rfl | hx
      · exact Bool.eq_false_iff.2 hp
      · exact Bool.eq_false_iff.2 fun hpx => hp (ha x hx hpx)

/-- A filter that keeps nothing behind a prefix only has to look at the prefix. -/
theorem filter_takeWhile {q : α → Bool} (h : ∀ x ∈ l.dropWhile p, q x = false) :
    (l.takeWhile p).filter q = l.filter q := by
  have hnil : (l.dropWhile p).filter q = [] :=
    List.filter_eq_nil_iff.2 fun x hx => by rw [h x hx]; exact Bool.false_ne_true
  conv_rhs => rw [← List.takeWhile_append_dropWhile (p := p) (l := l), List.filter_append, hnil,
    List.append_nil]

end

/-! ## Scans -/

namespace Mapping

/-- The generated spans ascend: no mapping starts or ends before one in front of it. -/
def Ascend (ms : List Mapping) : Prop :=
  ms.Pairwise fun a b =>
    a.generated.start ≤ b.generated.start ∧ a.generated.stop ≤ b.generated.stop

/-- The first of all mappings that allows the filter and holds the generated offset. -/
def scanGenerated? (ms : List Mapping) (offset : ℕ) (filter : Capabilities) : Option Mapping :=
  ms.find? fun m => m.allows filter && m.generated.contains offset

/-- A generated offset in the source, through the first of all mappings that can tell. -/
def scanSource? (ms : List Mapping) (offset : ℕ) (filter : Capabilities) : Option ℕ :=
  (ms.filter (·.allows filter)).findSome? (·.toSource? offset)

/-- A generated span in the source: through the first of all mappings that can tell for both ends, or
else each end on its own. -/
def scanSourceSpan? (ms : List Mapping) (r : Span) (filter : Capabilities) : Option Span :=
  ((ms.filter (·.allows filter)).findSome? fun m => span? m.toSource? r).or
    (SourceMap.endsOf? (scanSource? ms · filter) r)

theorem carry_eq_none {span target : Span} {offset : ℕ} (h : span.contains offset = false) :
    carry span target offset = none := by
  unfold carry
  rw [h]
  rfl

theorem carry_eq_some {span : Span} {offset : ℕ} (h : span.contains offset = true) (target : Span) :
    carry span target offset = some (target.start + min (offset - span.start) target.length) := by
  unfold carry
  rw [if_pos h]

/-- A mapping carries the offsets that its span holds, and no others: the first mapping to carry an offset
is the first one to hold it. -/
theorem findSome?_carry (span target : Mapping → Span) (ms : List Mapping) (offset : ℕ)
    (filter : Capabilities) :
    (ms.filter (·.allows filter)).findSome? (fun m => carry (span m) (target m) offset) =
      (ms.find? fun m => m.allows filter && (span m).contains offset).bind
        fun m => carry (span m) (target m) offset := by
  induction ms with
  | nil => rfl
  | cons m ms ih =>
    rcases hallows : m.allows filter with _ | _
    · rw [List.filter_cons_of_neg (by rw [hallows]; exact Bool.false_ne_true),
        List.find?_cons_of_neg (by rw [hallows]; exact Bool.false_ne_true), ih]
    · rw [List.filter_cons_of_pos (by exact hallows), List.findSome?_cons]
      rcases hcontains : (span m).contains offset with _ | _
      · rw [carry_eq_none hcontains, List.find?_cons_of_neg (by
          rw [hallows, hcontains]; exact Bool.false_ne_true), ← ih]
      · rw [carry_eq_some hcontains, List.find?_cons_of_pos (by rw [hallows, hcontains]; rfl),
          Option.bind_some, carry_eq_some hcontains]

theorem scanSource?_eq_bind (ms : List Mapping) (offset : ℕ) (filter : Capabilities) :
    scanSource? ms offset filter =
      (scanGenerated? ms offset filter).bind (·.toSource? offset) :=
  findSome?_carry (·.generated) (·.source) ms offset filter

/-- A mapping that can tell the source of a span holds its start. -/
theorem span?_eq_none {m : Mapping} {r : Span} (h : m.generated.contains r.start = false) :
    span? m.toSource? r = none := by
  unfold span? toSource?
  rw [carry_eq_none h]
  rfl

end Mapping

namespace SourceMap

open Mapping

variable {t : SourceMap}

/-! ## Windows -/

/-- **Windows.** Where the spans ascend, the mappings in the window of an offset are all that hold it. -/
theorem candidates_eq_filter (h : Ascend t.toList) (offset : ℕ) :
    t.candidates offset = t.toList.filter fun m => m.generated.contains offset := by
  let ends (m : Mapping) : Bool := m.generated.stop < offset
  let begins (m : Mapping) : Bool := m.generated.start ≤ offset
  have hends : t.toList.Pairwise fun a b => ends b = true → ends a = true :=
    h.imp fun hab hb => by
      simp only [ends, decide_eq_true_eq] at hb ⊢
      omega
  obtain ⟨as, bs, hsplit, has, hbs⟩ : ∃ as bs, t.toList = as ++ bs ∧ (∀ m ∈ as, ends m = true) ∧
      ∀ m ∈ bs, ends m = false :=
    ⟨_, _, List.takeWhile_append_dropWhile.symm, fun m hm => List.mem_takeWhile_imp hm,
      eq_false_of_mem_dropWhile hends⟩
  have hbegins : bs.Pairwise fun a b => begins b = true → begins a = true := by
    rw [Ascend, hsplit] at h
    exact (List.pairwise_append.1 h).2.1.imp fun hab hb => by
      simp only [begins, decide_eq_true_eq] at hb ⊢
      omega
  -- In front of the window every mapping ends before the offset.
  have hfront : as.filter (fun m => m.generated.contains offset) = [] :=
    List.filter_eq_nil_iff.2 fun m hm => by
      have hlt := has m hm
      simp only [ends, decide_eq_true_eq] at hlt
      rw [Span.contains_iff]
      omega
  -- Behind the window every mapping begins after the offset.
  have hback : ∀ m ∈ bs.dropWhile begins, m.generated.contains offset = false := fun m hm => by
    have hgt := eq_false_of_mem_dropWhile hbegins m hm
    simp only [begins, decide_eq_false_iff_not] at hgt
    rw [Bool.eq_false_iff, ne_eq, Span.contains_iff]
    omega
  have hfirst : partitionPoint ends t.mappings 0 t.mappings.size = as.length :=
    partitionPoint_of_split hsplit has hbs
  calc t.candidates offset
      = ((t.toList.drop as.length).takeWhile begins).filter
          fun m => m.generated.contains offset := by
        rw [← hfirst]
        exact congrArg _ (takeWhileFrom_eq ..)
    _ = bs.filter fun m => m.generated.contains offset := by
        rw [hsplit, List.drop_left, filter_takeWhile hback]
    _ = t.toList.filter fun m => m.generated.contains offset := by
        rw [hsplit, List.filter_append, hfront, List.nil_append]

/-! ## Answers -/

theorem toGenerated?_eq_bind (t : SourceMap) (offset : ℕ) (filter : Capabilities) :
    t.toGenerated? offset filter =
      (t.findBySource? offset filter).bind (·.toGenerated? offset) :=
  findSome?_carry (·.source) (·.generated) t.toList offset filter

theorem findByGenerated?_eq (h : Ascend t.toList) (offset : ℕ) (filter : Capabilities) :
    t.findByGenerated? offset filter = scanGenerated? t.toList offset filter := by
  unfold findByGenerated? scanGenerated?
  rw [candidates_eq_filter h, List.find?_filter]
  congr 1
  funext m
  rw [Bool.decide_and, Bool.decide_eq_true, Bool.decide_eq_true, Bool.and_comm]

theorem toSource?_eq (h : Ascend t.toList) (offset : ℕ) (filter : Capabilities) :
    t.toSource? offset filter = scanSource? t.toList offset filter := by
  unfold toSource?
  rw [findByGenerated?_eq h, scanSource?_eq_bind]

theorem toSourceSpan?_eq (h : Ascend t.toList) (r : Span) (filter : Capabilities) :
    t.toSourceSpan? r filter = scanSourceSpan? t.toList r filter := by
  have hends : (fun offset => t.toSource? offset filter) =
      fun offset => scanSource? t.toList offset filter := by
    funext offset
    exact toSource?_eq h offset filter
  have hwhole : ((t.candidates r.start).filter (·.allows filter)).findSome?
      (fun m => span? m.toSource? r) =
      (t.toList.filter (·.allows filter)).findSome? fun m => span? m.toSource? r := by
    rw [candidates_eq_filter h, List.filter_comm]
    induction t.toList.filter (·.allows filter) with
    | nil => rfl
    | cons m ms ih =>
      rcases hm : m.generated.contains r.start with _ | _
      · rw [List.filter_cons_of_neg (by rw [hm]; exact Bool.false_ne_true), List.findSome?_cons,
          span?_eq_none hm]
        exact ih
      · rw [List.filter_cons_of_pos (by exact hm), List.findSome?_cons, List.findSome?_cons, ih]
  unfold toSourceSpan? scanSourceSpan?
  rw [hwhole, hends]

end SourceMap

end Polyglot
