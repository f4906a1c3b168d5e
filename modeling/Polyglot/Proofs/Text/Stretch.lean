import Polyglot.Proofs.Text.Octet

/-!
# Stretches of octets

A reader holds a stretch of a text as a list of octets and moves on by counting them. Where it may
stop is decided on the list alone: at a seam, that is at an end or next to an ASCII octet
(`IsSeam`). Every seam of a stretch is a boundary of the text (`Stretch.isBoundary`).
-/

namespace Polyglot

namespace Text

variable {cs ds : List Char} {c : Char} {n k : ℕ}

/-! ## Seams -/

/-- The place in front of octet `n` is an end of the list or touches an ASCII octet. -/
inductive IsSeam (cs : List Char) : ℕ → Prop
  | start : IsSeam cs 0
  | stop : IsSeam cs cs.length
  | before {n : ℕ} {c : Char} : cs[n]? = some c → IsAsciiOctet c → IsSeam cs n
  | after {n : ℕ} {c : Char} : cs[n]? = some c → IsAsciiOctet c → IsSeam cs (n + 1)

theorem IsSeam.le_length (h : IsSeam cs n) : n ≤ cs.length := by
  cases h with
  | start => exact Nat.zero_le _
  | stop => exact le_rfl
  | before h _ => exact (List.getElem?_eq_some_iff.1 h).1.le
  | after h _ => exact (List.getElem?_eq_some_iff.1 h).1

/-- A seam of the tail; the start of the tail needs an octet to touch. -/
theorem IsSeam.cons (h : IsSeam cs n) (hn : n ≠ 0 ∨ n = cs.length ∨ IsAsciiOctet c) :
    IsSeam (c :: cs) (n + 1) := by
  cases h with
  | start =>
    rcases hn with hn | hn | hc
    · exact absurd rfl hn
    · obtain rfl := List.eq_nil_of_length_eq_zero hn.symm
      exact .stop
    · exact .after (n := 0) rfl hc
  | stop => exact .stop
  | before h hc => exact .before (n := n + 1) h hc
  | @after m d h hd => exact .after (n := m + 1) h hd

/-- A scan that goes on to the end, or up to an ASCII octet. -/
def Halts (cs : List Char) (n : ℕ) : Prop := n = cs.length ∨ ∃ c, cs[n]? = some c ∧ IsAsciiOctet c

theorem Halts.isSeam (h : Halts cs n) : IsSeam cs n := by
  rcases h with rfl | ⟨c, h, hc⟩
  · exact .stop
  · exact .before h hc

theorem Halts.cons (h : Halts cs n) : Halts (c :: cs) (n + 1) := by
  rcases h with rfl | ⟨d, h, hd⟩
  · exact Or.inl rfl
  · exact Or.inr ⟨d, h, hd⟩

theorem halts_zero (hc : IsAsciiOctet c) : Halts (c :: cs) 0 := Or.inr ⟨c, rfl, hc⟩

/-- A list ends in what is dropped from its end. -/
theorem exists_eq_trimmed_append (p : Char → Bool) (cs : List Char) :
    ∃ t, cs = (cs.reverse.dropWhile p).reverse ++ t ∧ ∀ c ∈ t, p c = true := by
  refine ⟨(cs.reverse.takeWhile p).reverse, ?_, fun c hc => ?_⟩
  · rw [← List.reverse_append, List.takeWhile_append_dropWhile, List.reverse_reverse]
  · exact List.mem_takeWhile_imp (List.mem_reverse.1 hc)

/-- Dropping ASCII octets in front of a seam gives a seam. -/
theorem IsSeam.trimmed {p : Char → Bool} (hp : ∀ c, p c = true → IsAsciiOctet c)
    (h : IsSeam cs n) : IsSeam cs ((cs.take n).reverse.dropWhile p).length := by
  obtain ⟨t, ht, hall⟩ := exists_eq_trimmed_append p (cs.take n)
  generalize (cs.take n).reverse.dropWhile p = u at ht ⊢
  have hlen := congrArg List.length ht
  rw [List.length_append, List.length_reverse, List.length_take,
    Nat.min_eq_left h.le_length] at hlen
  rcases t with _ | ⟨c, t⟩
  · rw [List.length_nil, Nat.add_zero] at hlen
    rwa [← hlen]
  · refine .before (c := c) ?_ (hp c (hall c List.mem_cons_self))
    rw [List.length_cons] at hlen
    have hget : (u.reverse ++ c :: t)[u.length]? = some c := by
      rw [List.getElem?_append_right (by rw [List.length_reverse]), List.length_reverse,
        Nat.sub_self]
      rfl
    rwa [← ht, List.getElem?_take_of_lt (by omega)] at hget

theorem isSeam_takeWhile {p : Char → Bool} (hp : ∀ c, p c = true → IsAsciiOctet c) :
    IsSeam cs (cs.takeWhile p).length := by
  induction cs with
  | nil => exact .start
  | cons c cs ih =>
    rcases hc : p c with _ | _
    · rw [List.takeWhile_cons_of_neg (by simp [hc])]
      exact .start
    · rw [List.takeWhile_cons_of_pos hc, List.length_cons]
      exact ih.cons (Or.inr (Or.inr (hp c hc)))

/-! ## Stretches -/

/-- `cs` are the octets of `s` from one boundary to another one. -/
structure Stretch (s : String) (i : ℕ) (cs : List Char) : Prop where
  octets : cs <+: (octets s).drop i
  start : isBoundary s i = true
  stop : isBoundary s (i + cs.length) = true

namespace Stretch

variable {s : String} {i j : ℕ}

theorem octet? (h : Stretch s i cs) (hk : cs[k]? = some c) : octet? s (i + k) = some c := by
  obtain ⟨t, ht⟩ := h.octets
  rw [octet?_eq_octets, ← List.getElem?_drop, ← ht,
    List.getElem?_append_left (List.getElem?_eq_some_iff.1 hk).1, hk]

/-- **Seams.** Every seam of a stretch is a boundary of the text. -/
theorem isBoundary (h : Stretch s i cs) (hn : IsSeam cs n) : isBoundary s (i + n) = true := by
  cases hn with
  | start => exact h.start
  | stop => exact h.stop
  | before hk hc => exact isBoundary_of_ascii (h.octet? hk) hc
  | after hk hc => exact isBoundary_succ_of_ascii (h.octet? hk) hc

theorem drop (h : Stretch s i cs) (hn : Text.isBoundary s (i + n) = true) (hle : n ≤ cs.length) :
    Stretch s (i + n) (cs.drop n) where
  octets := by
    rw [← List.drop_drop]
    exact h.octets.drop n
  start := hn
  stop := by
    rw [List.length_drop, Nat.add_assoc, Nat.add_sub_cancel' hle]
    exact h.stop

theorem take (h : Stretch s i cs) (hn : Text.isBoundary s (i + n) = true) (hle : n ≤ cs.length) :
    Stretch s i (cs.take n) where
  octets := (List.take_prefix n cs).trans h.octets
  start := h.start
  stop := by
    rw [List.length_take, Nat.min_eq_left hle]
    exact hn

/-- The octets between two boundaries. -/
theorem of_isBoundary (hij : i ≤ j) (hi : Text.isBoundary s i = true)
    (hj : Text.isBoundary s j = true) : Stretch s i (((Text.octets s).drop i).take (j - i)) where
  octets := List.take_prefix _ _
  start := hi
  stop := by
    have := le_size_of_isBoundary hj
    rw [List.length_take, List.length_drop, length_octets, Nat.min_eq_left (by omega),
      Nat.add_sub_cancel' hij]
    exact hj

/-- The octets of `t` are a stretch where `t` stands in the text. -/
theorem iff_split {t : String} :
    Stretch s i (Text.octets t) ↔ ∃ a b, s = a ++ t ++ b ∧ size a = i := by
  constructor
  · intro h
    have hstop := h.stop
    rw [length_octets] at hstop
    obtain ⟨u, hu⟩ := Span.exists_slice? (r := .withLength i (size t)) (Nat.le_add_right _ _)
      h.start hstop
    have hut : u = t := by
      refine octets_injective ?_
      rw [Text.octets, Span.bytes_of_slice? hu, bytesAt, List.map_take, List.map_drop,
        Span.length_withLength, ← length_octets t]
      exact (List.prefix_iff_eq_take.1 h.octets).symm
    obtain ⟨a, b, hs, ha, -⟩ := Span.slice?_eq_some_iff.1 hu
    exact ⟨a, b, hut ▸ hs, ha⟩
  · rintro ⟨a, b, rfl, rfl⟩
    refine ⟨?_, isBoundary_iff.2 ⟨a, t ++ b, String.append_assoc .., rfl⟩,
      isBoundary_iff.2 ⟨a ++ t, b, rfl, by rw [size_append, length_octets]⟩⟩
    rw [String.append_assoc, octets_append, octets_append, ← length_octets, List.drop_left]
    exact List.prefix_append _ _

theorem slice? {t : String} (h : Stretch s i (Text.octets t)) :
    (Span.withLength i (size t)).slice? s = some t := by
  obtain ⟨a, b, rfl, rfl⟩ := iff_split.1 h
  exact Span.slice?_eq_some_iff.2 ⟨a, b, rfl, rfl, size_append a t⟩

theorem left {t u : String} (h : Stretch s i (Text.octets (t ++ u))) :
    Stretch s i (Text.octets t) := by
  obtain ⟨a, b, rfl, rfl⟩ := iff_split.1 h
  exact iff_split.2 ⟨a, u ++ b, by simp only [String.append_assoc], rfl⟩

theorem right {t u : String} (h : Stretch s i (Text.octets (t ++ u))) :
    Stretch s (i + size t) (Text.octets u) := by
  obtain ⟨a, b, rfl, rfl⟩ := iff_split.1 h
  exact iff_split.2 ⟨a ++ t, b, by simp only [String.append_assoc], size_append a t⟩

end Stretch

theorem stretch_octets (s : String) : Stretch s 0 (octets s) where
  octets := List.prefix_rfl
  start := isBoundary_zero s
  stop := by
    rw [length_octets, Nat.zero_add]
    exact isBoundary_size s

end Text

/-! ## Spans between boundaries -/

namespace Span

open Text

variable {s : String} {i n k : ℕ} {cs : List Char} {r : Span}

/-- The span lies in the text, in order, and cuts no character. -/
def Fits (s : String) (r : Span) : Prop :=
  r.start ≤ r.stop ∧ isBoundary s r.start = true ∧ isBoundary s r.stop = true

theorem fits_emptyAt (h : isBoundary s i = true) : (emptyAt i).Fits s := ⟨le_rfl, h, h⟩

theorem fits_withLength (hi : isBoundary s i = true) (hn : isBoundary s (i + n) = true) :
    (withLength i n).Fits s := ⟨Nat.le_add_right i n, hi, hn⟩

end Span

end Polyglot
