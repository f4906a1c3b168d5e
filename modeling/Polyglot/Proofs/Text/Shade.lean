import Polyglot.Proofs.Text.Stretch

/-!
# The ASCII shadow of a text

The shadow of a text has an `x` for every octet that is not ASCII. It is as long as the text, and it
is ASCII, so every offset of it is a boundary. A scan whose delimiters are ASCII, and not `x`, goes
the same way over both.
-/

namespace Polyglot

namespace Text

variable {s : String} {i j : ℕ} {c d : Char} {cs : List Char} {o : Option Char}

/-- The octet, if it is ASCII. -/
def shade (c : Char) : Char := if IsAsciiOctet c then c else 'x'

/-- The text with an `x` for every octet that is not ASCII. -/
def shadow (s : String) : String := String.ofList ((octets s).map shade)

/-! ## Marks -/

/-- An ASCII octet that stands in the shadow of a text only where it stands in the text. -/
def IsMark (d : Char) : Prop := IsAsciiOctet d ∧ d ≠ 'x'

instance : DecidablePred IsMark := fun d => by unfold IsMark; infer_instance

theorem isAsciiOctet_shade (c : Char) : IsAsciiOctet (shade c) := by
  unfold shade
  split_ifs with hc
  · exact hc
  · decide

theorem shade_eq_iff (hd : IsMark d) : shade c = d ↔ c = d := by
  unfold shade
  split_ifs with hc
  · exact Iff.rfl
  · exact iff_of_false hd.2.symm fun h => hc (h ▸ hd.1)

theorem shade_beq (hd : IsMark d) : (shade c == d) = (c == d) := by
  rw [Bool.eq_iff_iff, beq_iff_eq, beq_iff_eq, shade_eq_iff hd]

theorem map_shade_eq_some_iff (hd : IsMark d) : o.map shade = some d ↔ o = some d := by
  rcases o with _ | c
  · simp
  · simp [shade_eq_iff hd]

/-! ## Shadows -/

theorem octets_shadow (s : String) : octets (shadow s) = (octets s).map shade :=
  octets_ofList fun c hc => by
    obtain ⟨d, -, rfl⟩ := List.mem_map.1 hc
    exact isAsciiOctet_shade d

theorem size_shadow (s : String) : size (shadow s) = size s := by
  rw [← length_octets, octets_shadow, List.length_map, length_octets]

theorem isAscii_shadow (s : String) : IsAscii (shadow s) := by
  intro c hc
  rw [octets_shadow] at hc
  obtain ⟨d, -, rfl⟩ := List.mem_map.1 hc
  exact isAsciiOctet_shade d

/-- Every offset of an ASCII text is a boundary. -/
theorem IsAscii.isBoundary (h : IsAscii s) (hi : i ≤ size s) : isBoundary s i = true := by
  rcases hi.lt_or_eq with hlt | rfl
  · obtain ⟨c, hc⟩ : ∃ c, octet? s i = some c := by
      rw [octet?_eq_octets]
      exact ⟨_, List.getElem?_eq_getElem (by rwa [length_octets])⟩
    refine isBoundary_of_ascii hc (h c ?_)
    rw [octet?_eq_octets] at hc
    exact List.mem_of_getElem? hc
  · exact isBoundary_size s

theorem isBoundary_shadow (h : isBoundary s i = true) : isBoundary (shadow s) i = true :=
  (isAscii_shadow s).isBoundary (size_shadow s ▸ le_size_of_isBoundary h)

theorem Stretch.shadow (h : Stretch s i cs) : Stretch (shadow s) i (cs.map shade) where
  octets := by
    rw [octets_shadow, ← List.map_drop]
    exact h.octets.map shade
  start := isBoundary_shadow h.start
  stop := by
    rw [List.length_map]
    exact isBoundary_shadow h.stop

end Text

end Polyglot
