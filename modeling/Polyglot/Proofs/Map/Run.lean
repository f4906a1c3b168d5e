import Polyglot.Proofs.Text.Boundary
import Polyglot.Map.Repair

/-!
# One run of a repaired map

A run is kept as far as it is a copy: its length is the greatest one, within what the segments
claim, over which the bytes agree and which ends between characters (`isGreatest_copyLength`).
`Copies` says what a mapping of such a run promises, `Covers` which pairs of bytes it ties.
-/

namespace Polyglot

open Text

/-! ## What a mapping promises -/

namespace Mapping

/-- The mapping ties a non-empty stretch of `source` to the same bytes of `generated`, and ends
between characters on both sides. -/
structure Copies (m : Mapping) (source generated : String) : Prop where
  length_pos : 0 < m.generated.length
  length_eq : m.source.length = m.generated.length
  source_le : m.source.stop ≤ size source
  generated_le : m.generated.stop ≤ size generated
  bytes_eq : bytesAt source m.source = bytesAt generated m.generated
  source_boundary : isBoundary source m.source.stop = true
  generated_boundary : isBoundary generated m.generated.stop = true

/-- The mapping ties byte `g` of the generated text to byte `s` of the source, with these
capabilities. -/
def Covers (m : Mapping) (g s : ℕ) (c : Capabilities) : Prop :=
  m.generated.containsByte g = true ∧ m.source.containsByte s = true ∧
    g - m.generated.start = s - m.source.start ∧ m.capabilities = c

variable {m : Mapping} {source generated : String}

/-- The byte-wise form of `bytes_eq`. -/
theorem Copies.byte?_eq (h : m.Copies source generated) {k : ℕ} (hk : k < m.generated.length) :
    byte? source (m.source.start + k) = byte? generated (m.generated.start + k) := by
  rw [← getElem?_bytesAt hk, ← getElem?_bytesAt (h.length_eq ▸ hk), h.bytes_eq]

/-- **Verbatim copies.** A copy that also starts between characters is the same text on both
sides. -/
theorem Copies.isVerbatim (h : m.Copies source generated)
    (hs : isBoundary source m.source.start = true)
    (hg : isBoundary generated m.generated.start = true) :
    m.isVerbatim source generated = true := by
  have hpos := h.length_pos
  have hlen := h.length_eq
  unfold Span.length at hpos hlen
  obtain ⟨a, ha⟩ := Span.exists_slice? (by omega) hs h.source_boundary
  obtain ⟨b, hb⟩ := Span.exists_slice? (by omega) hg h.generated_boundary
  have hab : a = b := by
    refine bytes_injective ?_
    rw [Span.bytes_of_slice? ha, Span.bytes_of_slice? hb, h.bytes_eq]
  simp [Mapping.isVerbatim, ha, hb, hab]

theorem covers_verbatim {source generated length : ℕ} {capabilities : Capabilities} {g s : ℕ}
    {c : Capabilities} :
    (verbatim source generated length capabilities).Covers g s c ↔
      ∃ k < length, g = generated + k ∧ s = source + k ∧ c = capabilities := by
  simp only [Covers, verbatim, Span.withLength, Span.containsByte_iff]
  constructor
  · rintro ⟨hg, hs, hd, rfl⟩
    exact ⟨g - generated, by omega, by omega, by omega, rfl⟩
  · rintro ⟨k, hk, rfl, rfl, rfl⟩
    exact ⟨by omega, by omega, by omega, rfl⟩

end Mapping

namespace Repair

/-! ## The length of a copy -/

variable {s t : String} {i j limit n L : ℕ}

/-- The `L` bytes from offset `i` of `s` and from offset `j` of `t` on agree. -/
def Agrees (s : String) (i : ℕ) (t : String) (j L : ℕ) : Prop :=
  ∀ k < L, ∃ b, byte? s (i + k) = some b ∧ byte? t (j + k) = some b

/-- A copy of `L` bytes can end there: it is empty, or both sides end between characters. -/
def EndsBetween (s : String) (i : ℕ) (t : String) (j L : ℕ) : Prop :=
  L = 0 ∨ isBoundary s (i + L) = true ∧ isBoundary t (j + L) = true

theorem agrees_succ :
    Agrees s i t j (L + 1) ↔
      (∃ b, byte? s i = some b ∧ byte? t j = some b) ∧ Agrees s (i + 1) t (j + 1) L := by
  constructor
  · intro h
    refine ⟨h 0 (by omega), fun k hk => ?_⟩
    have := h (k + 1) (by omega)
    rwa [show i + (k + 1) = i + 1 + k by ring, show j + (k + 1) = j + 1 + k by ring] at this
  · rintro ⟨h0, h⟩ k hk
    rcases k with _ | k
    · exact h0
    · rw [show i + (k + 1) = i + 1 + k by ring, show j + (k + 1) = j + 1 + k by ring]
      exact h k (by omega)

/-- `agreement` is the longest stretch that agrees. -/
theorem le_agreement_iff : L ≤ agreement s i t j limit ↔ L ≤ limit ∧ Agrees s i t j L := by
  induction limit generalizing i j L with
  | zero =>
    simp only [agreement]
    constructor
    · intro h
      exact ⟨h, fun k hk => by omega⟩
    · exact fun h => h.1
  | succ limit ih =>
    rcases L with _ | L
    · simp [Agrees]
    · rw [agrees_succ]
      unfold agreement
      rcases hs : byte? s i with _ | a
      · simp
      · rcases ht : byte? t j with _ | b
        · simp
        · by_cases hab : a = b
          · simp [hab, ih]
          · simp [hab, Ne.symm hab]

theorem backOff_le : backOff s i t j n ≤ n := by
  induction n with
  | zero => exact le_rfl
  | succ n ih => unfold backOff; split_ifs <;> omega

/-- `backOff` goes back no further than it has to. -/
theorem isGreatest_backOff :
    IsGreatest {L | L ≤ n ∧ EndsBetween s i t j L} (backOff s i t j n) := by
  induction n with
  | zero => exact ⟨⟨le_rfl, Or.inl rfl⟩, fun L hL => hL.1⟩
  | succ n ih =>
    unfold backOff
    split_ifs with h
    · rw [Bool.and_eq_true] at h
      exact ⟨⟨le_rfl, Or.inr h⟩, fun L hL => hL.1⟩
    · refine ⟨⟨le_trans backOff_le (Nat.le_succ n), ih.1.2⟩, fun L hL => ih.2 ⟨?_, hL.2⟩⟩
      rcases hL.2 with h0 | hb
      · omega
      · have hne : L ≠ n + 1 := by
          rintro rfl
          exact h (by rw [Bool.and_eq_true]; exact hb)
        have := hL.1
        omega

/-- The number of bytes of a run that are kept. -/
def copyLength (s : String) (i : ℕ) (t : String) (j limit : ℕ) : ℕ :=
  backOff s i t j (agreement s i t j limit)

/-- **Length of a run.** What is kept is the longest stretch within the limit that agrees and ends
between characters. -/
theorem isGreatest_copyLength (s : String) (i : ℕ) (t : String) (j limit : ℕ) :
    IsGreatest {L | L ≤ limit ∧ Agrees s i t j L ∧ EndsBetween s i t j L}
      (copyLength s i t j limit) := by
  have hset : {L | L ≤ limit ∧ Agrees s i t j L ∧ EndsBetween s i t j L} =
      {L | L ≤ agreement s i t j limit ∧ EndsBetween s i t j L} := by
    ext L
    simp only [Set.mem_ofPred_eq, le_agreement_iff, and_assoc]
  rw [hset]
  exact isGreatest_backOff

theorem Agrees.bytesAt_eq (h : Agrees s i t j L) :
    bytesAt s (.withLength i L) = bytesAt t (.withLength j L) := by
  have hlen : ∀ u : String, ∀ v : ℕ, (bytesAt u (.withLength v L)).length ≤ L := fun u v => by
    unfold bytesAt
    rw [List.length_take, Span.length_withLength]
    exact Nat.min_le_left _ _
  apply List.ext_getElem?
  intro k
  by_cases hk : k < L
  · obtain ⟨b, hs, ht⟩ := h k hk
    rw [getElem?_bytesAt (by simpa using hk), getElem?_bytesAt (by simpa using hk)]
    exact hs.trans ht.symm
  · rw [List.getElem?_eq_none (by have := hlen s i; omega),
      List.getElem?_eq_none (by have := hlen t j; omega)]

/-! ## The mapping of a run -/

variable {text generated : String} {markup : Markup.Document} {here next : Located} {m : Mapping}

/-- Byte `g` of the generated text and byte `s` of the source lie in what is kept of the run
between two segments; the capabilities are those of the place where the run begins. -/
def InRun (text generated : String) (markup : Markup.Document) (here next : Located) (g s : ℕ)
    (c : Capabilities) : Prop :=
  ∃ source L k, here.source = some source ∧
    IsGreatest {L | L ≤ next.generated - here.generated ∧
      Agrees text source generated here.generated L ∧
      EndsBetween text source generated here.generated L} L ∧
    k < L ∧ g = here.generated + k ∧ s = source + k ∧
    c = if markup.inScript source then Capabilities.empty else Capabilities.all

theorem run?_eq_some_iff :
    run? text generated markup here next = some m ↔
      ∃ source, here.source = some source ∧
        copyLength text source generated here.generated (next.generated - here.generated) ≠ 0 ∧
        m = .verbatim source here.generated
          (copyLength text source generated here.generated (next.generated - here.generated))
          (if markup.inScript source then Capabilities.empty else Capabilities.all) := by
  unfold run?
  rcases here.source with _ | source
  · simp
  · simp only [Option.bind_some, Option.some.injEq, exists_eq_left', scriptCapabilities]
    rw [show backOff text source generated here.generated (agreement text source generated
      here.generated (next.generated - here.generated)) = copyLength text source generated
      here.generated (next.generated - here.generated) from rfl]
    by_cases h : copyLength text source generated here.generated
        (next.generated - here.generated) = 0
    · simp [h]
    · rw [if_neg h, Option.some.injEq, eq_comm]
      exact (and_iff_right h).symm

theorem copies_of_run? (h : run? text generated markup here next = some m) :
    m.Copies text generated := by
  obtain ⟨source, -, hne, rfl⟩ := run?_eq_some_iff.1 h
  obtain ⟨-, hagree, hends⟩ := (isGreatest_copyLength text source generated
    here.generated (next.generated - here.generated)).1
  obtain ⟨hs, hg⟩ := hends.resolve_left hne
  exact {
    length_pos := by simpa [Mapping.verbatim] using Nat.pos_of_ne_zero hne
    length_eq := by simp [Mapping.verbatim]
    source_le := le_size_of_isBoundary hs
    generated_le := le_size_of_isBoundary hg
    bytes_eq := hagree.bytesAt_eq
    source_boundary := hs
    generated_boundary := hg }

/-- The mapping of a run covers exactly the pairs of the run. -/
theorem covers_run? {g s : ℕ} {c : Capabilities} :
    (∃ m, run? text generated markup here next = some m ∧ m.Covers g s c) ↔
      InRun text generated markup here next g s c := by
  constructor
  · rintro ⟨m, hm, hc⟩
    obtain ⟨source, hsource, -, rfl⟩ := run?_eq_some_iff.1 hm
    obtain ⟨k, hk, hg, hs, hcap⟩ := Mapping.covers_verbatim.1 hc
    exact ⟨source, _, k, hsource, isGreatest_copyLength .., hk, hg, hs, hcap⟩
  · rintro ⟨source, L, k, hsource, hL, hk, hg, hs, hcap⟩
    obtain rfl := hL.unique (isGreatest_copyLength ..)
    exact ⟨_, run?_eq_some_iff.2 ⟨source, hsource, by omega, rfl⟩,
      Mapping.covers_verbatim.2 ⟨k, hk, hg, hs, hcap⟩⟩

end Repair

end Polyglot
