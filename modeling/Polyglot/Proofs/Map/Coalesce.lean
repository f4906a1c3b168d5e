import Polyglot.Proofs.Map.Run

/-!
# Joining neighbouring mappings

`coalesce` joins a mapping to the one before it when it goes on there on both sides. A join of two
copies is a copy (`Copies.join`), it covers what the two covered (`covers_join`), and no two
neighbours of the result could still be joined (`isChain_coalesce`).
-/

namespace Polyglot

open Text

namespace Mapping

variable {a b m : Mapping} {source generated : String} {g s : ℕ} {c : Capabilities}

/-- From the start of one mapping to the end of another, with the capabilities of the first. -/
def join (a b : Mapping) : Mapping :=
  ⟨⟨a.source.start, b.source.stop⟩, ⟨a.generated.start, b.generated.stop⟩, a.capabilities⟩

end Mapping

namespace Text

/-- The bytes of two spans that touch. -/
theorem bytesAt_append {s : String} {r r' : Span} (h : r.stop = r'.start) (hr : r.start ≤ r.stop)
    (hr' : r'.start ≤ r'.stop) : bytesAt s ⟨r.start, r'.stop⟩ = bytesAt s r ++ bytesAt s r' := by
  unfold bytesAt Span.length
  have hdrop : (bytes s).drop r'.start = ((bytes s).drop r.start).drop (r.stop - r.start) := by
    rw [List.drop_drop, Nat.add_sub_cancel' hr, h]
  rw [hdrop, ← List.take_add, show r.stop - r.start + (r'.stop - r'.start) = r'.stop - r.start by
    omega]

end Text

namespace Repair

variable {a b m last : Mapping} {ms : List Mapping} {source generated : String} {g s : ℕ}
  {c : Capabilities}

theorem continues_iff :
    continues a b = true ↔ a.generated.stop = b.generated.start ∧
      a.source.stop = b.source.start ∧ a.capabilities = b.capabilities := by
  simp [continues, and_assoc]

/-! ## One join -/

theorem Copies.join (ha : a.Copies source generated) (hb : b.Copies source generated)
    (h : continues a b = true) : (a.join b).Copies source generated := by
  obtain ⟨hg, hs, -⟩ := continues_iff.1 h
  have ha' := ha.length_pos
  have hb' := hb.length_pos
  have hae := ha.length_eq
  have hbe := hb.length_eq
  unfold Span.length at ha' hb' hae hbe
  exact {
    length_pos := by simp only [Mapping.join, Span.length]; omega
    length_eq := by simp only [Mapping.join, Span.length]; omega
    source_le := hb.source_le
    generated_le := hb.generated_le
    bytes_eq :=
      calc bytesAt source (a.join b).source
          = bytesAt source a.source ++ bytesAt source b.source :=
            bytesAt_append hs (by omega) (by omega)
        _ = bytesAt generated a.generated ++ bytesAt generated b.generated := by
            rw [ha.bytes_eq, hb.bytes_eq]
        _ = bytesAt generated (a.join b).generated :=
            (bytesAt_append hg (by omega) (by omega)).symm
    source_boundary := hb.source_boundary
    generated_boundary := hb.generated_boundary }

theorem covers_join (ha : a.Copies source generated) (hb : b.Copies source generated)
    (h : continues a b = true) : (a.join b).Covers g s c ↔ a.Covers g s c ∨ b.Covers g s c := by
  obtain ⟨hg, hs, hc⟩ := continues_iff.1 h
  have ha' := ha.length_pos
  have hb' := hb.length_pos
  have hae := ha.length_eq
  have hbe := hb.length_eq
  unfold Span.length at ha' hb' hae hbe
  simp only [Mapping.Covers, Mapping.join, Span.containsByte_iff, ← hc]
  constructor
  · rintro ⟨h1, h2, h3, h4⟩
    by_cases hlt : g < a.generated.stop
    · exact Or.inl ⟨by omega, by omega, by omega, h4⟩
    · exact Or.inr ⟨by omega, by omega, by omega, h4⟩
  · rintro (⟨h1, h2, h3, h4⟩ | ⟨h1, h2, h3, h4⟩)
    · exact ⟨by omega, by omega, by omega, h4⟩
    · exact ⟨by omega, by omega, by omega, h4⟩

/-! ## All joins -/

theorem coalesceFrom_cons (last m : Mapping) (ms : List Mapping) :
    coalesceFrom last (m :: ms) =
      if continues last m then coalesceFrom (last.join m) ms else last :: coalesceFrom m ms := rfl

/-- What joins preserve holds of every mapping of the result. -/
theorem forall_coalesceFrom {P : Mapping → Prop}
    (hjoin : ∀ a b, P a → P b → continues a b = true → P (a.join b)) (hlast : P last)
    (hms : ∀ m ∈ ms, P m) : ∀ m ∈ coalesceFrom last ms, P m := by
  induction ms generalizing last with
  | nil => simpa [coalesceFrom] using hlast
  | cons n ms ih =>
    have hn := hms n List.mem_cons_self
    have hrest : ∀ m ∈ ms, P m := fun m hm => hms m (List.mem_cons_of_mem n hm)
    rw [coalesceFrom_cons]
    split_ifs with h
    · exact ih (hjoin last n hlast hn h) hrest
    · intro m hm
      rcases List.mem_cons.1 hm with rfl | hm
      · exact hlast
      · exact ih hn hrest m hm

theorem forall_coalesce {P : Mapping → Prop}
    (hjoin : ∀ a b, P a → P b → continues a b = true → P (a.join b)) (hms : ∀ m ∈ ms, P m) :
    ∀ m ∈ coalesce ms, P m := by
  rcases ms with _ | ⟨n, ms⟩
  · simp [coalesce]
  · exact forall_coalesceFrom hjoin (hms n List.mem_cons_self)
      fun m hm => hms m (List.mem_cons_of_mem n hm)

theorem exists_covers_coalesceFrom (hlast : last.Copies source generated)
    (hms : ∀ m ∈ ms, m.Copies source generated) :
    (∃ m ∈ coalesceFrom last ms, m.Covers g s c) ↔
      last.Covers g s c ∨ ∃ m ∈ ms, m.Covers g s c := by
  induction ms generalizing last with
  | nil => simp [coalesceFrom]
  | cons n ms ih =>
    have hn := hms n List.mem_cons_self
    have hrest : ∀ m ∈ ms, m.Copies source generated := fun m hm =>
      hms m (List.mem_cons_of_mem n hm)
    rw [coalesceFrom_cons]
    split_ifs with h
    · rw [ih (Copies.join hlast hn h) hrest, covers_join hlast hn h, List.exists_mem_cons_iff,
        or_assoc]
    · rw [List.exists_mem_cons_iff, ih hn hrest, List.exists_mem_cons_iff]

/-- **Joins keep the covered pairs.** -/
theorem exists_covers_coalesce (hms : ∀ m ∈ ms, m.Copies source generated) :
    (∃ m ∈ coalesce ms, m.Covers g s c) ↔ ∃ m ∈ ms, m.Covers g s c := by
  rcases ms with _ | ⟨n, ms⟩
  · rfl
  · rw [coalesce, exists_covers_coalesceFrom (hms n List.mem_cons_self)
      fun m hm => hms m (List.mem_cons_of_mem n hm), List.exists_mem_cons_iff]

/-- The first mapping of the result starts where the first one started, so that nothing new can go
on there. -/
theorem exists_coalesceFrom_eq_cons (last : Mapping) (ms : List Mapping) :
    ∃ m rest, coalesceFrom last ms = m :: rest ∧ ∀ a, continues a m = continues a last := by
  induction ms generalizing last with
  | nil => exact ⟨last, [], rfl, fun _ => rfl⟩
  | cons n ms ih =>
    rw [coalesceFrom_cons]
    split_ifs with h
    · obtain ⟨m, rest, heq, hm⟩ := ih (last.join n)
      exact ⟨m, rest, heq, fun a => by rw [hm a]; rfl⟩
    · exact ⟨last, _, rfl, fun _ => rfl⟩

theorem isChain_coalesceFrom (last : Mapping) (ms : List Mapping) :
    (coalesceFrom last ms).IsChain fun a b => continues a b = false := by
  induction ms generalizing last with
  | nil => simp [coalesceFrom]
  | cons n ms ih =>
    rw [coalesceFrom_cons]
    split_ifs with h
    · exact ih (last.join n)
    · obtain ⟨m, rest, heq, hm⟩ := exists_coalesceFrom_eq_cons n ms
      have hchain := ih n
      rw [heq] at hchain ⊢
      rw [List.isChain_cons_cons]
      exact ⟨by rw [hm]; simpa using h, hchain⟩

/-- **Joins are complete.** No mapping of the result goes on where the one before it ends. -/
theorem isChain_coalesce (ms : List Mapping) :
    (coalesce ms).IsChain fun a b => continues a b = false := by
  rcases ms with _ | ⟨n, ms⟩
  · exact List.isChain_nil
  · exact isChain_coalesceFrom n ms

end Repair

end Polyglot
