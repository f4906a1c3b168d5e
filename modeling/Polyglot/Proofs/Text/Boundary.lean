import Mathlib
import Polyglot.Text.Slice

/-!
# Boundaries and slices

An offset of a text is a boundary exactly when it splits the text in two (`isBoundary_iff`), and a
slice is the middle part of a split in three (`slice?_eq_some_iff`). Both are read off the bytes.
-/

namespace Polyglot

namespace Text

/-! ## Bytes -/

theorem bytes_append (a b : String) : bytes (a ++ b) = bytes a ++ bytes b := by
  unfold bytes
  rw [String.toByteArray_append, ByteArray.data_append, Array.toList_append]

theorem bytes_injective {a b : String} (h : bytes a = bytes b) : a = b := by
  unfold bytes at h
  exact String.toByteArray_inj.1 (ByteArray.ext (Array.toList_inj.1 h))

/-- Two splits of a text at one offset are the same. -/
theorem append_inj {a b x y : String} (h : a ++ b = x ++ y) (hsize : size a = size x) :
    a = x ∧ b = y := by
  have hbytes := congrArg bytes h
  rw [bytes_append, bytes_append] at hbytes
  obtain ⟨ha, hb⟩ := List.append_inj hbytes (by rw [length_bytes, length_bytes, hsize])
  exact ⟨bytes_injective ha, bytes_injective hb⟩

theorem ofBytes?_bytes (s : String) : ofBytes? (bytes s) = some s := by
  unfold ofBytes? bytes String.fromUTF8?
  rw [Array.toArray_toList, dif_pos s.isValidUTF8]
  rfl

theorem size_append (a b : String) : size (a ++ b) = size a + size b :=
  String.utf8ByteSize_append

theorem size_ofList_cons (c : Char) (cs : List Char) :
    size (String.ofList (c :: cs)) = c.utf8Size + size (String.ofList cs) := by
  rw [String.ofList_cons, size_append]
  exact congrArg (· + _) String.utf8ByteSize_singleton

/-- The first part of a text, by its bytes. -/
theorem bytes_left (a b : String) : bytes a = (bytes (a ++ b)).take (size a) := by
  rw [bytes_append, ← length_bytes, List.take_left]

/-- The bytes of `s` between the ends of a span. -/
def bytesAt (s : String) (r : Span) : List UInt8 := ((bytes s).drop r.start).take r.length

theorem getElem?_bytesAt {s : String} {r : Span} {k : ℕ} (h : k < r.length) :
    (bytesAt s r)[k]? = byte? s (r.start + k) := by
  unfold bytesAt
  rw [List.getElem?_take_of_lt h, List.getElem?_drop, byte?_eq_bytes]

/-! ## Boundaries -/

/-- An offset is a boundary if and only if it splits the text in two. -/
theorem isBoundary_iff {s : String} {i : ℕ} :
    isBoundary s i = true ↔ ∃ a b, s = a ++ b ∧ size a = i := by
  unfold isBoundary
  rw [String.Pos.Raw.isValid_eq_true_iff, String.Pos.Raw.isValid_iff_exists_append]
  constructor
  · rintro ⟨a, b, hs, hi⟩
    exact ⟨a, b, hs, by simpa [String.Pos.Raw.ext_iff] using hi.symm⟩
  · rintro ⟨a, b, hs, hi⟩
    exact ⟨a, b, hs, by simp [String.Pos.Raw.ext_iff, hi]⟩

theorem le_size_of_isBoundary {s : String} {i : ℕ} (h : isBoundary s i = true) : i ≤ size s := by
  obtain ⟨a, b, rfl, rfl⟩ := isBoundary_iff.1 h
  rw [size_append]; omega

@[simp] theorem isBoundary_zero (s : String) : isBoundary s 0 = true :=
  isBoundary_iff.2 ⟨"", s, by simp, rfl⟩

@[simp] theorem isBoundary_size (s : String) : isBoundary s (size s) = true :=
  isBoundary_iff.2 ⟨s, "", by simp, rfl⟩

theorem pos?_of_isBoundary {s : String} {i : ℕ} (h : isBoundary s i = true) :
    ∃ p : s.Pos, s.pos? ⟨i⟩ = some p ∧ p.offset.byteIdx = i := by
  have hv : (⟨i⟩ : String.Pos.Raw).IsValid s := String.Pos.Raw.isValid_eq_true_iff.1 h
  refine ⟨s.pos ⟨i⟩ hv, ?_, by simp⟩
  simp [String.pos?, String.Slice.pos?, hv, String.pos]

theorem pos?_of_not_isBoundary {s : String} {i : ℕ} (h : ¬ isBoundary s i = true) :
    s.pos? ⟨i⟩ = none := by
  have hv : ¬ (⟨i⟩ : String.Pos.Raw).IsValid s := fun hv =>
    h (String.Pos.Raw.isValid_eq_true_iff.2 hv)
  simp [String.pos?, String.Slice.pos?, hv]

end Text

namespace Span

open Text

/-! ## Slices -/

/-- A slice exists if and only if both ends are boundaries, in order. -/
theorem isSome_slice?_iff {r : Span} {s : String} :
    (r.slice? s).isSome ↔
      r.start ≤ r.stop ∧ isBoundary s r.start = true ∧ isBoundary s r.stop = true := by
  unfold slice?
  split_ifs with hle
  · by_cases hb : isBoundary s r.start = true
    · obtain ⟨p, hp, -⟩ := pos?_of_isBoundary hb
      by_cases he : isBoundary s r.stop = true
      · obtain ⟨q, hq, -⟩ := pos?_of_isBoundary he
        simp [hp, hq, hle, hb, he]
      · simp [hp, pos?_of_not_isBoundary he, he]
    · simp [pos?_of_not_isBoundary hb, hb]
  · simp [hle]

theorem exists_slice? {r : Span} {s : String} (h : r.start ≤ r.stop)
    (hb : isBoundary s r.start = true) (he : isBoundary s r.stop = true) :
    ∃ t, r.slice? s = some t :=
  Option.isSome_iff_exists.1 (isSome_slice?_iff.2 ⟨h, hb, he⟩)

theorem bytes_of_slice? {r : Span} {s t : String} (h : r.slice? s = some t) :
    bytes t = bytesAt s r := by
  obtain ⟨hle, hb, he⟩ := isSome_slice?_iff.1 (Option.isSome_iff_exists.2 ⟨t, h⟩)
  obtain ⟨p, hp, hpi⟩ := pos?_of_isBoundary hb
  obtain ⟨q, hq, hqi⟩ := pos?_of_isBoundary he
  simp only [slice?, if_pos hle, hp, hq, Option.bind_some, Option.map_some,
    Option.some.injEq] at h
  rw [← h, bytesAt, Span.length, ← hpi, ← hqi]
  unfold bytes
  rw [String.toByteArray_extract, ByteArray.data_extract, Array.toList_extract,
    List.extract_eq_take_drop]

/-- **Slices.** A slice is the middle part of a split in three. -/
theorem slice?_eq_some_iff {r : Span} {s t : String} :
    r.slice? s = some t ↔ ∃ a b, s = a ++ t ++ b ∧ size a = r.start ∧ size (a ++ t) = r.stop := by
  constructor
  · intro h
    obtain ⟨hle, hb, he⟩ := isSome_slice?_iff.1 (Option.isSome_iff_exists.2 ⟨t, h⟩)
    obtain ⟨a, a', ha, hai⟩ := isBoundary_iff.1 hb
    obtain ⟨b, b', hb, hbi⟩ := isBoundary_iff.1 he
    have hat : a ++ t = b := by
      refine bytes_injective ?_
      have h1 := bytes_left a a'
      have h2 := bytes_left b b'
      rw [← ha, hai] at h1
      rw [← hb, hbi] at h2
      rw [bytes_append, h1, h2, bytes_of_slice? h, bytesAt, Span.length, ← List.take_add,
        Nat.add_sub_cancel' hle]
    exact ⟨a, b', by rw [hat, hb], hai, by rw [hat, hbi]⟩
  · rintro ⟨a, b, rfl, ha, hat⟩
    have hle : r.start ≤ r.stop := by rw [← ha, ← hat, size_append]; omega
    obtain ⟨u, hu⟩ := exists_slice? hle
      (isBoundary_iff.2 ⟨a, t ++ b, String.append_assoc .., ha⟩)
      (isBoundary_iff.2 ⟨a ++ t, b, rfl, hat⟩)
    have hut : u = t := by
      refine bytes_injective ?_
      rw [bytes_of_slice? hu, bytesAt, Span.length, ← hat, ← ha, bytes_append, bytes_append,
        size_append, Nat.add_sub_cancel_left, List.append_assoc, ← length_bytes a, List.drop_left,
        ← length_bytes t, List.take_left]
    rw [hu, hut]

theorem length_of_slice? {r : Span} {s t : String} (h : r.slice? s = some t) :
    r.length = size t := by
  obtain ⟨a, b, -, hstart, hstop⟩ := slice?_eq_some_iff.1 h
  rw [Span.length, ← hstart, ← hstop, size_append, Nat.add_sub_cancel_left]

/-! ## Texts behind another one -/

/-- Of two splits of a text the later one splits the second part of the other. -/
theorem exists_of_append_eq {a b x y : String} (h : a ++ b = x ++ y) (hle : size a ≤ size x) :
    ∃ m, x = a ++ m ∧ b = m ++ y := by
  obtain ⟨m, hm⟩ := exists_slice? (r := ⟨size a, size x⟩) hle
    (isBoundary_iff.2 ⟨a, b, rfl, rfl⟩) (isBoundary_iff.2 ⟨x, y, h, rfl⟩)
  obtain ⟨a', y', hsplit, ha, hx⟩ := slice?_eq_some_iff.1 hm
  obtain ⟨rfl, rfl⟩ := append_inj (h.symm.trans hsplit) hx.symm
  rw [String.append_assoc] at h
  obtain ⟨rfl, rfl⟩ := append_inj h ha.symm
  exact ⟨m, rfl, rfl⟩

/-- A slice does not depend on what stands in front of the text. -/
theorem slice?_append (x s : String) (r : Span) :
    (r.shift (size x)).slice? (x ++ s) = r.slice? s := by
  ext t
  rw [slice?_eq_some_iff, slice?_eq_some_iff]
  unfold shift
  constructor
  · rintro ⟨a, b, hs, ha, hat⟩
    rw [String.append_assoc] at hs
    obtain ⟨m, rfl, rfl⟩ := exists_of_append_eq hs (by rw [ha]; exact Nat.le_add_left _ _)
    rw [String.append_assoc, size_append, Nat.add_comm] at hat
    rw [size_append, Nat.add_comm] at ha
    exact ⟨m, b, (String.append_assoc ..).symm, Nat.add_right_cancel ha, Nat.add_right_cancel hat⟩
  · rintro ⟨a, b, rfl, ha, hat⟩
    refine ⟨x ++ a, b, by simp only [String.append_assoc], ?_, ?_⟩
    · rw [size_append, ha, Nat.add_comm]
    · rw [String.append_assoc, size_append, hat, Nat.add_comm]

end Span

end Polyglot
