import Polyglot.Proofs.Text.Boundary

/-!
# Octets and boundaries

An ASCII octet is a character of its own, so both its ends are boundaries (`isBoundary_of_ascii`,
`isBoundary_succ_of_ascii`). The first octet of a longer character is not: the offset behind it
lies inside the character (`not_isBoundary_succ`).
-/

namespace Polyglot

namespace Text

variable {s : String} {i : ℕ} {c : Char} {cs : List Char}

/-- An octet that is a character of its own. -/
def IsAsciiOctet (c : Char) : Prop := c.toNat < 128

instance : DecidablePred IsAsciiOctet := fun c => by unfold IsAsciiOctet; infer_instance

/-- Every character of the text is ASCII. -/
def IsAscii (s : String) : Prop := ∀ c ∈ octets s, IsAsciiOctet c

theorem toNat_octet (b : UInt8) : (octet b).toNat = b.toNat := by
  have hb : b.toNat < 256 := b.toNat_lt
  have hvalid : b.toNat.isValidChar := Or.inl (by omega)
  unfold octet Char.ofNat
  rw [dif_pos hvalid]
  exact Char.toNat_ofNatAux hvalid

/-! ## Splitting a text at an offset -/

/-- The character that begins at a boundary in front of the end. -/
theorem exists_char_of_isBoundary (h : isBoundary s i = true) (hlt : i < size s) :
    ∃ a c b, s = a ++ String.singleton c ++ b ∧ size a = i := by
  obtain ⟨a, b, rfl, ha⟩ := isBoundary_iff.1 h
  rcases hb : b.toList with _ | ⟨c, cs⟩
  · rw [String.toList_eq_nil_iff] at hb
    rw [hb, size_append, ha] at hlt
    exact absurd hlt (by simp)
  · refine ⟨a, c, String.ofList cs, ?_, ha⟩
    rw [String.append_assoc, ← String.ofList_cons, ← hb, String.ofList_toList]

theorem bytes_singleton (c : Char) : bytes (String.singleton c) = String.utf8EncodeChar c := by
  unfold bytes
  rw [String.singleton_eq_ofList, String.toByteArray_ofList, List.utf8Encode_singleton,
    List.data_toByteArray]

theorem octet_injective {b b' : UInt8} (h : octet b = octet b') : b = b' := by
  have := congrArg Char.toNat h
  rwa [toNat_octet, toNat_octet, UInt8.toNat_inj] at this

theorem octets_injective {a b : String} (h : octets a = octets b) : a = b :=
  bytes_injective (List.map_injective_iff.2 (fun _ _ => octet_injective) h)

theorem octets_ne_nil (h : s ≠ "") : octets s ≠ [] := fun hnil =>
  h (octets_injective (hnil.trans (show [] = octets "" by decide)))

theorem octets_append (a b : String) : octets (a ++ b) = octets a ++ octets b := by
  rw [octets, bytes_append, List.map_append, octets, octets]

theorem octets_singleton (hc : IsAsciiOctet c) : octets (String.singleton c) = [c] := by
  have hsize : c.utf8Size = 1 := by
    rw [Char.utf8Size_eq_one_iff, UInt32.le_iff_toNat_le]
    exact Nat.le_of_lt_succ hc
  have hoctet : octet c.val.toUInt8 = c := by
    apply Char.toNat_inj.1
    rw [toNat_octet, UInt32.toNat_toUInt8]
    exact Nat.mod_eq_of_lt (hc.trans (by decide))
  rw [octets, bytes_singleton, String.utf8EncodeChar_eq_singleton hsize, List.map_singleton, hoctet]

theorem octets_ofList (h : ∀ c ∈ cs, IsAsciiOctet c) : octets (String.ofList cs) = cs := by
  induction cs with
  | nil => rfl
  | cons c cs ih =>
    obtain ⟨hc, hcs⟩ := List.forall_mem_cons.1 h
    rw [String.ofList_cons, octets_append, octets_singleton hc, ih hcs, List.singleton_append]

theorem octets_eq_toList (h : ∀ c ∈ s.toList, IsAsciiOctet c) : octets s = s.toList := by
  have hlist := octets_ofList h
  rwa [String.ofList_toList] at hlist

theorem isAsciiOctet_of_isAlphanum (h : c.isAlphanum = true) : IsAsciiOctet c := by
  simp only [Char.isAlphanum, Char.isAlpha, Char.isUpper, Char.isLower, Char.isDigit,
    Bool.or_eq_true, Bool.and_eq_true, decide_eq_true_eq, UInt32.le_iff_toNat_le] at h
  unfold IsAsciiOctet
  rcases h with (⟨-, h⟩ | ⟨-, h⟩) | ⟨-, h⟩
  all_goals exact lt_of_le_of_lt h (by decide)

/-- An octet that `p` does not hold of is none that it holds of. -/
theorem ne_of_apply {p : Char → Bool} {d e : Char} (h : p d = true) (he : p e = false) : d ≠ e := by
  rintro rfl
  rw [h] at he
  cases he

/-- The octets of the character that begins at an offset. -/
theorem octet?_of_split {a b : String} {k : ℕ} (hk : k < c.utf8Size) :
    octet? (a ++ String.singleton c ++ b) (size a + k) =
      (String.utf8EncodeChar c)[k]?.map octet := by
  have hbytes := bytes_singleton c
  have hlen : (bytes (String.singleton c)).length = c.utf8Size := by
    rw [hbytes, String.length_utf8EncodeChar]
  rw [octet?, byte?_eq_bytes, bytes_append, bytes_append, ← length_bytes a, List.append_assoc,
    List.getElem?_append_right (Nat.le_add_right _ _), Nat.add_sub_cancel_left,
    List.getElem?_append_left (by omega), hbytes]

/-- The first octet tells whether more octets follow. -/
theorem ascii_iff_utf8Size {b : UInt8} (h : (String.utf8EncodeChar c)[0]? = some b) :
    b.toNat < 128 ↔ c.utf8Size = 1 := by
  have hor : ∀ x y : UInt8, y.toNat ≤ (x ||| y).toNat := fun x y => by
    rw [UInt8.toNat_or]; exact Nat.right_le_or
  rcases c.utf8Size_eq with h1 | h2 | h3 | h4
  · rw [String.utf8EncodeChar_eq_singleton h1] at h
    obtain rfl := Option.some.inj h
    have hle : c.val.toNat ≤ 127 := UInt32.le_iff_toNat_le.1 (Char.utf8Size_eq_one_iff.1 h1)
    simp only [h1, iff_true, UInt32.toNat_toUInt8]
    omega
  · rw [String.utf8EncodeChar_eq_cons_cons h2] at h
    obtain rfl := Option.some.inj h
    have := hor ((c.val >>> 6).toUInt8 &&& 0x1f) 0xc0
    rw [h2]
    exact ⟨fun hlt => absurd (this.trans_lt hlt) (by decide), fun h => absurd h (by decide)⟩
  · rw [String.utf8EncodeChar_eq_cons_cons_cons h3] at h
    obtain rfl := Option.some.inj h
    have := hor ((c.val >>> 12).toUInt8 &&& 0x0f) 0xe0
    rw [h3]
    exact ⟨fun hlt => absurd (this.trans_lt hlt) (by decide), fun h => absurd h (by decide)⟩
  · rw [String.utf8EncodeChar_eq_cons_cons_cons_cons h4] at h
    obtain rfl := Option.some.inj h
    have := hor ((c.val >>> 18).toUInt8 &&& 0x07) 0xf0
    rw [h4]
    exact ⟨fun hlt => absurd (this.trans_lt hlt) (by decide), fun h => absurd h (by decide)⟩

/-! ## Boundaries by octets -/

theorem lt_size_of_octet? (h : octet? s i = some c) : i < size s := by
  rw [octet?_eq_octets] at h
  have := (List.getElem?_eq_some_iff.1 h).1
  rwa [length_octets] at this

theorem isBoundary_iff_firstByte (hlt : i < size s) :
    isBoundary s i = true ↔ ∃ b, byte? s i = some b ∧ b.IsUTF8FirstByte := by
  unfold isBoundary byte?
  rw [String.Pos.Raw.isValid_eq_true_iff, String.Pos.Raw.isValid_iff_isUTF8FirstByte, dif_pos hlt]
  have hne : (⟨i⟩ : String.Pos.Raw) ≠ s.rawEndPos := by
    intro h
    rw [String.Pos.Raw.ext_iff, String.byteIdx_rawEndPos] at h
    exact hlt.ne h
  simp [hne, String.Pos.Raw.lt_iff, hlt]

/-- An ASCII octet stands between characters. -/
theorem isBoundary_of_ascii (h : octet? s i = some c) (hc : IsAsciiOctet c) :
    isBoundary s i = true := by
  obtain ⟨b, hb, rfl⟩ := Option.map_eq_some_iff.1 h
  refine (isBoundary_iff_firstByte (lt_size_of_octet? h)).2 ⟨b, hb, Or.inl ?_⟩
  rw [IsAsciiOctet, toNat_octet] at hc
  apply UInt8.toNat_inj.1
  rw [UInt8.toNat_and]
  show b.toNat &&& 2 ^ 7 = 0
  rw [Nat.and_two_pow, Nat.testBit_lt_two_pow hc]
  rfl

/-- At a boundary the next offset is one as well if and only if an ASCII octet stands there. -/
theorem isBoundary_succ_iff (hb : isBoundary s i = true) (h : octet? s i = some c) :
    isBoundary s (i + 1) = true ↔ IsAsciiOctet c := by
  obtain ⟨a, d, b, rfl, rfl⟩ := exists_char_of_isBoundary hb (lt_size_of_octet? h)
  have hpos := d.utf8Size_pos
  obtain ⟨x, hx⟩ : ∃ x, (String.utf8EncodeChar d)[0]? = some x :=
    ⟨_, List.getElem?_eq_getElem (by rwa [String.length_utf8EncodeChar])⟩
  have hc : c = octet x := by
    have := octet?_of_split (a := a) (b := b) hpos
    rw [Nat.add_zero, h, hx] at this
    exact Option.some.inj this
  have hsize : size (a ++ String.singleton d) = size a + d.utf8Size := by
    rw [size_append]
    exact congrArg _ String.utf8ByteSize_singleton
  rw [hc, IsAsciiOctet, toNat_octet, ascii_iff_utf8Size hx]
  constructor
  · intro hnext
    by_contra hne
    have hlt : 1 < d.utf8Size := by omega
    obtain ⟨y, hy⟩ : ∃ y, (String.utf8EncodeChar d)[1]? = some y :=
      ⟨_, List.getElem?_eq_getElem (by rwa [String.length_utf8EncodeChar])⟩
    obtain ⟨z, hz, hfirst⟩ := (isBoundary_iff_firstByte (by
      rw [size_append, hsize]; omega)).1 hnext
    have hyz : octet y = octet z := by
      have := octet?_of_split (a := a) (b := b) hlt
      rw [octet?, hz, hy] at this
      exact (Option.some.inj this).symm
    have hyz : y = z := octet_injective hyz
    obtain ⟨hl, rfl⟩ := List.getElem?_eq_some_iff.1 hy
    rw [← hyz, UInt8.isUTF8FirstByte_getElem_utf8EncodeChar] at hfirst
    exact absurd hfirst (by decide)
  · intro h1
    exact isBoundary_iff.2 ⟨a ++ String.singleton d, b, rfl, by rw [hsize, h1]⟩

theorem isBoundary_succ_of_ascii (h : octet? s i = some c) (hc : IsAsciiOctet c) :
    isBoundary s (i + 1) = true :=
  (isBoundary_succ_iff (isBoundary_of_ascii h hc) h).2 hc

/-- The offset behind the first octet of a longer character lies inside it. -/
theorem not_isBoundary_succ (hb : isBoundary s i = true) (h : octet? s i = some c)
    (hc : ¬ IsAsciiOctet c) : ¬ isBoundary s (i + 1) = true :=
  fun hnext => hc ((isBoundary_succ_iff hb h).1 hnext)

/-- ASCII octets among others split the text around them. -/
theorem exists_split_of_octets {xs cs ys : List Char} (h : octets s = xs ++ cs ++ ys)
    (hne : cs ≠ []) (hcs : ∀ c ∈ cs, IsAsciiOctet c) :
    ∃ a b, s = a ++ String.ofList cs ++ b ∧ octets a = xs ∧ octets b = ys := by
  have hget : ∀ k (hk : k < cs.length), octet? s (xs.length + k) = some cs[k] := by
    intro k hk
    rw [octet?_eq_octets, h, List.append_assoc, List.getElem?_append_right (Nat.le_add_right _ _),
      Nat.add_sub_cancel_left, List.getElem?_append_left hk, List.getElem?_eq_getElem hk]
  have hpos : 0 < cs.length := List.length_pos_iff.2 hne
  have hstart := isBoundary_of_ascii (hget 0 hpos) (hcs _ (List.getElem_mem _))
  have hstop := isBoundary_succ_of_ascii (hget (cs.length - 1) (by omega))
    (hcs _ (List.getElem_mem _))
  rw [Nat.add_zero] at hstart
  rw [Nat.add_assoc, Nat.sub_add_cancel hpos] at hstop
  obtain ⟨t, ht⟩ := Span.exists_slice? (r := .withLength xs.length cs.length)
    (Nat.le_add_right _ _) hstart hstop
  obtain ⟨a, b, rfl, ha, hat⟩ := Span.slice?_eq_some_iff.1 ht
  rw [octets_append, octets_append] at h
  have hlen : (octets a).length = xs.length := by rw [length_octets]; exact ha
  have hlen' : (octets t).length = cs.length := by
    rw [size_append, ha] at hat
    rw [length_octets]
    exact Nat.add_left_cancel hat
  rw [List.append_assoc, List.append_assoc] at h
  obtain ⟨hxs, h⟩ := List.append_inj h hlen
  obtain ⟨hcs', hys⟩ := List.append_inj h hlen'
  refine ⟨a, b, ?_, hxs, hys⟩
  rw [octets_injective (hcs'.trans (octets_ofList hcs).symm)]

end Text

end Polyglot
