import Polyglot.Proofs.Typed.Quoted
import Polyglot.Proofs.Text.Octet

/-!
# Reading quoted strings back

What is written between quotes resolves to the string it was written for (`unescapeList_quoteBody`,
`unescapeList_quoteSafeBody`), so a quoted string tells which one it is. In its octets every backslash
shields the octet behind it, and no quote stands bare (`IsShielded`).
-/

namespace Polyglot

namespace Text

open Typed

variable {c d : Char} {cs ds : List Char} {s t : String}

/-! ## Escapes -/

theorem unescapeList_cons (hc : c ≠ '\\') (cs : List Char) :
    unescapeList (c :: cs) = c :: unescapeList cs := by
  rw [unescapeList]
  · exact fun h => absurd h hc
  · exact fun _ _ h => absurd h hc

theorem unescapeList_letter (hd : escapeWidth d = 0) (cs : List Char) :
    unescapeList ('\\' :: d :: cs) = escapedChar d :: unescapeList cs := by
  rw [unescapeList]
  exact if_pos hd

theorem unescapeList_code (code : List Char) (hlength : code.length = 4)
    (hcode : charOfHex? code = some c) (cs : List Char) :
    unescapeList ('\\' :: 'u' :: (code ++ cs)) = c :: unescapeList cs := by
  have htake : (code ++ cs).take (escapeWidth 'u') = code := List.take_left' hlength
  have hdrop : (code ++ cs).drop (escapeWidth 'u') = cs := List.drop_left' hlength
  rw [unescapeList]
  simp only [htake, hdrop, hcode]
  rw [if_neg (by decide), List.singleton_append]

/-- A character reads back from what is written for it, whatever follows. -/
theorem unescapeList_quoteChar (c : Char) (cs : List Char) :
    unescapeList (quoteChar c ++ cs) = c :: unescapeList cs := by
  have hcontrol : ∀ n < 0x20, (hexDigits 4 n).length = 4 ∧
      charOfHex? (hexDigits 4 n) = some (Char.ofNat n) := by decide
  unfold quoteChar
  split
  iterate 7 exact unescapeList_letter (by decide) cs
  split_ifs with hlt
  · obtain ⟨hlength, hcode⟩ := hcontrol _ hlt
    rw [Char.ofNat_toNat] at hcode
    exact unescapeList_code _ hlength hcode cs
  · next hbackslash _ _ _ _ _ => exact unescapeList_cons hbackslash cs

theorem unescapeList_shieldChar (hc : c ≠ '\\') (cs : List Char) :
    unescapeList (shieldChar c ++ cs) = c :: unescapeList cs := by
  unfold shieldChar
  split
  · exact unescapeList_code "003C".toList (by decide) (by decide) cs
  · exact unescapeList_code "2028".toList (by decide) (by decide) cs
  · exact unescapeList_code "2029".toList (by decide) (by decide) cs
  · exact unescapeList_cons hc cs

theorem unescapeList_quoteSafeChar (c : Char) (cs : List Char) :
    unescapeList ((quoteChar c).flatMap shieldChar ++ cs) = c :: unescapeList cs := by
  have hcontrol : ∀ n < 0x20, (hexDigits 4 n).length = 4 ∧ (hexDigits 4 n).all isHexDigit = true ∧
      charOfHex? (hexDigits 4 n) = some (Char.ofNat n) := by decide
  unfold quoteChar
  split
  iterate 7 exact unescapeList_letter (by decide) cs
  split_ifs with hlt
  · obtain ⟨hlength, hhex, hcode⟩ := hcontrol _ hlt
    rw [Char.ofNat_toNat] at hcode
    rw [List.flatMap_cons, List.flatMap_cons, flatMap_shieldChar_eq hhex]
    exact unescapeList_code _ hlength hcode cs
  · next hbackslash _ _ _ _ _ =>
    rw [List.flatMap_singleton]
    exact unescapeList_shieldChar hbackslash cs

theorem unescapeList_flatMap {f : Char → List Char}
    (hf : ∀ c cs, unescapeList (f c ++ cs) = c :: unescapeList cs) (cs : List Char) :
    unescapeList (cs.flatMap f) = cs := by
  induction cs with
  | nil => rw [List.flatMap_nil, unescapeList]
  | cons c cs ih => rw [List.flatMap_cons, hf, ih]

theorem unescapeList_quoteBody (s : String) : unescapeList (quoteBody s) = s.toList :=
  unescapeList_flatMap unescapeList_quoteChar _

theorem unescapeList_quoteSafeBody (s : String) : unescapeList (quoteSafeBody s) = s.toList := by
  rw [quoteSafeBody, quoteBody, List.flatMap_assoc]
  exact unescapeList_flatMap unescapeList_quoteSafeChar _

/-- A quoted string tells which string it is for. -/
theorem quote_injective : Function.Injective quote := fun s t h => by
  have hlist := congrArg String.toList h
  rw [toList_quote, toList_quote] at hlist
  have hbody := List.append_cancel_right (List.cons.inj hlist).2
  have hchars := congrArg unescapeList hbody
  rw [unescapeList_quoteBody, unescapeList_quoteBody] at hchars
  exact String.toList_injective hchars

/-! ## Octets -/

/-- An ASCII character is an octet of a text only where it is a character of it. -/
theorem mem_toList_of_mem_octets (hd : IsAsciiOctet d) (h : d ∈ octets s) : d ∈ s.toList := by
  obtain ⟨xs, ys, hsplit⟩ := List.append_of_mem h
  rw [← List.singleton_append, ← List.append_assoc] at hsplit
  obtain ⟨a, b, rfl, -⟩ := exists_split_of_octets hsplit (List.cons_ne_nil _ _) (by simpa using hd)
  simp

/-- So the first octet is, if it is ASCII, the first character, and the last one the last character. -/
theorem head?_toList_of_octets (hd : IsAsciiOctet d) (h : (octets s).head? = some d) :
    s.toList.head? = some d := by
  obtain ⟨ds, hds⟩ := List.head?_eq_some_iff.1 h
  have hsplit : octets s = [] ++ [d] ++ ds := hds
  obtain ⟨a, b, rfl, ha, -⟩ := exists_split_of_octets hsplit (List.cons_ne_nil _ _) (by simpa using hd)
  obtain rfl : a = "" := octets_injective ha
  simp

theorem getLast?_toList_of_octets (hd : IsAsciiOctet d) (h : (octets s).getLast? = some d) :
    s.toList.getLast? = some d := by
  obtain ⟨ds, hds⟩ := List.getLast?_eq_some_iff.1 h
  rw [← List.append_nil (ds ++ [d])] at hds
  obtain ⟨a, b, rfl, -, hb⟩ := exists_split_of_octets hds (List.cons_ne_nil _ _) (by simpa using hd)
  obtain rfl : b = "" := octets_injective hb
  simp

/-- No quote stands bare, and a backslash has an octet behind it. -/
inductive IsShielded : List Char → Prop
  | nil : IsShielded []
  | plain {d : Char} {ds : List Char} : d ≠ '"' → d ≠ '\\' → IsShielded ds → IsShielded (d :: ds)
  | escape {d : Char} {ds : List Char} : IsShielded ds → IsShielded ('\\' :: d :: ds)

theorem IsShielded.append (hcs : IsShielded cs) (hds : IsShielded ds) : IsShielded (cs ++ ds) := by
  induction hcs with
  | nil => exact hds
  | plain hquote hbackslash _ ih => exact ih.plain hquote hbackslash
  | escape _ ih => exact ih.escape

theorem isShielded_of_notMem (hquote : '"' ∉ ds) (hbackslash : '\\' ∉ ds) : IsShielded ds := by
  induction ds with
  | nil => exact .nil
  | cons d ds ih =>
    obtain ⟨hd, hds⟩ := List.ne_and_not_mem_of_not_mem_cons hquote
    obtain ⟨hd', hds'⟩ := List.ne_and_not_mem_of_not_mem_cons hbackslash
    exact .plain hd.symm hd'.symm (ih hds hds')

theorem octets_cons (c : Char) (cs : List Char) : octets (String.ofList (c :: cs)) =
    octets (String.singleton c) ++ octets (String.ofList cs) := by
  rw [String.ofList_cons, octets_append]

/-- What stands between the quotes of a string is shielded octet by octet. -/
theorem isShielded_octets (h : IsStringBody cs) : IsShielded (octets (String.ofList cs)) := by
  have hnot {d : Char} (hd : IsAsciiOctet d) {cs : List Char} (hcs : d ∉ cs) :
      d ∉ octets (String.ofList cs) := fun hmem => hcs (by
    simpa using mem_toList_of_mem_octets hd hmem)
  induction h with
  | nil => exact .nil
  | @plain c cs hc _ ih =>
    rw [octets_cons, String.singleton_eq_ofList]
    refine (isShielded_of_notMem (hnot (by decide) ?_) (hnot (by decide) ?_)).append ih <;>
      · rw [List.mem_singleton]
        rintro rfl
        exact hc (by simp)
  | @escape c cs hc _ ih =>
    have hascii : IsAsciiOctet c := by
      have hall : ∀ c ∈ ['"', '\\', '/', 'b', 'f', 'n', 'r', 't'], IsAsciiOctet c := by
        simp [IsAsciiOctet]
      exact hall c hc
    rw [octets_cons, octets_singleton (by decide), octets_cons, octets_singleton hascii]
    exact ih.escape
  | @code ds cs _ hhex _ ih =>
    have hds {d : Char} (hd : isHexDigit d = false) : d ∉ ds := fun hmem => by
      rw [List.all_eq_true.1 hhex d hmem] at hd
      cases hd
    rw [octets_cons, octets_singleton (by decide), octets_cons, octets_singleton (by decide),
      String.ofList_append, octets_append]
    exact .escape ((isShielded_of_notMem (hnot (by decide) (hds (by decide)))
      (hnot (by decide) (hds (by decide)))).append ih)

end Text

end Polyglot
