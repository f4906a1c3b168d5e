import Polyglot.Text.Quoted
import Polyglot.Proofs.Typed.Lexeme

/-!
# Quoted strings are strings of the typed language
-/

namespace Polyglot

open Typed

namespace Text

variable {c : Char} {cs ds : List Char}

/-- What `quote` writes between the quotes. -/
def quoteBody (s : String) : List Char := s.toList.flatMap quoteChar

/-- What `quoteSafe` writes between the quotes. -/
def quoteSafeBody (s : String) : List Char := (quoteBody s).flatMap shieldChar

theorem toList_quote (s : String) : (quote s).toList = '"' :: (quoteBody s ++ ['"']) := by
  rw [quote, String.toList_ofList]
  rfl

theorem toList_quoteSafe (s : String) : (quoteSafe s).toList = '"' :: (quoteSafeBody s ++ ['"']) := by
  rw [quoteSafe, String.toList_ofList, toList_quote, List.flatMap_cons, List.flatMap_append]
  rfl

theorem isStringBody_append (hcs : IsStringBody cs) (hds : IsStringBody ds) :
    IsStringBody (cs ++ ds) := by
  induction hcs with
  | nil => exact hds
  | plain hc _ ih => exact ih.plain hc
  | escape hc _ ih => exact ih.escape hc
  | code hlength hhex _ ih =>
    rw [List.cons_append, List.cons_append, List.append_assoc]
    exact ih.code hlength hhex

theorem isStringBody_quoteChar (c : Char) : IsStringBody (quoteChar c) := by
  have hhex : ∀ n < 0x20, (hexDigits 4 n).length = 4 ∧ (hexDigits 4 n).all isHexDigit = true := by
    decide
  unfold quoteChar
  split
  iterate 7 exact .escape (by decide) .nil
  split_ifs with hcontrol
  · have hcode := IsStringBody.nil.code (hhex _ hcontrol).1 (hhex _ hcontrol).2
    rwa [List.append_nil] at hcode
  · refine .plain ?_ .nil
    simp_all

theorem isStringBody_quoteBody (s : String) : IsStringBody (quoteBody s) := by
  unfold quoteBody
  induction s.toList with
  | nil => exact .nil
  | cons c cs ih => exact isStringBody_append (isStringBody_quoteChar c) ih

theorem shieldChar_eq (hc : c ∉ ['<', '\u2028', '\u2029']) : shieldChar c = [c] := by
  unfold shieldChar
  split <;> simp_all

theorem flatMap_shieldChar_eq (h : cs.all isHexDigit = true) : cs.flatMap shieldChar = cs := by
  have hhex : ∀ c ∈ ['<', '\u2028', '\u2029'], isHexDigit c = false := by
    simp [isHexDigit]
  induction cs with
  | nil => rfl
  | cons c cs ih =>
    rw [List.all_cons, Bool.and_eq_true] at h
    have hc : c ∉ ['<', '\u2028', '\u2029'] := fun hmem =>
      absurd (h.1.symm.trans (hhex c hmem)) (by decide)
    rw [List.flatMap_cons, shieldChar_eq hc, ih h.2, List.singleton_append]

/-- Shielding leaves escapes as they are, and puts escapes in the place of other characters. -/
theorem isStringBody_shield (h : IsStringBody cs) : IsStringBody (cs.flatMap shieldChar) := by
  induction h with
  | nil => exact .nil
  | @plain c cs hc _ ih =>
    refine isStringBody_append ?_ ih
    unfold shieldChar
    split
    · exact @IsStringBody.code "003C".toList [] (by decide) (by decide) .nil
    · exact @IsStringBody.code "2028".toList [] (by decide) (by decide) .nil
    · exact @IsStringBody.code "2029".toList [] (by decide) (by decide) .nil
    · exact .plain hc .nil
  | @escape c cs hc _ ih =>
    have hletters : ∀ c ∈ ['"', '\\', '/', 'b', 'f', 'n', 'r', 't'],
        c ∉ ['<', '\u2028', '\u2029'] := by simp
    rw [List.flatMap_cons, List.flatMap_cons, shieldChar_eq (hletters c hc)]
    exact ih.escape hc
  | @code ds cs hlength hhex _ ih =>
    rw [List.flatMap_cons, List.flatMap_cons, List.flatMap_append, flatMap_shieldChar_eq hhex]
    show IsStringBody ('\\' :: 'u' :: (ds ++ cs.flatMap shieldChar))
    exact ih.code hlength hhex

theorem isStringBody_quoteSafeBody (s : String) : IsStringBody (quoteSafeBody s) :=
  isStringBody_shield (isStringBody_quoteBody s)

end Text

end Polyglot
