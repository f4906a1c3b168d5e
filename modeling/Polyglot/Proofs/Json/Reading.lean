import Polyglot.Json.Reader
import Polyglot.Proofs.Text.Escape

/-!
# Reading JSON back

A value that is written without blanks is read as that value, and reading ends right behind it,
where a comma or a closing bracket stands (`IsWritten`). So it is with quoted strings
(`isWritten_quote`), and with arrays and objects if it is so with what they hold.
-/

namespace Polyglot

open Text

namespace JsonReader

variable {c e : Char} {cs text more : List Char} {u : Unit16} {v : JsonValue}
  {vs : List (Option String × JsonValue)}

/-! ## Units -/

/-- The characters `text` are read as the unit `u`, and the unit stands for the character `c`. -/
structure Spells (text : List Char) (u : Unit16) (c : Char) : Prop where
  units?_append : ∀ cs, units? (text ++ cs) =
    (units? cs).map fun p => (u :: p.1, p.2 + text.length)
  textOf?_cons : ∀ us, textOf? (u :: us) = (textOf? us).map (c :: ·)

theorem spells_plain (hquote : c ≠ '"') (hbackslash : c ≠ '\\') (hcontrol : ¬ c.toNat < 0x20) :
    Spells [c] (.char c) c where
  units?_append cs := by
    rw [List.singleton_append, units?.eq_5 _ _ hquote (fun _ h => absurd h hbackslash)
      (fun _ _ h => absurd h hbackslash), if_neg (not_or.2 ⟨hbackslash, hcontrol⟩)]
    rfl
  textOf?_cons us := by rw [textOf?]

theorem spells_letter (he : simpleEscape? e = some c) : Spells ['\\', e] (.char c) c where
  units?_append cs := by
    have hu : e ≠ 'u' := by
      rintro rfl
      cases he
    show units? ('\\' :: e :: cs) = _
    rw [units?.eq_4 _ _ hu, he]
    rfl
  textOf?_cons us := by rw [textOf?]

/-- Four digits that spell a character below the surrogates. -/
theorem spells_code {code : List Char} (hlength : code.length = 4)
    (hcode : spelled? 16 code = some c.toNat) (hlow : c.toNat < 0xD800) :
    Spells ('\\' :: 'u' :: code) (.unit c.toNat) c where
  units?_append cs := by
    have htake : (code ++ cs).take 4 = code := List.take_left' hlength
    have hdrop : (code ++ cs).drop 4 = cs := List.drop_left' hlength
    have hfour : fourDigits? (code ++ cs) = some c.toNat := by
      rw [fourDigits?, if_pos (by rw [List.length_append]; omega), htake, hcode]
    show units? ('\\' :: 'u' :: (code ++ cs)) = _
    rw [units?, hfour, hdrop, List.length_cons, List.length_cons, hlength]
    rfl
  textOf?_cons us := by
    have hchar : charOfCode? c.toNat = some c := by
      rw [charOfCode?, dif_pos (Or.inl hlow)]
      rfl
    rw [textOf?.eq_def]
    dsimp only
    rw [if_neg (by omega), hchar]
    rfl

theorem exists_spells_quoteChar (c : Char) : ∃ u, Spells (quoteChar c) u c := by
  have hcontrol : ∀ n < 0x20, (hexDigits 4 n).length = 4 ∧
      spelled? 16 (hexDigits 4 n) = some n := by decide
  unfold quoteChar
  split
  iterate 7 exact ⟨_, spells_letter rfl⟩
  split_ifs with hlt
  · obtain ⟨hlength, hcode⟩ := hcontrol _ hlt
    exact ⟨_, spells_code hlength hcode (by omega)⟩
  · next hquote hbackslash _ _ _ _ _ => exact ⟨_, spells_plain hquote hbackslash hlt⟩

/-! ## Strings -/

theorem exists_units?_quoteBody (s : String) (rest : List Char) :
    ∃ us, units? (quoteBody s ++ '"' :: rest) = some (us, (quoteBody s).length + 1) ∧
      textOf? us = some s.toList := by
  unfold quoteBody
  induction s.toList with
  | nil => exact ⟨[], by rw [List.flatMap_nil, List.nil_append, units?]; rfl, by rw [textOf?]⟩
  | cons c cs ih =>
    obtain ⟨us, hunits, htext⟩ := ih
    obtain ⟨u, hu⟩ := exists_spells_quoteChar c
    refine ⟨u :: us, ?_, by rw [hu.textOf?_cons, htext]; rfl⟩
    rw [List.flatMap_cons, List.append_assoc, hu.units?_append, hunits, Option.map_some,
      List.length_append, Nat.add_right_comm, Nat.add_comm (quoteChar c).length]

theorem text?_quoteBody (s : String) (rest : List Char) :
    text? (quoteBody s ++ '"' :: rest) = some (some s, (quoteBody s).length + 1) := by
  obtain ⟨us, hunits, htext⟩ := exists_units?_quoteBody s rest
  rw [text?, hunits, Option.map_some]
  dsimp only
  rw [htext, Option.map_some, String.ofList_toList]

/-! ## Values -/

/-- Nothing follows, or what separates values or closes what they stand in. -/
def EndsValue (rest : List Char) : Prop := ∀ d ∈ rest.head?, d ∈ [',', ']', '\x7d']

/-- The characters `text` are read as the value `v` in front of whatever ends a value. -/
structure IsWritten (text : List Char) (v : JsonValue) : Prop where
  begins : text.head?.any (fun c => isBlank c || c == ']') = false
  value?_append : ∀ rest, EndsValue rest → value? (text ++ rest) = some (v, text.length)

theorem endsValue_nil : EndsValue [] := fun _ hd => nomatch hd

theorem endsValue_cons (h : c ∈ [',', ']', '\x7d']) (rest : List Char) : EndsValue (c :: rest) :=
  fun d hd => by
    obtain rfl := Option.some.inj hd
    exact h

/-- Behind its opening bracket, an array that holds something is not taken for an empty one. -/
theorem IsWritten.not_closes (h : IsWritten text v) (hne : text ≠ []) (rest : List Char) :
    ¬ ((text ++ rest).drop (blanks (text ++ rest))).head? = some ']' := by
  obtain ⟨c, cs, rfl⟩ := List.exists_cons_of_ne_nil hne
  have hc : (isBlank c || c == ']') = false := h.begins
  rw [Bool.or_eq_false_iff, beq_eq_false_iff_ne] at hc
  have hblanks : blanks (c :: cs ++ rest) = 0 := by
    rw [blanks, List.cons_append, List.takeWhile_cons_of_neg (by simp [hc.1]), List.length_nil]
  rw [hblanks, List.drop_zero, List.cons_append, List.head?_cons, Option.some_inj]
  exact hc.2

theorem IsWritten.ne_nil (h : IsWritten text v) : text ≠ [] := by
  rintro rfl
  have hnil := h.value?_append [] endsValue_nil
  rw [value?] at hnil
  cases hnil

/-- **Strings.** A quoted string is read back. -/
theorem isWritten_quote (s : String) : IsWritten (quote s).toList (.string (some s)) where
  begins := by
    rw [toList_quote]
    rfl
  value?_append rest _ := by
    have hlist : (quote s).toList ++ rest = '"' :: (quoteBody s ++ '"' :: rest) := by
      rw [toList_quote, List.cons_append, List.append_assoc]
      rfl
    have hlength : (quote s).toList.length = (quoteBody s).length + 2 := by
      rw [toList_quote, List.length_cons, List.length_append]
      rfl
    have hblanks : blanks ('"' :: (quoteBody s ++ '"' :: rest)) = 0 := rfl
    rw [hlist, value?, hblanks, List.drop_zero]
    show (text? (quoteBody s ++ '"' :: rest)).map _ = _
    rw [text?_quoteBody, hlength, Option.map_some]
    exact congrArg (fun k => some (JsonValue.string (some s), k)) (by omega)

/-- The digit three; nothing that ends a value goes on with a number. -/
theorem isWritten_three : IsWritten ['3'] (.number (.integer false 3)) where
  begins := rfl
  value?_append rest hrest := by
    have hnumber : number? ('3' :: rest) = some (.integer false 3, 1) := by
      rcases rest with _ | ⟨d, ds⟩
      · rfl
      · have hd := hrest d rfl
        simp only [List.mem_cons, List.not_mem_nil, or_false] at hd
        rcases hd with rfl | rfl | rfl <;> rfl
    have hblanks : blanks ('3' :: rest) = 0 := rfl
    rw [List.singleton_append, value?, hblanks, List.drop_zero]
    show (number? ('3' :: rest)).map _ = _
    rw [hnumber]
    rfl

theorem blanks_of_ends (h : c ∈ [',', ':', ']', '\x7d']) (rest : List Char) :
    blanks (c :: rest) = 0 := by
  simp only [List.mem_cons, List.not_mem_nil, or_false] at h
  rcases h with rfl | rfl | rfl | rfl <;> rfl

theorem isWritten_emptyArray : IsWritten ['[', ']'] (.array []) where
  begins := rfl
  value?_append rest _ := by
    rw [List.cons_append, List.singleton_append, value?]
    rfl

theorem IsWritten.singleton (h : IsWritten text v) : IsWritten ('[' :: (text ++ [']'])) (.array [v]) where
  begins := rfl
  value?_append rest _ := by
    have hread := h.value?_append (']' :: rest) (endsValue_cons (by simp) rest)
    have hdrop : (text ++ ']' :: rest).drop text.length = ']' :: rest := List.drop_left
    have hitems : items? (text ++ ']' :: rest) = some ([v], text.length + 1) := by
      rw [items?, hread, Option.bind_some]
      dsimp only
      rw [hdrop, blanks_of_ends (by simp), Nat.add_zero, hdrop]
      rfl
    have hblanks : blanks ('[' :: (text ++ ']' :: rest)) = 0 := rfl
    rw [List.cons_append, List.append_assoc, List.singleton_append, value?, hblanks, List.drop_zero]
    show (if _ then _ else _) = _
    rw [if_neg (h.not_closes h.ne_nil _), hitems, List.length_cons, List.length_append]
    exact congrArg (fun k => some (JsonValue.array [v], k)) (by simp; omega)

/-! ## Members -/

/-- The characters `text` are read as the members `vs` in front of a closing brace. -/
def IsMembers (text : List Char) (vs : List (Option String × JsonValue)) : Prop :=
  ∀ rest, members? (text ++ '\x7d' :: rest) = some (vs, text.length + 1)

/-- A member is read up to what separates it from the next one, or closes the object. -/
theorem members?_member (name : String) (h : IsWritten text v) (hc : c ∈ [',', '\x7d']) (rest : List Char) :
    members? ((quote name).toList ++ ':' :: (text ++ c :: rest)) =
      if c = '\x7d' then
        some ([(some name, v)], (quote name).toList.length + 1 + text.length + 1)
      else (members? rest).map fun p =>
        ((some name, v) :: p.1, (quote name).toList.length + 1 + text.length + 1 + p.2) := by
  have hends : c ∈ [',', ']', '\x7d'] := by
    rcases List.mem_pair.1 hc with rfl | rfl <;> decide
  have hread := h.value?_append (c :: rest) (endsValue_cons hends rest)
  have hlist : (quote name).toList ++ ':' :: (text ++ c :: rest) =
      '"' :: (quoteBody name ++ '"' :: ':' :: (text ++ c :: rest)) := by
    rw [toList_quote, List.cons_append, List.append_assoc]
    rfl
  have hlength : (quote name).toList.length = (quoteBody name).length + 2 := by
    rw [toList_quote, List.length_cons, List.length_append]
    rfl
  have hdrop : (quoteBody name ++ '"' :: ':' :: (text ++ c :: rest)).drop
      ((quoteBody name).length + 1) = ':' :: (text ++ c :: rest) := by
    rw [← List.drop_drop, List.drop_left]
    rfl
  have hdrop' : (text ++ c :: rest).drop text.length = c :: rest := List.drop_left
  have hblanks : blanks ('"' :: (quoteBody name ++ '"' :: ':' :: (text ++ c :: rest))) = 0 := rfl
  rw [hlist, members?, hblanks, List.drop_zero]
  show (text? (quoteBody name ++ '"' :: ':' :: (text ++ c :: rest))).bind _ = _
  rw [text?_quoteBody, Option.bind_some]
  dsimp only
  rw [hdrop, blanks_of_ends (by simp), Nat.add_zero, hdrop]
  show (value? (text ++ c :: rest)).bind _ = _
  rw [hread, Option.bind_some]
  dsimp only
  have hcblanks : blanks (c :: rest) = 0 := by
    rcases List.mem_pair.1 hc with rfl | rfl <;> rfl
  rw [hdrop', hcblanks, Nat.add_zero, hdrop', hlength]
  rcases List.mem_pair.1 hc with rfl | rfl
  · rw [if_neg (by decide)]
    show (members? rest).map _ = _
    exact congrArg (fun f => (members? rest).map f) (funext fun p => by simp; omega)
  · rw [if_pos rfl]
    exact congrArg (fun k => some ([(some name, v)], k)) (by omega)

theorem IsWritten.member (name : String) (h : IsWritten text v) :
    IsMembers ((quote name).toList ++ ':' :: text) [(some name, v)] := fun rest => by
  rw [List.append_assoc, List.cons_append, members?_member name h (by simp), if_pos rfl]
  exact congrArg (fun k => some ([(some name, v)], k)) (by simp; omega)

theorem IsMembers.cons (name : String) (h : IsWritten text v) (hmore : IsMembers more vs) :
    IsMembers ((quote name).toList ++ ':' :: (text ++ ',' :: more)) ((some name, v) :: vs) :=
  fun rest => by
    rw [List.append_assoc, List.cons_append, List.append_assoc, List.cons_append,
      members?_member name h (by simp), if_neg (by decide), hmore rest, Option.map_some]
    exact congrArg (fun k => some ((some name, v) :: vs, k)) (by simp; omega)

/-- **Objects.** An object that holds something is read as its members. -/
theorem IsMembers.isWritten (h : IsMembers text vs) (hhead : text.head? = some '"') :
    IsWritten ('\x7b' :: (text ++ ['\x7d'])) (.object vs) where
  begins := rfl
  value?_append rest _ := by
    obtain ⟨cs, rfl⟩ := List.head?_eq_some_iff.1 hhead
    have hopens : ¬ (('"' :: cs ++ '\x7d' :: rest).drop
        (blanks ('"' :: cs ++ '\x7d' :: rest))).head? = some '\x7d' := by
      rw [show blanks ('"' :: cs ++ '\x7d' :: rest) = 0 from rfl, List.drop_zero, List.cons_append,
        List.head?_cons, Option.some_inj]
      decide
    have hblanks : blanks ('\x7b' :: ('"' :: cs ++ '\x7d' :: rest)) = 0 := rfl
    rw [List.cons_append, List.append_assoc, List.singleton_append, value?, hblanks, List.drop_zero]
    show (if _ then _ else _) = _
    rw [if_neg hopens, h rest]
    exact congrArg (fun k => some (JsonValue.object vs, k)) (by simp; omega)

end JsonReader

end Polyglot
