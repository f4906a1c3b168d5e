import Polyglot.Proofs.Map.Lookup

/-!
# Mappings in order

A map holds its mappings in the order of their keys, and those with equal keys in the order in which
they came. That leaves one list only (`Arranges.unique`), so it is the same to sort all mappings at once
and to insert them one by one (`SourceMap.foldl_insert_ofList`).
-/

namespace Polyglot

variable {l l' ms : List Mapping} {a b m : Mapping} {t : SourceMap}

/-! ## Keys -/

namespace Mapping

/-- What mappings are ordered by: the start and then the end of the generated span. -/
def key (m : Mapping) : ℕ ×ₗ ℕ := toLex (m.generated.start, m.generated.stop)

theorem isBefore_iff : a.isBefore b = true ↔ a.key ≤ b.key := by
  simp [isBefore, key, Prod.Lex.le_iff]

theorem isBefore_trans (a b c : Mapping) (hab : a.isBefore b = true) (hbc : b.isBefore c = true) :
    a.isBefore c = true := by
  rw [isBefore_iff] at hab hbc ⊢
  exact hab.trans hbc

theorem isBefore_total (a b : Mapping) : (a.isBefore b || b.isBefore a) = true := by
  rw [Bool.or_eq_true, isBefore_iff, isBefore_iff]
  exact le_total a.key b.key

end Mapping

/-! ## Arrangements -/

/-- The mappings `ms` in the order of their keys; those with equal keys stay in the order that they
have in `ms`. -/
structure Arranges (ms l : List Mapping) : Prop where
  sorted : l.Pairwise fun a b => a.key ≤ b.key
  stable : ∀ k, l.filter (·.key = k) = ms.filter (·.key = k)

namespace Arranges

/-- No mapping is lost, and none is there more often. -/
theorem perm (h : Arranges ms l) : l.Perm ms := by
  refine List.perm_iff_count.2 fun m => ?_
  have hcount (l : List Mapping) : (l.filter (·.key = m.key)).count m = l.count m :=
    List.count_filter (by simp)
  rw [← hcount l, ← hcount ms, h.stable]

/-- The first mapping has the least key. -/
theorem key_le_of_mem (h : Arranges ms (a :: l)) (hb : b ∈ ms) : a.key ≤ b.key := by
  rcases List.mem_cons.1 (h.perm.mem_iff.2 hb) with rfl | hb
  · exact le_rfl
  · exact (List.pairwise_cons.1 h.sorted).1 b hb

/-- **Arrangements.** There is only one list of mappings in this order. -/
theorem unique (h : Arranges ms l) (h' : Arranges ms l') : l = l' := by
  induction l generalizing ms l' with
  | nil =>
    obtain rfl := List.nil_perm.1 h.perm
    exact (List.perm_nil.1 h'.perm).symm
  | cons a l ih =>
    rcases l' with _ | ⟨b, l'⟩
    · obtain rfl := List.nil_perm.1 h'.perm
      exact List.perm_nil.1 h.perm
    have hkey : a.key = b.key :=
      le_antisymm (h.key_le_of_mem (h'.perm.mem_iff.1 List.mem_cons_self))
        (h'.key_le_of_mem (h.perm.mem_iff.1 List.mem_cons_self))
    have hstable (k : ℕ ×ₗ ℕ) :
        (a :: l).filter (·.key = k) = (b :: l').filter (·.key = k) :=
      (h.stable k).trans (h'.stable k).symm
    -- Of the mappings with the least key, both lists begin with the first.
    obtain rfl : a = b := by
      have hfirst := hstable a.key
      rw [List.filter_cons_of_pos (by simp), List.filter_cons_of_pos (by simp [hkey])] at hfirst
      exact (List.cons.inj hfirst).1
    have htail : Arranges l' l := ⟨(List.pairwise_cons.1 h.sorted).2, fun k => ?_⟩
    · exact congrArg (a :: ·) (ih htail ⟨(List.pairwise_cons.1 h'.sorted).2, fun _ => rfl⟩)
    have htails := hstable k
    by_cases hk : a.key = k
    · rw [List.filter_cons_of_pos (by simp [hk]), List.filter_cons_of_pos (by simp [hk])] at htails
      exact (List.cons.inj htails).2
    · rwa [List.filter_cons_of_neg (by simp [hk]), List.filter_cons_of_neg (by simp [hk])] at htails

end Arranges

namespace SourceMap

theorem ext_toList {t t' : SourceMap} (h : t.toList = t'.toList) : t = t' := by
  cases t
  cases t'
  exact congrArg mk (Array.toList_inj.1 h)

/-- Sorting arranges. -/
theorem arranges_ofList (ms : List Mapping) : Arranges ms (ofList ms).toList := by
  constructor
  case sorted =>
    exact (List.pairwise_mergeSort Mapping.isBefore_trans Mapping.isBefore_total ms).imp
      fun hab => Mapping.isBefore_iff.1 hab
  case stable =>
    intro k
    -- The mappings with one key are sorted as they stand, so they stay a sublist.
    have hequal : (ms.filter (·.key = k)).Pairwise fun a b => a.isBefore b = true := by
      refine List.pairwise_of_forall_mem_list fun a ha b hb => Mapping.isBefore_iff.2 ?_
      have ha : a.key = k := by simpa using (List.mem_filter.1 ha).2
      have hb : b.key = k := by simpa using (List.mem_filter.1 hb).2
      rw [ha, hb]
    have hsublist := (List.sublist_mergeSort Mapping.isBefore_trans Mapping.isBefore_total hequal
      List.filter_sublist).filter (·.key = k)
    rw [List.filter_filter] at hsublist
    simp only [Bool.and_self] at hsublist
    have hperm := (List.mergeSort_perm ms Mapping.isBefore).filter (·.key = k)
    exact (hsublist.eq_of_length hperm.length_eq.symm).symm

/-- A mapping comes behind all that are not after it. -/
theorem toList_insert (h : t.toList.Pairwise fun a b => a.key ≤ b.key) (m : Mapping) :
    ∃ front back, t.toList = front ++ back ∧ (t.insert m).toList = front ++ m :: back ∧
      (∀ a ∈ front, a.key ≤ m.key) ∧ ∀ b ∈ back, m.key < b.key := by
  let notAfter (a : Mapping) : Bool := a.isBefore m
  have hnotAfter : t.toList.Pairwise fun a b => notAfter b = true → notAfter a = true :=
    h.imp fun hab hb => Mapping.isBefore_iff.2 (hab.trans (Mapping.isBefore_iff.1 hb))
  obtain ⟨front, back, hsplit, hfront, hback⟩ : ∃ front back, t.toList = front ++ back ∧
      (∀ a ∈ front, notAfter a = true) ∧ ∀ b ∈ back, notAfter b = false :=
    ⟨_, _, List.takeWhile_append_dropWhile.symm, fun a ha => List.mem_takeWhile_imp ha,
      eq_false_of_mem_dropWhile hnotAfter⟩
  have hplace : partitionPoint notAfter t.mappings 0 t.mappings.size = front.length :=
    partitionPoint_of_split hsplit hfront hback
  refine ⟨front, back, hsplit, ?_, fun a ha => Mapping.isBefore_iff.1 (hfront a ha), fun b hb => ?_⟩
  · have hmappings : t.mappings = (front ++ back).toArray := Array.toList_inj.1 hsplit
    show (((t.mappings.extract 0 (partitionPoint notAfter t.mappings 0 t.mappings.size)).push m ++
      t.mappings.extract (partitionPoint notAfter t.mappings 0 t.mappings.size)
        t.mappings.size)).toList = _
    rw [hplace, hmappings]
    simp
  · refine lt_of_not_ge fun hle => ?_
    have hfalse := hback b hb
    rw [show notAfter b = true from Mapping.isBefore_iff.2 hle] at hfalse
    cases hfalse

/-- Inserting arranges: a mapping comes behind those with its own key. -/
theorem arranges_insert (h : Arranges ms t.toList) (m : Mapping) :
    Arranges (ms ++ [m]) (t.insert m).toList := by
  obtain ⟨front, back, hsplit, hinsert, hfront, hback⟩ := toList_insert h.sorted m
  have hsorted := h.sorted
  have hstable := h.stable
  rw [hsplit] at hsorted hstable
  rw [hinsert]
  obtain ⟨hfronts, hbacks, hacross⟩ := List.pairwise_append.1 hsorted
  constructor
  case sorted =>
    refine List.pairwise_append.2 ⟨hfronts, List.pairwise_cons.2
      ⟨fun b hb => (hback b hb).le, hbacks⟩, fun a ha b hb => ?_⟩
    rcases List.mem_cons.1 hb with rfl | hb
    · exact hfront a ha
    · exact hacross a ha b hb
  case stable =>
    intro k
    rw [List.filter_append, List.filter_append, ← hstable k, List.filter_append, List.append_assoc]
    refine congrArg _ ?_
    by_cases hk : m.key = k
    · -- Behind the new mapping no key is equal to its own.
      have hnil : back.filter (·.key = k) = [] := List.filter_eq_nil_iff.2 fun b hb => by
        simpa [← hk] using (hback b hb).ne'
      rw [List.filter_cons_of_pos (by simpa using hk), hnil, List.nil_append,
        List.filter_cons_of_pos (by simpa using hk), List.filter_nil]
    · rw [List.filter_cons_of_neg (by simpa using hk), List.filter_cons_of_neg (by simpa using hk),
        List.filter_nil, List.append_nil]

/-- Mappings can come one by one. -/
theorem arranges_foldl (h : Arranges ms t.toList) (ns : List Mapping) :
    Arranges (ms ++ ns) (ns.foldl insert t).toList := by
  induction ns generalizing ms t with
  | nil => rwa [List.append_nil]
  | cons m ns ih =>
    rw [List.append_cons]
    exact ih (arranges_insert h m)

/-- **Building a map.** Mappings that are inserted one by one end up where sorting puts them: in the order
of their keys, and with equal keys in the order in which they came. -/
theorem foldl_insert_ofList (xs ys : List Mapping) :
    ys.foldl insert (ofList xs) = ofList (xs ++ ys) ∧
      (ofList (xs ++ ys)).toList.Pairwise (fun a b => a.key ≤ b.key) ∧
      (ofList (xs ++ ys)).toList.Perm (xs ++ ys) ∧
      ∀ k, (ofList (xs ++ ys)).toList.filter (·.key = k) = (xs ++ ys).filter (·.key = k) := by
  have hsorted := arranges_ofList (xs ++ ys)
  have hinserted := arranges_foldl (arranges_ofList xs) ys
  exact ⟨ext_toList (hinserted.unique hsorted), hsorted.sorted, hsorted.perm, hsorted.stable⟩

end SourceMap

end Polyglot
