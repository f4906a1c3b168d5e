import Mathlib.Algebra.Order.Group.Multiset
import Polyglot.Proofs.Data.Nodes

/-!
# Repeated keys

The errors about repeated keys are those that the tree itself shows: there is one for each key that equals
an earlier one of its mapping, at the span of the later key (`Document.ofText_duplicateKeys`). A mapping is
read with the keys so far, and its pairs are put together with them, so the count goes along the pairs.
-/

namespace Polyglot.Data

open Text

variable {s : String} {seen : List String} {ks : List Scalar} {errors : List Error}

/-! ## Repeated keys of a mapping -/

/-- The keys of a mapping in order. -/
def Tree.keys : Tree → List Scalar
  | .mapping _ _ pairs => pairs.map (·.1)
  | _ => []

/-- The keys with an equal one in front of them. -/
def repeated (keys : List Scalar) : List Scalar :=
  (keys.zipIdx.filter fun k => (keys.take k.2).any fun earlier => earlier.key == k.1.key).map (·.1)

/-- The keys that are in `seen` or have an equal one in front of them. -/
def repeatedBehind (seen : List String) : List Scalar → List Scalar
  | [] => []
  | key :: rest =>
    (if seen.contains key.key then [key] else []) ++ repeatedBehind (key.key :: seen) rest

theorem repeatedBehind_eq (before keys : List Scalar) :
    repeatedBehind (before.map Scalar.key).reverse keys =
      ((keys.zipIdx before.length).filter fun k =>
        ((before ++ keys).take k.2).any fun earlier => earlier.key == k.1.key).map (·.1) := by
  induction keys generalizing before with
  | nil => rfl
  | cons key rest ih =>
    have hseen : (before.map Scalar.key).reverse.contains key.key =
        before.any fun earlier => earlier.key == key.key := by
      rw [Bool.eq_iff_iff, List.contains_iff_mem, List.mem_reverse, List.mem_map, List.any_eq_true]
      simp only [beq_iff_eq]
    have hrest := ih (before ++ [key])
    rw [List.map_append, List.reverse_append, List.append_assoc, List.length_append] at hrest
    rw [repeatedBehind, List.zipIdx_cons, List.filter_cons, List.take_left, hseen]
    change repeatedBehind (key.key :: (before.map Scalar.key).reverse) rest = _ at hrest
    rw [hrest]
    split_ifs <;> rfl

theorem repeated_eq (keys : List Scalar) : repeated keys = repeatedBehind [] keys :=
  (repeatedBehind_eq [] keys).symm

theorem nodup_of_repeatedBehind (h : repeatedBehind seen ks = []) :
    (ks.map Scalar.key).Nodup ∧ ∀ k ∈ ks, k.key ∉ seen := by
  induction ks generalizing seen with
  | nil => exact ⟨List.nodup_nil, nofun⟩
  | cons key rest ih =>
    rw [repeatedBehind, List.append_eq_nil_iff] at h
    obtain ⟨hkey, hrest⟩ := h
    have hnew : key.key ∉ seen := by
      intro hmem
      rw [if_pos (List.contains_iff_mem.2 hmem)] at hkey
      cases hkey
    obtain ⟨hnodup, hout⟩ := ih hrest
    refine ⟨?_, List.forall_mem_cons.2 ⟨hnew, fun k hk hmem => hout k hk (List.mem_cons_of_mem _ hmem)⟩⟩
    rw [List.map_cons, List.nodup_cons, List.mem_map]
    refine ⟨?_, hnodup⟩
    rintro ⟨k, hk, heq⟩
    exact hout k hk (heq ▸ List.mem_cons_self)

/-- Without repeated keys all keys differ. -/
theorem nodup_of_repeated (h : repeated ks = []) : (ks.map Scalar.key).Nodup :=
  (nodup_of_repeatedBehind (repeated_eq ks ▸ h)).1

/-! ## Errors about them -/

/-- The repeated keys of all mappings among the nodes. -/
def repeatedOf (nodes : List Tree) : List Scalar := nodes.flatMap fun n => repeated n.keys

theorem repeatedOf_append (nodes more : List Tree) :
    repeatedOf (nodes ++ more) = repeatedOf nodes ++ repeatedOf more := List.flatMap_append

theorem repeatedOf_scalar (x : Scalar) (nodes : List Tree) :
    repeatedOf (.scalar x :: nodes) = repeatedOf nodes := rfl

/-- Where the errors about repeated keys are. -/
def duplicateSpans (errors : List Error) : List Span :=
  (errors.filter fun e => e.fault == .duplicateKey).map (·.span)

theorem duplicateSpans_append (errors more : List Error) :
    duplicateSpans (errors ++ more) = duplicateSpans errors ++ duplicateSpans more := by
  rw [duplicateSpans, List.filter_append, List.map_append, ← duplicateSpans, ← duplicateSpans]

theorem ArePlain.duplicateSpans (h : ArePlain errors) : duplicateSpans errors = [] := by
  rw [Data.duplicateSpans, List.map_eq_nil_iff, List.filter_eq_nil_iff]
  exact fun e he => by simpa using h e he

theorem duplicateSpans_cons_of_ne {fault : Fault} {r : Span} (h : fault ≠ .duplicateKey) :
    duplicateSpans (⟨fault, r⟩ :: errors) = duplicateSpans errors := by
  rw [← List.singleton_append, duplicateSpans_append, (arePlain_singleton h).duplicateSpans,
    List.nil_append]

theorem duplicateSpans_duplicateErrors (seen : List String) (key : Scalar) :
    duplicateSpans (duplicateErrors seen key) =
      (if seen.contains key.key then [key] else []).map Scalar.span := by
  unfold duplicateErrors
  split_ifs <;> rfl

mutual

/-- **Repeated keys.** -/
theorem Tree.Assembled.duplicateSpans : ∀ {t : Tree} {errors : List Error}, t.Assembled s errors →
    (duplicateSpans errors : Multiset Span) = (repeatedOf t.nodes).map Scalar.span
  | _, _, .scalar _ hplain => by
    rw [hplain.duplicateSpans]
    rfl
  | _, _, .mapping hpairs => by
    rw [hpairs.duplicateSpans, Tree.nodes, ← repeated_eq]
    rfl
  | _, _, .sequence hitems => by
    rw [hitems.duplicateSpans, Tree.nodes]
    rfl
  | _, _, .trailing ht hplain => by
    rw [duplicateSpans_append, hplain.duplicateSpans, List.append_nil, ht.duplicateSpans]

theorem PairsAssembled.duplicateSpans : ∀ {seen : List String} {pairs : List (Scalar × Tree)}
    {errors : List Error}, PairsAssembled s seen pairs errors →
    (duplicateSpans errors : Multiset Span) =
      (repeatedBehind seen (pairs.map (·.1)) ++ repeatedOf (nodesOfPairs pairs)).map Scalar.span
  | _, _, _, .nil hplain => by
    rw [hplain.duplicateSpans]
    rfl
  | _, _, _, .error hfault hpairs => by
    rw [duplicateSpans_cons_of_ne hfault, hpairs.duplicateSpans]
  | _, _, _, .cons _ hkeyErrors hvalue hafter hpairs => by
    -- The errors of the value come first, the repeated keys of the mapping itself do in its tree.
    rw [duplicateSpans_append, duplicateSpans_append, duplicateSpans_append, duplicateSpans_append,
      hkeyErrors.duplicateSpans, hafter.duplicateSpans, List.nil_append, List.append_nil,
      duplicateSpans_duplicateErrors, List.map_cons, repeatedBehind, nodesOfPairs, repeatedOf_scalar,
      repeatedOf_append]
    simp only [List.map_append, ← Multiset.coe_add]
    rw [hvalue.duplicateSpans, hpairs.duplicateSpans, List.map_append, ← Multiset.coe_add]
    abel

theorem ItemsAssembled.duplicateSpans : ∀ {items : List Tree} {errors : List Error},
    ItemsAssembled s items errors →
    (duplicateSpans errors : Multiset Span) = (repeatedOf (nodesOfItems items)).map Scalar.span
  | _, _, .nil hplain => by
    rw [hplain.duplicateSpans]
    rfl
  | _, _, .error hfault hitems => by
    rw [duplicateSpans_cons_of_ne hfault, hitems.duplicateSpans]
  | _, _, .cons hitem hafter hitems => by
    rw [duplicateSpans_append, duplicateSpans_append, hafter.duplicateSpans, List.append_nil,
      nodesOfItems, repeatedOf_append, List.map_append, ← Multiset.coe_add, ← Multiset.coe_add,
      hitem.duplicateSpans, hitems.duplicateSpans]

end

/-! ## Documents -/

/-- The nodes of a document, if it has any content. -/
def Document.nodes (d : Document) : List Tree := d.root.elim [] Tree.nodes

/-- **Duplicate keys.** The errors about repeated keys stand where the repeated keys of the tree stand, each
as often; so in a document without errors the keys of every mapping differ. -/
theorem Document.ofText_duplicateKeys {d : Document} (h : Document.ofText s = .ok d) :
    (duplicateSpans d.errors).Perm ((repeatedOf d.nodes).map Scalar.span) ∧
      (d.isValid = true → ∀ n ∈ d.nodes, (n.keys.map Scalar.key).Nodup) := by
  have hperm : (duplicateSpans d.errors).Perm ((repeatedOf d.nodes).map Scalar.span) := by
    obtain ⟨before, errors, after, herrors, hbefore, hafter, hroot⟩ := ofText_assembled h
    rw [herrors, duplicateSpans_append, duplicateSpans_append, hbefore.duplicateSpans,
      hafter.duplicateSpans, List.nil_append, List.append_nil, nodes]
    rcases hroot with ⟨hnone, rfl⟩ | ⟨root, hroot, hassembled⟩
    · rw [hnone]
      rfl
    · rw [hroot]
      exact Multiset.coe_eq_coe.1 hassembled.duplicateSpans
  refine ⟨hperm, fun hvalid n hn => nodup_of_repeated ?_⟩
  rw [List.isEmpty_iff.1 hvalid] at hperm
  have hnone := List.map_eq_nil_iff.1 (List.nil_perm.1 hperm)
  exact List.flatMap_eq_nil_iff.1 hnone n hn

/-- Keys repeat in three mappings; the last `b` stands in another one than the first two. -/
def repeatedInside : String := "a: \x7b\"b\": 1, b: \x7bc: 2, c: 3\x7d\x7d\na: 4\nb: 5\n"

theorem Document.ofText_duplicateKeys_repeatedInside :
    (∃ d, Document.ofText repeatedInside = .ok d ∧ (duplicateSpans d.errors).length = 3 ∧
      (duplicateSpans d.errors).Perm ((repeatedOf d.nodes).map Scalar.span)) ∧
    ∃ d, Document.ofText "a: [\x7bb: 1\x7d]\nb: 2" = .ok d ∧ d.isValid = true ∧
      ∀ n ∈ d.nodes, (n.keys.map Scalar.key).Nodup := by
  have hrepeated : ((Document.ofText repeatedInside).toOption.any fun d =>
      (duplicateSpans d.errors).length == 3) = true := by
    decide +kernel
  have hunique : (Document.ofText "a: [\x7bb: 1\x7d]\nb: 2").toOption.any Document.isValid = true := by
    decide +kernel
  obtain ⟨d, hd, hlength⟩ := exists_of_any_toOption hrepeated
  obtain ⟨e, he, hvalid⟩ := exists_of_any_toOption hunique
  exact ⟨⟨d, hd, beq_iff_eq.1 hlength, (ofText_duplicateKeys hd).1⟩,
    e, he, hvalid, (ofText_duplicateKeys he).2 hvalid⟩

end Polyglot.Data
