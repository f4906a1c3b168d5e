import Polyglot.Proofs.Map.Lookup
import Polyglot.Proofs.Map.Repair

/-!
# The order of generated spans

The mappings of a generated text are laid out when their spans lie in the text one behind the other.
Sorting leaves such a list as it is (`LaidOut.toList_ofList`). Repaired mappings are laid out: runs
come in the order of their segments, joins only close seams, and the catch-all begins behind all
copied code (`mappings_laidOut`).
-/

namespace Polyglot

open Text

/-- The generated spans lie in a text of `size` bytes, each behind the one before. -/
structure LaidOut (ms : List Mapping) (size : ℕ) : Prop where
  bounds : ∀ m ∈ ms, m.generated.start ≤ m.generated.stop ∧ m.generated.stop ≤ size
  apart : ms.Pairwise fun a b => a.generated.stop ≤ b.generated.start

namespace LaidOut

variable {ms ns : List Mapping} {m : Mapping} {n size : ℕ}

theorem nil (size : ℕ) : LaidOut [] size :=
  ⟨fun _ hm => absurd hm List.not_mem_nil, List.Pairwise.nil⟩

theorem singleton (hm : m.generated.start ≤ m.generated.stop) (hstop : m.generated.stop ≤ size) :
    LaidOut [m] size := by
  refine ⟨fun n hn => ?_, List.pairwise_singleton _ m⟩
  obtain rfl := List.mem_singleton.1 hn
  exact ⟨hm, hstop⟩

theorem mono (h : LaidOut ms n) (hle : n ≤ size) : LaidOut ms size :=
  ⟨fun m hm => ⟨(h.bounds m hm).1, (h.bounds m hm).2.trans hle⟩, h.apart⟩

/-- Spans that lie behind all others can be added. -/
theorem append (h : LaidOut ms size) (hns : LaidOut ns size)
    (hbehind : ∀ a ∈ ms, ∀ b ∈ ns, a.generated.stop ≤ b.generated.start) :
    LaidOut (ms ++ ns) size := by
  constructor
  case bounds =>
    intro m hm
    rcases List.mem_append.1 hm with hm | hm
    · exact h.bounds m hm
    · exact hns.bounds m hm
  case apart => exact List.pairwise_append.2 ⟨h.apart, hns.apart, hbehind⟩

theorem ascend (h : LaidOut ms size) : Mapping.Ascend ms :=
  (List.Pairwise.and_mem.1 h.apart).imp fun {a b} ⟨ha, hb, hab⟩ =>
    ⟨(h.bounds a ha).1.trans hab, hab.trans (h.bounds b hb).1⟩

/-- **Sorting.** Laid out mappings are in order. -/
theorem toList_ofList (h : LaidOut ms size) : (SourceMap.ofList ms).toList = ms := by
  have hsorted : ms.Pairwise fun a b => Mapping.isBefore a b = true :=
    h.ascend.imp fun {a b} ⟨hstart, hstop⟩ => by
      unfold Mapping.isBefore
      rcases Nat.lt_or_eq_of_le hstart with hlt | heq
      · simp [hlt]
      · simp [heq, hstop]
  unfold SourceMap.ofList SourceMap.toList
  rw [List.mergeSort_of_pairwise hsorted]

end LaidOut

namespace Script

variable {start i j : ℕ} {s : Scan} {cs : List Char}

/-- A statement is found where the search begins or later, and within the text. -/
theorem statementFrom?_bounds (h : statementFrom? start s i cs = some j) :
    start ≤ j ∧ j < i + size (String.ofList cs) := by
  fun_induction statementFrom? start s i cs
  case case1 | case8 => cases h
  case case11 =>
    rename_i d rest hcode hfound
    obtain rfl := Option.some.inj h
    simp only [Bool.and_eq_true, decide_eq_true_eq] at hfound
    have hpos := d.utf8Size_pos
    rw [size_ofList_cons]
    omega
  case case4 | case9 | case12 | case13 =>
    rename_i ih
    obtain ⟨hstart, hstop⟩ := ih h
    refine ⟨hstart, ?_⟩
    rw [size_ofList_cons, size_ofList_cons, ← Nat.add_assoc, ← Nat.add_assoc]
    exact hstop
  all_goals
    rename_i ih
    obtain ⟨hstart, hstop⟩ := ih h
    refine ⟨hstart, ?_⟩
    rw [size_ofList_cons, ← Nat.add_assoc]
    exact hstop

theorem trailingStatement?_bounds {code : String} (h : trailingStatement? code start = some j) :
    start ≤ j ∧ j < size code := by
  have hbounds := statementFrom?_bounds h
  rwa [String.ofList_toList, Nat.zero_add] at hbounds

end Script

namespace Repair

variable {text generated : String} {segments : List Segment} {unit : ColumnUnit}
  {markup : Markup.Document} {ms : List Mapping} {last m : Mapping} {here : Located}
  {l : List Located}

/-! ## Segments and runs -/

/-- Segments that can be used come in the order of the generated text. -/
theorem locate_pairwise {f : Segment → Located} {index previous : ℕ}
    (h : locate f index previous segments = .ok l) :
    (∀ a ∈ l, previous ≤ a.generated) ∧ l.Pairwise fun a b => a.generated ≤ b.generated := by
  induction segments generalizing index previous l with
  | nil =>
    obtain rfl := Except.ok.inj h
    exact ⟨fun _ ha => absurd ha List.not_mem_nil, List.Pairwise.nil⟩
  | cons segment rest ih =>
    unfold locate at h
    dsimp only at h
    split_ifs at h with hlt
    rcases hrest : locate f (index + 1) (f segment).generated rest with e | located
    · rw [hrest] at h
      cases h
    · rw [hrest] at h
      obtain rfl := Except.ok.inj h
      obtain ⟨hle, hpairwise⟩ := ih hrest
      refine ⟨fun a ha => ?_, List.pairwise_cons.2 ⟨hle, hpairwise⟩⟩
      rcases List.mem_cons.1 ha with rfl | ha
      · omega
      · have := hle a ha
        omega

/-- A run is mapped no further than to the next segment. -/
theorem bounds_of_run? {next : Located} (h : run? text generated markup here next = some m) :
    m.generated.start = here.generated ∧ m.generated.stop ≤ next.generated := by
  obtain ⟨source, -, hne, rfl⟩ := run?_eq_some_iff.1 h
  have hle := (isGreatest_copyLength text source generated here.generated
    (next.generated - here.generated)).1.1
  refine ⟨rfl, ?_⟩
  simp only [Mapping.verbatim, Span.withLength]
  omega

/-- Runs come in the order of their segments. -/
theorem runs_pairwise (h : (here :: l).Pairwise fun a b => a.generated ≤ b.generated) :
    (∀ m ∈ runs text generated markup (here :: l), here.generated ≤ m.generated.start) ∧
      (runs text generated markup (here :: l)).Pairwise fun a b =>
        a.generated.stop ≤ b.generated.start := by
  induction l generalizing here with
  | nil => exact ⟨fun _ hm => absurd hm List.not_mem_nil, List.Pairwise.nil⟩
  | cons next rest ih =>
    obtain ⟨hle, hrest⟩ := List.pairwise_cons.1 h
    obtain ⟨hstarts, hpairwise⟩ := ih hrest
    have hnext := hle next List.mem_cons_self
    rw [runs]
    rcases hrun : run? text generated markup here next with _ | m
    · rw [Option.toList_none, List.nil_append]
      exact ⟨fun m hm => hnext.trans (hstarts m hm), hpairwise⟩
    · obtain ⟨hstart, hstop⟩ := bounds_of_run? hrun
      rw [Option.toList_some, List.singleton_append]
      refine ⟨fun n hn => ?_, List.pairwise_cons.2
        ⟨fun n hn => hstop.trans (hstarts n hn), hpairwise⟩⟩
      rcases List.mem_cons.1 hn with rfl | hn
      · exact hstart.ge
      · exact hnext.trans (hstarts n hn)

/-! ## Joins -/

/-- A join reaches no further than the two that are joined. -/
theorem coalesceFrom_pairwise
    (h : (last :: ms).Pairwise fun a b => a.generated.stop ≤ b.generated.start) :
    (coalesceFrom last ms).Pairwise fun a b => a.generated.stop ≤ b.generated.start := by
  induction ms generalizing last with
  | nil => exact List.pairwise_singleton _ last
  | cons n ms ih =>
    obtain ⟨hlast, hrest⟩ := List.pairwise_cons.1 h
    rw [coalesceFrom_cons]
    split_ifs
    · obtain ⟨hn, hms⟩ := List.pairwise_cons.1 hrest
      exact ih (List.pairwise_cons.2 ⟨hn, hms⟩)
    · refine List.pairwise_cons.2 ⟨?_, ih hrest⟩
      exact forall_coalesceFrom (fun a b ha _ _ => ha) (hlast n List.mem_cons_self)
        fun m hm => hlast m (List.mem_cons_of_mem n hm)

theorem coalesce_pairwise (h : ms.Pairwise fun a b => a.generated.stop ≤ b.generated.start) :
    (coalesce ms).Pairwise fun a b => a.generated.stop ≤ b.generated.start := by
  rcases ms with _ | ⟨n, ms⟩
  · exact h
  · exact coalesceFrom_pairwise h

theorem copies_of_mem_copied (hm : m ∈ copied text generated segments unit markup) :
    m.Copies text generated :=
  forall_coalesce (fun _ _ ha hb => Copies.join ha hb) copies_of_mem_runs m hm

theorem copied_laidOut (h : mappings text generated segments unit markup = .ok ms) :
    LaidOut (copied text generated segments unit markup) (size generated) := by
  constructor
  case bounds =>
    intro m hm
    have hcopies := copies_of_mem_copied hm
    have hpos := hcopies.length_pos
    unfold Span.length at hpos
    exact ⟨by omega, hcopies.generated_le⟩
  case apart =>
    apply coalesce_pairwise
    unfold mappings at h
    split_ifs at h with hempty
    · rw [runs_eq_nil hempty]
      exact List.Pairwise.nil
    · rcases hl : locate (place text generated unit) 0 0 segments with e | located
      · rw [hl] at h
        cases h
      · rw [← locate_eq_map hl]
        rcases located with _ | ⟨here, rest⟩
        · exact List.Pairwise.nil
        · exact (runs_pairwise (locate_pairwise hl).2).2

/-! ## The catch-all -/

/-- The catch-all stands for the whole source and begins behind all copied code. -/
theorem catchAll?_bounds {copies : List Mapping} (hcopies : LaidOut copies (size generated))
    (h : catchAll? text generated copies = some m) :
    m.source = ⟨0, size text⟩ ∧ m.capabilities = catchAllCapabilities ∧
      (∀ a ∈ copies, a.generated.stop ≤ m.generated.start) ∧
      m.generated.start < m.generated.stop ∧ m.generated.stop = size generated := by
  obtain ⟨start, hstart, rfl⟩ := Option.map_eq_some_iff.1 h
  obtain ⟨hcovered, hlt⟩ := Script.trailingStatement?_bounds hstart
  refine ⟨rfl, rfl, fun a ha => ?_, hlt, rfl⟩
  refine le_trans ?_ hcovered
  rcases List.eq_nil_or_concat' copies with rfl | ⟨front, last, rfl⟩
  · exact absurd ha List.not_mem_nil
  · rw [List.getLast?_concat, Option.map_some, Option.getD_some]
    rcases List.mem_append.1 ha with hfront | hlast
    · have hapart := (List.pairwise_append.1 hcopies.apart).2.2 a hfront last
        (List.mem_singleton_self last)
      exact hapart.trans (hcopies.bounds last (List.mem_append_right front
        (List.mem_singleton_self last))).1
    · rw [List.mem_singleton.1 hlast]

/-- **Order.** Repaired mappings are laid out in the generated text. -/
theorem mappings_laidOut (h : mappings text generated segments unit markup = .ok ms) :
    LaidOut ms (size generated) := by
  have hcopied := copied_laidOut h
  rw [mappings_eq h]
  rcases hcatch : catchAll? text generated (copied text generated segments unit markup) with _ | m
  · rw [Option.toList_none, List.append_nil]
    exact hcopied
  · obtain ⟨-, -, hbehind, hlt, hstop⟩ := catchAll?_bounds hcopied hcatch
    rw [Option.toList_some]
    refine hcopied.append (.singleton hlt.le hstop.le) fun a ha b hb => ?_
    rw [List.mem_singleton.1 hb]
    exact hbehind a ha

end Repair

end Polyglot
