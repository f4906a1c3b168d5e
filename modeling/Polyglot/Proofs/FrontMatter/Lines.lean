import Polyglot.Proofs.FrontMatter
import Polyglot.Proofs.Text.Places

/-!
# Fences by lines

The opening fence stands at the first character that is no White_Space, and the closing one behind the
first later feed that a fence follows (`scan_eq_closed_iff`). Blanking changes the bytes of the fences and
nothing else, so lines and places in the block are those of the document (`fences`).
-/

namespace Polyglot

open Text

namespace FrontMatter

variable {s block : String} {f : FrontMatter} {r : Span} {cs : List Char} {start stop i n : ℕ}

/-! ## Fences -/

/-- Three dashes stand at offset `i`, and behind them an ASCII blank or the end of the text. -/
def FenceAt (s : String) (i : ℕ) : Prop :=
  (∀ k < fenceLength, octet? s (i + k) = some '-') ∧
    ∀ c ∈ octet? s (i + fenceLength), isAsciiBlank c = true

/-- A fence stands at offset `i`, right behind a feed that comes after the opening fence at `start`. -/
def ClosesAt (s : String) (start i : ℕ) : Prop :=
  FenceAt s i ∧ ∃ n, start + fenceLength ≤ n ∧ octet? s n = some '\n' ∧ i = n + 1

/-- The first character that is no White_Space begins at `start`. -/
def FirstSolid (s : String) (start : ℕ) : Prop :=
  ∃ a c b, s = a ++ String.singleton c ++ b ∧ size a = start ∧
    (∀ d ∈ a.toList, isWhite d = true) ∧ isWhite c = false

theorem beginsFence_iff_getElem? : beginsFence cs = true ↔
    (∀ k < fenceLength, cs[k]? = some '-') ∧ ∀ c ∈ cs[fenceLength]?, isAsciiBlank c = true := by
  constructor
  · intro h
    obtain ⟨rest, rfl⟩ := beginsFence_iff h
    refine ⟨fun k hk => ?_, fun c hc => ?_⟩
    · have hdashes : ∀ k < 3, ['-', '-', '-'][k]? = some '-' := by decide
      rw [List.getElem?_append_left hk, hdashes k hk]
    · have hall : rest.head?.all isAsciiBlank = true := h
      have hhead : rest.head? = some c := List.head?_eq_getElem?.trans hc
      rwa [hhead] at hall
  · rintro ⟨hdashes, hblank⟩
    have hprefix : ['-', '-', '-'] <+: cs := by
      refine List.prefix_iff_getElem?.2 fun k hk => (hdashes k hk).trans ?_
      have hall : ∀ k (h : k < ['-', '-', '-'].length), some '-' = some ['-', '-', '-'][k] := by decide
      exact hall k hk
    obtain ⟨rest, rfl⟩ := hprefix
    have hhead : (['-', '-', '-'] ++ rest)[fenceLength]? = rest.head? :=
      List.head?_eq_getElem?.symm
    rw [hhead] at hblank
    exact (Option.all_eq_true _ _).2 hblank

theorem beginsFence_drop_iff : beginsFence ((octets s).drop i) = true ↔ FenceAt s i := by
  rw [beginsFence_iff_getElem?]
  simp only [List.getElem?_drop, FenceAt, octet?_eq_octets]

/-! ## The opening fence -/

theorem foldl_utf8Size (cs : List Char) (n : ℕ) :
    cs.foldl (fun n c => n + c.utf8Size) n = n + size (String.ofList cs) := by
  induction cs generalizing n with
  | nil => rfl
  | cons c cs ih => rw [List.foldl_cons, ih, size_ofList_cons, Nat.add_assoc]

theorem leadingWhite_eq (s : String) :
    leadingWhite s = size (String.ofList (s.toList.takeWhile isWhite)) := by
  unfold leadingWhite
  rw [foldl_utf8Size, Nat.zero_add]

theorem FirstSolid.leadingWhite (h : FirstSolid s start) : leadingWhite s = start := by
  obtain ⟨a, c, b, rfl, rfl, hwhite, hc⟩ := h
  have hlist : (a ++ String.singleton c ++ b).toList = a.toList ++ c :: b.toList := by simp
  rw [leadingWhite_eq, hlist, List.takeWhile_append_of_pos hwhite,
    List.takeWhile_cons_of_neg (by simp [hc]), List.append_nil, String.ofList_toList]

/-- A text with a character that is no White_Space has a first one. -/
theorem firstSolid_leadingWhite {c : Char} (hc : c ∈ s.toList) (hsolid : isWhite c = false) :
    FirstSolid s (leadingWhite s) := by
  have hsplit := List.takeWhile_append_dropWhile (p := isWhite) (l := s.toList)
  have hhead := List.head?_dropWhile_not isWhite s.toList
  rcases hrest : s.toList.dropWhile isWhite with _ | ⟨d, ds⟩
  · rw [List.dropWhile_eq_nil_iff] at hrest
    exact absurd (hrest c hc) (by simp [hsolid])
  · rw [hrest] at hsplit hhead
    refine ⟨String.ofList (s.toList.takeWhile isWhite), d, String.ofList ds, ?_,
      (leadingWhite_eq s).symm, fun e he => ?_, hhead⟩
    · rw [String.append_assoc, ← String.ofList_cons, ← String.ofList_append, hsplit,
        String.ofList_toList]
    · rw [String.toList_ofList] at he
      exact List.mem_takeWhile_imp he

/-- Behind all characters there is no fence. -/
theorem not_fenceAt_leadingWhite (h : ∀ c ∈ s.toList, isWhite c = true) :
    ¬ FenceAt s (leadingWhite s) := by
  intro hfence
  have hlt := lt_size_of_octet? (hfence.1 0 (by decide))
  rw [leadingWhite_eq, List.takeWhile_eq_self_iff.2 h, String.ofList_toList] at hlt
  exact lt_irrefl _ hlt

theorem FirstSolid.of_fenceAt (h : FenceAt s (Text.leadingWhite s)) :
    FirstSolid s (Text.leadingWhite s) := by
  by_contra hnone
  refine not_fenceAt_leadingWhite (fun c hc => ?_) h
  by_contra hsolid
  exact hnone (firstSolid_leadingWhite hc (Bool.eq_false_of_not_eq_true hsolid))

/-! ## The closing fence -/

/-- Octet `n` is a feed, and the octets behind it begin with a fence. -/
def ClosesBehind (cs : List Char) (n : ℕ) : Prop :=
  cs[n]? = some '\n' ∧ beginsFence (cs.drop (n + 1)) = true

theorem closingFence?_eq_none_iff : closingFence? cs i = none ↔ ∀ n, ¬ ClosesBehind cs n := by
  induction cs generalizing i with
  | nil => simp [closingFence?, ClosesBehind]
  | cons c cs ih =>
    rw [closingFence?]
    split_ifs with hc
    · rw [Bool.and_eq_true, decide_eq_true_eq] at hc
      exact iff_of_false not_false fun h => h 0 ⟨congrArg some hc.1, hc.2⟩
    · rw [ih]
      constructor
      · rintro h (_ | n) hn
        · refine hc ?_
          rw [Bool.and_eq_true, decide_eq_true_eq]
          exact ⟨Option.some.inj hn.1, hn.2⟩
        · exact h n hn
      · exact fun h n => h (n + 1)

/-- The fence that is found is the first one behind a feed. -/
theorem exists_isLeast_of_closingFence? (h : closingFence? cs i = some stop) :
    ∃ n, stop = i + n + 1 + fenceLength ∧ IsLeast {n | ClosesBehind cs n} n := by
  induction cs generalizing i with
  | nil => cases h
  | cons c cs ih =>
    rw [closingFence?] at h
    split_ifs at h with hc
    · rw [Bool.and_eq_true, decide_eq_true_eq] at hc
      exact ⟨0, (Option.some.inj h).symm, ⟨congrArg some hc.1, hc.2⟩, fun n _ => Nat.zero_le n⟩
    · rw [Bool.and_eq_true, decide_eq_true_eq] at hc
      obtain ⟨n, rfl, hn, hleast⟩ := ih h
      refine ⟨n + 1, by omega, hn, ?_⟩
      rintro (_ | m) hm
      · exact absurd ⟨Option.some.inj hm.1, hm.2⟩ hc
      · exact Nat.succ_le_succ (hleast hm)

theorem closesAt_iff : ClosesAt s start i ↔
    ∃ n, i = start + fenceLength + n + 1 ∧ ClosesBehind ((octets s).drop (start + fenceLength)) n := by
  unfold ClosesAt ClosesBehind
  simp only [List.getElem?_drop, List.drop_drop, ← octet?_eq_octets, beginsFence_drop_iff]
  constructor
  · rintro ⟨hfence, n, hle, hfeed, rfl⟩
    obtain ⟨m, rfl⟩ := Nat.exists_eq_add_of_le hle
    exact ⟨m, rfl, hfeed, hfence⟩
  · rintro ⟨n, rfl, hfeed, hfence⟩
    exact ⟨hfence, _, Nat.le_add_right _ n, hfeed, rfl⟩

/-! ## What is found -/

/-- `f` tells where the fences of `s` are: the opening one at the first character that is no White_Space,
the closing one behind the first later feed that a fence follows. -/
def Describes (s : String) : FrontMatter → Prop
  | .absent => (∀ c ∈ s.toList, isWhite c = true) ∨ ∃ start, FirstSolid s start ∧ ¬ FenceAt s start
  | .opened start => FirstSolid s start ∧ FenceAt s start ∧ ∀ i, ¬ ClosesAt s start i
  | .closed start stop => FirstSolid s start ∧ FenceAt s start ∧
      ∃ i, stop = i + fenceLength ∧ IsLeast {i | ClosesAt s start i} i

theorem scan_describes (s : String) : Describes s (scan s) := by
  simp only [scan, List.drop_drop]
  split_ifs with hfence
  · rw [beginsFence_drop_iff] at hfence
    have hsolid := FirstSolid.of_fenceAt hfence
    split
    · next stop hstop =>
      obtain ⟨n, rfl, hn, hleast⟩ := exists_isLeast_of_closingFence? hstop
      refine ⟨hsolid, hfence, _, rfl, closesAt_iff.2 ⟨n, rfl, hn⟩, fun i hi => ?_⟩
      obtain ⟨m, rfl, hm⟩ := closesAt_iff.1 hi
      have hle := hleast hm
      omega
    · next hnone =>
      refine ⟨hsolid, hfence, fun i hi => ?_⟩
      obtain ⟨n, -, hn⟩ := closesAt_iff.1 hi
      exact closingFence?_eq_none_iff.1 hnone n hn
  · rw [beginsFence_drop_iff] at hfence
    by_cases hwhite : ∀ c ∈ s.toList, isWhite c = true
    · exact .inl hwhite
    · push Not at hwhite
      obtain ⟨c, hc, hsolid⟩ := hwhite
      exact .inr ⟨_, firstSolid_leadingWhite hc (Bool.eq_false_of_not_eq_true hsolid), hfence⟩

theorem FirstSolid.unique (h : FirstSolid s start) (h' : FirstSolid s stop) : start = stop :=
  h.leadingWhite.symm.trans h'.leadingWhite

/-- Front matter with an opening fence at the first character is present. -/
theorem not_describes_absent (hsolid : FirstSolid s start) (hfence : FenceAt s start) :
    ¬ Describes s .absent := by
  rintro (hwhite | ⟨start', hsolid', hnone⟩)
  · obtain ⟨a, c, b, rfl, -, -, hc⟩ := hsolid
    exact absurd (hwhite c (by simp)) (by simp [hc])
  · rw [hsolid'.unique hsolid] at hnone
    exact hnone hfence

/-- No two results describe one document. -/
theorem Describes.unique {f g : FrontMatter} (hf : Describes s f) (hg : Describes s g) : f = g := by
  rcases f with _ | start | ⟨start, stop⟩ <;> rcases g with _ | start' | ⟨start', stop'⟩
  case absent.absent => rfl
  case absent.opened => exact absurd hf (not_describes_absent hg.1 hg.2.1)
  case absent.closed => exact absurd hf (not_describes_absent hg.1 hg.2.1)
  case opened.absent => exact absurd hg (not_describes_absent hf.1 hf.2.1)
  case closed.absent => exact absurd hg (not_describes_absent hf.1 hf.2.1)
  case opened.opened => rw [hf.1.unique hg.1]
  case opened.closed =>
    obtain ⟨hsolid, -, i, -, hi⟩ := hg
    obtain rfl := hsolid.unique hf.1
    exact absurd hi.1 (hf.2.2 i)
  case closed.opened =>
    obtain ⟨hsolid, -, i, -, hi⟩ := hf
    obtain rfl := hsolid.unique hg.1
    exact absurd hi.1 (hg.2.2 i)
  case closed.closed =>
    obtain ⟨hsolid, -, i, rfl, hi⟩ := hf
    obtain ⟨hsolid', -, j, rfl, hj⟩ := hg
    obtain rfl := hsolid.unique hsolid'
    rw [hi.unique hj]

theorem scan_eq_iff : scan s = f ↔ Describes s f := by
  constructor
  · rintro rfl
    exact scan_describes s
  · exact (scan_describes s).unique

/-! ## Blanked fences -/

/-- The fences, the opening one first. -/
def fences : FrontMatter → List Span
  | .absent => []
  | .opened start => [.withLength start fenceLength]
  | .closed start stop => [.withLength start fenceLength, ⟨stop - fenceLength, stop⟩]

theorem isFenceByte_eq (f : FrontMatter) (i : ℕ) :
    f.isFenceByte i = f.fences.any (·.containsByte i) := by
  cases f <;> simp [isFenceByte, fences]

theorem byte?_blanked (h : f.blankFences s = some block) (hi : i < size block) :
    byte? block i = if f.isFenceByte i then some 0x20 else byte? s i := by
  obtain ⟨-, -, -, -, hsize, hbytes⟩ := bytes_of_blankFences h
  have hlt : i < (bytes s).length := by
    rw [length_bytes]
    omega
  rw [byte?_eq_bytes, byte?_eq_bytes, hbytes, blanked, List.getElem?_mapIdx,
    List.getElem?_take_of_lt hi, List.getElem?_eq_getElem hlt, Option.map_some]
  split_ifs <;> rfl

/-! ## Blocks of documents -/

theorem FenceAt.le_size (h : FenceAt s i) : i + fenceLength ≤ size s :=
  lt_size_of_octet? (h.1 2 (by decide))

/-- Each fence is three dashes of the document. -/
theorem fenceAt_of_mem (h : Describes s f) (hr : r ∈ f.fences) :
    r.length = fenceLength ∧ ∀ n, r.containsByte n = true → octet? s n = some '-' := by
  obtain ⟨i, rfl, hi⟩ : ∃ i, r = .withLength i fenceLength ∧ FenceAt s i := by
    rcases f with _ | start | ⟨start, stop⟩
    · cases hr
    · obtain rfl := List.mem_singleton.1 hr
      exact ⟨start, rfl, h.2.1⟩
    · obtain ⟨-, hfence, i, rfl, hi⟩ := h
      rcases List.mem_cons.1 hr with rfl | hr
      · exact ⟨start, rfl, hfence⟩
      · obtain rfl := List.mem_singleton.1 hr
        refine ⟨i, ?_, hi.1.1⟩
        rw [Nat.add_sub_cancel, Span.withLength]
  refine ⟨Span.length_withLength i fenceLength, fun n hn => ?_⟩
  obtain ⟨hle, hlt⟩ := Span.containsByte_iff.1 hn
  obtain ⟨k, rfl⟩ := Nat.exists_eq_add_of_le hle
  exact hi.1 k (Nat.lt_of_add_lt_add_left hlt)

/-- The fences stand one behind the other, up to the end of the block. -/
theorem fences_apart (h : Describes s f) (hspan : f.span? (size s) = some ⟨start, stop⟩) :
    (∀ r ∈ f.fences, r.stop ≤ stop) ∧ f.fences.Pairwise fun r r' => r.stop ≤ r'.start := by
  rcases f with _ | first | ⟨first, last⟩
  · exact ⟨nofun, .nil⟩
  · obtain rfl : size s = stop := congrArg Span.stop (Option.some.inj hspan)
    exact ⟨List.forall_mem_singleton.2 h.2.1.le_size, List.pairwise_singleton _ _⟩
  · obtain rfl : last = stop := congrArg Span.stop (Option.some.inj hspan)
    obtain ⟨-, -, i, rfl, ⟨-, n, hn, -, rfl⟩, -⟩ := h
    refine ⟨List.forall_mem_cons.2 ⟨?_, List.forall_mem_singleton.2 le_rfl⟩, List.pairwise_pair.2 ?_⟩
    · show first + fenceLength ≤ n + 1 + fenceLength
      omega
    · show first + fenceLength ≤ n + 1 + fenceLength - fenceLength
      omega

/-- What stands between the fences: in front of a closing one there is a feed. -/
theorem exists_contentSpan? (h : Describes s f) (hblock : f.blankFences s = some block) :
    ∃ r, f.contentSpan? (size s) = some r ∧ f.contentSpan? (size block) = some r ∧
      r.start ≤ r.stop ∧ r.stop ≤ size block ∧
      (∀ x ∈ f.fences, x.stop ≤ r.start ∨ r.stop ≤ x.start) ∧
      (f.isClosed = true → ∃ n, r.containsByte n = true ∧ octet? s n = some '\n') := by
  obtain ⟨⟨first, -⟩, hspan, -, rfl, hsize, -⟩ := bytes_of_blankFences hblock
  rcases f with _ | start | ⟨start, stop⟩
  · cases hspan
  · have hstop : size s = size block := congrArg Span.stop (Option.some.inj hspan)
    have hle := h.2.1.le_size
    rw [← hstop]
    refine ⟨⟨start + fenceLength, size s⟩, ?_, ?_, hle, le_rfl, fun x hx => ?_, nofun⟩
    · rw [contentSpan?, Nat.min_eq_left hle]
    · rw [contentSpan?, Nat.min_eq_left hle]
    · obtain rfl := List.mem_singleton.1 hx
      exact .inl le_rfl
  · have hstop : stop = size block := congrArg Span.stop (Option.some.inj hspan)
    obtain ⟨-, -, i, rfl, ⟨-, n, hn, hfeed, rfl⟩, -⟩ := h
    refine ⟨⟨start + fenceLength, n + 1⟩, rfl, rfl, by dsimp only; omega, by dsimp only; omega,
      fun x hx => ?_, fun _ => ⟨n, Span.containsByte_iff.2 ⟨hn, Nat.lt_succ_self n⟩, hfeed⟩⟩
    rcases List.mem_cons.1 hx with rfl | hx
    · exact .inl le_rfl
    · obtain rfl := List.mem_singleton.1 hx
      exact .inr le_rfl

theorem octet?_eq_feed_iff (h : Describes s f) (hblock : f.blankFences s = some block) :
    octet? block n = some '\n' ↔ octet? s n = some '\n' ∧ n < size block := by
  by_cases hn : n < size block
  · rw [and_iff_left hn, octet?, byte?_blanked hblock hn, isFenceByte_eq]
    split_ifs with hfence
    · obtain ⟨r, hr, hmem⟩ := List.any_eq_true.1 hfence
      rw [(fenceAt_of_mem h hr).2 n hmem]
      decide
    · rfl
  · exact iff_of_false (fun hfeed => hn (lt_size_of_octet? hfeed)) fun hfeed => hn hfeed.2

/-- The block has the lines of the document up to its end. -/
theorem starts_blanked (h : Describes s f) (hblock : f.blankFences s = some block) :
    (LineTable.ofText block).starts = (LineTable.ofText s).starts.filter (· ≤ size block) := by
  refine (LineTable.starts_pairwise block).eq_of_mem_iff ((LineTable.starts_pairwise s).filter _)
    fun o => ?_
  simp only [List.mem_filter, decide_eq_true_eq, LineTable.mem_starts_iff,
    octet?_eq_feed_iff h hblock]
  constructor
  · rintro (rfl | ⟨k, ⟨hfeed, hk⟩, rfl⟩)
    · exact ⟨.inl rfl, Nat.zero_le _⟩
    · exact ⟨.inr ⟨k, hfeed, rfl⟩, hk⟩
  · rintro ⟨rfl | ⟨k, hfeed, rfl⟩, hk⟩
    · exact .inl rfl
    · exact .inr ⟨k, ⟨hfeed, hk⟩, rfl⟩

/-- Places in the block are places in the document. -/
theorem position_blanked (h : Describes s f) (hblock : f.blankFences s = some block)
    (hi : i ≤ size block) : (LineTable.ofText block).position i = (LineTable.ofText s).position i := by
  obtain ⟨-, -, -, -, hsize, -⟩ := bytes_of_blankFences hblock
  have hstarts := starts_blanked h hblock
  have hline : (LineTable.ofText s).lineOf i = (LineTable.ofText block).lineOf i := by
    unfold LineTable.lineOf
    rw [hstarts, List.countP_filter]
    refine congrArg (· - 1) (List.countP_congr fun a _ => ?_)
    rw [Bool.and_eq_true, decide_eq_true_eq, decide_eq_true_eq]
    omega
  have hlt : (LineTable.ofText block).lineOf i < (LineTable.ofText block).starts.length := by
    have hle := List.countP_le_length (p := (· ≤ i)) (l := (LineTable.ofText block).starts)
    have hpos : 0 < (LineTable.ofText block).starts.length := Nat.succ_pos _
    unfold LineTable.lineOf
    omega
  obtain ⟨rest, hrest⟩ := filter_le_prefix (LineTable.starts_pairwise s) (size block)
  rw [← hstarts] at hrest
  unfold LineTable.position
  dsimp only
  rw [Nat.min_eq_left (show i ≤ (LineTable.ofText block).size from hi),
    Nat.min_eq_left (show i ≤ (LineTable.ofText s).size from hi.trans hsize), hline, ← hrest,
    List.getD_append _ _ _ _ hlt]

/-- `block` is `s` up to the end of its front matter `f`, blank where the fences are. -/
structure IsBlank (f : FrontMatter) (s block : String) : Prop where
  stop : ∃ start, f.span? (size s) = some ⟨start, size block⟩
  fences : ∀ r ∈ f.fences, r.length = fenceLength ∧ r.stop ≤ size block ∧
    ∀ n, r.containsByte n = true → octet? s n = some '-'
  apart : f.fences.Pairwise fun r r' => r.stop ≤ r'.start
  bytes : ∀ n < size block,
    byte? block n = if f.fences.any (·.containsByte n) then some 0x20 else byte? s n
  starts : (LineTable.ofText block).starts = (LineTable.ofText s).starts.filter (· ≤ size block)
  places : ∀ n ≤ size block, (LineTable.ofText block).position n = (LineTable.ofText s).position n
  content : ∃ r, f.contentSpan? (size s) = some r ∧ f.contentSpan? (size block) = some r ∧
    r.start ≤ r.stop ∧ r.stop ≤ size block ∧
    (∀ x ∈ f.fences, x.stop ≤ r.start ∨ r.stop ≤ x.start) ∧
    (f.isClosed = true → ∃ n, r.containsByte n = true ∧ octet? s n = some '\n')

theorem isBlank (h : Describes s f) (hblock : f.blankFences s = some block) : IsBlank f s block := by
  obtain ⟨⟨start, -⟩, hspan, -, rfl, -, -⟩ := bytes_of_blankFences hblock
  obtain ⟨hstop, hapart⟩ := fences_apart h hspan
  constructor
  case stop => exact ⟨start, hspan⟩
  case fences =>
    intro r hr
    obtain ⟨hlength, hdashes⟩ := fenceAt_of_mem h hr
    exact ⟨hlength, hstop r hr, hdashes⟩
  case apart => exact hapart
  case bytes =>
    intro n hn
    rw [byte?_blanked hblock hn, isFenceByte_eq]
  case starts => exact starts_blanked h hblock
  case places => exact fun n hn => position_blanked h hblock hn
  case content => exact exists_contentSpan? h hblock

/-- **Fences.** The fences of a document are found by its lines. A document with front matter, and no
other one, has a block: the document up to the end of its front matter, blank where the fences are. -/
theorem scan_eq_iff_and_isBlank (s : String) :
    (∀ f, scan s = f ↔ Describes s f) ∧
    (((scan s).blankFences s).isSome = true ↔ scan s ≠ .absent) ∧
    ∀ block, (scan s).blankFences s = some block → IsBlank (scan s) s block := by
  refine ⟨fun f => scan_eq_iff, ?_, fun block => isBlank (scan_describes s)⟩
  constructor
  · intro h habsent
    rw [habsent] at h
    cases h
  · intro h
    obtain ⟨block, -, hblock, -⟩ := exists_content h
    exact Option.isSome_iff_exists.2 ⟨block, hblock⟩

/-- Dashes with something behind them are no fence, and a fence may end the document. -/
example : scan "\u00a0---\n----\n---a\n---" = .closed 2 19 := by
  decide +kernel

end FrontMatter

end Polyglot
