import Mathlib
import Polyglot.Map.Vlq.Envelope
import Polyglot.Map.Vlq.Writer
import Polyglot.Proofs.Json.Reading
import Polyglot.Proofs.Outcome

/-!
# Reading encoded segments back

Segments whose generated lines ascend are encoded as differences, and reading adds these up to the
same segments again, in the same order (`decode_encode`). A number is read from its digits, a
segment from its numbers, a line from the text up to its semicolon; what is carried along is the
generated column of the line and the last source place (`read_mappingsText`).
-/

namespace Polyglot

namespace Vlq

open Text JsonReader

variable {c separator : Char} {cs ds head text : List Char} {tail rest : List (List Char)}
  {n shift line column : ℕ} {limits : Limits} {here source : Place} {s : Segment}
  {segs : List Segment}

/-! ## Numbers -/

theorem fiveBits_digit (h : n < 64) : fiveBits (digit n) = (n % 32, decide (32 ≤ n)) := by
  have hall : ∀ n < 64, fiveBits (digit n) = (n % 32, decide (32 ≤ n)) := by decide +kernel
  exact hall n h

/-- The character separates neither lines nor segments, and stands for itself in JSON and in
octets. -/
def IsPlain (c : Char) : Prop := c ≠ ';' ∧ c ≠ ',' ∧ quoteChar c = [c] ∧ IsAsciiOctet c

theorem isPlain_digit (h : n < 64) : IsPlain (digit n) := by
  have hall : ∀ n < 64, digit n ≠ ';' ∧ digit n ≠ ',' ∧ quoteChar (digit n) = [digit n] ∧
      IsAsciiOctet (digit n) := by decide +kernel
  exact hall n h

/-- Bits that fit a word are not changed by it. -/
theorem bmod_eq_self (h : n < 2 ^ 63) : (n : ℤ).bmod 0x10000000000000000 = n := by
  rw [Int.bmod_def]
  omega

theorem numbers_digit (bits : ℤ) (hn : n < 64) (hshift : shift < 64)
    (hword : n % 32 * 2 ^ shift < 2 ^ 63) (cs : List Char) :
    numbers bits shift (digit n :: cs) =
      if 32 ≤ n then numbers (bits + (n % 32 * 2 ^ shift : ℕ)) (shift + 5) cs
      else (numbers 0 0 cs).map fun ns => ofBits (bits + (n % 32 * 2 ^ shift : ℕ)) :: ns := by
  rw [numbers, if_neg (by omega), fiveBits_digit hn]
  dsimp only
  rw [Nat.shiftLeft_eq, bmod_eq_self hword]
  simp only [decide_eq_true_eq]
  split_ifs
  · rfl
  · exact bind_pure_eq_map _ _

/-- **Digits.** Bits are read back from their digits, above the bits read before. -/
theorem numbers_digitsOf (bits : ℤ) (hshift : shift < 64) (hn : n * 2 ^ shift < 2 ^ 63)
    (cs : List Char) : numbers bits shift (digitsOf n ++ cs) =
      (numbers 0 0 cs).map fun ns => ofBits (bits + (n * 2 ^ shift : ℕ)) :: ns := by
  induction n using Nat.strong_induction_on generalizing bits shift with
  | _ n ih =>
    rw [digitsOf]
    split_ifs with hlast
    · have hmod : n % 32 = n := Nat.mod_eq_of_lt hlast
      rw [List.singleton_append, numbers_digit bits (by omega) hshift (by rwa [hmod]),
        if_neg (by omega), hmod]
    · have hsplit : n % 32 * 2 ^ shift + n / 32 * 2 ^ (shift + 5) = n * 2 ^ shift :=
        calc n % 32 * 2 ^ shift + n / 32 * 2 ^ (shift + 5)
            = (n % 32 + 32 * (n / 32)) * 2 ^ shift := by ring
          _ = n * 2 ^ shift := by rw [Nat.mod_add_div]
      -- A digit is left, so its place is one of the word.
      have hplace : 2 ^ (shift + 5) ≤ n / 32 * 2 ^ (shift + 5) :=
        Nat.le_mul_of_pos_left _ (by omega)
      have hshift' : shift + 5 < 63 := (Nat.pow_lt_pow_iff_right one_lt_two).1 (by omega)
      have hmod : (n % 32 + 32) % 32 = n % 32 := by omega
      rw [List.cons_append, numbers_digit bits (by omega) hshift (by rw [hmod]; omega),
        if_pos (by omega), hmod, ih (n / 32) (by omega) _ (by omega) (by omega), add_assoc,
        ← Nat.cast_add, hsplit]

/-- **Numbers.** Differences of 32-bit numbers are read back. -/
theorem numbers_ofNumbers {ns : List ℤ} (h : ∀ n ∈ ns, n.natAbs < 2 ^ 32) :
    numbers 0 0 (ofNumbers ns) = .ok ns := by
  induction ns with
  | nil => rfl
  | cons n ns ih =>
    obtain ⟨hn, hns⟩ := List.forall_mem_cons.1 h
    have hbits : toBits n * 2 ^ 0 < 2 ^ 63 := by
      unfold toBits
      split_ifs <;> omega
    rw [ofNumbers, List.flatMap_cons, numbers_digitsOf 0 (by decide) hbits]
    rw [ofNumbers] at ih
    rw [ih hns, pow_zero, Nat.mul_one, zero_add, ofBits_toBits]
    rfl

theorem digitsOf_isPlain (n : ℕ) : ∀ c ∈ digitsOf n, IsPlain c := by
  induction n using Nat.strong_induction_on with
  | _ n ih =>
    rw [digitsOf]
    split_ifs with hlast
    · exact List.forall_mem_singleton.2 (isPlain_digit (by omega))
    · exact List.forall_mem_cons.2 ⟨isPlain_digit (by omega), ih (n / 32) (by omega)⟩

theorem ofNumbers_isPlain (ns : List ℤ) : ∀ c ∈ ofNumbers ns, IsPlain c := by
  intro c hc
  obtain ⟨n, -, hc⟩ := List.mem_flatMap.1 hc
  exact digitsOf_isPlain _ c hc

theorem ofNumbers_ne_nil (n : ℤ) (ns : List ℤ) : ofNumbers (n :: ns) ≠ [] := by
  rw [ofNumbers, List.flatMap_cons, digitsOf]
  split_ifs <;> simp

/-! ## Separators -/

theorem splitAt_append (hcs : separator ∉ cs) (hds : splitAt separator ds = head :: tail) :
    splitAt separator (cs ++ ds) = (cs ++ head) :: tail := by
  induction cs with
  | nil => exact hds
  | cons c cs ih =>
    obtain ⟨hc, hcs⟩ := List.ne_and_not_mem_of_not_mem_cons hcs
    rw [List.cons_append, splitAt, if_neg hc.symm, ih hcs]
    rfl

theorem splitAt_separator (cs : List Char) :
    splitAt separator (separator :: cs) = [] :: splitAt separator cs := by
  rw [splitAt, if_pos rfl]

theorem exists_splitAt (separator : Char) (cs : List Char) :
    ∃ head tail, splitAt separator cs = head :: tail := by
  induction cs with
  | nil => exact ⟨[], [], rfl⟩
  | cons c cs ih =>
    obtain ⟨head, tail, hcs⟩ := ih
    rw [splitAt, hcs]
    split_ifs
    · exact ⟨[], _, rfl⟩
    · exact ⟨_, _, rfl⟩

/-! ## Segments -/

/-- The generated column, and the source place if there is one, are 32-bit numbers. -/
structure InWords (s : Segment) : Prop where
  column : s.generated.column < 2 ^ 32
  source : ∀ p ∈ s.source, p.line < 2 ^ 32 ∧ p.column < 2 ^ 32

/-- The running totals behind a source place, in a map with one source and no names. -/
def totalsAt (p : Place) : Totals := ⟨0, p.line, p.column, 0⟩

theorem advance_sub {total target : ℕ} (h : target < 2 ^ 32) :
    advance total ((target : ℤ) - total) = target := by
  unfold advance
  rw [add_sub_cancel]
  omega

theorem lineSegments_skip (t : Totals) (rest : List (List Char)) :
    lineSegments limits line column t ([] :: rest) = lineSegments limits line column t rest := by
  rw [lineSegments]

/-- **Segments.** A segment is read back from its differences to the column and the source
before. -/
theorem lineSegments_fieldsOf (hlimits : 0 < limits.sources) (hs : InWords s)
    (hcolumn : column < 2 ^ 32) (hsource : source.line < 2 ^ 32 ∧ source.column < 2 ^ 32)
    (rest : List (List Char)) :
    lineSegments limits s.generated.line column (totalsAt source)
        (ofNumbers (fieldsOf column source s) :: rest) =
      (lineSegments limits s.generated.line s.generated.column (totalsAt (s.source.getD source))
        rest).map fun p => (s :: p.1, p.2) := by
  have hcolumn' := hs.column
  obtain ⟨text, htext, hne⟩ : ∃ text, ofNumbers (fieldsOf column source s) = text ∧ text ≠ [] :=
    ⟨_, rfl, ofNumbers_ne_nil _ _⟩
  have hbound : ∀ n ∈ fieldsOf column source s, n.natAbs < 2 ^ 32 := by
    refine List.forall_mem_cons.2 ⟨by omega, ?_⟩
    rcases hplace : s.source with _ | p
    · exact nofun
    · obtain ⟨hline, hplace⟩ := hs.source p hplace
      simp only [List.forall_mem_cons]
      exact ⟨by decide, by omega, by omega, nofun⟩
  have hnumbers := numbers_ofNumbers hbound
  rw [htext] at hnumbers ⊢
  rw [lineSegments.eq_3 _ _ _ _ _ _ hne, hnumbers]
  obtain ⟨⟨line, column'⟩, _ | p⟩ := s
  · show (do
      let q ← lineSegments limits line (advance column (column' - column)) (totalsAt source) rest
      _) = _
    rw [advance_sub hcolumn']
    exact bind_pure_eq_map _ _
  · obtain ⟨hline, hplace⟩ := hs.source p rfl
    have hsourceOf : sourceOf limits (totalsAt source) 0 (p.line - source.line)
        (p.column - source.column) none = .ok (totalsAt p) := by
      unfold sourceOf totalsAt
      rw [advance_sub hline, advance_sub hplace]
      show (if limits.sources ≤ 0 then _ else _) = _
      rw [if_neg (by omega)]
      rfl
    show (sourceOf limits (totalsAt source) 0 (p.line - source.line) (p.column - source.column)
      none >>= fun t => lineSegments limits line (advance column (column' - column)) t rest >>=
        fun q => pure (⟨⟨line, advance column (column' - column)⟩, some ⟨t.line, t.column⟩⟩ :: q.1,
          q.2)) = _
    rw [hsourceOf, advance_sub hcolumn']
    exact bind_pure_eq_map _ _

/-! ## Lines -/

/-- The segments that are left when a line has been read up to a column; `lines` begins with the
rest of that line. -/
def resume (limits : Limits) (line column : ℕ) (t : Totals) :
    List (List Char) → Except Fault (List Segment)
  | [] => .ok []
  | text :: rest => do
    let (here, t) ← lineSegments limits line column t (splitAt ',' text)
    let more ← segments limits (line + 1) t [] rest
    return here ++ more

/-- Without range flags, a line is read from its first column on. -/
theorem segments_eq_resume {ranges : List (List Char)} (hranges : ranges = [] ∨ ranges = [[]])
    (limits : Limits) (line : ℕ) (t : Totals) (text : List Char) (rest : List (List Char)) :
    segments limits line t ranges (text :: rest) = resume limits line 0 t (text :: rest) := by
  rcases hranges with rfl | rfl <;>
  · rw [segments, resume]
    rcases text with _ | ⟨c, cs⟩
    · rfl
    · rfl

theorem resume_feed (t : Totals) (hrest : rest ≠ []) :
    resume limits line column t ([] :: rest) = resume limits (line + 1) 0 t rest := by
  obtain ⟨text, rest, rfl⟩ := List.exists_cons_of_ne_nil hrest
  rw [← segments_eq_resume (.inl rfl), resume]
  exact bind_pure (m := Except Fault) _

theorem resume_feeds (t : Totals) (hrest : rest ≠ []) (n : ℕ) :
    resume limits line column t (List.replicate (n + 1) [] ++ rest) =
      resume limits (line + (n + 1)) 0 t rest := by
  induction n generalizing line column with
  | zero => exact resume_feed t hrest
  | succ n ih =>
    rw [List.replicate_succ, List.cons_append, resume_feed t (by simp [hrest]), ih,
      Nat.add_right_comm, Nat.add_assoc]

theorem resume_comma (t : Totals) (text : List Char) (rest : List (List Char)) :
    resume limits line column t ((',' :: text) :: rest) = resume limits line column t (text :: rest) := by
  rw [resume, splitAt_separator, lineSegments_skip, resume]

/-- Behind a segment, its line goes on with a comma or ends. -/
def GoesOn (text : List Char) : Prop := text = [] ∨ ∃ more, text = ',' :: more

/-- A segment is read at a place in its line, and then the rest of the line from there on. -/
theorem resume_segment (hlimits : 0 < limits.sources) (hs : InWords s) (hcolumn : column < 2 ^ 32)
    (hsource : source.line < 2 ^ 32 ∧ source.column < 2 ^ 32) (htext : GoesOn text)
    (rest : List (List Char)) :
    resume limits s.generated.line column (totalsAt source)
        ((ofNumbers (fieldsOf column source s) ++ text) :: rest) =
      (resume limits s.generated.line s.generated.column (totalsAt (s.source.getD source))
        (text :: rest)).map (s :: ·) := by
  have hcomma : ',' ∉ ofNumbers (fieldsOf column source s) := fun hmem =>
    (ofNumbers_isPlain _ _ hmem).2.1 rfl
  have hread : lineSegments limits s.generated.line column (totalsAt source)
      (splitAt ',' (ofNumbers (fieldsOf column source s) ++ text)) =
      (lineSegments limits s.generated.line s.generated.column (totalsAt (s.source.getD source))
        (splitAt ',' text)).map fun p => (s :: p.1, p.2) := by
    rcases htext with rfl | ⟨more, rfl⟩
    · rw [splitAt_append hcomma rfl, List.append_nil, splitAt, lineSegments_skip]
      exact lineSegments_fieldsOf hlimits hs hcolumn hsource []
    · rw [splitAt_append hcomma (splitAt_separator more), List.append_nil, splitAt_separator,
        lineSegments_skip]
      exact lineSegments_fieldsOf hlimits hs hcolumn hsource _
  rw [resume, resume, hread]
  rcases lineSegments limits s.generated.line s.generated.column (totalsAt (s.source.getD source))
    (splitAt ',' text) with e | ⟨here, t⟩
  · rfl
  · show (do let more ← segments limits (s.generated.line + 1) t [] rest; return (s :: here) ++ more) =
      (do let more ← segments limits (s.generated.line + 1) t [] rest; return here ++ more).map _
    rw [bind_pure_eq_map, bind_pure_eq_map]
    rcases segments limits (s.generated.line + 1) t [] rest with e | more
    · rfl
    · rfl

theorem mappingsText_same (h : s.generated.line - here.line = 0) (source : Place) (first : Bool)
    (segs : List Segment) : mappingsText here source first (s :: segs) =
      (if first then [] else [',']) ++ (ofNumbers (fieldsOf here.column source s) ++
        mappingsText s.generated (s.source.getD source) false segs) := by
  rw [mappingsText, h, if_pos rfl, if_pos rfl, List.append_assoc]

theorem mappingsText_below (h : s.generated.line - here.line = n + 1) (source : Place)
    (first : Bool) (segs : List Segment) : mappingsText here source first (s :: segs) =
      List.replicate (n + 1) ';' ++ (ofNumbers (fieldsOf 0 source s) ++
        mappingsText s.generated (s.source.getD source) false segs) := by
  rw [mappingsText, h, if_neg n.succ_ne_zero, if_neg n.succ_ne_zero, List.append_assoc]

/-- Behind a segment the text goes on with a comma, or with another line. -/
theorem goesOn_mappingsText (here source : Place) (segs : List Segment) :
    ∃ text rest, splitAt ';' (mappingsText here source false segs) = text :: rest ∧ GoesOn text := by
  rcases segs with _ | ⟨s, segs⟩
  · exact ⟨[], [], rfl, .inl rfl⟩
  · rcases hn : s.generated.line - here.line with _ | n
    · rw [mappingsText_same hn]
      obtain ⟨text, rest, hsplit⟩ := exists_splitAt ';' (ofNumbers (fieldsOf here.column source s) ++
        mappingsText s.generated (s.source.getD source) false segs)
      exact ⟨_, rest, splitAt_append (show ';' ∉ [','] by decide) hsplit, .inr ⟨text, rfl⟩⟩
    · rw [mappingsText_below hn]
      exact ⟨[], _, splitAt_separator _, .inl rfl⟩

theorem splitAt_replicate (n : ℕ) (cs : List Char) :
    splitAt separator (List.replicate n separator ++ cs) =
      List.replicate n [] ++ splitAt separator cs := by
  induction n with
  | zero => rfl
  | succ n ih =>
    rw [List.replicate_succ, List.cons_append, splitAt_separator, ih]
    rfl

/-- **Lines.** What is written behind a segment, or in front of all segments, is read as just the
segments it was written for: each of them on its own line, even where columns go back. -/
theorem resume_mappingsText (hlimits : 0 < limits.sources) (hhere : here.column < 2 ^ 32)
    (hsource : source.line < 2 ^ 32 ∧ source.column < 2 ^ 32) (first : Bool)
    (hwords : ∀ s ∈ segs, InWords s) (hlines : ∀ s ∈ segs, here.line ≤ s.generated.line)
    (hascend : segs.Pairwise fun a b => a.generated.line ≤ b.generated.line) :
    resume limits here.line here.column (totalsAt source)
      (splitAt ';' (mappingsText here source first segs)) = .ok segs := by
  induction segs generalizing here source first with
  | nil => rfl
  | cons s segs ih =>
    obtain ⟨hs, hwords⟩ := List.forall_mem_cons.1 hwords
    obtain ⟨hline, hlines⟩ := List.forall_mem_cons.1 hlines
    obtain ⟨hnext, hascend⟩ := List.pairwise_cons.1 hascend
    have hplace : (s.source.getD source).line < 2 ^ 32 ∧ (s.source.getD source).column < 2 ^ 32 := by
      rcases hp : s.source with _ | p
      · exact hsource
      · exact hs.source p hp
    have hrest := ih hs.column hplace false hwords hnext hascend
    obtain ⟨text, rest, hsplit, htext⟩ :=
      goesOn_mappingsText s.generated (s.source.getD source) segs
    rw [hsplit] at hrest
    have hread {column : ℕ} (hcolumn : column < 2 ^ 32) :
        resume limits s.generated.line column (totalsAt source)
          ((ofNumbers (fieldsOf column source s) ++ text) :: rest) = .ok (s :: segs) := by
      rw [resume_segment hlimits hs hcolumn hsource htext, hrest]
      rfl
    have hfeed (column : ℕ) : ';' ∉ ofNumbers (fieldsOf column source s) := fun hmem =>
      (ofNumbers_isPlain _ _ hmem).1 rfl
    rcases hn : s.generated.line - here.line with _ | n
    · have hsame : here.line = s.generated.line := by omega
      rw [mappingsText_same hn, hsame]
      cases first
      · rw [if_neg Bool.false_ne_true, splitAt_append (by decide) (splitAt_append (hfeed _) hsplit)]
        exact (resume_comma _ _ _).trans (hread hhere)
      · rw [if_pos rfl, List.nil_append, splitAt_append (hfeed _) hsplit]
        exact hread hhere
    · have hbelow : here.line + (n + 1) = s.generated.line := by omega
      rw [mappingsText_below hn, splitAt_replicate, splitAt_append (hfeed 0) hsplit,
        resume_feeds _ (List.cons_ne_nil _ _), hbelow]
      exact hread (by decide)

/-! ## Maps -/

theorem mappingsText_ascii (here source : Place) (first : Bool) (segs : List Segment) :
    ∀ c ∈ mappingsText here source first segs, quoteChar c = [c] ∧ IsAsciiOctet c := by
  induction segs generalizing here source first with
  | nil => exact nofun
  | cons s segs ih =>
    have hnumbers (column : ℕ) : ∀ c ∈ ofNumbers (fieldsOf column source s),
        quoteChar c = [c] ∧ IsAsciiOctet c := fun c hc => (ofNumbers_isPlain _ c hc).2.2
    have hseparator : ∀ c ∈ [',', ';'], quoteChar c = [c] ∧ IsAsciiOctet c :=
      List.forall_mem_cons.2 ⟨⟨rfl, by decide⟩, List.forall_mem_singleton.2 ⟨rfl, by decide⟩⟩
    rcases hn : s.generated.line - here.line with _ | n
    · rw [mappingsText_same hn]
      refine List.forall_mem_append.2 ⟨fun c hc => hseparator c ?_,
        List.forall_mem_append.2 ⟨hnumbers _, ih _ _ _⟩⟩
      cases first
      · exact List.mem_cons.2 (.inl (List.mem_singleton.1 hc))
      · exact absurd hc List.not_mem_nil
    · rw [mappingsText_below hn]
      refine List.forall_mem_append.2 ⟨fun c hc => hseparator c ?_,
        List.forall_mem_append.2 ⟨hnumbers _, ih _ _ _⟩⟩
      rw [List.eq_of_mem_replicate hc]
      decide

theorem octets_mappingsOf (segs : List Segment) :
    octets (mappingsOf segs) = mappingsText ⟨0, 0⟩ ⟨0, 0⟩ true segs :=
  octets_ofList fun c hc => (mappingsText_ascii _ _ _ _ c hc).2

/-- The members of the written map. -/
def membersOf (source : String) (segs : List Segment) : List (Option String × JsonValue) :=
  [(some "version", .number (.integer false 3)), (some "sources", .array [.string (some source)]),
    (some "names", .array []), (some "mappings", .string (some (mappingsOf segs)))]

/-- The members as they are written. -/
def membersText (source : String) (segs : List Segment) : List Char :=
  (quote "version").toList ++ ':' :: (['3'] ++ ',' :: ((quote "sources").toList ++ ':' ::
    ('[' :: ((quote source).toList ++ [']']) ++ ',' :: ((quote "names").toList ++ ':' ::
      (['[', ']'] ++ ',' :: ((quote "mappings").toList ++ ':' :: (quote (mappingsOf segs)).toList))))))

theorem toList_encode (source : String) (segs : List Segment) :
    (encode source segs).toList = '\x7b' :: (membersText source segs ++ ['\x7d']) := by
  have hfront : "\x7b\"version\":3,\"sources\":[".toList = '\x7b' :: ((quote "version").toList ++
      ':' :: '3' :: ',' :: ((quote "sources").toList ++ [':', '['])) := by
    rw [toList_quote, toList_quote]
    rfl
  have hmiddle : "],\"names\":[],\"mappings\":".toList = ']' :: ',' :: ((quote "names").toList ++
      ':' :: '[' :: ']' :: ',' :: ((quote "mappings").toList ++ [':'])) := by
    rw [toList_quote, toList_quote]
    rfl
  have hback : "\x7d".toList = ['\x7d'] := rfl
  unfold membersText encode
  -- Without names for the fixed strings, what is appended to them would be evaluated.
  generalize "\x7b\"version\":3,\"sources\":[" = front at *
  generalize "],\"names\":[],\"mappings\":" = middle at *
  generalize "\x7d" = back at *
  simp only [String.toList_append, hfront, hmiddle, hback, List.cons_append, List.append_assoc,
    List.nil_append]

theorem isMembers_membersText (source : String) (segs : List Segment) :
    IsMembers (membersText source segs) (membersOf source segs) :=
  .cons "version" isWritten_three <| .cons "sources" (isWritten_quote source).singleton <|
    .cons "names" isWritten_emptyArray <| (isWritten_quote (mappingsOf segs)).member "mappings"

theorem ofText?_encode (source : String) (segs : List Segment) :
    JsonValue.ofText? (encode source segs) = some (.object (membersOf source segs)) := by
  have hhead : (membersText source segs).head? = some '"' := by
    rw [membersText, toList_quote]
    rfl
  have hread := ((isMembers_membersText source segs).isWritten hhead).value?_append [] endsValue_nil
  rw [List.append_nil, ← toList_encode] at hread
  rw [JsonValue.ofText?, hread, Option.bind_some]
  dsimp only
  rw [List.drop_length]
  rfl

/-- The written map is a plain one with these mappings. -/
theorem ofJson?_membersOf (source : String) (segs : List Segment) :
    Envelope.ofJson? maxDepth maxDepth (.object (membersOf source segs)) =
      some (.plain ⟨⟨1, 0⟩, mappingsOf segs, ""⟩) := by
  rfl

/-- **Source maps.** Segments whose generated lines ascend, with columns in any order, are read back
from their map in the order that they have. -/
theorem decode_encode (source : String) (hwords : ∀ s ∈ segs, InWords s)
    (hascend : segs.Pairwise fun a b => a.generated.line ≤ b.generated.line) :
    decode (encode source segs) = .ok segs := by
  have hguard : withoutGuard (encode source segs).toList = .ok (encode source segs).toList := by
    rw [toList_encode]
    rfl
  have hread : resume ⟨1, 0⟩ 0 0 (totalsAt ⟨0, 0⟩)
      (splitAt ';' (mappingsText ⟨0, 0⟩ ⟨0, 0⟩ true segs)) = .ok segs :=
    resume_mappingsText Nat.one_pos (show (⟨0, 0⟩ : Place).column < 2 ^ 32 by decide) (by decide)
      true hwords (fun _ _ => Nat.zero_le _) hascend
  obtain ⟨text, rest, hsplit⟩ := exists_splitAt ';' (mappingsText ⟨0, 0⟩ ⟨0, 0⟩ true segs)
  rw [decode, hguard]
  dsimp only [bind, Except.bind]
  rw [String.ofList_toList, ofText?_encode, Option.bind_some, ofJson?_membersOf]
  show segments ⟨1, 0⟩ 0 (totalsAt ⟨0, 0⟩) [[]] (splitAt ';' (octets (mappingsOf segs))) = _
  rw [octets_mappingsOf, hsplit, segments_eq_resume (.inr rfl), ← hsplit, hread]

/-- The differences as base-64 digits: a comma between segments, a semicolon behind a line, one
field where there is no source. -/
example : mappingsOf [⟨⟨0, 0⟩, some ⟨0, 0⟩⟩, ⟨⟨0, 2⟩, none⟩, ⟨⟨0, 6⟩, some ⟨0, 4⟩⟩,
    ⟨⟨2, 0⟩, some ⟨1, 4⟩⟩] = "AAAA,E,IAAI;;AACA" := by decide +kernel

/-- Segments that go back in their line, and in the source over all its lines and columns. -/
def scatteredSegments : List Segment :=
  [⟨⟨1, 4294967295⟩, some ⟨4294967295, 0⟩⟩, ⟨⟨1, 0⟩, none⟩, ⟨⟨1, 7⟩, some ⟨0, 4294967295⟩⟩,
    ⟨⟨4, 3⟩, some ⟨2, 1⟩⟩]

theorem decode_encode_scattered :
    (∀ s ∈ scatteredSegments, InWords s) ∧
      (scatteredSegments.Pairwise fun a b => a.generated.line ≤ b.generated.line) ∧
      decode (encode "index \"é\".astro" scatteredSegments) = .ok scatteredSegments := by
  have hwords : ∀ s ∈ scatteredSegments, InWords s := by
    have hall : ∀ s ∈ scatteredSegments, s.generated.column < 2 ^ 32 ∧
        ∀ p ∈ s.source, p.line < 2 ^ 32 ∧ p.column < 2 ^ 32 := by decide
    exact fun s hs => ⟨(hall s hs).1, (hall s hs).2⟩
  have hascend : scatteredSegments.Pairwise fun a b => a.generated.line ≤ b.generated.line := by
    decide
  exact ⟨hwords, hascend, decode_encode _ hwords hascend⟩

end Vlq

end Polyglot
