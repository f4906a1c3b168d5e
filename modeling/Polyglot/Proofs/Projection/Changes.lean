import Polyglot.Proofs.Projection.Names
import Polyglot.Session.Table

/-!
# Changes between trees

The changed ids of a tree are those whose codes are not the same in the tree before, each named once
(`Draft.mem_changedIds_iff`, `Draft.nodup_changedIds`). So whoever fetches just these again after each
tree has all codes of the latest one (`Generator.Succession.get?_held`).
-/

namespace Polyglot

variable {cs : List Code} {a b c : Code} {x : String}

/-! ## Codes by their ids -/

theorem find?_id_eq_some_iff (h : (cs.map (·.id)).Nodup) :
    cs.find? (·.id == x) = some c ↔ c ∈ cs ∧ c.id = x := by
  constructor
  · intro hfind
    exact ⟨List.mem_of_find?_eq_some hfind, by simpa using List.find?_some hfind⟩
  · rintro ⟨hc, rfl⟩
    have hsome : (cs.find? (·.id == c.id)).isSome = true := by
      rw [List.find?_isSome]
      exact ⟨c, hc, beq_self_eq_true c.id⟩
    obtain ⟨b, hb⟩ := Option.isSome_iff_exists.1 hsome
    have hid : b.id = c.id := by simpa using List.find?_some hb
    rw [hb, List.inj_on_of_nodup_map h (List.mem_of_find?_eq_some hb) hc hid]

theorem find?_id_eq_none_iff : cs.find? (·.id == x) = none ↔ x ∉ cs.map (·.id) := by
  simp

/-- Codes with the same id are equal if their languages, texts and mappings are. -/
theorem Code.eq_iff (hid : a.id = b.id) :
    a = b ↔ a.language = b.language ∧ a.text = b.text ∧ a.map.toList = b.map.toList := by
  constructor
  · rintro rfl
    exact ⟨rfl, rfl, rfl⟩
  · obtain ⟨id, language, text, ⟨⟨ms⟩⟩⟩ := a
    rintro ⟨hlanguage, htext, hmap⟩
    cases hid
    cases hlanguage
    cases htext
    cases hmap
    rfl

/-! ## Differences -/

namespace ProjectionTree

variable {p t : ProjectionTree}

/-- Only one of the trees has a code with this id, or its language, its text or its mappings are not the
same in both. -/
def Differs (p t : ProjectionTree) (x : String) : Prop :=
  (x ∈ p.ids ∧ x ∉ t.ids) ∨ (x ∉ p.ids ∧ x ∈ t.ids) ∨
    ∃ a ∈ p.codes, ∃ b ∈ t.codes, a.id = x ∧ b.id = x ∧
      (a.language ≠ b.language ∨ a.text ≠ b.text ∨ a.map.toList ≠ b.map.toList)

theorem find?_eq_some_iff (h : t.ids.Nodup) : t.find? x = some c ↔ c ∈ t.codes ∧ c.id = x :=
  find?_id_eq_some_iff h

theorem find?_eq_none_iff : t.find? x = none ↔ x ∉ t.ids := find?_id_eq_none_iff

theorem differs_iff (hp : p.ids.Nodup) (ht : t.ids.Nodup) :
    Differs p t x ↔ p.find? x ≠ t.find? x := by
  constructor
  · rintro (⟨hmem, hnone⟩ | ⟨hnone, hmem⟩ | ⟨a, ha, b, hb, rfl, hid, hdiffers⟩) heq
    · rw [← find?_eq_none_iff, ← heq, find?_eq_none_iff] at hnone
      exact hnone hmem
    · rw [← find?_eq_none_iff, heq, find?_eq_none_iff] at hnone
      exact hnone hmem
    · rw [(find?_eq_some_iff hp).2 ⟨ha, rfl⟩, (find?_eq_some_iff ht).2 ⟨hb, hid⟩] at heq
      obtain rfl := Option.some.inj heq
      simp at hdiffers
  · intro hne
    by_cases hpx : x ∈ p.ids
    · by_cases htx : x ∈ t.ids
      · obtain ⟨a, ha, rfl⟩ := List.mem_map.1 hpx
        obtain ⟨b, hb, hid⟩ := List.mem_map.1 htx
        refine .inr (.inr ⟨a, ha, b, hb, rfl, hid, ?_⟩)
        rw [(find?_eq_some_iff hp).2 ⟨ha, rfl⟩, (find?_eq_some_iff ht).2 ⟨hb, hid⟩, ne_eq,
          Option.some_inj, Code.eq_iff hid.symm] at hne
        tauto
      · exact .inl ⟨hpx, htx⟩
    · by_cases htx : x ∈ t.ids
      · exact .inr (.inl ⟨hpx, htx⟩)
      · rw [find?_eq_none_iff.2 hpx, find?_eq_none_iff.2 htx] at hne
        exact absurd rfl hne

end ProjectionTree

/-! ## Changed ids -/

namespace Draft

variable {d : Draft} {p : ProjectionTree}

/-- Of children with ids of their own just those are changed, or gone, that are not the same in both lists. -/
theorem mem_changedChildren_iff {olds news : List Code} (hnews : (news.map (·.id)).Nodup) :
    (x ∈ (news.filter fun c => olds.find? (·.id == c.id) != some c).map (·.id) ∨
      x ∈ (olds.filter fun old => !news.any (·.id == old.id)).map (·.id)) ↔
    olds.find? (·.id == x) ≠ news.find? (·.id == x) := by
  simp only [List.mem_map, List.mem_filter, bne_iff_ne, ne_eq, Bool.not_eq_true',
    List.any_eq_false, beq_iff_eq]
  rcases hnew : news.find? (·.id == x) with _ | c
  · have hnone := find?_id_eq_none_iff.1 hnew
    rw [hnew, find?_id_eq_none_iff, not_not, List.mem_map]
    constructor
    · rintro (⟨c, ⟨hc, -⟩, rfl⟩ | ⟨old, ⟨hold, -⟩, rfl⟩)
      · exact absurd (List.mem_map_of_mem hc) hnone
      · exact ⟨old, hold, rfl⟩
    · rintro ⟨old, hold, rfl⟩
      exact .inr ⟨old, ⟨hold, fun c hc hid => hnone (List.mem_map.2 ⟨c, hc, hid⟩)⟩, rfl⟩
  · rw [hnew]
    obtain ⟨hc, rfl⟩ := (find?_id_eq_some_iff hnews).1 hnew
    constructor
    · rintro (⟨b, ⟨hb, hne⟩, hid⟩ | ⟨old, ⟨-, hgone⟩, hid⟩)
      · obtain rfl := List.inj_on_of_nodup_map hnews hb hc hid
        exact hne
      · exact absurd hid.symm (hgone c hc)
    · exact fun hne => .inl ⟨c, ⟨hc, hne⟩, rfl⟩

/-- Only the root is named in front of the children. -/
theorem eq_root_of_mem {root : Code} (h : x ∈ if p.root = root then [] else [root.id]) :
    x = root.id := by
  split_ifs at h
  · exact absurd h List.not_mem_nil
  · exact List.mem_singleton.1 h

/-- **Changes.** The changed ids are those of the codes that are not the same in the tree before. -/
theorem mem_changedIds_iff (hd : d.ids.Nodup) (hp : p.ids.Nodup) (hroot : p.root.id = d.root.id) :
    x ∈ d.changedIds (some p) ↔
      p.codes.find? (·.id == x) ≠ (d.root :: d.children).find? (·.id == x) := by
  obtain ⟨hdroot, hdchildren⟩ := List.nodup_cons.1 hd
  obtain ⟨hproot, hpchildren⟩ := List.nodup_cons.1 hp
  show x ∈ _ ++ _ ++ _ ↔ (p.root :: p.children).find? _ ≠ _
  rw [List.append_assoc, List.mem_append, List.mem_append, mem_changedChildren_iff hdchildren]
  by_cases hx : d.root.id = x
  · subst hx
    rw [List.find?_cons_of_pos (by simpa using hroot), List.find?_cons_of_pos (by simp),
      find?_id_eq_none_iff.2 (hroot ▸ hproot), find?_id_eq_none_iff.2 hdroot]
    by_cases heq : p.root = d.root
    · simp [heq]
    · simp [heq]
  · rw [List.find?_cons_of_neg (by simpa [hroot] using hx), List.find?_cons_of_neg (by simpa using hx)]
    exact or_iff_right fun hmem => hx (eq_root_of_mem hmem).symm

/-- Each of them is named once. -/
theorem nodup_changedIds (hd : d.ids.Nodup) (hp : p.ids.Nodup) (hroot : p.root.id = d.root.id) :
    (d.changedIds (some p)).Nodup := by
  obtain ⟨hdroot, hdchildren⟩ := List.nodup_cons.1 hd
  obtain ⟨hproot, hpchildren⟩ := List.nodup_cons.1 hp
  refine List.nodup_append'.2 ⟨List.nodup_append'.2 ⟨?_, ?_, ?_⟩, ?_, ?_⟩
  · split_ifs
    · exact List.nodup_nil
    · exact List.nodup_singleton _
  · exact hdchildren.sublist (List.filter_sublist.map _)
  · intro x hx hchild
    obtain rfl := eq_root_of_mem hx
    exact hdroot ((List.filter_sublist.map _).subset hchild)
  · exact hpchildren.sublist (List.filter_sublist.map _)
  · intro x hx hgone
    obtain ⟨old, hold, rfl⟩ := List.mem_map.1 hgone
    obtain ⟨hold, hnone⟩ := List.mem_filter.1 hold
    rcases List.mem_append.1 hx with hx | hx
    · exact hproot (List.mem_map.2 ⟨old, hold, (eq_root_of_mem hx).trans hroot.symm⟩)
    · obtain ⟨c, hc, hid⟩ := List.mem_map.1 hx
      rw [Bool.not_eq_true', List.any_eq_false] at hnone
      exact hnone c (List.mem_filter.1 hc).1 (beq_iff_eq.2 hid)

end Draft

/-! ## Trees in succession -/

namespace Generator

/-- Some generator makes this tree of the document, with `previous` as the tree before. -/
def Makes (document : String) (previous : Option ProjectionTree) (t : ProjectionTree) : Prop :=
  ∃ (g next : Generator) (version : Int) (s : String) (kind : DocumentKind)
    (collection : Option String) (compiler : Compiler),
    g.generate document version s kind collection compiler previous = .ok (t, next)

variable {document : String} {previous : Option ProjectionTree} {p t : ProjectionTree}
  {ts : List ProjectionTree}

theorem Makes.nodup_ids (h : Makes document previous t) : t.ids.Nodup := by
  obtain ⟨g, next, version, s, kind, collection, compiler, h⟩ := h
  exact Generator.nodup_ids h

theorem Makes.root_id (h : Makes document previous t) : t.root.id = document := by
  obtain ⟨g, next, version, s, kind, collection, compiler, h⟩ := h
  exact Generator.root_id h

/-- The changed ids are those under which the tree before does not have the same code. -/
theorem Makes.mem_changed_iff (h : Makes document previous t)
    (hprevious : ∀ p ∈ previous, ∃ q, Makes document q p) (x : String) :
    x ∈ t.changed ↔ previous.bind (·.find? x) ≠ t.find? x := by
  have ht := h.nodup_ids
  have hroot := h.root_id
  obtain ⟨g, next, version, s, kind, collection, compiler, h⟩ := h
  obtain ⟨d, -, rfl⟩ := generate_draft h
  rcases previous with _ | p
  · rw [Option.bind_none, ne_comm, ne_eq, ProjectionTree.find?_eq_none_iff, not_not]
    rfl
  · obtain ⟨q, hp⟩ := hprevious p rfl
    exact Draft.mem_changedIds_iff ht hp.nodup_ids (hp.root_id.trans hroot.symm)

theorem Makes.nodup_changed (h : Makes document previous t)
    (hprevious : ∀ p ∈ previous, ∃ q, Makes document q p) : t.changed.Nodup := by
  have ht := h.nodup_ids
  have hroot := h.root_id
  obtain ⟨g, next, version, s, kind, collection, compiler, h⟩ := h
  obtain ⟨d, -, rfl⟩ := generate_draft h
  rcases previous with _ | p
  · exact ht
  · obtain ⟨q, hp⟩ := hprevious p rfl
    exact Draft.nodup_changedIds ht hp.nodup_ids (hp.root_id.trans hroot.symm)

/-- Trees of one document, each made with the one before as its previous tree. -/
inductive Succession (document : String) : List ProjectionTree → Prop
  | nil : Succession document []
  | make {ts : List ProjectionTree} {t : ProjectionTree} : Succession document ts →
      Makes document ts.getLast? t → Succession document (ts ++ [t])

theorem Succession.makes (h : Succession document ts) : ∀ p ∈ ts.getLast?, ∃ q, Makes document q p := by
  cases h with
  | nil => exact fun _ hp => absurd hp (Option.not_mem_none _)
  | make _ hmakes =>
    intro p hp
    rw [List.getLast?_concat] at hp
    obtain rfl := Option.some.inj hp
    exact ⟨_, hmakes⟩

end Generator

/-! ## Keeping up with the changes -/

namespace ProjectionTree

variable {t : ProjectionTree}

/-- Fetches one code again, or forgets it if it is gone. -/
def fetch (t : ProjectionTree) (held : Table Code) (x : String) : Table Code :=
  match t.find? x with
  | some c => held.put x c
  | none => held.erase x

/-- Fetches again what has changed, and nothing else. -/
def refresh (held : Table Code) (t : ProjectionTree) : Table Code := t.changed.foldl t.fetch held

/-- The codes that are held after some trees. -/
def held (ts : List ProjectionTree) : Table Code := ts.foldl refresh .empty

theorem get?_fetch (t : ProjectionTree) (held : Table Code) (x y : String) :
    (t.fetch held x).get? y = if x = y then t.find? y else held.get? y := by
  unfold fetch
  split
  · next c hfind =>
    rw [Table.get?_put]
    split_ifs with hxy
    · rw [← hxy, hfind]
    · rfl
  · next hfind =>
    rw [Table.get?_erase]
    split_ifs with hxy
    · rw [← hxy, hfind]
    · rfl

theorem get?_foldl_fetch (t : ProjectionTree) (xs : List String) (held : Table Code) (y : String) :
    (xs.foldl t.fetch held).get? y = if y ∈ xs then t.find? y else held.get? y := by
  induction xs generalizing held with
  | nil => rfl
  | cons x xs ih =>
    rw [List.foldl_cons, ih, get?_fetch]
    by_cases hxs : y ∈ xs
    · rw [if_pos hxs, if_pos (List.mem_cons_of_mem x hxs)]
    · rw [if_neg hxs]
      by_cases hxy : x = y
      · rw [if_pos hxy, if_pos (List.mem_cons.2 (.inl hxy.symm))]
      · rw [if_neg hxy, if_neg]
        rintro hmem
        rcases List.mem_cons.1 hmem with heq | hmem
        · exact hxy heq.symm
        · exact hxs hmem

end ProjectionTree

namespace Generator

open ProjectionTree

variable {document : String} {previous : Option ProjectionTree} {t : ProjectionTree}
  {ts : List ProjectionTree}

/-- **Succession.** After any trees of a document the codes of the latest one are held, and no others. -/
theorem Succession.get?_held (h : Succession document ts) (x : String) :
    (held ts).get? x = ts.getLast?.bind (·.find? x) := by
  induction h with
  | nil => rfl
  | @make ts t hts hmakes ih =>
    rw [held, List.foldl_concat, refresh, get?_foldl_fetch, List.getLast?_concat, Option.bind_some]
    split_ifs with hx
    · rfl
    · rw [hmakes.mem_changed_iff hts.makes, not_not] at hx
      exact ih.trans hx

/-- **Changes.** The codes of a tree have ids of their own, and the changed ids name each once what is new,
gone or different since the tree before, everything if there was none. Fetching just these after each of
any number of trees keeps all codes of the latest one, and none that are gone. -/
theorem changed_exact (document : String) :
    (∀ previous t, (∀ p ∈ previous, ∃ q, Makes document q p) → Makes document previous t →
      t.ids.Nodup ∧ t.changed.Nodup ∧
      ∀ x, x ∈ t.changed ↔
        match previous with
        | none => x ∈ t.ids
        | some p => Differs p t x) ∧
    ∀ ts t, Succession document (ts ++ [t]) →
      (∀ c ∈ t.codes, (held (ts ++ [t])).get? c.id = some c) ∧
      ∀ x, x ∉ t.ids → (held (ts ++ [t])).get? x = none := by
  constructor
  · intro previous t hprevious ht
    refine ⟨ht.nodup_ids, ht.nodup_changed hprevious, fun x => ?_⟩
    rw [ht.mem_changed_iff hprevious]
    rcases previous with _ | p
    · rw [Option.bind_none, ne_comm, ne_eq, find?_eq_none_iff, not_not]
    · obtain ⟨q, hp⟩ := hprevious p rfl
      exact (differs_iff hp.nodup_ids ht.nodup_ids).symm
  · intro ts t h
    have hheld := h.get?_held
    obtain ⟨q, ht⟩ := h.makes t (List.getLast?_concat)
    rw [List.getLast?_concat] at hheld
    refine ⟨fun c hc => ?_, fun x hx => ?_⟩
    · rw [hheld]
      exact (find?_eq_some_iff ht.nodup_ids).2 ⟨hc, rfl⟩
    · rw [hheld]
      exact find?_eq_none_iff.2 hx

/-- Two styles, of which the first is edited and the second removed. -/
def styledText : String := "<style>i\x7b\x7d</style><style>b\x7b\x7d</style>"

def restyledText : String := "<style>u\x7b\x7d</style>"

theorem changed_exact_restyled :
    ∃ p t, Makes "a" none p ∧ Makes "a" (some p) t ∧ Succession "a" ([p] ++ [t]) ∧
      p.ids = ["a", "a.tsx", "a.0.css", "a.1.css"] ∧ t.changed = ["a", "a.0.css", "a.1.css"] ∧
      (t.ids.Nodup ∧ t.changed.Nodup ∧ ∀ x, x ∈ t.changed ↔ Differs p t x) ∧
      (∀ c ∈ t.codes, (held ([p] ++ [t])).get? c.id = some c) ∧
      ∀ x, x ∉ t.ids → (held ([p] ++ [t])).get? x = none := by
  have h : ∃ p g t next,
      generate {} "a" 1 styledText .template none (fun _ _ => .error .panicked) none = .ok (p, g) ∧
      generate g "a" 2 restyledText .template none (fun _ _ => .error .panicked) (some p) =
        .ok (t, next) ∧
      p.ids = ["a", "a.tsx", "a.0.css", "a.1.css"] ∧ t.changed = ["a", "a.0.css", "a.1.css"] :=
    ⟨_, _, _, _, rfl, rfl, by decide +kernel, by decide +kernel⟩
  obtain ⟨p, g, t, next, hfirst, hsecond, hids, hchanged⟩ := h
  have hp : Makes "a" none p := ⟨_, _, _, _, _, _, _, hfirst⟩
  have ht : Makes "a" (some p) t := ⟨_, _, _, _, _, _, _, hsecond⟩
  have hsuccession : Succession "a" ([p] ++ [t]) := (Succession.nil.make hp).make ht
  refine ⟨p, t, hp, ht, hsuccession, hids, hchanged, ?_⟩
  obtain ⟨hexact, hheld⟩ := changed_exact "a"
  refine ⟨hexact (some p) t (fun q hq => ?_) ht, hheld [p] t hsuccession⟩
  obtain rfl := Option.some.inj hq
  exact ⟨none, hp⟩

end Generator

end Polyglot
