import Polyglot.Proofs.Projection.Layout
import Polyglot.Session.Workspace

/-!
# The life of a document

A document is never opened, open at a version, or closed, and that alone decides which calls about it are
answered and how the others are refused (`Standing.after`). A store holds exactly the standing that the
calls so far led to, and a workspace has a tree and a generator for just the open documents, the tree made
from the stored snapshot (`Reached.standing`). Calls that are refused change nothing, and any other
replaces what there is of its document alone (`perform_granted`, `lifecycle`).
-/

namespace Polyglot

/-! ## Standings -/

/-- What the calls so far have made of one document. -/
inductive Standing where
  | never
  | closed
  | opened (text : String) (version : Int)
deriving DecidableEq

namespace Standing

/-- A newer version of an open document, its text made from the one before. -/
def renew (x : Standing) (id : String) (version : Int) (text : String → String) :
    Except StoreError Standing :=
  match x with
  | never => .error (.notOpen id)
  | closed => .error (.closed id)
  | opened before current =>
    if current < version then .ok (opened (text before) version)
    else .error (.staleVersion id current version)

/-- What a call makes of its document, or why it is refused. -/
def after (x : Standing) : Request → Except StoreError Standing
  | .openDocument id text version =>
    match x with
    | opened .. => .error (.alreadyOpen id)
    | _ => .ok (opened text version)
  | .update id text version => x.renew id version fun _ => text
  | .edit id changes version => x.renew id version fun text => (Snapshot.mk text version 0).edit changes
  | .close id =>
    match x with
    | never => .error (.notOpen id)
    | closed => .error (.closed id)
    | opened .. => .ok closed

/-- The standing after a call: as it was, if the call is refused. -/
def next (x : Standing) (r : Request) : Standing :=
  match x.after r with
  | .ok y => y
  | .error _ => x

/-- The standing of a document after calls about any documents. -/
def ofCalls (id : String) (rs : List Request) : Standing :=
  (rs.filter fun r => r.id == id).foldl next never

variable {id : String} {rs : List Request} {r : Request}

theorem filter_append_self :
    (rs ++ [r]).filter (fun r' => r'.id == r.id) = rs.filter (fun r' => r'.id == r.id) ++ [r] := by
  rw [List.filter_append, List.filter_cons_of_pos (by exact beq_self_eq_true r.id), List.filter_nil]

theorem filter_append_other (h : r.id ≠ id) :
    (rs ++ [r]).filter (fun r' => r'.id == id) = rs.filter fun r' => r'.id == id := by
  rw [List.filter_append, List.filter_cons_of_neg (by rwa [beq_iff_eq]), List.filter_nil,
    List.append_nil]

theorem ofCalls_append_self : ofCalls r.id (rs ++ [r]) = (ofCalls r.id rs).next r := by
  unfold ofCalls
  rw [filter_append_self, List.foldl_concat]

theorem ofCalls_append_other (h : r.id ≠ id) : ofCalls id (rs ++ [r]) = ofCalls id rs := by
  unfold ofCalls
  rw [filter_append_other h]

end Standing

/-! ## Trees -/

/-- A tree is of the document, version and text that it was asked for. -/
theorem Generator.generate_source {g next : Generator} {id : String} {version : Int} {s : String}
    {kind : DocumentKind} {collection : Option String} {compiler : Compiler}
    {previous : Option ProjectionTree} {tree : ProjectionTree}
    (h : g.generate id version s kind collection compiler previous = .ok (tree, next)) :
    tree.sourceId = id ∧ tree.version = version ∧ tree.root.text = s := by
  obtain ⟨d, hdraft, rfl⟩ := generate_draft h
  obtain ⟨language, hroot⟩ := draft_root hdraft
  exact ⟨rfl, rfl, congrArg Code.text hroot⟩

/-! ## Stores -/

namespace Store

variable {s t : Store} {id : String}

/-- The standing that a store holds for a document. -/
def standing (s : Store) (id : String) : Standing :=
  match s.states.get? id with
  | none => .never
  | some .closed => .closed
  | some (.opened x) => .opened x.text x.version

theorem standing_publish (s : Store) (id text : String) (version : Int) (other : String) :
    (s.publish id text version).1.standing other =
      if id = other then .opened text version else s.standing other := by
  unfold standing publish
  rw [Table.get?_put]
  split_ifs
  · rfl
  · rfl

theorem standing_close (h : s.close id = .ok t) (other : String) :
    t.standing other = if id = other then .closed else s.standing other := by
  unfold close at h
  split at h <;> cases h
  unfold standing
  rw [Table.get?_put]
  split_ifs
  · rfl
  · rfl

/-- An open document has its snapshot, and no other document has one. -/
theorem get?_of_standing (s : Store) (id : String) :
    match s.standing id with
    | .opened text version => ∃ x, s.get? id = some x ∧ x.text = text ∧ x.version = version
    | _ => s.get? id = none := by
  unfold standing get?
  rcases s.states.get? id with _ | (x | _)
  · rfl
  · exact ⟨x, rfl, rfl, rfl⟩
  · rfl

/-- What stands before an update, or the reason to refuse it. -/
theorem current_of_standing (s : Store) (id : String) (version : Int) (text : String → String) :
    match (s.standing id).renew id version text with
    | .error e => s.current id version = .error e
    | .ok y => ∃ x, s.current id version = .ok x ∧ y = .opened (text x.text) version := by
  unfold current standing
  rcases s.states.get? id with _ | (x | _)
  · rfl
  · show match Standing.renew (.opened x.text x.version) id version text with
      | .error e => _
      | .ok y => _
    unfold Standing.renew
    by_cases h : version ≤ x.version
    · simp only [if_pos h, if_neg (Int.not_lt.2 h)]
    · simp only [if_neg h, if_pos (Int.lt_of_not_ge h)]
      exact ⟨x, rfl, rfl⟩
  · rfl

end Store

namespace Workspace

variable {s t : Store} {w w' : Workspace} {id : String} {compiler : Compiler} {config : Config}
  {rs : List Request}

/-- The store moved a document on to a standing and left all others as they were. -/
structure Moved (s t : Store) (id : String) (y : Standing) (snapshot : Option Snapshot) : Prop where
  snapshot : t.get? id = snapshot
  standing : ∀ other, t.standing other = if id = other then y else s.standing other
  others : ∀ other, id ≠ other → t.get? other = s.get? other

theorem moved_publish (s : Store) (id text : String) (version : Int) :
    Moved s (s.publish id text version).1 id (.opened text version)
      (some (s.publish id text version).2) where
  snapshot := by rw [Store.get?_publish, if_pos rfl]
  standing := Store.standing_publish s id text version
  others other h := by rw [Store.get?_publish, if_neg h]

theorem moved_close (h : s.close id = .ok t) : Moved s t id .closed none where
  snapshot := by rw [Store.get?_close h, if_pos rfl]
  standing := Store.standing_close h
  others other hother := by rw [Store.get?_close h, if_neg hother]

/-- A newer version is stored if the standing lets it be. -/
theorem renew_standing (s : Store) (id : String) (version : Int) (text : String → String) :
    let answer := ((s.current id version).map fun x => s.publish id (text x.text) version).map
      fun p => (p.1, some p.2)
    match (s.standing id).renew id version text with
    | .error e => answer = .error e
    | .ok y => ∃ t snapshot, answer = .ok (t, snapshot) ∧ Moved s t id y snapshot := by
  intro answer
  have h := s.current_of_standing id version text
  rcases hrenew : (s.standing id).renew id version text with e | y
  · rw [hrenew] at h
    show ((s.current id version).map _).map _ = _
    rw [h]
    rfl
  · rw [hrenew] at h
    obtain ⟨x, hx, rfl⟩ := h
    refine ⟨_, _, ?_, moved_publish s id (text x.text) version⟩
    show ((s.current id version).map _).map _ = _
    rw [hx]
    rfl

/-- **Stores.** A store refuses a call for the reason that the standing of the document gives, and
otherwise moves that document on. -/
theorem advance_standing (s : Store) (r : Request) :
    match (s.standing r.id).after r with
    | .error e => advance s r = .error e
    | .ok y => ∃ t snapshot, advance s r = .ok (t, snapshot) ∧ Moved s t r.id y snapshot := by
  cases r with
  | openDocument id text version =>
    have hopen : s.isOpen id = false →
        advance s (.openDocument id text version) =
          .ok ((s.publish id text version).1, some (s.publish id text version).2) := by
      intro h
      show ((if s.isOpen id = true then _ else _ : Except StoreError _).map _) = _
      rw [h]
      rfl
    unfold Store.isOpen Store.get? at hopen
    show match (s.standing id).after (.openDocument id text version) with
      | .error e => _
      | .ok y => _
    unfold Store.standing
    rcases hstate : s.states.get? id with _ | (x | _)
    · exact ⟨_, _, hopen (by rw [hstate]; rfl), moved_publish s id text version⟩
    · show ((if s.isOpen id = true then _ else _ : Except StoreError _).map _) = _
      unfold Store.isOpen Store.get?
      rw [hstate]
      rfl
    · exact ⟨_, _, hopen (by rw [hstate]; rfl), moved_publish s id text version⟩
  | update id text version => exact renew_standing s id version fun _ => text
  | edit id changes version =>
    exact renew_standing s id version fun text => (Snapshot.mk text version 0).edit changes
  | close id =>
    show match (s.standing id).after (.close id) with
      | .error e => _
      | .ok y => _
    unfold Store.standing
    rcases hstate : s.states.get? id with _ | (x | _)
    · show (s.close id).map _ = _
      unfold Store.close
      rw [hstate]
      rfl
    · have hclose : s.close id = .ok { s with states := s.states.put id .closed } := by
        unfold Store.close
        rw [hstate]
      refine ⟨_, none, ?_, moved_close hclose⟩
      show (s.close id).map _ = _
      rw [hclose]
      rfl
    · show (s.close id).map _ = _
      unfold Store.close
      rw [hstate]
      rfl

/-! ## What a call makes of its document -/

/-- The tree and the generator that a document gets with a standing. -/
def made (w : Workspace) (compiler : Compiler) (id : String) :
    Standing → Except Data.TornCharacter (Option (ProjectionTree × Generator))
  | .opened text version =>
    (((w.generators.get? id).getD {}).generate id version text (w.config.kindOf id)
      (w.config.collectionOf? id) compiler (w.tree? id)).map some
  | _ => .ok none

/-- One document has a new standing, and what was made for it; all others have what they had. -/
structure Replaced (w w' : Workspace) (id : String) (y : Standing)
    (made : Option (ProjectionTree × Generator)) : Prop where
  config : w'.config = w.config
  snapshot : ∀ other, id ≠ other → w'.snapshot? other = w.snapshot? other
  standing : ∀ other, w'.store.standing other = if id = other then y else w.store.standing other
  tree : ∀ other, w'.tree? other = if id = other then made.map (·.1) else w.tree? other
  generator : ∀ other,
    w'.generators.get? other = if id = other then made.map (·.2) else w.generators.get? other

variable {r : Request} {reply : Reply} {y : Standing}

/-- A call that is refused changes nothing. -/
theorem perform_refused {e : StoreError} (h : (w.store.standing r.id).after r = .error e) :
    w.perform compiler r = .ok (w, .error e) := by
  have hadvance := advance_standing w.store r
  rw [h] at hadvance
  unfold perform
  rw [hadvance]

/-- A snapshot that is stored is answered with the tree that is made of it. -/
theorem perform_snapshot (compiler : Compiler) {x : Snapshot}
    (h : advance w.store r = .ok (t, some x)) :
    match w.made compiler r.id (.opened x.text x.version) with
    | .error e => w.perform compiler r = .error e
    | .ok made => ∃ tree next, made = some (tree, next) ∧
        w.perform compiler r = .ok (⟨w.config, t, w.trees.put r.id tree,
          w.generators.put r.id next⟩, .ok (some tree)) := by
  have hmade : w.made compiler r.id (.opened x.text x.version) =
      (((w.generators.get? r.id).getD {}).generate r.id x.version x.text (w.config.kindOf r.id)
        (w.config.collectionOf? r.id) compiler (w.tree? r.id)).map some := rfl
  have hperform : w.perform compiler r =
      (w.publish compiler r.id t x >>= fun p => pure (p.1, .ok (some p.2))) := by
    unfold perform
    rw [h]
  unfold publish at hperform
  dsimp only at hperform
  rcases hgenerate : ((w.generators.get? r.id).getD {}).generate r.id x.version x.text
    (w.config.kindOf r.id) (w.config.collectionOf? r.id) compiler (w.tree? r.id) with e | ⟨tree, next⟩
  · rw [hgenerate] at hmade hperform
    rw [hmade]
    exact hperform
  · rw [hgenerate] at hmade hperform
    rw [hmade]
    exact ⟨tree, next, rfl, hperform⟩

/-- **Calls.** A call that is granted replaces what there is of its document, and that alone. -/
theorem perform_granted (compiler : Compiler) (h : (w.store.standing r.id).after r = .ok y) :
    match w.made compiler r.id y with
    | .error e => w.perform compiler r = .error e
    | .ok made => ∃ w', w.perform compiler r = .ok (w', .ok (made.map (·.1))) ∧
        Replaced w w' r.id y made := by
  have hadvance := advance_standing w.store r
  rw [h] at hadvance
  obtain ⟨t, snapshot, hadvance, hmoved⟩ := hadvance
  have hget := t.get?_of_standing r.id
  rw [hmoved.standing r.id, if_pos rfl, hmoved.snapshot] at hget
  have hclosed (hnone : snapshot = none) :
      ∃ w', w.perform compiler r = .ok (w', .ok none) ∧ Replaced w w' r.id y none := by
    refine ⟨w.forget r.id t, ?_, rfl, hmoved.others, hmoved.standing,
      Table.get?_erase w.trees r.id, Table.get?_erase w.generators r.id⟩
    unfold perform
    rw [hadvance, hnone]
  cases y with
  | never => exact hclosed hget
  | closed => exact hclosed hget
  | opened text version =>
    obtain ⟨x, rfl, rfl, rfl⟩ := hget
    have hperform := perform_snapshot compiler hadvance
    rcases hmade : w.made compiler r.id (.opened x.text x.version) with e | made
    · rw [hmade] at hperform
      exact hperform
    · rw [hmade] at hperform
      obtain ⟨tree, next, rfl, hperform⟩ := hperform
      exact ⟨_, hperform, rfl, hmoved.others, hmoved.standing,
        fun other => Table.get?_put w.trees r.id other tree, fun other => Table.get?_put w.generators r.id other next⟩

theorem exists_made_of_perform (hafter : (w.store.standing r.id).after r = .ok y)
    (h : w.perform compiler r = .ok (w', reply)) :
    ∃ made, w.made compiler r.id y = .ok made ∧ reply = .ok (made.map (·.1)) ∧
      Replaced w w' r.id y made := by
  have hgranted := perform_granted compiler hafter
  rcases hmade : w.made compiler r.id y with e | made
  · rw [hmade, h] at hgranted
    cases hgranted
  · rw [hmade] at hgranted
    obtain ⟨w₁, hperform, hreplaced⟩ := hgranted
    obtain ⟨rfl, rfl⟩ := Prod.mk.inj (Except.ok.inj (hperform.symm.trans h))
    exact ⟨made, rfl, rfl, hreplaced⟩

/-! ## Workspaces -/

/-- A document has a snapshot, a tree and a generator, the tree made from the snapshot, or it has none. -/
def Consistent (w : Workspace) (id : String) : Prop :=
  match w.snapshot? id with
  | none => w.tree? id = none ∧ w.generators.get? id = none
  | some x => ∃ tree generator, w.tree? id = some tree ∧ w.generators.get? id = some generator ∧
      tree.sourceId = id ∧ tree.version = x.version ∧ tree.root.text = x.text

/-- A workspace of a configuration after calls, each answered with any outcome of the compiler. -/
inductive Reached (config : Config) : List Request → Workspace → Prop
  | empty : Reached config [] (empty config)
  | call {rs : List Request} {w w' : Workspace} {compiler : Compiler} {r : Request} {reply : Reply} :
      Reached config rs w → w.perform compiler r = .ok (w', reply) → Reached config (rs ++ [r]) w'

theorem Reached.run {rs' : List Request} {replies : List Reply} (h : Reached config rs w)
    (hrun : w.run compiler rs' = .ok (w', replies)) : Reached config (rs ++ rs') w' := by
  induction rs' generalizing rs w replies with
  | nil =>
    cases hrun
    rw [List.append_nil]
    exact h
  | cons r rs' ih =>
    obtain ⟨⟨next, reply⟩, hperform, hrun⟩ := exists_of_bind_eq_ok hrun
    obtain ⟨⟨last, replies⟩, hrest, hlast⟩ := exists_of_bind_eq_ok hrun
    cases hlast
    rw [List.append_cons]
    exact ih (h.call hperform) hrest

theorem Consistent.of_eq (h : w.Consistent id) (hsnapshot : w'.snapshot? id = w.snapshot? id)
    (htree : w'.tree? id = w.tree? id)
    (hgenerator : w'.generators.get? id = w.generators.get? id) : w'.Consistent id := by
  unfold Consistent at h ⊢
  rw [hsnapshot, htree, hgenerator]
  exact h

/-- What a call leaves of its document is consistent. -/
theorem Replaced.consistent {made : Option (ProjectionTree × Generator)}
    (h : Replaced w w' id y made) (hmade : w.made compiler id y = .ok made) : w'.Consistent id := by
  have hget := w'.store.get?_of_standing id
  rw [h.standing, if_pos rfl] at hget
  have hnone (hsnapshot : w'.store.get? id = none) (hmade : made = none) : w'.Consistent id := by
    unfold Consistent
    rw [show w'.snapshot? id = none from hsnapshot, h.tree, h.generator, if_pos rfl, if_pos rfl, hmade]
    exact ⟨rfl, rfl⟩
  cases y with
  | never => exact hnone hget (Except.ok.inj hmade).symm
  | closed => exact hnone hget (Except.ok.inj hmade).symm
  | opened text version =>
    obtain ⟨x, hsnapshot, rfl, rfl⟩ := hget
    obtain ⟨⟨tree, generator⟩, hgenerate, rfl⟩ := exists_of_map_eq_ok hmade
    unfold Consistent
    rw [show w'.snapshot? id = some x from hsnapshot, h.tree, h.generator, if_pos rfl, if_pos rfl]
    exact ⟨tree, generator, rfl, rfl, Generator.generate_source hgenerate⟩

/-- A call that is refused changes nothing. Any other moves its document on in the store and has the tree
of that document as its answer; each document that was consistent still is, and that one is now. -/
theorem perform_standing (w : Workspace) (compiler : Compiler) (r : Request) :
    match (w.store.standing r.id).after r with
    | .error e => w.perform compiler r = .ok (w, .error e)
    | .ok y => ∀ w' reply, w.perform compiler r = .ok (w', reply) →
        reply = .ok (w'.tree? r.id) ∧
        (∀ id, w'.store.standing id = if r.id = id then y else w.store.standing id) ∧
        ∀ id, r.id = id ∨ w.Consistent id → w'.Consistent id := by
  rcases hafter : (w.store.standing r.id).after r with e | y
  · exact perform_refused hafter
  intro w' reply h
  obtain ⟨made, hmade, rfl, hreplaced⟩ := exists_made_of_perform hafter h
  refine ⟨by rw [hreplaced.tree, if_pos rfl], hreplaced.standing, fun id hid => ?_⟩
  by_cases heq : r.id = id
  · subst heq
    exact hreplaced.consistent hmade
  · refine (hid.resolve_left heq).of_eq (hreplaced.snapshot id heq) ?_ ?_
    · rw [hreplaced.tree, if_neg heq]
    · rw [hreplaced.generator, if_neg heq]

/-- **Runs.** After any calls the store holds the standings that they lead to, and every document is
consistent. -/
theorem Reached.standing (h : Reached config rs w) :
    ∀ id, w.store.standing id = Standing.ofCalls id rs ∧ w.Consistent id := by
  induction h with
  | empty => exact fun id => ⟨rfl, rfl, rfl⟩
  | @call rs w w' compiler r reply _ hperform ih =>
    intro id
    have hstep := w.perform_standing compiler r
    rcases hafter : (w.store.standing r.id).after r with e | y
    · rw [hafter] at hstep
      obtain rfl : w = w' := congrArg Prod.fst (Except.ok.inj (hstep.symm.trans hperform))
      refine ⟨?_, (ih id).2⟩
      rw [(ih id).1]
      by_cases heq : r.id = id
      · subst heq
        rw [(ih r.id).1] at hafter
        rw [Standing.ofCalls_append_self, Standing.next, hafter]
      · rw [Standing.ofCalls_append_other heq]
    · rw [hafter] at hstep
      obtain ⟨-, hstanding, hconsistent⟩ := hstep w' reply hperform
      refine ⟨?_, hconsistent id (.inr (ih id).2)⟩
      rw [hstanding id]
      by_cases heq : r.id = id
      · subst heq
        rw [(ih r.id).1] at hafter
        rw [if_pos rfl, Standing.ofCalls_append_self, Standing.next, hafter]
      · rw [if_neg heq, Standing.ofCalls_append_other heq, (ih id).1]

/-- Version `v` of a document without a snapshot is not current. -/
theorem isCurrent_eq_false (h : w.snapshot? id = none) (v : Int) : w.isCurrent id v = false := by
  show (w.snapshot? id).any _ = false
  rw [h]
  rfl

theorem isCurrent_iff {x : Snapshot} (h : w.snapshot? id = some x) (v : Int) :
    w.isCurrent id v = true ↔ v = x.version := by
  show (w.snapshot? id).any _ = true ↔ _
  rw [h, Option.any_some, beq_iff_eq]
  exact eq_comm

/-- **Lifecycle.** In a workspace after any calls, the standing of a document decides whether the next call
about it is refused, and why. A refused call leaves the workspace as it is; any other is answered with the
tree of the document. There are a snapshot, a tree and a generator for just the open documents, and they
have the text and the version that the calls led to. -/
theorem lifecycle (h : Reached config rs w) :
    (∀ compiler r,
      match (Standing.ofCalls r.id rs).after r with
      | .error e => w.perform compiler r = .ok (w, .error e)
      | .ok _ => ∀ w' reply, w.perform compiler r = .ok (w', reply) → reply = .ok (w'.tree? r.id)) ∧
    ∀ id,
      match Standing.ofCalls id rs with
      | .opened text version => ∃ x tree generator,
          w.snapshot? id = some x ∧ w.tree? id = some tree ∧ w.generators.get? id = some generator ∧
          (x.text = text ∧ x.version = version) ∧
          (tree.sourceId = id ∧ tree.version = version ∧ tree.root.text = text) ∧
          ∀ v, w.isCurrent id v = true ↔ v = version
      | _ => w.snapshot? id = none ∧ w.tree? id = none ∧ w.generators.get? id = none ∧
          ∀ v, w.isCurrent id v = false := by
  constructor
  · intro compiler r
    have hstep := w.perform_standing compiler r
    rw [(h.standing r.id).1] at hstep
    rcases hafter : (Standing.ofCalls r.id rs).after r with e | y
    · rw [hafter] at hstep
      exact hstep
    · rw [hafter] at hstep
      exact fun w' reply hperform => (hstep w' reply hperform).1
  · intro id
    obtain ⟨hstanding, hconsistent⟩ := h.standing id
    have hget := w.store.get?_of_standing id
    rw [hstanding] at hget
    have hnone (hsnapshot : w.snapshot? id = none) :
        w.snapshot? id = none ∧ w.tree? id = none ∧ w.generators.get? id = none ∧
          ∀ v, w.isCurrent id v = false := by
      unfold Consistent at hconsistent
      rw [hsnapshot] at hconsistent
      exact ⟨hsnapshot, hconsistent.1, hconsistent.2, isCurrent_eq_false hsnapshot⟩
    rcases hcalls : Standing.ofCalls id rs with _ | _ | ⟨text, version⟩
    · rw [hcalls] at hget
      exact hnone hget
    · rw [hcalls] at hget
      exact hnone hget
    · rw [hcalls] at hget
      obtain ⟨x, hsnapshot, rfl, rfl⟩ := hget
      unfold Consistent at hconsistent
      rw [show w.snapshot? id = some x from hsnapshot] at hconsistent
      obtain ⟨tree, generator, htree, hgenerator, hsource⟩ := hconsistent
      exact ⟨x, tree, generator, hsnapshot, htree, hgenerator, ⟨rfl, rfl⟩, hsource,
        isCurrent_iff hsnapshot⟩

/-- A document that is opened, updated in vain, closed, edited in vain, and opened again at a lower
version. -/
def reopenedCalls : List Request :=
  [.openDocument "a" "x" 3, .update "a" "y" 3, .close "a", .edit "a" [] 4, .openDocument "a" "z" 1]

theorem lifecycle_reopened :
    ∃ w replies, (empty .standard).run (fun _ _ => .error (.timeout 0)) reopenedCalls =
        .ok (w, replies) ∧
      (replies.map fun reply => match reply with | .error e => some e | .ok _ => none) =
        [none, some (.staleVersion "a" 3 3), none, some (.closed "a"), none] ∧
      Standing.ofCalls "a" reopenedCalls = .opened "z" 1 ∧
      Reached .standard reopenedCalls w ∧
      (∀ compiler r,
        match (Standing.ofCalls r.id reopenedCalls).after r with
        | .error e => w.perform compiler r = .ok (w, .error e)
        | .ok _ => ∀ w' reply,
            w.perform compiler r = .ok (w', reply) → reply = .ok (w'.tree? r.id)) ∧
      ∀ id,
        match Standing.ofCalls id reopenedCalls with
        | .opened text version => ∃ x tree generator,
            w.snapshot? id = some x ∧ w.tree? id = some tree ∧
            w.generators.get? id = some generator ∧
            (x.text = text ∧ x.version = version) ∧
            (tree.sourceId = id ∧ tree.version = version ∧ tree.root.text = text) ∧
            ∀ v, w.isCurrent id v = true ↔ v = version
        | _ => w.snapshot? id = none ∧ w.tree? id = none ∧ w.generators.get? id = none ∧
            ∀ v, w.isCurrent id v = false := by
  have hrun : ∃ w replies, (empty .standard).run (fun _ _ => .error (.timeout 0)) reopenedCalls =
        .ok (w, replies) ∧
      (replies.map fun reply => match reply with | .error e => some e | .ok _ => none) =
        [none, some (.staleVersion "a" 3 3), none, some (.closed "a"), none] :=
    ⟨_, _, rfl, rfl⟩
  obtain ⟨w, replies, hrun, hreplies⟩ := hrun
  have h : Reached .standard reopenedCalls w := Reached.empty.run hrun
  exact ⟨w, replies, hrun, hreplies, rfl, h, lifecycle h⟩

end Workspace

end Polyglot
