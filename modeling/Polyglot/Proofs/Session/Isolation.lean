import Polyglot.Proofs.Session.Lifecycle

/-!
# Isolation of documents

What a call makes of its document depends on the standing of this document, its tree and its generator
alone, and on nothing that there is of others (`Alike.perform`). A document that is opened has neither a
tree nor a generator left from before. So a new workspace that answers just the calls that were granted since then, its session,
comes to have the same of this document (`Answered.isolated`), and answers with the same trees
(`run_isolated`).
-/

namespace Polyglot

/-! ## Sessions -/

/-- The call opens its document. -/
def Request.opens : Request → Bool
  | .openDocument .. => true
  | _ => false

/-- A document gets to be open by a call that opens it, whatever was known of it, or stays open. -/
theorem Standing.after_eq_opened {x : Standing} {r : Request} {text : String} {version : Int}
    (h : x.after r = .ok (.opened text version)) :
    (r.opens = true ∧ Standing.never.after r = .ok (.opened text version) ∧
        (x = .never ∨ x = .closed)) ∨
      (r.opens = false ∧ ∃ before current, x = .opened before current) := by
  cases r with
  | openDocument id text' version' =>
    cases x with
    | never => exact .inl ⟨rfl, h, .inl rfl⟩
    | closed => exact .inl ⟨rfl, h, .inr rfl⟩
    | opened before current => cases h
  | update id text' version' =>
    cases x with
    | never => cases h
    | closed => cases h
    | opened before current => exact .inr ⟨rfl, before, current, rfl⟩
  | edit id changes version' =>
    cases x with
    | never => cases h
    | closed => cases h
    | opened before current => exact .inr ⟨rfl, before, current, rfl⟩
  | close id =>
    cases x with
    | never => cases h
    | closed => cases h
    | opened before current => cases h

namespace Workspace

variable {w w' v v' : Workspace} {config : Config} {compiler : Compiler} {id : String} {r : Request}
  {reply : Reply} {calls : List (Request × Reply)} {rs : List Request} {replies : List Reply}
  {y : Standing} {tree : ProjectionTree}

/-- The calls about a document that were granted since it was last opened, that call included. -/
def session (id : String) (calls : List (Request × Reply)) : List Request :=
  calls.foldl (fun session call =>
    if call.1.id = id ∧ call.2.isOk = true then
      if call.1.opens then [call.1] else session ++ [call.1]
    else session) []

theorem session_concat (id : String) (calls : List (Request × Reply)) (r : Request) (reply : Reply) :
    session id (calls ++ [(r, reply)]) =
      if r.id = id ∧ reply.isOk = true then if r.opens then [r] else session id calls ++ [r]
      else session id calls :=
  List.foldl_concat ..

/-! ## Workspaces that have the same of a document -/

/-- Both workspaces have the same configuration, and of this document the same tree and generator. -/
structure Alike (w v : Workspace) (id : String) : Prop where
  config : v.config = w.config
  tree : v.tree? id = w.tree? id
  generator : v.generators.get? id = w.generators.get? id

theorem Alike.made_eq (h : Alike w v id) (compiler : Compiler) (y : Standing) :
    v.made compiler id y = w.made compiler id y := by
  unfold made
  rw [h.config, h.tree, h.generator]

/-- Workspaces that have the same of a document give the same reply to a call about it that both grant,
and have the same of it afterwards. -/
theorem Alike.perform (h : Alike w v r.id) (hw : (w.store.standing r.id).after r = .ok y)
    (hv : (v.store.standing r.id).after r = .ok y) (hperform : w.perform compiler r = .ok (w', reply)) :
    reply.isOk = true ∧
      ∃ v', v.perform compiler r = .ok (v', reply) ∧ Alike w' v' r.id ∧ v'.store.standing r.id = y := by
  obtain ⟨made, hmade, rfl, hwreplaced⟩ := exists_made_of_perform hw hperform
  have hgranted := perform_granted compiler hv
  rw [h.made_eq compiler y, hmade] at hgranted
  obtain ⟨v', hvperform, hvreplaced⟩ := hgranted
  refine ⟨rfl, v', hvperform, ⟨?_, ?_, ?_⟩, ?_⟩
  · rw [hvreplaced.config, h.config, hwreplaced.config]
  · rw [hvreplaced.tree, hwreplaced.tree, if_pos rfl, if_pos rfl]
  · rw [hvreplaced.generator, hwreplaced.generator, if_pos rfl, if_pos rfl]
  · rw [hvreplaced.standing, if_pos rfl]

/-! ## Calls one after the other -/

/-- The calls to a new workspace, each with its reply, and the workspace they lead to. -/
inductive Answered (config : Config) (compiler : Compiler) :
    List (Request × Reply) → Workspace → Prop
  | empty : Answered config compiler [] (empty config)
  | call {calls : List (Request × Reply)} {w w' : Workspace} {r : Request} {reply : Reply} :
      Answered config compiler calls w → w.perform compiler r = .ok (w', reply) →
      Answered config compiler (calls ++ [(r, reply)]) w'

/-- A new workspace grants the session of a document, and has the same of it afterwards; of a document
that is not open there is nothing. -/
def Isolated (config : Config) (compiler : Compiler) (calls : List (Request × Reply)) (w : Workspace)
    (id : String) : Prop :=
  match w.store.standing id with
  | .opened .. => ∃ v replies,
      (empty config).run compiler (session id calls) = .ok (v, replies) ∧
      (∀ reply ∈ replies, reply.isOk = true) ∧ Alike w v id ∧
      v.store.standing id = w.store.standing id
  | _ => w.tree? id = none ∧ w.generators.get? id = none

theorem run_concat (h : w.run compiler rs = .ok (v, replies))
    (hperform : v.perform compiler r = .ok (v', reply)) :
    w.run compiler (rs ++ [r]) = .ok (v', replies ++ [reply]) := by
  induction rs generalizing w replies with
  | nil =>
    cases h
    show (v.perform compiler r >>= _) = _
    rw [hperform]
    rfl
  | cons r' rs ih =>
    obtain ⟨⟨next, first⟩, hfirst, h⟩ := exists_of_bind_eq_ok h
    obtain ⟨⟨last, rest⟩, hrest, h⟩ := exists_of_bind_eq_ok h
    cases h
    show (w.perform compiler r' >>= _) = _
    rw [hfirst]
    show (next.run compiler (rs ++ [r]) >>= _) = _
    rw [ih hrest]
    rfl

/-- **Sessions.** A new workspace answers a call that leaves its document open, after the session of the
document, just as the workspace does that answered all calls. -/
theorem perform_session {text : String} {version : Int} (hconfig : w.config = config)
    (h : Isolated config compiler calls w r.id)
    (hafter : (w.store.standing r.id).after r = .ok (.opened text version))
    (hperform : w.perform compiler r = .ok (w', reply)) :
    reply.isOk = true ∧
      ∃ before v replies, session r.id (calls ++ [(r, reply)]) = before ++ [r] ∧
        (empty config).run compiler (before ++ [r]) = .ok (v, replies ++ [reply]) ∧
        (∀ reply ∈ replies, reply.isOk = true) ∧ Alike w' v r.id ∧
        v.store.standing r.id = .opened text version := by
  unfold Isolated at h
  rcases Standing.after_eq_opened hafter with
    ⟨hopens, hnever, hstanding⟩ | ⟨hopens, before, current, hstanding⟩
  · have hnone : w.tree? r.id = none ∧ w.generators.get? r.id = none := by
      rcases hstanding with hstanding | hstanding
      · rw [hstanding] at h
        exact h
      · rw [hstanding] at h
        exact h
    have halike : Alike w (empty config) r.id := ⟨hconfig.symm, hnone.1.symm, hnone.2.symm⟩
    obtain ⟨hok, v, hv, halike, hvopened⟩ := halike.perform hafter hnever hperform
    refine ⟨hok, [], v, [], ?_, ?_, fun _ hmem => absurd hmem List.not_mem_nil, halike, hvopened⟩
    · rw [session_concat, if_pos ⟨rfl, hok⟩, if_pos hopens, List.nil_append]
    · have hstart : (empty config).run compiler [] = .ok (empty config, []) := rfl
      exact run_concat hstart hv
  · rw [hstanding] at h
    obtain ⟨u, replies, hrun, hreplies, halike, hustanding⟩ := h
    rw [← hstanding] at hustanding
    obtain ⟨hok, v, hv, halike, hvopened⟩ :=
      halike.perform hafter (hustanding ▸ hafter) hperform
    refine ⟨hok, session r.id calls, v, replies, ?_, run_concat hrun hv, hreplies, halike, hvopened⟩
    rw [session_concat, if_pos ⟨rfl, hok⟩, hopens]
    rfl

theorem Isolated.of_eq {calls' : List (Request × Reply)} (h : Isolated config compiler calls w id)
    (hsession : session id calls' = session id calls)
    (hstanding : w'.store.standing id = w.store.standing id) (hconfig : w'.config = w.config)
    (htree : w'.tree? id = w.tree? id)
    (hgenerator : w'.generators.get? id = w.generators.get? id) :
    Isolated config compiler calls' w' id := by
  unfold Isolated at h ⊢
  rw [hstanding, hsession, htree, hgenerator]
  split
  · next hopened =>
    rw [hopened] at h
    obtain ⟨v, replies, hrun, hreplies, halike, hv⟩ := h
    exact ⟨v, replies, hrun, hreplies, ⟨halike.config.trans hconfig.symm,
      halike.tree.trans htree.symm, halike.generator.trans hgenerator.symm⟩, hv.trans hopened.symm⟩
  · next hother =>
    rcases hstanding : w.store.standing id with _ | _ | ⟨text, version⟩
    · rw [hstanding] at h
      exact h
    · rw [hstanding] at h
      exact h
    · exact absurd hstanding (hother text version)

/-- The document of a call that is granted is isolated afterwards. -/
theorem isolated_of_perform (hconfig : w.config = config)
    (h : Isolated config compiler calls w r.id) (hafter : (w.store.standing r.id).after r = .ok y)
    (hperform : w.perform compiler r = .ok (w', reply)) :
    Isolated config compiler (calls ++ [(r, reply)]) w' r.id := by
  obtain ⟨made, hmade, -, hreplaced⟩ := exists_made_of_perform hafter hperform
  have hclosed (hnone : made = none) :
      w'.tree? r.id = none ∧ w'.generators.get? r.id = none := by
    rw [hreplaced.tree, hreplaced.generator, if_pos rfl, if_pos rfl, hnone]
    exact ⟨rfl, rfl⟩
  have hstanding := hreplaced.standing r.id
  rw [if_pos rfl] at hstanding
  unfold Isolated
  rw [hstanding]
  cases y with
  | never => exact hclosed (Except.ok.inj hmade).symm
  | closed => exact hclosed (Except.ok.inj hmade).symm
  | opened text version =>
    obtain ⟨hok, before, v, replies, hsession, hrun, hreplies, halike, hv⟩ :=
      perform_session hconfig h hafter hperform
    rw [hsession]
    refine ⟨v, _, hrun, fun reply hmem => ?_, halike, hv⟩
    rcases List.mem_append.1 hmem with hmem | hmem
    · exact hreplies reply hmem
    · rw [List.mem_singleton.1 hmem]
      exact hok

/-- **Isolation.** After any calls every document is isolated. -/
theorem Answered.isolated (h : Answered config compiler calls w) :
    w.config = config ∧ ∀ id, Isolated config compiler calls w id := by
  induction h with
  | empty => exact ⟨rfl, fun _ => ⟨rfl, rfl⟩⟩
  | @call calls w w' r reply _ hperform ih =>
    obtain ⟨hconfig, hisolated⟩ := ih
    rcases hafter : (w.store.standing r.id).after r with e | y
    · -- A call that is refused changes nothing and belongs to no session.
      obtain ⟨rfl, rfl⟩ := Prod.mk.inj (Except.ok.inj
        ((perform_refused hafter).symm.trans hperform))
      refine ⟨hconfig, fun id => (hisolated id).of_eq ?_ rfl rfl rfl rfl⟩
      rw [session_concat, if_neg fun h => Bool.false_ne_true h.2]
    obtain ⟨made, -, -, hreplaced⟩ := exists_made_of_perform hafter hperform
    refine ⟨hreplaced.config.trans hconfig, fun id => ?_⟩
    by_cases heq : r.id = id
    · subst heq
      exact isolated_of_perform hconfig (hisolated r.id) hafter hperform
    · refine (hisolated id).of_eq ?_ ?_ hreplaced.config ?_ ?_
      · rw [session_concat, if_neg fun h => heq h.1]
      · rw [hreplaced.standing, if_neg heq]
      · rw [hreplaced.tree, if_neg heq]
      · rw [hreplaced.generator, if_neg heq]

/-- A call that is answered with a tree leaves its document open. -/
theorem exists_opened_of_perform (h : w.perform compiler r = .ok (w', .ok (some tree))) :
    ∃ text version, (w.store.standing r.id).after r = .ok (.opened text version) := by
  rcases hafter : (w.store.standing r.id).after r with e | y
  · rw [perform_refused hafter] at h
    cases h
  · obtain ⟨made, hmade, hreply, -⟩ := exists_made_of_perform hafter h
    cases y with
    | opened text version => exact ⟨text, version, rfl⟩
    | never =>
      cases hmade
      cases hreply
    | closed =>
      cases hmade
      cases hreply

/-- Each call of a run is answered by the workspace that the calls before it lead to. -/
theorem Answered.perform_of_run {i : Nat} (h : Answered config compiler calls w)
    (hrun : w.run compiler rs = .ok (w', replies))
    (hcall : (rs.zip replies)[i]? = some (r, reply)) :
    ∃ u u', Answered config compiler (calls ++ (rs.zip replies).take i) u ∧
      u.perform compiler r = .ok (u', reply) := by
  induction rs generalizing calls w replies i with
  | nil => cases hcall
  | cons r' rs ih =>
    obtain ⟨⟨next, first⟩, hfirst, hrun⟩ := exists_of_bind_eq_ok hrun
    obtain ⟨⟨last, rest⟩, hrest, hrun⟩ := exists_of_bind_eq_ok hrun
    cases hrun
    cases i with
    | zero =>
      cases hcall
      exact ⟨w, next, by rwa [List.take_zero, List.append_nil], hfirst⟩
    | succ i =>
      obtain ⟨u, u', hanswered, hperform⟩ := ih (h.call hfirst) hrest hcall
      refine ⟨u, u', ?_, hperform⟩
      rwa [List.append_assoc] at hanswered

/-- **Documents do not interfere.** Whatever calls a workspace answers, about any documents, each tree that
it answers with is the one that a new workspace of the same configuration answers with when it is given
just those calls about the document that were granted since it was last opened. They are granted there,
too. -/
theorem run_isolated {i : Nat} (h : (empty config).run compiler rs = .ok (w, replies))
    (hcall : (rs.zip replies)[i]? = some (r, .ok (some tree))) :
    ∃ before v others, session r.id ((rs.zip replies).take (i + 1)) = before ++ [r] ∧
      (empty config).run compiler (before ++ [r]) = .ok (v, others ++ [.ok (some tree)]) ∧
      ∀ reply ∈ others, reply.isOk = true := by
  obtain ⟨u, u', hanswered, hperform⟩ := Answered.empty.perform_of_run h hcall
  rw [List.nil_append] at hanswered
  obtain ⟨hconfig, hisolated⟩ := hanswered.isolated
  obtain ⟨text, version, hafter⟩ := exists_opened_of_perform hperform
  obtain ⟨-, before, v, others, hsession, hrun, hothers, -, -⟩ :=
    perform_session hconfig (hisolated r.id) hafter hperform
  rw [List.take_add_one, hcall]
  exact ⟨before, v, others, hsession, hrun, hothers⟩

/-- A collection with one document. -/
def blogConfig : Config := { entries := [("a.md", "blog")] }

/-- The last of some calls about two documents in turn. -/
def lastCall : Request := .update "a.md" "---\nk: [\n---\nx" 2

/-- All of them, of which some are refused. The first document is closed and opened again, with front matter
that has errors and would show that of before. -/
def interleavedCalls : List Request :=
  [.openDocument "a.md" "---\nk: 1\n---\n" 3, .openDocument "b" "x" 1, .update "a.md" "y" 3,
    .close "a.md", .update "a.md" "y" 4, .openDocument "a.md" "---\nk: [\n---\n" 1,
    .update "b" "y" 2, .openDocument "a.md" "x" 9, lastCall]

/-- Those about the first document that are granted since it was opened again. -/
def reopenedSession : List Request :=
  [.openDocument "a.md" "---\nk: [\n---\n" 1, lastCall]

/-- No call of it succeeds. -/
def failing : Compiler := fun _ _ => .error .panicked

theorem run_isolated_interleaved :
    ∃ w replies tree, (empty blogConfig).run failing interleavedCalls = .ok (w, replies) ∧
      (interleavedCalls.zip replies)[8]? = some (lastCall, .ok (some tree)) ∧
      session "a.md" ((interleavedCalls.zip replies).take 9) = reopenedSession ∧
      ∃ before v others,
        session "a.md" ((interleavedCalls.zip replies).take 9) = before ++ [lastCall] ∧
        (empty blogConfig).run failing (before ++ [lastCall]) =
          .ok (v, others ++ [.ok (some tree)]) ∧
        ∀ reply ∈ others, reply.isOk = true := by
  have hanswers : ((empty blogConfig).run failing interleavedCalls).map (fun p =>
      ((p.2[8]?.bind (·.toOption)).bind (·.map (·.version)),
        session "a.md" ((interleavedCalls.zip p.2).take 9))) = .ok (some 2, reopenedSession) := by
    decide +kernel
  obtain ⟨⟨w, replies⟩, hrun, hanswers⟩ := exists_of_map_eq_ok hanswers
  obtain ⟨hreply, hsession⟩ := Prod.mk.inj hanswers
  obtain ⟨answer, hanswer, hreply⟩ := Option.bind_eq_some_iff.1 hreply
  obtain ⟨tree, rfl, -⟩ := Option.map_eq_some_iff.1 hreply
  obtain ⟨reply, hget, hreply⟩ := Option.bind_eq_some_iff.1 hanswer
  rcases reply with e | answer
  · cases hreply
  obtain rfl := Option.some.inj hreply
  have hcall : (interleavedCalls.zip replies)[8]? = some (lastCall, .ok (some tree)) :=
    List.getElem?_zip_eq_some.2 ⟨rfl, hget⟩
  exact ⟨w, replies, tree, hrun, hcall, hsession, run_isolated hrun hcall⟩

end Workspace

end Polyglot
