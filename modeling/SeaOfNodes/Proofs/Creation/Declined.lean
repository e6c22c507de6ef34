import SeaOfNodes.Proofs.Creation.Path

/-! Creations that are declined. -/

namespace SeaOfNodes

namespace CreationContext

def CopiesFrom (c : CreationContext) (graph : Graph) (id : NodeId) (boilerplate : ObjectRef) : Prop :=
  ∃ literal found site,
    (graph.op id = .ok (.create (.literalArray literal)) ∨ graph.op id = .ok (.create (.literalObject literal))) ∧
    c.literalFeedback? graph id literal.slot = .ok found ∧ found.bind c.heap.allocationSite? = some site ∧
    site.boilerplate = some boilerplate

theorem create_literal_fails (c : CreationContext) {graph : Graph} {id : NodeId} {slot : UInt32} {decision : Decision}
    (decided : c.createLiteral graph id slot = .ok decision) (declined : ∀ plan, decision ≠ .inline plan) {found : Option ObjectRef}
    (fed : c.literalFeedback? graph id slot = .ok found) {site : AllocationSite}
    (known : found.bind c.heap.allocationSite? = some site) {boilerplate : ObjectRef} (named : site.boilerplate = some boilerplate) :
    ∃ reason, c.checkLiteral c.config.maxLiteralDepth.toNat boilerplate c.config.maxLiteralProperties.toNat = .error reason := by
  obtain ⟨_, again, decided⟩ := bind_eq_ok.mp decided
  cases fed.symm.trans again
  simp only [known, named] at decided
  split at decided
  · rename_i reason failed
    exact ⟨reason, failed⟩
  rename_i rest checked
  obtain ⟨effect, _, decided⟩ := bind_eq_ok.mp decided
  obtain ⟨control, _, decided⟩ := bind_eq_ok.mp decided
  have copyable : c.Copyable (Suits False False) _ boilerplate :=
    c.check_literal_copyable _ checked fun _ _ _ _ _ _ => ⟨False.elim, False.elim⟩
  obtain ⟨last, actions, made, _⟩ := copy_literal_drafts c copyable 0 #[] rfl (by simp)
  rw [made] at decided
  cases decided
  exact absurd rfl (declined _)

theorem declined_literal_fails (c : CreationContext) (graph : Graph) (id : NodeId) (decision : Decision)
    (decided : c.decide graph id = .ok decision) (declined : ∀ plan, decision ≠ .inline plan) (boilerplate : ObjectRef)
    (copies : c.CopiesFrom graph id boilerplate) :
    ∃ reason, c.checkLiteral c.config.maxLiteralDepth.toNat boilerplate c.config.maxLiteralProperties.toNat = .error reason := by
  obtain ⟨literal, found, site, carried, fed, known, named⟩ := copies
  obtain ⟨op, again, decided⟩ := bind_eq_ok.mp decided
  rcases carried with carried | carried
  · cases carried.symm.trans again
    exact c.create_literal_fails decided declined fed known named
  · cases carried.symm.trans again
    exact c.create_literal_fails decided declined fed known named

end CreationContext

-- A creation that stays is not touched, and neither is anything else; all that it may leave is a note on a literal.
theorem declined_creation_leaves_no_trace (c : CreationContext) (id : NodeId) (work after : Workspace)
    (declined : c.reduce id work = .ok .unchanged after) :
    (∃ notes : List LogEntry, (∀ note ∈ notes, ∃ reason : LiteralDecline, note = .literalDeclined id reason.message) ∧
      after = { work with journal := notes.foldl Journal.note work.journal } ∧
      ∀ journal, c.reduce id { work with journal := journal } =
        .ok .unchanged { work with journal := notes.foldl Journal.note journal }) ∧
    ∀ boilerplate, c.CopiesFrom work.graph id boilerplate → ∃ reason,
      c.checkLiteral c.config.maxLiteralDepth.toNat boilerplate c.config.maxLiteralProperties.toNat = .error reason := by
  obtain ⟨decision, _, asked, run⟩ := runs_bind.mp declined
  obtain ⟨decided, rfl⟩ := Build.runs_query.mp asked
  have again : ∀ journal, Build.query (fun graph => c.decide graph id) { work with journal := journal } =
      .ok decision { work with journal := journal } := fun journal => Build.runs_query.mpr ⟨decided, rfl⟩
  cases decision with
  | inline plan =>
    obtain ⟨_, _, _, _, _, _, ends⟩ := execute_ends run
    cases ends
  | decline =>
    cases run
    refine ⟨⟨[], by simp, rfl, fun journal => ?_⟩, c.declined_literal_fails _ id _ decided (by simp)⟩
    exact runs_bind.mpr ⟨_, _, again journal, rfl⟩
  | declineLiteral reason =>
    obtain ⟨_, _, noted, run⟩ := runs_bind.mp run
    obtain rfl := Build.runs_note.mp noted
    cases run
    refine ⟨⟨[.literalDeclined id reason.message], by simp, rfl, fun journal => ?_⟩, c.declined_literal_fails _ id _ decided (by simp)⟩
    exact runs_bind.mpr ⟨_, _, again journal, rfl⟩

def CreationContext.withSelfHeld : CreationContext :=
  { heap := ⟨Snapshot.initial.objects ++
      #[.map { instanceType := .jsObject, instanceSize := 32, inObjectProperties := 1, properties := [⟨"self", .field .tagged 0⟩] },
        .jsObject ⟨⟨32⟩, Root.emptyFixedArray, 0, [.object ⟨33⟩], none⟩,
        .allocationSite ⟨some ⟨33⟩, .packed, .young, true⟩,
        .feedbackVector [some ⟨34⟩]]⟩
    config := {}
    feedbackVector := some ⟨35⟩ }

def selfHeldLiteral : List Edit :=
  [.constant (.constant (.heap Root.undefined)),
   .addNode (.create (.literalObject ⟨Root.undefined, 0, 0, 0⟩)) [2, 2, 2, 0, 0] none]

theorem self_held_literal_stays : CreationContext.withSelfHeld.CopiesFrom (.built selfHeldLiteral) 3 ⟨33⟩ ∧
    ∃ after, CreationContext.withSelfHeld.reduce 3 (.recording (.built selfHeldLiteral)) = .ok .unchanged after ∧
      after.journal.log = #[.literalDeclined 3 LiteralDecline.tooDeep.message] ∧
      (∃ notes : List LogEntry, (∀ note ∈ notes, ∃ reason : LiteralDecline, note = .literalDeclined 3 reason.message) ∧
        after = { Workspace.recording (.built selfHeldLiteral) with
                  journal := notes.foldl Journal.note (Workspace.recording (.built selfHeldLiteral)).journal } ∧
        ∀ journal, CreationContext.withSelfHeld.reduce 3 { Workspace.recording (.built selfHeldLiteral) with journal := journal } =
          .ok .unchanged { Workspace.recording (.built selfHeldLiteral) with journal := notes.foldl Journal.note journal }) ∧
      ∀ boilerplate, CreationContext.withSelfHeld.CopiesFrom (.built selfHeldLiteral) 3 boilerplate → ∃ reason,
        CreationContext.withSelfHeld.checkLiteral 3 boilerplate 252 = .error reason := by
  obtain ⟨outcome, after, run, same⟩ := reduced_check .withSelfHeld 3 (.recording (.built selfHeldLiteral))
    (fun outcome after => outcome = .unchanged && after.journal.log = #[.literalDeclined 3 LiteralDecline.tooDeep.message])
    (by decide)
  rw [Bool.and_eq_true, decide_eq_true_eq, decide_eq_true_eq] at same
  rw [same.1] at run
  refine ⟨⟨⟨Root.undefined, 0, 0, 0⟩, some ⟨34⟩, ⟨some ⟨33⟩, .packed, .young, true⟩, .inr (by decide), by decide,
    by decide, rfl⟩, after, run, same.2, ?_⟩
  exact declined_creation_leaves_no_trace .withSelfHeld 3 (.recording (.built selfHeldLiteral)) after run

end SeaOfNodes
