import SeaOfNodes.Proofs.Creation.Initialized

/-! The call that takes the place of a creation. -/

namespace SeaOfNodes

-- A creation in a verified graph becomes a call in its place that agrees with its descriptor, and nothing is reported.
theorem creation_call_agrees (heap : Snapshot) (s : Workspace) (verified : s.graph.verify = .ok ()) (interned : s.graph.Interned)
    (id : NodeId) (node : Node) (live : s.graph.Live id node) (request : Creation) (creation : node.op = .create request)
    (short : ∀ arity site, request = .array arity site → arity.toNat + 6 < UInt32.size) :
    ∃ t site callee values, CreationCall.reduce heap id s = .ok (.changed id) t ∧ t.journal = s.journal ∧
      CallAgrees s t id node site callee values ∧ CallTarget t.graph values := by
  have sane := (s.graph.verify_eq_ok).mp verified
  obtain ⟨given, context, frameState, effect, control, parts⟩ := node.creates_parts live.2 creation
    (sane.fits id node live) (sane.counted id node live)
  have begun : CreationCall.Prepared True s id node [] s :=
    ⟨s.graph.adds_refl, ⟨_, live.1⟩, fun _ => live.1, fun _ => interned, rfl, by simp⟩
  have done : Build.Gives (CreationCall.reduce heap id) s (CreationCall.Becomes True s id node control) := by
    refine Build.gives_after (Build.query_done ((s.graph.op_eq_ok id _).mpr ⟨node, live.1, creation⟩)) ?_
    refine Build.gives_after (Build.query_done (parts.values_read ⟨_, live.1⟩)) ?_
    exact CreationCall.reduce_creation_agrees parts begun live.1 heap short
  obtain ⟨_, t, run, rfl, journal, site, callee, _, _, _, _, _, _, _, _, agrees⟩ := done
  obtain ⟨values, agrees, target⟩ := agrees trivial
  exact ⟨t, site, callee, values, run, journal, agrees, target⟩

section

def returnedLiteral : List Edit :=
  [.constant (.constant (.heap Root.undefined)), .int32Constant 0,
   .addNode (.create (.literalArray ⟨Root.undefined, 0, 0, 1⟩)) [2, 2, 2, 0, 0] none,
   .addNode (.control (.ret 1)) [3, 4, 4, 4] none, .mergeToEnd 5]

theorem returned_literal_calls : ∃ t node site callee values, (Graph.built returnedLiteral).verify = .ok () ∧
      CreationCall.reduce .initial 4 (.recording (.built returnedLiteral)) = .ok (.changed 4) t ∧
      t.journal.violations = #[] ∧ CallAgrees (.recording (.built returnedLiteral)) t 4 node site callee values ∧
      CallTarget t.graph values := by
  have checks : ((Graph.built returnedLiteral).node? 4).any (fun node => !node.dead &&
      node.op = .create (.literalArray ⟨Root.undefined, 0, 0, 1⟩)) = true := by decide
  rw [Option.any_eq_true] at checks
  obtain ⟨node, read, found⟩ := checks
  rw [Bool.and_eq_true, Bool.not_eq_true', decide_eq_true_eq] at found
  have verified : (Graph.built returnedLiteral).verify = .ok () := ok_of_to_option _ _ (by decide)
  obtain ⟨t, site, callee, values, run, journal, agrees, target⟩ := creation_call_agrees .initial
    (.recording (.built returnedLiteral)) verified (interned_check _ (by decide)) 4 node ⟨read, found.1⟩ _ found.2
    (by rintro _ _ ⟨⟩)
  exact ⟨t, node, site, callee, values, verified, run, by rw [journal]; rfl, agrees, target⟩

def overwrittenEntry : List Edit :=
  [.constant (.constant (.heap Root.undefined)), .constant (.constant (.code (.runtimeEntry 1))),
   .changeOp 3 (.constant (.int32 5)), .addNode (.create .emptyLiteralObject) [2, 0, 0] none,
   .addNode (.control (.ret 1)) [2, 4, 4, 4] none, .mergeToEnd 5]

theorem overwritten_entry_called : ∃ t site callee, (Graph.built overwrittenEntry).verify = .ok () ∧
      CreationCall.reduce .initial 4 (.recording (.built overwrittenEntry)) = .ok (.changed 4) t ∧
      t.graph.op 4 = .ok (.call site) ∧ t.registry.get site.descriptor = .ok callee ∧
      callee.name = RuntimeFunction.createEmptyObjectLiteral.name ∧ t.graph.input 4 0 = .ok 3 ∧
      t.graph.op 3 = .ok (.constant (.int32 5)) := by
  let site : CallSite := ⟨0, 4, 1, false, (Operator.create .emptyLiteralObject).properties⟩
  obtain ⟨outcome, t, run, found⟩ := runs_check (CreationCall.reduce .initial 4) (.recording (.built overwrittenEntry))
    (fun outcome t => outcome = .changed 4 && (t.graph.op 4).toOption == some (.call site) &&
      ((t.registry.get 0).toOption.map CallDescriptor.name) == some RuntimeFunction.createEmptyObjectLiteral.name &&
      (t.graph.input 4 0).toOption == some 3 && (t.graph.op 3).toOption == some (.constant (.int32 5))) (by decide +kernel)
  simp only [Bool.and_eq_true, decide_eq_true_eq, beq_iff_eq, Option.map_eq_some_iff] at found
  obtain ⟨⟨⟨⟨rfl, calls⟩, callee, known, named⟩, entered⟩, overwritten⟩ := found
  exact ⟨t, site, callee, ok_of_to_option _ _ (by decide +kernel), run, ok_of_to_option _ _ calls,
    ok_of_to_option _ _ known, named, ok_of_to_option _ _ entered, ok_of_to_option _ _ overwritten⟩

end

end SeaOfNodes
