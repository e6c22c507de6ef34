import SeaOfNodes.Proofs.Assembler.Bound

/-! Every run of an assembler: the jumps that it makes, what the labels remember of them, and what a label makes of them. -/

namespace SeaOfNodes

open List

variable {history : List Leap} {descriptor : CallDescriptor} {config : AssemblerConfig}

namespace Assembler

def site (a : Assembler) : Position := a.current.getD ⟨Graph.start, Graph.start⟩

def assign (a : Assembler) (id : VariableId) (value : Option NodeId) : Assembler :=
  { a with vars := a.vars.modify id fun info => { info with value := value } }

def branchLeaps (a : Assembler) (ifTrue ifFalse : LabelId) : List Leap :=
  [a.leap ifTrue ⟨a.site.effect, a.graph.size + 1⟩, a.leap ifFalse ⟨a.site.effect, a.graph.size + 2⟩]

def throwLeap (a : Assembler) (handler : LabelId) (exception : Option VariableId) : Leap :=
  let thrown := a.graph.size + 1
  (exception.elim a fun id => a.assign id (some thrown)).leap handler ⟨thrown, thrown⟩

end Assembler

def Command.leaps (a : Assembler) : Command → List Leap
  | .bind label => if (a.labels.get? label).any LabelInfo.isBound then [] else a.fallThrough label
  | .goto label => [a.leap label a.site]
  | .gotoIf _ label => a.branchLeaps label a.labels.size
  | .gotoIfNot _ label => a.branchLeaps a.labels.size label
  | .branch _ ifTrue ifFalse => a.branchLeaps ifTrue ifFalse
  | .switch _ default cases =>
    (cases.mapIdx fun index way => a.leap way.2 ⟨a.site.effect, a.graph.size + 1 + index⟩) ++
      [a.leap default ⟨a.site.effect, a.graph.size + 1 + cases.length⟩]
  | .gotoIfException _ handler exception => [a.throwLeap handler exception]
  | .returnIf _ _ => a.branchLeaps a.labels.size (a.labels.size + 1)
  | _ => []

inductive Travelled (descriptor : CallDescriptor) (config : AssemblerConfig) : Assembler → List Leap → Prop
  | start (a : Assembler) (journal : Journal) (run : Assembler.start descriptor config journal = .ok a) :
      Travelled descriptor config a []
  | step (a b : Assembler) (history : List Leap) (command : Command) (outcome : Outcome)
      (before : Travelled descriptor config a history) (run : command.run a = .ok outcome b) :
      Travelled descriptor config b (history ++ command.leaps a)
  | generate (a b : Assembler) (history : List Leap) (name : String) (flags : CodeFlags) (limit : Nat)
      (code : Except CompileError Listing) (before : Travelled descriptor config a history)
      (run : Assembly.generate name flags limit a = .ok code b) : Travelled descriptor config b history

def Assembler.jumps (a : Assembler) (history : List Leap) (label : LabelId) : List Leap :=
  (history.filter fun leap => leap.label = label) ++ a.fallThrough label

structure Remembers (a : Assembler) (history : List Leap) : Prop where
  waiting : ∀ id info arrivals, a.labels.get? id = some info → info.state = .waiting arrivals →
    arrivals.map (Arrival.leap id) = history.filter fun leap => leap.label = id
  known : ∀ leap ∈ history, ∃ info, a.labels.get? leap.label = some info

theorem Remembers.relabel {a b : Assembler} (remembers : Remembers a history) (labels : b.labels = a.labels) :
    Remembers b history :=
  ⟨by rw [labels]; exact remembers.waiting, by rw [labels]; exact remembers.known⟩

-- A bound label has nothing to remember.
theorem Remembers.binds {a b : Assembler} (remembers : Remembers a history) (id : LabelId) (info : LabelInfo) (binding : Binding)
    {more : List Leap} (toIt : ∀ leap ∈ more, leap.label = id) (here : b.labels.get? id = some info)
    (bound : info.state = .bound binding) (others : ∀ other, other ≠ id → b.labels.get? other = a.labels.get? other) :
    Remembers b (history ++ more) := by
  refine ⟨fun other found arrivals read waits => ?_, fun leap member => ?_⟩
  · have apart : other ≠ id := by
      rintro rfl
      cases here.symm.trans read
      rw [bound] at waits
      cases waits
    have elsewhere : (more.filter fun leap => leap.label = other) = [] := by
      refine filter_eq_nil_iff.mpr fun leap member => ?_
      rw [toIt leap member, decide_eq_true_eq]
      exact Ne.symm apart
    rw [filter_append, elsewhere, append_nil]
    exact remembers.waiting other found arrivals ((others other apart).symm.trans read) waits
  · by_cases same : leap.label = id
    · exact ⟨info, same ▸ here⟩
    · rcases mem_append.mp member with old | new
      · rw [others leap.label same]
        exact remembers.known leap old
      · exact absurd (toIt leap new) same

namespace Assembly

variable {result : Unit} {id label : LabelId} {binding : Binding} {position : Position} {operation : String} {condition : NodeId}
  {cases : List (Int32 × LabelId)}

open Assembler

variable {a b : Assembler} {history : List Leap}

structure Idles (a b : Assembler) : Prop where
  labels : b.labels = a.labels
  vars : b.vars = a.vars
  size : b.graph.size = a.graph.size
  current : b.current = a.current

theorem idles_refl (a : Assembler) : Idles a a := ⟨rfl, rfl, rfl, rfl⟩

theorem Idles.trans {a b c : Assembler} (first : Idles a b) (second : Idles b c) : Idles a c :=
  ⟨second.labels.trans first.labels, second.vars.trans first.vars, second.size.trans first.size, second.current.trans first.current⟩

theorem report_idles {violation : Violation} (run : report violation a = .ok result b) : Idles a b := by
  obtain ⟨_, rfl⟩ := report_runs run
  exact ⟨rfl, rfl, rfl, rfl⟩

theorem add_path_idles {id input : NodeId} (run : addPath id input a = .ok result b) : Idles a b := by
  obtain ⟨_, _, ⟨rfl, _⟩ | ⟨_, _, _, rfl, size, _⟩⟩ := add_path_cases run
  · exact idles_refl b
  · exact ⟨rfl, rfl, size, rfl⟩

theorem merge_back_idles {label : LabelInfo} {id : VariableId} {info : VariableInfo}
    (run : mergeBack label binding id info a = .ok result b) : Idles a b := by
  rcases merge_back_cases run with ⟨_, _, _, _, led⟩ | ⟨_, reported⟩ | ⟨_, rfl⟩
  · exact add_path_idles led
  · exact report_idles reported
  · exact idles_refl b

theorem merge_back_all_idles {label : LabelInfo} {live : List (VariableId × VariableInfo)}
    (run : (live.forM fun (id, info) => mergeBack label binding id info) a = .ok result b) : Idles a b := by
  induction live generalizing a with
  | nil =>
    obtain ⟨_, rfl⟩ := runs_pure.mp run
    exact idles_refl a
  | cons entry rest ih =>
    obtain ⟨_, middle, first, later⟩ := runs_bind.mp run
    exact (merge_back_idles first).trans (ih later)

-- A jump back only adds a path to nodes that are there.
theorem arrive_bound {info : LabelInfo} (read : a.labels.get? id = some info) (state : info.state = .bound binding)
    (run : arrive id position a = .ok result b) : Idles { a with labels := a.labels.modify id fun info =>
      { info with state := .bound { binding with paths := binding.paths + 1 } } } b := by
  rw [arrive, bind_of_ok _ _ _ _ (label_info_returns read), bind_get] at run
  dsimp only at run
  rw [state] at run
  obtain ⟨_, m, marked, rest⟩ := runs_bind.mp run
  cases marked
  obtain ⟨loop, _, looked, rest⟩ := runs_bind.mp rest
  obtain ⟨rfl, _⟩ := loop_node_runs looked
  cases loop with
  | none => exact report_idles rest
  | some loop =>
    obtain ⟨_, first, led, rest⟩ := runs_bind.mp rest
    have brings : Idles first b := by
      cases effect : binding.effectPhi with
      | none =>
        simp only [effect] at rest
        exact merge_back_all_idles rest
      | some phi =>
        simp only [effect, runs_bind] at rest
        obtain ⟨_, second, threaded, rest⟩ := rest
        exact (add_path_idles threaded).trans (merge_back_all_idles rest)
    exact (add_path_idles led).trans brings

theorem arrive_remembers (remembers : Remembers a history) (run : arrive id position a = .ok result b) :
    Remembers b (history ++ [a.leap id position]) ∧ b.vars = a.vars ∧ b.graph.size = a.graph.size ∧ b.current = a.current := by
  obtain ⟨info, _, labelled, _⟩ := runs_bind.mp run
  obtain ⟨read, _⟩ := label_info_runs labelled
  cases state : info.state with
  | bound binding =>
    have idles := arrive_bound read state run
    refine ⟨?_, idles.vars, idles.size, idles.current⟩
    refine remembers.binds id { info with state := .bound { binding with paths := binding.paths + 1 } } _ ?_ ?_ rfl ?_
    · intro leap member
      rw [mem_singleton.mp member]
      rfl
    · rw [idles.labels, Pool.get_modify, if_pos rfl, read]
      rfl
    · intro other apart
      rw [idles.labels, Pool.get_modify, if_neg apart]
  | waiting arrivals =>
    rw [arrive_waits position read state] at run
    cases run
    refine ⟨⟨fun other found waiting reads waits => ?_, fun leap member => ?_⟩, rfl, rfl, rfl⟩
    · rw [filter_append]
      by_cases same : other = id
      · subst same
        rw [Pool.get_modify, if_pos rfl, read] at reads
        cases reads
        cases waits
        have own : ([a.leap other position].filter fun leap => leap.label = other) = [a.leap other position] := by
          simp [leap]
        rw [map_append, remembers.waiting other info arrivals read state, own, map_singleton, recorded_leap]
      · have elsewhere : ([a.leap id position].filter fun leap => leap.label = other) = [] := by
          simp [leap, Ne.symm same]
        rw [Pool.get_modify, if_neg same] at reads
        rw [elsewhere, append_nil]
        exact remembers.waiting other found waiting reads waits
    · rw [Pool.get_modify]
      by_cases same : leap.label = id
      · rw [if_pos same, read]
        exact ⟨_, rfl⟩
      · rw [if_neg same]
        rcases mem_append.mp member with old | new
        · exact remembers.known leap old
        · rw [mem_singleton.mp new] at same
          exact absurd rfl same

theorem new_label_remembers {kind : LabelKind} {declared : List VariableId} (remembers : Remembers a history)
    (run : newLabel kind declared a = .ok id b) :
    Remembers b history ∧ id = a.labels.size ∧ ∃ labels, labels.size = a.labels.size + 1 ∧ b = { a with labels := labels } := by
  simp only [newLabel, runs_bind, runs_get, runs_modify, runs_pure] at run
  obtain ⟨_, _, ⟨rfl, rfl⟩, _, _, ⟨rfl, rfl⟩, _, _, rfl, rfl, rfl⟩ := run
  refine ⟨⟨fun other found arrivals read waits => ?_, fun leap member => ?_⟩, rfl, _, Array.size_push _, rfl⟩
  · rw [Pool.get_alloc] at read
    split at read
    · rename_i same
      cases read
      cases waits
      refine (filter_eq_nil_iff.mpr fun leap member => ?_).symm
      obtain ⟨info, known⟩ := remembers.known leap member
      have inside : leap.label < a.labels.size := (Array.getElem?_eq_some_iff.mp known).1
      rw [decide_eq_true_eq, same]
      exact inside.ne
    · exact remembers.waiting other found arrivals read waits
  · rw [Pool.get_alloc]
    split
    · exact ⟨_, rfl⟩
    · exact remembers.known leap member

theorem position_runs (run : Assembly.position operation a = .ok position b) : position = a.site ∧ Idles a b := by
  simp only [Assembly.position, runs_bind, runs_get] at run
  obtain ⟨_, _, ⟨rfl, rfl⟩, rest⟩ := run
  cases current : a.current with
  | some here =>
    rw [current] at rest
    cases rest
    exact ⟨by rw [site, current]; rfl, idles_refl a⟩
  | none =>
    simp only [current, runs_bind, runs_pure] at rest
    obtain ⟨_, _, reported, rfl, rfl⟩ := rest
    exact ⟨by rw [site, current]; rfl, report_idles reported⟩

theorem leap_congr (vars : b.vars = a.vars) (label : LabelId) (position : Position) : b.leap label position = a.leap label position := by
  have values : b.value? = a.value? := by
    funext id
    rw [value?, value?, vars]
  rw [leap, leap, values]

structure Underway (a : Assembler) (history : List Leap) (nodes : Nat) (current : Option Position) (m : Assembler) : Prop where
  remembers : Remembers m history
  vars : m.vars = a.vars
  size : m.graph.size = a.graph.size + nodes
  current : m.current = current

section

variable {m : Assembler} {nodes : Nat} {current : Option Position}

theorem Underway.adds (underway : Underway a history nodes current m) {op : Operator} {inputs : List NodeId} {id : NodeId}
    (run : addNode op inputs m = .ok id b) : id = a.graph.size + nodes ∧ Underway a history (nodes + 1) current b := by
  obtain ⟨rfl, appends⟩ := add_node_appends run
  refine ⟨underway.size, underway.remembers.relabel appends.labels, appends.vars.trans underway.vars, ?_,
    appends.current.trans underway.current⟩
  rw [appends.size, underway.size, add_assoc]

theorem Underway.arrives (underway : Underway a history nodes current m) (label : LabelId) (position : Position) (result : Unit)
    (run : arrive label position m = .ok result b) : Underway a (history ++ [a.leap label position]) nodes current b := by
  obtain ⟨remembers, vars, size, still⟩ := arrive_remembers underway.remembers run
  rw [leap_congr underway.vars] at remembers
  exact ⟨remembers, vars.trans underway.vars, size.trans underway.size, still.trans underway.current⟩

theorem Underway.leaves (remembers : Remembers a history) (run : Assembly.position operation a = .ok position m) :
    position = a.site ∧ Underway a history 0 a.current m ∧ Underway a history 0 none { m with current := none } := by
  obtain ⟨same, idles⟩ := position_runs run
  have kept := remembers.relabel idles.labels
  exact ⟨same, ⟨kept, idles.vars, idles.size, idles.current⟩, ⟨⟨kept.waiting, kept.known⟩, idles.vars, idles.size, rfl⟩⟩

end

variable (remembers : Remembers a history)

include remembers

theorem goto_remembers (run : goto label a = .ok result b) : Remembers b (history ++ [a.leap label a.site]) := by
  simp only [goto, setCurrent, runs_bind, runs_modify] at run
  obtain ⟨_, m, left, _, _, rfl, arrived⟩ := run
  obtain ⟨rfl, _, begun⟩ := Underway.leaves remembers left
  exact (begun.arrives label a.site result arrived).remembers

theorem branch_remembers {ifTrue ifFalse : LabelId} (run : branch condition ifTrue ifFalse a = .ok result b) :
    Remembers b (history ++ a.branchLeaps ifTrue ifFalse) ∧ b.current = none := by
  simp only [branch, setCurrent, runs_bind, runs_modify] at run
  obtain ⟨_, m, left, _, _, rfl, split, c, made, yes, d, taken, no, e, refused, _, f, first, second⟩ := run
  obtain ⟨rfl, _, begun⟩ := Underway.leaves remembers left
  obtain ⟨_, one⟩ := begun.adds made
  obtain ⟨rfl, two⟩ := one.adds taken
  obtain ⟨rfl, three⟩ := two.adds refused
  have final := (three.arrives ifTrue _ _ first).arrives ifFalse _ result second
  rw [append_assoc] at final
  exact ⟨final.remembers, final.current⟩

omit remembers in
theorem switch_cases_underway {effect switch : NodeId} {m : Assembler} (nodes : Nat)
    (underway : Underway a history nodes none m)
    (run : (cases.forM fun (value, id) => do
      let control ← addNode (.control (.ifValue value)) [switch]
      arrive id ⟨effect, control⟩ : Assembly Unit) m = .ok result b) :
    Underway a (history ++ cases.mapIdx fun index way => a.leap way.2 ⟨effect, a.graph.size + nodes + index⟩)
      (nodes + cases.length) none b := by
  induction cases generalizing m nodes history with
  | nil =>
    cases run
    rw [mapIdx_nil, append_nil]
    exact underway
  | cons way rest ih =>
    obtain ⟨_, middle, first, later⟩ := runs_bind.mp run
    obtain ⟨control, c, made, arrived⟩ := runs_bind.mp first
    obtain ⟨rfl, one⟩ := underway.adds made
    have final := ih (nodes + 1) (one.arrives way.2 _ _ arrived) later
    have shift : ∀ index, a.graph.size + (nodes + 1) + index = a.graph.size + nodes + (index + 1) := by
      intro index
      omega
    simp only [append_assoc, shift] at final
    rw [mapIdx_cons, length_cons, add_comm rest.length, ← add_assoc]
    exact final

theorem switch_remembers {index : NodeId} {default : LabelId} (run : switch index default cases a = .ok result b) :
    Remembers b (history ++ (Command.switch index default cases).leaps a) := by
  simp only [switch, setCurrent, runs_bind, runs_modify, runs_of_except] at run
  obtain ⟨_, m, left, _, _, rfl, _, _, ⟨_, rfl⟩, split, n, made, _, o, looped, no, p, last, arrived⟩ := run
  obtain ⟨rfl, _, begun⟩ := Underway.leaves remembers left
  obtain ⟨_, one⟩ := begun.adds made
  have ways := switch_cases_underway 1 one looped
  obtain ⟨rfl, two⟩ := ways.adds last
  have final := (two.arrives default _ result arrived).remembers
  rw [append_assoc, ← add_assoc] at final
  exact final

theorem throw_remembers {call : NodeId} {handler : LabelId} {exception : Option VariableId}
    (run : gotoIfException call handler exception a = .ok result b) :
    Remembers b (history ++ [a.throwLeap handler exception]) := by
  obtain ⟨position, m, left, rest⟩ := runs_bind.mp run
  obtain ⟨_, begun, _⟩ := Underway.leaves remembers left
  obtain ⟨op, _, asked, rest⟩ := runs_bind.mp rest
  obtain ⟨_, done, rfl⟩ := runs_of_build.mp asked
  obtain ⟨_, rfl⟩ := Build.runs_query.mp done
  dsimp only at rest
  split at rest
  · obtain ⟨success, c, passed, rest⟩ := runs_bind.mp rest
    obtain ⟨thrown, d, raised, rest⟩ := runs_bind.mp rest
    obtain ⟨_, one⟩ := begun.adds passed
    obtain ⟨rfl, two⟩ := one.adds raised
    cases exception with
    | none =>
      simp only [setCurrent, runs_bind, runs_modify] at rest
      obtain ⟨_, e, arrived, rfl⟩ := rest
      have final := (two.arrives handler _ _ arrived).remembers
      exact ⟨final.waiting, final.known⟩
    | some id =>
      simp only [setCurrent, setVariable, runs_bind, runs_modify] at rest
      obtain ⟨info, e, found, _, _, rfl, _, f, arrived, _, _, rfl, rfl⟩ := rest
      simp only [variableInfo, runs_bind, runs_get, runs_of_except] at found
      obtain ⟨_, _, ⟨rfl, rfl⟩, _, rfl⟩ := found
      have seen : Underway (a.assign id (some (a.graph.size + 1))) history 2 a.current
          { d with vars := d.vars.modify id fun info => { info with value := some (a.graph.size + 1) } } :=
        ⟨⟨two.remembers.waiting, two.remembers.known⟩, by rw [two.vars]; rfl, two.size, two.current⟩
      have final := (seen.arrives handler _ _ arrived).remembers
      exact ⟨final.waiting, final.known⟩
  · cases rest

theorem bind_remembers (run : Assembly.bind id a = .ok result b) : Remembers b (history ++ (Command.bind id).leaps a) := by
  obtain ⟨info, _, labelled, rest⟩ := runs_bind.mp run
  obtain ⟨read, rfl⟩ := label_info_runs labelled
  rw [Command.leaps, read, Option.any_some]
  cases state : info.state with
  | bound binding =>
    have bound : info.isBound := by rw [LabelInfo.isBound, state]
    rw [if_pos bound] at rest
    rw [if_pos bound, append_nil]
    exact remembers.relabel (report_idles rest).labels
  | waiting arrivals =>
    have unbound : ¬ info.isBound := by rw [LabelInfo.isBound, state]; exact Bool.false_ne_true
    have ends := bind_foreseen read state
    rw [if_neg unbound]
    cases found : a.obstacle? info (arrivals.map (Arrival.leap id) ++ a.fallThrough id) with
    | some fault =>
      obtain ⟨_, failed⟩ := ends.fails fault found
      rw [failed] at run
      cases run
    | none =>
      obtain ⟨_, c, done, bound⟩ := ends.returns found
      rw [done] at run
      cases run
      obtain ⟨binding, here⟩ := bound.here
      refine remembers.binds id _ binding (fun leap member => ?_) here rfl bound.others
      obtain ⟨position, _, rfl⟩ := mem_map.mp member
      rfl

-- A label that is bound where no block is open takes only the jumps made before.
theorem bind_closed_remembers (closed : a.current = none) (run : Assembly.bind id a = .ok result b) : Remembers b history := by
  have bound := bind_remembers remembers run
  have nothing : (Command.bind id).leaps a = [] := by
    rw [Command.leaps, fallThrough, closed]
    exact ite_self _
  rw [nothing, append_nil] at bound
  exact bound

omit remembers in
theorem ret_closes {values : List NodeId} (run : ret none values a = .ok result b) : b.labels = a.labels ∧ b.current = none := by
  refine ⟨(straight_ret tied_strokes.discipline none values a result b run).2.1, ?_⟩
  simp only [ret, addTerminator, setCurrent, runs_bind, runs_modify, runs_pure] at run
  obtain ⟨_, _, _, _, _, ⟨_, _, _, _, _, _, _, _, rfl, _, rfl⟩, _, rfl⟩ := run
  rfl

theorem goto_if_remembers (run : gotoIf condition label a = .ok result b) :
    Remembers b (history ++ a.branchLeaps label a.labels.size) := by
  obtain ⟨next, m, made, rest⟩ := runs_bind.mp run
  obtain ⟨kept, rfl, labels, _, rfl⟩ := new_label_remembers remembers made
  obtain ⟨_, c, split, bound⟩ := runs_bind.mp rest
  obtain ⟨after, closed⟩ := branch_remembers kept split
  exact bind_closed_remembers after closed bound

theorem goto_if_not_remembers (run : gotoIfNot condition label a = .ok result b) :
    Remembers b (history ++ a.branchLeaps a.labels.size label) := by
  obtain ⟨next, m, made, rest⟩ := runs_bind.mp run
  obtain ⟨kept, rfl, labels, _, rfl⟩ := new_label_remembers remembers made
  obtain ⟨_, c, split, bound⟩ := runs_bind.mp rest
  obtain ⟨after, closed⟩ := branch_remembers kept split
  exact bind_closed_remembers after closed bound

theorem return_if_remembers {value : NodeId} (run : returnIf condition value a = .ok result b) :
    Remembers b (history ++ a.branchLeaps a.labels.size (a.labels.size + 1)) := by
  simp only [returnIf, runs_bind] at run
  obtain ⟨returning, m, made, next, n, also, _, c, split, _, d, bound, _, e, ended, last⟩ := run
  obtain ⟨first, rfl, labels, size, rfl⟩ := new_label_remembers remembers made
  obtain ⟨second, rfl, more, _, rfl⟩ := new_label_remembers first also
  obtain ⟨after, closed⟩ := branch_remembers second split
  rw [size] at after
  have returned := bind_closed_remembers after closed bound
  obtain ⟨same, shut⟩ := ret_closes ended
  exact bind_closed_remembers (returned.relabel same) shut last

theorem command_remembers {command : Command} {outcome : Outcome}
    (run : command.run a = .ok outcome b) : Remembers b (history ++ command.leaps a) := by
  have silent : command.leaps a = [] → b.labels = a.labels → Remembers b (history ++ command.leaps a) := by
    intro nothing labels
    rw [nothing, append_nil]
    exact remembers.relabel labels
  have inner : ∀ {work : Assembly Unit}, (work >>= fun _ => pure Outcome.nothing) a = .ok outcome b → work a = .ok () b := by
    intro work done
    obtain ⟨_, _, first, rest⟩ := runs_bind.mp done
    cases rest
    exact first
  cases straight : command.branches with
  | false =>
    refine silent ?_ (tied_strokes.command (straight_call tied_strokes.discipline trivial) command straight a outcome b run).2.1
    cases command with
    | newVariable | bindVariable | releaseVariable | newLabel | bind | goto | gotoIf | gotoIfNot | branch | switch
      | gotoIfException | returnIf => cases straight
    | _ => rfl
  | true =>
    cases command with
    | newVariable name representation value =>
      refine silent rfl ?_
      simp only [Command.run, Assembly.newVariable, runs_bind, runs_get, runs_modify, runs_pure] at run
      obtain ⟨_, _, ⟨_, _, ⟨rfl, rfl⟩, _, _, ⟨rfl, rfl⟩, _, _, rfl, rfl, rfl⟩, rest⟩ := run
      split at rest
      · simp only [setVariable, runs_bind, runs_modify, runs_pure] at rest
        obtain ⟨_, _, rfl, _, rfl⟩ := rest
        rfl
      · cases rest
        rfl
    | bindVariable var value | releaseVariable var =>
      obtain rfl := runs_modify.mp (inner run)
      exact silent rfl rfl
    | newLabel kind declared =>
      obtain ⟨id, made, _⟩ := runs_map.mp run
      rw [show (Command.newLabel kind declared).leaps a = [] from rfl, append_nil]
      exact (new_label_remembers remembers made).1
    | bind label => exact bind_remembers remembers (inner run)
    | goto label => exact goto_remembers remembers (inner run)
    | gotoIf condition label => exact goto_if_remembers remembers (inner run)
    | gotoIfNot condition label => exact goto_if_not_remembers remembers (inner run)
    | branch condition ifTrue ifFalse => exact (branch_remembers remembers (inner run)).1
    | switch index default cases => exact switch_remembers remembers (inner run)
    | gotoIfException site handler exception => exact throw_remembers remembers (inner run)
    | returnIf condition value => exact return_if_remembers remembers (inner run)
    | _ => cases straight

end Assembly

theorem Assembler.start_remembers {journal : Journal} (a : Assembler) (run : start descriptor config journal = .ok a) :
    Remembers a [] := by
  simp only [start, bind_eq_ok, pure_eq_ok] at run
  obtain ⟨_, _, _, _, rfl⟩ := run
  refine ⟨fun id info arrivals read => ?_, fun leap member => ?_⟩
  · cases read
  · cases member

theorem Travelled.remembers {a : Assembler} (travelled : Travelled descriptor config a history) : Remembers a history := by
  induction travelled with
  | start a journal run => exact a.start_remembers run
  | step a b history command outcome _ run ih => exact Assembly.command_remembers ih run
  | generate a b history name flags limit code _ run ih =>
    exact ih.relabel (Assembly.straight_generate Assembly.tied_strokes.discipline [] name flags limit a code b run).2.1

namespace Assembler

def retrace (descriptor : CallDescriptor) (config : AssemblerConfig) (mode : JournalMode) (commands : List Command) :
    Option (Assembler × List Leap) :=
  (Assembler.start descriptor config { mode := mode }).toOption.bind fun first =>
    commands.foldlM (fun past command =>
      match command.run past.1 with
      | .ok _ b => some (b, past.2 ++ command.leaps past.1)
      | .error .. => none) (first, [])

theorem retrace_travelled {descriptor : CallDescriptor} {config : AssemblerConfig} {mode : JournalMode} {commands : List Command}
    {b : Assembler} {history : List Leap} (retraced : retrace descriptor config mode commands = some (b, history)) :
    Travelled descriptor config b history := by
  obtain ⟨a, begun, played⟩ := Option.bind_eq_some_iff.mp retraced
  have before : Travelled descriptor config a [] := .start a _ (ok_of_to_option _ a begun)
  clear retraced begun
  generalize ([] : List Leap) = past at before played
  induction commands generalizing a past with
  | nil =>
    cases played
    exact before
  | cons command rest ih =>
    obtain ⟨⟨next, more⟩, taken, later⟩ := Option.bind_eq_some_iff.mp played
    dsimp only at taken
    split at taken
    · rename_i outcome middle run
      cases taken
      exact ih next _ (.step a next past command outcome before run) later
    · cases taken

def entering : List Command :=
  [.newVariable none .tagged (some 2), .newVariable none .tagged (some 3), .newVariable none .word32 none, .newLabel .loop [1],
   .newLabel .plain [], .branch 2 0 1, .bind 1, .bindVariable 0 3, .bindVariable 2 5, .debugBreak]

end Assembler

end SeaOfNodes
