import SeaOfNodes.Heap.Snapshot
import SeaOfNodes.Proofs.Dominators.Routes
import SeaOfNodes.Proofs.Schedule.Grounded

/-! The nodes of a block in order. -/

namespace SeaOfNodes

open List

variable {input : NodeId} {a b : Nat} {id : NodeId} {emitted unvisited left : List NodeId}

theorem before_append {ids more : List Nat} (before : Before ids a b) : Before (ids ++ more) a b := by
  obtain ⟨front, back, same, member⟩ := before
  exact ⟨front, back ++ more, by simp [same], member⟩

theorem before_mem {ids : List Nat} (before : Before ids a b) : a ∈ ids := by
  obtain ⟨front, back, same, member⟩ := before
  rw [same]
  exact mem_append_left _ member

namespace Schedule

theorem ordering_input {graph : Graph} (member : input ∈ orderingInputs graph id) : input ∈ graph.inputsOf id := by
  rw [orderingInputs] at member
  cases read : graph.node? id with
  | none => simp [read] at member
  | some node =>
    rw [read] at member
    rw [graph.inputs_of_eq id node read]
    dsimp only at member
    split at member
    · cases member
    · exact member

section

variable {known more all : List NodeId} {stack rest : List (NodeId × List NodeId)} (graph : Graph) (placement : Placement)
  (block : BlockId)

def Sorted : List NodeId → Prop
  | [] => True
  | id :: older =>
    (∀ input ∈ orderingInputs graph id, placement.find? input = some block → input ∈ older) ∧ Sorted older

-- A node on the stack is emitted after all above it, so they count as known to it.
def Awaits : List NodeId → List (NodeId × List NodeId) → Prop
  | _, [] => True
  | known, (id, waiting) :: rest =>
    (∀ input ∈ orderingInputs graph id, placement.find? input = some block → input ∈ waiting ∨ input ∈ known) ∧
      Awaits (id :: known) rest

theorem awaits_mono (subset : known ⊆ more) (awaits : Awaits graph placement block known stack) :
    Awaits graph placement block more stack := by
  induction stack generalizing known more with
  | nil => trivial
  | cons entry rest ih =>
    obtain ⟨own, others⟩ := awaits
    refine ⟨?_, ih (cons_subset_cons entry.1 subset) others⟩
    intro input member here
    exact (own input member here).imp id fun seen => subset seen

theorem awaits_drop (seen : placement.find? input = some block → input ∈ known)
    (awaits : Awaits graph placement block known ((id, input :: more) :: rest)) :
    Awaits graph placement block known ((id, more) :: rest) := by
  obtain ⟨own, others⟩ := awaits
  refine ⟨fun other member here => ?_, others⟩
  rcases own other member here with waiting | done
  · rcases mem_cons.mp waiting with same | later
    · subst same
      exact .inr (seen here)
    · exact .inl later
  · exact .inr done

theorem sorted_before (sorted : Sorted graph placement block emitted) (member : id ∈ emitted) (input : NodeId)
    (ordered : input ∈ orderingInputs graph id) (here : placement.find? input = some block) :
    Before emitted.reverse input id := by
  induction emitted with
  | nil => cases member
  | cons newest older ih =>
    obtain ⟨own, others⟩ := sorted
    rw [reverse_cons]
    rcases mem_cons.mp member with same | earlier
    · subst same
      exact ⟨older.reverse, [], rfl, mem_reverse.mpr (own input ordered here)⟩
    · exact before_append (ih others earlier)

variable (roots before base : List NodeId)

-- Nodes are entered once, only in their own block, and each for a reason: as a root or as an input.
structure EmitInvariant (unvisited : List NodeId) (stack : List (NodeId × List NodeId)) (emitted : List NodeId) :
    Prop where
  fresh : unvisited.Nodup
  distinct : (stack.map Prod.fst ++ emitted).Nodup
  entered : ∀ v ∈ stack.map Prod.fst ++ emitted, v ∉ unvisited ∧ placement.find? v = some block ∧ graph.Needed v
  covered : ∀ v, placement.find? v = some block → v ∈ unvisited ∨ v ∈ stack.map Prod.fst ++ emitted
  others : ∀ v ∈ before, placement.find? v ≠ some block → v ∈ unvisited
  sourced : ∀ v ∈ stack.map Prod.fst ++ emitted,
    v ∈ roots ∨ ∃ user ∈ stack.map Prod.fst ++ emitted, user ≠ v ∧ v ∈ orderingInputs graph user
  waiting : ∀ entry ∈ stack, ∀ input ∈ entry.2, input ∈ orderingInputs graph entry.1
  awaits : Awaits graph placement block emitted stack
  sorted : Sorted graph placement block emitted
  grown : base <:+ emitted

variable {graph placement block roots before base}

theorem waiting_drop
    (waiting : ∀ entry ∈ (id, input :: more) :: rest, ∀ input ∈ entry.2, input ∈ orderingInputs graph entry.1) :
    ∀ entry ∈ (id, more) :: rest, ∀ input ∈ entry.2, input ∈ orderingInputs graph entry.1 := by
  obtain ⟨first, others⟩ := forall_mem_cons.mp waiting
  exact forall_mem_cons.mpr ⟨fun other later => first other (mem_cons_of_mem input later), others⟩

theorem emit_leave (inv : EmitInvariant graph placement block roots before base unvisited ((id, []) :: rest) emitted) :
    EmitInvariant graph placement block roots before base unvisited rest (id :: emitted) := by
  have moved : ∀ v, v ∈ rest.map Prod.fst ++ id :: emitted ↔ v ∈ ((id, []) :: rest).map Prod.fst ++ emitted := by
    intro v
    simp only [map_cons, cons_append, mem_append, mem_cons]
    tauto
  obtain ⟨own, awaits⟩ := inv.awaits
  constructor
  case fresh => exact inv.fresh
  case distinct =>
    have distinct := inv.distinct
    simp only [map_cons, cons_append] at distinct
    exact (perm_middle.nodup_iff).mpr distinct
  case entered =>
    intro v member
    exact inv.entered v ((moved v).mp member)
  case covered =>
    intro v here
    rw [moved]
    exact inv.covered v here
  case others => exact inv.others
  case sourced =>
    intro v member
    refine (inv.sourced v ((moved v).mp member)).imp (fun root => root) ?_
    exact fun ⟨user, inside, reason⟩ => ⟨user, (moved user).mpr inside, reason⟩
  case waiting =>
    intro entry member
    exact inv.waiting entry (mem_cons_of_mem _ member)
  case awaits => exact awaits
  case sorted =>
    refine ⟨fun input ordered here => ?_, inv.sorted⟩
    exact (own input ordered here).resolve_left (by simp)
  case grown => exact inv.grown.trans (suffix_cons id emitted)

-- The stack below keeps its nodes; it may have ceased to wait for the one that is entered.
theorem emit_enter (unvisited : List NodeId) (next : NodeId) (stack below : List (NodeId × List NodeId))
    (emitted : List NodeId) (member : next ∈ unvisited) (here : placement.find? next = some block)
    (needed : graph.Needed next) (same : below.map Prod.fst = stack.map Prod.fst)
    (source : next ∈ roots ∨ ∃ user ∈ stack.map Prod.fst ++ emitted, next ∈ orderingInputs graph user)
    (waiting : ∀ entry ∈ below, ∀ input ∈ entry.2, input ∈ orderingInputs graph entry.1)
    (awaits : Awaits graph placement block (next :: emitted) below)
    (inv : EmitInvariant graph placement block roots before base unvisited stack emitted) :
    EmitInvariant graph placement block roots before base (unvisited.erase next)
      ((next, orderingInputs graph next) :: below) emitted := by
  have gone : ∀ v, v ∉ unvisited → v ∉ unvisited.erase next := fun v absent present =>
    absent (mem_of_mem_erase present)
  have outside : next ∉ stack.map Prod.fst ++ emitted := fun present => (inv.entered next present).1 member
  constructor
  case fresh => exact inv.fresh.erase next
  case distinct =>
    rw [map_cons, cons_append, same]
    exact nodup_cons.mpr ⟨outside, inv.distinct⟩
  case entered =>
    intro v present
    rw [map_cons, cons_append, same] at present
    rcases mem_cons.mp present with first | older
    · subst first
      exact ⟨inv.fresh.not_mem_erase, here, needed⟩
    · obtain ⟨absent, rest⟩ := inv.entered v older
      exact ⟨gone v absent, rest⟩
  case covered =>
    intro v inside
    rw [map_cons, cons_append, same]
    by_cases first : v = next
    · exact .inr (first ▸ mem_cons_self)
    · exact (inv.covered v inside).imp (mem_erase_of_ne first).mpr (mem_cons_of_mem next)
  case others =>
    intro v old elsewhere
    have different : v ≠ next := fun first => elsewhere (first ▸ here)
    exact (mem_erase_of_ne different).mpr (inv.others v old elsewhere)
  case sourced =>
    intro v present
    rw [map_cons, cons_append, same] at present ⊢
    rcases mem_cons.mp present with first | older
    · subst first
      refine source.imp id fun ⟨user, inside, ordered⟩ => ?_
      exact ⟨user, mem_cons_of_mem v inside, fun itself => outside (itself ▸ inside), ordered⟩
    · refine (inv.sourced v older).imp id ?_
      exact fun ⟨user, inside, reason⟩ => ⟨user, mem_cons_of_mem next inside, reason⟩
  case waiting =>
    exact forall_mem_cons.mpr ⟨fun _ => id, waiting⟩
  case awaits => exact ⟨fun input ordered _ => .inl ordered, awaits⟩
  case sorted => exact inv.sorted
  case grown => exact inv.grown

theorem emit_drop (seen : placement.find? input = some block → input ∈ emitted)
    (inv : EmitInvariant graph placement block roots before base unvisited ((id, input :: more) :: rest) emitted) :
    EmitInvariant graph placement block roots before base unvisited ((id, more) :: rest) emitted := by
  refine ⟨inv.fresh, inv.distinct, inv.entered, inv.covered, inv.others, inv.sourced,
    waiting_drop inv.waiting, ?_, inv.sorted, inv.grown⟩
  exact awaits_drop graph placement block seen inv.awaits

theorem emit_keeps (inv : EmitInvariant graph placement block roots before base unvisited stack emitted)
    (run : emit graph placement block unvisited stack emitted = .ok (left, all)) :
    EmitInvariant graph placement block roots before base left [] all ∧ left ⊆ unvisited := by
  fun_induction emit graph placement block unvisited stack emitted with
  | case1 unvisited emitted =>
    cases run
    exact ⟨inv, Subset.refl _⟩
  | case2 unvisited emitted id rest ih => exact ih (emit_leave inv) run
  | case3 unvisited emitted id input more rest elsewhere ih =>
    exact ih (emit_drop (fun here => absurd here elsewhere) inv) run
  | case4 unvisited emitted id input more rest here member ih =>
    have ordered := inv.waiting (id, input :: more) mem_cons_self input mem_cons_self
    have needed := graph.needed_input id input (inv.entered id mem_cons_self).2.2 (ordering_input ordered)
    have awaits := awaits_drop graph placement block (fun _ => mem_cons_self)
      (awaits_mono graph placement block (subset_cons_self input emitted) inv.awaits)
    obtain ⟨final, fewer⟩ := ih (emit_enter unvisited input ((id, input :: more) :: rest) ((id, more) :: rest) emitted member
      (not_not.mp here) needed rfl (.inr ⟨id, mem_cons_self, ordered⟩)
      (waiting_drop inv.waiting) awaits inv) run
    exact ⟨final, fun v inside => mem_of_mem_erase (fewer inside)⟩
  | case5 => cases run
  | case6 unvisited emitted id input more rest here absent acyclic ih =>
    refine ih (emit_drop (fun inside => ?_) inv) run
    -- Entered and not on the stack, so it has been left.
    rcases mem_append.mp ((inv.covered input inside).resolve_left absent) with stacked | done
    · obtain ⟨entry, present, same⟩ := mem_map.mp stacked
      refine absurd (any_eq_true.mpr ?_) acyclic
      rcases mem_cons.mp present with top | deeper
      · exact ⟨(id, more), mem_cons_self, by simpa [top] using same⟩
      · exact ⟨entry, mem_cons_of_mem _ deeper, by simpa using same⟩
    · exact done

-- The bottom of the stack is left last.
theorem emit_bottom (id : NodeId) (bottom : (stack.map Prod.fst).getLast? = some id)
    (run : emit graph placement block unvisited stack emitted = .ok (left, all)) : all.head? = some id := by
  fun_induction emit graph placement block unvisited stack emitted with
  | case1 unvisited emitted => cases bottom
  | case2 unvisited emitted top rest ih =>
    cases rest with
    | nil =>
      rw [emit] at run
      cases run
      exact bottom
    | cons next deeper => exact ih bottom run
  | case3 unvisited emitted top input more rest elsewhere ih => exact ih bottom run
  | case4 unvisited emitted top input more rest here member ih => exact ih bottom run
  | case5 => cases run
  | case6 unvisited emitted top input more rest here absent acyclic ih => exact ih bottom run

theorem emit_all_keeps {pending : List NodeId}
    (known : ∀ id ∈ pending, id ∈ roots ∧ placement.find? id = some block ∧ graph.Needed id)
    (inv : EmitInvariant graph placement block roots before base unvisited [] emitted)
    (run : emitAll graph placement block pending unvisited emitted = .ok (left, all)) :
    EmitInvariant graph placement block roots before base left [] all ∧ left ⊆ unvisited ∧ ∀ id ∈ pending, id ∈ all := by
  induction pending generalizing unvisited emitted with
  | nil =>
    cases run
    exact ⟨inv, Subset.refl _, by simp⟩
  | cons id rest ih =>
    have later := fun other inside => known other (mem_cons_of_mem id inside)
    obtain ⟨root, here, needed⟩ := known id mem_cons_self
    rw [emitAll] at run
    split at run
    · rename_i member
      rw [bind_eq_ok] at run
      obtain ⟨⟨between, middle⟩, first, rest⟩ := run
      obtain ⟨step, fewer⟩ := emit_keeps
        (emit_enter unvisited id [] [] emitted member here needed rfl (.inl root) (by simp) trivial inv) first
      obtain ⟨final, fewest, done⟩ := ih later step rest
      refine ⟨final, fun v inside => mem_of_mem_erase (fewer (fewest inside)), forall_mem_cons.mpr ⟨?_, done⟩⟩
      exact (final.covered _ here).resolve_left fun still => inv.fresh.not_mem_erase (fewer (fewest still))
    · rename_i absent
      obtain ⟨final, fewest, done⟩ := ih later inv run
      exact ⟨final, fewest, forall_mem_cons.mpr
        ⟨(final.covered _ here).resolve_left fun still => absent (fewest still), done⟩⟩

end

end Schedule

def Graph.isPhi (graph : Graph) (id : NodeId) : Bool := (graph.node? id).any fun node => node.op.isPhi

namespace Schedule

section

variable (graph : Graph) (placement : Placement)

-- What the placement says of the ends of a block.
structure Anchored (own : Block) (id : BlockId) : Prop where
  start : placement.find? own.start = some id ∧ graph.Needed own.start
  exempt : orderingInputs graph own.start = [] ∧ graph.isPhi own.start = false
  ended : ∀ v, own.terminator = some v → placement.find? v = some id ∧ graph.Needed v

structure Listed (own : Block) (id : BlockId) (members nodes : List NodeId) : Prop where
  distinct : nodes.Nodup
  placed : ∀ v ∈ nodes, placement.find? v = some id ∧ graph.Needed v
  complete : ∀ v ∈ members, v ∈ nodes
  ended : ∀ v, own.terminator = some v → v ∈ nodes
  sourced : ∀ v ∈ nodes, v = own.start ∨ v ∈ members ∨ own.terminator = some v ∨
    ∃ user ∈ nodes, user ≠ v ∧ v ∈ orderingInputs graph user
  inputs : ∀ v ∈ nodes, ∀ input ∈ orderingInputs graph v, placement.find? input = some id → Before nodes input v
  front : ∃ phis rest, nodes = own.start :: (phis ++ rest) ∧ phis.Sublist members ∧
    ∀ v, v ∈ phis ↔ v ∈ members ∧ graph.isPhi v = true
  early : ∀ v, own.terminator = some v → nodes.getLast? = some v ∨ v = own.start ∨ v ∈ members ∧ graph.isPhi v = true ∨
    ∃ user ∈ nodes, v ∈ orderingInputs graph user

variable {graph placement}

theorem phi_exempt (phi : graph.isPhi id) : orderingInputs graph id = [] := by
  obtain ⟨node, read, shape⟩ := (Option.any_eq_true _ _).mp phi
  simp [orderingInputs, read, shape]

theorem sorted_exempt (block : BlockId) (exempt : ∀ v ∈ emitted, orderingInputs graph v = []) :
    Sorted graph placement block emitted := by
  induction emitted with
  | nil => trivial
  | cons newest older ih =>
    refine ⟨?_, ih fun v member => exempt v (mem_cons_of_mem newest member)⟩
    rw [exempt newest mem_cons_self]
    simp

section

variable (own : Block) (id : BlockId) (members unvisited : List NodeId) (fresh : unvisited.Nodup)
  (whole : ∀ v, placement.find? v = some id → v ∈ unvisited) (once : members.Nodup)
  (known : ∀ v ∈ members, placement.find? v = some id ∧ graph.Needed v) (anchored : Anchored graph placement own id)

include whole known anchored in
theorem mem_front_phis (v : NodeId) :
    v ∈ (members.filter fun v => graph.isPhi v && v ∈ unvisited.erase own.start) ↔ v ∈ members ∧ graph.isPhi v := by
  simp only [mem_filter, Bool.and_eq_true, decide_eq_true_eq]
  constructor
  · rintro ⟨member, phi, _⟩
    exact ⟨member, phi⟩
  · rintro ⟨member, phi⟩
    have different : v ≠ own.start := by
      rintro rfl
      rw [anchored.exempt.2] at phi
      cases phi
    exact ⟨member, phi, (mem_erase_of_ne different).mpr (whole v (known v member).1)⟩

include fresh whole known anchored in
theorem emit_begins (roots : List NodeId) {phis : List NodeId} (listed : ∀ v, v ∈ phis ↔ v ∈ members ∧ graph.isPhi v) (alone : phis.Nodup)
    (rooted : ∀ v ∈ phis.reverse ++ [own.start], v ∈ roots) :
    EmitInvariant graph placement id roots unvisited (phis.reverse ++ [own.start])
      ((unvisited.erase own.start).filter fun v => v ∉ phis) [] (phis.reverse ++ [own.start]) := by
  have left : ∀ v, v ∈ ((unvisited.erase own.start).filter fun v => v ∉ phis) ↔
      v ∈ unvisited ∧ v ∉ phis.reverse ++ [own.start] := by
    intro v
    simp only [mem_filter, decide_eq_true_eq, fresh.mem_erase_iff, mem_append, mem_reverse, mem_singleton, not_or]
    tauto
  have emitted : ∀ v ∈ phis.reverse ++ [own.start], placement.find? v = some id ∧ graph.Needed v ∧
      orderingInputs graph v = [] := by
    refine forall_mem_append.mpr ⟨fun v phi => ?_, forall_mem_singleton.mpr
      ⟨anchored.start.1, anchored.start.2, anchored.exempt.1⟩⟩
    obtain ⟨inside, shape⟩ := (listed v).mp (mem_reverse.mp phi)
    obtain ⟨here, needed⟩ := known v inside
    exact ⟨here, needed, phi_exempt shape⟩
  constructor
  case fresh => exact (fresh.erase own.start).filter _
  case distinct =>
    show (phis.reverse ++ [own.start]).Nodup
    refine nodup_append.mpr ⟨nodup_reverse.mpr alone, nodup_singleton _, ?_⟩
    rintro v phi w start rfl
    have shape := ((listed v).mp (mem_reverse.mp phi)).2
    rw [mem_singleton.mp start, anchored.exempt.2] at shape
    cases shape
  case entered =>
    intro v member
    obtain ⟨here, needed, _⟩ := emitted v member
    exact ⟨fun waiting => ((left v).mp waiting).2 member, here, needed⟩
  case covered =>
    intro v here
    rw [left v]
    by_cases member : v ∈ phis.reverse ++ [own.start]
    · exact .inr member
    · exact .inl ⟨whole v here, member⟩
  case others =>
    intro v old elsewhere
    exact (left v).mpr ⟨old, fun member => elsewhere (emitted v member).1⟩
  case sourced =>
    intro v member
    exact .inl (rooted v member)
  case waiting => simp
  case awaits => trivial
  case sorted => exact sorted_exempt id fun v member => (emitted v member).2.2
  case grown => exact suffix_refl _

include fresh whole once known anchored in
theorem order_block_listed {nodes : List NodeId} (run : orderBlock graph placement id own members unvisited = .ok (left, nodes)) :
    Listed graph placement own id members nodes ∧ left.Nodup ∧ ∀ v ∈ unvisited, placement.find? v ≠ some id → v ∈ left := by
  rw [orderBlock] at run
  simp only [bind_eq_ok, pure_eq_ok] at run
  obtain ⟨⟨between, body⟩, first, ⟨last, all⟩, second, same⟩ := run
  cases same
  have listed := mem_front_phis own id members unvisited whole known anchored
  have rooted : ∀ v ∈ (members.filter fun v => graph.isPhi v && v ∈ unvisited.erase own.start).reverse ++ [own.start] ++
      members.filter fun v => some v ≠ own.terminator,
      v = own.start ∨ v ∈ members ∧ (graph.isPhi v ∨ own.terminator ≠ some v) := by
    intro v root
    rcases mem_append.mp root with head | plain
    · rcases mem_append.mp head with phi | start
      · exact .inr (((listed v).mp (mem_reverse.mp phi)).imp_right .inl)
      · exact .inl (mem_singleton.mp start)
    · obtain ⟨inside, different⟩ := mem_filter.mp plain
      exact .inr ⟨inside, .inr (Ne.symm (of_decide_eq_true different))⟩
  -- The terminator becomes a root only when the body is done.
  have begun := emit_begins own id members unvisited fresh whole known anchored
    (_ ++ members.filter fun v => some v ≠ own.terminator) listed (once.filter _) fun v member => mem_append_left _ member
  obtain ⟨middle, fewer, bodyDone⟩ := emit_all_keeps (by
    intro v member
    exact ⟨mem_append_right _ member, known v (mem_filter.mp member).1⟩) begun first
  obtain ⟨final, fewest, lastDone⟩ := emit_all_keeps (by
    intro v member
    exact ⟨mem_append_right _ member, anchored.ended v (Option.mem_toList.mp member)⟩)
    { middle with sourced := fun v member => (middle.sourced v member).imp_left (mem_append_left own.terminator.toList) } second
  have stays : ∀ v ∈ body, v ∈ all := by
    intro v member
    obtain ⟨seen, here, _⟩ := middle.entered v member
    exact (final.covered v here).resolve_left fun still => seen (fewest still)
  have ended : ∀ v, own.terminator = some v → v ∈ all := fun v last => lastDone v (Option.mem_toList.mpr last)
  refine ⟨?_, final.fresh, final.others⟩
  constructor
  case distinct => exact nodup_reverse.mpr final.distinct
  case placed =>
    intro v member
    exact (final.entered v (mem_reverse.mp member)).2
  case complete =>
    intro v member
    rw [mem_reverse]
    by_cases last : own.terminator = some v
    · exact ended v last
    · exact stays v (bodyDone v (mem_filter.mpr ⟨member, by simpa using Ne.symm last⟩))
  case ended =>
    intro v last
    exact mem_reverse.mpr (ended v last)
  case sourced =>
    intro v member
    rcases final.sourced v (mem_reverse.mp member) with root | ⟨user, inside, reason⟩
    · rcases mem_append.mp root with early | last
      · exact (rooted v early).imp_right fun inside => .inl inside.1
      · exact .inr (.inr (.inl (Option.mem_toList.mp last)))
    · exact .inr (.inr (.inr ⟨user, mem_reverse.mpr inside, reason⟩))
  case inputs =>
    intro v member
    exact sorted_before graph placement id final.sorted (mem_reverse.mp member)
  case front =>
    obtain ⟨rest, same⟩ := final.grown
    exact ⟨_, rest.reverse, by simp [← same], filter_sublist, listed⟩
  case early =>
    intro v closes
    have inside := ended v closes
    rw [closes, Option.toList_some, emitAll] at second
    split at second
    · obtain ⟨⟨_, whole⟩, emitted, done⟩ := bind_eq_ok.mp second
      cases done
      rw [getLast?_reverse]
      exact .inl (emit_bottom v rfl emitted)
    · cases second
      rcases middle.sourced v inside with root | ⟨user, inside, _, ordered⟩
      · rcases rooted v root with start | ⟨member, phi | different⟩
        · exact .inr (.inl start)
        · exact .inr (.inr (.inl ⟨member, phi⟩))
        · exact absurd closes different
      · exact .inr (.inr (.inr ⟨user, mem_reverse.mpr inside, ordered⟩))

end

theorem order_blocks_listed {ids : List NodeId} (once : ids.Nodup) (needed : ∀ id ∈ ids, graph.Needed id)
    {entries : List (Block × BlockId)} {blocks : List Block} (fresh : unvisited.Nodup) (distinct : (entries.map Prod.snd).Nodup)
    (whole : ∀ entry ∈ entries, ∀ v, placement.find? v = some entry.2 → v ∈ unvisited)
    (anchored : ∀ entry ∈ entries, Anchored graph placement entry.1 entry.2)
    (filled : orderBlocks graph placement ids entries unvisited = .ok blocks) :
    Forall₂ (fun entry block => ∃ nodes, block = { entry.1 with nodes := nodes } ∧ Listed graph placement entry.1 entry.2
      (if entry.1.position.isSome then ids.filter fun v => placement.find? v = some entry.2 else []) nodes) entries blocks := by
  induction entries generalizing unvisited blocks with
  | nil =>
    cases filled
    exact .nil
  | cons first rest ih =>
    obtain ⟨own, id⟩ := first
    simp only [orderBlocks, bind_eq_ok, pure_eq_ok] at filled
    obtain ⟨⟨left, nodes⟩, ordered, further, later, same⟩ := filled
    cases same
    obtain ⟨alone, others⟩ := nodup_cons.mp distinct
    have members : ∀ v ∈ (if own.position.isSome then ids.filter fun v => placement.find? v = some id else []),
        placement.find? v = some id ∧ graph.Needed v := by
      intro v inside
      split at inside
      · obtain ⟨member, here⟩ := mem_filter.mp inside
        exact ⟨of_decide_eq_true here, needed v member⟩
      · cases inside
    have onceMembers : (if own.position.isSome then ids.filter fun v => placement.find? v = some id else []).Nodup := by
      split
      · exact once.filter _
      · exact nodup_nil
    obtain ⟨listed, leftFresh, elsewhere⟩ := order_block_listed own id _ unvisited fresh
      (whole (own, id) mem_cons_self) onceMembers members (anchored (own, id) mem_cons_self) ordered
    refine .cons ⟨nodes, rfl, listed⟩ (ih leftFresh others ?_ (fun entry member => anchored entry (mem_cons_of_mem _ member)) later)
    intro entry member v here
    have old := whole entry (mem_cons_of_mem _ member) v here
    refine elsewhere v old ?_
    rw [here]
    rintro ⟨⟩
    exact alone (mem_map.mpr ⟨entry, member, rfl⟩)

end

namespace Stages

variable {graph : Graph} {schedule : Schedule} {ids : List NodeId} {flow : Flow} {initial fixed : Placement}
  (stages : Stages graph schedule ids flow initial fixed)

include stages

theorem placement_size : schedule.placement.size = graph.size := by
  refine stages.placement_keeps (fun placement => placement.size = graph.size) stages.fixed_grounded.1.sized ?_
  intro placement id block sized _ _ _
  exact (placement.size_put id block).trans sized

theorem block_anchored {id : BlockId} {own : Block}
    (read : (emptyBlocks flow schedule.order schedule.dominators)[id]? = some own) :
    Anchored graph schedule.placement own id := by
  simp only [emptyBlocks, Array.getElem?_mapIdx, Option.map_eq_some_iff] at read
  obtain ⟨start, place, rfl⟩ := read
  obtain ⟨placed, member⟩ := stages.start_placed id place
  obtain ⟨needed, _⟩ := (stages.mem_ids start).mp member
  refine ⟨⟨placed, needed⟩, ?_, stages.terminator_placed id⟩
  rw [stages.flow_starts, getElem?_toArray] at place
  obtain ⟨node, there, starts⟩ := (Option.any_eq_true _ _).mp (mem_filter.mp (mem_of_getElem? place)).2
  refine ⟨by simp [orderingInputs, there, starts], ?_⟩
  rw [Graph.isPhi, there, Option.any_some]
  cases op : node.op with
  | control => rfl
  | _ => simp [op, Operator.startsBlock] at starts

-- A block that control cannot reach lists its start, its terminator and what they need first, and no more.
theorem any_block_listed {id : BlockId} (inside : id < flow.size) :
    ∃ block, schedule.block? id = some block ∧ block.start ∈ ids ∧ Listed graph schedule.placement block id
        (if id ∈ schedule.order then ids.filter fun v => schedule.placement.find? v = some id else []) block.nodes := by
  obtain ⟨_, _, empty, read, nodes, rfl, listed⟩ := stages.at_block inside <| order_blocks_listed stages.ids_nodup
    (fun v inside => ((stages.mem_ids v).mp inside).1) nodup_range (by
      rw [zipIdx_map_snd]
      exact nodup_range') (by
      intro entry _ v here
      rw [mem_range, ← stages.placement_size]
      exact Placement.find_inside _ here) (by
      rintro ⟨own, place⟩ inside
      have there := mem_zipIdx_iff_getElem?.mp inside
      rw [Array.getElem?_toList] at there
      exact stages.block_anchored there) stages.filled
  simp only [emptyBlocks, Array.getElem?_mapIdx, Option.map_eq_some_iff] at empty
  obtain ⟨start, place, rfl⟩ := empty
  simp only [isSome_idxOf?] at listed
  refine ⟨_, read, (stages.start_placed id place).2, ?_⟩
  exact ⟨listed.distinct, listed.placed, listed.complete, listed.ended, listed.sourced, listed.inputs, listed.front, listed.early⟩

theorem block_listed (id : BlockId) (member : id ∈ schedule.order) :
    ∃ block, schedule.block? id = some block ∧ block.start ∈ ids ∧
      Listed graph schedule.placement block id (ids.filter fun v => schedule.placement.find? v = some id) block.nodes := by
  obtain ⟨block, read, started, listed⟩ := stages.any_block_listed (stages.order_inside member)
  rw [if_pos member] at listed
  exact ⟨block, read, started, listed⟩

end Stages

-- The list of a block holds the nodes that are placed there; the exit is one of them only where it ends the block or another node
-- of the block needs it first.
structure ListsInOrder (schedule : Schedule) (graph : Graph) (id : BlockId) (block : Block) : Prop where
  members : ∀ v, v ∈ block.nodes ↔ schedule.blockOf? v = some id ∧ graph.Needed v ∧
    (v = Graph.stop → block.terminator = some v ∨
      ∃ user, schedule.blockOf? user = some id ∧ graph.Needed user ∧ user ≠ v ∧ v ∈ orderingInputs graph user)
  front : ∃ phis rest, block.nodes = block.start :: (phis ++ rest) ∧
    ∀ v, v ∈ phis ↔ schedule.blockOf? v = some id ∧ graph.Needed v ∧ v ≠ Graph.stop ∧ graph.isPhi v = true
  inputs : ∀ v ∈ block.nodes, ∀ node, graph.node? v = some node → node.op.startsBlock = false → node.op.isPhi = false →
    ∀ input ∈ node.inputs, schedule.blockOf? input = some id → Before block.nodes input v

theorem Stages.lists_in_order {graph : Graph} {schedule : Schedule} {ids : List NodeId} {flow : Flow}
    {initial fixed : Placement} (stages : Stages graph schedule ids flow initial fixed) (id : BlockId) (block : Block)
    (listed : Listed graph schedule.placement block id (ids.filter fun v => schedule.placement.find? v = some id) block.nodes)
    (started : block.start ∈ ids) : schedule.ListsInOrder graph id block := by
  have member : ∀ v, v ∈ (ids.filter fun v => schedule.placement.find? v = some id) ↔
      schedule.blockOf? v = some id ∧ graph.Needed v ∧ v ≠ Graph.stop := by
    intro v
    rw [mem_filter, stages.mem_ids, decide_eq_true_eq]
    exact ⟨fun ⟨⟨needed, inner⟩, here⟩ => ⟨here, needed, inner⟩, fun ⟨here, needed, inner⟩ => ⟨⟨needed, inner⟩, here⟩⟩
  have complete := fun v there => listed.complete v ((member v).mpr there)
  constructor
  case members =>
    intro v
    constructor
    · intro inside
      obtain ⟨here, needed⟩ := listed.placed v inside
      refine ⟨here, needed, fun exit => ?_⟩
      rcases listed.sourced v inside with start | plain | last | ⟨user, users, other, ordered⟩
      · exact absurd (start.symm.trans exit) ((stages.mem_ids _).mp started).2
      · exact absurd exit ((member v).mp plain).2.2
      · exact .inl last
      · obtain ⟨there, wanted⟩ := listed.placed user users
        exact .inr ⟨user, there, wanted, other, ordered⟩
    · rintro ⟨here, needed, reason⟩
      by_cases exit : v = Graph.stop
      · rcases reason exit with last | ⟨user, there, wanted, other, ordered⟩
        · exact listed.ended v last
        · have users := complete user ⟨there, wanted, exit ▸ other⟩
          exact before_mem (listed.inputs user users v ordered here)
      · exact complete v ⟨here, needed, exit⟩
  case front =>
    obtain ⟨phis, rest, same, _, spec⟩ := listed.front
    refine ⟨phis, rest, same, fun v => ?_⟩
    rw [spec v, member v]
    tauto
  case inputs =>
    intro v inside node read plain straight input edge here
    refine listed.inputs v inside input ?_ here
    simpa [orderingInputs, read, plain, straight] using edge

theorem mem_ordered (schedule : Schedule) {entry : BlockId × Block} (member : entry ∈ schedule.ordered) :
    entry.1 ∈ schedule.order ∧ schedule.block? entry.1 = some entry.2 := by
  obtain ⟨id, inside, found⟩ := mem_filterMap.mp member
  obtain ⟨block, read, rfl⟩ := Option.map_eq_some_iff.mp found
  exact ⟨inside, read⟩

theorem ordered_apart (schedule : Schedule) (distinct : schedule.order.Nodup) :
    schedule.ordered.Pairwise fun first second => first.1 ≠ second.1 := by
  refine Pairwise.filterMap _ ?_ distinct
  intro a b apart first here second there
  obtain ⟨_, _, rfl⟩ := Option.map_eq_some_iff.mp here
  obtain ⟨_, _, rfl⟩ := Option.map_eq_some_iff.mp there
  exact apart

end Schedule

theorem scheduled_nodes_listed (graph : Graph) (schedule : Schedule) (accepted : Schedule.ofGraph graph = .ok schedule) :
    (schedule.ordered.flatMap fun entry => entry.2.nodes).Nodup ∧
      ∀ id ∈ schedule.order, ∃ block, schedule.block? id = some block ∧ schedule.ListsInOrder graph id block := by
  obtain ⟨ids, flow, initial, fixed, stages⟩ := Schedule.of_graph_stages accepted
  constructor
  · have listed : ∀ entry ∈ schedule.ordered, entry.2.nodes.Nodup ∧
        ∀ v ∈ entry.2.nodes, schedule.placement.find? v = some entry.1 := by
      intro entry member
      obtain ⟨inside, read⟩ := schedule.mem_ordered member
      obtain ⟨block, again, _, listed⟩ := stages.block_listed entry.1 inside
      rw [read] at again
      cases again
      exact ⟨listed.distinct, fun v here => (listed.placed v here).1⟩
    refine nodup_flatMap.mpr ⟨fun entry member => (listed entry member).1, ?_⟩
    -- A node in two lists would be placed in both blocks.
    refine (schedule.ordered_apart stages.distinct).imp_of_mem fun {first second} one two apart v here there => apart ?_
    have place := (listed first one).2 v here
    rw [(listed second two).2 v there] at place
    exact (Option.some.inj place).symm
  · intro id member
    obtain ⟨block, read, started, listed⟩ := stages.block_listed id member
    exact ⟨block, read, stages.lists_in_order id block listed started⟩

def Graph.joinedSums : Graph :=
  { Graph.empty with
    nodes := ⟨#[
      { op := .control .start, inputs := [] },
      { op := .control (.stop 1), inputs := [10] },
      { op := .constant (.int32 1), inputs := [] },
      { op := .control .branch, inputs := [2, 0] },
      { op := .control .ifTrue, inputs := [3] },
      { op := .control .ifFalse, inputs := [3] },
      { op := .control (.merge 2), inputs := [4, 5] },
      { op := .machine .int32Add, inputs := [2, 2] },
      { op := .phi .word32 2, inputs := [2, 7, 6] },
      { op := .machine .int32Add, inputs := [8, 7] },
      { op := .control (.ret 1), inputs := [2, 9, 0, 6] }]⟩
    uses := ⟨#[[3, 10], [], [3, 7, 7, 8, 10], [4, 5], [6], [6], [8, 10], [8, 9], [9], [10], [1]]⟩ }

theorem joined_sums_listed : ∃ schedule, Schedule.ofGraph .joinedSums = .ok schedule ∧
    schedule.ordered.map (fun entry => entry.2.nodes) = [[0, 2, 7, 3], [5], [4], [6, 8, 9, 10]] ∧
    (schedule.ordered.flatMap fun entry => entry.2.nodes).Nodup ∧
    ∀ id ∈ schedule.order, ∃ block, schedule.block? id = some block ∧ schedule.ListsInOrder .joinedSums id block := by
  obtain ⟨schedule, accepted, lists⟩ := scheduled_check .joinedSums
    (fun schedule => schedule.ordered.map (fun entry => entry.2.nodes) = [[0, 2, 7, 3], [5], [4], [6, 8, 9, 10]]) (by cbv)
  exact ⟨schedule, accepted, of_decide_eq_true lists, scheduled_nodes_listed .joinedSums schedule accepted⟩

def Graph.projectedExit : Graph :=
  { Graph.empty with
    nodes := ⟨#[
      { op := .control .start, inputs := [] },
      { op := .control (.stop 1), inputs := [5] },
      { op := .constant (.heap Root.undefined), inputs := [] },
      { op := .control (.merge 1), inputs := [0] },
      { op := .phi .tagged 1, inputs := [6, 3] },
      { op := .control (.ret 1), inputs := [2, 4, 0, 3] },
      { op := .projection 0, inputs := [1] }]⟩
    uses := ⟨#[[3, 5], [6], [5], [4, 5], [5], [1], [4]]⟩ }

theorem projected_exit_listed : Graph.projectedExit.verify = .ok () ∧
    ∃ schedule, Schedule.ofGraph .projectedExit = .ok schedule ∧
      ∃ id ∈ schedule.order, ∃ block, schedule.block? id = some block ∧ Graph.stop ∈ block.nodes := by
  refine ⟨ok_of_to_option _ () (by decide +kernel), ?_⟩
  obtain ⟨schedule, accepted, listed⟩ := scheduled_check .projectedExit
    (fun schedule => schedule.ordered.any fun entry => Graph.stop ∈ entry.2.nodes) (by cbv)
  obtain ⟨entry, member, inside⟩ := any_eq_true.mp listed
  obtain ⟨reached, read⟩ := schedule.mem_ordered member
  exact ⟨schedule, accepted, entry.1, reached, entry.2, read, of_decide_eq_true inside⟩

end SeaOfNodes
