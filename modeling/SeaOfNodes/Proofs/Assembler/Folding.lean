import SeaOfNodes.Proofs.Assembler.Bound
import SeaOfNodes.Proofs.Assembler.Turns
import SeaOfNodes.Proofs.Creation.Emission

/-! Arithmetic on constants is done while the graph is built. -/

namespace SeaOfNodes

variable {words : NodeId → Int64} {id : NodeId}

inductive Width where
  | half
  | full

-- Words are kept in 64 bits. Of a shorter one only the lower half counts, with its sign extended.
def Width.read : Width → Int64 → Int64
  | half, word => word.toInt32.toInt64
  | full, word => word

inductive UnaryFold where
  | extend
  | truncate

inductive BinaryFold where
  | int32Add
  | wordAdd
  | wordSub
  | shiftLeft
  | shiftRight

namespace UnaryFold

def op : UnaryFold → MachineOp
  | extend => .changeInt32ToInt64
  | truncate => .truncateInt64ToInt32

def run : UnaryFold → NodeId → Assembly NodeId
  | extend => Assembly.extend
  | truncate => Assembly.truncate

def takes : UnaryFold → Width
  | extend => .half
  | truncate => .full

def gives : UnaryFold → Width
  | extend => .full
  | truncate => .half

-- Both ways the lower half is what remains.
def word (_ : UnaryFold) (value : Int64) : Int64 := value.toInt32.toInt64

end UnaryFold

namespace BinaryFold

def op : BinaryFold → MachineOp
  | int32Add => .int32Add
  | wordAdd => .int64Add
  | wordSub => .int64Sub
  | shiftLeft => .word64Shl
  | shiftRight => .word64Sar

def run : BinaryFold → NodeId → NodeId → Assembly NodeId
  | int32Add => Assembly.int32Add
  | wordAdd => Assembly.wordAdd
  | wordSub => Assembly.wordSub
  | shiftLeft => Assembly.wordShiftLeft
  | shiftRight => Assembly.wordShiftRight

def width : BinaryFold → Width
  | int32Add => .half
  | _ => .full

-- An amount to shift by may have either width.
def Takes (fold : BinaryFold) (right : Width) : Prop := fold = shiftLeft ∨ fold = shiftRight ∨ right = fold.width

def word : BinaryFold → Int64 → Int64 → Int64
  | int32Add, left, right => (left.toInt32 + right.toInt32).toInt64
  | wordAdd, left, right => left + right
  | wordSub, left, right => left - right
  | shiftLeft, value, amount => value <<< amount
  | shiftRight, value, amount => value >>> amount

end BinaryFold

inductive WordTree : Width → Type
  | leaf (width : Width) (id : NodeId) : WordTree width
  | unary (fold : UnaryFold) (value : WordTree fold.takes) : WordTree fold.gives
  | binary (fold : BinaryFold) {other : Width} (takes : fold.Takes other) (left : WordTree fold.width) (right : WordTree other) :
      WordTree fold.width

namespace WordTree

def emit {width : Width} : WordTree width → Assembly NodeId
  | leaf _ id => pure id
  | unary fold value => do fold.run (← value.emit)
  | binary fold _ left right => do
    let first ← left.emit
    let second ← right.emit
    fold.run first second

def word (words : NodeId → Int64) {width : Width} : WordTree width → Int64
  | leaf width id => width.read (words id)
  | unary fold value => fold.word (value.word words)
  | binary fold _ left right => fold.word (left.word words) (right.word words)

end WordTree

namespace Graph

def Shows (graph : Graph) (id : NodeId) (op : Operator) (inputs : List NodeId) : Prop :=
  ∃ node, graph.node? id = some node ∧ node.op = op ∧ node.inputs = inputs

def Stays (old new : Graph) : Prop := ∀ id op inputs, old.Shows id op inputs → new.Shows id op inputs

-- Words for all nodes, where constants and arithmetic mean what they say.
structure Meant (graph : Graph) (words : NodeId → Int64) : Prop where
  int32 : ∀ id value inputs, graph.Shows id (.constant (.int32 value)) inputs → words id = value.toInt64
  int64 : ∀ id value inputs, graph.Shows id (.constant (.int64 value)) inputs → words id = value
  unary : ∀ id fold value, graph.Shows id (.machine (UnaryFold.op fold)) [value] → words id = fold.word (words value)
  binary : ∀ id fold left right, graph.Shows id (.machine (BinaryFold.op fold)) [left, right] →
    words id = fold.word (words left) (words right)

end Graph

theorem amount_read (width : Width) (amount : Int64) : (width.read amount).toBitVec.smod 64 = amount.toBitVec.smod 64 := by
  cases width with
  | full => rfl
  | half =>
    apply BitVec.eq_of_toInt_eq
    have low : amount.toInt.bmod (2 ^ 32) % 64 = amount.toInt % 64 := by
      rw [← Int.emod_emod_of_dvd _ (show (64 : Int) ∣ (2 ^ 32 : Nat) by decide), Int.bmod_emod,
        Int.emod_emod_of_dvd _ (by decide)]
    rw [BitVec.toInt_smod, BitVec.toInt_smod, Int64.toInt_toBitVec, Int64.toInt_toBitVec, Width.read, Int32.toInt_toInt64,
      Int64.toInt_toInt32, show BitVec.toInt (64 : BitVec 64) = 64 from rfl, Int.fmod_eq_emod_of_nonneg _ (by decide), low,
      Int.fmod_eq_emod_of_nonneg _ (by decide)]

theorem unary_read (fold : UnaryFold) (value : Int64) : fold.word (fold.takes.read value) = fold.word value := by
  cases fold <;> simp [UnaryFold.word, UnaryFold.takes, Width.read]

theorem binary_read {fold : BinaryFold} {other : Width} (takes : fold.Takes other) (left right : Int64) :
    fold.word (fold.width.read left) (other.read right) = fold.word left right := by
  cases fold with
  | shiftLeft =>
    apply Int64.toBitVec_inj.mp
    rw [BinaryFold.word, BinaryFold.word, Int64.toBitVec_shiftLeft, Int64.toBitVec_shiftLeft, amount_read]
    rfl
  | shiftRight =>
    apply Int64.toBitVec_inj.mp
    rw [BinaryFold.word, BinaryFold.word, Int64.toBitVec_shiftRight, Int64.toBitVec_shiftRight, amount_read]
    rfl
  | int32Add =>
    rcases takes with impossible | impossible | rfl
    · cases impossible
    · cases impossible
    · simp [BinaryFold.word, BinaryFold.width, Width.read]
  | _ =>
    rcases takes with impossible | impossible | rfl
    · cases impossible
    · cases impossible
    · rfl

theorem unary_fits (fold : UnaryFold) (value : Int64) : fold.gives.read (fold.word value) = fold.word value := by
  cases fold <;> simp [UnaryFold.word, UnaryFold.gives, Width.read]

theorem binary_fits (fold : BinaryFold) (left right : Int64) : fold.width.read (fold.word left right) = fold.word left right := by
  cases fold <;> simp [BinaryFold.word, BinaryFold.width, Width.read]

theorem zero_neutral (fold : BinaryFold) (value : Int64) : fold.width.read value = fold.word value 0 := by
  cases fold <;> simp [BinaryFold.word, BinaryFold.width, Width.read]

namespace Graph

variable {old middle new : Graph}

theorem stays_refl (graph : Graph) : graph.Stays graph := fun _ _ _ shows => shows

theorem stays_trans (first : old.Stays middle) (second : middle.Stays new) : old.Stays new :=
  fun id op inputs shows => second id op inputs (first id op inputs shows)

theorem Meant.before (meant : new.Meant words) (stays : old.Stays new) : old.Meant words where
  int32 id value inputs shows := meant.int32 id value inputs (stays _ _ _ shows)
  int64 id value inputs shows := meant.int64 id value inputs (stays _ _ _ shows)
  unary id fold value shows := meant.unary id fold value (stays _ _ _ shows)
  binary id fold left right shows := meant.binary id fold left right (stays _ _ _ shows)

structure Tabled (graph : Graph) : Prop where
  interned : graph.Interned
  size : 2 ≤ graph.size
  exit : ∀ node, graph.node? stop = some node → node.op.isConstant = false

theorem empty_tabled : empty.Tabled where
  interned _ _ found := by cases found
  size := le_rfl
  exit node read := by
    cases read
    rfl

theorem tabled_adds {made : List NodeId} (added : Adds old new made) (tabled : old.Tabled) : new.Tabled where
  interned := added.interned tabled.interned
  size := tabled.size.trans added.grown.size
  exit node read := by
    obtain ⟨former, before, op, _⟩ := extends_back added.grown read (Nat.one_lt_two.trans_le tabled.size)
    rw [op]
    exact tabled.exit former before

-- Nodes may change, but no constant becomes another node, and no other node a constant.
theorem tabled_kept (constants : new.constants = old.constants) (size : new.size = old.size)
    (each : ∀ id node, new.node? id = some node → ∃ former, old.node? id = some former ∧ former.dead = node.dead ∧
      (former.op = node.op ∨ former.op.isConstant = false ∧ node.op.isConstant = false)) (tabled : old.Tabled) : new.Tabled where
  interned value id found := by
    rw [constants] at found
    obtain ⟨inside, carries⟩ := tabled.interned value id found
    refine ⟨size ▸ inside, fun node live => ?_⟩
    obtain ⟨former, before, dead, same | ⟨plain, _⟩⟩ := each id node live.1
    · rw [← same]
      exact carries former ⟨before, dead.trans live.2⟩
    · rw [carries former ⟨before, dead.trans live.2⟩] at plain
      cases plain
  size := size ▸ tabled.size
  exit node read := by
    obtain ⟨former, before, _, same | ⟨_, plain⟩⟩ := each stop node read
    · rw [← same]
      exact tabled.exit former before
    · exact plain

theorem tabled_update {node changed : Node} (constants : new.constants = old.constants) (size : new.size = old.size)
    (read : old.node? id = some node) (nodes : ∀ other, new.node? other = if other = id then some changed else old.node? other)
    (dead : node.dead = changed.dead) (before : node.op.isConstant = false) (after : changed.op.isConstant = false)
    (tabled : old.Tabled) : new.Tabled := by
  refine tabled_kept constants size (fun other last there => ?_) tabled
  rw [nodes] at there
  split at there
  · rename_i same
    cases there
    exact ⟨node, same ▸ read, dead, .inr ⟨before, after⟩⟩
  · exact ⟨last, there, rfl, .inl rfl⟩

end Graph

namespace Assembly

open SeaOfNodes.Graph

theorem tabled_strokes : Strokes True fun a b => a.graph.Tabled → b.graph.Tabled where
  refl _ tabled := tabled
  trans _ _ _ first second tabled := second (first tabled)
  push a op inputs _ _ _ _ := tabled_adds (a.graph.adds_push _)
  constant a value := tabled_adds (a.graph.constant_adds value).1
  restyle a id change op inputs dead := by
    refine tabled_kept rfl (a.graph.size_modify id change) fun other node read => ?_
    rw [node_modify] at read
    split at read
    · rename_i same
      obtain ⟨former, there, rfl⟩ := Option.map_eq_some_iff.mp read
      exact ⟨former, same ▸ there, (dead former).symm, .inl (op former).symm⟩
    · exact ⟨node, read, rfl, .inl rfl⟩
  comment _ _ tabled := ⟨tabled.interned, tabled.size, tabled.exit⟩
  exit a terminator next made tabled := by
    obtain ⟨node, there, size, constants, nodes⟩ := a.graph.merge_to_end_nodes made
    exact tabled_update constants size there nodes rfl (tabled.exit node there) rfl tabled
  report a violation result b run tabled := by
    obtain ⟨_, done, rfl⟩ := runs_of_build.mp run
    exact Build.report_graph done ▸ tabled
  annotate a work graph _ _ _ tabled := graph ▸ tabled
  current _ _ tabled := tabled
  hooks _ _ _ tabled := tabled
  breakOn _ _ tabled := tabled
  generated _ _ tabled := tabled

theorem tabled_turns : Turns fun a b => a.graph.Tabled → b.graph.Tabled where
  join a op inputs _ _ := tabled_adds (a.graph.adds_push _)
  path a id input result b run := by
    obtain ⟨node, there, ⟨rfl, _⟩ | ⟨wide, next, lengthens, rfl, size, constants, nodes⟩⟩ := add_path_cases run
    · exact fun tabled => tabled
    · cases lengthens with
      | merge count more op kind same sum => exact tabled_update constants size there nodes rfl (by rw [same]; rfl) rfl
      | phi count more op kind same sum =>
        refine tabled_update constants size there nodes rfl ?_ ?_
        · rw [same]
          rcases kind with rfl | ⟨_, rfl⟩ <;> rfl
        · rcases kind with rfl | ⟨_, rfl⟩ <;> rfl
  labels _ _ tabled := tabled
  vars _ _ tabled := tabled

end Assembly

-- A state that an assembler can come to.
inductive Assembler.Reached : Assembler → Prop
  | start {descriptor : CallDescriptor} {config : AssemblerConfig} {journal : Journal} {a : Assembler}
      (run : Assembler.start descriptor config journal = .ok a) : Reached a
  | step {a b : Assembler} {command : Command} {outcome : Outcome} (before : Reached a) (run : command.run a = .ok outcome b) :
      Reached b
  | generate {a b : Assembler} {name : String} {flags : CodeFlags} {limit : Nat} {code : Except CompileError Listing}
      (before : Reached a) (run : Assembly.generate name flags limit a = .ok code b) : Reached b
  | aside {a b : Assembler} (before : Reached a) (same : b.graph = a.graph) : Reached b

namespace Assembly

variable {value : Int32}

open SeaOfNodes.Graph

theorem reached_tabled {a : Assembler} (reached : a.Reached) : a.graph.Tabled := by
  induction reached with
  | start run =>
    simp only [Assembler.start, withCapacity, bind_eq_ok, pure_eq_ok] at run
    obtain ⟨_, ⟨_, _, rfl⟩, made, added, rfl⟩ := run
    refine fold_m_holds (fun _ made => made.2.Tabled) empty_tabled (fun _ index made next _ tabled run => ?_) added
    obtain ⟨⟨id, graph⟩, pushed, same⟩ := bind_eq_ok.mp run
    cases same
    obtain ⟨_, _, same⟩ := (add_node_eq_ok _).mp pushed
    cases same
    exact tabled_adds (adds_push _ _) tabled
  | step _ run tabled =>
    exact Steers.command tabled_strokes (turns_steer tabled_strokes tabled_turns) (straight_call tabled_strokes.discipline trivial)
      _ _ _ _ run tabled
  | generate _ run tabled => exact straight_generate tabled_strokes.discipline [] _ _ _ _ _ _ run tabled
  | aside _ same tabled => exact same ▸ tabled

-- Ends with a node that means the given word.
def Folds (a : Assembler) (width : Width) (word : (NodeId → Int64) → Int64) (ending : EStateM.Result Fault Assembler NodeId) : Prop :=
  ∃ id b, ending = .ok id b ∧ a.graph.Stays b.graph ∧ b.graph.Tabled ∧
    ∀ words, b.graph.Meant words → width.read (words id) = word words

variable {a : Assembler} {width : Width} {word : (NodeId → Int64) → Int64}

theorem constant_returns (value : Constant) (tabled : a.graph.Tabled) : ∃ id b, constant value a = .ok id b ∧
    a.graph.Stays b.graph ∧ b.graph.Tabled ∧ ∃ inputs, b.graph.Shows id (.constant value) inputs := by
  obtain ⟨id, b, run⟩ : ∃ id b, constant value a = .ok id b := ⟨_, _, rfl⟩
  obtain ⟨t, done, rfl⟩ := runs_of_build.mp run
  obtain ⟨added, _, denotes⟩ := Build.constant_adds done
  obtain ⟨node, live, op⟩ := denotes tabled.interned
  refine ⟨id, _, run, ?_, tabled_adds added tabled, node.inputs, node, live.1, op, rfl⟩
  rintro other _ _ ⟨former, read, rfl, rfl⟩
  obtain ⟨type, there⟩ := added.grown.kept other former read
  exact ⟨_, there, rfl, rfl⟩

theorem add_returns (op : Operator) (inputs : List NodeId) (tabled : a.graph.Tabled) (fits : op.fits)
    (total : inputs.length = op.layout.total) (merge : op.isMerge = false) (phi : op.isPhi = false) :
    ∃ b, addNode op inputs a = .ok a.graph.size b ∧ a.graph.Stays b.graph ∧ b.graph.Tabled ∧
      b.graph.Shows a.graph.size op inputs := by
  obtain ⟨b, run, appends⟩ := add_node_returns inputs a fits total
  obtain ⟨node, there, is, reads, _⟩ := appends.fresh.node
  refine ⟨b, run, ?_, tabled_strokes.add_node inputs merge phi (.inr trivial) _ _ _ run tabled, node, there, is, reads⟩
  rintro id _ _ ⟨former, read, rfl, rfl⟩
  exact ⟨former, (appends.graph.kept id (a.graph.node_lt read)).trans read, rfl, rfl⟩

theorem folds_operand (tabled : a.graph.Tabled) {id : NodeId}
    (same : ∀ words, a.graph.Meant words → width.read (words id) = word words) :
    Folds a width word ((pure id : Assembly NodeId) a) :=
  ⟨id, a, rfl, a.graph.stays_refl, tabled, same⟩

theorem folds_int32 (tabled : a.graph.Tabled) (same : ∀ words, a.graph.Meant words → value.toInt64 = word words) :
    Folds a .half word (constant (.int32 value) a) := by
  obtain ⟨id, b, run, stays, later, inputs, shows⟩ := constant_returns (.int32 value) tabled
  refine ⟨id, b, run, stays, later, fun words meant => ?_⟩
  rw [meant.int32 id value inputs shows, ← same words (meant.before stays), Width.read, Int32.toInt32_toInt64]

theorem folds_int64 {value : Int64} (tabled : a.graph.Tabled)
    (same : ∀ words, a.graph.Meant words → value = word words) : Folds a .full word (constant (.int64 value) a) := by
  obtain ⟨id, b, run, stays, later, inputs, shows⟩ := constant_returns (.int64 value) tabled
  exact ⟨id, b, run, stays, later, fun words meant => (meant.int64 id value inputs shows).trans (same words (meant.before stays))⟩

theorem machine_returns (op : MachineOp) (inputs : List NodeId) (tabled : a.graph.Tabled) (counted : op.valueInputs = inputs.length)
    (fits : (Operator.machine op).fits) (total : inputs.length = (Operator.machine op).layout.total) :
    ∃ b, machine op inputs a = .ok a.graph.size b ∧ a.graph.Stays b.graph ∧ b.graph.Tabled ∧
      b.graph.Shows a.graph.size (.machine op) inputs := by
  rw [machine, counted, beq_self_eq_true]
  exact add_returns _ inputs tabled fits total rfl rfl

theorem folds_unary (tabled : a.graph.Tabled) (fold : UnaryFold) (value : NodeId) :
    Folds a fold.gives (fun words => fold.word (words value)) (machine fold.op [value] a) := by
  obtain ⟨b, run, stays, later, shows⟩ := machine_returns fold.op [value] tabled (by cases fold <;> rfl) (by cases fold <;> rfl)
    (by cases fold <;> rfl)
  refine ⟨_, b, run, stays, later, fun words meant => ?_⟩
  rw [meant.unary _ fold value shows, unary_fits]

theorem folds_binary (tabled : a.graph.Tabled) (fold : BinaryFold) (left right : NodeId) :
    Folds a fold.width (fun words => fold.word (words left) (words right)) (machine fold.op [left, right] a) := by
  obtain ⟨b, run, stays, later, shows⟩ := machine_returns fold.op [left, right] tabled (by cases fold <;> rfl)
    (by cases fold <;> rfl) (by cases fold <;> rfl)
  refine ⟨_, b, run, stays, later, fun words meant => ?_⟩
  rw [meant.binary _ fold left right shows, binary_fits]

theorem int32_meant (known : a.int32? id = some value) (meant : a.graph.Meant words) : words id = value.toInt64 := by
  obtain ⟨node, read, shown⟩ := Option.bind_eq_some_iff.mp known
  rw [Node.int32?] at shown
  split at shown
  · rename_i op
    cases shown
    exact meant.int32 id value node.inputs ⟨node, read, op, rfl⟩
  · cases shown

theorem int64_meant {value : Int64} (known : a.int64? id = some value) (meant : a.graph.Meant words) : words id = value := by
  obtain ⟨node, read, shown⟩ := Option.bind_eq_some_iff.mp known
  rw [Node.int64?] at shown
  split at shown
  · rename_i number op
    cases shown
    exact meant.int32 id number node.inputs ⟨node, read, op, rfl⟩
  · rename_i op
    cases shown
    exact meant.int64 id value node.inputs ⟨node, read, op, rfl⟩
  · cases shown

theorem unary_folds (tabled : a.graph.Tabled) (fold : UnaryFold) (value : NodeId) :
    Folds a fold.gives (fun words => fold.word (words value)) (fold.run value a) := by
  cases fold with
  | extend =>
    rw [UnaryFold.run, extend, bind_get]
    generalize known : a.int32? value = x?
    cases x? with
    | none => exact folds_unary tabled .extend value
    | some x =>
      refine folds_int64 tabled fun words meant => ?_
      rw [int32_meant known meant, UnaryFold.word, Int32.toInt32_toInt64]
  | truncate =>
    rw [UnaryFold.run, truncate, bind_get]
    generalize known : a.int64? value = x?
    cases x? with
    | none => exact folds_unary tabled .truncate value
    | some x =>
      refine folds_int32 tabled fun words meant => ?_
      rw [int64_meant known meant, UnaryFold.word]

theorem binary_folds (tabled : a.graph.Tabled) (fold : BinaryFold) (left right : NodeId) :
    Folds a fold.width (fun words => fold.word (words left) (words right)) (fold.run left right a) := by
  have first (zero : ∀ words, a.graph.Meant words → words right = 0) :
      Folds a fold.width (fun words => fold.word (words left) (words right)) ((pure left : Assembly NodeId) a) := by
    refine folds_operand tabled fun words meant => ?_
    rw [zero words meant, zero_neutral]
  have other := folds_binary tabled fold left right
  cases fold with
  | int32Add =>
    rw [BinaryFold.run, int32Add, bind_get, bind_get]
    generalize mine : a.int32? left = x?, theirs : a.int32? right = y?
    split
    next x y =>
      refine folds_int32 tabled fun words meant => ?_
      simp [BinaryFold.word, int32_meant mine meant, int32_meant theirs meant]
    next =>
      split
      next zero => exact first fun words meant => int32_meant (theirs.trans zero) meant
      next =>
        split
        next zero =>
          refine folds_operand tabled fun words meant => ?_
          simp [BinaryFold.word, BinaryFold.width, Width.read, int32_meant (mine.trans zero) meant]
        next => exact other
  | wordAdd =>
    rw [BinaryFold.run, wordAdd, bind_get, bind_get]
    generalize mine : a.int64? left = x?, theirs : a.int64? right = y?
    split
    next x y => exact folds_int64 tabled fun words meant => by rw [int64_meant mine meant, int64_meant theirs meant, BinaryFold.word]
    next =>
      split
      next zero => exact first fun words meant => int64_meant (theirs.trans zero) meant
      next =>
        split
        next zero =>
          refine folds_operand tabled fun words meant => ?_
          simp [BinaryFold.word, BinaryFold.width, Width.read, int64_meant (mine.trans zero) meant]
        next => exact other
  | wordSub =>
    rw [BinaryFold.run, wordSub, bind_get, bind_get]
    generalize mine : a.int64? left = x?, theirs : a.int64? right = y?
    split
    next x y => exact folds_int64 tabled fun words meant => by rw [int64_meant mine meant, int64_meant theirs meant, BinaryFold.word]
    next =>
      split
      next zero => exact first fun words meant => int64_meant (theirs.trans zero) meant
      next => exact other
  | shiftLeft | shiftRight =>
    dsimp only [BinaryFold.run, wordShiftLeft, wordShiftRight]
    rw [bind_get, bind_get]
    generalize mine : a.int64? left = x?, theirs : a.int32? right = y?
    split
    next x y => exact folds_int64 tabled fun words meant => by rw [int64_meant mine meant, int32_meant theirs meant]; rfl
    next =>
      split
      next zero => exact first fun words meant => int32_meant (theirs.trans zero) meant
      next => exact other

theorem emit_folds (tree : WordTree width) (tabled : a.graph.Tabled) :
    Folds a width (fun words => tree.word words) (tree.emit a) := by
  induction tree generalizing a with
  | leaf width id => exact folds_operand tabled fun _ _ => rfl
  | unary fold value ih =>
    obtain ⟨inner, b, run, stays, tabled, means⟩ := ih tabled
    obtain ⟨id, c, last, kept, tabled, folds⟩ := unary_folds tabled fold inner
    refine ⟨id, c, ?_, stays_trans stays kept, tabled, fun words meant => ?_⟩
    · rw [WordTree.emit, bind_of_ok _ a b inner run, last]
    · rw [folds words meant]
      exact (unary_read fold _).symm.trans (congrArg _ (means words (meant.before kept)))
  | binary fold takes left right before after =>
    obtain ⟨first, b, begun, stays, tabled, means⟩ := before tabled
    obtain ⟨second, c, run, kept, tabled, follows⟩ := after tabled
    obtain ⟨id, d, last, stayed, tabled, folds⟩ := binary_folds tabled fold first second
    refine ⟨id, d, ?_, stays_trans (stays_trans stays kept) stayed, tabled, fun words meant => ?_⟩
    · rw [WordTree.emit, bind_of_ok _ a b first begun, bind_of_ok _ b c second run, last]
    · have later := meant.before stayed
      rw [folds words meant]
      exact (binary_read takes _ _).symm.trans (congrArg₂ _ (means words (later.before kept)) (follows words later))

theorem shift_back {width wide : Nat} (double : wide = width + width) (value : BitVec width) :
    ((value.signExtend wide <<< width).sshiftRight width).signExtend width = value := by
  apply BitVec.eq_of_getLsbD_eq
  intro bit inside
  have upper : width + bit < wide := by omega
  have lower : ¬ wide ≤ bit := by omega
  simp only [BitVec.getLsbD_signExtend, BitVec.getLsbD_sshiftRight, BitVec.getLsbD_shiftLeft, inside, upper, lower]
  simp [Nat.lt_of_not_le lower, inside]

theorem small_payload (value : Int32) : ((value.toInt64 <<< (32 : Int64)) >>> (32 : Int64)).toInt32 = value := by
  apply Int32.toBitVec_inj.mp
  rw [Int64.toBitVec_toInt32, Int64.toBitVec_shiftRight, Int64.toBitVec_shiftLeft, Int32.toBitVec_toInt64]
  exact shift_back rfl value.toBitVec

theorem small_constant_read (tabled : a.graph.Tabled) (value : Int32) :
    ∃ id b, smallConstant value a = .ok id b ∧ b.small? id = some value := by
  obtain ⟨word, b, made, _, tabled, _, shows⟩ := constant_returns (.int64 (shiftLeft value.toInt64 Assembler.smallShift)) tabled
  obtain ⟨c, added, stays, _, node, there, op, inputs⟩ := add_returns (.machine .bitcastWordToTagged) [word] tabled rfl rfl rfl rfl
  obtain ⟨known, read, is, _⟩ := stays _ _ _ shows
  have retyped := c.graph.extends_retype b.graph.size (.ofNumber (.ofInt32 value))
  obtain ⟨_, last⟩ := retyped.kept _ node there
  obtain ⟨_, still⟩ := retyped.kept word known read
  refine ⟨b.graph.size, { c with graph := c.graph.modifyNode b.graph.size fun node =>
    { node with type := .ofNumber (.ofInt32 value) } }, ?_, ?_⟩
  · simp only [smallConstant, runs_bind, runs_pure]
    refine ⟨word, b, made, _, c, added, (), _, runs_of_build.mpr ⟨_, (Build.runs_change).mpr ⟨_, ?_, rfl⟩, rfl⟩, rfl, rfl⟩
    rw [setType, (c.graph.node_eq_ok _ node).mpr there]
    rfl
  · simp [Assembler.small?, Assembler.int64?, Node.int64?, last, still, op, inputs, is, shiftLeft, Assembler.smallShift, small_payload]

end Assembly

theorem folding_keeps_words (a : Assembler) (reached : a.Reached) :
    (∀ (width : Width) (tree : WordTree width), ∃ id b, tree.emit a = .ok id b ∧
      ∀ words, b.graph.Meant words → width.read (words id) = tree.word words) ∧
    ∀ value, ∃ id b, Assembly.smallConstant value a = .ok id b ∧ b.small? id = some value := by
  have tabled := Assembly.reached_tabled reached
  refine ⟨fun width tree => ?_, Assembly.small_constant_read tabled⟩
  obtain ⟨id, b, run, _, _, means⟩ := Assembly.emit_folds tree tabled
  exact ⟨id, b, run, means⟩

-- A parameter and a constant that is shifted by the parameter.
def parameterSum : WordTree .full :=
  .binary .wordAdd (.inr (.inr rfl)) (.leaf .full 2) (.binary .shiftLeft (.inl rfl) (.leaf .full 3) (.leaf .half 2))

theorem parameter_sum_folded : ∃ a outcome b, Assembler.start (.function 1 {}) {} { mode := .silent } = .ok a ∧
      (Command.constant (.int64 7)).run a = .ok outcome b ∧ ∃ id c, parameterSum.emit b = .ok id c ∧
        ∀ words, c.graph.Meant words → words id = words 2 + words 3 <<< (words 2).toInt32.toInt64 := by
  have begins : (Assembler.start (.function 1 {}) {} { mode := .silent }).toOption.isSome = true := by decide
  cases run : Assembler.start (.function 1 {}) {} { mode := .silent } with
  | error fault =>
    rw [run] at begins
    cases begins
  | ok a =>
    obtain ⟨outcome, b, next⟩ : ∃ outcome b, (Command.constant (.int64 7)).run a = .ok outcome b := ⟨_, _, rfl⟩
    exact ⟨a, outcome, b, rfl, next, (folding_keeps_words b (.step (.start run) next)).1 .full parameterSum⟩

end SeaOfNodes
