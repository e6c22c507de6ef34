import SeaOfNodes.Assembler.Basic

/-! Variables and labels. -/

namespace SeaOfNodes.Assembly

def newVariable (name : Option String) (representation : Representation) : Assembly VariableId := do
  let count := (← get).vars.size
  let (id, vars) := (← get).vars.alloc
    { name := name.getD s!"var{count}", representation := representation }
  modify fun a => { a with vars := vars }
  return id

def variableInfo (id : VariableId) : Assembly VariableInfo := do ofExcept ((← get).vars.get id)

def setVariable (id : VariableId) (value : Option NodeId) : Assembly Unit :=
  modify fun a => { a with vars := a.vars.modify id fun info => { info with value := value } }

def variableValue (id : VariableId) : Assembly (Option NodeId) := do
  let info ← variableInfo id
  if info.value.isNone then report (.unboundVariable info.name)
  return info.value

def releaseVariable (id : VariableId) : Assembly Unit :=
  modify fun a =>
    { a with vars := a.vars.modify id fun info => { info with value := none, live := false } }

def newLabel (kind : LabelKind) (declared : List VariableId) : Assembly LabelId := do
  let count := (← get).labels.size
  let (id, labels) := (← get).labels.alloc { name := s!"L{count}", kind := kind, declared := declared }
  modify fun a => { a with labels := labels }
  return id

def labelInfo (id : LabelId) : Assembly LabelInfo := do ofExcept ((← get).labels.get id)

def setLabelState (id : LabelId) (state : LabelState) : Assembly Unit :=
  modify fun a => { a with labels := a.labels.modify id fun info => { info with state := state } }

def addPath (id input : NodeId) : Assembly Unit :=
  ofBuild do
    let op ← Build.query fun graph => graph.op id
    let grow (count : UInt32) : Build Unit := do
      match op.withArity? (← Build.ofExcept (checkedAdd count 1)) with
      | some op => Build.change fun graph => graph.changeOp id op
      | none => pure ()
    match op with
    | .control (.merge count) | .control (.loop count) =>
      Build.change fun graph => graph.appendInput id input
      grow count
    | .phi _ count | .effectPhi count =>
      Build.change fun graph => graph.insertInput id count.toNat input
      grow count
    | _ => pure ()

def loopNode? (binding : Binding) : Assembly (Option NodeId) := do
  match binding.merge with
  | none => return none
  | some merge =>
    match ← ofBuild (Build.query fun graph => graph.op merge) with
    | .control (.loop _) => return some merge
    | _ => return none

def mergeBack (label : LabelInfo) (binding : Binding) (id : VariableId) (info : VariableInfo) :
    Assembly Unit := do
  match binding.phis.lookup id, info.value with
  | some phi, some value => addPath phi value
  | some phi, none =>
    let layout ← ofBuild (Build.query fun graph => graph.layout phi)
    report (.incompleteMerge label.name info.name binding.paths layout.values)
  | none, some value =>
    if ← checks then
      if let some bound := binding.values.lookup id then
        if bound ≠ value then report (.unmergedVariable label.name info.name)
  | none, none => pure ()

def arrive (id : LabelId) (position : Position) : Assembly Unit := do
  let info ← labelInfo id
  let live := (← get).liveVariables
  match info.state with
  | .waiting arrivals =>
    let values := live.filterMap fun (id, info) => info.value.map (id, ·)
    setLabelState id (.waiting (arrivals ++ [⟨position, values⟩]))
  | .bound binding =>
    let binding := { binding with paths := binding.paths + 1 }
    setLabelState id (.bound binding)
    match ← loopNode? binding with
    | none => report (.boundLabelReentered info.name)
    | some loop =>
      addPath loop position.control
      if let some phi := binding.effectPhi then addPath phi position.effect
      live.forM fun (id, current) => mergeBack info binding id current

def differ (values : List NodeId) : Bool := (values.zip (values.drop 1)).any fun (a, b) => a != b

def mergeEffects (kind : LabelKind) (merge : Option NodeId) (effects : List NodeId) :
    Assembly (Option NodeId) := do
  match merge with
  | some merge =>
    if kind = .loop || differ effects then
      some <$> addNode (.effectPhi (UInt32.ofNat effects.length)) (effects ++ [merge])
    else return none
  | none => return none

def mergeVariable (label : LabelInfo) (arrivals : List Arrival) (control : NodeId) (binding : Binding)
    (entry : VariableId × VariableInfo) : Assembly Binding := do
  let (id, info) := entry
  let declared := id ∈ label.declared
  let values := arrivals.filterMap fun arrival => arrival.values.lookup id
  if values.length ≠ arrivals.length then
    if (declared || differ values) && (← checks) then
      report (.incompleteMerge label.name info.name arrivals.length values.length)
    setVariable id none
    return binding
  else if (label.kind = .loop && declared) || differ values then
    let phi ← addNode (.phi info.representation (UInt32.ofNat values.length)) (values ++ [control])
    setVariable id (some phi)
    return { binding with phis := binding.phis ++ [(id, phi)] }
  else
    setVariable id values.getLast?
    return { binding with values := binding.values ++ (values.getLast?.map (id, ·)).toList }

def bindArrivals (id : LabelId) (label : LabelInfo) (arrivals : List Arrival) : Assembly Unit := do
  let controls := arrivals.map fun arrival => arrival.position.control
  let effects := arrivals.map fun arrival => arrival.position.effect
  let count := UInt32.ofNat arrivals.length
  match arrivals with
  | [] =>
    setLabelState id (.bound { paths := 0 })
    setCurrent none
    (← get).liveVariables.forM fun (id, _) => setVariable id none
  | first :: rest =>
    let merge ←
      if label.kind = .loop then some <$> addNode (.control (.loop count)) controls
      else if rest.isEmpty then pure none
      else some <$> addNode (.control (.merge count)) controls
    let control := merge.getD first.position.control
    let effectPhi ← mergeEffects label.kind merge effects
    let binding ← (← get).liveVariables.foldlM (mergeVariable label arrivals control)
      { paths := arrivals.length, merge := merge, effectPhi := effectPhi }
    setLabelState id (.bound binding)
    setCurrent (some ⟨effectPhi.getD first.position.effect, control⟩)

def bind (id : LabelId) : Assembly Unit := do
  let info ← labelInfo id
  if info.isBound then report (.labelBoundTwice info.name)
  else
    if let some position := (← get).current then
      setCurrent none
      arrive id position
    match (← labelInfo id).state with
    | .waiting arrivals => bindArrivals id info arrivals
    | .bound _ => pure ()

def goto (id : LabelId) : Assembly Unit := do
  let position ← position "goto"
  setCurrent none
  arrive id position

def branch (condition : NodeId) (ifTrue ifFalse : LabelId) : Assembly Unit := do
  let position ← position "branch"
  setCurrent none
  let branch ← addNode (.control .branch) [condition, position.control]
  let yes ← addNode (.control .ifTrue) [branch]
  let no ← addNode (.control .ifFalse) [branch]
  arrive ifTrue ⟨position.effect, yes⟩
  arrive ifFalse ⟨position.effect, no⟩

def gotoIf (condition : NodeId) (id : LabelId) : Assembly Unit := do
  let next ← newLabel .plain []
  branch condition id next
  bind next

def gotoIfNot (condition : NodeId) (id : LabelId) : Assembly Unit := do
  let next ← newLabel .plain []
  branch condition next id
  bind next

def switch (index : NodeId) (default : LabelId) (cases : List (Int32 × LabelId)) : Assembly Unit := do
  let position ← position "switch"
  setCurrent none
  let ways ← ofExcept (checkedAdd (UInt32.ofNat cases.length) 1)
  let switch ← addNode (.control (.switch ways)) [index, position.control]
  cases.forM fun (value, id) => do
    let control ← addNode (.control (.ifValue value)) [switch]
    arrive id ⟨position.effect, control⟩
  let control ← addNode (.control .ifDefault) [switch]
  arrive default ⟨position.effect, control⟩

def gotoIfException (call : NodeId) (handler : LabelId) (exception : Option VariableId) : Assembly Unit := do
  let position ← position "goto_if_exception"
  match ← ofBuild (Build.query fun graph => graph.op call) with
  | .call _ => pure ()
  | _ => throw .assertion
  let success ← addNode (.control .ifSuccess) [call]
  let thrown ← addNode (.control .ifException) [call, call]
  match exception with
  | none => arrive handler ⟨thrown, thrown⟩
  | some id =>
    let previous := (← variableInfo id).value
    setVariable id (some thrown)
    arrive handler ⟨thrown, thrown⟩
    setVariable id previous
  setCurrent (some ⟨position.effect, success⟩)

def returnIf (condition value : NodeId) : Assembly Unit := do
  let returning ← newLabel .plain []
  let next ← newLabel .plain []
  branch condition returning next
  bind returning
  ret none [value]
  bind next

end SeaOfNodes.Assembly
