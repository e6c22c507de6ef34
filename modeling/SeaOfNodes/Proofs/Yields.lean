import SeaOfNodes.Proofs.Runs

/-! Outcomes up to panics: a computation yields what it promises, or stops at an arithmetic or index fault. -/

namespace SeaOfNodes

def Fault.Panic (fault : Fault) : Prop := fault = .overflow ∨ fault = .assertion

section

variable {a b : UInt32} {α β : Type}

def Yields (outcome : Except Fault α) (good : α → Prop) : Prop :=
  match outcome with
  | .ok value => good value
  | .error fault => fault.Panic

theorem yields_pure {value : α} {good : α → Prop} (holds : good value) : Yields (pure value) good := holds

theorem yields_mono {outcome : Except Fault α} {some more : α → Prop} (yields : Yields outcome some)
    (weaker : ∀ value, some value → more value) : Yields outcome more := by
  cases outcome with
  | ok value => exact weaker value yields
  | error fault => exact yields

theorem yields_bind {first : Except Fault α} {next : α → Except Fault β} (middle : α → Prop) {good : β → Prop}
    (begins : Yields first middle) (goes : ∀ value, middle value → Yields (next value) good) :
    Yields (first >>= next) good := by
  cases first with
  | ok value => exact goes value begins
  | error fault => exact begins

-- What comes of a step is known by its equation.
theorem yields_then {first : Except Fault α} {next : α → Except Fault β} {good : β → Prop} (panics : Yields first fun _ => True)
    (goes : ∀ value, first = .ok value → Yields (next value) good) : Yields (first >>= next) good := by
  cases first with
  | ok value => exact goes value rfl
  | error fault => exact panics

theorem yields_ok {outcome : Except Fault α} (good : α → Prop) (value : α) (yields : Yields outcome good)
    (done : outcome = .ok value) : good value := by
  subst done
  exact yields

-- A success that is known in full only leaves the faults to look at.
theorem yields_known {outcome : Except Fault α} {weak good : α → Prop} (yields : Yields outcome weak)
    (known : ∀ value, outcome = .ok value → good value) : Yields outcome good := by
  cases outcome with
  | ok value => exact known value rfl
  | error fault => exact yields

theorem yields_ite {condition : Prop} [Decidable condition] {yes no : Except Fault α} {good : α → Prop}
    (holds : condition → Yields yes good) (fails : ¬ condition → Yields no good) :
    Yields (if condition then yes else no) good := by
  split
  · exact holds ‹_›
  · exact fails ‹_›

theorem yields_map {outcome : Except Fault α} {change : α → β} {good : β → Prop}
    (yields : Yields outcome fun value => good (change value)) : Yields (change <$> outcome) good := by
  cases outcome with
  | ok value => exact yields
  | error fault => exact yields

theorem yields_present {found : Option α} {good : α → Prop} (holds : ∀ value, found = some value → good value) :
    Yields (present found) good := by
  cases found with
  | none => exact .inr rfl
  | some value => exact holds value rfl

theorem yields_require {condition : Bool} {good : Unit → Prop} (holds : condition → good ()) :
    Yields (require condition) good := by
  cases condition with
  | false => exact .inr rfl
  | true => exact holds rfl

theorem yields_checked_add {good : UInt32 → Prop} (holds : ∀ sum : UInt32, sum.toNat = a.toNat + b.toNat → good sum) :
    Yields (checkedAdd a b) good := by
  cases outcome : checkedAdd a b with
  | ok sum => exact holds sum (checkedAdd_eq_ok.mp outcome)
  | error fault =>
    rw [checkedAdd] at outcome
    split at outcome <;> cases outcome
    exact .inl rfl

theorem yields_checked_sub {good : UInt32 → Prop} (holds : ∀ difference, good difference) : Yields (checkedSub a b) good := by
  rw [checkedSub]
  exact yields_ite (fun _ => holds _) fun _ => .inl rfl

theorem yields_checked_mul {good : UInt32 → Prop} (holds : ∀ product, good product) : Yields (checkedMul a b) good := by
  rw [checkedMul]
  exact yields_ite (fun _ => holds _) fun _ => .inl rfl

theorem yields_checked_layout {op : Operator} {good : InputLayout → Prop} (holds : op.fits → good op.layout) :
    Yields op.checkedLayout good := by
  rw [Operator.checkedLayout]
  exact yields_ite holds fun _ => .inl rfl

theorem yields_fold {items : List β} {step : α → β → Except Fault α} (holds : List β → α → Prop) {value : α}
    (begins : holds [] value)
    (steps : ∀ done item value, item ∈ items → holds done value → Yields (step value item) (holds (done ++ [item]))) :
    Yields (items.foldlM step value) (holds items) := by
  suffices general : ∀ rest done value, done ++ rest = items → holds done value → Yields (rest.foldlM step value) (holds items)
    from general items [] value rfl begins
  intro rest
  induction rest with
  | nil =>
    intro done value whole reached
    rw [List.append_nil] at whole
    exact whole ▸ reached
  | cons item rest ih =>
    intro done value whole reached
    rw [List.foldlM_cons]
    refine yields_bind (holds (done ++ [item])) (steps done item value (by simp [← whole]) reached) ?_
    intro next further
    exact ih (done ++ [item]) next (by simp [← whole]) further

theorem yields_map_m {items : List α} {step : α → Except Fault β} (good : β → Prop)
    (steps : ∀ item ∈ items, Yields (step item) good) :
    Yields (items.mapM step) fun results => ∀ result ∈ results, good result := by
  induction items with
  | nil => exact yields_pure (by simp)
  | cons item rest ih =>
    rw [List.mapM_cons]
    refine yields_bind _ (steps item List.mem_cons_self) fun first fine => ?_
    refine yields_bind _ (ih fun other member => steps other (List.mem_cons_of_mem item member)) fun further all => ?_
    exact yields_pure (List.forall_mem_cons.mpr ⟨fine, all⟩)

end

namespace Build

variable {s : Workspace} {α β : Type}

def Yields (work : Build α) (s : Workspace) (good : α → Workspace → Prop) : Prop :=
  match work s with
  | .ok value t => good value t
  | .error fault _ => fault.Panic

variable {good : α → Workspace → Prop}

theorem yields_pure {value : α} (holds : good value s) : Yields (pure value) s good := holds

theorem yields_mono {work : Build α} {some more : α → Workspace → Prop} (yields : Yields work s some)
    (weaker : ∀ value t, some value t → more value t) : Yields work s more := by
  unfold Yields at *
  split
  · rename_i value t done
    rw [done] at yields
    exact weaker value t yields
  · rename_i fault t failed
    rw [failed] at yields
    exact yields

theorem yields_bind {first : Build α} {next : α → Build β} (s : Workspace) (middle : α → Workspace → Prop)
    (good : β → Workspace → Prop) (begins : Yields first s middle)
    (goes : ∀ value t, middle value t → Yields (next value) t good) : Yields (first >>= next) s good := by
  have runs : (first >>= next) s = EStateM.bind first next s := rfl
  unfold Yields at begins ⊢
  rw [runs, EStateM.bind]
  cases outcome : first s with
  | ok value t =>
    rw [outcome] at begins
    exact goes value t begins
  | error fault t =>
    rw [outcome] at begins
    exact begins

theorem yields_ite (condition : Prop) [Decidable condition] (yes no : Build α) (s : Workspace) (good : α → Workspace → Prop)
    (holds : condition → Yields yes s good) (fails : ¬ condition → Yields no s good) :
    Yields (if condition then yes else no) s good := by
  split
  · exact holds ‹_›
  · exact fails ‹_›

theorem yields_get (s : Workspace) (good : Workspace → Workspace → Prop) (holds : good s s) : Yields get s good := holds

theorem yields_of_except {outcome : Except Fault α} (yields : SeaOfNodes.Yields outcome fun value => good value s) :
    Yields (ofExcept outcome) s good := by
  cases outcome with
  | ok value => exact yields
  | error fault => exact yields

theorem yields_query {read : Graph → Except Fault α} (yields : SeaOfNodes.Yields (read s.graph) fun value => good value s) :
    Yields (query read) s good :=
  yields_bind s _ good (yields_get s (fun value t => value = s ∧ t = s) ⟨rfl, rfl⟩) <| by
    rintro _ _ ⟨rfl, rfl⟩
    exact yields_of_except yields

-- What only reads leaves the workspace as it was.
theorem yields_get_then {next : Workspace → Build β} (s : Workspace) {good : β → Workspace → Prop} (goes : Yields (next s) s good) :
    Yields (get >>= next) s good := goes

theorem yields_except_then {outcome : Except Fault α} {next : α → Build β} (s : Workspace) {good : β → Workspace → Prop}
    (panics : SeaOfNodes.Yields outcome fun _ => True) (goes : ∀ value, outcome = .ok value → Yields (next value) s good) :
    Yields (ofExcept outcome >>= next) s good := by
  cases outcome with
  | ok value => exact goes value rfl
  | error fault => exact panics

theorem yields_query_then {read : Graph → Except Fault α} {next : α → Build β} {good : β → Workspace → Prop}
    (panics : SeaOfNodes.Yields (read s.graph) fun _ => True)
    (goes : ∀ value, read s.graph = .ok value → Yields (next value) s good) : Yields (query read >>= next) s good :=
  yields_except_then s panics goes

theorem yields_edit {change : Graph → Except Fault (α × Graph)}
    (yields : SeaOfNodes.Yields (change s.graph) fun made => good made.1 { s with graph := made.2 }) :
    Yields (edit change) s good := by
  refine yields_bind s (fun made t => good made.1 { s with graph := made.2 } ∧ t = s) good ?_ ?_
  · exact yields_query (SeaOfNodes.yields_mono yields fun made holds => ⟨holds, rfl⟩)
  · rintro ⟨value, graph⟩ _ ⟨holds, rfl⟩
    exact holds

theorem yields_change {change : Graph → Except Fault Graph} (s : Workspace) {good : Unit → Workspace → Prop}
    (yields : SeaOfNodes.Yields (change s.graph) fun graph => good () { s with graph := graph }) :
    Yields (Build.change change) s good :=
  yields_edit (SeaOfNodes.yields_map yields)

theorem yields_note {entry : LogEntry} (s : Workspace) {good : Unit → Workspace → Prop}
    (holds : good () { s with journal := s.journal.note entry }) : Yields (note entry) s good := holds

theorem runs_report (violation : Violation) (tolerant : s.journal.mode ≠ .validating) :
    ∃ journal : Journal, report violation s = .ok () { s with journal := journal } ∧ journal.mode = s.journal.mode := by
  have split : (s.journal.report violation).1 = none ∧ (s.journal.report violation).2.mode = s.journal.mode := by
    rw [Journal.report]
    cases mode : s.journal.mode with
    | validating => exact absurd mode tolerant
    | recording | silent => exact ⟨rfl, mode⟩
  refine ⟨(s.journal.report violation).2, ?_, split.2⟩
  simp only [report, bind, EStateM.bind, get, getThe, MonadStateOf.get, EStateM.get, modify, modifyGet,
    MonadStateOf.modifyGet, EStateM.modifyGet, split.1]
  rfl

def Gives (work : Build α) (s : Workspace) (good : α → Workspace → Prop) : Prop :=
  ∃ value t, work s = .ok value t ∧ good value t

theorem gives_bind {first : Build α} (next : α → Build β) {s : Workspace} (between : α → Workspace → Prop)
    (good : β → Workspace → Prop) (begins : Gives first s between)
    (goes : ∀ value t, between value t → Gives (next value) t good) : Gives (first >>= next) s good := by
  obtain ⟨value, t, here, holds⟩ := begins
  obtain ⟨result, u, there, last⟩ := goes value t holds
  exact ⟨result, u, runs_bind.mpr ⟨value, t, here, there⟩, last⟩

theorem gives_yields {work : Build α} (s : Workspace) (gives : Gives work s good) : Yields work s good := by
  obtain ⟨value, t, done, holds⟩ := gives
  rw [Yields, done]
  exact holds

theorem gives_after {first : Build α} {next : α → Build β} {t : Workspace} {value : α} {good : β → Workspace → Prop}
    (done : first s = .ok value t) (goes : Gives (next value) t good) : Gives (first >>= next) s good :=
  gives_bind next (fun found u => value = found ∧ t = u) good ⟨value, t, done, rfl, rfl⟩ (by
    rintro _ _ ⟨rfl, rfl⟩
    exact goes)

theorem query_done {read : Graph → Except Fault α} {value : α} (found : read s.graph = .ok value) : query read s = .ok value s :=
  runs_query.mpr ⟨found, rfl⟩

theorem of_except_done {outcome : Except Fault α} {value : α} (found : outcome = .ok value) : ofExcept outcome s = .ok value s :=
  runs_of_except.mpr ⟨found, rfl⟩

end Build

end SeaOfNodes
