import SeaOfNodes.Assembler.Basic
import SeaOfNodes.Proofs.Outcome

namespace SeaOfNodes

section

variable {fault : Fault} {σ α β : Type} {next : α → EStateM Fault σ β}

theorem runs_bind {first : EStateM Fault σ α} {s t : σ} {result : β} :
    (first >>= next) s = .ok result t ↔ ∃ value middle, first s = .ok value middle ∧ next value middle = .ok result t := by
  change EStateM.bind first next s = .ok result t ↔ _
  rw [EStateM.bind]
  cases first s with
  | ok value middle =>
    constructor
    · intro done
      exact ⟨value, middle, rfl, done⟩
    · rintro ⟨other, after, same, done⟩
      cases same
      exact done
  | error fault middle =>
    constructor
    · intro impossible
      cases impossible
    · rintro ⟨other, after, impossible, _⟩
      cases impossible

theorem bind_of_ok {first : EStateM Fault σ α} (next : α → EStateM Fault σ β) (s t : σ) (value : α)
    (run : first s = .ok value t) : (first >>= next) s = next value t := by
  change EStateM.bind first next s = _
  rw [EStateM.bind, run]

theorem bind_get (next : σ → EStateM Fault σ β) (s : σ) : ((get : EStateM Fault σ σ) >>= next) s = next s s := rfl

theorem bind_of_error {first : EStateM Fault σ α} (next : α → EStateM Fault σ β) (s t : σ) {fault : Fault}
    (run : first s = .error fault t) : (first >>= next) s = .error fault t := by
  change EStateM.bind first next s = _
  rw [EStateM.bind, run]

-- Work that ends as foreseen: with the given fault, or else with a good result.
structure Foreseen (work : EStateM Fault σ α) (s : σ) (fault? : Option Fault) (good : α → σ → Prop) : Prop where
  fails : ∀ fault, fault? = some fault → ∃ t, work s = .error fault t
  returns : fault? = none → ∃ value t, work s = .ok value t ∧ good value t

section

variable {fault? : Option Fault} {work : EStateM Fault σ α} {s t : σ} {good : α → σ → Prop}

theorem foreseen_fails (run : work s = .error fault t) : Foreseen work s (some fault) good := by
  refine ⟨fun other same => ⟨t, by rw [run, Option.some.inj same]⟩, fun impossible => ?_⟩
  cases impossible

theorem foreseen_returns (value : α) (run : work s = .ok value t) (holds : good value t) : Foreseen work s none good := by
  refine ⟨fun fault impossible => ?_, fun _ => ⟨value, t, run, holds⟩⟩
  cases impossible

theorem foreseen_mono {better : α → σ → Prop} (ends : Foreseen work s fault? good)
    (weaker : ∀ value t, good value t → better value t) : Foreseen work s fault? better := by
  refine ⟨ends.fails, fun none => ?_⟩
  obtain ⟨value, t, run, holds⟩ := ends.returns none
  exact ⟨value, t, run, weaker value t holds⟩

theorem foreseen_after {best : β → σ → Prop} (work : EStateM Fault σ α) (value : α) (run : work s = .ok value t)
    (goes : Foreseen (next value) t fault? best) : Foreseen (work >>= next) s fault? best := by
  refine ⟨?_, ?_⟩
  · rw [bind_of_ok next s t value run]
    exact goes.fails
  · rw [bind_of_ok next s t value run]
    exact goes.returns

theorem foreseen_bind {later? : Option Fault} {best : β → σ → Prop} (ends : Foreseen work s fault? good)
    (goes : ∀ value t, good value t → Foreseen (next value) t later? best) :
    Foreseen (work >>= next) s (fault?.or later?) best := by
  cases fault? with
  | some fault =>
    obtain ⟨t, run⟩ := ends.fails fault rfl
    exact foreseen_fails (bind_of_error next s t run)
  | none =>
    obtain ⟨value, t, run, holds⟩ := ends.returns rfl
    rw [Option.none_or]
    exact foreseen_after work value run (goes value t holds)

theorem foreseen_pass {best : β → σ → Prop} (ends : Foreseen work s none good)
    (goes : ∀ value t, good value t → Foreseen (next value) t fault? best) : Foreseen (work >>= next) s fault? best := by
  obtain ⟨value, t, run, holds⟩ := ends.returns rfl
  exact foreseen_after work value run (goes value t holds)

theorem foreseen_last {best : β → σ → Prop} (ends : Foreseen work s fault? good)
    (goes : ∀ value t, good value t → ∃ result u, next value t = .ok result u ∧ best result u) :
    Foreseen (work >>= next) s fault? best := by
  rw [← Option.or_none (o := fault?)]
  refine foreseen_bind ends fun value t holds => ?_
  obtain ⟨result, u, run, final⟩ := goes value t holds
  exact foreseen_returns result run final

end

theorem runs_pure {value result : α} {s t : σ} : (pure value : EStateM Fault σ α) s = .ok result t ↔ value = result ∧ s = t := by
  change EStateM.Result.ok value s = .ok result t ↔ _
  rw [EStateM.Result.ok.injEq]

theorem runs_map {change : α → β} {work : EStateM Fault σ α} {s t : σ} {result : β} :
    (change <$> work) s = .ok result t ↔ ∃ value, work s = .ok value t ∧ change value = result := by
  change EStateM.map change work s = .ok result t ↔ _
  rw [EStateM.map]
  cases work s with
  | ok value after =>
    constructor
    · intro done
      cases done
      exact ⟨value, rfl, rfl⟩
    · rintro ⟨_, same, rfl⟩
      cases same
      rfl
  | error fault after => simp

theorem runs_get {result s t : σ} : (get : EStateM Fault σ σ) s = .ok result t ↔ s = result ∧ s = t :=
  runs_pure

theorem runs_modify {change : σ → σ} {result : PUnit} {s t : σ} :
    (modify change : EStateM Fault σ PUnit) s = .ok result t ↔ change s = t := by
  change EStateM.Result.ok PUnit.unit (change s) = .ok result t ↔ _
  rw [EStateM.Result.ok.injEq]
  simp

theorem runs_throw {result : α} {s t : σ} : (throw fault : EStateM Fault σ α) s = .ok result t ↔ False := by
  constructor
  · intro impossible
    cases impossible
  · exact False.elim

theorem runs_check (work : EStateM Fault σ α) (s : σ) (test : α → σ → Bool)
    (checks : (match work s with | .ok value t => test value t | .error .. => false) = true) :
    ∃ value t, work s = .ok value t ∧ test value t := by
  cases run : work s with
  | ok value t =>
    rw [run] at checks
    exact ⟨value, t, rfl, checks⟩
  | error fault t =>
    rw [run] at checks
    cases checks

def faultOf? : EStateM.Result Fault σ α → Option Fault
  | .ok .. => none
  | .error fault _ => some fault

theorem fault_of_eq_some (outcome : EStateM.Result Fault σ α) (fault : Fault) (failed : faultOf? outcome = some fault) :
    ∃ t, outcome = .error fault t := by
  cases outcome with
  | ok value t => cases failed
  | error other t =>
    cases failed
    exact ⟨t, rfl⟩

end

namespace Build

variable {α : Type}

theorem runs_of_except {outcome : Except Fault α} {result : α} {s t : Workspace} :
    ofExcept outcome s = .ok result t ↔ outcome = .ok result ∧ s = t := by
  cases outcome with
  | ok value => rw [ofExcept, runs_pure, Except.ok.injEq]
  | error fault => simp [ofExcept, runs_throw]

theorem runs_query {read : Graph → Except Fault α} {result : α} {s t : Workspace} :
    query read s = .ok result t ↔ read s.graph = .ok result ∧ s = t := by
  simp only [query, runs_bind, runs_get, runs_of_except]
  constructor
  · rintro ⟨_, _, ⟨rfl, rfl⟩, done⟩
    exact done
  · intro done
    exact ⟨s, s, ⟨rfl, rfl⟩, done⟩

theorem runs_edit {change : Graph → Except Fault (α × Graph)} {result : α} {s t : Workspace} :
    edit change s = .ok result t ↔ ∃ graph, change s.graph = .ok (result, graph) ∧ t = { s with graph := graph } := by
  simp only [edit, runs_bind, runs_query, runs_modify, runs_pure]
  constructor
  · rintro ⟨⟨value, graph⟩, _, ⟨done, rfl⟩, _, _, rfl, rfl, rfl⟩
    exact ⟨graph, done, rfl⟩
  · rintro ⟨graph, done, rfl⟩
    exact ⟨(result, graph), s, ⟨done, rfl⟩, (), _, rfl, rfl, rfl⟩

theorem runs_change {change : Graph → Except Fault Graph} {result : Unit} {s t : Workspace} :
    Build.change change s = .ok result t ↔ ∃ graph, change s.graph = .ok graph ∧ t = { s with graph := graph } := by
  rw [Build.change, runs_edit]
  cases change s.graph with
  | ok graph | error fault => simp [Functor.map, Except.map]

theorem runs_note {entry : LogEntry} {result : Unit} {s t : Workspace} :
    note entry s = .ok result t ↔ t = { s with journal := s.journal.note entry } := by
  rw [note, runs_modify, eq_comm]

theorem report_runs {violation : Violation} {result : Unit} {s t : Workspace} (run : report violation s = .ok result t) :
    s.journal.mode ≠ .validating ∧ t = { s with journal := (s.journal.report violation).2 } := by
  simp only [report, runs_bind, runs_get, runs_modify] at run
  obtain ⟨_, _, ⟨rfl, rfl⟩, _, _, rfl, rest⟩ := run
  rw [Journal.report] at rest ⊢
  cases mode : s.journal.mode with
  | validating =>
    rw [mode] at rest
    cases rest
  | recording | silent =>
    rw [mode] at rest
    exact ⟨by simp, (runs_pure.mp rest).2.symm⟩

theorem runs_step {ε α β : Type} {first : ExceptT ε Build α} {next : α → ExceptT ε Build β} {result : β} {s t : Workspace}
    (run : (first >>= next).run s = .ok (.ok result) t) :
    ∃ value u, first.run s = .ok (.ok value) u ∧ (next value).run u = .ok (.ok result) t := by
  rw [ExceptT.run_bind] at run
  obtain ⟨outcome, u, here, later⟩ := runs_bind.mp run
  cases outcome with
  | ok value => exact ⟨value, u, here, later⟩
  | error failure => cases later

end Build

namespace Assembly

variable {a b : Assembler} {α : Type}

theorem runs_of_except {outcome : Except Fault α} {result : α} :
    ofExcept outcome a = .ok result b ↔ outcome = .ok result ∧ a = b := by
  cases outcome with
  | ok value => rw [ofExcept, runs_pure, Except.ok.injEq]
  | error fault => simp [ofExcept, runs_throw]

theorem runs_of_build {work : Build α} {result : α} :
    ofBuild work a = .ok result b ↔ ∃ t, work a.toWorkspace = .ok result t ∧ b = { a with toWorkspace := t } := by
  rw [ofBuild]
  cases work a.toWorkspace with
  | ok value t =>
    constructor
    · intro done
      cases done
      exact ⟨t, rfl, rfl⟩
    · rintro ⟨_, same, rfl⟩
      cases same
      rfl
  | error fault t =>
    constructor
    · intro impossible
      cases impossible
    · rintro ⟨_, impossible, _⟩
      cases impossible

end Assembly

end SeaOfNodes
