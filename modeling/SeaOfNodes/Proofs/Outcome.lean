import Mathlib
import SeaOfNodes.Schedule.Basic

namespace SeaOfNodes

open List

variable {ε α β : Type}

theorem bind_eq_ok {first : Except ε α} {next : α → Except ε β} {result : β} :
    first >>= next = .ok result ↔ ∃ value, first = .ok value ∧ next value = .ok result := by
  cases first with
  | error fault =>
    constructor
    · intro impossible
      cases impossible
    · rintro ⟨value, impossible, _⟩
      cases impossible
  | ok value =>
    constructor
    · intro done
      exact ⟨value, rfl, done⟩
    · rintro ⟨other, same, done⟩
      cases same
      exact done

theorem bind_eq_error {first : Except ε α} {next : α → Except ε β} {failure : ε} : first >>= next = .error failure ↔
      first = .error failure ∨ ∃ value, first = .ok value ∧ next value = .error failure := by
  cases first with
  | error other =>
    constructor
    · intro failed
      cases failed
      exact .inl rfl
    · rintro (failed | ⟨_, impossible, _⟩)
      · cases failed
        rfl
      · cases impossible
  | ok value =>
    constructor
    · intro failed
      exact .inr ⟨value, rfl, failed⟩
    · rintro (impossible | ⟨other, same, failed⟩)
      · cases impossible
      · cases same
        exact failed

theorem pure_eq_ok (value result : α) : (pure value : Except ε α) = .ok result ↔ value = result :=
  Except.ok.injEq value result ▸ Iff.rfl

theorem for_m_eq_ok {items : List α} {visit : α → Except ε Unit} {result : Unit} :
    items.forM visit = .ok result ↔ ∀ item ∈ items, visit item = .ok () := by
  induction items with
  | nil => simp [pure_eq_ok]
  | cons item rest ih =>
    have step : (item :: rest).forM visit = visit item >>= fun _ => rest.forM visit := rfl
    rw [step, bind_eq_ok]
    simp only [mem_cons, forall_eq_or_imp]
    constructor
    · rintro ⟨_, first, later⟩
      exact ⟨first, ih.mp later⟩
    · rintro ⟨first, later⟩
      exact ⟨(), first, ih.mpr later⟩

theorem for_m_eq_error {items : List α} {visit : α → Except ε Unit} {failure : ε} (failed : items.forM visit = .error failure) :
    ∃ item ∈ items, visit item = .error failure := by
  induction items with
  | nil => cases failed
  | cons item rest ih =>
    have step : (item :: rest).forM visit = visit item >>= fun _ => rest.forM visit := rfl
    rw [step, bind_eq_error] at failed
    rcases failed with here | ⟨_, _, later⟩
    · exact ⟨item, mem_cons_self, here⟩
    · obtain ⟨other, member, there⟩ := ih later
      exact ⟨other, mem_cons_of_mem item member, there⟩

theorem map_m_mem {items : List α} {step : α → Except ε β} {results : List β} (run : items.mapM step = .ok results) {result : β}
    (member : result ∈ results) : ∃ item ∈ items, step item = .ok result := by
  induction items generalizing results with
  | nil =>
    cases run
    cases member
  | cons item rest ih =>
    rw [mapM_cons] at run
    simp only [bind_eq_ok, pure_eq_ok] at run
    obtain ⟨first, here, others, later, rfl⟩ := run
    rcases mem_cons.mp member with rfl | inside
    · exact ⟨item, mem_cons_self, here⟩
    · obtain ⟨other, known, ran⟩ := ih later inside
      exact ⟨other, mem_cons_of_mem item known, ran⟩

theorem fold_m_holds {items : List β} {step : α → β → Except ε α} (holds : List β → α → Prop) {value result : α}
    (begins : holds [] value)
    (steps : ∀ done item value next, item ∈ items → holds done value → step value item = .ok next → holds (done ++ [item]) next)
    (run : items.foldlM step value = .ok result) : holds items result := by
  suffices general : ∀ rest done value, done ++ rest = items → holds done value → rest.foldlM step value = .ok result →
      holds items result from general items [] value rfl begins run
  intro rest
  induction rest with
  | nil =>
    intro done value whole reached ended
    cases ended
    rw [append_nil] at whole
    exact whole ▸ reached
  | cons item rest ih =>
    intro done value whole reached ended
    rw [foldlM_cons, bind_eq_ok] at ended
    obtain ⟨next, first, later⟩ := ended
    exact ih (done ++ [item]) next (by simp [← whole]) (steps done item value next (by simp [← whole]) reached first) later

theorem map_error_eq_ok {δ : Type} (outcome : Except ε α) (wrap : ε → δ) (value : α) :
    outcome.mapError wrap = .ok value ↔ outcome = .ok value := by
  cases outcome <;> simp [Except.mapError]

theorem ok_of_to_option (outcome : Except ε α) (value : α) (found : outcome.toOption = some value) : outcome = .ok value := by
  cases outcome with
  | error fault => cases found
  | ok other => exact congrArg Except.ok (Option.some.inj found)

theorem of_faulty_eq_ok (outcome : Except Fault α) (value : α) : Scheduling.ofFaulty outcome = .ok value ↔ outcome = .ok value :=
  map_error_eq_ok outcome Failure.fault value

theorem present_eq_ok {found : Option α} {value : α} : present found = .ok value ↔ found = some value := by
  cases found <;> simp [present]

end SeaOfNodes
