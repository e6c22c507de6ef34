import SeaOfNodes.Proofs.Outcome

/-! Ids of call descriptors. -/

namespace SeaOfNodes

open List

inductive DescriptorRequest where
  | given (descriptor : CallDescriptor)
  | runtime (function : RuntimeFunction) (arguments : UInt32) (properties : Properties) (flags : CallFlags)
  | stub (interface : StubInterface) (stack : UInt32) (flags : CallFlags) (properties : Properties) (returns : Nat)
  | builtin (builtin : Builtin) (flags : CallFlags)
  | native (returns : Option MachineType) (parameters : List MachineType)
  | function (count : UInt32) (flags : CallFlags)
deriving DecidableEq, Repr

def DescriptorRequest.descriptor : DescriptorRequest → Except Fault CallDescriptor
  | .given descriptor => .ok descriptor
  | .runtime routine arguments properties flags => .ok (.runtime routine arguments properties flags)
  | .stub interface stack flags properties returns => CallDescriptor.stub interface stack flags properties returns
  | .builtin code flags => CallDescriptor.builtin code flags
  | .native returns parameters => .ok (.native returns parameters)
  | .function count flags => .ok (.function count flags)

namespace Registry

def Retains (registry later : Registry) : Prop :=
  ∀ id descriptor, registry.get? id = some descriptor → later.get? id = some descriptor

theorem retains_refl {registry : Registry} : registry.Retains registry := fun _ _ known => known

def answer (registry : Registry) (request : DescriptorRequest) : Except Fault DescriptorId × Registry :=
  match request.descriptor with
  | .ok descriptor => (.ok (registry.intern descriptor).1, (registry.intern descriptor).2)
  | .error fault => (.error fault, registry)

def after (registry : Registry) (requests : List DescriptorRequest) : Registry :=
  requests.foldl (fun registry request => (registry.answer request).2) registry

def answerAt (registry : Registry) (requests : List DescriptorRequest) (place : Nat) : Option (Except Fault DescriptorId) :=
  requests[place]?.map fun request => ((registry.after (requests.take place)).answer request).1

section

variable (registry : Registry) (descriptor : CallDescriptor)

theorem retains_intern : registry.Retains (registry.intern descriptor).2 := by
  intro id other known
  rw [intern]
  split
  · exact known
  · have inside : id < registry.descriptors.size := (Array.getElem?_eq_some_iff.mp known).1
    rw [get?, Array.getElem?_push, if_neg (inside.ne)]
    exact known

theorem intern_known : (registry.intern descriptor).2.get? (registry.intern descriptor).1 = some descriptor := by
  rw [intern]
  split
  · rename_i id found
    exact (registry.inverse descriptor id).mp found
  · simp [get?, size]

theorem intern_size (id : DescriptorId) :
    id < (registry.intern descriptor).2.size ↔ id < registry.size ∨ id = (registry.intern descriptor).1 := by
  rw [intern]
  split
  · rename_i found known
    have inside : found < registry.size := (Array.getElem?_eq_some_iff.mp ((registry.inverse descriptor found).mp known)).1
    constructor
    · exact .inl
    · rintro (old | rfl)
      · exact old
      · exact inside
  · simp only [size, Array.size_push]
    exact Nat.lt_succ_iff_lt_or_eq

end

-- A registry keeps a descriptor at one place only, since its index names one.
theorem get_unique (registry : Registry) (first second : DescriptorId) (descriptor : CallDescriptor)
    (here : registry.get? first = some descriptor) (there : registry.get? second = some descriptor) : first = second := by
  have one := (registry.inverse descriptor first).mpr here
  have two := (registry.inverse descriptor second).mpr there
  exact Option.some.inj (one.symm.trans two)

section

variable (registry : Registry)

theorem answer_described {request : DescriptorRequest} {descriptor : CallDescriptor} (described : request.descriptor = .ok descriptor) :
    registry.answer request = (.ok (registry.intern descriptor).1, (registry.intern descriptor).2) := by
  rw [answer, described]

theorem retains_answer (request : DescriptorRequest) : registry.Retains (registry.answer request).2 := by
  intro id descriptor known
  rw [answer]
  split
  · exact registry.retains_intern _ id descriptor known
  · exact known

theorem retains_after (requests : List DescriptorRequest) : registry.Retains (registry.after requests) := by
  induction requests generalizing registry with
  | nil => exact registry.retains_refl
  | cons request rest ih =>
    intro id descriptor known
    exact ih _ id descriptor (registry.retains_answer request id descriptor known)

theorem after_append (front back : List DescriptorRequest) :
    registry.after (front ++ back) = (registry.after front).after back := by
  rw [after, after, after, foldl_append]

theorem after_known {requests : List DescriptorRequest} {place later : Nat} {request : DescriptorRequest}
    {descriptor : CallDescriptor} (asked : requests[place]? = some request) (described : request.descriptor = .ok descriptor)
    (past : place < later) :
    ∃ id, registry.answerAt requests place = some (.ok id) ∧
      (registry.after (requests.take later)).get? id = some descriptor := by
  refine ⟨((registry.after (requests.take place)).intern descriptor).1, ?_, ?_⟩
  · rw [answerAt, asked, Option.map_some, answer_described _ described]
  -- The requests up to `later` are those before the place, the one there, and some more.
  obtain ⟨more, split⟩ : ∃ more, requests.take later = requests.take place ++ request :: more := by
    refine ⟨(requests.take later).drop (place + 1), ?_⟩
    have inside : place < (requests.take later).length := by
      have bound := (List.getElem?_eq_some_iff.mp asked).1
      rw [length_take]
      omega
    have here : (requests.take later)[place] = request := by
      have read := (List.getElem?_eq_some_iff.mp asked).2
      rw [getElem_take, read]
    have cut := take_append_drop place (requests.take later)
    rw [drop_eq_getElem_cons inside, here, take_take, Nat.min_eq_left (le_of_lt past)] at cut
    exact cut.symm
  have known := (registry.after (requests.take place)).intern_known descriptor
  rw [split, after_append]
  refine retains_after _ more _ descriptor ?_
  rwa [← congrArg Prod.snd (answer_described _ described)] at known

theorem answer_size (request : DescriptorRequest) (id : DescriptorId) :
    id < (registry.answer request).2.size ↔ id < registry.size ∨ (registry.answer request).1 = .ok id := by
  rw [answer]
  split
  · rw [intern_size, Except.ok.injEq]
    exact or_congr_right eq_comm
  · simp

theorem after_size (requests : List DescriptorRequest) (id : DescriptorId) : id < (registry.after requests).size ↔
      id < registry.size ∨ ∃ place, registry.answerAt requests place = some (.ok id) := by
  induction requests generalizing registry with
  | nil => simp [after, answerAt]
  | cons request rest ih =>
    -- The first request is answered by the registry itself, the others by what it leaves.
    have first : registry.answerAt (request :: rest) 0 = some (registry.answer request).1 := rfl
    have others : ∀ place, registry.answerAt (request :: rest) (place + 1) =
        (registry.answer request).2.answerAt rest place := fun _ => rfl
    have step : registry.after (request :: rest) = (registry.answer request).2.after rest := rfl
    rw [step, ih, answer_size, or_assoc]
    refine or_congr_right ?_
    constructor
    · rintro (here | ⟨place, there⟩)
      · exact ⟨0, by rw [first, here]⟩
      · exact ⟨place + 1, (others place).trans there⟩
    · rintro ⟨_ | place, there⟩
      · exact .inl (Option.some.inj (first.symm.trans there))
      · exact .inr ⟨place, (others place).symm.trans there⟩

end

end Registry

-- Requests to a new registry: a descriptor that can be described gets an id, which stands for it at every later point; two
-- answers agree just when the descriptors do; and the ids in use are those below the number of descriptors.
theorem descriptor_ids_faithful (base : UInt64) (requests : List DescriptorRequest) :
    let fresh : Registry := { entryBase := base }
    (∀ place request descriptor, requests[place]? = some request → request.descriptor = .ok descriptor →
      ∃ id, fresh.answerAt requests place = some (.ok id) ∧
        ∀ later, place < later → (fresh.after (requests.take later)).get id = .ok descriptor) ∧
    (∀ first second one two left right id other, requests[first]? = some one → requests[second]? = some two →
      one.descriptor = .ok left → two.descriptor = .ok right → fresh.answerAt requests first = some (.ok id) →
      fresh.answerAt requests second = some (.ok other) → (id = other ↔ left = right)) ∧
    ∀ id, (∃ place, fresh.answerAt requests place = some (.ok id)) ↔ id < (fresh.after requests).size := by
  intro fresh
  have final : ∀ place request descriptor id, requests[place]? = some request → request.descriptor = .ok descriptor →
      fresh.answerAt requests place = some (.ok id) → (fresh.after requests).get? id = some descriptor := by
    intro place request descriptor id asked described answered
    have past : place < requests.length := (List.getElem?_eq_some_iff.mp asked).1
    obtain ⟨same, again, known⟩ := fresh.after_known asked described past
    rw [answered] at again
    cases again
    rwa [take_length] at known
  refine ⟨?_, ?_, fun id => ?_⟩
  · intro place request descriptor asked described
    obtain ⟨id, answered, _⟩ := fresh.after_known asked described (Nat.lt_succ_self place)
    refine ⟨id, answered, fun later past => ?_⟩
    obtain ⟨same, again, known⟩ := fresh.after_known asked described past
    rw [answered] at again
    cases again
    exact present_eq_ok.mpr known
  · intro first second one two left right id other here there makesLeft makesRight idHere idThere
    have known := final first one left id here makesLeft idHere
    have more := final second two right other there makesRight idThere
    constructor
    · rintro rfl
      exact Option.some.inj (known.symm.trans more)
    · rintro rfl
      exact (fresh.after requests).get_unique id other left known more
  · have empty : ¬ id < fresh.size := Nat.not_lt_zero id
    rw [fresh.after_size, or_iff_right empty]

end SeaOfNodes
