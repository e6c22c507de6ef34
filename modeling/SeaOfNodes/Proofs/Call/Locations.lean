import SeaOfNodes.Proofs.Call.Interning
import SeaOfNodes.Proofs.Graph.Nodes

/-! Where calls pass their parameters and results: registers are numbered with a byte and stack slots with a word. -/

namespace SeaOfNodes

open List

-- No two of the first `count` places are the same.
def Apart (count : Nat) (location : Nat → CallLocation) : Prop :=
  ∀ i j, i < count → j < count → i ≠ j → location i ≠ location j

def CallLocation.onStack : CallLocation → Bool
  | .register _ => false
  | .stackSlot _ => true

theorem registers_apart {i j : Nat} (low : i < 256) (high : j < 256) (apart : i ≠ j) :
    CallLocation.register (UInt8.ofNat i) ≠ .register (UInt8.ofNat j) := by
  intro same
  have numbers := congrArg UInt8.toNat (CallLocation.register.inj same)
  rw [UInt8.toNat_ofNat_of_lt' low, UInt8.toNat_ofNat_of_lt' high] at numbers
  exact apart numbers

theorem slots_apart {i j : Nat} (low : i < 2 ^ 32) (high : j < 2 ^ 32) (apart : i ≠ j) :
    CallLocation.stackSlot (UInt32.ofNat i) ≠ .stackSlot (UInt32.ofNat j) := by
  intro same
  have numbers := congrArg UInt32.toNat (CallLocation.stackSlot.inj same)
  rw [UInt32.toNat_ofNat_of_lt' low, UInt32.toNat_ofNat_of_lt' high] at numbers
  exact apart numbers

namespace CallDescriptor

variable (d : CallDescriptor)

theorem returns_apart_iff : Apart d.returnCount d.returnLocation ↔ d.returnCount ≤ 256 := by
  constructor
  · intro apart
    by_contra many
    exact apart 0 256 (by omega) (by omega) (by decide) rfl
  · exact fun few i j low high => registers_apart (by omega) (by omega)

theorem parameters_apart_iff : Apart d.parameterCount d.parameterLocation ↔
    min d.registerParameters.toNat d.parameterCount ≤ 256 ∧ d.stackParameterCount ≤ 2 ^ 32 := by
  constructor
  · refine fun apart => ⟨?_, ?_⟩ <;> by_contra many
    · -- Registers 0 and 256 have one number.
      refine apart 0 256 (by omega) (by omega) (by decide) ?_
      rw [parameterLocation, parameterLocation, if_pos (by omega), if_pos (by omega)]
      rfl
    · rw [stackParameterCount] at many
      refine apart d.registerParameters.toNat (d.registerParameters.toNat + 2 ^ 32) (by omega) (by omega)
        (ne_of_lt (Nat.lt_add_of_pos_right (by decide))) ?_
      rw [parameterLocation, parameterLocation, if_neg (by omega), if_neg (by omega), Nat.sub_self, Nat.add_sub_cancel_left]
      rfl
  · rintro ⟨registers, slots⟩ i j low high apart
    rw [stackParameterCount] at slots
    rw [parameterLocation, parameterLocation]
    split <;> split
    · exact registers_apart (by omega) (by omega) apart
    · rintro ⟨⟩
    · rintro ⟨⟩
    · exact slots_apart (by omega) (by omega) (by omega)

theorem stack_parameters_counted :
    (range d.parameterCount).countP (fun index => (d.parameterLocation index).onStack) = d.stackParameterCount := by
  have stack (index : Nat) : (d.parameterLocation index).onStack = decide (d.registerParameters.toNat ≤ index) := by
    rw [parameterLocation]
    split <;> simp [CallLocation.onStack] <;> omega
  rw [stackParameterCount]
  induction d.parameterCount with
  | zero => simp
  | succ count ih =>
    rw [range_succ, countP_append, ih, countP_singleton, stack]
    by_cases past : d.registerParameters.toNat ≤ count <;> simp [past] <;> omega

end CallDescriptor

namespace DescriptorRequest

def ParametersFit : DescriptorRequest → Prop
  | .given d => min d.registerParameters.toNat d.parameterCount ≤ 256 ∧ d.stackParameterCount ≤ 2 ^ 32
  | .runtime _ arguments _ _ | .function arguments _ => arguments.toNat + 3 ≤ 2 ^ 32
  | .stub interface _ _ _ _ => interface.registers.toNat ≤ 256
  | .builtin _ _ => True
  | .native _ parameters => parameters.length - min (parameters.length % 2 ^ 32) 6 ≤ 2 ^ 32

def ReturnsFit : DescriptorRequest → Prop
  | .given d => d.returnCount ≤ 256
  | .stub _ _ _ _ returns => returns ≤ 256
  | _ => True

end DescriptorRequest

theorem stub_counts {interface : StubInterface} {stack : UInt32} {flags : CallFlags} {properties : Properties} {returns : Nat}
    {d : CallDescriptor} (made : CallDescriptor.stub interface stack flags properties returns = .ok d) :
    d.registerParameters = interface.registers ∧ d.returnCount = returns ∧
      interface.registers.toNat ≤ d.parameterCount ∧ d.parameterCount < 2 ^ 32 := by
  simp only [CallDescriptor.stub, bind_eq_ok, pure_eq_ok, checkedAdd_eq_ok] at made
  obtain ⟨arguments, first, total, second, _, _, rfl⟩ := made
  have := total.toNat_lt
  simp only [CallDescriptor.parameterCount, CallDescriptor.returnCount, length_replicate, true_and]
  omega

-- Each factory by the counts that it is given.
theorem call_locations_apart_iff (request : DescriptorRequest) (d : CallDescriptor) (described : request.descriptor = .ok d) :
    (Apart d.parameterCount d.parameterLocation ↔ request.ParametersFit) ∧
      (List.range d.parameterCount).countP (fun index => (d.parameterLocation index).onStack) = d.stackParameterCount ∧
      (Apart d.returnCount d.returnLocation ↔ request.ReturnsFit) := by
  rw [d.parameters_apart_iff, d.returns_apart_iff]
  refine ⟨?_, d.stack_parameters_counted, ?_⟩
  · cases request with
    | given => cases described; rfl
    | stub interface =>
      obtain ⟨registers, _, least, most⟩ := stub_counts described
      rw [CallDescriptor.stackParameterCount, registers, DescriptorRequest.ParametersFit]
      omega
    | builtin code =>
      obtain ⟨registers, _, least, most⟩ := stub_counts described
      have few : code.interface.registers ≤ 3 := by cases code <;> rw [Builtin.interface] <;> decide
      have : _ ≤ 3 := UInt32.le_iff_toNat_le.mp few
      rw [CallDescriptor.stackParameterCount, registers]
      exact iff_of_true (by omega) trivial
    | runtime | function =>
      cases described
      simp [CallDescriptor.runtime, CallDescriptor.function, CallDescriptor.parameterCount, CallDescriptor.stackParameterCount,
        DescriptorRequest.ParametersFit]
    | native returns parameters =>
      cases described
      have registers : (min (UInt32.ofNat parameters.length) 6).toNat = min (parameters.length % 2 ^ 32) 6 := by
        show (if UInt32.ofNat parameters.length ≤ 6 then UInt32.ofNat parameters.length else 6).toNat = _
        simp only [UInt32.le_iff_toNat_le, UInt32.toNat_ofNat', min_def]
        split
        · rename_i few
          exact UInt32.toNat_ofNat'.trans (if_pos few).symm
        · rename_i many
          exact (if_neg many).symm
      show min (min (UInt32.ofNat parameters.length) 6).toNat parameters.length ≤ 256 ∧
        parameters.length - (min (UInt32.ofNat parameters.length) 6).toNat ≤ 2 ^ 32 ↔ _
      rw [registers, DescriptorRequest.ParametersFit]
      omega
  · cases request with
    | given => cases described; rfl
    | stub => rw [(stub_counts described).2.1, DescriptorRequest.ReturnsFit]
    | builtin => simp [(stub_counts described).2.1, DescriptorRequest.ReturnsFit]
    | runtime | function =>
      cases described
      exact iff_of_true (show 1 ≤ 256 by decide) trivial
    | native returns =>
      cases described
      cases returns <;> exact iff_of_true (show _ ≤ 256 from Nat.le_of_ble_eq_true rfl) trivial

theorem eight_arguments_apart : ∃ d, (DescriptorRequest.native none (List.replicate 8 .int64)).descriptor = .ok d ∧
    d.parameterCount = 8 ∧ Apart d.parameterCount d.parameterLocation := by
  obtain ⟨apart, _⟩ := call_locations_apart_iff (.native none (replicate 8 .int64)) _ rfl
  exact ⟨_, rfl, rfl, apart.mpr (by rw [DescriptorRequest.ParametersFit]; decide)⟩

-- A stub with 257 register parameters: the first and the last are in register 0.
theorem wide_stub_shares_register : ∃ d, (DescriptorRequest.stub ⟨"wide", 257, false⟩ 0 {} .none 1).descriptor = .ok d ∧
    d.parameterCount = 257 ∧ d.parameterLocation 0 = d.parameterLocation 256 :=
  ⟨_, rfl, length_replicate, rfl⟩

end SeaOfNodes
