import SeaOfNodes.Proofs.Code.Targets

/-! Comments only add lines: they change neither the outcome of a listing nor its instructions. -/

namespace SeaOfNodes

open List

def ListingBlock.withoutComments (block : ListingBlock) : ListingBlock :=
  { block with lines := block.lines.filter Line.isInstruction }

def Listing.withoutComments (listing : Listing) : Listing :=
  { listing with flags.comments := false, blocks := listing.blocks.map ListingBlock.withoutComments }

namespace Listing

variable {graph : Graph} {schedule : Schedule} {flags : CodeFlags} {name : String} {limit count : Nat}

theorem of_block_uncommented (block : Block) : ofBlock graph schedule { flags with comments := false } block count =
    (ofBlock graph schedule { flags with comments := true } block count).map fun made => (made.1.withoutComments, made.2) := by
  unfold ofBlock
  cases block.nodes.mapM (nodeLine graph schedule) with
  | error failure => rfl
  | ok lines =>
    show Except.ok _ = Except.ok _
    rw [push_all, push_all]
    simp [ListingBlock.withoutComments]

theorem of_blocks_uncommented (blocks : List Block) :
    ofBlocks graph schedule { flags with comments := false } name limit blocks count =
      (ofBlocks graph schedule { flags with comments := true } name limit blocks count).map fun made =>
        (made.1.map ListingBlock.withoutComments, made.2) := by
  induction blocks generalizing count with
  | nil => rfl
  | cons block rest ih =>
    rw [ofBlocks, ofBlocks, of_block_uncommented]
    cases ofBlock graph schedule { flags with comments := true } block count with
    | error failure => rfl
    | ok first =>
      simp only [Except.map, bind, Except.bind]
      split
      · rfl
      · rw [ih]
        cases ofBlocks graph schedule { flags with comments := true } name limit rest first.2 <;> rfl

theorem of_block_counts {block : Block} {listed : ListingBlock} {total : Nat}
    (run : ofBlock graph schedule flags block count = .ok (listed, total)) :
    total = count + listed.lines.countP Line.isInstruction := by
  rw [ofBlock, bind_eq_ok] at run
  obtain ⟨founds, _, same⟩ := run
  cases same
  rw [push_all, nil_append, countP_filter]
  refine congrArg _ (countP_congr fun line _ => ?_)
  cases line.isInstruction <;> simp

theorem of_blocks_count {blocks : List Block} {listed : List ListingBlock} {total : Nat}
    (run : ofBlocks graph schedule flags name limit blocks count = .ok (listed, total)) (within : count ≤ limit) :
    total = count + (listed.flatMap ListingBlock.lines).countP Line.isInstruction ∧ total ≤ limit := by
  induction blocks generalizing count listed with
  | nil =>
    cases run
    exact ⟨rfl, within⟩
  | cons block rest ih =>
    rw [ofBlocks, bind_eq_ok] at run
    obtain ⟨⟨first, next⟩, here, run⟩ := run
    dsimp only at run
    split at run
    · cases run
    · rename_i small
      obtain ⟨⟨further, all⟩, more, same⟩ := bind_eq_ok.mp run
      cases same
      obtain ⟨sum, bound⟩ := ih more (not_lt.mp small)
      refine ⟨?_, bound⟩
      rw [sum, of_block_counts here, flatMap_cons, countP_append, add_assoc]

end Listing

theorem comments_only_add_lines (graph : Graph) (schedule : Schedule) (descriptor : CallDescriptor) (name : String)
    (flags : CodeFlags) (limit : Nat) :
    Listing.ofSchedule graph schedule descriptor name { flags with comments := false } limit =
        (Listing.ofSchedule graph schedule descriptor name { flags with comments := true } limit).map Listing.withoutComments ∧
      ∀ listing, Listing.ofSchedule graph schedule descriptor name flags limit = .ok listing →
        listing.instructionCount = (listing.blocks.flatMap ListingBlock.lines).countP Line.isInstruction ∧
          listing.instructionCount ≤ limit := by
  constructor
  · rw [Listing.ofSchedule, Listing.ofSchedule, Listing.of_blocks_uncommented]
    cases Listing.ofBlocks graph schedule { flags with comments := true } name limit (schedule.ordered.map (·.2)) 0 <;> rfl
  · intro listing run
    obtain ⟨⟨blocks, count⟩, made, same⟩ := bind_eq_ok.mp run
    cases same
    obtain ⟨sum, bound⟩ := Listing.of_blocks_count made (Nat.zero_le limit)
    exact ⟨sum.trans (zero_add _), bound⟩

end SeaOfNodes
