import SeaOfNodes.Proofs.Creation.Unfolding

/-! Copying a boilerplate that has passed its check builds the tree that the boilerplate unfolds to. -/

namespace SeaOfNodes

open List

variable {operand : Operand} {word : Word} {words : List Word} {operands : List Operand} {trees : List Tree} {tree : Tree}
  {access : ElementAccess} {map : MapInfo}

structure Contents.Grows (before after : Contents) : Prop where
  objects : before.objects <+: after.objects
  values : before.values <+: after.values

theorem grows_refl_contents (contents : Contents) : contents.Grows contents := ⟨prefix_rfl, prefix_rfl⟩

variable {before middle after : Contents}

theorem contents_grows_trans (first : before.Grows middle) (second : middle.Grows after) : before.Grows after :=
  ⟨first.objects.trans second.objects, first.values.trans second.values⟩

theorem word_grows {old new : List Word} (grown : old <+: new) (known : operand.word? old = some word) :
    operand.word? new = some word := by
  cases operand with
  | node id => cases known
  | constant value => exact known
  | made action =>
    have inside := (List.getElem?_eq_some_iff.mp known).1
    obtain ⟨more, rfl⟩ := grown
    exact (getElem?_append_left inside).trans known

namespace CreationContext.Draft

variable {α β : Type} {limit : UInt32}

def Delivers (limit : UInt32) (work : Draft α) (before : Contents) (post : Contents → α → Prop) : Prop :=
  ∀ actions : Array Action, Makes limit {} actions.toList before →
    ∃ value later after, work.run actions = .ok (value, later) ∧ Makes limit {} later.toList after ∧ before.Grows after ∧
      post after value

variable {before : Contents}

theorem delivers_pure (value : α) {post : Contents → α → Prop} (holds : post before value) :
    Delivers limit (pure value) before post := by
  intro actions made
  exact ⟨value, actions, before, rfl, made, grows_refl_contents before, holds⟩

theorem delivers_bind {first : Draft α} {next : α → Draft β} {between : Contents → α → Prop} {post : Contents → β → Prop}
    (begins : Delivers limit first before between)
    (goes : ∀ middle value, before.Grows middle → between middle value → Delivers limit (next value) middle post) :
    Delivers limit (first >>= next) before post := by
  intro actions made
  obtain ⟨value, later, middle, here, drafted, grown, holds⟩ := begins actions made
  obtain ⟨result, final, after, there, done, further, ends⟩ := goes middle value grown holds later drafted
  refine ⟨result, final, after, ?_, done, contents_grows_trans grown further, ends⟩
  rw [StateT.run_bind, here]
  exact there

theorem delivers_mono {work : Draft α} {post weaker : Contents → α → Prop} (delivers : Delivers limit work before post)
    (weaken : ∀ after value, before.Grows after → post after value → weaker after value) : Delivers limit work before weaker := by
  intro actions made
  obtain ⟨value, later, after, run, done, grown, holds⟩ := delivers actions made
  exact ⟨value, later, after, run, done, grown, weaken after value grown holds⟩

theorem delivers_of_option {reason : LiteralDecline} {found : Option α} {value : α} (there : found = some value) :
    Delivers limit (ofOption reason found) before fun after result => value = result ∧ before = after := by
  subst there
  exact delivers_pure value ⟨rfl, rfl⟩

theorem delivers_of_faulty {outcome : Except Fault α} {value : α} (fine : outcome = .ok value) :
    Delivers limit (ofFaulty outcome) before fun after result => value = result ∧ before = after := by
  subst fine
  exact delivers_pure value ⟨rfl, rfl⟩

theorem delivers_prepare (value : Constant) :
    Delivers limit (prepare value) before fun after operand => operand = .constant value ∧ after.objects = before.objects := by
  intro actions made
  refine ⟨_, _, { before with values := before.values ++ [.constant value] }, rfl, ?_, ?_, rfl, rfl⟩
  · rw [Array.toList_push]
    exact makes_append made ⟨_, rfl, rfl⟩
  · exact ⟨prefix_rfl, prefix_append _ _⟩

theorem delivers_region {region : Region} (small : region.size ≤ limit) (lays : region.Lays before.values words) :
    Delivers limit (add (.region region)) before fun after operand =>
      operand.word? after.values = some (.address before.objects.length) ∧ after.objects = before.objects ++ [words.map some] := by
  intro actions made
  refine ⟨.made actions.size, actions.push (.region region), { objects := before.objects ++ [words.map some]
                                                               values := before.values ++ [.address before.objects.length] },
    rfl, ?_, ?_, ?_, rfl⟩
  · rw [Array.toList_push]
    exact makes_append made ⟨_, ⟨small, words, lays, rfl⟩, rfl⟩
  · exact ⟨prefix_append _ _, prefix_append _ _⟩
  · have counted := makes_length made
    have size : actions.size = before.values.length := by simpa using counted.symm
    rw [Operand.word?, size, getElem?_concat_length]

-- The invariant may speak of the items that are done.
theorem delivers_fold {step : α → β → Draft α} (holds : List β → Contents → α → Prop) (done items : List β) (value : α)
    (steps : ∀ early item late, done ++ items = early ++ item :: late → ∀ before value, holds early before value →
      Delivers limit (step value item) before (holds (early ++ [item])))
    (start : holds done before value) : Delivers limit (items.foldlM step value) before (holds (done ++ items)) := by
  induction items generalizing done value before with
  | nil =>
    rw [append_nil]
    exact delivers_pure value start
  | cons item rest ih =>
    rw [foldlM_cons]
    refine delivers_bind (steps done item rest rfl before value start) fun middle next _ held => ?_
    have split : done ++ item :: rest = done ++ [item] ++ rest := by simp
    rw [split] at steps ⊢
    exact ih (done ++ [item]) next steps held

end CreationContext.Draft

def Copied (before after : Contents) (operand : Operand) (tree : Tree) : Prop :=
  ∃ word visited, operand.word? after.values = some word ∧ Stands after.objects tree word visited ∧ visited.Nodup ∧
    ∀ address ∈ visited, before.objects.length ≤ address ∧ address < after.objects.length

def CopiedAll (before after : Contents) (operands : List Operand) (trees : List Tree) : Prop :=
  ∃ words visited, List.Forall₂ (fun operand word => operand.word? after.values = some word) operands words ∧
    StandAll after.objects trees words visited ∧ visited.Nodup ∧
    ∀ address ∈ visited, before.objects.length ≤ address ∧ address < after.objects.length

theorem copied_constant (before after : Contents) (value : Constant) : Copied before after (.constant value) (.constant value) :=
  ⟨_, [], rfl, .constant value, .nil, by simp⟩

theorem copied_all_since (early : before.Grows middle) (copied : CopiedAll middle after operands trees) :
    CopiedAll before after operands trees := by
  obtain ⟨words, visited, known, stand, once, inside⟩ := copied
  exact ⟨words, visited, known, stand, once, fun address member =>
    ⟨le_trans early.objects.length_le (inside address member).1, (inside address member).2⟩⟩

theorem copied_all_cons (early : before.Grows middle) (late : middle.Grows after) (first : Copied before middle operand tree)
    (rest : CopiedAll middle after operands trees) : CopiedAll before after (operand :: operands) (tree :: trees) := by
  obtain ⟨word, visited, known, stands, once, inside⟩ := first
  obtain ⟨words, further, all, stand, apart, later⟩ := rest
  have longer := late.objects.length_le
  have shorter := early.objects.length_le
  refine ⟨word :: words, visited ++ further, .cons (word_grows late.values known) all,
    .cons _ _ _ _ _ _ (stands_grow late.objects stands) stand, ?_, ?_⟩
  · -- What was built first lies below what was built later.
    refine nodup_append.mpr ⟨once, apart, fun address member other listed => ?_⟩
    have below := (inside address member).2
    have above := (later other listed).1
    omega
  · refine forall_mem_append.mpr ⟨fun address member => ?_, fun address member => ?_⟩
    · have here := inside address member
      omega
    · have here := later address member
      omega

theorem stand_all_length {objects : List (List (Option Word))} {visited : List Nat} (stand : StandAll objects trees words visited) :
    words.length = trees.length := by
  induction trees generalizing words visited with
  | nil =>
    cases stand
    rfl
  | cons tree trees ih =>
    cases stand with
    | cons _ _ word words _ rest _ there => exact congrArg Nat.succ (ih there)

theorem copied_all_length (copied : CopiedAll before after operands trees) : operands.length = trees.length := by
  obtain ⟨words, visited, known, stand, _⟩ := copied
  exact known.length_eq.trans (stand_all_length stand)

theorem copied_object (visited : List Nat) (early : before.Grows middle) (stand : StandAll middle.objects trees words visited)
    (once : visited.Nodup) (inside : ∀ address ∈ visited, before.objects.length ≤ address ∧ address < middle.objects.length)
    (known : operand.word? after.values = some (.address middle.objects.length))
    (built : after.objects = middle.objects ++ [words.map some]) : Copied before after operand (.object trees) := by
  have grown : middle.objects <+: after.objects := built ▸ prefix_append _ _
  have total : after.objects.length = middle.objects.length + 1 := by rw [built, length_append, length_singleton]
  have shorter := early.objects.length_le
  refine ⟨_, middle.objects.length :: visited, known, .object _ trees words visited ?_ (stand_all_grow grown stand), ?_, ?_⟩
  · rw [built, getElem?_concat_length]
  · exact nodup_cons.mpr ⟨fun member => lt_irrefl _ (inside _ member).2, once⟩
  · refine forall_mem_cons.mpr ⟨by omega, fun address member => ?_⟩
    have here := inside address member
    omega

def Prepared (limit : UInt32) (before after : Contents) (region : Region) (trees : List Tree) : Prop :=
  region.size ≤ limit ∧ ∃ words visited, region.Lays after.values words ∧ StandAll after.objects trees words visited ∧
    visited.Nodup ∧ ∀ address ∈ visited, before.objects.length ≤ address ∧ address < after.objects.length

section

variable {values : List Word}

theorem lay_append {first second : List Store} (words further : List Word) (place : Nat) (begins : Store.Lay values place first words)
    (goes : Store.Lay values (place + words.length) second further) :
    Store.Lay values place (first ++ second) (words ++ further) := by
  induction first generalizing place words with
  | nil =>
    cases words with
    | nil => exact goes
    | cons word rest => exact begins.elim
  | cons store rest ih =>
    cases words with
    | nil => exact begins.elim
    | cons word words =>
      refine ⟨begins.1, ih words (place + 1) begins.2 ?_⟩
      rw [length_cons, add_comm words.length 1, ← add_assoc] at goes
      exact goes

theorem elements_lay (fine : ∀ index value, (Store.element access index value).Regular ∧ access.header = 16) (start : Nat)
    (small : start + operands.length < UInt32.size)
    (known : Forall₂ (fun operand word => operand.word? values = some word) operands words) :
    Store.Lay values (2 + start) ((operands.zipIdx start).map fun (operand, index) => .element access (UInt32.ofNat index) operand)
      words := by
  induction known generalizing start with
  | nil => trivial
  | @cons operand word operands words first _ ih =>
    rw [length_cons] at small
    refine ⟨⟨Store.regular_wide _ (fine _ operand).1, ?_, first⟩, ih (start + 1) (by omega)⟩
    rw [Store.offset?, (fine 0 operand).2, UInt32.toNat_ofNat_of_lt' (show start < UInt32.size by omega)]
    exact congrArg some (by change 16 + 8 * start = 8 * (2 + start); omega)

theorem in_object_lay {header : Nat} (shaped : map.Fits (8 * header)) (value : UInt32 → Operand)
    {slots : Nat} (index : UInt32) (inside : index.toNat + slots = map.inObjectProperties.toNat)
    (known : Forall₂ (fun index word => (value index).word? values = some word)
      ((range' index.toNat slots).map UInt32.ofNat) words) :
    Store.Lay values (header + index.toNat) (Region.inObject map value slots index) words := by
  induction slots generalizing index words with
  | zero =>
    cases known
    trivial
  | succ slots ih =>
    have next := index_succ (show index.toNat < map.inObjectProperties.toNat by omega)
    obtain ⟨access, found, offset, regular⟩ := in_object_access shaped (show index.toNat < _ by omega)
    rw [range'_succ, map_cons] at known
    cases known with
    | cons first rest =>
      rw [UInt32.ofNat_toNat] at first
      rw [Region.inObject, found]
      refine ⟨⟨Store.regular_wide _ (regular _), congrArg some (by omega), first⟩, ?_⟩
      rw [add_assoc, ← next]
      rw [← next] at rest
      exact ih (index + 1) (by omega) rest

theorem array_lays {c : CreationContext} (fine : ∀ index value, (Store.element access index value).Regular ∧ access.header = 16)
    (map : ObjectRef) (generation : Generation) (fits : c.fitsElements operands.length)
    (known : Forall₂ (fun operand word => operand.word? values = some word) operands words) :
    ∃ region, Region.fixedArray (UInt32.ofNat operands.length) map generation
        (operands.zipIdx.map fun (operand, index) => .element access (UInt32.ofNat index) operand) = .ok region ∧
      region.size ≤ c.config.maxObjectSize ∧
      region.Lays values (.constant (.heap map) :: .constant (.number (.ofInt operands.length)) :: words) := by
  obtain ⟨small, size, measured, total, fits⟩ := c.fits_elements_size fits
  have bound : size.toNat < 2 ^ 32 := size.toNat_lt_size
  have length : (UInt32.ofNat operands.length).toNat = operands.length := UInt32.toNat_ofNat_of_lt' small
  have signed : (UInt32.ofNat operands.length).toInt32.toInt = operands.length := by
    refine (BitVec.toInt_eq_toNat_of_lt ?_).trans (congrArg Nat.cast length)
    change 2 * (UInt32.ofNat operands.length).toNat < 2 ^ 32
    rw [length]
    omega
  refine ⟨_, bind_eq_ok.mpr ⟨size, measured, rfl⟩, fits, ?_, ?_⟩
  · rw [total, length_cons, length_cons, ← known.length_eq]
    omega
  · rw [Region.allStores, Region.arrayHeader, signed]
    refine (append_nil _).symm ▸ lay_append [_, _] words 0 ⟨⟨rfl, rfl, rfl⟩, ⟨rfl, rfl, rfl⟩, trivial⟩ ?_
    exact elements_lay fine 0 (by rw [zero_add]; exact small) known

theorem object_lays (ref : ObjectRef) (generation : Generation) (type : ValueType) {elements : Operand}
    (known : elements.word? values = some word) {length : List Store} {counts : List Word} (lay : Store.Lay values 3 length counts)
    (shaped : map.Fits (8 * (3 + counts.length))) {value : UInt32 → Operand}
    (slots : Forall₂ (fun index word => (value index).word? values = some word)
      ((range map.inObjectProperties.toNat).map UInt32.ofNat) words) :
    Region.Lays values { size := map.instanceSize, generation := generation, type := type,
                         stores := Region.objectHeader ref elements ++ length ++ Region.allInObject map value }
      (.constant (.heap ref) :: .constant (.heap Root.emptyFixedArray) :: word :: (counts ++ words)) := by
  have counted : words.length = map.inObjectProperties.toNat := by
    rw [← slots.length_eq, length_map, length_range]
  refine ⟨?_, ?_⟩
  · rw [MapInfo.Fits] at shaped
    simp only [length_cons, length_append, counted]
    omega
  have header : Store.Lay values 0 (Region.objectHeader ref elements) [.constant (.heap ref), .constant (.heap Root.emptyFixedArray), word] :=
    ⟨⟨rfl, rfl, rfl⟩, ⟨rfl, rfl, rfl⟩, ⟨rfl, rfl, known⟩, trivial⟩
  rw [range_eq_range'] at slots
  rw [Region.allStores]
  have tail := in_object_lay shaped value 0 (zero_add _) slots
  refine (append_nil _).symm ▸ lay_append (_ :: _ :: _ :: counts) words 0 (lay_append [_, _, _] counts 0 header lay) ?_
  rw [length_cons, length_cons, length_cons]
  exact (show 3 + counts.length = 0 + (counts.length + 1 + 1 + 1) by omega) ▸ tail

end

namespace CreationContext

variable {representation : FieldRepresentation}

def DeliversCopy (c : CreationContext) (work : Draft Operand) (tree : Tree) : Prop :=
  ∀ before, Draft.Delivers c.config.maxObjectSize work before fun after operand => Copied before after operand tree

section

variable (c : CreationContext) (generation : Generation) (nested : ObjectRef → Draft Operand) (unfold : ObjectRef → Option Tree)
  (below : ObjectRef → Prop) (copies : ∀ inner, below inner → ∃ tree, unfold inner = some tree ∧ c.DeliversCopy (nested inner) tree)

theorem prepare_delivers {value : Constant} : c.DeliversCopy (Draft.prepare value) (.constant value) := by
  intro before
  refine Draft.delivers_mono (Draft.delivers_prepare value) fun after operand _ drafted => ?_
  rw [drafted.1]
  exact copied_constant before after value

theorem double_delivers (value : Option Double) (solid : value ≠ some ⟨Layout.holeBits⟩) :
    c.DeliversCopy (Draft.prepare (.float64 (value.getD ⟨Layout.holeBits⟩))) (.double value) := by
  have read : (value.getD ⟨Layout.holeBits⟩).element? = value := by
    cases value with
    | none => rfl
    | some number => exact if_neg fun same => solid (congrArg some same)
  intro before
  refine Draft.delivers_mono (Draft.delivers_prepare _) fun after operand _ drafted => ?_
  have stands : Stands after.objects (.double (value.getD ⟨Layout.holeBits⟩).element?) _ [] := .double _
  rw [read] at stands
  rw [drafted.1]
  exact ⟨_, [], rfl, stands, .nil, by simp⟩

theorem box_delivers (room : 16 ≤ c.config.maxObjectSize.toNat) (number : Double) : c.DeliversCopy (do
        let _ ← Draft.prepare (.float64 number)
        Draft.add (.region (boxRegion generation (.float64 number))))
      (.object [.heap Root.mutableHeapNumberMap, .constant (.float64 number)]) := by
  intro before
  refine Draft.delivers_bind (Draft.delivers_prepare _) fun middle _ grown drafted => ?_
  let words : List Word := [.constant (.heap Root.mutableHeapNumberMap), .constant (.float64 number)]
  have lays : (boxRegion generation (.float64 number)).Lays middle.values words :=
    ⟨rfl, ⟨rfl, rfl, rfl⟩, ⟨rfl, rfl, rfl⟩, trivial⟩
  refine Draft.delivers_mono (Draft.delivers_region (UInt32.le_iff_toNat_le.mpr room) lays) fun after operand _ built => ?_
  refine copied_object ([] ++ ([] ++ [])) grown ?_ (by simp) (by simp) built.1 built.2
  exact .cons _ _ _ _ _ _ (.constant _) (.cons _ _ _ _ _ _ (.constant _) .nil)

include copies

theorem copy_field_delivers (room : 16 ≤ c.config.maxObjectSize.toNat) {value : TaggedValue}
    (carried : ∀ inner, c.nestedLiteral? value = some inner → below inner)
    (boxed : representation = .double → c.nestedLiteral? value = none → (c.doubleField? value).isSome) :
    ∃ tree, c.unfoldField unfold representation value = some tree ∧
      c.DeliversCopy (c.copyField nested generation representation value) tree := by
  rw [copyField, unfoldField]
  cases found : c.nestedLiteral? value with
  | some inner => exact copies inner (carried inner found)
  | none =>
    dsimp only
    by_cases double : representation = .double
    · obtain ⟨number, held⟩ := Option.isSome_iff_exists.mp (boxed double found)
      rw [if_pos double, if_pos double, held]
      exact ⟨_, rfl, c.box_delivers generation room number⟩
    · rw [if_neg double, if_neg double]
      by_cases pending : representation = .smi ∧ value = .object Root.uninitialized
      · rw [if_pos pending, if_pos (by simpa using pending)]
        exact ⟨_, rfl, c.prepare_delivers⟩
      · rw [if_neg pending, if_neg (by simpa using pending)]
        exact ⟨_, rfl, c.prepare_delivers⟩

theorem copy_element_delivers (value : Option TaggedValue)
    (carried : ∀ held inner, value = some held → c.nestedLiteral? held = some inner → below inner) :
    ∃ tree, value.elim (some (.heap Root.theHole)) (c.unfoldElement unfold) = some tree ∧
      c.DeliversCopy (c.copyElement nested value) tree := by
  cases value with
  | none => exact ⟨_, rfl, fun before => Draft.delivers_pure _ (copied_constant before before _)⟩
  | some held =>
    rw [copyElement, Option.elim_some, unfoldElement]
    cases found : c.nestedLiteral? held with
    | some inner => exact copies inner (carried held inner rfl found)
    | none => exact ⟨_, rfl, c.prepare_delivers⟩

omit copies in
theorem map_m_some {α β : Type} {step : α → Option β} {items : List α} {results : List β}
    (each : Forall₂ (fun item result => step item = some result) items results) : items.mapM step = some results := by
  induction each with
  | nil => rfl
  | cons first _ ih =>
    rw [mapM_cons, first, ih]
    rfl

omit copies in
theorem map_m_delivers {α : Type} (step : α → Draft Operand) (unfolds : α → Tree → Prop) (items : List α)
    (each : ∀ item ∈ items, ∃ tree, unfolds item tree ∧ c.DeliversCopy (step item) tree) :
    ∃ trees, Forall₂ unfolds items trees ∧ ∀ before, Draft.Delivers c.config.maxObjectSize (items.mapM step) before
      fun after operands => CopiedAll before after operands trees := by
  induction items with
  | nil => exact ⟨[], .nil, fun before => Draft.delivers_pure _ ⟨[], [], .nil, .nil, .nil, by simp⟩⟩
  | cons item rest ih =>
    obtain ⟨tree, first, copy⟩ := each item mem_cons_self
    obtain ⟨trees, others, copied⟩ := ih fun other member => each other (mem_cons_of_mem item member)
    refine ⟨tree :: trees, .cons first others, fun before => ?_⟩
    rw [mapM_cons]
    refine Draft.delivers_bind (copy before) fun middle operand early here => ?_
    refine Draft.delivers_bind (copied middle) fun after operands late there => ?_
    exact Draft.delivers_pure _ (copied_all_cons early late here there)

omit copies in
theorem array_delivers (fine : ∀ index value, (Store.element access index value).Regular ∧ access.header = 16) (map : ObjectRef)
    (grown : before.Grows middle) (copied : CopiedAll before middle operands trees) (fits : c.fitsElements trees.length) :
    Draft.Delivers c.config.maxObjectSize (do
        let region ← Draft.ofFaulty (Region.fixedArray (UInt32.ofNat trees.length) map generation
          (operands.zipIdx.map fun (operand, index) => .element access (UInt32.ofNat index) operand))
        Draft.add (.region region))
      middle fun after operand => Copied before after operand (.object (.heap map :: .number trees.length :: trees)) := by
  rw [← copied_all_length copied] at fits ⊢
  obtain ⟨words, visited, known, stand, once, inside⟩ := copied
  obtain ⟨region, made, small, lays⟩ := array_lays fine map generation fits known
  refine Draft.delivers_bind (Draft.delivers_of_faulty made) fun _ _ _ drafted => ?_
  obtain ⟨rfl, rfl⟩ := drafted
  refine Draft.delivers_mono (Draft.delivers_region small lays) fun after operand _ built => ?_
  refine copied_object ([] ++ ([] ++ visited)) grown ?_ once inside built.1 built.2
  exact .cons _ _ _ _ _ _ (.constant _) (.cons _ _ _ _ _ _ (.constant _) stand)

theorem copy_elements_delivers {object : PlainObject} (admits : c.Admits below object map)
    (solid : ∀ values, c.heap.get? object.elements = some (.fixedDoubleArray values) → some ⟨Layout.holeBits⟩ ∉ values) :
    ∃ tree, c.unfoldElements unfold object.elements = some tree ∧
      c.DeliversCopy (c.copyElements nested generation map object.elements) tree := by
  rw [unfoldElements, copyElements]
  rcases admits.elements with ⟨store, values, found, fine⟩ | ⟨values, found, fits⟩
  · rw [found]
    dsimp only
    by_cases shared : values = [] ∨ store = Root.copyOnWriteArrayMap
    · rw [if_pos shared, if_pos (by simpa using shared)]
      exact ⟨_, rfl, c.prepare_delivers⟩
    rw [if_neg shared, if_neg (by simpa using shared)]
    obtain ⟨some, own⟩ := not_or.mp shared
    have fits := (fine.resolve_left some).resolve_left own
    obtain ⟨trees, unfolds, copied⟩ := c.map_m_delivers (c.copyElement nested)
      (fun value tree => value.elim (.some (.heap Root.theHole)) (c.unfoldElement unfold) = .some tree) values fun value member =>
        c.copy_element_delivers nested unfold below copies value fun held inner same isNested =>
          admits.carried inner ⟨held, isNested, .inr ⟨store, values, found, own, same ▸ member⟩⟩
    rw [map_m_some unfolds, unfolds.length_eq]
    refine ⟨_, rfl, fun before => ?_⟩
    refine Draft.delivers_bind (Draft.delivers_prepare _) fun first _ early _ => ?_
    refine Draft.delivers_bind (copied first) fun middle operands late drafted => ?_
    exact c.array_delivers generation (fixed_array_regular map.elementsKind) store
      (contents_grows_trans early late) (copied_all_since early drafted) (unfolds.length_eq ▸ fits)
  · rw [found]
    dsimp only
    by_cases empty : values = []
    · rw [if_pos empty, if_pos (by simpa using empty)]
      exact ⟨_, rfl, c.prepare_delivers⟩
    rw [if_neg empty, if_neg (by simpa using empty)]
    obtain ⟨trees, unfolds, copied⟩ := c.map_m_delivers
      (fun value => Draft.prepare (.float64 (value.getD ⟨Layout.holeBits⟩))) (fun value tree => Tree.double value = tree) values
      fun value member => ⟨_, rfl, c.double_delivers value fun hole => solid values found (hole ▸ member)⟩
    rw [forall₂_map_left_iff.symm, forall₂_eq_eq_eq] at unfolds
    subst unfolds
    refine ⟨_, rfl, fun before => ?_⟩
    refine Draft.delivers_bind (copied before) fun middle operands grown drafted => ?_
    have length := copied_all_length drafted
    have delivers := c.array_delivers generation (elements_regular .packedDouble) Root.fixedDoubleArrayMap
      grown drafted (by rw [length_map]; exact fits)
    rw [← length] at delivers
    rw [length_map] at length
    rw [← length]
    exact delivers

end

-- What has been copied for the slots by the properties `done`; a slot without one of them is to hold a filler.
structure SlotsCopied (c : CreationContext) (unfold : ObjectRef → Option Tree) (fields : List TaggedValue) (before after : Contents)
    (done : List Property) (copied : List (UInt32 × Operand)) (visited : UInt32 → List Nat) : Prop where
  once : ∀ index, (visited index).Nodup
  inside : ∀ index, ∀ address ∈ visited index, before.objects.length ≤ address ∧ address < after.objects.length
  apart : ∀ index other, index ≠ other → (visited index).Disjoint (visited other)
  stands : ∀ index, ∃ tree word, c.unfoldSlot unfold done fields index = some tree ∧
    ((copied.lookup index).getD (.heap Root.onePointerFillerMap)).word? after.values = some word ∧
    Stands after.objects tree word (visited index)

theorem slots_nodup (map : MapInfo) : ((range map.inObjectProperties.toNat).map UInt32.ofNat).Nodup := by
  refine nodup_range.map_on fun first early second late same => ?_
  have bound := map.inObjectProperties.toNat_lt_size
  rw [mem_range] at early late
  have values := congrArg UInt32.toNat same
  rwa [UInt32.toNat_ofNat_of_lt' (by omega), UInt32.toNat_ofNat_of_lt' (by omega)] at values

section

variable {property : Property} (c : CreationContext) (unfold : ObjectRef → Option Tree) (fields : List TaggedValue)
  (before after later : Contents) (done : List Property) (copied : List (UInt32 × Operand)) (visited : UInt32 → List Nat)

theorem slots_grow (grown : after.Grows later) (slots : c.SlotsCopied unfold fields before after done copied visited) :
    c.SlotsCopied unfold fields before later done copied visited where
  once := slots.once
  inside index address member := by
    have here := slots.inside index address member
    exact ⟨here.1, here.2.trans_le grown.objects.length_le⟩
  apart := slots.apart
  stands index := by
    obtain ⟨tree, word, unfolds, known, stands⟩ := slots.stands index
    exact ⟨tree, word, unfolds, word_grows grown.values known, stands_grow grown.objects stands⟩

theorem slots_descriptor (plain : property.place = .descriptor)
    (slots : c.SlotsCopied unfold fields before after done copied visited) :
    c.SlotsCopied unfold fields before after (done ++ [property]) copied visited := by
  refine { slots with stands := fun index => ?_ }
  have same : fieldOf? (done ++ [property]) index = fieldOf? done index := by
    rw [fieldOf?, foldl_append, foldl_cons, plain]
    rfl
  obtain ⟨tree, word, unfolds, rest⟩ := slots.stands index
  refine ⟨tree, word, ?_, rest⟩
  rw [unfoldSlot, same]
  exact unfolds

-- The copy for the last property takes the place of the one for an earlier property of the same index.
theorem slots_field {place : UInt32} (field : property.place = .field representation place) {value : TaggedValue}
    (held : fields[place.toNat]? = some value) (unfolds : c.unfoldField unfold representation value = some tree)
    (grown : before.Grows after) (further : after.Grows later) (copy : Copied after later operand tree)
    (slots : c.SlotsCopied unfold fields before after done copied visited) :
    ∃ visited, c.SlotsCopied unfold fields before later (done ++ [property]) ((place, operand) :: copied) visited := by
  obtain ⟨word, new, known, stands, once, fresh⟩ := copy
  have still := c.slots_grow unfold fields before after later done copied visited further slots
  have shorter := grown.objects.length_le
  have last : ∀ index, fieldOf? (done ++ [property]) index = if place = index then some representation else fieldOf? done index := by
    intro index
    rw [fieldOf?, foldl_append, foldl_cons, field]
    rfl
  have disjoint : ∀ index, new.Disjoint (visited index) := by
    intro index address member listed
    have above := (fresh address member).1
    have below := (slots.inside index address listed).2
    omega
  refine ⟨fun index => if place = index then new else visited index, ?_, ?_, ?_, ?_⟩
  · intro index
    split
    · exact once
    · exact slots.once index
  · intro index address member
    split at member
    · have here := fresh address member
      omega
    · exact still.inside index address member
  · intro index other different
    split
    · rename_i same
      rw [if_neg (same ▸ different)]
      exact disjoint other
    · split
      · exact (disjoint index).symm
      · exact slots.apart index other different
  · intro index
    rw [unfoldSlot, last]
    by_cases same : place = index
    · subst same
      refine ⟨tree, word, ?_, ?_, ?_⟩
      · rw [if_pos rfl, held]
        exact unfolds
      · rw [lookup_cons_self]
        exact known
      · rw [if_pos rfl]
        exact stands
    · have different : (index == place) = false := by simpa using Ne.symm same
      rw [if_neg same, lookup_cons, different, if_neg same]
      exact still.stands index

theorem slots_stand (slots : c.SlotsCopied unfold fields before after done copied visited) {indices : List UInt32}
    (distinct : indices.Nodup) :
    (indices.flatMap visited).Nodup ∧ ∃ trees words, indices.mapM (c.unfoldSlot unfold done fields) = some trees ∧
      Forall₂ (fun index word => ((copied.lookup index).getD (.heap Root.onePointerFillerMap)).word? after.values = some word)
        indices words ∧
      StandAll after.objects trees words (indices.flatMap visited) := by
  refine ⟨nodup_flatMap.mpr ⟨fun index _ => slots.once index, distinct.imp fun different => slots.apart _ _ different⟩, ?_⟩
  clear distinct
  induction indices with
  | nil => exact ⟨[], [], rfl, .nil, .nil⟩
  | cons index rest ih =>
    obtain ⟨trees, words, unfolds, known, stand⟩ := ih
    obtain ⟨tree, word, here, first, stands⟩ := slots.stands index
    refine ⟨tree :: trees, word :: words, ?_, .cons first known, .cons _ _ _ _ _ _ stands stand⟩
    rw [mapM_cons, here, unfolds]
    rfl

end

section

variable (c : CreationContext) (generation : Generation) (nested : ObjectRef → Draft Operand) (unfold : ObjectRef → Option Tree)
  (below : ObjectRef → Prop) (copies : ∀ inner, below inner → ∃ tree, unfold inner = some tree ∧ c.DeliversCopy (nested inner) tree)
  (object : PlainObject) (map : MapInfo) (admits : c.Admits below object map)

include copies admits

theorem copy_fields_delivers (room : 16 ≤ c.config.maxObjectSize.toNat) (before : Contents) :
    Draft.Delivers c.config.maxObjectSize (c.copyFields nested generation map object.fields) before fun after copied =>
      before.Grows after ∧ ∃ visited, c.SlotsCopied unfold object.fields before after map.properties copied visited := by
  let holds (done : List Property) (after : Contents) (copied : List (UInt32 × Operand)) : Prop :=
    before.Grows after ∧ ∃ visited, c.SlotsCopied unfold object.fields before after done copied visited
  refine Draft.delivers_fold holds [] map.properties [] ?_ ?_
  · intro early property late split middle copied held
    obtain ⟨grown, visited, slots⟩ := held
    have member : property ∈ map.properties := by
      rw [nil_append] at split
      rw [split]
      simp
    split
    · rename_i plain
      exact Draft.delivers_pure _ ⟨grown, visited, c.slots_descriptor _ _ _ _ _ _ _ plain slots⟩
    rename_i representation index place
    obtain ⟨inside, value, stored, boxed⟩ := admits.field property member representation index place
    obtain ⟨tree, unfolds, delivers⟩ := c.copy_field_delivers generation nested unfold below copies room
      (fun inner isNested => admits.carried inner ⟨value, isNested, .inl ⟨property, member, representation, index, place, stored⟩⟩)
      boxed
    refine Draft.delivers_bind (Draft.delivers_of_option stored) fun _ _ _ found => ?_
    obtain ⟨rfl, rfl⟩ := found
    refine Draft.delivers_bind (delivers middle) fun after operand further copy => ?_
    dsimp only
    rw [if_neg (UInt32.not_le.mpr inside)]
    exact Draft.delivers_pure _ ⟨contents_grows_trans grown further,
      c.slots_field _ _ _ _ after _ _ visited place stored unfolds grown further copy slots⟩
  · refine ⟨grows_refl_contents before, fun _ => [], fun _ => .nil, by simp, by simp, fun index => ?_⟩
    exact ⟨_, _, rfl, rfl, .constant _⟩

omit copies admits in
theorem copy_length_delivers (before : Contents) :
    Draft.Delivers c.config.maxObjectSize (c.copyLength map object) before fun after stores => after.objects = before.objects ∧
      ∃ words, Store.Lay after.values 3 stores words ∧ StandAll after.objects (c.unfoldLength map object) words [] ∧
        words.length = if map.isArrayMap then 1 else 0 := by
  rw [copyLength, unfoldLength]
  by_cases isArray : map.isArrayMap
  · rw [if_pos isArray, if_pos isArray, if_pos isArray]
    refine Draft.delivers_bind (Draft.delivers_prepare _) fun after operand _ drafted => ?_
    obtain ⟨rfl, same⟩ := drafted
    have wide := fun value => Store.regular_wide _ (array_length_regular map.elementsKind value)
    have offset : (FieldAccess.arrayLength map.elementsKind).offset.toNat = 24 := by rw [array_length_offset]; rfl
    refine Draft.delivers_pure _ ⟨same, [_], ⟨⟨wide _, congrArg some offset, rfl⟩, trivial⟩, ?_, rfl⟩
    cases object.length with
    | some length | none => exact .cons _ _ _ _ [] [] (.constant _) .nil
  · rw [if_neg isArray, if_neg isArray, if_neg isArray]
    exact Draft.delivers_pure _ ⟨rfl, [], trivial, .nil, rfl⟩

theorem copy_object_delivers {boilerplate : ObjectRef} (there : c.heap.plainObject? boilerplate = some object)
    (known : c.heap.map? object.map = some map) (sized : map.WellSized)
    (solid : ∀ values, c.heap.get? object.elements = some (.fixedDoubleArray values) → some ⟨Layout.holeBits⟩ ∉ values)
    (before : Contents) :
    Draft.Delivers c.config.maxObjectSize (c.copyObject nested generation boilerplate) before fun after region =>
      ∃ trees, c.unfoldObject unfold boilerplate = some (.object trees) ∧
        Prepared c.config.maxObjectSize before after region trees := by
  have room : 16 ≤ c.config.maxObjectSize.toNat := by
    have fits := UInt32.le_iff_toNat_le.mp (of_decide_eq_true admits.fits)
    rcases sized with ⟨_, total⟩ | ⟨_, total⟩ <;> rw [MapInfo.Fits] at total <;> omega
  have shaped : map.Fits (8 * (3 + if map.isArrayMap then 1 else 0)) := by
    rcases sized with ⟨type, total⟩ | ⟨type, total⟩
    · simpa [MapInfo.isArrayMap, type] using total
    · simpa [MapInfo.isArrayMap, type] using total
  obtain ⟨tree, unfolds, delivers⟩ := c.copy_elements_delivers generation nested unfold below copies admits solid
  rw [copyObject]
  refine Draft.delivers_bind (Draft.delivers_of_option there) fun _ _ _ found => ?_
  obtain ⟨rfl, rfl⟩ := found
  refine Draft.delivers_bind (Draft.delivers_of_option known) fun _ _ _ found => ?_
  obtain ⟨rfl, rfl⟩ := found
  refine Draft.delivers_bind (c.copy_fields_delivers generation nested unfold below copies object map admits room before)
    fun first fields _ copied => ?_
  obtain ⟨grown, visited, slots⟩ := copied
  refine Draft.delivers_bind (Draft.delivers_prepare _) fun second filler early drafted => ?_
  obtain ⟨rfl, _⟩ := drafted
  refine Draft.delivers_bind (delivers second) fun third elements late copy => ?_
  refine Draft.delivers_bind (c.copy_length_delivers object map third) fun after length last counted => Draft.delivers_pure _ ?_
  obtain ⟨word, inner, held, stands, once, inside⟩ := copy
  obtain ⟨_, counts, lay, stand, total⟩ := counted
  have still := c.slots_grow _ _ _ _ after _ _ _ (contents_grows_trans early (contents_grows_trans late last)) slots
  obtain ⟨apart, trees, words, each, filled, standing⟩ := c.slots_stand _ _ _ _ _ _ _ still (slots_nodup map)
  let indices := (range map.inObjectProperties.toNat).map UInt32.ofNat
  have tail := stand_all_append stand standing
  have stands := stands_grow last.objects stands
  have lays := object_lays object.map generation (instanceType map) (word_grows last.values held) lay (total ▸ shaped) filled
  refine ⟨_, ?_, of_decide_eq_true admits.fits, _, inner ++ indices.flatMap visited, lays,
    .cons _ _ _ _ [] _ (.constant _) (.cons _ _ _ _ [] _ (.constant _) (.cons _ _ _ _ inner _ stands tail)), ?_, ?_⟩
  · simp only [unfoldObject, there, known, unfolds, each, Option.bind_eq_bind, Option.bind_some]
    rfl
  · -- The slots were copied before the elements.
    refine nodup_append.mpr ⟨once, apart, fun address member other listed => ?_⟩
    obtain ⟨index, _, listed⟩ := mem_flatMap.mp listed
    have above := (inside address member).1
    have under := (slots.inside index other listed).2
    have shorter := early.objects.length_le
    omega
  · refine forall_mem_append.mpr ⟨fun address member => ?_, fun address member => ?_⟩
    · have here := inside address member
      have shorter := (contents_grows_trans grown early).objects.length_le
      have longer := last.objects.length_le
      omega
    · obtain ⟨index, _, listed⟩ := mem_flatMap.mp member
      exact still.inside index address listed

end

theorem nested_delivers (c : CreationContext) {work : Draft Region} {unfolded : Option Tree}
    (delivers : ∀ before, Draft.Delivers c.config.maxObjectSize work before fun after region =>
      ∃ trees, unfolded = some (.object trees) ∧ Prepared c.config.maxObjectSize before after region trees) :
    ∃ tree, unfolded = some tree ∧ c.DeliversCopy (do Draft.add (.region (← work))) tree := by
  -- That there is a tree at all can be seen from any run.
  obtain ⟨_, _, _, _, _, _, trees, same, _⟩ := delivers {} #[] rfl
  refine ⟨.object trees, same, fun before => ?_⟩
  refine Draft.delivers_bind (delivers before) fun middle region grown prepared => ?_
  obtain ⟨others, again, small, words, visited, lays, stand, once, inside⟩ := prepared
  cases Option.some.inj (same.symm.trans again)
  refine Draft.delivers_mono (Draft.delivers_region small lays) fun after operand _ built => ?_
  exact copied_object visited grown stand once inside built.1 built.2

theorem copy_literal_delivers (c : CreationContext) (generation : Generation) {depth : Nat} {boilerplate : ObjectRef}
    (copyable : c.Copyable MapInfo.WellSized depth boilerplate) (solid : c.Solid boilerplate) (before : Contents) :
    Draft.Delivers c.config.maxObjectSize (c.copyLiteral generation depth boilerplate) before fun after region =>
      ∃ trees, c.unfolding depth boilerplate = some (.object trees) ∧
        Prepared c.config.maxObjectSize before after region trees := by
  induction depth generalizing boilerplate before with
  | zero => exact copyable.elim
  | succ depth ih =>
    obtain ⟨object, map, there, known, admits, sized⟩ := copyable
    let below (inner : ObjectRef) : Prop := c.Copyable MapInfo.WellSized depth inner ∧ c.Solid inner
    have carried : c.Admits below object map := by
      refine c.admits_mono below admits fun inner carries copyable => ⟨copyable, ?_⟩
      exact fun deeper other values reached => solid deeper other values (.head ⟨object, map, there, known, carries⟩ reached)
    have copies : ∀ inner, below inner → ∃ tree, c.unfolding depth inner = some tree ∧
        c.DeliversCopy (do Draft.add (.region (← c.copyLiteral generation depth inner))) tree :=
      fun inner fine => c.nested_delivers (ih fine.1 fine.2)
    rw [copyLiteral]
    exact c.copy_object_delivers generation _ (c.unfolding depth) below copies object map carried there known
      sized (fun values found => solid boilerplate object values .refl there found) before

end CreationContext

end SeaOfNodes
