import ScopeMachine.Proofs.Structured.Blocks

set_option autoImplicit false

/-!
# Labels

The offset of a method's body is its label. The code has one body for every definition of the source,
in the same order, and no two bodies start at the same offset.
-/

namespace ScopeMachine

open Assembly

def Assembly.Method.definition (method : Method) : Definition :=
  ⟨⟨method.line, method.position⟩, method.body⟩

/-- The methods of a block and of what follows it. The body of a method comes in front of those
inside it. -/
theorem methods_block (pools : Pools) (body rest : Block) (site : Site) :
    ∃ first depth stop, (entries pools (.block body :: rest) site).methods
        = (if setting site.owner = .method then [⟨site.position, site.line, body, first⟩] else [])
          ++ ((entries pools body (site.inside first depth)).methods
          ++ (entries pools rest (site.past (entries pools body (site.inside first depth))
            stop)).methods)
      ∧ (setting site.owner = .method → depth = 0) := by
  simp only [entries, entry, Assembly.block]
  cases setting site.owner with
  | method => exact ⟨_, _, _, rfl, fun _ => rfl⟩
  | loop | arm | last | free => exact ⟨_, _, _, rfl, fun same => by cases same⟩

theorem methods_inside (pools : Pools) (block : Block) (site : Site) :
    ∀ method ∈ (entries pools block site).methods,
      (entries pools method.body method.site).methods ⊆ (entries pools block site).methods := by
  induction block using Block.induction generalizing site with
  | nil =>
    intro method member
    cases member
  | statement operation rest ih =>
    exact ih (site.next operation ((statement? pools operation).getD []))
  | block body rest inner later =>
    obtain ⟨first, depth, stop, methods, flat⟩ := methods_block pools body rest site
    rw [methods]
    intro method member
    obtain own | inside := List.mem_append.mp member
    · split at own
      case isTrue kind =>
        obtain rfl := List.mem_singleton.mp own
        obtain rfl := flat kind
        exact fun other there => List.mem_append_right _ (List.mem_append_left _ there)
      case isFalse => cases own
    · obtain inside | behind := List.mem_append.mp inside
      · exact fun other there => List.mem_append_right _ (List.mem_append_left _
          (inner _ method inside there))
      · exact fun other there => List.mem_append_right _ (List.mem_append_right _
          (later _ method behind there))

/-- The code has one body for each definition among the entries of a block. -/
theorem definitions_entries (pools : Pools) (block : Block) {site : Site}
    (unowned : site.owner = none ∨ Block.startsWithBlock block = false) :
    (entries pools block site).methods.map Method.definition = Block.definitions block site.here := by
  have block_eq (body rest : Block) (site : Site)
      (inner : ∀ {site : Site}, site.owner = none ∨ Block.startsWithBlock body = false →
        (entries pools body site).methods.map Method.definition = Block.definitions body site.here)
      (outer : ∀ {site : Site}, site.owner = none ∨ Block.startsWithBlock rest = false →
        (entries pools rest site).methods.map Method.definition = Block.definitions rest site.here) :
      (entries pools (.block body :: rest) site).methods.map Method.definition
        = (if setting site.owner = .method then [⟨site.here, body⟩] else [])
          ++ (Block.definitions body site.here
          ++ Block.definitions rest (Block.leave site.here body)) := by
    obtain ⟨first, depth, stop, methods, -⟩ := methods_block pools body rest site
    have here : (site.inside first depth).here = site.here := rfl
    have behind : (site.past (entries pools body (site.inside first depth)) stop).here
        = Block.leave site.here body := (leave_entries pools body (site.inside first depth)).symm
    rw [methods, List.map_append, List.map_append, inner (.inl rfl), outer (.inl rfl), here, behind]
    split <;> rfl
  induction block using Block.pairing generalizing site with
  | nil => rfl
  | statement operation rest apart ih =>
    obtain rfl | ⟨_, _, rfl⟩ := Block.apart_cases apart
    · rfl
    · exact ih (.inr rfl)
  | owner operation body rest inner outer =>
    have methods := block_eq body rest (site.next operation ((statement? pools operation).getD []))
      inner outer
    have owned : setting (site.next operation ((statement? pools operation).getD [])).owner = .method
        ↔ operation.kind = .defineMethod := by
      cases kind : operation.kind <;> simp [Site.next, Site.after, setting, kind]
    simp only [owned] at methods
    exact methods
  | block body rest inner outer =>
    have free : site.owner = none := by simpa [Block.startsWithBlock] using unowned
    have methods := block_eq body rest site inner outer
    rw [free] at methods
    exact methods

/-- The methods of entries are in the order of the source: later ones have later positions and
offsets. -/
structure Ordered (site : Site) (segment : Segment) : Prop where
  increasing : segment.methods.Pairwise fun first second =>
    first.position < second.position ∧ first.offset < second.offset
  bounds : ∀ method ∈ segment.methods, site.position ≤ method.position
    ∧ method.position ≤ segment.position ∧ site.start < method.offset
    ∧ method.offset ≤ site.start + size segment.cells
  strict : setting site.owner ≠ .method →
    ∀ method ∈ segment.methods, site.position < method.position

private theorem position_le_entries (pools : Pools) (block : Block) (site : Site) :
    site.position ≤ (entries pools block site).position := by
  induction block using Block.induction generalizing site with
  | nil => exact Nat.le_refl _
  | statement operation rest ih =>
    have later := ih (site.next operation ((statement? pools operation).getD []))
    exact Nat.le_trans (Nat.le_succ _) later
  | block body rest inner later =>
    have through (start depth stop : Nat) : site.position ≤ (entries pools rest
        (site.past (entries pools body (site.inside start depth)) stop)).position :=
      Nat.le_trans (inner (site.inside start depth)) (later (site.past _ stop))
    simp only [entries, entry, Assembly.block]
    cases setting site.owner with
    | loop | method | arm | last | free => exact through _ _ _

/-- The methods of a block come in front of those of what follows it, and a body in front of those
inside it. -/
theorem Ordered.block {code : List Cell} {site : Site} {front behind : List Cell}
    (body : Block) {block tail segment : Segment} {first depth leave stop : Nat}
    (laid : BlockLaid code site front first block leave behind stop tail segment)
    (opened : front ≠ []) (inner : Ordered (site.inside first depth) block)
    (outer : Ordered (site.past block stop) tail)
    (position : segment.position = tail.position) (within : site.position ≤ block.position)
    (after : block.position ≤ tail.position)
    (methods : segment.methods
      = (if setting site.owner = .method then [⟨site.position, site.line, body, first⟩] else [])
        ++ (block.methods ++ tail.methods)) : Ordered site segment := by
  have wide : 0 < size front := by
    cases front with
    | nil => exact absurd rfl opened
    | cons cell cells =>
      have pos := cell.command.width_pos
      rw [size_cons]
      omega
  have ends := laid.ends
  have first_eq := laid.first_eq
  have leave_eq := laid.leave_eq
  have stop_eq := laid.stop_eq
  have inside : ∀ method ∈ block.methods, site.position < method.position
      ∧ method.position ≤ block.position ∧ first < method.offset ∧ method.offset ≤ leave := by
    intro method member
    obtain ⟨-, upper, low, high⟩ := inner.bounds method member
    exact ⟨inner.strict (by simp [Site.inside, setting]) method member, upper, low,
      Nat.le_trans high (Nat.le_of_eq leave_eq)⟩
  have outside : ∀ method ∈ tail.methods, block.position < method.position
      ∧ method.position ≤ tail.position ∧ stop < method.offset
      ∧ method.offset ≤ stop + size tail.cells := by
    intro method member
    obtain ⟨-, upper, low, high⟩ := outer.bounds method member
    exact ⟨outer.strict (by simp [Site.past, setting]) method member, upper, low, high⟩
  have both : ∀ method ∈ block.methods ++ tail.methods, site.position < method.position
      ∧ method.position ≤ segment.position ∧ first < method.offset
      ∧ method.offset ≤ site.start + size segment.cells := by
    intro method member
    obtain member | member := List.mem_append.mp member
    · have bounds := inside method member
      omega
    · have bounds := outside method member
      omega
  have increasing : (block.methods ++ tail.methods).Pairwise fun first second =>
      first.position < second.position ∧ first.offset < second.offset := by
    refine List.pairwise_append.mpr ⟨inner.increasing, outer.increasing, ?_⟩
    intro one member other later
    have upper := inside one member
    have lower := outside other later
    omega
  by_cases owner : setting site.owner = .method
  · rw [if_pos owner, List.singleton_append] at methods
    refine ⟨?_, ?_, fun other => absurd owner other⟩
    · rw [methods]
      exact List.pairwise_cons.mpr ⟨fun method member => ⟨(both method member).1,
        (both method member).2.2.1⟩, increasing⟩
    · rw [methods]
      intro method member
      cases member with
      | head =>
        dsimp only
        omega
      | tail _ member =>
        have bounds := both method member
        omega
  · rw [if_neg owner, List.nil_append] at methods
    refine ⟨methods ▸ increasing, ?_, fun _ => ?_⟩
    · rw [methods]
      intro method member
      have bounds := both method member
      omega
    · rw [methods]
      exact fun method member => (both method member).1

private theorem ordered_entries {code : List Cell} {pools : Pools} (block : Block) {site : Site}
    (within : Within code site.start (entries pools block site).cells)
    (valid : (entries pools block site).valid) : Ordered site (entries pools block site) := by
  induction block using Block.induction generalizing site with
  | nil =>
    have none : ∀ method ∈ (entries pools [] site).methods, False := fun _ member => by cases member
    exact ⟨.nil, fun method member => (none method member).elim,
      fun _ method member => (none method member).elim⟩
  | statement operation rest ih =>
    simp only [entries, entry] at within valid ⊢
    obtain ⟨commands, -, laid⟩ := statementLaid within valid
    have later := ih laid.rest laid.valid
    have start : site.start ≤ (site.next operation commands).start := by
      simp only [Site.next, Site.after, Site.place]
      omega
    have stop := laid.stop
    have bounds : ∀ method ∈ (entries pools rest (site.next operation commands)).methods,
        site.position < method.position := fun method member =>
      Nat.lt_of_succ_le (later.bounds method member).1
    have position : (statement pools operation site (entries pools rest)).position
        = (entries pools rest (site.next operation commands)).position := by
      rw [laid.equal]
      rfl
    refine ⟨?_, ?_, fun _ => ?_⟩
    · rw [laid.methods_eq]
      exact later.increasing
    · rw [laid.methods_eq]
      intro method member
      have inside := later.bounds method member
      have lower := bounds method member
      omega
    · rw [laid.methods_eq]
      exact bounds
  | block body rest inner later =>
    simp only [entries, entry, Assembly.block] at within valid ⊢
    have parts {front behind : List Cell} {first depth leave stop : Nat} {segment : Segment}
        (laid : BlockLaid code site front first (entries pools body (site.inside first depth)) leave
          behind stop (entries pools rest
            (site.past (entries pools body (site.inside first depth)) stop)) segment)
        (opened : front ≠ [])
        (position : segment.position = (entries pools rest
          (site.past (entries pools body (site.inside first depth)) stop)).position)
        (methods : segment.methods
          = (if setting site.owner = .method then [⟨site.position, site.line, body, first⟩] else [])
            ++ ((entries pools body (site.inside first depth)).methods ++ (entries pools rest
              (site.past (entries pools body (site.inside first depth)) stop)).methods)) :
        Ordered site segment :=
      .block body laid opened (inner laid.entries laid.inside) (later laid.rest laid.follows) position
        (position_le_entries pools body (site.inside first depth))
        (position_le_entries pools rest (site.past _ stop)) methods
    cases kind : setting site.owner with
    | loop condition =>
      simp only [kind] at within valid ⊢
      obtain ⟨_, _, _, _, _, rfl, rfl, rfl, rfl, rfl, -, laid⟩ := loop_laid within valid
      exact parts laid (by simp) rfl (by rw [kind]; rfl)
    | method =>
      simp only [kind] at within valid ⊢
      obtain ⟨_, _, _, _, _, rfl, rfl, rfl, rfl, rfl, -, laid⟩ := method_laid within valid
      exact parts laid (by simp) rfl (by rw [kind]; rfl)
    | arm =>
      simp only [kind] at within valid ⊢
      obtain ⟨_, _, _, rfl, rfl, rfl, -, laid⟩ := arm_laid within valid
      exact parts laid (by simp) rfl (by rw [kind]; rfl)
    | last | free =>
      simp only [kind] at within valid ⊢
      obtain ⟨_, _, _, rfl, rfl, rfl, laid⟩ := nested_laid within valid
      exact parts laid (by simp) rfl (by rw [kind]; rfl)

/-! ## Programs -/

/-- Labels tell the methods of a program apart, and none of them stands for a missing body. -/
structure Labels (program : Program) (label : Nat → Nat) : Prop where
  bound : ∀ definition ∈ program.definitions, label definition.place.position ≠ 0
  apart : ∀ first ∈ program.definitions, ∀ second ∈ program.definitions,
    label first.place.position = label second.place.position → first = second

/-- The label of a method is the offset of its body. -/
def Assembly.label (source : Program) (position : Nat) : Nat :=
  ((Assembly.program source).methods.find? (·.position == position)).elim 0 (·.offset)

private theorem find?_of_unique {α : Type} {list : List α} {wanted : α → Bool} {value : α}
    (member : value ∈ list) (holds : wanted value = true)
    (unique : ∀ other ∈ list, wanted other = true → other = value) :
    list.find? wanted = some value := by
  cases found : list.find? wanted with
  | none => exact absurd holds (by simpa using List.find?_eq_none.mp found value member)
  | some other =>
    rw [unique other (List.mem_of_find?_eq_some found) (List.find?_some found)]

/-- What is called by the label of a method is its body. -/
theorem Program.methods_label {program : Program} {label : Nat → Nat} (labels : Labels program label)
    {definition : Definition} (member : definition ∈ program.definitions) (fuel : Nat) :
    program.methods label (fuel + 1) (label definition.place.position)
      = (program.context label fuel).body definition := by
  have found : program.definitions.find? (fun other =>
      label other.place.position == label definition.place.position) = some definition :=
    find?_of_unique member (by simp) fun other listed same =>
      labels.apart other listed definition member (by simpa using same)
  rw [Program.methods, found]
  rfl

private theorem definitions_program (source : Program) :
    source.definitions = (Assembly.program source).methods.map Method.definition := by
  have unowned : ({} : Site).owner = none := rfl
  exact (definitions_entries (Pools.ofProgram source) source.main (.inl unowned)).symm

section

variable {source : Program} (valid : (Assembly.program source).valid)

include valid

private theorem ordered_program : Ordered {} (Assembly.program source) :=
  ordered_entries source.main (within_image source).left valid

private theorem method_unique {first second : Method}
    (one : first ∈ (Assembly.program source).methods)
    (other : second ∈ (Assembly.program source).methods)
    (same : first.position = second.position ∨ first.offset = second.offset) : first = second := by
  have increasing := List.pairwise_iff_getElem.mp (ordered_program valid).increasing
  obtain ⟨index, inside, rfl⟩ := List.mem_iff_getElem.mp one
  obtain ⟨place, within, rfl⟩ := List.mem_iff_getElem.mp other
  obtain before | rfl | behind := Nat.lt_trichotomy index place
  · have differ := increasing index place inside within before
    omega
  · rfl
  · have differ := increasing place index within inside behind
    omega

theorem label_method {method : Method} (member : method ∈ (Assembly.program source).methods) :
    Assembly.label source method.position = method.offset := by
  have found : (Assembly.program source).methods.find? (·.position == method.position)
      = some method :=
    find?_of_unique member (by simp) fun other listed same =>
      method_unique valid listed member (.inl (by simpa using same))
  rw [Assembly.label, found]
  rfl

theorem labels_program : Labels source (Assembly.label source) := by
  have defined := definitions_program source
  refine ⟨fun definition member => ?_, fun first one second other same => ?_⟩
  · rw [defined] at member
    obtain ⟨method, listed, rfl⟩ := List.mem_map.mp member
    have bounds := (ordered_program valid).bounds method listed
    show Assembly.label source method.position ≠ 0
    rw [label_method valid listed]
    omega
  · rw [defined] at one other
    obtain ⟨method, listed, rfl⟩ := List.mem_map.mp one
    obtain ⟨another, there, rfl⟩ := List.mem_map.mp other
    have same : Assembly.label source method.position = Assembly.label source another.position := same
    rw [label_method valid listed, label_method valid there] at same
    rw [method_unique valid listed there (.inr same)]

theorem find?_label {method : Method} (member : method ∈ (Assembly.program source).methods) :
    source.definitions.find? (fun definition =>
      Assembly.label source definition.place.position == method.offset) = some method.definition := by
  have defined := definitions_program source
  refine find?_of_unique (by rw [defined]; exact List.mem_map_of_mem member) ?_ ?_
  · simpa [Method.definition] using label_method valid member
  · intro definition listed same
    rw [defined] at listed
    obtain ⟨other, there, rfl⟩ := List.mem_map.mp listed
    have same : Assembly.label source other.position = method.offset := eq_of_beq same
    rw [label_method valid there] at same
    rw [method_unique valid there member (.inr same)]

end

end ScopeMachine
