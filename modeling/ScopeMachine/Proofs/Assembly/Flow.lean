import ScopeMachine.Proofs.Assembly.Effect
import ScopeMachine.Proofs.Assembly.Layout

set_option autoImplicit false

/-!
# Control flow

From every cell control passes only to offsets where a cell stands. The depth recorded there is the
number of blocks that are open then, and in a well-shaped program the shape recorded there is the
shape of the stack. When only the operands are known to leave values, it is that of the top of the
stack.
-/

namespace ScopeMachine

namespace SlotKind

/-- Every entry of the second shape may stand where the first shape has its own. -/
def Covers : Shape → Shape → Prop
  | [], [] => True
  | wanted :: wants, found :: rest => wanted.accepts found = true ∧ Covers wants rest
  | _, _ => False

private theorem accepts_self (kind : SlotKind) : kind.accepts kind = true := by
  cases kind <;> rfl

theorem covers_self (shape : Shape) : Covers shape shape := by
  induction shape with
  | nil => trivial
  | cons kind rest ih => exact ⟨kind.accepts_self, ih⟩

private theorem accepts_trans {wanted middle found : SlotKind} (first : wanted.accepts middle = true)
    (second : middle.accepts found = true) : wanted.accepts found = true := by
  cases wanted <;> cases middle <;> cases found <;> simp_all [accepts]

/-- On top of the second shape every entry may stand where the first shape has its own. When the
first shape is complete, it covers all of the second. -/
def Bears (complete : Prop) : Shape → Shape → Prop
  | [], rest => complete → rest = []
  | wanted :: wants, found :: rest => wanted.accepts found = true ∧ Bears complete wants rest
  | _ :: _, [] => False

private theorem bears_self (complete : Prop) (shape : Shape) : Bears complete shape shape := by
  induction shape with
  | nil => exact fun _ => rfl
  | cons kind rest ih => exact ⟨kind.accepts_self, ih⟩

theorem Bears.trans {complete : Prop} {first second third : Shape}
    (upper : Bears complete first second) (lower : Bears complete second third) :
    Bears complete first third := by
  induction first generalizing second third with
  | nil =>
    intro total
    cases upper total
    exact lower total
  | cons kind rest ih =>
    match second, third with
    | [], _ => cases upper
    | _ :: _, [] => cases lower
    | _ :: _, _ :: _ => exact ⟨accepts_trans upper.1 lower.1, ih upper.2 lower.2⟩

theorem Bears.covers {complete : Prop} {wanted found : Shape} (bears : Bears complete wanted found)
    (total : complete) : Covers wanted found := by
  induction wanted generalizing found with
  | nil =>
    cases bears total
    trivial
  | cons kind rest ih =>
    match found with
    | [] => cases bears
    | _ :: _ => exact ⟨bears.1, ih bears.2⟩

end SlotKind

/-- The number of open blocks after a command. -/
def Command.depthAfter (command : Command) (depth : Nat) : Nat :=
  match command.opcode with
  | .enterLocal => depth + 1
  | .leaveLocal => depth - 1
  | _ => depth

namespace Assembly

open Command (Runs Straight)

/-- A command whose operand is valid: that of a straight command, a target, or the body of a
method. -/
def Legal (pools : Pools) (limit : Nat) (bodies : List Nat) (command : Command) : Prop :=
  match command.opcode with
  | .jump | .jumpIfFalse => True
  | .enterLocal | .leaveLocal => command.operand = 0
  | .bindSection => command.operand ∈ bodies
  | _ => command.Straight pools limit

/-- What the recorded shapes tell of the stack. -/
structure Rigor where
  /-- A shape is that of the top of the stack. -/
  counts : Prop
  /-- A shape is that of the whole stack above the mark. -/
  complete : Prop
  within : complete → counts

/-- Shapes tell all or nothing. -/
@[reducible] def Rigor.of (shaped : Prop) : Rigor :=
  ⟨shaped, shaped, id⟩

instance : Coe Prop Rigor :=
  ⟨Rigor.of⟩

/-- A program has the form that its shapes need. -/
structure Rigor.Suits (rigor : Rigor) (source : Program) : Prop where
  valued : rigor.counts → source.operandsYield = true
  shaped : rigor.complete → source.wellShaped = true

theorem Rigor.Suits.of {shaped : Prop} {source : Program}
    (shape : shaped → source.wellShaped = true) : (Rigor.of shaped).Suits source :=
  ⟨fun holds => Block.operandsYield_of_wellShaped source.main (shape holds), shape⟩

/-- A cell of the given depth stands at an offset. When shapes count, the given one bears its shape. -/
def Leads (rigor : Rigor) (code : List Cell) (offset depth : Nat) (shape : Shape) : Prop :=
  ∃ cell, Stands code offset cell ∧ cell.depth = depth
    ∧ (rigor.counts → SlotKind.Bears rigor.complete cell.shape shape)

/-- The definition of a method ends at an offset. -/
def Defined (code : List Cell) (offset : Nat) : Prop :=
  ∃ place cell, Stands code place cell ∧ cell.command.opcode = .defineMethod
    ∧ place + cell.command.width = offset

/-- All that a cell needs for a run to pass it. Jumps leave nothing on the stack, blocks are opened
and closed on an empty one, and a body is given to a method that was just defined. -/
structure Flows (pools : Pools) (limit : Nat) (bodies : List Nat) (rigor : Rigor) (code : List Cell)
    (offset : Nat) (cell : Cell) : Prop where
  legal : Legal pools limit bodies cell.command
  suits : rigor.counts → cell.command.suits cell.shape = true
  deep : cell.command.opcode = .leaveLocal → 0 < cell.depth ∧ cell.shape = []
  flat : cell.command.opcode = .enterLocal → cell.shape = []
  next : cell.command.opcode ≠ .jump → cell.command.opcode ≠ .return →
    Leads rigor code (offset + cell.command.width) (cell.command.depthAfter cell.depth)
      (cell.command.shapeAfter cell.shape)
  target : cell.command.opcode = .jump ∨ cell.command.opcode = .jumpIfFalse →
    Leads rigor code cell.command.operand cell.depth (cell.command.shapeAfter cell.shape)
  level : cell.command.opcode = .jump ∨ cell.command.opcode = .jumpIfFalse → rigor.counts →
    cell.command.shapeAfter cell.shape = []
  defined : cell.command.opcode = .bindSection → Defined code offset

/-- Consecutive cells that a run can pass. -/
def Flowing (pools : Pools) (limit : Nat) (bodies : List Nat) (rigor : Rigor) (code : List Cell) :
    Nat → List Cell → Prop
  | _, [] => True
  | offset, cell :: rest =>
    Flows pools limit bodies rigor code offset cell
      ∧ Flowing pools limit bodies rigor code (offset + cell.command.width) rest

section

variable {pools : Pools} {limit : Nat} {bodies : List Nat} {rigor : Rigor} {code : List Cell}

theorem Flowing.append {offset : Nat} {first second : List Cell}
    (before : Flowing pools limit bodies rigor code offset first)
    (next : Flowing pools limit bodies rigor code (offset + size first) second) :
    Flowing pools limit bodies rigor code offset (first ++ second) := by
  induction first generalizing offset with
  | nil => exact next
  | cons cell rest ih =>
    refine ⟨before.1, ih before.2 ?_⟩
    rwa [Nat.add_assoc, ← size_cons]

theorem Stands.leads {offset : Nat} {cell : Cell} (stands : Stands code offset cell) :
    Leads rigor code offset cell.depth cell.shape :=
  ⟨cell, stands, rfl, fun _ => SlotKind.bears_self rigor.complete cell.shape⟩

theorem Leads.congr {offset depth : Nat} {shape other : Shape}
    (leads : Leads rigor code offset depth shape) (same : rigor.counts → shape = other) :
    Leads rigor code offset depth other := by
  obtain ⟨cell, stands, deep, bears⟩ := leads
  exact ⟨cell, stands, deep, fun holds => same holds ▸ bears holds⟩

theorem Leads.weaken {offset depth : Nat} {shape other : Shape}
    (leads : Leads rigor code offset depth shape)
    (bears : rigor.counts → SlotKind.Bears rigor.complete shape other) :
    Leads rigor code offset depth other := by
  obtain ⟨cell, stands, deep, upper⟩ := leads
  exact ⟨cell, stands, deep, fun holds => (upper holds).trans (bears holds)⟩

/-- Where shapes are complete, the shape at a target covers the whole given one. -/
theorem Leads.covers {offset depth : Nat} {shape : Shape} (leads : Leads rigor code offset depth shape)
    (total : rigor.complete) :
    ∃ cell, Stands code offset cell ∧ cell.depth = depth ∧ SlotKind.Covers cell.shape shape := by
  obtain ⟨cell, stands, deep, bears⟩ := leads
  exact ⟨cell, stands, deep, (bears (rigor.within total)).covers total⟩

theorem Flowing.flows {offset : Nat} {cell : Cell} {cells : List Cell}
    (flowing : Flowing pools limit bodies rigor code offset cells)
    {place : Nat} (stands : Stands cells place cell) :
    Flows pools limit bodies rigor code (offset + place) cell := by
  obtain ⟨before, after, rfl, rfl⟩ := stands
  induction before generalizing offset with
  | nil => exact flowing.1
  | cons first rest ih =>
    have later := ih flowing.2
    rwa [size_cons, ← Nat.add_assoc]

/-! ## Straight code -/

theorem Straight.depthAfter {command : Command} (straight : command.Straight pools limit) (depth : Nat) :
    command.depthAfter depth = depth := by
  obtain ⟨opcode, operand⟩ := command
  cases opcode <;> first | rfl | cases straight

theorem Straight.legal {command : Command} (straight : command.Straight pools limit) :
    Legal pools limit bodies command := by
  obtain ⟨opcode, operand⟩ := command
  cases opcode <;> first | exact straight | cases straight

theorem Straight.opcode_ne {command : Command} (straight : command.Straight pools limit) :
    command.opcode ≠ .jump ∧ command.opcode ≠ .jumpIfFalse ∧ command.opcode ≠ .enterLocal
      ∧ command.opcode ≠ .leaveLocal ∧ command.opcode ≠ .bindSection := by
  refine ⟨?_, ?_, ?_, ?_, ?_⟩ <;> intro same <;> simp [Straight, same] at straight

/-- Straight commands pass control on to what stands behind them. -/
theorem flowing_straight {line : Option Nat} {depth offset : Nat} {shape last : Shape}
    {commands : List Command} (within : Within code offset (annotate line depth shape commands))
    (straight : ∀ command ∈ commands, command.Straight pools limit)
    (runs : rigor.counts → Runs shape commands last)
    (leads : Leads rigor code (offset + extent commands) depth last) :
    Flowing pools limit bodies rigor code offset (annotate line depth shape commands)
      ∧ Leads rigor code offset depth shape := by
  induction commands generalizing shape offset with
  | nil => exact ⟨trivial, leads.congr fun holds => (runs holds).symm⟩
  | cons command rest ih =>
    have own := straight command (.head _)
    obtain ⟨jump, branch, enter, leave, bind⟩ := Straight.opcode_ne own
    obtain ⟨flowing, behind⟩ := ih within.tail (fun other member => straight other (.tail _ member))
      (fun holds => (runs holds).2) (by rwa [Nat.add_assoc, ← extent_cons])
    refine ⟨⟨?_, flowing⟩, within.head.leads⟩
    exact
      { legal := Straight.legal own
        suits := fun holds => (runs holds).1
        deep := fun same => absurd same leave
        flat := fun same => absurd same enter
        next := fun _ _ => by rwa [Straight.depthAfter own]
        target := fun either => by cases either <;> contradiction
        level := fun either => by cases either <;> contradiction
        defined := fun same => absurd same bind }

private theorem runs_padding (target offset : Nat) (shape : Shape) :
    Runs shape (padding target offset) shape := by
  unfold padding
  induction placeholderWidth offset - (extensionCount target + 1) with
  | zero => rfl
  | succ count ih => exact ⟨rfl, ih⟩

theorem straight_padding (target offset : Nat) :
    ∀ command ∈ padding target offset, command.Straight pools limit := by
  intro command member
  obtain rfl := List.eq_of_mem_replicate member
  rfl

/-- The empty rest of a placeholder passes control on to what stands behind it. -/
theorem flowing_padding {line : Option Nat} {opcode : Opcode} {target depth offset : Nat}
    {shape : Shape} (fits : Fits target offset)
    (within : Within code (offset + (Command.mk opcode target).width)
      (annotate line depth shape (padding target offset)))
    (leads : Leads rigor code (offset + placeholderWidth offset) depth shape) :
    Flowing pools limit bodies rigor code (offset + (Command.mk opcode target).width)
        (annotate line depth shape (padding target offset))
      ∧ Leads rigor code (offset + (Command.mk opcode target).width) depth shape := by
  refine flowing_straight within (straight_padding target offset)
    (fun _ => runs_padding target offset shape) ?_
  have full : (Command.mk opcode target).width + extent (padding target offset)
      = placeholderWidth offset := extent_hole fits
  rwa [Nat.add_assoc, full]

/-- A filled placeholder passes control to its target and to what stands behind it. -/
theorem flowing_hole {line : Option Nat} {opcode : Opcode} {target depth offset : Nat}
    {shape last : Shape} (fits : Fits target offset)
    (within : Within code offset (annotate line depth shape (hole opcode target offset)))
    (legal : Legal pools limit bodies ⟨opcode, target⟩)
    (flat : opcode ≠ .enterLocal ∧ opcode ≠ .leaveLocal)
    (runs : rigor.counts → Runs shape [⟨opcode, target⟩] last)
    (leads : Leads rigor code (offset + placeholderWidth offset) depth last)
    (jumps : opcode = .jump ∨ opcode = .jumpIfFalse →
      Leads rigor code target depth last ∧ (rigor.counts → last = []))
    (defined : opcode = .bindSection → Defined code offset) :
    Flowing pools limit bodies rigor code offset
        (annotate line depth shape (hole opcode target offset))
      ∧ Leads rigor code offset depth shape := by
  have same : rigor.counts → (Command.mk opcode target).shapeAfter shape = last := fun holds =>
    (runs holds).2
  have level : (Command.mk opcode target).depthAfter depth = depth := by
    unfold Command.depthAfter
    split <;> simp_all
  obtain ⟨flowing, behind⟩ := flowing_padding fits within.tail
    (leads.congr fun holds => (same holds).symm)
  refine ⟨⟨?_, flowing⟩, within.head.leads⟩
  exact
    { legal
      suits := fun holds => (runs holds).1
      deep := fun leave => absurd leave flat.2
      flat := fun enter => absurd enter flat.1
      next := fun _ _ => by rwa [level]
      target := fun either => (jumps either).1.congr fun holds => (same holds).symm
      level := fun either holds => (same holds).trans ((jumps either).2 holds)
      defined }

/-! ## Where a segment can be entered -/

/-- The shape in front of the entries at a site: the body of a loop finds the condition. -/
def Site.shape (site : Site) : Shape :=
  match setting site.owner with
  | .loop _ => [.value]
  | _ => []

/-- The entries at a site have operands with values. When shapes are complete, the entries are
well-shaped and the owner of the site finds its body. -/
structure Suited (complete : Prop) (site : Site) (block : Block) : Prop where
  valued : Block.operandsYield block = true
  shaped : complete → Block.wellShaped block = true
  owned : complete → site.shape ≠ [] → Block.startsWithBlock block = true

/-- A segment can be entered at its start, and where jumps in front of it lead. -/
structure Entered (rigor : Rigor) (code : List Cell) (site : Site) (segment : Segment) : Prop where
  start : Leads rigor code site.start site.depth site.shape
  branch : site.shape = [] → Leads rigor code segment.branch site.depth []
  exit : site.shape = [] → Leads rigor code segment.exit site.depth []

private theorem shapes_of_runs {shape last : Shape} {commands : List Command}
    (runs : Runs shape commands last) : shapes shape commands = last := by
  induction commands generalizing shape with
  | nil => exact runs
  | cons command rest ih => exact ih runs.2

theorem straight_statement (sound : pools.Sound) {operation : Operation}
    (small : operation.nodes ≤ limit) {commands : List Command}
    (known : statement? pools operation = some commands) :
    ∀ command ∈ commands, command.Straight pools limit := by
  unfold statement? at known
  split at known
  · exact straight_definition sound small known
  · exact straight_operation sound operation small known

/-- The condition of a clause or a loop is one expression. -/
theorem runs_condition {operation : Operation} {commands : List Command}
    (known : operation? pools .value operation = some commands)
    (condition : operation.kind = .if ∨ operation.kind = .elseIf ∨ operation.kind = .while)
    (valued : operation.yields = true) : ∃ kind, kind ≠ .name ∧ Runs [] commands [kind] := by
  obtain leaf | ⟨-, operands⟩ := operation.yields_iff.mp valued
  · simp [leaf] at condition
  cases emitted known with
  | node listed ends =>
    obtain ⟨kinds, length, bindings, runs⟩ := runs_operations
      (fun operand _ => yields_operation operand) listed operands []
    rw [List.append_nil] at runs
    simp only at condition
    match kinds with
    | [kind] =>
      refine ⟨kind, bindings kind (.head _), runs.append ?_⟩
      rw [← length] at ends
      obtain rfl | rfl | rfl := condition <;> cases ends <;> rfl
    | [] | _ :: _ :: _ =>
      rw [← length] at ends
      obtain rfl | rfl | rfl := condition <;> cases ends
  | leaf | single | member | assign | call | otherwise => simp at condition

/-- The shape that the commands of a statement leave. -/
def Role.Leaves (last : Shape) : Role → Prop
  | .condition | .plain => ∃ kind, kind ≠ .name ∧ last = [kind]
  | .definition => ∃ kind, kind ≠ .name ∧ last = [.value, kind]
  | .bare => last = [] ∨ ∃ kind, kind ≠ .name ∧ last = [kind]

private theorem runs_statement {operation : Operation} {commands : List Command}
    (known : statement? pools operation = some commands)
    (valued : operation.kind ≠ .else → operation.yields = true) :
    ∃ last, Runs [] commands last ∧ (role operation.kind).Leaves last
      ∧ (operation.kind = .else → last = []) ∧ (operation.kind = .while → last ≠ []) := by
  unfold statement? at known
  cases kind : role operation.kind with
  | definition =>
    rw [kind] at known
    have defines := role_eq_definition.mp kind
    obtain leaf | ⟨-, operands⟩ := operation.yields_iff.mp (valued (by simp [defines]))
    · simp [defines] at leaf
    obtain ⟨target, binding, runs⟩ := runs_definition known operands []
    exact ⟨_, runs, ⟨target, binding, rfl⟩, by simp [defines], by simp⟩
  | condition =>
    rw [kind] at known
    have plain : operation.kind ≠ .else := by
      obtain same | same := role_eq_condition.mp kind <;> simp [same]
    obtain ⟨last, binding, runs⟩ := runs_condition known
      (or_assoc.mp (.inl (role_eq_condition.mp kind))) (valued plain)
    exact ⟨_, runs, ⟨last, binding, rfl⟩, fun same => absurd same plain, by simp⟩
  | bare =>
    rw [kind] at known
    obtain same | same := role_eq_bare.mp kind
    · obtain ⟨_, operands, value, line⟩ := operation
      cases same
      cases known
      exact ⟨[], rfl, .inl rfl, fun _ => rfl, by simp⟩
    · obtain ⟨last, binding, runs⟩ := runs_condition known (.inr (.inr same))
        (valued (by simp [same]))
      exact ⟨_, runs, .inr ⟨last, binding, rfl⟩, by simp [same], by simp⟩
  | plain =>
    rw [kind] at known
    have plain : operation.kind ≠ .else := by
      intro same
      simp [same, role] at kind
    obtain ⟨last, binding, runs⟩ := yields_operation operation known (valued plain) []
    exact ⟨_, runs, ⟨last, binding, rfl⟩, fun same => absurd same plain, by simp⟩

theorem Site.shape_next (site : Site) (operation : Operation) (commands : List Command) :
    (site.next operation commands).shape
      = if operation.kind = .while then [.value] else [] := by
  obtain ⟨kind, operands, value, line⟩ := operation
  cases kind <;> rfl

private theorem runs_pop {kind : SlotKind} (binding : kind ≠ .name) {command : Command}
    (takes : command.takes = [.value]) (gives : command.gives = []) (shape : Shape) :
    Runs (kind :: shape) [command] shape := by
  simp [Runs, Command.suits, Command.shapeAfter, takes, gives, SlotKind.offered,
    SlotKind.value_accepts binding]

section

variable {operation : Operation} {site : Site} {commands : List Command} {tail segment : Segment}
  (laid : StatementLaid code operation site commands tail segment)
  (entered : Entered rigor code (site.next operation commands) tail)

include laid entered

private theorem branch_flows (kind : role operation.kind = .condition)
    (leaves : rigor.counts → ∃ last, last ≠ .name ∧ shapes [] commands = [last]) :
    Flowing pools limit bodies rigor code (site.place commands)
        (annotate (some operation.line) site.depth (shapes [] commands)
          (hole .jumpIfFalse tail.branch (site.place commands)))
      ∧ Leads rigor code (site.place commands) site.depth (shapes [] commands) := by
  have shape : (site.next operation commands).shape = [] := by
    rw [Site.shape_next]
    obtain same | same := role_eq_condition.mp kind <;> simp [same]
  have fits : Fits tail.branch (site.place commands) := by simpa [kind, Role.Fits] using laid.fits
  have within := laid.suffix
  have start := entered.start
  rw [kind] at within
  rw [shape] at start
  simp only [Site.next, kind, Role.gap] at start
  refine flowing_hole fits within trivial (by simp) ?_ start
    (fun _ => ⟨entered.branch shape, fun _ => rfl⟩) (by simp)
  intro holds
  obtain ⟨last, binding, same⟩ := leaves holds
  rw [same]
  exact runs_pop binding rfl rfl []

omit entered in
theorem StatementLaid.defined (known : statement? pools operation = some commands)
    (kind : role operation.kind = .definition) : Defined code (site.place commands) := by
  simp only [statement?, kind] at known
  obtain ⟨front, count, rfl⟩ := definition?_ends known
  have own := laid.own
  rw [annotate_append] at own
  refine ⟨_, _, own.right.head, rfl, ?_⟩
  simp [Site.place, Nat.add_assoc]

omit laid in
/-- What a bare statement leaves is what the next entry finds. -/
theorem bare_leads (kind : role operation.kind = .bare)
    (leaves : rigor.counts → (role operation.kind).Leaves (shapes [] commands)
      ∧ (operation.kind = .else → shapes [] commands = [])
      ∧ (operation.kind = .while → shapes [] commands ≠ [])) :
    Leads rigor code (site.place commands) site.depth (shapes [] commands) := by
  have start := entered.start
  rw [Site.shape_next] at start
  simp only [Site.next, kind, Role.gap, Nat.add_zero] at start
  refine start.weaken fun holds => ?_
  obtain ⟨left, last, loop⟩ := leaves holds
  obtain same | same := role_eq_bare.mp kind
  · rw [last same, if_neg (by simp [same])]
    exact fun _ => rfl
  · rw [if_pos same]
    rw [kind] at left
    obtain empty | ⟨only, binding, found⟩ := left
    · exact absurd empty (loop same)
    · rw [found]
      exact ⟨SlotKind.value_accepts binding, fun _ => rfl⟩

private theorem ending_flows (kind : role operation.kind = .plain)
    (leaves : rigor.counts → ∃ last, last ≠ .name ∧ shapes [] commands = [last]) :
    Flowing pools limit bodies rigor code (site.place commands)
        (annotate (some operation.line) site.depth (shapes [] commands) [⟨.endStatement, 0⟩])
      ∧ Leads rigor code (site.place commands) site.depth (shapes [] commands) := by
  have shape : (site.next operation commands).shape = [] := by
    rw [Site.shape_next, if_neg]
    intro same
    simp [same, role] at kind
  have within := laid.suffix
  have start := entered.start
  rw [kind] at within
  rw [shape] at start
  simp only [Site.next, kind, Role.gap] at start
  refine flowing_straight within (by simp [Straight]) ?_ (by simpa [Site.after] using start)
  intro holds
  obtain ⟨last, binding, same⟩ := leaves holds
  rw [same]
  exact runs_pop binding rfl rfl []

/-- The place of a method's body, and the assignment of the method to its target. -/
theorem place_flows (known : statement? pools operation = some commands)
    (kind : role operation.kind = .definition) (body : tail.body ∈ bodies)
    (leaves : rigor.counts → ∃ last, last ≠ .name ∧ shapes [] commands = [.value, last]) :
    Flowing pools limit bodies rigor code (site.place commands)
        (annotate (some operation.line) site.depth (shapes [] commands)
          (hole .bindSection tail.body (site.place commands)
            ++ [⟨.assign, 0⟩, ⟨.endStatement, 0⟩]))
      ∧ Leads rigor code (site.place commands) site.depth (shapes [] commands) := by
  have shape : (site.next operation commands).shape = [] := by
    rw [Site.shape_next, if_neg]
    intro same
    simp [same, role] at kind
  have fits : Fits tail.body (site.place commands) := by
    have fits := laid.fits
    rw [kind] at fits
    exact fits.1
  have within := laid.suffix
  have start := entered.start
  rw [kind] at within
  rw [shape] at start
  simp only [Site.next, kind, Role.gap] at start
  simp only [Role.suffix, annotate_append] at within ⊢
  generalize placed : shapes (shapes [] commands)
    (hole .bindSection tail.body (site.place commands)) = middle at within ⊢
  have kept : rigor.counts → ∃ last, last ≠ .name ∧ shapes [] commands = [.value, last]
      ∧ middle = [.value, last] := by
    intro holds
    obtain ⟨last, binding, same⟩ := leaves holds
    refine ⟨last, binding, same, ?_⟩
    rw [← placed, same]
    exact shapes_of_runs ⟨rfl, runs_padding _ _ _⟩
  have behind := within.right
  rw [size_annotate, extent_hole fits] at behind
  have stop : Leads rigor code (site.place commands + placeholderWidth (site.place commands)
      + extent [⟨.assign, 0⟩, ⟨.endStatement, 0⟩]) site.depth [] := by
    simpa [Site.after, Nat.add_assoc] using start
  have assigned : Flowing pools limit bodies rigor code _ _ ∧ _ := flowing_straight behind
    (by simp [Straight])
    (fun holds => by
      obtain ⟨last, binding, -, same⟩ := kept holds
      rw [same]
      exact (runs_assign binding (by simp) []).append ⟨rfl, rfl⟩) stop
  obtain ⟨flowing, entry⟩ := flowing_hole fits within.left body (by simp)
    (fun holds => by
      obtain ⟨last, binding, before, after⟩ := kept holds
      rw [before, after]
      exact ⟨rfl, rfl⟩) assigned.2 (by simp) fun _ => laid.defined known kind
  refine ⟨flowing.append ?_, entry⟩
  rw [size_annotate, extent_hole fits]
  exact assigned.1

end

/-- A statement passes control through its commands to the entries that follow. -/
theorem statement_flows {operation : Operation} {site : Site} {commands : List Command}
    {tail segment : Segment} (sound : pools.Sound) (small : operation.nodes ≤ limit)
    (known : statement? pools operation = some commands)
    (laid : StatementLaid code operation site commands tail segment)
    (valued : rigor.counts → operation.kind ≠ .else → operation.yields = true)
    (entered : Entered rigor code (site.next operation commands) tail)
    (body : role operation.kind = .definition → tail.body ∈ bodies) :
    Flowing pools limit bodies rigor code site.start (annotate (some operation.line) site.depth []
        (commands ++ (role operation.kind).suffix tail (site.place commands)))
      ∧ Leads rigor code site.start site.depth [] := by
  have runs : rigor.counts → Runs [] commands (shapes [] commands)
      ∧ (role operation.kind).Leaves (shapes [] commands)
      ∧ (operation.kind = .else → shapes [] commands = [])
      ∧ (operation.kind = .while → shapes [] commands ≠ []) := by
    intro holds
    obtain ⟨last, runs, leaves⟩ := runs_statement known (valued holds)
    rw [shapes_of_runs runs]
    exact ⟨runs, leaves⟩
  have suffix : Flowing pools limit bodies rigor code (site.place commands)
        (annotate (some operation.line) site.depth (shapes [] commands)
          ((role operation.kind).suffix tail (site.place commands)))
      ∧ Leads rigor code (site.place commands) site.depth (shapes [] commands) := by
    cases kind : role operation.kind with
    | condition =>
      exact branch_flows laid entered kind fun holds => by
        simpa [kind, Role.Leaves] using (runs holds).2.1
    | bare => exact ⟨trivial, bare_leads entered kind fun holds => (runs holds).2⟩
    | definition =>
      exact place_flows laid entered known kind (body kind) fun holds => by
        simpa [kind, Role.Leaves] using (runs holds).2.1
    | plain =>
      exact ending_flows laid entered kind fun holds => by
        simpa [kind, Role.Leaves] using (runs holds).2.1
  obtain ⟨flowing, leads⟩ := flowing_straight laid.own (straight_statement sound small known)
    (fun holds => (runs holds).1) suffix.2
  rw [annotate_append]
  refine ⟨flowing.append ?_, leads⟩
  rw [size_annotate]
  exact suffix.1

/-! ## Segments -/

section

variable {complete : Prop} {site : Site} {operation : Operation} {body rest : Block}

theorem Suited.statement (suited : Suited complete site (.statement operation :: rest)) :
    operation.kind ≠ .else → operation.yields = true := by
  have valued := suited.valued
  simp only [Block.operandsYield, Entry.operandsYield, Bool.and_eq_true, Bool.or_eq_true,
    beq_iff_eq] at valued
  exact fun other => valued.1.resolve_left other

/-- Where no body stands, none is waited for. -/
theorem Suited.bears {block : Block} (suited : Suited complete site block)
    (bare : Block.startsWithBlock block = false) : SlotKind.Bears complete [] site.shape := by
  intro total
  cases shape : site.shape with
  | nil => rfl
  | cons =>
    rw [suited.owned total (by simp [shape])] at bare
    cases bare

theorem Suited.next (suited : Suited complete site (.statement operation :: rest))
    (commands : List Command) : Suited complete (site.next operation commands) rest := by
  have valued := suited.valued
  have shaped := suited.shaped
  simp only [Block.operandsYield, Bool.and_eq_true] at valued
  simp only [Block.wellShaped, Bool.and_eq_true, Bool.or_eq_true, Bool.not_eq_true'] at shaped
  refine ⟨valued.2, fun total => (shaped total).2, fun total other => ?_⟩
  rw [Site.shape_next] at other
  obtain plain | owned := (shaped total).1.2
  · split at other
    case isTrue loop => simp [loop, Kind.isConditionalJump] at plain
    case isFalse => contradiction
  · exact owned

theorem Suited.past (suited : Suited complete site (.block body :: rest)) (block : Segment)
    (start : Nat) : Suited complete (site.past block start) rest := by
  have valued := suited.valued
  have shaped := suited.shaped
  simp only [Block.operandsYield, Bool.and_eq_true] at valued
  simp only [Block.wellShaped, Bool.and_eq_true] at shaped
  exact ⟨valued.2, fun total => (shaped total).2, fun _ other => absurd rfl other⟩

theorem Suited.inside (suited : Suited complete site (.block body :: rest)) (start depth : Nat) :
    Suited complete (site.inside start depth) body := by
  have valued := suited.valued
  have shaped := suited.shaped
  simp only [Block.operandsYield, Entry.operandsYield, Bool.and_eq_true] at valued
  simp only [Block.wellShaped, Entry.wellShaped, Bool.and_eq_true] at shaped
  exact ⟨valued.1, fun total => (shaped total).1, fun _ other => absurd rfl other⟩

end

/-- Entries can be entered where control may come from, when their end can be. -/
theorem entered_entries (sound : pools.Sound) (block : Block) {site : Site}
    (suited : rigor.counts → Suited rigor.complete site block)
    (within : Within code site.start (entries pools block site).cells)
    (valid : (entries pools block site).valid)
    (stop : Leads rigor code (site.start + size (entries pools block site).cells) site.depth []) :
    Entered rigor code site (entries pools block site) := by
  induction block using Block.induction generalizing site with
  | nil =>
    have here : Leads rigor code site.start site.depth [] := stop
    exact ⟨here.weaken fun holds => (suited holds).bears rfl, fun _ => here, fun _ => here⟩
  | statement operation rest ih =>
    simp only [entries, entry] at within valid stop ⊢
    obtain ⟨commands, known, laid⟩ := statementLaid within valid
    have entered := ih (fun holds => (suited holds).next commands) laid.rest laid.valid
      (laid.stop ▸ stop)
    obtain ⟨-, start⟩ : Flowing pools operation.nodes [_] rigor code _ _ ∧ _ :=
      statement_flows sound (Nat.le_refl _) known laid (fun holds => (suited holds).statement)
        entered fun _ => .head _
    rw [laid.equal]
    refine ⟨start.weaken fun holds => (suited holds).bears rfl, fun _ => start, fun _ => ?_⟩
    simp only [Segment.statement]
    split
    case isTrue continues =>
      refine entered.exit ?_
      rw [Site.shape_next, if_neg]
      intro loop
      simp [loop, Kind.continuesIfChain] at continues
    case isFalse => exact start
  | block body rest inner later =>
    simp only [entries, entry, Assembly.block] at within valid stop ⊢
    cases kind : setting site.owner with
    | loop condition =>
      simp only [kind] at within valid stop ⊢
      obtain ⟨enter, segment, leave, last, tail, -, -, -, -, -, fits, laid⟩ :=
        loop_laid within valid
      have shape : site.shape = [.value] := by simp [Site.shape, kind]
      refine ⟨?_, by simp [shape], by simp [shape]⟩
      rw [shape]
      exact laid.opening.head.leads
    | method =>
      simp only [kind] at within valid stop ⊢
      obtain ⟨first, segment, leave, last, tail, -, -, -, -, -, fits, laid⟩ :=
        method_laid within valid
      have shape : site.shape = [] := by simp [Site.shape, kind]
      have start : Leads rigor code site.start site.depth [] := laid.opening.head.leads
      exact ⟨shape ▸ start, fun _ => start, fun _ => start⟩
    | arm =>
      simp only [kind] at within valid stop ⊢
      obtain ⟨_, _, _, rfl, rfl, rfl, -, laid⟩ := arm_laid within valid
      have shape : site.shape = [] := by simp [Site.shape, kind]
      have start : Leads rigor code site.start site.depth [] := laid.opening.head.leads
      have entered := later (fun holds => (suited holds).past _ _) laid.rest laid.follows
        (laid.ends ▸ stop)
      exact ⟨shape ▸ start, fun _ => entered.branch rfl, fun _ => entered.exit rfl⟩
    | last =>
      simp only [kind] at within valid stop ⊢
      obtain ⟨_, _, _, rfl, rfl, rfl, laid⟩ := nested_laid within valid
      have shape : site.shape = [] := by simp [Site.shape, kind]
      have start : Leads rigor code site.start site.depth [] := laid.opening.head.leads
      have entered := later (fun holds => (suited holds).past _ _) laid.rest laid.follows
        (laid.ends ▸ stop)
      exact ⟨shape ▸ start, fun _ => entered.branch rfl, fun _ => entered.exit rfl⟩
    | free =>
      simp only [kind] at within valid stop ⊢
      obtain ⟨_, _, _, -, -, -, laid⟩ := nested_laid within valid
      have shape : site.shape = [] := by simp [Site.shape, kind]
      have start : Leads rigor code site.start site.depth [] := laid.opening.head.leads
      exact ⟨shape ▸ start, fun _ => start, fun _ => start⟩

/-! ## Cells around blocks -/

private theorem enter_flows {site : Site} {offset : Nat}
    (leads : Leads rigor code (offset + 1) (site.depth + 1) []) :
    Flows pools limit bodies rigor code offset (site.cell .enterLocal 0) where
  legal := rfl
  suits _ := rfl
  deep same := by cases same
  flat _ := rfl
  next _ _ := by simpa [Site.cell, Command.depthAfter, Command.shapeAfter, Command.gives,
    Command.takes] using leads
  target either := by cases either <;> contradiction
  level either := by cases either <;> contradiction
  defined same := by cases same

private theorem leave_flows {line : Option Nat} {depth offset : Nat}
    (leads : Leads rigor code (offset + 1) depth []) :
    Flows pools limit bodies rigor code offset ⟨⟨.leaveLocal, 0⟩, line, depth + 1, []⟩ where
  legal := rfl
  suits _ := rfl
  deep _ := ⟨Nat.succ_pos depth, rfl⟩
  flat same := by cases same
  next _ _ := by simpa [Command.depthAfter, Command.shapeAfter, Command.gives,
    Command.takes] using leads
  target either := by cases either <;> contradiction
  level either := by cases either <;> contradiction
  defined same := by cases same

private theorem jump_flows {line : Option Nat} {depth target offset : Nat}
    (leads : Leads rigor code target depth []) :
    Flows pools limit bodies rigor code offset ⟨⟨.jump, target⟩, line, depth, []⟩ where
  legal := trivial
  suits _ := rfl
  deep same := by cases same
  flat same := by cases same
  next jump := absurd rfl jump
  target _ := leads
  level _ _ := rfl
  defined same := by cases same

private theorem return_flows {line : Option Nat} {offset : Nat} :
    Flows pools limit bodies rigor code offset ⟨⟨.return, 0⟩, line, 0, []⟩ where
  legal := Nat.zero_le 1
  suits _ := rfl
  deep same := by cases same
  flat same := by cases same
  next _ stop := absurd rfl stop
  target either := by cases either <;> contradiction
  level either := by cases either <;> contradiction
  defined same := by cases same

/-! ## All cells -/

/-- The body of a method that stands in front of a segment is the first one of the segment. -/
theorem body_of_entries (pools : Pools) (block : Block) (site : Site) :
    (entries pools block site).body = 0
      ∨ ∃ method ∈ (entries pools block site).methods,
        method.offset = (entries pools block site).body := by
  match block with
  | [] => exact .inl rfl
  | .statement _ :: _ => exact .inl rfl
  | .block _ :: _ =>
    simp only [entries, entry, Assembly.block]
    cases setting site.owner with
    | method => exact .inr ⟨_, .head _, rfl⟩
    | loop | arm | last | free => exact .inl rfl

/-- The offset that a false branch in front of entries waits for is their start, unless they begin
with the body of a clause. -/
theorem branch_entries {pools : Pools} {block : Block} {site : Site}
    (free : Block.startsWithBlock block = true → setting site.owner = .free) :
    (entries pools block site).branch = site.start := by
  cases block with
  | nil => rfl
  | cons entry rest =>
    cases entry with
    | statement operation => rfl
    | block body =>
      have owner := free rfl
      simp [entries, Assembly.entry, Assembly.block, owner, nested, Segment.around]

/-- The offset of a loop's condition at the site of its body. -/
def Site.Loops (rigor : Rigor) (code : List Cell) (site : Site) : Prop :=
  ∀ condition, setting site.owner = .loop condition → Leads rigor code condition site.depth []

private theorem Site.loops_next {site : Site} {operation : Operation} {commands : List Command}
    (start : Leads rigor code site.start site.depth []) :
    (site.next operation commands).Loops rigor code := by
  intro condition loop
  obtain ⟨kind, operands, value, line⟩ := operation
  cases kind <;> cases loop
  exact start

private theorem Site.loops_inside (site : Site) (start depth : Nat) :
    (site.inside start depth).Loops rigor code := by
  intro condition loop
  cases loop

private theorem Site.loops_past (site : Site) (segment : Segment) (start : Nat) :
    (site.past segment start).Loops rigor code := by
  intro condition loop
  cases loop

private theorem BlockLaid.flowing {site : Site} {front behind : List Cell} {block tail segment : Segment}
    {first leave stop : Nat}
    (laid : BlockLaid code site front first block leave behind stop tail segment)
    (opening : Flowing pools limit bodies rigor code site.start front)
    (inside : Flowing pools limit bodies rigor code first block.cells)
    (closing : Flowing pools limit bodies rigor code leave behind)
    (follows : Flowing pools limit bodies rigor code stop tail.cells) :
    Flowing pools limit bodies rigor code site.start segment.cells := by
  rw [laid.cells]
  refine opening.append ?_
  rw [laid.first_eq]
  refine inside.append ?_
  rw [laid.leave_eq]
  refine closing.append ?_
  rwa [laid.stop_eq]

/-- A run can pass all cells of entries, when it can pass their end. Where a statement starts, the
stack is empty. -/
theorem flowing_entries (sound : pools.Sound) (block : Block) {site : Site}
    (small : Block.nodes block ≤ limit) (suited : rigor.counts → Suited rigor.complete site block)
    (within : Within code site.start (entries pools block site).cells)
    (valid : (entries pools block site).valid)
    (methods : ∀ method ∈ (entries pools block site).methods, method.offset ∈ bodies)
    (loops : site.Loops rigor code)
    (stop : Leads rigor code (site.start + size (entries pools block site).cells) site.depth []) :
    Flowing pools limit bodies rigor code site.start (entries pools block site).cells
      ∧ ∀ mark ∈ (entries pools block site).marks,
        ∃ depth, Leads rigor code mark.offset depth [] := by
  induction block using Block.induction generalizing site with
  | nil => exact ⟨trivial, fun mark member => by cases member⟩
  | statement operation rest ih =>
    simp only [entries, entry] at within valid methods stop ⊢
    rw [Block.nodes, Entry.nodes] at small
    obtain ⟨commands, known, laid⟩ := statementLaid within valid
    rw [laid.stop] at stop
    have entered := entered_entries sound rest (fun holds => (suited holds).next commands) laid.rest
      laid.valid stop
    have body : role operation.kind = .definition →
        (entries pools rest (site.next operation commands)).body ∈ bodies := by
      intro kind
      have bound := laid.fits
      rw [kind] at bound
      obtain zero | ⟨method, member, same⟩ :=
        body_of_entries pools rest (site.next operation commands)
      · exact absurd zero bound.2
      · rw [← same]
        exact methods method (by rwa [laid.equal])
    have fits : operation.nodes ≤ limit := by omega
    obtain ⟨own, start⟩ := statement_flows sound fits known laid
      (fun holds => (suited holds).statement) entered body
    have later := ih (by omega) (fun holds => (suited holds).next commands) laid.rest laid.valid
      (fun method member => methods method (by rwa [laid.equal])) (Site.loops_next start) stop
    rw [laid.equal]
    refine ⟨own.append ?_, fun mark member => ?_⟩
    · have gap := Role.extent_suffix laid.fits
      rw [size_annotate, extent_append, gap, ← Nat.add_assoc]
      exact later.1
    · cases member with
      | head => exact ⟨site.depth, start⟩
      | tail _ member => exact later.2 mark member
  | block body rest inner later =>
    simp only [entries, entry, Assembly.block] at within valid methods stop ⊢
    rw [Block.nodes, Entry.nodes] at small
    -- In every setting the entries inside and behind are passed by induction; what is left is the
    -- code that opens and closes the block.
    have parts {front behind : List Cell} {first depth leave last : Nat} {segment : Segment}
        (laid : BlockLaid code site front first (entries pools body (site.inside first depth)) leave
          behind last (entries pools rest
            (site.past (entries pools body (site.inside first depth)) last)) segment)
        (methods : ∀ method ∈ (entries pools body (site.inside first depth)).methods
          ++ (entries pools rest (site.past (entries pools body (site.inside first depth))
            last)).methods, method.offset ∈ bodies)
        (stop : Leads rigor code (site.start + size segment.cells) site.depth [])
        (leaves : Leads rigor code leave depth [])
        (opening : Leads rigor code first depth [] → Leads rigor code last site.depth [] →
          Flowing pools limit bodies rigor code site.start front)
        (closing : Entered rigor code (site.past (entries pools body (site.inside first depth))
            last) (entries pools rest (site.past (entries pools body (site.inside first depth))
            last)) → Flowing pools limit bodies rigor code leave behind) :
        Flowing pools limit bodies rigor code site.start segment.cells
          ∧ ∀ mark ∈ (entries pools body (site.inside first depth)).marks
            ++ (entries pools rest (site.past (entries pools body (site.inside first depth))
              last)).marks, ∃ depth, Leads rigor code mark.offset depth [] := by
      have suitedInside := fun holds => (suited holds).inside first depth
      have suitedPast := fun holds =>
        (suited holds).past (entries pools body (site.inside first depth)) last
      rw [← laid.leave_eq] at leaves
      rw [laid.ends] at stop
      have enteredInside := entered_entries sound body suitedInside laid.entries laid.inside leaves
      have enteredPast := entered_entries sound rest suitedPast laid.rest laid.follows stop
      have flowingInside := inner (by omega) suitedInside laid.entries laid.inside
        (fun method member => methods method (List.mem_append_left _ member))
        (Site.loops_inside site first depth) leaves
      have flowingPast := later (by omega) suitedPast laid.rest laid.follows
        (fun method member => methods method (List.mem_append_right _ member))
        (Site.loops_past site _ last) stop
      refine ⟨laid.flowing (opening enteredInside.start enteredPast.start) flowingInside.1
        (closing enteredPast) flowingPast.1, fun mark member => ?_⟩
      obtain member | member := List.mem_append.mp member
      · exact flowingInside.2 mark member
      · exact flowingPast.2 mark member
    cases kind : setting site.owner with
    | loop condition =>
      simp only [kind] at within valid methods stop ⊢
      obtain ⟨_, _, _, _, _, rfl, rfl, rfl, rfl, rfl, fits, laid⟩ := loop_laid within valid
      refine parts laid methods stop laid.closing.head.leads ?_ ?_
      · intro first last
        have enter := laid.opening.right.head
        rw [size_annotate, extent_hole fits] at enter
        have waits : Flowing pools limit bodies rigor code _ _ ∧ _ := flowing_hole fits laid.opening.left trivial (by simp)
          (fun _ => ⟨rfl, rfl⟩) enter.leads (fun _ => ⟨last, fun _ => rfl⟩) (by simp)
        refine waits.1.append ⟨?_, trivial⟩
        rw [size_annotate, extent_hole fits]
        exact enter_flows first
      · intro entered
        exact ⟨leave_flows laid.closing.step.head.leads, jump_flows (loops condition kind), trivial⟩
    | method =>
      simp only [kind] at within valid methods stop ⊢
      obtain ⟨_, _, _, _, _, rfl, rfl, rfl, rfl, rfl, fits, laid⟩ := method_laid within valid
      refine parts laid (fun method member => methods method (.tail _ member)) stop
        laid.closing.head.leads ?_ ?_
      · intro first last
        have rest : Flowing pools limit bodies rigor code _ _ ∧ _ := flowing_padding fits laid.opening.tail first
        exact ⟨jump_flows last, rest.1⟩
      · intro entered
        exact ⟨return_flows, trivial⟩
    | arm =>
      simp only [kind] at within valid methods stop ⊢
      obtain ⟨_, _, _, rfl, rfl, rfl, fits, laid⟩ := arm_laid within valid
      refine parts laid methods stop laid.closing.head.leads ?_ ?_
      · intro first last
        exact ⟨enter_flows first, trivial⟩
      · intro entered
        have exits : Flowing pools limit bodies rigor code _ _ ∧ _ := flowing_hole fits laid.closing.step trivial (by simp)
          (fun _ => ⟨rfl, rfl⟩) entered.start (fun _ => ⟨entered.exit rfl, fun _ => rfl⟩) (by simp)
        exact ⟨leave_flows exits.2, by simpa only [Command.width_zero] using exits.1⟩
    | last | free =>
      simp only [kind] at within valid methods stop ⊢
      obtain ⟨_, _, _, rfl, rfl, rfl, laid⟩ := nested_laid within valid
      refine parts laid methods stop laid.closing.head.leads ?_ ?_
      · intro first last
        exact ⟨enter_flows first, trivial⟩
      · intro entered
        exact ⟨leave_flows entered.start, trivial⟩

/-! ## Methods -/

def Method.site (method : Method) : Site :=
  { start := method.offset, line := method.line, position := method.position }

/-- The body of a method stands in the code, and a return behind it. -/
structure Method.Laid (pools : Pools) (rigor : Rigor) (code : List Cell) (method : Method) :
    Prop where
  suited : rigor.counts → Suited rigor.complete method.site method.body
  valid : (entries pools method.body method.site).valid
  within : Within code method.offset ((entries pools method.body method.site).cells
    ++ [⟨⟨.return, 0⟩, (entries pools method.body method.site).line, 0, []⟩])

private theorem methods_laid (block : Block) {site : Site} (suited : rigor.counts → Suited rigor.complete site block)
    (within : Within code site.start (entries pools block site).cells)
    (valid : (entries pools block site).valid) :
    ∀ method ∈ (entries pools block site).methods, method.Laid pools rigor code := by
  induction block using Block.induction generalizing site with
  | nil =>
    intro method member
    cases member
  | statement operation rest ih =>
    simp only [entries, entry] at within valid ⊢
    obtain ⟨commands, -, laid⟩ := statementLaid within valid
    rw [laid.equal]
    exact ih (fun holds => (suited holds).next commands) laid.rest laid.valid
  | block body rest inner later =>
    simp only [entries, entry, Assembly.block] at within valid ⊢
    have parts {front behind : List Cell} {first depth leave last : Nat} {segment : Segment}
        (laid : BlockLaid code site front first (entries pools body (site.inside first depth)) leave
          behind last (entries pools rest
            (site.past (entries pools body (site.inside first depth)) last)) segment) :
        ∀ method ∈ (entries pools body (site.inside first depth)).methods
          ++ (entries pools rest (site.past (entries pools body (site.inside first depth))
            last)).methods, method.Laid pools rigor code := by
      intro method member
      obtain member | member := List.mem_append.mp member
      · exact inner (fun holds => (suited holds).inside first depth) laid.entries laid.inside
          method member
      · exact later (fun holds => (suited holds).past _ _) laid.rest laid.follows method member
    cases kind : setting site.owner with
    | loop condition =>
      simp only [kind] at within valid ⊢
      obtain ⟨_, _, _, _, _, rfl, rfl, rfl, rfl, rfl, -, laid⟩ := loop_laid within valid
      exact parts laid
    | method =>
      simp only [kind] at within valid ⊢
      obtain ⟨_, _, _, _, _, rfl, rfl, rfl, rfl, rfl, -, laid⟩ := method_laid within valid
      intro method member
      cases member with
      | tail _ member => exact parts laid method member
      | head =>
        exact
          { suited := fun holds => (suited holds).inside _ 0
            valid := laid.inside
            within := laid.closed within }
    | arm =>
      simp only [kind] at within valid ⊢
      obtain ⟨_, _, _, rfl, rfl, rfl, -, laid⟩ := arm_laid within valid
      exact parts laid
    | last | free =>
      simp only [kind] at within valid ⊢
      obtain ⟨_, _, _, rfl, rfl, rfl, laid⟩ := nested_laid within valid
      exact parts laid

theorem Method.Laid.leads {method : Method} (sound : pools.Sound)
    (laid : method.Laid pools rigor code) : Leads rigor code method.offset 0 [] := by
  have entered := entered_entries sound method.body laid.suited laid.within.left laid.valid
    laid.within.right.head.leads
  exact entered.start

end

/-! ## Programs -/

/-- The offsets of the bodies of all methods. -/
def bodies (source : Program) : List Nat :=
  (program source).methods.map (·.offset)

/-- What the body of a binding can be: zero for none, or the body of a method. -/
def sections (source : Program) : List Nat :=
  0 :: bodies source

theorem within_image (source : Program) : Within (image source) 0 (image source) :=
  ⟨[], [], by simp, rfl⟩

section

variable {source : Program} {rigor : Rigor} (suits : rigor.Suits source)
  (valid : (program source).valid)

include suits

private theorem suited_program (holds : rigor.counts) : Suited rigor.complete {} source.main :=
  ⟨suits.valued holds, suits.shaped, fun _ other => absurd rfl other⟩

include valid

/-- A run can pass all cells of a program, and the stack is empty where a statement starts. -/
theorem flowing_image :
    Flowing (Pools.ofProgram source) source.nodes (bodies source) rigor (image source) 0
        (image source)
      ∧ ∀ mark ∈ (program source).marks,
        ∃ depth, Leads rigor (image source) mark.offset depth [] := by
  have last := (within_image source).right.head
  obtain ⟨flowing, marks⟩ := flowing_entries (Pools.sound_ofProgram source) source.main
    (Nat.le_refl source.nodes) (suited_program suits) (within_image source).left valid
    (fun method member => List.mem_map_of_mem member) (fun condition loop => by cases loop)
    last.leads
  exact ⟨Flowing.append flowing ⟨return_flows, trivial⟩, marks⟩

theorem Rigor.Suits.flows {offset : Nat} {cell : Cell} (stands : Stands (image source) offset cell) :
    Flows (Pools.ofProgram source) source.nodes (bodies source) rigor (image source) offset cell := by
  have flows := (flowing_image suits valid).1.flows stands
  rwa [Nat.zero_add] at flows

/-- A program starts at a cell. -/
theorem leads_image : Leads rigor (image source) 0 0 [] := by
  have last := (within_image source).right.head
  have entered := entered_entries (Pools.sound_ofProgram source) source.main (suited_program suits)
    (within_image source).left valid last.leads
  exact entered.start

/-- The body of every method stands in the code of a program. -/
theorem methods_image :
    ∀ method ∈ (program source).methods,
      method.Laid (Pools.ofProgram source) rigor (image source) :=
  methods_laid source.main (suited_program suits) (within_image source).left valid

/-- Every body starts at a cell. -/
theorem leads_sections {body : Nat} (member : body ∈ sections source) (bound : body ≠ 0) :
    Leads rigor (image source) body 0 [] := by
  cases member with
  | head => contradiction
  | tail _ member =>
    obtain ⟨method, listed, rfl⟩ := List.mem_map.mp member
    exact (methods_image suits valid method listed).leads (Pools.sound_ofProgram source)

end

end Assembly

end ScopeMachine
