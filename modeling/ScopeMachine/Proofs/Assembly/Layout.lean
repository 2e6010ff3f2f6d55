import ScopeMachine.Proofs.Assembly.Segment

set_option autoImplicit false

/-!
# Places in code

Where cells stand in code, and which instructions are found there.
-/

namespace ScopeMachine.Assembly

/-! ## Sizes -/

@[simp] theorem size_nil : size [] = 0 :=
  rfl

@[simp] theorem size_cons (cell : Cell) (rest : List Cell) :
    size (cell :: rest) = cell.command.width + size rest :=
  rfl

@[simp] theorem size_append (first second : List Cell) :
    size (first ++ second) = size first + size second := by
  induction first with
  | nil => simp
  | cons cell rest ih => simp [ih, Nat.add_assoc]

@[simp] theorem size_annotate (line : Option Nat) (depth : Nat) (shape : Shape)
    (commands : List Command) : size (annotate line depth shape commands) = extent commands := by
  induction commands generalizing shape with
  | nil => rfl
  | cons command rest ih => simp [annotate, ih]

private theorem extent_replicate_nop (count : Nat) : extent (List.replicate count ⟨.nop, 0⟩) = count := by
  induction count with
  | zero => rfl
  | succ count ih => simp [List.replicate_succ, ih, Nat.add_comm]

/-- A jump that fits its placeholder fills it exactly. -/
theorem extent_hole {opcode : Opcode} {target offset : Nat} (fits : Fits target offset) :
    extent (hole opcode target offset) = placeholderWidth offset := by
  unfold Fits at fits
  simp only [hole, padding, extent_cons, extent_replicate_nop, Command.width]
  omega

/-! ## Slots -/

@[simp] theorem slots_nil : slots [] = [] :=
  rfl

@[simp] theorem slots_cons (cell : Cell) (rest : List Cell) :
    slots (cell :: rest) = cell.command.slots ++ slots rest :=
  rfl

@[simp] theorem slots_append (first second : List Cell) :
    slots (first ++ second) = slots first ++ slots second := by
  simp [slots]

@[simp] theorem slots_annotate (line : Option Nat) (depth : Nat) (shape : Shape) (commands : List Command) :
    slots (annotate line depth shape commands)
      = commands.flatMap Command.slots := by
  induction commands generalizing shape with
  | nil => rfl
  | cons command rest ih => simp [annotate, ih]

theorem map_command_annotate (line : Option Nat) (depth : Nat) (shape : Shape)
    (commands : List Command) : (annotate line depth shape commands).map (·.command) = commands := by
  induction commands generalizing shape with
  | nil => rfl
  | cons command rest ih => rw [annotate, List.map_cons, ih]

theorem length_slots (cells : List Cell) : (slots cells).length = size cells := by
  induction cells with
  | nil => rfl
  | cons cell rest ih => simp [ih]

/-! ## Places -/

/-- Some cells stand in the code from an offset on. -/
def Within (code : List Cell) (start : Nat) (part : List Cell) : Prop :=
  ∃ before after, code = before ++ (part ++ after) ∧ size before = start

/-- A cell stands in the code at an offset. -/
def Stands (code : List Cell) (offset : Nat) (cell : Cell) : Prop :=
  Within code offset [cell]

section

variable {code first second : List Cell} {cell : Cell} {start offset : Nat}

theorem Within.left (within : Within code start (first ++ second)) : Within code start first := by
  obtain ⟨before, after, rfl, size⟩ := within
  exact ⟨before, second ++ after, by simp, size⟩

theorem Within.right (within : Within code start (first ++ second)) :
    Within code (start + Assembly.size first) second := by
  obtain ⟨before, after, rfl, size⟩ := within
  exact ⟨before ++ first, after, by simp, by simp [size]⟩

theorem Within.head (within : Within code start (cell :: second)) : Stands code start cell :=
  Within.left (show Within code start ([cell] ++ second) from within)

theorem Within.tail (within : Within code start (cell :: second)) :
    Within code (start + cell.command.width) second := by
  have behind := Within.right (show Within code start ([cell] ++ second) from within)
  simpa using behind

theorem Within.step {opcode : Opcode} {line : Option Nat} {depth : Nat} {shape : Shape}
    (within : Within code start (⟨⟨opcode, 0⟩, line, depth, shape⟩ :: second)) :
    Within code (start + 1) second := by
  simpa using within.tail

/-- A cell of a part stands in the code within the bounds of the part. -/
theorem Within.stands_of_mem (within : Within code start second) (member : cell ∈ second) :
    ∃ offset, start ≤ offset ∧ offset + cell.command.width ≤ start + Assembly.size second
      ∧ Stands code offset cell := by
  obtain ⟨front, behind, rfl⟩ := List.append_of_mem member
  refine ⟨start + Assembly.size front, by omega, ?_, within.right.head⟩
  simp only [size_append, size_cons]
  omega

end

theorem Stands.getElem? {code : List Cell} {cell : Cell} {offset index : Nat}
    (stands : Stands code offset cell) (inside : index < cell.command.width) :
    (slots code)[offset + index]? = cell.command.slots[index]? := by
  obtain ⟨before, after, rfl, size⟩ := stands
  have front : (slots before).length = offset := by rw [length_slots, size]
  have parts : slots (before ++ ([cell] ++ after))
      = slots before ++ (cell.command.slots ++ slots after) := by
    simp
  rw [parts, List.getElem?_append_right (by omega), front, Nat.add_sub_cancel_left,
    List.getElem?_append_left (by simpa using inside)]

theorem Stands.lt_size {code : List Cell} {cell : Cell} {offset : Nat}
    (stands : Stands code offset cell) : offset + cell.command.width ≤ size code := by
  obtain ⟨before, after, rfl, size⟩ := stands
  simp only [size_append, size_cons, size_nil]
  omega

/-- Cells do not overlap. -/
theorem Stands.unique {code : List Cell} {cell other : Cell} {offset place : Nat}
    (stands : Stands code offset cell) (there : Stands code place other) (behind : offset ≤ place)
    (inside : place < offset + cell.command.width) : place = offset ∧ other = cell := by
  obtain ⟨before, after, parts, rfl⟩ := stands
  obtain ⟨front, back, parts', rfl⟩ := there
  obtain ⟨middle, rfl, rest⟩ | ⟨middle, rfl, rest⟩ := List.append_eq_append_iff.mp (parts ▸ parts')
  · cases middle with
    | nil => simp_all
    | cons head middle =>
      simp only [List.cons_append, List.nil_append, List.cons.injEq] at rest
      simp only [size_append, size_cons, ← rest.1] at inside
      omega
  · cases middle with
    | nil => simp_all
    | cons head middle =>
      have wide := head.command.width_pos
      simp only [size_append, size_cons] at behind
      omega

/-! ## The layout of statements -/

def shapes (shape : Shape) (commands : List Command) : Shape :=
  commands.foldl (fun shape command => command.shapeAfter shape) shape

theorem annotate_append (line : Option Nat) (depth : Nat) (shape : Shape)
    (first second : List Command) :
    annotate line depth shape (first ++ second)
      = annotate line depth shape first ++ annotate line depth (shapes shape first) second := by
  induction first generalizing shape with
  | nil => rfl
  | cons command rest ih => simp [annotate, shapes, ih]

theorem Role.extent_suffix {kind : Role} {tail : Segment} {place : Nat}
    (fits : kind.Fits tail place) : extent (kind.suffix tail place) = kind.gap place := by
  cases kind with
  | condition => exact extent_hole fits
  | bare => rfl
  | definition => simp [suffix, gap, extent_hole fits.1]
  | plain => simp [suffix, gap]

/-- The offset behind the own commands of a statement. -/
def Site.place (site : Site) (commands : List Command) : Nat :=
  site.start + extent commands

/-- The site behind a statement with the given commands. -/
def Site.next (site : Site) (operation : Operation) (commands : List Command) : Site :=
  site.after operation (site.place commands + (role operation.kind).gap (site.place commands))

/-- Where the parts of a statement stand: its own commands, what its role adds, and the entries that
follow. -/
structure StatementLaid (code : List Cell) (operation : Operation) (site : Site)
    (commands : List Command) (tail segment : Segment) : Prop where
  equal : segment = tail.statement site operation
    (commands ++ (role operation.kind).suffix tail (site.place commands))
    ((some commands).isSome ∧ (role operation.kind).Fits tail (site.place commands))
  fits : (role operation.kind).Fits tail (site.place commands)
  valid : tail.valid
  own : Within code site.start (annotate (some operation.line) site.depth [] commands)
  suffix : Within code (site.place commands) (annotate (some operation.line) site.depth
    (shapes [] commands) ((role operation.kind).suffix tail (site.place commands)))
  rest : Within code (site.next operation commands).start tail.cells
  stop : site.start + size segment.cells = (site.next operation commands).start + size tail.cells

theorem statementLaid {code : List Cell} {pools : Pools} {operation : Operation} {site : Site}
    {rest : Site → Segment}
    (within : Within code site.start (statement pools operation site rest).cells)
    (valid : (statement pools operation site rest).valid) :
    ∃ commands, statement? pools operation = some commands
      ∧ StatementLaid code operation site commands (rest (site.next operation commands))
        (statement pools operation site rest) := by
  cases known : statement? pools operation with
  | none => simp [statement, Segment.statement, known] at valid
  | some commands =>
    refine ⟨commands, rfl, ?_⟩
    have equal : statement pools operation site rest
        = (rest (site.next operation commands)).statement site operation
          (commands ++ (role operation.kind).suffix (rest (site.next operation commands))
            (site.place commands))
          ((some commands).isSome ∧ (role operation.kind).Fits (rest (site.next operation commands))
            (site.place commands)) := by
      simp only [statement, known, Option.getD_some]
      rfl
    rw [equal] at within valid ⊢
    generalize rest (site.next operation commands) = tail at within valid ⊢
    obtain ⟨⟨-, fits⟩, follows⟩ := valid
    simp only [Segment.statement, annotate_append, List.append_assoc] at within
    have gap := Role.extent_suffix fits
    refine ⟨rfl, fits, follows, within.left, ?_, ?_, ?_⟩
    · simpa [Site.place] using within.right.left
    · have behind := within.right.right
      rwa [size_annotate, size_annotate, gap] at behind
    · simp only [Site.place] at gap
      simp only [Segment.statement, size_append, size_annotate, extent_append, Site.next,
        Site.after, Site.place]
      omega

theorem StatementLaid.exit_eq {code : List Cell} {operation : Operation} {site : Site}
    {commands : List Command} {tail segment : Segment}
    (laid : StatementLaid code operation site commands tail segment) :
    segment.exit = if operation.kind.continuesIfChain then tail.exit else site.start := by
  rw [laid.equal]
  rfl

/-! ## The layout of blocks -/

/-- Where the parts of a block stand: what opens it, its entries, what closes it, and the entries
that follow. -/
structure BlockLaid (code : List Cell) (site : Site) (front : List Cell) (first : Nat)
    (block : Segment) (leave : Nat) (behind : List Cell) (stop : Nat) (tail segment : Segment) :
    Prop where
  opening : Within code site.start front
  entries : Within code first block.cells
  closing : Within code leave behind
  rest : Within code stop tail.cells
  inside : block.valid
  follows : tail.valid
  cells : segment.cells = front ++ (block.cells ++ (behind ++ tail.cells))
  first_eq : site.start + size front = first
  leave_eq : first + size block.cells = leave
  stop_eq : leave + size behind = stop

private theorem blockLaid {code : List Cell} {site : Site} {front behind : List Cell}
    {block tail segment : Segment} {first leave stop : Nat}
    (within : Within code site.start segment.cells)
    (cells : segment.cells = front ++ (block.cells ++ (behind ++ tail.cells)))
    (inside : block.valid) (follows : tail.valid)
    (first_eq : site.start + size front = first) (leave_eq : first + size block.cells = leave)
    (stop_eq : leave + size behind = stop) :
    BlockLaid code site front first block leave behind stop tail segment := by
  rw [cells] at within
  subst first_eq leave_eq stop_eq
  exact
    { opening := within.left
      entries := within.right.left
      closing := within.right.right.left
      rest := within.right.right.right
      inside
      follows
      cells
      first_eq := rfl
      leave_eq := rfl
      stop_eq := rfl }

theorem BlockLaid.ends {code : List Cell} {site : Site} {front behind : List Cell}
    {block tail segment : Segment} {first leave stop : Nat}
    (laid : BlockLaid code site front first block leave behind stop tail segment) :
    site.start + size segment.cells = stop + size tail.cells := by
  rw [laid.cells, ← laid.stop_eq, ← laid.leave_eq, ← laid.first_eq]
  simp only [size_append]
  omega

/-- What closes a block stands right behind its entries. -/
theorem BlockLaid.closed {code : List Cell} {site : Site} {front behind : List Cell}
    {block tail segment : Segment} {first leave stop : Nat}
    (laid : BlockLaid code site front first block leave behind stop tail segment)
    (within : Within code site.start segment.cells) :
    Within code first (block.cells ++ behind) := by
  rw [laid.cells] at within
  have parts := within.right
  rw [laid.first_eq, ← List.append_assoc] at parts
  exact parts.left

section

variable {code : List Cell} {inner rest : Site → Segment} {site : Site}

theorem loop_laid {condition : Nat}
    (within : Within code site.start (loop condition inner site rest).cells)
    (valid : (loop condition inner site rest).valid) :
    ∃ enter block leave stop tail, enter = site.start + placeholderWidth site.start
      ∧ block = inner (site.inside (enter + 1) (site.depth + 1))
      ∧ leave = enter + 1 + size block.cells
      ∧ stop = leave + 1 + (Command.mk .jump condition).width
      ∧ tail = rest (site.past block stop) ∧ Fits stop site.start
      ∧ BlockLaid code site
        (annotate site.line site.depth [.value] (hole .jumpIfFalse stop site.start)
          ++ [site.cell .enterLocal 0]) (enter + 1) block leave
        [⟨⟨.leaveLocal, 0⟩, block.line, site.depth + 1, []⟩,
          ⟨⟨.jump, condition⟩, block.line, site.depth, []⟩] stop tail
        (loop condition inner site rest) := by
  have fits := valid.1
  refine ⟨_, _, _, _, _, rfl, rfl, rfl, rfl, rfl, fits, blockLaid within rfl valid.2.1 valid.2.2
    ?_ rfl ?_⟩
  · rw [size_append, size_annotate, extent_hole fits]
    simp [Site.cell, Nat.add_assoc]
  · simp [Nat.add_assoc]

theorem method_laid {body : Block}
    (within : Within code site.start (method body inner site rest).cells)
    (valid : (method body inner site rest).valid) :
    ∃ first block leave stop tail, first = site.start + placeholderWidth site.start
      ∧ block = inner (site.inside first 0) ∧ leave = first + size block.cells
      ∧ stop = leave + 1 ∧ tail = rest (site.past block stop) ∧ Fits stop site.start
      ∧ BlockLaid code site
        (site.cell .jump stop :: annotate site.line 0 [] (padding stop site.start)) first block leave
        [⟨⟨.return, 0⟩, block.line, 0, []⟩] stop tail (method body inner site rest) := by
  have fits := valid.1
  refine ⟨_, _, _, _, _, rfl, rfl, rfl, rfl, rfl, fits, blockLaid within rfl valid.2.1 valid.2.2
    ?_ rfl ?_⟩
  · have full : extent (hole .jump _ site.start) = _ := extent_hole fits
    rw [hole, extent_cons] at full
    simp only [size_cons, size_annotate, Site.cell]
    omega
  · simp

theorem arm_laid (within : Within code site.start (arm inner site rest).cells)
    (valid : (arm inner site rest).valid) :
    ∃ block leave tail, block = inner (site.inside (site.start + 1) (site.depth + 1))
      ∧ leave = site.start + 1 + size block.cells
      ∧ tail = rest (site.past block (leave + 1 + placeholderWidth (leave + 1)))
      ∧ Fits tail.exit (leave + 1)
      ∧ BlockLaid code site [site.cell .enterLocal 0] (site.start + 1) block leave
        (⟨⟨.leaveLocal, 0⟩, block.line, site.depth + 1, []⟩ ::
          annotate block.line site.depth [] (hole .jump tail.exit (leave + 1)))
        (leave + 1 + placeholderWidth (leave + 1)) tail (arm inner site rest) := by
  have fits := valid.1
  refine ⟨_, _, _, rfl, rfl, rfl, fits, blockLaid within rfl valid.2.1 valid.2.2
    ?_ rfl ?_⟩
  · simp [Site.cell]
  · rw [size_cons, size_annotate, extent_hole fits]
    simp [Nat.add_assoc]

theorem nested_laid {keeps : Bool} (within : Within code site.start (nested keeps inner site rest).cells)
    (valid : (nested keeps inner site rest).valid) :
    ∃ block leave tail, block = inner (site.inside (site.start + 1) (site.depth + 1))
      ∧ leave = site.start + 1 + size block.cells ∧ tail = rest (site.past block (leave + 1))
      ∧ BlockLaid code site [site.cell .enterLocal 0] (site.start + 1) block leave
        [⟨⟨.leaveLocal, 0⟩, block.line, site.depth + 1, []⟩] (leave + 1) tail
        (nested keeps inner site rest) := by
  refine ⟨_, _, _, rfl, rfl, rfl, blockLaid within rfl valid.2.1 valid.2.2
    ?_ rfl ?_⟩
  · simp [Site.cell]
  · simp

end

end ScopeMachine.Assembly
