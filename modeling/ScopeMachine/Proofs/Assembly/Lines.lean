import ScopeMachine.Proofs.Assembly.Layout
import ScopeMachine.Proofs.Induction

set_option autoImplicit false

/-!
# Lines

The line table gives every instruction the line of the statement that it belongs to. The search in
the table finds the last statement that starts at or before an offset.
-/

namespace ScopeMachine

/-! ## The search in the table -/

/-- The line in force at an offset: that of the last mark at or before it, else the given one. -/
def lineFrom (line : Option Nat) (marks : List LineMark) (offset : Nat) : Option Nat :=
  marks.foldl (fun line mark => if mark.offset ≤ offset then some mark.line else line) line

@[simp] theorem lineFrom_nil (line : Option Nat) (offset : Nat) : lineFrom line [] offset = line :=
  rfl

theorem lineFrom_append (line : Option Nat) (first second : List LineMark) (offset : Nat) :
    lineFrom line (first ++ second) offset
      = lineFrom (lineFrom line first offset) second offset := by
  simp [lineFrom]

theorem lineFrom_of_lt {line : Option Nat} {marks : List LineMark} {offset : Nat}
    (later : ∀ mark ∈ marks, offset < mark.offset) : lineFrom line marks offset = line := by
  induction marks generalizing line with
  | nil => rfl
  | cons mark rest ih =>
    have first := later mark (.head _)
    rw [lineFrom, List.foldl_cons, if_neg (by omega)]
    exact ih fun other member => later other (.tail _ member)

namespace Code

private theorem startsBy_iff {code : Code} {offset index : Nat} :
    code.startsBy offset index = true
      ↔ ∃ mark, code.marks[index]? = some mark ∧ mark.offset ≤ offset := by
  unfold startsBy
  cases code.marks[index]? <;> simp

/-- Every mark behind an index starts after an offset. -/
def LaterFrom (code : Code) (offset index : Nat) : Prop :=
  ∀ place mark, index ≤ place → code.marks[place]? = some mark → offset < mark.offset

private theorem laterFrom_of_not_startsBy {code : Code} {offset index : Nat}
    (sorted : code.marks.toList.Pairwise (·.offset ≤ ·.offset)) (inside : index < code.marks.size)
    (later : ¬ code.startsBy offset index = true) : code.LaterFrom offset index := by
  intro place mark behind found
  obtain ⟨bound, rfl⟩ := Array.getElem?_eq_some_iff.mp found
  have first : offset < code.marks[index].offset := by
    rw [startsBy_iff] at later
    apply Nat.lt_of_not_le
    intro early
    exact later ⟨_, Array.getElem?_eq_getElem inside, early⟩
  obtain rfl | before := Nat.eq_or_lt_of_le behind
  · exact first
  · have order := List.pairwise_iff_getElem.mp sorted index place (by simpa using inside)
      (by simpa using bound) before
    simp only [Array.getElem_toList] at order
    omega

/-- The search ends at the last mark at or before the offset, or at the first mark of all. -/
theorem locate_spec {code : Code} {offset : Nat}
    (sorted : code.marks.toList.Pairwise (·.offset ≤ ·.offset)) (size base : Nat)
    (some_left : 0 < size) (inside : base + size ≤ code.marks.size)
    (starts : base = 0 ∨ code.startsBy offset base = true)
    (later : code.LaterFrom offset (base + size)) :
    (code.locate offset size base = 0 ∨ code.startsBy offset (code.locate offset size base) = true)
      ∧ code.LaterFrom offset (code.locate offset size base + 1) := by
  fun_induction locate code offset size base with
  | case1 size base one =>
    obtain rfl : size = 1 := by omega
    exact ⟨starts, later⟩
  | case2 size base many half ih =>
    have smaller : half < size ∧ 0 < half := by omega
    by_cases upper : code.startsBy offset (base + half) = true
    · simp only [upper, dite_true] at ih ⊢
      exact ih (by omega) (by omega) (.inr trivial)
        (by rwa [show base + half + (size - half) = base + size by omega])
    · simp only [upper, Bool.false_eq_true, dite_false] at ih ⊢
      refine ih (by omega) (by omega) starts fun place mark behind => ?_
      exact laterFrom_of_not_startsBy sorted (by omega) upper place mark (by omega)

private theorem lineFrom_of_getElem? {code : Code} {offset index : Nat} {mark : LineMark}
    (found : code.marks[index]? = some mark) (early : mark.offset ≤ offset)
    (later : code.LaterFrom offset (index + 1)) :
    lineFrom none code.marks.toList offset = some mark.line := by
  obtain ⟨inside, rfl⟩ := Array.getElem?_eq_some_iff.mp found
  have listed : index < code.marks.toList.length := by simpa using inside
  have parts : code.marks.toList = code.marks.toList.take index
      ++ (code.marks[index] :: code.marks.toList.drop (index + 1)) := by
    have split := List.take_append_drop index code.marks.toList
    rwa [List.drop_eq_getElem_cons listed, Array.getElem_toList, eq_comm] at split
  rw [parts, lineFrom_append, lineFrom, List.foldl_cons, if_pos early]
  refine lineFrom_of_lt fun other member => ?_
  obtain ⟨place, bound, rfl⟩ := List.mem_iff_getElem.mp member
  rw [List.length_drop] at bound
  refine later (index + 1 + place) _ (Nat.le_add_right _ _) ?_
  rw [List.getElem_drop, Array.getElem_toList, Array.getElem?_eq_getElem]

/-- The line at an offset is that of the last statement at or before it. -/
theorem lineAt?_eq {code : Code} (offset : Nat)
    (sorted : code.marks.toList.Pairwise (·.offset ≤ ·.offset)) :
    code.lineAt? offset = lineFrom none code.marks.toList offset := by
  have later_all : code.LaterFrom offset 0 → lineFrom none code.marks.toList offset = none := by
    refine fun later => lineFrom_of_lt fun mark member => ?_
    obtain ⟨place, bound, rfl⟩ := List.mem_iff_getElem.mp member
    refine later place _ (Nat.zero_le _) ?_
    rw [Array.getElem_toList, Array.getElem?_eq_getElem]
  have beyond : code.LaterFrom offset code.marks.size := by
    intro place mark behind found
    rw [Array.getElem?_eq_none behind] at found
    cases found
  unfold lineAt?
  cases marks : code.marks.size with
  | zero =>
    rw [marks] at beyond
    have none : ¬ code.startsBy offset 0 = true := by
      rw [startsBy_iff]
      rintro ⟨mark, found, -⟩
      rw [Array.getElem?_eq_none (by omega)] at found
      cases found
    simp [locate, none, later_all beyond]
  | succ count =>
    rw [← marks]
    obtain ⟨first, later⟩ := locate_spec sorted code.marks.size 0 (by omega) (by omega) (.inl rfl)
      (by rwa [Nat.zero_add])
    generalize code.locate offset code.marks.size 0 = base at first later ⊢
    by_cases starts : code.startsBy offset base = true
    · obtain ⟨mark, found, early⟩ := startsBy_iff.mp starts
      simp [starts, found, lineFrom_of_getElem? found early later]
    · obtain rfl := first.resolve_right starts
      simp [starts, later_all (laterFrom_of_not_startsBy sorted (by omega) starts)]

end Code

namespace Assembly

/-! ## The lines of cells -/

/-- The table of some cells is sorted and gives every cell its line, from one line to another. A
cell is looked up at its last slot, where its instruction stands. -/
structure Lined (start : Nat) (line : Option Nat) (marks : List LineMark) (cells : List Cell)
    (last : Option Nat) : Prop where
  bounds : ∀ mark ∈ marks, start ≤ mark.offset ∧ mark.offset ≤ start + size cells
  sorted : marks.Pairwise (·.offset ≤ ·.offset)
  own : ∀ place cell, Stands cells place cell →
    lineFrom line marks (start + place + extensionCount cell.command.operand) = cell.line
  ends : ∀ offset, start + size cells ≤ offset → lineFrom line marks offset = last

theorem Stands.of_append {first second : List Cell} {cell : Cell} {place : Nat}
    (stands : Stands (first ++ second) place cell) :
    Stands first place cell ∨ ∃ rest, place = size first + rest ∧ Stands second rest cell := by
  obtain ⟨before, after, parts, rfl⟩ := stands
  obtain ⟨middle, rfl, rfl⟩ | ⟨middle, rfl, rest⟩ := List.append_eq_append_iff.mp parts
  · exact .inr ⟨size middle, by simp, middle, after, rfl, rfl⟩
  · cases middle with
    | nil =>
      refine .inr ⟨0, by simp, [], after, ?_, rfl⟩
      simpa using rest.symm
    | cons head middle =>
      simp only [List.cons_append, List.nil_append, List.cons.injEq] at rest
      obtain ⟨rfl, rfl⟩ := rest
      exact .inl ⟨before, middle, by simp, rfl⟩

theorem Lined.append {start : Nat} {line middle last : Option Nat} {front behind : List LineMark}
    {first second : List Cell} (before : Lined start line front first middle)
    (next : Lined (start + size first) middle behind second last) :
    Lined start line (front ++ behind) (first ++ second) last where
  bounds mark member := by
    rw [size_append]
    obtain member | member := List.mem_append.mp member
    · have bounds := before.bounds mark member
      omega
    · have bounds := next.bounds mark member
      omega
  sorted := by
    refine List.pairwise_append.mpr ⟨before.sorted, next.sorted, fun mark member other later => ?_⟩
    have := (before.bounds mark member).2
    have := (next.bounds other later).1
    omega
  own place cell stands := by
    rw [lineFrom_append]
    obtain inside | ⟨rest, rfl, inside⟩ := stands.of_append
    · rw [before.own place cell inside]
      refine lineFrom_of_lt fun mark member => ?_
      have := inside.lt_size
      have := (next.bounds mark member).1
      unfold Command.width at *
      omega
    · rw [before.ends _ (by omega), ← next.own rest cell inside]
      congr 1
      omega
  ends offset behind := by
    rw [size_append] at behind
    rw [lineFrom_append, before.ends offset (by omega), next.ends offset (by omega)]

/-- Cells of one line need no mark. -/
theorem lined_uniform {start : Nat} {line : Option Nat} {cells : List Cell}
    (uniform : ∀ cell ∈ cells, cell.line = line) : Lined start line [] cells line where
  bounds mark member := by cases member
  sorted := .nil
  own place cell stands := by
    obtain ⟨before, after, rfl, -⟩ := stands
    exact (uniform cell (by simp)).symm
  ends _ _ := rfl

private theorem lined_annotate (start : Nat) (line : Option Nat) (depth : Nat) (shape : Shape)
    (commands : List Command) : Lined start line [] (annotate line depth shape commands) line := by
  apply lined_uniform
  induction commands generalizing shape with
  | nil => simp [annotate]
  | cons command rest ih => simpa [annotate] using ih (command.shapeAfter shape)

private theorem lined_mark (start : Nat) (line : Option Nat) (own : Nat) :
    Lined start line [⟨start, own⟩] [] (some own) where
  bounds mark member := by simp_all
  sorted := by simp
  own place cell stands := by
    obtain ⟨before, after, parts, -⟩ := stands
    simp at parts
  ends offset behind := by
    have early : start ≤ offset := by simpa using behind
    simp [lineFrom, early]

section

variable {pools : Pools} {code : List Cell}

private theorem BlockLaid.lined {site : Site} {front behind : List Cell} {block tail segment : Segment}
    {first leave stop : Nat}
    (laid : BlockLaid code site front first block leave behind stop tail segment)
    (opening : ∀ cell ∈ front, cell.line = site.line)
    (inside : Lined first site.line block.marks block.cells block.line)
    (closing : ∀ cell ∈ behind, cell.line = block.line)
    (follows : Lined stop block.line tail.marks tail.cells tail.line) :
    Lined site.start site.line (block.marks ++ tail.marks) segment.cells tail.line := by
  have last : Lined leave block.line ([] ++ tail.marks) (behind ++ tail.cells) tail.line := by
    refine (lined_uniform closing).append ?_
    rwa [laid.stop_eq]
  have middle : Lined first site.line (block.marks ++ ([] ++ tail.marks))
      (block.cells ++ (behind ++ tail.cells)) tail.line := by
    refine inside.append ?_
    rwa [laid.leave_eq]
  have whole : Lined site.start site.line ([] ++ (block.marks ++ ([] ++ tail.marks)))
      (front ++ (block.cells ++ (behind ++ tail.cells))) tail.line := by
    refine (lined_uniform opening).append ?_
    rwa [laid.first_eq]
  rw [laid.cells]
  exact whole

private theorem line_of_mem_annotate {line : Option Nat} {depth : Nat} {shape : Shape}
    {commands : List Command} {cell : Cell} (member : cell ∈ annotate line depth shape commands) :
    cell.line = line := by
  induction commands generalizing shape with
  | nil => cases member
  | cons command rest ih =>
    cases member with
    | head => rfl
    | tail _ member => exact ih member

private theorem lined_entries (block : Block) {site : Site}
    (within : Within code site.start (entries pools block site).cells)
    (valid : (entries pools block site).valid) :
    Lined site.start site.line (entries pools block site).marks (entries pools block site).cells
      (entries pools block site).line := by
  induction block using Block.induction generalizing site with
  | nil => exact lined_uniform (by simp [entries])
  | statement operation rest ih =>
    simp only [entries, entry] at within valid ⊢
    obtain ⟨commands, -, laid⟩ := statementLaid within valid
    have own := (lined_mark site.start site.line operation.line).append
      (lined_annotate _ (some operation.line) site.depth [] (commands
        ++ (role operation.kind).suffix (entries pools rest (site.next operation commands))
          (site.place commands)))
    have later := ih laid.rest laid.valid
    rw [laid.equal]
    refine own.append ?_
    have gap := Role.extent_suffix laid.fits
    rw [List.nil_append, size_annotate, extent_append, gap, ← Nat.add_assoc]
    exact later
  | block body rest inner later =>
    simp only [entries, entry, Assembly.block] at within valid ⊢
    cases kind : setting site.owner with
    | loop condition =>
      simp only [kind] at within valid ⊢
      obtain ⟨_, _, _, _, _, rfl, rfl, rfl, rfl, rfl, -, laid⟩ := loop_laid within valid
      refine laid.lined ?_ (inner laid.entries laid.inside) (by simp) (later laid.rest laid.follows)
      intro cell member
      obtain member | member := List.mem_append.mp member
      · exact line_of_mem_annotate member
      · simp_all [Site.cell]
    | method =>
      simp only [kind] at within valid ⊢
      obtain ⟨_, _, _, _, _, rfl, rfl, rfl, rfl, rfl, -, laid⟩ := method_laid within valid
      refine laid.lined ?_ (inner laid.entries laid.inside) (by simp) (later laid.rest laid.follows)
      intro cell member
      cases member with
      | head => rfl
      | tail _ member => exact line_of_mem_annotate member
    | arm =>
      simp only [kind] at within valid ⊢
      obtain ⟨_, _, _, rfl, rfl, rfl, -, laid⟩ := arm_laid within valid
      refine laid.lined (by simp [Site.cell]) (inner laid.entries laid.inside) ?_
        (later laid.rest laid.follows)
      intro cell member
      cases member with
      | head => rfl
      | tail _ member => exact line_of_mem_annotate member
    | last | free =>
      simp only [kind] at within valid ⊢
      obtain ⟨_, _, _, rfl, rfl, rfl, laid⟩ := nested_laid within valid
      exact laid.lined (by simp [Site.cell]) (inner laid.entries laid.inside) (by simp)
        (later laid.rest laid.follows)

end

/-- Every cell of a program has the line that the table gives for its last slot. -/
theorem lineAt?_image {source : Program} {code : Code} (valid : (program source).valid)
    (marks : code.marks.toList = (program source).marks) {offset : Nat} {cell : Cell}
    (stands : Stands (image source) offset cell) :
    code.lineAt? (offset + extensionCount cell.command.operand) = cell.line := by
  have entries : Within (image source) 0 (program source).cells :=
    ⟨[], [⟨⟨.return, 0⟩, (program source).line, 0, []⟩], rfl, rfl⟩
  have body : Lined 0 none (program source).marks (program source).cells (program source).line :=
    lined_entries source.main entries valid
  have whole : Lined 0 none ((program source).marks ++ []) (image source) (program source).line :=
    body.append (lined_uniform (by simp))
  rw [List.append_nil] at whole
  have own := whole.own offset cell stands
  rw [Nat.zero_add] at own
  rw [Code.lineAt?_eq _ (by rw [marks]; exact whole.sorted), marks, own]

end Assembly

end ScopeMachine
