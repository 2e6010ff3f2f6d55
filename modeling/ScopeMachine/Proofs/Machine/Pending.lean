import ScopeMachine.Proofs.Assembly.Tight
import ScopeMachine.Proofs.Machine.Upholding

set_option autoImplicit false

/-!
# Pending calls

Where code is tight, the shapes of its cells tell exactly which entries of the stack are copies that
wait for their calls. So none of them is dropped: each becomes the method copy of a frame, and a frame
that is left has no copies of its own.
-/

namespace ScopeMachine

open Assembly Heap

/-! ## Exact shapes -/

namespace SlotKind

/-- Where no copy is, nothing can be taken for something else. -/
theorem Covers.eq_of_plain {wider kinds : Shape} (covers : Covers wider kinds)
    (plain : .copy ∉ kinds) : wider = kinds := by
  induction wider generalizing kinds with
  | nil =>
    cases kinds with
    | nil => rfl
    | cons => cases covers
  | cons wanted wider ih =>
    cases kinds with
    | nil => cases covers
    | cons found kinds =>
      have first := covers.1
      rw [ih covers.2 fun member => plain (.tail _ member)]
      cases wanted <;> cases found <;> first
        | rfl
        | contradiction
        | exact absurd (.head _) plain

end SlotKind

/-- A cell of exactly the given shape stands at an offset. -/
def Leveled (code : List Cell) (offset : Nat) (shape : Shape) : Prop :=
  ∃ cell, Stands code offset cell ∧ cell.shape = shape

section

variable {code : List Cell} {offset depth : Nat} {shape : Shape}

theorem Leveled.leads (leveled : Leveled code offset shape) :
    ∃ depth, Leads True code offset depth shape := by
  obtain ⟨cell, stands, rfl⟩ := leveled
  exact ⟨cell.depth, stands.leads⟩

/-- Where no copy waits, a run arrives at a cell of exactly the shape that it has. -/
theorem leveled_of_plain (leads : Leads True code offset depth shape) (plain : .copy ∉ shape) :
    Leveled code offset shape := by
  obtain ⟨cell, stands, -, covers⟩ := leads.covers trivial
  exact ⟨cell, stands, covers.eq_of_plain plain⟩

/-- Behind a snug cell there is one of exactly the shape that its command leaves. -/
theorem Assembly.Snug.leveled {cell : Cell} (snug : Snug code offset cell)
    (leads : Leads True code (offset + cell.command.width) depth
      (cell.command.shapeAfter cell.shape)) :
    Leveled code (offset + cell.command.width) (cell.command.shapeAfter cell.shape) := by
  obtain plain | ⟨behind, stands, same⟩ := snug.next
  · exact leveled_of_plain leads plain
  · exact ⟨behind, stands, same⟩

end

/-! ## Frames above others -/

/-- The kinds of a stack above some that are given, where the frames stand on top of others. Each of
the upper frames returns to a cell that has exactly the shape of what waits for it. -/
def Pends (code : List Cell) (low : Shape) (outer : List Frame) :
    Shape → List Frame → Shape → Prop
  | shape, [], kinds => kinds = shape ++ low ∧ Spans code shape outer kinds
  | shape, frame :: frames, kinds =>
    ∃ below waiting, kinds = shape ++ below ∧ frame.stackMark = below.length
      ∧ Leveled code frame.returnAddress (.value :: waiting) ∧ Pends code low outer waiting frames below

section

variable {code : List Cell} {low shape kinds : Shape} {outer frames : List Frame}

theorem Pends.spans (pends : Pends code low outer shape frames kinds) (more : outer ≠ []) :
    Spans code shape (frames ++ outer) kinds := by
  induction frames generalizing shape kinds with
  | nil => exact pends.2
  | cons frame frames ih =>
    obtain ⟨below, waiting, rfl, mark, leveled, rest⟩ := pends
    obtain ⟨depth, leads⟩ := leveled.leads
    refine ⟨below, rfl, mark, fun none => ?_, fun _ => ⟨depth, waiting, leads, ih rest⟩⟩
    exact absurd (List.append_eq_nil_iff.mp none).2 more

/-- The shape of the uppermost frame changes, and the rest stays. -/
theorem Pends.replace (pends : Pends code low outer shape frames kinds) :
    ∃ below, kinds = shape ++ below ∧ ∀ other, Pends code low outer other frames (other ++ below) := by
  cases frames with
  | nil =>
    obtain ⟨rfl, spans⟩ := pends
    refine ⟨low, rfl, fun other => ⟨rfl, ?_⟩⟩
    obtain ⟨below, same, spans, -⟩ := spans.replace other
    cases List.append_cancel_left same
    exact spans
  | cons frame frames =>
    obtain ⟨below, waiting, rfl, rest⟩ := pends
    exact ⟨below, rfl, fun other => ⟨below, waiting, rfl, rest⟩⟩

/-- The given kinds are at the bottom. -/
theorem Pends.above (pends : Pends code low outer shape frames kinds) :
    ∃ upper, kinds = shape ++ upper ++ low := by
  induction frames generalizing shape kinds with
  | nil => exact ⟨[], by simp [pends.1]⟩
  | cons frame frames ih =>
    obtain ⟨below, waiting, rfl, -, -, rest⟩ := pends
    obtain ⟨upper, rfl⟩ := ih rest
    exact ⟨waiting ++ upper, by simp⟩

/-- A call puts a frame on top, with nothing above its mark. -/
theorem Pends.call {frame : Frame} (pends : Pends code low outer shape frames kinds)
    (mark : frame.stackMark = kinds.length)
    (leveled : Leveled code frame.returnAddress (.value :: shape)) :
    Pends code low outer [] (frame :: frames) kinds :=
  ⟨kinds, shape, rfl, mark, leveled, pends⟩

end

section

variable {code : List Cell} {lost : ScopeId → Prop} {low shape takes kinds : Shape}
  {outer frames : List Frame} {machine : Machine}

/-- What a tight command takes is there, exactly as its cell tells. -/
theorem Pends.split (pends : Pends code low outer shape frames kinds)
    (inOrder : InOrder lost kinds machine) (current : machine.frames = frames ++ outer)
    (more : outer ≠ []) (tight : takes <+: shape) :
    ∃ under items rest, kinds = takes ++ under ∧ OperandsOnTop lost takes under items rest machine
      ∧ ∀ gives, Pends code low outer (gives ++ shape.drop takes.length) frames (gives ++ under) := by
  obtain ⟨below, rfl, replaces⟩ := pends.replace
  obtain ⟨left, rfl⟩ := tight
  have spans := pends.spans more
  obtain ⟨other, same, -, marks⟩ := spans.replace []
  cases List.append_cancel_left same
  rw [List.append_assoc] at inOrder
  obtain ⟨items, rest, stack, fits, lower⟩ := inOrder.fits.of_append
  refine ⟨left ++ below, items, rest, List.append_assoc .., ⟨inOrder, stack, fits, lower, ?_⟩, ?_⟩
  · intro frame member
    have low := marks frame (current ▸ member)
    rw [lower.length, List.length_append]
    omega
  · intro gives
    rw [List.drop_left, ← List.append_assoc]
    exact replaces (gives ++ left)

end

/-! ## Copies on a stack -/

theorem length_picked_copy {kinds : Shape} {items : List StackItem} (fits : Fitting kinds items) :
    (picked .copy kinds items).length = kinds.count .copy := by
  induction kinds generalizing items with
  | nil =>
    cases fits.nil
    rfl
  | cons kind kinds ih =>
    cases items with
    | nil => cases fits
    | cons item items =>
      have later := ih fits.2
      cases kind <;> cases item <;> first
        | simpa [picked] using later
        | cases fits.1

end ScopeMachine
