import Mathlib.Data.List.Forall2
import Mathlib.Data.List.Nodup
import ScopeMachine.Json.Decode
import ScopeMachine.Proofs.Json.ReadBack

set_option autoImplicit false

/-!
# Trimming

A member of an object may be left out where it holds what a missing one stands for. A trimmed object
still supplies every field of its record: a trimmed form of the value that was there, or nothing where
that value is the usual one.
-/

namespace ScopeMachine.Json

/-! ## Depth -/

mutual

/-- How deep the arrays and objects of a tree nest. -/
def depth : Json → Nat
  | .array items => depthItems items + 1
  | .object members => depthMembers members + 1
  | _ => 0

/-- How deep the items of an array nest. -/
def depthItems : List Json → Nat
  | [] => 0
  | item :: items => max (depth item) (depthItems items)

/-- How deep the values of an object nest. -/
def depthMembers : List (Option String × Json) → Nat
  | [] => 0
  | (_, value) :: members => max (depth value) (depthMembers members)

end

private theorem depth_le_depthMembers {key : Option String} {value : Json} {members : List (Option String × Json)}
    (member : (key, value) ∈ members) : value.depth ≤ depthMembers members := by
  induction members with
  | nil => cases member
  | cons first members ih =>
    obtain ⟨name, other⟩ := first
    rw [depthMembers]
    cases member with
    | head => exact Nat.le_max_left _ _
    | tail _ member => exact Nat.le_trans (ih member) (Nat.le_max_right _ _)

private theorem depth_le_depthItems {item : Json} {items : List Json} (member : item ∈ items) :
    item.depth ≤ depthItems items := by
  induction items with
  | nil => cases member
  | cons first items ih =>
    rw [depthItems]
    cases member with
    | head => exact Nat.le_max_left _ _
    | tail _ member => exact Nat.le_trans (ih member) (Nat.le_max_right _ _)

/-- A level is spent on the array itself. -/
theorem depth_le_of_array {item : Json} {items : List Json} {level : Nat} (member : item ∈ items)
    (enough : (Json.array items).depth ≤ level + 1) : item.depth ≤ level :=
  Nat.le_trans (depth_le_depthItems member) (Nat.le_of_succ_le_succ enough)

/-- A level is spent on the object itself. -/
theorem depth_le_of_record {name : String} {value : Json} {members : List (String × Json)} {level : Nat}
    (member : (name, value) ∈ members) (enough : (record members).depth ≤ level + 1) :
    value.depth ≤ level := by
  have listed := List.mem_map_of_mem (f := fun field => (some field.1, field.2)) member
  exact Nat.le_trans (depth_le_depthMembers listed) (Nat.le_of_succ_le_succ enough)

/-! ## Trimmed trees -/

variable {usual : List (String × Json)} {r : Json → Json → Prop}

/-- Each member is kept with a related value, or is left out where it is one of the usual members. -/
inductive Thins (usual : List (String × Json)) (r : Json → Json → Prop) :
    List (Option String × Json) → List (Option String × Json) → Prop where
  | nil : Thins usual r [] []
  | keep (key : Option String) {value other : Json} {members others : List (Option String × Json)}
      (form : r value other) (later : Thins usual r members others) :
      Thins usual r ((key, value) :: members) ((key, other) :: others)
  | drop {name : String} {value : Json} {members others : List (Option String × Json)}
      (known : (name, value) ∈ usual) (later : Thins usual r members others) :
      Thins usual r ((some name, value) :: members) others

/-- The second tree is the first one with some usual members left out, at any depth. -/
inductive Trims (usual : List (String × Json)) : Json → Json → Prop where
  | same (json : Json) : Trims usual json json
  | array {items others : List Json} (forms : List.Forall₂ (Trims usual) items others) :
      Trims usual (.array items) (.array others)
  | object {members others : List (Option String × Json)}
      (forms : Thins usual (Trims usual) members others) :
      Trims usual (.object members) (.object others)

theorem Thins.refl (r_refl : ∀ json, r json json) (members : List (Option String × Json)) :
    Thins usual r members members := by
  induction members with
  | nil => exact .nil
  | cons first members ih => exact .keep first.1 (r_refl first.2) ih

/-- Every member that is left has a value related to one that was there under its key. -/
theorem Thins.origin {members others : List (Option String × Json)} (thins : Thins usual r members others)
    {key : Option String} {other : Json} (member : (key, other) ∈ others) :
    ∃ value, (key, value) ∈ members ∧ r value other := by
  induction thins with
  | nil => cases member
  | @keep name value _ members others form later ih =>
    cases member with
    | head => exact ⟨value, .head _, form⟩
    | tail _ member =>
      obtain ⟨value, member, related⟩ := ih member
      exact ⟨value, .tail _ member, related⟩
  | drop known later ih =>
    obtain ⟨value, member, related⟩ := ih member
    exact ⟨value, .tail _ member, related⟩

theorem Trims.of_array {items : List Json} {json : Json} (trims : Trims usual (.array items) json) :
    ∃ others, json = .array others ∧ List.Forall₂ (Trims usual) items others := by
  cases trims with
  | same => exact ⟨items, rfl, List.forall₂_same.mpr fun item _ => .same item⟩
  | array forms => exact ⟨_, rfl, forms⟩

theorem Trims.of_object {members : List (Option String × Json)} {json : Json}
    (trims : Trims usual (.object members) json) :
    ∃ others, json = .object others ∧ Thins usual (Trims usual) members others := by
  cases trims with
  | same => exact ⟨members, rfl, .refl .same members⟩
  | object forms => exact ⟨_, rfl, forms⟩

private theorem forall₂_origin {items others : List Json} (forms : List.Forall₂ r items others) {other : Json}
    (member : other ∈ others) : ∃ item ∈ items, r item other := by
  induction forms with
  | nil => cases member
  | @cons item _ _ _ form _ ih =>
    cases member with
    | head => exact ⟨item, .head _, form⟩
    | tail _ member =>
      obtain ⟨item, member, related⟩ := ih member
      exact ⟨item, .tail _ member, related⟩

/-- A trimmed tree is spelled as well as the whole one. -/
theorem WellFormed.trims {json other : Json} (wellFormed : json.WellFormed)
    (trims : Trims usual json other) : other.WellFormed := by
  induction wellFormed generalizing other with
  | null => cases trims; exact .null
  | boolean value => cases trims; exact .boolean value
  | number spelled => cases trims; exact .number spelled
  | string text => cases trims; exact .string text
  | array inner ih =>
    obtain ⟨others, rfl, forms⟩ := trims.of_array
    refine .array fun other member => ?_
    obtain ⟨item, member, form⟩ := forall₂_origin forms member
    exact ih item member form
  | object inner ih =>
    obtain ⟨others, rfl, forms⟩ := trims.of_object
    refine .object fun other member => ?_
    obtain ⟨value, member, form⟩ := forms.origin member
    exact ih _ member form

/-! ## Fields -/

/-- What a trimmed object has for a member: a form of its value, or nothing where it is usual. -/
inductive Supplied (usual : List (String × Json)) (member : String × Json) : Option Json → Prop where
  | given {other : Json} (form : Trims usual member.2 other) : Supplied usual member (some other)
  | missing (known : member ∈ usual) : Supplied usual member none

def named (members : List (Option String × Json)) (name : String) : List (Option String × Json) :=
  members.filter fun (key, _) => key == some name

private theorem mem_keys {members : List (Option String × Json)} {key : Option String} {value : Json}
    (member : (key, value) ∈ members) : key ∈ members.map Prod.fst :=
  List.mem_map.mpr ⟨_, member, rfl⟩

private theorem named_eq_nil {members : List (Option String × Json)} {name : String}
    (absent : some name ∉ members.map Prod.fst) : named members name = [] := by
  rw [named, List.filter_eq_nil_iff]
  rintro ⟨key, value⟩ member same
  rw [beq_iff_eq] at same
  exact absent (same ▸ mem_keys member)

theorem Thins.field? {members others : List (Option String × Json)}
    (thins : Thins usual (Trims usual) members others) (distinct : (members.map Prod.fst).Nodup)
    {name : String} {value : Json} (member : (some name, value) ∈ members) :
    ∃ got, Json.field? others name = some got ∧ Supplied usual (name, value) got := by
  suffices (∃ other, Trims usual value other ∧ named others name = [(some name, other)])
      ∨ (name, value) ∈ usual ∧ named others name = [] by
    obtain ⟨other, form, only⟩ | ⟨known, none⟩ := this
    · exact ⟨some other, by rw [Json.field?, ← named, only], .given form⟩
    · exact ⟨.none, by rw [Json.field?, ← named, none], .missing known⟩
  induction thins with
  | nil => cases member
  | @keep key first other members others form later ih =>
    obtain ⟨fresh, distinct⟩ := List.nodup_cons.mp distinct
    cases member with
    | head =>
      have absent : some name ∉ others.map Prod.fst := by
        intro member
        obtain ⟨⟨key, other⟩, member, rfl⟩ := List.mem_map.mp member
        obtain ⟨value, member, -⟩ := later.origin member
        exact fresh (mem_keys member)
      refine .inl ⟨other, form, ?_⟩
      rw [named, List.filter_cons_of_pos (by simp), ← named, named_eq_nil absent]
    | tail _ member =>
      have differs : key ≠ some name := fun same => fresh (same ▸ mem_keys member)
      have skipped : named ((key, other) :: others) name = named others name := by
        rw [named, List.filter_cons_of_neg (by simp [differs]), ← named]
      rw [skipped]
      exact ih distinct member
  | @drop other first members others known later ih =>
    obtain ⟨fresh, distinct⟩ := List.nodup_cons.mp distinct
    cases member with
    | head =>
      refine .inr ⟨known, named_eq_nil fun member => ?_⟩
      obtain ⟨⟨key, other⟩, member, same⟩ := List.mem_map.mp member
      obtain ⟨value, member, -⟩ := later.origin member
      exact fresh (same ▸ mem_keys member)
    | tail _ member => exact ih distinct member

/-- A trimmed record supplies each of its fields. -/
theorem Trims.fields? {members : List (String × Json)} {json : Json}
    (trims : Trims usual (.record members) json) (distinct : (members.map Prod.fst).Nodup) :
    ∃ gots, json.fields? (members.map Prod.fst) = some gots
      ∧ List.Forall₂ (Supplied usual) members gots := by
  obtain ⟨others, rfl, thins⟩ := trims.of_object
  have named : others.all (fun field => field.1.isSome) = true := by
    rw [List.all_eq_true]
    rintro ⟨key, other⟩ member
    obtain ⟨value, member, -⟩ := thins.origin member
    obtain ⟨field, -, same⟩ := List.mem_map.mp member
    obtain ⟨rfl, -⟩ := Prod.mk.inj same
    rfl
  have apart : ((members.map fun field => (some field.1, field.2)).map Prod.fst).Nodup := by
    rw [List.map_map]
    have := distinct.map fun _ _ same => Option.some.inj same
    rwa [List.map_map] at this
  have supplied (some_ : List (String × Json)) (within : some_ ⊆ members) :
      ∃ gots, (some_.map Prod.fst).mapM (Json.field? others) = some gots
        ∧ List.Forall₂ (Supplied usual) some_ gots := by
    induction some_ with
    | nil => exact ⟨[], rfl, .nil⟩
    | cons first some_ ih =>
      obtain ⟨later, read, forms⟩ := ih fun member inside => within (.tail _ inside)
      obtain ⟨got, found, form⟩ := thins.field? apart
        (List.mem_map_of_mem (f := fun field => (some field.1, field.2)) (within (.head _)))
      refine ⟨got :: later, ?_, .cons form forms⟩
      rw [List.map_cons, List.mapM_cons, found, read]
      rfl
  obtain ⟨gots, read, forms⟩ := supplied members (List.Subset.refl members)
  exact ⟨gots, (if_pos named).trans read, forms⟩

/-- A field that must be there is decoded from any form of its value. -/
theorem Supplied.required {α : Type} {value : α} {decode : Json → Option α} {member : String × Json}
    {got : Option Json} (supplied : Supplied usual member got) (kept : member ∉ usual)
    (reads : ∀ other, Trims usual member.2 other → decode other = some value) :
    Json.required decode got = some value := by
  cases supplied with
  | given form => exact reads _ form
  | missing known => exact absurd known kept

/-- A field that may be missing is decoded from any form of its value, or is the default. -/
theorem Supplied.optional {α : Type} {value default : α} {decode : Json → Option α}
    {member : String × Json} {got : Option Json} (supplied : Supplied usual member got)
    (defaults : member ∈ usual → default = value)
    (reads : ∀ other, Trims usual member.2 other → decode other = some value) :
    Json.optional default decode got = some value := by
  cases supplied with
  | given form => exact reads _ form
  | missing known => exact congrArg some (defaults known)

/-- A trimmed record of one field that is kept supplies a form of its value. -/
theorem Trims.onlyField? {name : String} {content json : Json}
    (trims : Trims usual (.record [(name, content)]) json) (kept : (name, content) ∉ usual) :
    ∃ other, json.fields? [name] = some [some other] ∧ Trims usual content other := by
  obtain ⟨gots, read, supplied⟩ := trims.fields? (List.nodup_singleton name)
  obtain _ | ⟨supplied, _ | _⟩ := supplied
  cases supplied with
  | given form => exact ⟨_, read, form⟩
  | missing known => exact absurd known kept

/-- A trimmed variant keeps its name and a form of its content. -/
theorem Trims.variant? {name : String} {content json : Json}
    (trims : Trims usual (.record [(name, content)]) json) (kept : (name, content) ∉ usual) :
    ∃ other, json.variant? = some (name, other) ∧ Trims usual content other := by
  obtain ⟨others, rfl, thins⟩ := trims.of_object
  cases thins with
  | keep _ form later =>
    cases later
    exact ⟨_, rfl, form⟩
  | drop known => exact absurd known kept

/-! ## Lists -/

theorem mapM_of_trims {α : Type} {encode : α → Json} {decode : Json → Option α} {values : List α}
    {items : List Json} (forms : List.Forall₂ (Trims usual) (values.map encode) items)
    (reads : ∀ value ∈ values, ∀ json, Trims usual (encode value) json → decode json = some value) :
    items.mapM decode = some values := by
  induction values generalizing items with
  | nil =>
    cases forms
    rfl
  | cons value values ih =>
    cases forms with
    | cons form later =>
      rw [List.mapM_cons, reads value (.head _) _ form,
        ih later fun other member => reads other (.tail _ member)]
      rfl

end ScopeMachine.Json
