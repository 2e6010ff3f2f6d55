import ScopeMachine.Program.Exchange
import ScopeMachine.Proofs.Json.Trimming

set_option autoImplicit false

/-!
# Exchange

Programs come back from their exchange form as they were, also when members that hold a default are left
out of it. Decoding spends one level of its depth on each object and array, so a form that nests no
deeper than the limit is decoded to its end.
-/

namespace ScopeMachine

open Json

/-- The members of operations that may be left out: each holds the default of its field. -/
def Operation.usualFields : List (String × Json) :=
  [("operands", .array []), ("value", .null), ("line", .nat 0)]

/-- A variant's name is not the name of a member that may be left out. -/
theorem not_usual {name : String} (other : name ∉ Operation.usualFields.map Prod.fst) (content : Json) :
    (name, content) ∉ Operation.usualFields :=
  fun member => other (List.mem_map_of_mem member)

/-! ## Plain programs -/

/-- Any literal but a decimal, whose spelling need not denote it. -/
def Literal.Plain : Literal → Prop
  | .decimal _ => False
  | _ => True

/-- A reference to a name or to a plain literal. -/
def Reference.Plain : Reference → Prop
  | .name _ => True
  | .literal content => content.Plain

/-- An operation whose literals are plain and whose lines fit in a word, at every node. -/
inductive Operation.Plain : Operation → Prop where
  | node {kind : Kind} {operands : List Operation} {value : Option Reference} {line : Nat}
      (below : ∀ operand ∈ operands, Plain operand) (carried : ∀ reference ∈ value, reference.Plain)
      (fits : line < UInt64.size) : Plain ⟨kind, operands, value, line⟩

/-- An entry with plain operations. -/
inductive Entry.Plain : Entry → Prop where
  | statement {operation : Operation} (plain : operation.Plain) : Plain (.statement operation)
  | block {body : Block} (inner : ∀ entry ∈ body, Plain entry) : Plain (.block body)

/-- A program with plain operations. -/
def Program.Plain (program : Program) : Prop :=
  ∀ entry ∈ program.main, entry.Plain

private theorem Operation.encodeAll_eq (operations : List Operation) :
    encodeAll operations = operations.map encode := by
  induction operations with
  | nil => rfl
  | cons operation operations ih => rw [encodeAll, ih, List.map_cons]

private theorem Entry.encodeAll_eq (entries : Block) : encodeAll entries = entries.map encode := by
  induction entries with
  | nil => rfl
  | cons entry entries ih => rw [encodeAll, ih, List.map_cons]

/-! ## Spelling -/

private theorem wellFormed_record {members : List (String × Json)}
    (inner : ∀ member ∈ members, member.2.WellFormed) : (record members).WellFormed := by
  refine .object fun member inside => ?_
  obtain ⟨⟨name, value⟩, listed, rfl⟩ := List.mem_map.mp inside
  exact inner _ listed

private theorem wellFormed_variant {name : String} {content : Json} (inner : content.WellFormed) :
    (record [(name, content)]).WellFormed :=
  wellFormed_record fun member inside => by
    obtain rfl := List.mem_singleton.mp inside
    exact inner

theorem Literal.Plain.wellFormed {literal : Literal} (plain : literal.Plain) :
    literal.encode.WellFormed := by
  cases literal with
  | integer value => exact wellFormed_variant (.number (Numeral.wellFormed_ofInt _))
  | decimal value => exact plain.elim
  | boolean value => exact wellFormed_variant (.boolean value)
  | text value => exact wellFormed_variant (.string _)

theorem Reference.Plain.wellFormed {reference : Reference} (plain : reference.Plain) :
    reference.encode.WellFormed := by
  cases reference with
  | name name => exact wellFormed_variant (.string _)
  | literal content => exact wellFormed_variant (Literal.Plain.wellFormed plain)

private theorem Reference.wellFormed_encodeOptional {value : Option Reference}
    (plain : ∀ reference ∈ value, reference.Plain) : (encodeOptional value).WellFormed := by
  cases value with
  | none => exact .null
  | some reference => exact (plain reference rfl).wellFormed

theorem Operation.Plain.wellFormed {operation : Operation} (plain : operation.Plain) :
    operation.encode.WellFormed := by
  induction plain with
  | @node kind operands value line below carried fits ih =>
    have inner : (Json.array (encodeAll operands)).WellFormed := by
      rw [encodeAll_eq]
      refine .array fun item member => ?_
      obtain ⟨operand, listed, rfl⟩ := List.mem_map.mp member
      exact ih operand listed
    rw [encode]
    refine wellFormed_record ?_
    simp only [List.forall_mem_cons]
    exact ⟨.string _, inner, Reference.wellFormed_encodeOptional carried,
      .number (Numeral.wellFormed_ofNat _), by rintro _ ⟨⟩⟩

private theorem Entry.wellFormed_block {body : Block} (inner : ∀ entry ∈ body, entry.encode.WellFormed) :
    (record [("executables", .array (encodeAll body))]).WellFormed := by
  rw [encodeAll_eq]
  refine wellFormed_variant (.array fun item member => ?_)
  obtain ⟨entry, listed, rfl⟩ := List.mem_map.mp member
  exact inner entry listed

theorem Entry.Plain.wellFormed {entry : Entry} (plain : entry.Plain) : entry.encode.WellFormed := by
  induction plain with
  | statement plain => exact wellFormed_variant plain.wellFormed
  | block inner ih => exact wellFormed_variant (wellFormed_block ih)

/-! ## Decoding -/

variable {depth : Nat} {json : Json}

private theorem Kind.decode?_of_trims {kind : Kind} (trims : Trims Operation.usualFields (.text kind.name) json) :
    decode? depth json = some kind := by
  cases trims
  exact ofName?_name kind

/-- The numeral of an integer lies inside of the range that is checked. -/
theorem int64?_ofInt (value : Int64) : (Json.number (.ofInt value.toInt)).int64? = some value := by
  have inside : (Int64.minValue.toInt ≤ value.toInt && value.toInt ≤ Int64.maxValue.toInt) = true := by
    rw [Bool.and_eq_true, decide_eq_true_eq, decide_eq_true_eq]
    exact ⟨value.minValue_le_toInt, value.toInt_le⟩
  rw [int64?, Numeral.toInt?_ofInt, Option.filter_some, if_pos inside, Option.map_some,
    Int64.ofInt_toInt]

private theorem word?_nat {line : Nat} (fits : line < UInt64.size) : (Json.nat line).word? = some line := by
  rw [Json.nat, word?, Numeral.toNat?_ofNat, Option.filter_some, if_pos (decide_eq_true fits)]

private theorem nat_injective {line other : Nat} (same : Json.nat line = Json.nat other) : line = other := by
  have spelled := congrArg Numeral.toNat? (Json.number.inj same)
  rw [Numeral.toNat?_ofNat, Numeral.toNat?_ofNat] at spelled
  exact Option.some.inj spelled

theorem Literal.Plain.decode? {literal : Literal} (plain : literal.Plain)
    (enough : literal.encode.depth ≤ depth)
    (trims : Trims Operation.usualFields literal.encode json) :
    Literal.decode? depth json = some literal := by
  cases depth with
  | zero => cases literal <;> cases enough
  | succ depth =>
    cases literal with
    | integer value =>
      obtain ⟨content, variant, form⟩ := trims.variant? (not_usual (by decide) _)
      cases form
      simp [Literal.decode?, variant, int64?_ofInt]
    | decimal value => exact plain.elim
    | boolean value =>
      obtain ⟨content, variant, form⟩ := trims.variant? (not_usual (by decide) _)
      cases form
      simp [Literal.decode?, variant, boolean?]
    | text value =>
      obtain ⟨content, variant, form⟩ := trims.variant? (not_usual (by decide) _)
      cases form
      simp [Literal.decode?, variant, Json.text, text?]

theorem Reference.Plain.decode? {reference : Reference} (plain : reference.Plain)
    (enough : reference.encode.depth ≤ depth)
    (trims : Trims Operation.usualFields reference.encode json) :
    Reference.decode? depth json = some reference := by
  cases depth with
  | zero => cases reference <;> cases enough
  | succ depth =>
    cases reference with
    | name name =>
      obtain ⟨content, variant, form⟩ := trims.variant? (not_usual (by decide) _)
      cases form
      simp [Reference.decode?, variant, Json.text, text?]
    | literal content =>
      obtain ⟨other, variant, form⟩ := trims.variant? (not_usual (by decide) _)
      have inside : content.encode.depth ≤ depth := depth_le_of_record (.head _) enough
      have decoded := Literal.Plain.decode? plain inside form
      simp [Reference.decode?, variant, decoded]

private theorem Reference.decodeOptional?_of_trims {value : Option Reference}
    (plain : ∀ reference ∈ value, reference.Plain) (enough : (encodeOptional value).depth ≤ depth)
    (trims : Trims Operation.usualFields (encodeOptional value) json) :
    decodeOptional? depth json = some value := by
  cases value with
  | none =>
    cases trims
    rfl
  | some reference =>
    have decoded := Reference.Plain.decode? (plain reference rfl) enough trims
    -- a reference stays an object, so its form is not taken for a missing one
    have other : json ≠ .null := by
      rintro rfl
      cases reference <;> obtain ⟨_, same, -⟩ := trims.of_object <;> cases same
    rw [decodeOptional?, decoded]
    · rfl
    · exact other

namespace Operation

variable {got : Option Json}

private theorem kind_read {kind : Kind} (supplied : Supplied usualFields ("kind", .text kind.name) got) :
    Json.required (Kind.decode? depth) got = some kind :=
  supplied.required (not_usual (by decide) _) fun _ form => Kind.decode?_of_trims form

private theorem operands_read {operands : List Operation}
    (supplied : Supplied usualFields ("operands", .array (encodeAll operands)) got)
    (enough : (Json.array (encodeAll operands)).depth ≤ depth)
    (reads : ∀ operand ∈ operands, ∀ {depth json}, operand.encode.depth ≤ depth →
      Trims usualFields operand.encode json → decode? depth json = some operand) :
    Json.optional [] (decodeAll? depth) got = some operands := by
  refine supplied.optional (fun known => ?_) fun other form => ?_
  · have none : encodeAll operands = [] := by simpa [usualFields] using known
    rw [encodeAll_eq, List.map_eq_nil_iff] at none
    exact none.symm
  · obtain ⟨items, rfl, forms⟩ := form.of_array
    cases depth with
    | zero => cases enough
    | succ depth =>
      rw [encodeAll_eq] at enough forms
      refine mapM_of_trims forms fun operand member json form => reads operand member ?_ form
      exact depth_le_of_array (List.mem_map_of_mem member) enough

private theorem value_read {value : Option Reference}
    (supplied : Supplied usualFields ("value", Reference.encodeOptional value) got)
    (enough : (Reference.encodeOptional value).depth ≤ depth)
    (plain : ∀ reference ∈ value, reference.Plain) :
    Json.optional none (Reference.decodeOptional? depth) got = some value := by
  refine supplied.optional (fun known => ?_) fun other form =>
    Reference.decodeOptional?_of_trims plain enough form
  cases value with
  | none => rfl
  | some reference =>
    have null : Reference.encodeOptional (some reference) = .null := by simpa [usualFields] using known
    cases reference <;> cases null

private theorem line_read {line : Nat} (supplied : Supplied usualFields ("line", .nat line) got)
    (fits : line < UInt64.size) : Json.optional 0 Json.word? got = some line := by
  refine supplied.optional (fun known => ?_) fun other form => ?_
  · have zero : Json.nat line = .nat 0 := by simpa [usualFields] using known
    exact (nat_injective zero).symm
  · cases form
    exact word?_nat fits

/-- An operation is decoded from every trimmed form, given a level for each object and array in it. -/
theorem Plain.decode? {operation : Operation} (plain : operation.Plain)
    (enough : operation.encode.depth ≤ depth) (trims : Trims usualFields operation.encode json) :
    Operation.decode? depth json = some operation := by
  induction plain generalizing depth json with
  | @node kind operands value line below carried fits ih =>
    rw [encode] at enough trims
    cases depth with
    | zero => cases enough
    | succ depth =>
      obtain ⟨gots, read, supplied⟩ := trims.fields? (show fieldNames.Nodup by decide)
      change json.fields? fieldNames = _ at read
      obtain _ | ⟨forKind, _ | ⟨forOperands, _ | ⟨forValue, _ | ⟨forLine, _ | _⟩⟩⟩⟩ := supplied
      rw [Operation.decode?, read]
      simp only [kind_read forKind, line_read forLine fits,
        operands_read forOperands (depth_le_of_record (.tail _ (.head _)) enough) ih,
        value_read forValue (depth_le_of_record (.tail _ (.tail _ (.head _))) enough) carried,
        Option.bind_eq_bind, Option.bind_some]

end Operation

namespace Entry

private theorem decodeBlock?_of_trims {body : Block}
    (reads : ∀ entry ∈ body, ∀ {depth json}, entry.encode.depth ≤ depth →
      Trims Operation.usualFields entry.encode json → decode? depth json = some entry)
    (enough : (record [("executables", .array (encodeAll body))]).depth ≤ depth)
    (trims : Trims Operation.usualFields (record [("executables", .array (encodeAll body))]) json) :
    decodeBlock? depth json = some body := by
  obtain ⟨entries, read, form⟩ := trims.onlyField? (not_usual (by decide) _)
  obtain ⟨items, rfl, forms⟩ := form.of_array
  cases depth with
  | zero => cases enough
  | succ depth =>
    have inside := depth_le_of_record (.head _) enough
    rw [decodeBlock?, read]
    cases depth with
    | zero => cases inside
    | succ depth =>
      rw [encodeAll_eq] at inside forms
      refine mapM_of_trims forms fun entry member json form => reads entry member ?_ form
      exact depth_le_of_array (List.mem_map_of_mem member) inside

/-- An entry is decoded from every trimmed form, given a level for each object and array in it. -/
theorem Plain.decode? {entry : Entry} (plain : entry.Plain) (enough : entry.encode.depth ≤ depth)
    (trims : Trims Operation.usualFields entry.encode json) :
    Entry.decode? depth json = some entry := by
  induction plain generalizing depth json with
  | statement plain =>
    cases depth with
    | zero => cases enough
    | succ depth =>
      obtain ⟨content, variant, form⟩ := trims.variant? (not_usual (by decide) _)
      have inside := depth_le_of_record (.head _) enough
      have decoded := plain.decode? inside form
      simp [Entry.decode?, variant, decoded]
  | block inner ih =>
    cases depth with
    | zero => cases enough
    | succ depth =>
      obtain ⟨content, variant, form⟩ := trims.variant? (not_usual (by decide) _)
      have inside := depth_le_of_record (.head _) enough
      have decoded := decodeBlock?_of_trims ih inside form
      simp [Entry.decode?, variant, decoded]

end Entry

/-! ## Programs -/

theorem Program.Plain.wellFormed {program : Program} (plain : program.Plain) :
    program.encode.WellFormed :=
  wellFormed_variant (Entry.wellFormed_block fun entry member => (plain entry member).wellFormed)

/-- A program is decoded from every trimmed form, given a level for each object and array in it. -/
theorem Program.Plain.decode? {program : Program} (plain : program.Plain)
    (enough : program.encode.depth ≤ depth)
    (trims : Trims Operation.usualFields program.encode json) :
    Program.decode? depth json = some program := by
  cases depth with
  | zero => cases enough
  | succ depth =>
    obtain ⟨main, read, form⟩ := trims.onlyField? (not_usual (by decide) _)
    have decoded := Entry.decodeBlock?_of_trims
      (fun entry member _ _ enough trims => (plain entry member).decode? enough trims)
      (depth_le_of_record (.head _) enough) form
    rw [Program.decode?, read]
    simp only [decoded, Option.map_some]

/-- A program without decimals whose form nests no deeper than the limit is parsed from its text, and from
each text that leaves out operands that are empty, values that are null and lines that are zero. -/
theorem programs_read_back (program : Program) (plain : program.Plain)
    (shallow : program.encode.depth ≤ Json.depthLimit) :
    Program.parse? program.render = some program ∧
      ∀ json, Json.Trims Operation.usualFields program.encode json →
        Program.parse? json.render = some program := by
  have reads (json : Json) (trims : Trims Operation.usualFields program.encode json) :
      Program.parse? json.render = some program := by
    rw [Program.parse?, parse?_render (plain.wellFormed.trims trims)]
    exact plain.decode? shallow trims
  exact ⟨reads program.encode (.same _), reads⟩

/-- Prints a text that needs escapes, in front of an empty block. -/
def printing : Program :=
  ⟨[.statement ⟨.print, [⟨.ref, [], some (.literal (.text "\"\n")), 0⟩], none, 7⟩, .block []]⟩

/-- A form of `printing` without the operands and the line of the literal and the value of the statement. -/
def briefPrinting : Json :=
  .record [("main", .record [("executables", .array
    [.record [("Operation", .record [("kind", .text "Print"),
      ("operands", .array [.record [("kind", .text "Ref"),
        ("value", .record [("Literal", .record [("String", .text "\"\n")])])]]),
      ("line", .nat 7)])],
    .record [("Block", .record [("executables", .array [])])]])])]

example : briefPrinting.render = "\x7b\"main\":\x7b\"executables\":[\x7b\"Operation\":\x7b\"kind\":\"Print\","
    ++ "\"operands\":[\x7b\"kind\":\"Ref\",\"value\":\x7b\"Literal\":\x7b\"String\":\"\\\"\\n\"\x7d\x7d\x7d],"
    ++ "\"line\":7\x7d\x7d,\x7b\"Block\":\x7b\"executables\":[]\x7d\x7d]\x7d\x7d" := by
  decide +kernel

theorem printing_read_back :
    Program.parse? printing.render = some printing ∧
      Program.parse? briefPrinting.render = some printing := by
  have plain : printing.Plain := by
    intro entry member
    obtain rfl | member := List.mem_cons.mp member
    · refine .statement (.node (fun operand member => ?_) (by rintro _ ⟨⟩) (by decide))
      obtain rfl := List.mem_singleton.mp member
      refine .node (by rintro _ ⟨⟩) (fun reference carried => ?_) (by decide)
      obtain rfl := Option.some.inj carried
      exact trivial
    · obtain rfl := List.mem_singleton.mp member
      exact .block (by rintro _ ⟨⟩)
  have literal : Trims Operation.usualFields
      (Operation.encode ⟨.ref, [], some (.literal (.text "\"\n")), 0⟩)
      (.record [("kind", .text "Ref"),
        ("value", .record [("Literal", .record [("String", .text "\"\n")])])]) :=
    .object (.keep _ (.same _) (.drop (.head _) (.keep _ (.same _)
      (.drop (.tail _ (.tail _ (.head _))) .nil))))
  have statement : Trims Operation.usualFields
      (Operation.encode ⟨.print, [⟨.ref, [], some (.literal (.text "\"\n")), 0⟩], none, 7⟩)
      (.record [("kind", .text "Print"),
        ("operands", .array [.record [("kind", .text "Ref"),
          ("value", .record [("Literal", .record [("String", .text "\"\n")])])]]),
        ("line", .nat 7)]) :=
    .object (.keep _ (.same _) (.keep _ (.array (.cons literal .nil))
      (.drop (.tail _ (.head _)) (.keep _ (.same _) .nil))))
  have trims : Trims Operation.usualFields printing.encode briefPrinting :=
    .object (.keep _ (.object (.keep _ (.array (.cons (.object (.keep _ statement .nil))
      (.cons (.same _) .nil))) .nil)) .nil)
  have both := programs_read_back printing plain (by decide)
  exact ⟨both.1, both.2 briefPrinting trims⟩

end ScopeMachine
