import AgentHub.Lib.Json

/-!
# Records and variants as JSON objects

A record is an object with a member for each field, in any order, or the array of its fields.
A field that is an option can be missing or `null`. Unknown and repeated members are refused. A
variant is an object whose one key is the name of the variant.
-/

namespace Json

/-- A string. -/
def str? : Json → Option String
  | .string s => some s
  | _ => none

/-- The fields a struct with these field names is given. -/
def fields? (names : List String) : Json → Option (List (String × Json))
  | .object ms => if (ms.map Prod.fst).Nodup ∧ ∀ m ∈ ms, m.1 ∈ names then some ms else none
  | .array items => if items.length = names.length then some (names.zip items) else none
  | _ => none

/-- The name and the content of a variant. -/
def variant? : Json → Option (String × Json)
  | .object [m] => some m
  | _ => none

/-- The object of a variant. -/
def ofVariant (tag : String) (content : Json) : Json :=
  .object [(tag, content)]

@[simp] theorem variant?_ofVariant (tag : String) (content : Json) :
    (ofVariant tag content).variant? = some (tag, content) :=
  rfl

/-- What stands at a path of keys. -/
def at? : List String → Json → Option Json
  | [], j => some j
  | key :: path, .object ms => (ms.lookup key).bind (at? path)
  | _ :: _, _ => none

/-- The fields of a record that is written with all of them. -/
theorem fields?_object {names : List String} {ms : List (String × Json)} (h : ms.map Prod.fst = names)
    (hnodup : names.Nodup) : (Json.object ms).fields? names = some ms := by
  rw [fields?, if_pos]
  exact ⟨h ▸ hnodup, fun m hm => h ▸ List.mem_map_of_mem hm⟩

/-- A field stands one level below its record. -/
theorem depth_lt_of_fields? {names : List String} {j : Json} {ms : List (String × Json)}
    {m : String × Json} (h : j.fields? names = some ms) (hm : m ∈ ms) : m.2.depth < j.depth := by
  unfold fields? at h
  split at h
  · split_ifs at h
    obtain rfl := Option.some.inj h
    exact depth_lt_object hm
  · split_ifs at h
    obtain rfl := Option.some.inj h
    exact depth_lt_array (List.of_mem_zip hm).2
  · cases h

theorem variant?_eq_some {j : Json} {tag : String} {content : Json} :
    j.variant? = some (tag, content) ↔ j = ofVariant tag content := by
  unfold variant?
  split
  · simp [ofVariant]
  · rename_i hne
    refine iff_of_false (by simp) ?_
    rintro rfl
    exact hne _ rfl

theorem depth_ofVariant (tag : String) (content : Json) :
    (ofVariant tag content).depth = content.depth + 1 := by
  rw [ofVariant, depth, depthMembers, depthMembers, depthMember_eq, Nat.max_zero]

end Json

/-- A field that has to be there. -/
def field {α : Type} (read : Json → Option α) (name : String) (ms : List (String × Json)) : Option α :=
  (ms.lookup name).bind read

theorem field_eq_some {α : Type} {read : Json → Option α} {name : String} {ms : List (String × Json)}
    {a : α} (h : field read name ms = some a) : ∃ j, (name, j) ∈ ms ∧ read j = some a := by
  obtain ⟨j, hlookup, hread⟩ := Option.bind_eq_some_iff.1 h
  obtain ⟨pre, post, hsplit, -⟩ := List.lookup_eq_some_iff.1 hlookup
  exact ⟨j, by simp [hsplit], hread⟩

/-- A field that can be `null` or absent. -/
def optionField {α : Type} (read : Json → Option α) (name : String) (ms : List (String × Json)) :
    Option (Option α) :=
  match ms.lookup name with
  | none | some .null => some none
  | some j => (read j).map some

/-- A missing option is written as `null`. -/
def encodeOption {α : Type} (write : α → Json) : Option α → Json
  | none => .null
  | some a => write a


/-- An option is read back, unless a value is written as `null`. -/
theorem optionField_encodeOption {α : Type} {read : Json → Option α} {write : α → Json}
    {name : String} {ms : List (String × Json)} (a : Option α)
    (hlookup : ms.lookup name = some (encodeOption write a)) (hread : ∀ a, read (write a) = some a)
    (hnull : ∀ a, write a ≠ .null) : optionField read name ms = some a := by
  rw [optionField, hlookup]
  cases a with
  | none => rfl
  | some a =>
    rw [encodeOption]
    split
    · rename_i h
      cases h
    · rename_i h
      exact absurd (Option.some.inj h) (hnull a)
    · rename_i j _ h
      rw [← Option.some.inj h, hread, Option.map_some]
