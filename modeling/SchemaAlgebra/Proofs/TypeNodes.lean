import SchemaAlgebra.Arena
import SchemaAlgebra.Normalize

/-!
# The type nodes of a document

A type may be spread over a definition and extensions, anywhere in a document.  `nodesOf` collects
its nodes in their normalized forms, and `carrying` the definitions that have a given key.

## Main statements

* `Definition.eq_of_typeDefinition?`: the two forms that a type node is written in.
* `exists_first`: a list without a key, or taken apart at the first definition that has it.
* `mem_nodesOf`: the nodes of a type are the normalized forms of its definitions.
* `nodesOf_eq_nil_or_singleton`: a type that is written once has one node, or none.
-/

namespace SchemaAlgebra

/-! ## Keys -/

@[simp] theorem Definition.key_type (definition : TypeDefinition) :
    (Definition.type definition).key = ⟨.type, definition.name⟩ := rfl

@[simp] theorem Definition.key_extension (node : TypeExtension) :
    (Definition.extension node).key = ⟨.type, node.name⟩ := rfl

@[simp] theorem Definition.key_directive (definition : DirectiveDefinition) :
    (Definition.directive definition).key = ⟨.directive, definition.name⟩ := rfl

@[simp] theorem Definition.key_schema (definition : SchemaDefinition) :
    (Definition.schema definition).key = ⟨.schema, ""⟩ := rfl

@[simp] theorem Definition.key_normalize (definition : Definition) :
    definition.normalize.value.key = definition.key := by
  cases definition <;> rfl

/-- A type node is a definition, or an extension whose normalized form it has. -/
theorem Definition.eq_of_typeDefinition? {definition : Definition} {node : TypeDefinition}
    (h : definition.typeDefinition? = some node) :
    definition = .type node ∨
      ∃ extension : TypeExtension, definition = .extension extension ∧
        extension.toDefinition = node := by
  cases definition with
  | type definition => exact .inl (congrArg Definition.type (Option.some.inj h))
  | extension extension => exact .inr ⟨extension, rfl, Option.some.inj h⟩
  | schema definition => cases h
  | directive definition => cases h

theorem Definition.key_of_typeDefinition? {definition : Definition} {node : TypeDefinition}
    (h : definition.typeDefinition? = some node) : definition.key = ⟨.type, node.name⟩ := by
  rcases eq_of_typeDefinition? h with rfl | ⟨extension, rfl, rfl⟩
  · rfl
  · rfl

theorem Definition.exists_typeDefinition? {definition : Definition} {name : String}
    (h : definition.key = ⟨.type, name⟩) :
    ∃ node, definition.typeDefinition? = some node ∧ node.name = name := by
  cases definition with
  | type definition => exact ⟨definition, rfl, congrArg DefinitionKey.name h⟩
  | extension node => exact ⟨node.toDefinition, rfl, congrArg DefinitionKey.name h⟩
  | schema definition => cases congrArg DefinitionKey.space h
  | directive definition => cases congrArg DefinitionKey.space h

theorem Definition.exists_schema {definition : Definition}
    (h : definition.key = ⟨.schema, ""⟩) : ∃ schema, definition = .schema schema := by
  cases definition with
  | schema definition => exact ⟨definition, rfl⟩
  | type definition => cases congrArg DefinitionKey.space h
  | extension node => cases congrArg DefinitionKey.space h
  | directive definition => cases congrArg DefinitionKey.space h

/-- The keys of a list of definitions, in order. -/
def keysOf (definitions : List Definition) : List DefinitionKey := definitions.map Definition.key

theorem keysOf_append (front back : List Definition) :
    keysOf (front ++ back) = keysOf front ++ keysOf back := List.map_append

/-- Where no key is there twice, a definition takes the list apart into others of other keys. -/
theorem ne_key_of_once {front later : List Definition} {first : Definition}
    (h : (keysOf (front ++ first :: later)).Nodup) :
    (∀ earlier ∈ front, earlier.key ≠ first.key) ∧ ∀ other ∈ later, other.key ≠ first.key := by
  rw [keysOf, List.map_append, List.map_cons, List.nodup_append, List.nodup_cons] at h
  obtain ⟨-, ⟨hfresh, -⟩, hfront⟩ := h
  refine ⟨fun earlier hmem => ?_, fun other hmem hsame => ?_⟩
  · exact hfront _ (List.mem_map_of_mem hmem) _ List.mem_cons_self
  · exact hfresh (hsame ▸ List.mem_map_of_mem hmem)

/-- The definitions of a key, in order. -/
def carrying (key : DefinitionKey) (definitions : List Definition) : List Definition :=
  definitions.filter (·.key = key)

section Carrying

variable {key : DefinitionKey}

@[simp] theorem carrying_append (front back : List Definition) :
    carrying key (front ++ back) = carrying key front ++ carrying key back := List.filter_append ..

theorem carrying_cons (definition : Definition) (rest : List Definition) :
    carrying key (definition :: rest) =
      if definition.key = key then definition :: carrying key rest else carrying key rest := by
  by_cases h : definition.key = key <;> simp [carrying, h]

theorem carrying_eq_nil {definitions : List Definition} :
    carrying key definitions = [] ↔ ∀ definition ∈ definitions, definition.key ≠ key := by
  simp [carrying]

theorem mem_carrying {definition : Definition} {definitions : List Definition} :
    definition ∈ carrying key definitions ↔ definition ∈ definitions ∧ definition.key = key := by
  simp [carrying]

/-- Without the definitions of another key. -/
theorem carrying_filter_ne (other : DefinitionKey) (definitions : List Definition) :
    carrying key (definitions.filter (·.key ≠ other)) =
      if key = other then [] else carrying key definitions := by
  split
  · next h =>
    subst h
    exact carrying_eq_nil.mpr fun definition hmem => by simpa using (List.mem_filter.mp hmem).2
  · next h =>
    rw [carrying, carrying, List.filter_filter]
    apply List.filter_congr
    intro definition _
    by_cases hkey : definition.key = key <;> simp [hkey, h]

/-- Either no definition has a key, or the first one that has it takes the list apart. -/
theorem exists_first (key : DefinitionKey) (definitions : List Definition) :
    (∀ definition ∈ definitions, definition.key ≠ key) ∨
      ∃ front first later, definitions = front ++ first :: later ∧ first.key = key ∧
        ∀ earlier ∈ front, earlier.key ≠ key := by
  induction definitions with
  | nil => exact .inl fun _ h => absurd h List.not_mem_nil
  | cons definition rest ih =>
    by_cases hkey : definition.key = key
    · exact .inr ⟨[], definition, rest, rfl, hkey, fun _ h => absurd h List.not_mem_nil⟩
    · rcases ih with habsent | ⟨front, first, later, rfl, hfirst, hfront⟩
      · exact .inl (List.forall_mem_cons.mpr ⟨hkey, habsent⟩)
      · exact .inr ⟨definition :: front, first, later, rfl, hfirst,
          List.forall_mem_cons.mpr ⟨hkey, hfront⟩⟩

end Carrying

/-! ## The nodes of a type -/

/-- The type nodes of a list of definitions in their normalized forms, in order. -/
def typeNodes (definitions : List Definition) : List TypeDefinition :=
  definitions.filterMap Definition.typeDefinition?

theorem typeNodes_subset {few many : List Definition} (h : few ⊆ many) :
    typeNodes few ⊆ typeNodes many := by
  intro node hnode
  obtain ⟨definition, hmem, hdefinition⟩ := List.mem_filterMap.mp hnode
  exact List.mem_filterMap.mpr ⟨definition, h hmem, hdefinition⟩

/-- The nodes of a type in their normalized forms, in order. -/
def nodesOf (name : String) (definitions : List Definition) : List TypeDefinition :=
  (carrying ⟨.type, name⟩ definitions).filterMap Definition.typeDefinition?

section NodesOf

variable {name : String}

@[simp] theorem nodesOf_nil : nodesOf name [] = [] := rfl

@[simp] theorem nodesOf_append (front back : List Definition) :
    nodesOf name (front ++ back) = nodesOf name front ++ nodesOf name back := by
  simp [nodesOf]

theorem nodesOf_cons (definition : Definition) (rest : List Definition) :
    nodesOf name (definition :: rest) = nodesOf name [definition] ++ nodesOf name rest := by
  rw [← nodesOf_append, List.singleton_append]

theorem nodesOf_singleton {definition : Definition} {node : TypeDefinition}
    (h : definition.typeDefinition? = some node) :
    nodesOf name [definition] = if node.name = name then [node] else [] := by
  have hkey := Definition.key_of_typeDefinition? h
  by_cases hname : node.name = name <;> simp [nodesOf, carrying, hkey, hname, h]

/-- A definition with another key is no node of the type. -/
theorem nodesOf_singleton_of_ne {definition : Definition} (h : definition.key ≠ ⟨.type, name⟩) :
    nodesOf name [definition] = [] := by
  simp [nodesOf, carrying, h]

theorem nodesOf_cons_of_ne {definition : Definition} (h : definition.key ≠ ⟨.type, name⟩)
    (rest : List Definition) : nodesOf name (definition :: rest) = nodesOf name rest := by
  rw [nodesOf_cons, nodesOf_singleton_of_ne h, List.nil_append]

theorem nodesOf_cons_of_node {definition : Definition} {node : TypeDefinition}
    (h : definition.typeDefinition? = some node) (hname : node.name = name)
    (rest : List Definition) : nodesOf name (definition :: rest) = node :: nodesOf name rest := by
  rw [nodesOf_cons, nodesOf_singleton h, if_pos hname, List.singleton_append]

theorem nodesOf_eq_nil_of_absent {definitions : List Definition}
    (h : ∀ definition ∈ definitions, definition.key ≠ ⟨.type, name⟩) :
    nodesOf name definitions = [] := by
  rw [nodesOf, carrying_eq_nil.mpr h, List.filterMap_nil]

/-- The first definition of a type takes its nodes apart as well. -/
theorem nodesOf_of_split {front : List Definition} {first : Definition} {node : TypeDefinition}
    (later : List Definition) (hfront : ∀ earlier ∈ front, earlier.key ≠ ⟨.type, name⟩)
    (hfirst : first.typeDefinition? = some node) (hname : node.name = name) :
    nodesOf name (front ++ first :: later) = node :: nodesOf name later := by
  rw [nodesOf_append, nodesOf_eq_nil_of_absent hfront, List.nil_append,
    nodesOf_cons_of_node hfirst hname]

theorem mem_nodesOf {definitions : List Definition} {node : TypeDefinition} :
    node ∈ nodesOf name definitions ↔
      ∃ definition ∈ definitions, definition.typeDefinition? = some node ∧ node.name = name := by
  simp only [nodesOf, List.mem_filterMap, mem_carrying]
  constructor
  · rintro ⟨definition, ⟨hmem, hkey⟩, hnode⟩
    have hname := (Definition.key_of_typeDefinition? hnode).symm.trans hkey
    exact ⟨definition, hmem, hnode, congrArg DefinitionKey.name hname⟩
  · rintro ⟨definition, hmem, hnode, rfl⟩
    exact ⟨definition, ⟨hmem, Definition.key_of_typeDefinition? hnode⟩, hnode⟩

theorem name_of_mem_nodesOf {definitions : List Definition} {node : TypeDefinition}
    (h : node ∈ nodesOf name definitions) : node.name = name := by
  obtain ⟨_, _, _, hname⟩ := mem_nodesOf.mp h
  exact hname

theorem mem_typeNodes_of_mem_nodesOf {definitions : List Definition} {node : TypeDefinition}
    (h : node ∈ nodesOf name definitions) : node ∈ typeNodes definitions := by
  obtain ⟨definition, hmem, hnode, -⟩ := mem_nodesOf.mp h
  exact List.mem_filterMap.mpr ⟨definition, hmem, hnode⟩

theorem nodesOf_eq_nil_iff {definitions : List Definition} :
    nodesOf name definitions = [] ↔
      ∀ definition ∈ definitions, definition.key ≠ ⟨.type, name⟩ := by
  refine ⟨?_, nodesOf_eq_nil_of_absent⟩
  intro hnone definition hmem hkey
  obtain ⟨node, hnode, hname⟩ := Definition.exists_typeDefinition? hkey
  have hfound : node ∈ nodesOf name definitions := mem_nodesOf.mpr ⟨definition, hmem, hnode, hname⟩
  rw [hnone] at hfound
  exact List.not_mem_nil hfound

end NodesOf

/-- The nodes of a type are the type nodes of its name. -/
theorem nodesOf_eq_filter (name : String) (definitions : List Definition) :
    nodesOf name definitions = (typeNodes definitions).filter (·.name = name) := by
  induction definitions with
  | nil => rfl
  | cons definition rest ih =>
    rw [nodesOf_cons, ih]
    cases hnode : definition.typeDefinition? with
    | none =>
      have hkey : definition.key ≠ ⟨.type, name⟩ := by
        intro hkey
        obtain ⟨node, hsome, -⟩ := Definition.exists_typeDefinition? hkey
        rw [hnode] at hsome
        cases hsome
      simp [nodesOf_singleton_of_ne hkey, typeNodes, hnode]
    | some node =>
      rw [nodesOf_singleton hnode]
      by_cases hname : node.name = name <;> simp [typeNodes, hnode, hname]

/-- A type that is written once has one node, or none. -/
theorem nodesOf_eq_nil_or_singleton {definitions : List Definition}
    (h : ((typeNodes definitions).map (·.name)).Nodup) (name : String) :
    nodesOf name definitions = [] ∨ ∃ node, nodesOf name definitions = [node] := by
  have hnodup : ((nodesOf name definitions).map (·.name)).Nodup := by
    rw [nodesOf_eq_filter]
    exact h.sublist (List.filter_sublist.map _)
  match hnodes : nodesOf name definitions with
  | [] => exact .inl rfl
  | [node] => exact .inr ⟨node, rfl⟩
  | first :: second :: rest =>
    have hfirst : first.name = name := name_of_mem_nodesOf (hnodes ▸ List.mem_cons_self)
    have hsecond : second.name = name :=
      name_of_mem_nodesOf (hnodes ▸ List.mem_cons_of_mem _ List.mem_cons_self)
    simp [hnodes, hfirst, hsecond] at hnodup

end SchemaAlgebra
