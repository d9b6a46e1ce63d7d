import SchemaAlgebra.Merge.Types
import SchemaAlgebra.Proofs.Siblings

/-!
# Merging two type nodes

What `foldNode` and, under the policy that the source wins, `mergeType` compute from two nodes of a
type: `TypeDefinition.absorb` and `TypeDefinition.override`.  Both join the nodes part by part, and
both leave the name, the description and the kind of the left node alone.

A `Part` is one of the collections of a type node.  What is proved for every part needs no case
distinction on kinds.

## Main statements

* `value_foldNode`, `value_mergeType`: the two functions without their reports.
* `TypeDefinition.NamesDistinct.absorb`, `….override`: no node comes to repeat a name.
* `Part.directives`, `Part.outputFields`, …: the five parts of a type node.
-/

namespace SchemaAlgebra

variable {S : Type}

/-! ## Joining bodies -/

/-- Joins two bodies part by part.  The result has the kind of the left one; a part that the right
one does not have counts as empty. -/
def TypeBody.joinWith (interfaces : List String → List String → List String)
    (members : ∀ {α : Type} [Named α], List α → List α → List α) (left right : TypeBody) :
    TypeBody :=
  match left with
  | .scalar => .scalar
  | .object names fields =>
    .object (interfaces names right.interfaces) (members fields right.outputFields)
  | .interface names fields =>
    .interface (interfaces names right.interfaces) (members fields right.outputFields)
  | .union names => .union (members names right.unionMembers)
  | .enum values => .enum (members values right.enumValues)
  | .inputObject fields => .inputObject (members fields right.inputFields)

@[simp] theorem TypeBody.kind_joinWith (interfaces : List String → List String → List String)
    (members : ∀ {α : Type} [Named α], List α → List α → List α) (left right : TypeBody) :
    (left.joinWith interfaces members right).kind = left.kind := by
  cases left <;> rfl

/-- A name stays alone in its collection if joining members keeps it so. -/
theorem TypeBody.nodup_joinWith (interfaces : List String → List String → List String)
    {members : ∀ {α : Type} [Named α], List α → List α → List α}
    (hmembers : ∀ {α : Type} [Named α] (left right : List α), (namesOf left).Nodup →
      (namesOf (members left right)).Nodup)
    {left : TypeBody} (right : TypeBody) (h : left.memberNames.Nodup) :
    (left.joinWith interfaces members right).memberNames.Nodup := by
  cases left with
  | scalar => exact h
  | object names fields => exact hmembers fields right.outputFields h
  | interface names fields => exact hmembers fields right.outputFields h
  | union names =>
    have hunion := hmembers names right.unionMembers (by rw [namesOf_self]; exact h)
    rwa [namesOf_self] at hunion
  | enum values => exact hmembers values right.enumValues h
  | inputObject fields => exact hmembers fields right.inputFields h

/-- Joined bodies have the members of the left one, and those of the right one if the two have the same
kind of members. -/
theorem TypeBody.mem_memberNames_joinWith (interfaces : List String → List String → List String)
    {members : ∀ {α : Type} [Named α], List α → List α → List α}
    (hmembers : ∀ {α : Type} [Named α] (left right : List α) (name : String),
      name ∈ namesOf (members left right) ↔ name ∈ namesOf left ∨ name ∈ namesOf right)
    {left right : TypeBody} {name : String} :
    name ∈ (left.joinWith interfaces members right).memberNames ↔
      name ∈ left.memberNames ∨ left.collection = right.collection ∧ name ∈ right.memberNames := by
  have hunion : ∀ names others : List String,
      name ∈ members names others ↔ name ∈ names ∨ name ∈ others := fun names others => by
    simpa only [namesOf_self] using hmembers names others name
  cases left <;> cases right <;>
    simp [joinWith, memberNames, collection, kind, TypeKind.collection, hmembers, hunion,
      outputFields, inputFields, enumValues, unionMembers]

/-- Every part of a body is a part of one of two others. -/
structure TypeBody.DrawsFrom (body left right : TypeBody) : Prop where
  interfaces : body.interfaces ⊆ left.interfaces ++ right.interfaces
  outputFields : body.outputFields ⊆ left.outputFields ++ right.outputFields
  inputFields : body.inputFields ⊆ left.inputFields ++ right.inputFields
  enumValues : body.enumValues ⊆ left.enumValues ++ right.enumValues
  unionMembers : body.unionMembers ⊆ left.unionMembers ++ right.unionMembers

/-- A join has its parts from the two bodies if joining lists adds nothing to them. -/
theorem TypeBody.drawsFrom_joinWith {interfaces : List String → List String → List String}
    {members : ∀ {α : Type} [Named α], List α → List α → List α}
    (hinterfaces : ∀ left right, interfaces left right ⊆ left ++ right)
    (hmembers : ∀ {α : Type} [Named α] (left right : List α), members left right ⊆ left ++ right)
    (left right : TypeBody) : (left.joinWith interfaces members right).DrawsFrom left right := by
  have hnothing : ∀ {ι : Type} (items : List ι), [] ⊆ items := List.nil_subset
  cases left with
  | scalar => exact ⟨hnothing _, hnothing _, hnothing _, hnothing _, hnothing _⟩
  | object names fields =>
    exact ⟨hinterfaces _ _, hmembers _ _, hnothing _, hnothing _, hnothing _⟩
  | interface names fields =>
    exact ⟨hinterfaces _ _, hmembers _ _, hnothing _, hnothing _, hnothing _⟩
  | union names => exact ⟨hnothing _, hnothing _, hnothing _, hnothing _, hmembers _ _⟩
  | enum values => exact ⟨hnothing _, hnothing _, hnothing _, hmembers _ _, hnothing _⟩
  | inputObject fields => exact ⟨hnothing _, hnothing _, hmembers _ _, hnothing _, hnothing _⟩

/-! ## Two nodes -/

namespace TypeDefinition

/-- Adds to a node what a later node of its type brings.  What the first node has stays. -/
def absorb (into piece : TypeDefinition) : TypeDefinition :=
  { into with
    directives := firstWins into.directives piece.directives
    body := into.body.joinWith unionNames firstWins piece.body }

/-- Merges a source node into a node of the target.  The source wins, but interfaces are the
target's. -/
def override (left right : TypeDefinition) : TypeDefinition :=
  { left with
    directives := lastWins left.directives right.directives
    body := left.body.joinWith (fun names _ => names) lastWins right.body }

@[simp] theorem name_absorb (into piece : TypeDefinition) : (into.absorb piece).name = into.name :=
  rfl

@[simp] theorem name_override (left right : TypeDefinition) :
    (left.override right).name = left.name := rfl

@[simp] theorem kind_absorb (into piece : TypeDefinition) : (into.absorb piece).kind = into.kind := by
  simp [absorb, kind]

@[simp] theorem kind_override (left right : TypeDefinition) :
    (left.override right).kind = left.kind := by
  simp [override, kind]

theorem drawsFrom_absorb (into piece : TypeDefinition) :
    (into.absorb piece).body.DrawsFrom into.body piece.body :=
  TypeBody.drawsFrom_joinWith unionNames_subset firstWins_subset _ _

theorem drawsFrom_override (left right : TypeDefinition) :
    (left.override right).body.DrawsFrom left.body right.body :=
  TypeBody.drawsFrom_joinWith List.subset_append_left lastWins_subset _ _

/-- A node repeats no name within its directives, nor within its members. -/
def NamesDistinct (definition : TypeDefinition) : Prop :=
  (namesOf definition.directives).Nodup ∧ definition.body.memberNames.Nodup

instance (definition : TypeDefinition) : Decidable definition.NamesDistinct :=
  inferInstanceAs (Decidable (_ ∧ _))

theorem NamesDistinct.absorb {into : TypeDefinition} (h : into.NamesDistinct)
    (piece : TypeDefinition) : (into.absorb piece).NamesDistinct :=
  ⟨nodup_settleAll keepsName_first _ h.1,
    TypeBody.nodup_joinWith _ (fun _ right => nodup_settleAll keepsName_first right) _ h.2⟩

theorem NamesDistinct.override {left : TypeDefinition} (h : left.NamesDistinct)
    (right : TypeDefinition) : (left.override right).NamesDistinct :=
  ⟨nodup_settleAll keepsName_last _ h.1,
    TypeBody.nodup_joinWith (fun names _ => names)
      (fun _ right => nodup_settleAll keepsName_last right) _ h.2⟩

end TypeDefinition

@[simp] theorem value_foldBody (owner : String) (into piece : TypeBody) :
    (foldBody owner into piece : Asking S TypeBody).value =
      into.joinWith unionNames firstWins piece := by
  cases into <;> simp [foldBody, TypeBody.joinWith]

/-- Folding a later node of the target into the first one, without the reports. -/
@[simp] theorem value_foldNode (into piece : TypeDefinition) :
    (foldNode into piece : Asking S TypeDefinition).value = into.absorb piece := by
  simp [foldNode, TypeDefinition.absorb]

/-- The policy that the source wins answers with the right node. -/
private theorem value_mergeSiblings_rightWins {α : Type} [Named α] (owner : String)
    (left right : List α) {resolve : α → α → Asking S α}
    (hright : ∀ l r, (resolve l r).value = r) :
    (mergeSiblings owner left right resolve).value = lastWins left right := by
  have hresolve : (fun l r => (resolve l r).value) = fun _ r => r :=
    funext fun l => funext (hright l)
  rw [value_mergeSiblings owner left right resolve (hresolve ▸ keepsName_last), hresolve]
  rfl

theorem value_mergeBody (left right : TypeDefinition) :
    (mergeBody (Policy.rightWins : Policy S) left right).value =
      left.body.joinWith (fun names _ => names) lastWins right.body := by
  have houtput : ∀ fields, (mergeOutputFields (Policy.rightWins : Policy S) left right fields).value =
      lastWins fields right.body.outputFields := fun fields =>
    value_mergeSiblings_rightWins right.name fields right.body.outputFields fun _ _ => rfl
  have hinput : ∀ fields, (mergeInputFields (Policy.rightWins : Policy S) left right fields).value =
      lastWins fields right.body.inputFields := fun fields =>
    value_mergeSiblings_rightWins right.name fields right.body.inputFields fun _ _ => rfl
  unfold mergeBody
  cases left.body with
  | scalar => rfl
  | object names fields => simp [TypeBody.joinWith, houtput]
  | interface names fields => simp [TypeBody.joinWith, houtput]
  | union names =>
    exact congrArg TypeBody.union
      (value_mergeSiblings_rightWins right.name names right.body.unionMembers fun _ _ => rfl)
  | enum values =>
    exact congrArg TypeBody.enum
      (value_mergeSiblings_rightWins right.name values right.body.enumValues fun _ _ => rfl)
  | inputObject fields => simp [TypeBody.joinWith, hinput]

/-- Merging a source node under the policy that the source wins, without the reports. -/
theorem value_mergeType (sides : ScalarSides S) (left right : TypeDefinition) :
    (mergeType Policy.rightWins sides left right).value.1 = left.override right := by
  have hdirectives : (mergeDirectives (Policy.rightWins : Policy S) left right).value =
      lastWins left.directives right.directives :=
    value_mergeSiblings_rightWins right.name left.directives right.directives fun _ _ => rfl
  unfold mergeType
  simp only [Traced.value_bind, hdirectives]
  -- Neither a report about the kinds nor an answer about configs changes the node.
  split <;> split <;> simp [value_mergeBody, TypeDefinition.override]

/-! ## Parts -/

/-- One of the collections of a type node, joined as such in both ways of merging two nodes. -/
structure Part (α : Type) [Named α] where
  nodes : TypeDefinition → List α
  absorb : ∀ into piece : TypeDefinition, into.kind = piece.kind →
    nodes (into.absorb piece) = firstWins (nodes into) (nodes piece)
  override : ∀ left right : TypeDefinition, left.kind = right.kind →
    nodes (left.override right) = lastWins (nodes left) (nodes right)
  distinct : ∀ definition : TypeDefinition, definition.NamesDistinct →
    (namesOf (nodes definition)).Nodup

namespace Part

/-- The directives of a type. -/
def directives : Part Directive where
  nodes := TypeDefinition.directives
  absorb _ _ _ := rfl
  override _ _ _ := rfl
  distinct _ h := h.1

section Members

variable {α : Type} [Named α]

/-- A collection of members, which is joined along with the bodies of two nodes of one kind. -/
def ofBody (members : TypeBody → List α)
    (hjoin : ∀ (interfaces : List String → List String → List String)
      (join : ∀ {β : Type} [Named β], List β → List β → List β), join ([] : List α) [] = [] →
      ∀ left right : TypeBody, left.kind = right.kind →
        members (left.joinWith interfaces join right) = join (members left) (members right))
    (hdistinct : ∀ body : TypeBody, body.memberNames.Nodup → (namesOf (members body)).Nodup) :
    Part α where
  nodes definition := members definition.body
  absorb into piece hkind := hjoin unionNames firstWins rfl into.body piece.body hkind
  override left right hkind :=
    hjoin (fun names _ => names) lastWins rfl left.body right.body hkind
  distinct definition h := hdistinct definition.body h.2

end Members

/-- The fields of an object or an interface. -/
def outputFields : Part Field :=
  ofBody TypeBody.outputFields
    -- Bodies of one kind either both have output fields or both have none.
    (fun _ _ hnil left right hkind => by
      cases left <;> cases right <;> first | rfl | exact hnil.symm | cases hkind)
    (fun body h => by cases body <;> first | exact h | exact List.nodup_nil)

/-- The fields of an input object. -/
def inputFields : Part InputValue :=
  ofBody TypeBody.inputFields
    (fun _ _ hnil left right hkind => by
      cases left <;> cases right <;> first | rfl | exact hnil.symm | cases hkind)
    (fun body h => by cases body <;> first | exact h | exact List.nodup_nil)

/-- The values of an enum. -/
def enumValues : Part EnumValue :=
  ofBody TypeBody.enumValues
    (fun _ _ hnil left right hkind => by
      cases left <;> cases right <;> first | rfl | exact hnil.symm | cases hkind)
    (fun body h => by cases body <;> first | exact h | exact List.nodup_nil)

/-- The members of a union. -/
def unionMembers : Part String :=
  ofBody TypeBody.unionMembers
    (fun _ _ hnil left right hkind => by
      cases left <;> cases right <;> first | rfl | exact hnil.symm | cases hkind)
    (fun body h => by
      rw [namesOf_self]
      cases body <;> first | exact h | exact List.nodup_nil)

end Part

end SchemaAlgebra
