import SchemaAlgebra.Proofs.KeyedSteps
import SchemaAlgebra.Proofs.MergeThenPare

/-!
# What is added

A type or directive that only the source has is added by a merge and by a pare.  For the source's first
definition of it both do the same.  But then the key is there, and the source's later definitions of it
meet what was just added: a merge merges them into it, and a pare takes them away from it.

## Main statements

* `Operation.foldl_into_merge_nil`: what a merge makes of a key that the target does not have.
* `Operation.foldl_into_pare_nil`: what a pare makes of it.
* `pare_addsLikeMerge_iff`: the two additions, and when they agree.
-/

namespace SchemaAlgebra

variable {R S : Type}

/-- What a merge adds for the source's definitions of a key: the first one, with the later ones merged
into it. -/
def mergedAddition (first : Definition) (rest : List Definition) : Definition :=
  first.normalize.value.overrideAll rest

/-- What a pare makes of the addition so far for another definition of its key: it takes it away, and
adds it if nothing is there. -/
def pareAddition (added : Option Definition) (right : Definition) : Option Definition :=
  match added with
  | none => some right.normalize.value
  | some node => survivor? [right] node

/-- What a pare adds for the source's definitions of a key. -/
def paredAddition (first : Definition) (rest : List Definition) : Option Definition :=
  rest.foldl pareAddition (some first.normalize.value)

namespace Operation

/-- What a merge makes of a key that is not there. -/
theorem foldl_into_merge_nil {first : Definition} {rest : List Definition}
    (hrest : ∀ right ∈ rest, right.key = first.key) :
    (first :: rest).foldl (into .merge) [] = [mergedAddition first rest] := by
  have hfirst : into .merge [] first = [first.normalize.value] :=
    into_of_absent .merge fun _ hmem => absurd hmem List.not_mem_nil
  rw [List.foldl_cons, hfirst]
  refine (Definition.Leads.alone first.isExtension_normalize).foldl_into fun right hmem => ?_
  rw [hrest right hmem, Definition.key_normalize]

/-- The step of a pare on what was added for a key. -/
theorem into_pare_added {added : Option Definition} {right : Definition}
    (hspace : right.key.space ≠ .schema) (hadded : ∀ node ∈ added, node.key = right.key) :
    into .pare added.toList right = (pareAddition added right).toList := by
  cases added with
  | none =>
    show into .pare [] right = _
    rw [into_of_absent .pare fun _ hmem => absurd hmem List.not_mem_nil]
    -- Only a schema definition is not added.
    cases right with
    | schema right => exact absurd rfl hspace
    | type right => rfl
    | extension node => rfl
    | directive right => rfl
  | some node =>
    have hthere : right.key ∈ keysOf [node] := List.mem_singleton.mpr (hadded node rfl).symm
    have hnothing : addition? [node] right = none := if_pos hthere
    show [node].filterMap (survivor? [right]) ++ (addition? [node] right).toList = _
    rw [hnothing, pareAddition]
    cases hleft : survivor? [right] node with
    | none => rw [List.filterMap_cons_none hleft]; rfl
    | some left => rw [List.filterMap_cons_some hleft]; rfl

/-- The addition of a pare keeps its key. -/
theorem key_pareAddition {added : Option Definition} {right : Definition}
    (hadded : ∀ node ∈ added, node.key = right.key) :
    ∀ node ∈ pareAddition added right, node.key = right.key := by
  intro node hnode
  cases added with
  | none =>
    obtain rfl := Option.some.inj hnode
    exact right.key_normalize
  | some before => exact (key_of_survivor? hnode).trans (hadded before rfl)

/-- The run of a pare on what was added for a key. -/
theorem foldl_into_pare_added {key : DefinitionKey} (hspace : key.space ≠ .schema)
    (added : Option Definition) {rest : List Definition} (hadded : ∀ node ∈ added, node.key = key)
    (hrest : ∀ right ∈ rest, right.key = key) :
    rest.foldl (into .pare) added.toList = (rest.foldl pareAddition added).toList := by
  induction rest generalizing added with
  | nil => rfl
  | cons right rest ih =>
    obtain ⟨rfl, hlater⟩ := List.forall_mem_cons.mp hrest
    rw [List.foldl_cons, into_pare_added hspace hadded, ih _ (key_pareAddition hadded) hlater]
    rfl

/-- What a pare makes of a key that is not there. -/
theorem foldl_into_pare_nil {first : Definition} {rest : List Definition}
    (hspace : first.key.space ≠ .schema) (hrest : ∀ right ∈ rest, right.key = first.key) :
    (first :: rest).foldl (into .pare) [] = (paredAddition first rest).toList := by
  refine foldl_into_pare_added hspace none (fun _ hmem => nomatch hmem) ?_
  exact List.forall_mem_cons.mpr ⟨rfl, hrest⟩

end Operation

/-- For every type and directive that only the source has, the definition that a merge adds and the one,
if any, that a pare adds.  They agree exactly if the source's later definitions, taken away from the first
one, leave what they give when they are merged into it; in particular, if there is only one. -/
theorem pare_addsLikeMerge_iff {target source : Source R S} {left right : Document}
    (hleft : (target.toDocument .merge .target).value = .ok left)
    (hright : (source.toDocument .merge .source).value = .ok right) :
    ∃ merged pared : Bundle R S,
      (merge Policy.rightWins target source).value = .ok merged ∧
      (pare target source).value = .ok pared ∧
      ∀ key : DefinitionKey, key.space ≠ .schema → key ∉ keysOf left.definitions →
        ∀ first rest, carrying key right.definitions = first :: rest →
          let added := carrying key merged.document.definitions
          let addedByPare := carrying key pared.document.definitions
          added = [mergedAddition first rest] ∧
            addedByPare = (paredAddition first rest).toList ∧
            (addedByPare = added ↔ paredAddition first rest = some (mergedAddition first rest)) ∧
            (rest = [] → addedByPare = added) := by
  obtain ⟨merged, hmerged, hmergedDefinitions⟩ := merge_eq_foldl_into hleft hright
  obtain ⟨pared, hpared, hparedDefinitions⟩ :=
    pare_eq_foldl_into (Source.toDocument_of_ok hleft .pare .target)
      (Source.toDocument_of_ok hright .pare .source)
  refine ⟨merged, pared, hmerged, hpared, ?_⟩
  intro key hspace hkey first rest hcarried added addedByPare
  have hown : ∀ definition ∈ first :: rest, definition.key = key := fun definition hmem =>
    (mem_carrying.mp (hcarried ▸ hmem)).2
  obtain ⟨rfl, hrest⟩ := List.forall_mem_cons.mp hown
  have habsent : carrying first.key left.definitions = [] := carrying_eq_nil.mpr fun definition hmem e =>
    hkey (List.mem_map.mpr ⟨definition, hmem, e⟩)
  -- Both runs deal with the key from nothing on.
  have hadded : added = [mergedAddition first rest] := by
    show carrying first.key merged.document.definitions = _
    rw [hmergedDefinitions, Operation.carrying_foldl_into, hcarried, habsent,
      Operation.foldl_into_merge_nil hrest]
  have haddedByPare : addedByPare = (paredAddition first rest).toList := by
    show carrying first.key pared.document.definitions = _
    rw [hparedDefinitions, Operation.carrying_foldl_into, hcarried, habsent,
      Operation.foldl_into_pare_nil hspace hrest]
  refine ⟨hadded, haddedByPare, ?_, ?_⟩
  · rw [hadded, haddedByPare]
    constructor
    · intro hsame
      cases hpare : paredAddition first rest with
      | none => rw [hpare] at hsame; cases hsame
      | some node => rw [hpare] at hsame; rw [(List.cons.inj hsame).1]
    · intro hsame
      rw [hsame]
      rfl
  · rintro rfl
    rw [hadded, haddedByPare]
    rfl

/-- An enum that the source only extends, and a type that it defines once more after taking it away. -/
theorem pare_spreadAdditions_addLikeMerge :
    ∃ merged pared : Bundle Unit Unit,
      (merge Policy.rightWins (.sdl "scalar Date")
        (.sdl "type A { a: Int } extend enum Color { RED } type A { a: Int } type A { a: ID b: Int }")
        ).value = .ok merged ∧
      (pare (.sdl "scalar Date")
        (.sdl "type A { a: Int } extend enum Color { RED } type A { a: Int } type A { a: ID b: Int }")
        ).value = .ok pared ∧
      carrying ⟨.type, "Color"⟩ pared.document.definitions =
        carrying ⟨.type, "Color"⟩ merged.document.definitions ∧
      carrying ⟨.type, "A"⟩ pared.document.definitions =
        carrying ⟨.type, "A"⟩ merged.document.definitions := by
  let left : Document := ⟨[.type ⟨none, "Date", [], .scalar⟩]⟩
  let right : Document := ⟨[
    .type ⟨none, "A", [], .object [] [⟨none, "a", [], .named "Int", []⟩]⟩,
    .extension ⟨"Color", [], .enum [⟨none, "RED", []⟩]⟩,
    .type ⟨none, "A", [], .object [] [⟨none, "a", [], .named "Int", []⟩]⟩,
    .type ⟨none, "A", [], .object [] [⟨none, "a", [], .named "ID", []⟩,
      ⟨none, "b", [], .named "Int", []⟩]⟩]⟩
  have hleft : ((.sdl "scalar Date" : Source Unit Unit).toDocument .merge .target).value = .ok left := by
    decide +kernel
  have hright : ((.sdl
      "type A { a: Int } extend enum Color { RED } type A { a: Int } type A { a: ID b: Int }" :
      Source Unit Unit).toDocument .merge .source).value = .ok right := by
    decide +kernel
  obtain ⟨merged, pared, hmerged, hpared, hkeys⟩ := pare_addsLikeMerge_iff hleft hright
  refine ⟨merged, pared, hmerged, hpared, ?_, ?_⟩
  · exact (hkeys ⟨.type, "Color"⟩ (by decide) (by decide) _ _ rfl).2.2.2 rfl
  · exact (hkeys ⟨.type, "A"⟩ (by decide) (by decide) _ _ rfl).2.2.1.mpr (by decide)

/-- A type that the source defines and extends loses the extension's fields in a pare, while a merge adds
it with them. -/
theorem pare_extendedAddition_losesFields :
    ∃ merged pared : Bundle Unit Unit,
      (merge Policy.rightWins (.sdl "type T { t: Int }")
        (.sdl "type A { a: Int }\nextend type A { b: Int }")).value = .ok merged ∧
      (pare (.sdl "type T { t: Int }")
        (.sdl "type A { a: Int }\nextend type A { b: Int }")).value = .ok pared ∧
      carrying ⟨.type, "A"⟩ pared.document.definitions =
        [.type ⟨none, "A", [], .object [] [⟨none, "a", [], .named "Int", []⟩]⟩] ∧
      carrying ⟨.type, "A"⟩ pared.document.definitions ≠
        carrying ⟨.type, "A"⟩ merged.document.definitions := by
  have hleft : ((.sdl "type T { t: Int }" : Source Unit Unit).toDocument .merge .target).value =
      .ok ⟨[.type ⟨none, "T", [], .object [] [⟨none, "t", [], .named "Int", []⟩]⟩]⟩ := by
    decide +kernel
  have hright : ((.sdl "type A { a: Int }\nextend type A { b: Int }" :
      Source Unit Unit).toDocument .merge .source).value =
        .ok ⟨[.type ⟨none, "A", [], .object [] [⟨none, "a", [], .named "Int", []⟩]⟩,
          .extension ⟨"A", [], .object [] [⟨none, "b", [], .named "Int", []⟩]⟩]⟩ := by
    decide +kernel
  obtain ⟨merged, hmerged, hmergedDefinitions⟩ := merge_eq_foldl_into hleft hright
  obtain ⟨pared, hpared, hparedDefinitions⟩ :=
    pare_eq_foldl_into (Source.toDocument_of_ok hleft .pare .target)
      (Source.toDocument_of_ok hright .pare .source)
  refine ⟨merged, pared, hmerged, hpared, ?_, ?_⟩
  · rw [hparedDefinitions]
    decide
  · rw [hparedDefinitions, hmergedDefinitions]
    decide

end SchemaAlgebra
