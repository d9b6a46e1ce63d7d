import SchemaAlgebra.Proofs.MergeThenPare
import SchemaAlgebra.Proofs.Survivors

/-!
# Operations about different names

Two sources that have no key in common may be merged or pared in either order.  The definitions that
survive from the target are the same, in the same places.  The added ones come in the order in which the
operations are performed, so these agree up to order.

## Main statements

* `Operation.foldl_stepKept_comm`: the survivors, first for two steps, then past a run, then for two runs.
* `Operation.restrict_foldl_step_comm`: what either part has under one key.
* `perform_comm`: two operations on a target.
-/

namespace SchemaAlgebra

variable {R S : Type}

/-! ## Survivors -/

namespace Operation

/-- What a step makes of the survivors, which does not depend on what was added. -/
def stepKept (op : Operation) (kept : List Definition) (right : Definition) : List Definition :=
  if right.key ∈ keysOf kept then op.into kept right else kept

theorem kept_step (op : Operation) (parts : Parts) (right : Definition) :
    (op.step parts right).kept = op.stepKept parts.kept right := by
  unfold step stepKept
  split
  · rfl
  · rfl

theorem kept_foldl_step (op : Operation) (parts : Parts) (source : List Definition) :
    (source.foldl op.step parts).kept = source.foldl op.stepKept parts.kept :=
  (List.foldl_hom Parts.kept fun parts right => (op.kept_step parts right).symm).symm

/-- A step decides about no key but its own. -/
theorem mem_keysOf_stepKept (op : Operation) (kept : List Definition) {right : Definition}
    {key : DefinitionKey} (hne : right.key ≠ key) :
    key ∈ keysOf (op.stepKept kept right) ↔ key ∈ keysOf kept := by
  unfold stepKept
  split
  next =>
    rw [← carrying_ne_nil_iff, carrying_into, if_neg hne, carrying_ne_nil_iff]
  next => rfl

section Commuting

variable (first second : Operation)

/-- Two steps. -/
theorem stepKept_comm {one two : Definition} (hne : one.key ≠ two.key) (kept : List Definition) :
    second.stepKept (first.stepKept kept one) two = first.stepKept (second.stepKept kept two) one := by
  have hone := mem_keysOf_stepKept second kept hne.symm
  have htwo := mem_keysOf_stepKept first kept hne
  by_cases hfirst : one.key ∈ keysOf kept
  · have hstep : first.stepKept kept one = first.into kept one := if_pos hfirst
    have hlast : first.stepKept (second.stepKept kept two) one =
        first.into (second.stepKept kept two) one := if_pos (hone.mpr hfirst)
    by_cases hsecond : two.key ∈ keysOf kept
    · have hother : second.stepKept kept two = second.into kept two := if_pos hsecond
      have hthen : second.stepKept (first.stepKept kept one) two =
          second.into (first.stepKept kept one) two := if_pos (htwo.mpr hsecond)
      rw [hthen, hlast, hstep, hother]
      exact into_comm first second hne (carrying_ne_nil_iff.mpr hfirst) (carrying_ne_nil_iff.mpr hsecond)
    · have hother : second.stepKept kept two = kept := if_neg hsecond
      have hthen : second.stepKept (first.stepKept kept one) two = first.stepKept kept one :=
        if_neg fun hmem => hsecond (htwo.mp hmem)
      rw [hthen, hother]
  · have hstep : first.stepKept kept one = kept := if_neg hfirst
    have hlast : first.stepKept (second.stepKept kept two) one = second.stepKept kept two :=
      if_neg fun hmem => hfirst (hone.mp hmem)
    rw [hlast, hstep]

/-- A step past a run. -/
theorem stepKept_foldl_comm {ones : List Definition} {two : Definition}
    (hapart : ∀ one ∈ ones, one.key ≠ two.key) (kept : List Definition) :
    second.stepKept (ones.foldl first.stepKept kept) two =
      ones.foldl first.stepKept (second.stepKept kept two) := by
  induction ones generalizing kept with
  | nil => rfl
  | cons one rest ih =>
    obtain ⟨hone, hrest⟩ := List.forall_mem_cons.mp hapart
    rw [List.foldl_cons, List.foldl_cons, ih hrest, stepKept_comm first second hone]

/-- A run past a run. -/
theorem foldl_stepKept_comm {ones twos : List Definition}
    (hapart : ∀ one ∈ ones, ∀ two ∈ twos, one.key ≠ two.key) (kept : List Definition) :
    twos.foldl second.stepKept (ones.foldl first.stepKept kept) =
      ones.foldl first.stepKept (twos.foldl second.stepKept kept) := by
  induction twos generalizing kept with
  | nil => rfl
  | cons two rest ih =>
    have htwo : ∀ one ∈ ones, one.key ≠ two.key := fun one hone =>
      hapart one hone two List.mem_cons_self
    have hrest : ∀ one ∈ ones, ∀ other ∈ rest, one.key ≠ other.key := fun one hone other hother =>
      hapart one hone other (List.mem_cons_of_mem _ hother)
    rw [List.foldl_cons, stepKept_foldl_comm first second htwo, ih hrest, List.foldl_cons]

end Commuting

end Operation

/-! ## One key -/

/-- What both parts have under a key. -/
def Parts.restrict (parts : Parts) (key : DefinitionKey) : Parts :=
  ⟨carrying key parts.kept, carrying key parts.added⟩

namespace Operation

variable (op : Operation) (parts : Parts) (key : DefinitionKey)

/-- The step on one key. -/
theorem restrict_step (right : Definition) :
    (op.step parts right).restrict key =
      if right.key = key then op.step (parts.restrict key) right else parts.restrict key := by
  have hpresent : ∀ definitions, right.key ∈ keysOf (carrying right.key definitions) ↔
      right.key ∈ keysOf definitions := by
    intro definitions
    rw [← carrying_ne_nil_iff, carrying_carrying, carrying_ne_nil_iff]
  by_cases hkept : right.key ∈ keysOf parts.kept
  · rw [step_of_kept hkept, Parts.restrict, carrying_into]
    split
    next hkey =>
      subst hkey
      have hrestricted : right.key ∈ keysOf (parts.restrict right.key).kept :=
        (hpresent _).mpr hkept
      exact (step_of_kept hrestricted).symm
    next => rfl
  · rw [step_of_not_kept hkept, Parts.restrict, carrying_into]
    split
    next hkey =>
      subst hkey
      have hrestricted : right.key ∉ keysOf (parts.restrict right.key).kept :=
        fun hmem => hkept ((hpresent _).mp hmem)
      exact (step_of_not_kept hrestricted).symm
    next => rfl

/-- The run on one key. -/
theorem restrict_foldl_step (source : List Definition) :
    (source.foldl op.step parts).restrict key =
      (carrying key source).foldl op.step (parts.restrict key) := by
  induction source generalizing parts with
  | nil => rfl
  | cons right rest ih =>
    rw [List.foldl_cons, ih, restrict_step, carrying_cons]
    split
    next => rfl
    next => rfl

/-- Under each key the order of two runs without a common key makes no difference. -/
theorem restrict_foldl_step_comm (first second : Operation) {ones twos : List Definition}
    (hapart : ∀ one ∈ ones, ∀ two ∈ twos, one.key ≠ two.key) :
    (twos.foldl second.step (ones.foldl first.step parts)).restrict key =
      (ones.foldl first.step (twos.foldl second.step parts)).restrict key := by
  simp only [restrict_foldl_step]
  -- At most one of the two runs has steps for the key.
  by_cases hone : carrying key ones = []
  · rw [hone]
    rfl
  · obtain ⟨one, hcarried⟩ := List.exists_mem_of_ne_nil _ hone
    obtain ⟨hmem, rfl⟩ := mem_carrying.mp hcarried
    have htwo : carrying one.key twos = [] :=
      carrying_eq_nil.mpr fun two htwo e => hapart one hmem two htwo e.symm
    rw [htwo]
    rfl

end Operation

/-! ## Schemas -/

/-- The two parts after an operation and then another one on what it gives. -/
theorem Operation.perform_then_parts (first second : Operation) {target source further : Source R S}
    {document left right : Document}
    (htarget : (target.toDocument first .target).value = .ok document)
    (hsource : (source.toDocument first .source).value = .ok left)
    (hfurther : (further.toDocument second .source).value = .ok right)
    (hreadable : ∀ between : Bundle R S,
      first.perform target source = .ok between → between.Readable) :
    let parts := right.definitions.foldl second.step
      (left.definitions.foldl first.step ⟨document.definitions, []⟩)
    ∃ between result : Bundle R S,
      first.perform target source = .ok between ∧
      second.perform (.bundle between) further = .ok result ∧
      result.document.definitions = parts.all ∧
      second.keeps between ⟨right, further.resolvers, further.scalars⟩
        (first.keeps ⟨document, target.resolvers, target.scalars⟩
          ⟨left, source.resolvers, source.scalars⟩ document.definitions.length) =
        parts.kept.length := by
  let start : Parts := ⟨document.definitions, []⟩
  have hall : start.all = document.definitions := List.append_nil _
  have hstart : start.Apart := fun _ _ => List.not_mem_nil
  obtain ⟨between, hbetween, hparts, hapart, hkeeps⟩ :=
    first.perform_parts htarget hsource hall hstart
  -- The second operation starts from the parts that the first one has left.
  have hread := (hreadable between hbetween).toDocument second .target
  obtain ⟨result, hresult, hresultParts, -, hresultKeeps⟩ :=
    second.perform_parts hread hfurther hparts.symm hapart
  rw [← hkeeps] at hresultKeeps
  exact ⟨between, result, hbetween, hresult, hresultParts, hresultKeeps⟩

/-- Two operations whose sources have no key in common, on one target in either order.  What survives from
the target in its slots is the same, in the same order, and what is added behind it is the same up to
order. -/
theorem perform_comm (first second : Operation) {target source further : Source R S}
    {document left right : Document}
    (htarget : (target.toDocument first .target).value = .ok document)
    (hsource : (source.toDocument first .source).value = .ok left)
    (hfurther : (further.toDocument second .source).value = .ok right)
    (hapart : ∀ key ∈ keysOf left.definitions, key ∉ keysOf right.definitions)
    (hreadable : ∀ between : Bundle R S, first.perform target source = .ok between ∨
      second.perform target further = .ok between → between.Readable) :
    ∃ afterFirst afterSecond firstThenSecond secondThenFirst : Bundle R S,
      first.perform target source = .ok afterFirst ∧
      second.perform target further = .ok afterSecond ∧
      second.perform (.bundle afterFirst) further = .ok firstThenSecond ∧
      first.perform (.bundle afterSecond) source = .ok secondThenFirst ∧
      let start : Bundle R S := ⟨document, target.resolvers, target.scalars⟩
      let one : Bundle R S := ⟨left, source.resolvers, source.scalars⟩
      let two : Bundle R S := ⟨right, further.resolvers, further.scalars⟩
      let size := document.definitions.length
      let kept := second.keeps afterFirst two (first.keeps start one size)
      let keptOther := first.keeps afterSecond one (second.keeps start two size)
      firstThenSecond.document.definitions.take kept =
          secondThenFirst.document.definitions.take keptOther ∧
        (firstThenSecond.document.definitions.drop kept).Perm
          (secondThenFirst.document.definitions.drop keptOther) := by
  obtain ⟨afterFirst, firstThenSecond, hafterFirst, hfirstThenSecond, hall, hkept⟩ :=
    first.perform_then_parts second htarget hsource hfurther
      fun between h => hreadable between (.inl h)
  obtain ⟨afterSecond, secondThenFirst, hafterSecond, hsecondThenFirst, hallOther, hkeptOther⟩ :=
    second.perform_then_parts first (Source.toDocument_of_ok htarget second .target) hfurther hsource
      fun between h => hreadable between (.inr h)
  refine ⟨afterFirst, afterSecond, firstThenSecond, secondThenFirst, hafterFirst, hafterSecond,
    hfirstThenSecond, hsecondThenFirst, ?_⟩
  intro start one two size kept keptOther
  have hkeys : ∀ one ∈ left.definitions, ∀ two ∈ right.definitions, one.key ≠ two.key := by
    intro one hone two htwo hkey
    exact hapart one.key (List.mem_map_of_mem hone) (hkey ▸ List.mem_map_of_mem htwo)
  rw [hall, hallOther, show kept = _ from hkept, show keptOther = _ from hkeptOther, Parts.all,
    Parts.all, List.take_left, List.take_left, List.drop_left, List.drop_left]
  constructor
  · rw [Operation.kept_foldl_step, Operation.kept_foldl_step, Operation.kept_foldl_step,
      Operation.kept_foldl_step]
    exact Operation.foldl_stepKept_comm first second hkeys document.definitions
  · refine perm_of_carrying fun key => List.Perm.of_eq ?_
    exact congrArg Parts.added (Operation.restrict_foldl_step_comm _ key first second hkeys)

/-- A merge that extends a type and adds another one, and a pare that drops a scalar, takes a field away
and adds a directive.  Two of the target's three definitions survive. -/
theorem perform_comm_mergeAndPare :
    ∃ afterFirst afterSecond firstThenSecond secondThenFirst : Bundle Unit Unit,
      Operation.perform .merge (.sdl "type A { a: Int } scalar Date type B { b: Int c: Int }")
        (.sdl "type New { n: Int } extend type A { x: Int }") = .ok afterFirst ∧
      Operation.perform .pare (.sdl "type A { a: Int } scalar Date type B { b: Int c: Int }")
        (.sdl "scalar Date directive @d on ENUM type B { b: Int }") = .ok afterSecond ∧
      Operation.perform .pare (.bundle afterFirst)
        (.sdl "scalar Date directive @d on ENUM type B { b: Int }") = .ok firstThenSecond ∧
      Operation.perform .merge (.bundle afterSecond)
        (.sdl "type New { n: Int } extend type A { x: Int }") = .ok secondThenFirst ∧
      firstThenSecond.document.definitions.take 2 =
        secondThenFirst.document.definitions.take 2 ∧
      (firstThenSecond.document.definitions.drop 2).Perm
        (secondThenFirst.document.definitions.drop 2) := by
  let document : Document := ⟨[
    .type ⟨none, "A", [], .object [] [⟨none, "a", [], .named "Int", []⟩]⟩,
    .type ⟨none, "Date", [], .scalar⟩,
    .type ⟨none, "B", [], .object [] [⟨none, "b", [], .named "Int", []⟩,
      ⟨none, "c", [], .named "Int", []⟩]⟩]⟩
  let left : Document := ⟨[
    .type ⟨none, "New", [], .object [] [⟨none, "n", [], .named "Int", []⟩]⟩,
    .extension ⟨"A", [], .object [] [⟨none, "x", [], .named "Int", []⟩]⟩]⟩
  let right : Document := ⟨[
    .type ⟨none, "Date", [], .scalar⟩,
    .directive ⟨none, "d", [], false, [.enum]⟩,
    .type ⟨none, "B", [], .object [] [⟨none, "b", [], .named "Int", []⟩]⟩]⟩
  let target : Source Unit Unit := .sdl "type A { a: Int } scalar Date type B { b: Int c: Int }"
  let source : Source Unit Unit := .sdl "type New { n: Int } extend type A { x: Int }"
  let further : Source Unit Unit := .sdl "scalar Date directive @d on ENUM type B { b: Int }"
  have htarget : (target.toDocument .merge .target).value = .ok document := by decide +kernel
  have hsource : (source.toDocument .merge .source).value = .ok left := by decide +kernel
  have hfurther : (further.toDocument .pare .source).value = .ok right := by decide +kernel
  -- The bundles that are handed on are known, so what they keep can be computed.
  have hmerged := value_merge Policy.rightWins htarget hsource
  have hpared := value_pare (Source.toDocument_of_ok htarget .pare .target) hfurther
  have hreadable : ∀ between : Bundle Unit Unit, Operation.perform .merge target source = .ok between ∨
      Operation.perform .pare target further = .ok between → between.Readable := by
    rintro between (h | h)
    · obtain rfl := Except.ok.inj (hmerged.symm.trans h)
      decide +kernel
    · obtain rfl := Except.ok.inj (hpared.symm.trans h)
      decide +kernel
  obtain ⟨afterFirst, afterSecond, firstThenSecond, secondThenFirst, hafterFirst, hafterSecond,
    hfirstThenSecond, hsecondThenFirst, htake, hdrop⟩ :=
    perform_comm .merge .pare htarget hsource hfurther (by decide) hreadable
  refine ⟨afterFirst, afterSecond, firstThenSecond, secondThenFirst, hafterFirst, hafterSecond,
    hfirstThenSecond, hsecondThenFirst, ?_⟩
  obtain rfl := Except.ok.inj (hmerged.symm.trans hafterFirst)
  obtain rfl := Except.ok.inj (hpared.symm.trans hafterSecond)
  have hkept : Operation.keeps .pare
      (mergeBundles Policy.rightWins ⟨document, target.resolvers, target.scalars⟩
        ⟨left, source.resolvers, source.scalars⟩).value
      ⟨right, further.resolvers, further.scalars⟩
      (Operation.keeps .merge ⟨document, target.resolvers, target.scalars⟩
        ⟨left, source.resolvers, source.scalars⟩ document.definitions.length) = 2 := by
    decide +kernel
  have hkeptOther : Operation.keeps .merge
      (pareBundles ⟨document, target.resolvers, target.scalars⟩
        ⟨right, further.resolvers, further.scalars⟩).value
      ⟨left, source.resolvers, source.scalars⟩
      (Operation.keeps .pare ⟨document, target.resolvers, target.scalars⟩
        ⟨right, further.resolvers, further.scalars⟩ document.definitions.length) = 2 := by
    decide +kernel
  rw [hkept, hkeptOther] at htake hdrop
  exact ⟨htake, hdrop⟩

end SchemaAlgebra
