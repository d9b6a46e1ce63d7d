import SchemaAlgebra.Proofs.Reading

/-!
# What readers ensure

`Ensures before reader property after` says that a reader that starts on a stream of which `before`
holds gives what satisfies `property`, and leaves a stream of which `after` holds, if it gives anything
at all.  Each way of putting readers together has a lemma; what a single token ensures depends on what
is said of the streams, and so it is asked for there.

## Main statements

* `Ensures.bind`, `Ensures.many`, `Ensures.optional`, …: readers put together.
* `Ensures.enclosed`: items between brackets, where something else may hold of the stream inside.
-/

namespace SchemaAlgebra

/-- Whatever a reader gives satisfies a property, and something holds of the stream that it leaves, if
something held of the stream before. -/
def Ensures {α : Type} (before : Stream → Prop) (reader : Reader α) (property : α → Prop)
    (after : Stream → Prop) : Prop :=
  ∀ stream, before stream → ∀ result, (reader.run stream).toOption = some result →
    property result.1 ∧ after result.2

namespace Ensures

variable {α β : Type} {reader : Reader α} {property : α → Prop} {ensured : β → Prop}
  {before middle after : Stream → Prop}

/-! ## Putting readers together -/

theorem mono {weaker : α → Prop} (h : Ensures before reader property after)
    (hweaker : ∀ value, property value → weaker value) : Ensures before reader weaker after :=
  fun stream hbefore result hrun =>
    ⟨hweaker _ (h stream hbefore result hrun).1, (h stream hbefore result hrun).2⟩

theorem pure {value : α} (h : property value) : Ensures before (Pure.pure value) property before := by
  rintro stream hbefore result ⟨⟩
  exact ⟨h, hbefore⟩

theorem bind {next : α → Reader β} (h : Ensures before reader property middle)
    (hnext : ∀ value, property value → Ensures middle (next value) ensured after) :
    Ensures before (reader >>= next) ensured after := by
  intro stream hbefore result hrun
  rw [toOption_run_bind] at hrun
  obtain ⟨first, hfirst, hsecond⟩ := Option.bind_eq_some_iff.mp hrun
  obtain ⟨hvalue, hmiddle⟩ := h stream hbefore first hfirst
  exact hnext first.1 hvalue first.2 hmiddle result hsecond

/-- What is read and then put into a result. -/
theorem map {result : α → β} (h : Ensures before reader property after)
    (hresult : ∀ value, property value → ensured (result value)) :
    Ensures before (do return result (← reader)) ensured after :=
  h.bind fun value hvalue => .pure (hresult value hvalue)

theorem ite {condition : Prop} [Decidable condition] {other : Reader α}
    (h : Ensures before reader property after) (hother : Ensures before other property after) :
    Ensures before (if condition then reader else other) property after := by
  split
  · exact h
  · exact hother

theorem throw (cause : ParseError) :
    Ensures before (MonadExcept.throw cause : Reader α) property after := by
  rintro stream - result ⟨⟩

/-! ## Single tokens -/

/-- Looking at the stream. -/
theorem get : Ensures before (MonadState.get : Reader Stream) (fun _ => True) before := by
  rintro stream hbefore result ⟨⟩
  exact ⟨trivial, hbefore⟩

theorem peek : Ensures before Reader.peek (fun _ => True) before :=
  get.bind fun _ _ => .pure trivial

theorem position : Ensures before Reader.position (fun _ => True) before :=
  get.bind fun _ _ => .pure trivial

theorem remaining : Ensures before Reader.remaining (fun _ => True) before :=
  get.bind fun _ _ => .pure trivial

theorem next (starts : Token → Bool) : Ensures before (Reader.next starts) (fun _ => True) before :=
  peek.bind fun _ _ => .pure trivial

theorem refuse : Ensures before (Reader.refuse : Reader α) property after :=
  position.bind fun _ _ => throw _

theorem take {accepts : Token → Option α}
    (h : ∀ (stream : Stream) place token rest value, stream.tokens = (place, token) :: rest →
      before stream → accepts token = some value → property value ∧ after (stream.drop 1)) :
    Ensures before (Reader.take accepts) property after := by
  intro stream hbefore result hrun
  rw [toOption_run_take, Stream.words] at hrun
  cases htokens : stream.tokens with
  | nil =>
    rw [htokens] at hrun
    cases hrun
  | cons entry rest =>
    rw [htokens] at hrun
    obtain ⟨value, haccepted, rfl⟩ := Option.map_eq_some_iff.mp hrun
    exact h stream entry.1 entry.2 rest value htokens hbefore haccepted

/-- A text is taken like any other token; not every block string has a value. -/
theorem text (h : ∀ {γ : Type} (accepts : Token → Option γ),
      (∀ token value, accepts token = some value → Reader.isText token) →
        Ensures before (Reader.take accepts) (fun _ => True) after) :
    Ensures before Reader.text (fun _ => True) after := by
  refine (h _ ?_).bind fun value _ => ?_
  · intro token value haccepted
    cases token with
    | string _ => rfl
    | block _ => rfl
    | _ => cases haccepted
  · cases value with
    | some text => exact pure trivial
    | none => exact throw _

/-! ## Parts -/

theorem optional {starts : Token → Bool} {absent : α} (habsent : property absent)
    (h : Ensures before reader property before) :
    Ensures before (Reader.optional starts absent reader) property before :=
  (next starts).bind fun _ _ => h.ite (pure habsent)

theorem manyUpTo {starts : Token → Bool} (h : Ensures before reader property before) (fuel : Nat) :
    Ensures before (Reader.manyUpTo starts reader fuel) (fun items => ∀ item ∈ items, property item)
      before := by
  have hnone : ∀ item ∈ ([] : List α), property item := List.forall_mem_nil _
  induction fuel with
  | zero => exact pure hnone
  | succ fuel ih =>
    refine (next starts).bind fun _ _ => ite ?_ (pure hnone)
    exact h.bind fun first hfirst => ih.map fun rest hrest => List.forall_mem_cons.mpr ⟨hfirst, hrest⟩

theorem many {starts : Token → Bool} (h : Ensures before reader property before) :
    Ensures before (Reader.many starts reader) (fun items => ∀ item ∈ items, property item) before :=
  remaining.bind fun fuel _ => h.manyUpTo fuel

/-- Items between brackets.  The opening one may tell something that holds of them all. -/
theorem enclosed {opening closing : Punctuator} {inside : Stream → Prop} {fact : Prop}
    (hopening : Ensures before (Reader.mark opening) (fun _ => fact) inside)
    (h : fact → Ensures inside reader property inside)
    (hclosing : Ensures inside (Reader.mark closing) (fun _ => True) before) :
    Ensures before (Reader.enclosed opening closing reader) (fun items => ∀ item ∈ items, property item)
      before := by
  refine hopening.bind fun _ hfact => (h hfact).bind fun first hfirst => ?_
  refine (h hfact).many.bind fun rest hrest => ?_
  exact hclosing.map fun _ _ => List.forall_mem_cons.mpr ⟨hfirst, hrest⟩

theorem separated {separator : Punctuator}
    (hseparator : Ensures before (Reader.mark separator) (fun _ => True) before)
    (h : Ensures before reader property before) :
    Ensures before (Reader.separated separator reader) (fun items => ∀ item ∈ items, property item)
      before := by
  have hleading : Ensures before (Reader.optional (Reader.isMark separator) () (Reader.mark separator))
      (fun _ => True) before := optional trivial hseparator
  have hitem : Ensures before (do
      Reader.mark separator
      reader) property before := hseparator.bind fun _ _ => h
  refine hleading.bind fun _ _ => h.bind fun first hfirst => ?_
  exact hitem.many.map fun rest hrest => List.forall_mem_cons.mpr ⟨hfirst, hrest⟩

end Ensures

end SchemaAlgebra
