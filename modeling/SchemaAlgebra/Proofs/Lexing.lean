import Mathlib.Data.List.ReduceOption
import Mathlib.Tactic.SplitIfs
import SchemaAlgebra.Language.Token

/-!
# Cutting texts into words

A text is written piece by piece, and the pieces are cut apart again when it is read.  A `Word` is
what becomes of a piece that is meant as a token: the token, or nothing if the piece is malformed.
`Writes text words` says that a text is cut into a list of words whatever follows it, if only its
last token ends there.  It is built up along the text: what stands between two tokens leaves no word,
a punctuator is one whatever follows, and every other piece has to end at a `Boundary`.

Places play no part in this.  `lexUpTo` is the stream of a text without them.

## Main statements

* `Stream.scanAll_place`: the tokens of a text do not depend on where it starts.
* `Writes.append`, `Writes.gap`, `Writes.mark`, `Writes.word`: how a text is put together.
* `Stream.words_ofText`: the tokens of a whole text are its words, if they nest well.
-/

namespace SchemaAlgebra

/-- A piece of a text that is meant as a token: nothing if it is malformed. -/
abbrev Word := Option Token

/-- The word that a name is written as. -/
abbrev nameWord (name : String) : Word := some (.name name)

/-- The word that a punctuator is written as. -/
abbrev markWord (mark : Punctuator) : Word := some (.punctuator mark)

/-! ## Cutting without places -/

namespace Stream

/-- What comes after ignored characters does not depend on where they stand. -/
theorem skipIgnored_place (inComment : Bool) (p q : Position) (text : List Char) :
    (skipIgnored inComment p text).2 = (skipIgnored inComment q text).2 := by
  induction text generalizing inComment p q with
  | nil => rfl
  | cons c rest ih =>
    unfold skipIgnored
    split_ifs <;> first | exact ih .. | rfl

/-- The tokens of a text do not depend on where it starts. -/
theorem scanAll_place (fuel depth : Nat) (p q : Position) (text : List Char) :
    (scanAll fuel depth p text).complete = (scanAll fuel depth q text).complete ∧
      (scanAll fuel depth p text).tokens.map Prod.snd =
        (scanAll fuel depth q text).tokens.map Prod.snd := by
  induction fuel generalizing depth p q text with
  | zero =>
    unfold scanAll
    rw [show skipIgnored false p text = (_, _) from rfl, skipIgnored_place false p q text]
    cases (skipIgnored false q text).2 <;> exact ⟨rfl, rfl⟩
  | succ fuel ih =>
    unfold scanAll
    rw [show skipIgnored false p text = (_, _) from rfl, skipIgnored_place false p q text]
    cases (skipIgnored false q text).2 with
    | nil => exact ⟨rfl, rfl⟩
    | cons c rest =>
      dsimp only
      cases Token.scan (c :: rest) with
      | none => exact ⟨rfl, rfl⟩
      | some cut =>
        dsimp only
        cases depthAfter depth cut.1.token with
        | none => exact ⟨rfl, rfl⟩
        | some inner =>
          obtain ⟨hcomplete, htokens⟩ := ih inner _ _ cut.2
          exact ⟨hcomplete, congrArg (cut.1.token :: ·) htokens⟩

end Stream

/-- The tokens of a text whose first characters stand at some depth; nothing if the stream breaks
off. -/
def lexUpTo (fuel depth : Nat) (text : List Char) : Option (List Token) :=
  let stream := Stream.scanAll fuel depth .start text
  if stream.complete then some (stream.tokens.map Prod.snd) else none

theorem lexUpTo_eq (fuel depth : Nat) (p : Position) (text : List Char) :
    lexUpTo fuel depth text =
      if (Stream.scanAll fuel depth p text).complete then
        some ((Stream.scanAll fuel depth p text).tokens.map Prod.snd)
      else none := by
  obtain ⟨hcomplete, htokens⟩ := Stream.scanAll_place fuel depth .start p text
  simp only [lexUpTo, hcomplete, htokens]

/-- A character that may stand between two tokens and is written there. -/
def isGap (c : Char) : Bool := c = ' ' || c = '\n' || c = ','

/-- The characters that are ignored or start a comment. -/
def ignorable : List Char := ['\ufeff', '\r', '\t', '\n', ' ', ',', '#']

/-- A character that a token may start with. -/
def isSolid (c : Char) : Bool := !ignorable.contains c

theorem isSolid_of {inside : Char → Bool} (hinside : ignorable.all (!inside ·)) {c : Char}
    (h : inside c = true) : isSolid c = true := by
  rw [isSolid, Bool.not_eq_true', ← Bool.not_eq_true, List.contains_iff_mem]
  intro hmem
  have hout := List.all_eq_true.mp hinside c hmem
  rw [h] at hout
  exact Bool.false_ne_true hout

@[simp] theorem lexUpTo_nil (fuel depth : Nat) : lexUpTo fuel depth [] = some [] := by
  cases fuel <;> rfl

theorem lexUpTo_gap {c : Char} (h : isGap c) (fuel depth : Nat) (rest : List Char) :
    lexUpTo fuel depth (c :: rest) = lexUpTo fuel depth rest := by
  have hskip : ∃ p, ∀ q, skipIgnored false .start (c :: q) = skipIgnored false p q := by
    simp only [isGap, Bool.or_eq_true, decide_eq_true_eq] at h
    rcases h with (rfl | rfl) | rfl
    · exact ⟨_, fun _ => rfl⟩
    · exact ⟨_, fun _ => rfl⟩
    · exact ⟨_, fun _ => rfl⟩
  obtain ⟨p, hp⟩ := hskip
  have hscan : Stream.scanAll fuel depth .start (c :: rest) = Stream.scanAll fuel depth p rest := by
    rw [Stream.scanAll.eq_def, Stream.scanAll.eq_def, hp]
  rw [lexUpTo_eq fuel depth p rest, lexUpTo, hscan]

theorem lexUpTo_cons {c : Char} (h : isSolid c) (fuel depth : Nat) (text : List Char) :
    lexUpTo (fuel + 1) depth (c :: text) =
      (Token.scan (c :: text)).bind fun cut =>
        (Stream.depthAfter depth cut.1.token).bind fun inner =>
          (lexUpTo fuel inner cut.2).map (cut.1.token :: ·) := by
  have hskip : skipIgnored false .start (c :: text) = (.start, c :: text) := by
    simp only [isSolid, ignorable, Bool.not_eq_true', ← Bool.not_eq_true, List.contains_iff_mem,
      List.mem_cons, List.not_mem_nil, or_false, not_or] at h
    simp [skipIgnored, h]
  rw [lexUpTo, Stream.scanAll, hskip]
  rcases Option.eq_none_or_eq_some (Token.scan (c :: text)) with hscan | ⟨cut, hscan⟩
  · simp [hscan]
  · rcases Option.eq_none_or_eq_some (Stream.depthAfter depth cut.1.token) with hinner | ⟨inner, hinner⟩
    · simp [hscan, hinner]
    · simp only [hscan, hinner, Option.bind_some,
        lexUpTo_eq fuel inner (Position.start.after cut.1.text) cut.2]
      split_ifs <;> rfl

/-! ## Words -/

/-- The depth behind a list of words whose first one stands at some depth; nothing if a word is
malformed or nests too deep. -/
def nest : Nat → List Word → Option Nat
  | depth, [] => some depth
  | _, none :: _ => none
  | depth, some token :: rest => (Stream.depthAfter depth token).bind fun inner => nest inner rest

theorem nest_append (depth : Nat) (front back : List Word) :
    nest depth (front ++ back) = (nest depth front).bind fun inner => nest inner back := by
  induction front generalizing depth with
  | nil => rfl
  | cons word rest ih =>
    cases word with
    | none => rfl
    | some token => simp [nest, ih, Option.bind_assoc]

/-- Words with a depth behind them are all well formed. -/
theorem map_some_reduceOption_of_nest {depth inner : Nat} {words : List Word}
    (h : nest depth words = some inner) : words.reduceOption.map some = words := by
  induction words generalizing depth with
  | nil => rfl
  | cons word rest ih =>
    cases word with
    | none => cases h
    | some token =>
      obtain ⟨behind, -, hrest⟩ := Option.bind_eq_some_iff.mp h
      simp [List.reduceOption_cons_of_some, ih hrest]

/-- The characters in front of which every token ends. -/
def endsToken (c : Char) : Bool := isGap c || (Token.punctuator? c).isSome

/-- A text in front of which every token ends. -/
def Boundary (text : List Char) : Prop := ∀ c ∈ text.head?, endsToken c = true

theorem boundary_nil : Boundary [] := fun _ h => nomatch h

theorem boundary_cons {c : Char} (h : endsToken c) (text : List Char) : Boundary (c :: text) := by
  rintro _ ⟨⟩
  exact h

theorem Boundary.append {front back : List Char} (hfront : Boundary front) (hback : Boundary back) :
    Boundary (front ++ back) := by
  cases front with
  | nil => exact hback
  | cons c rest => exact hfront

/-- A text is cut into a list of words, whatever follows it, if only its last token ends there. -/
structure Writes (text : List Char) (words : List Word) : Prop where
  lex : ∀ fuel depth rest, Boundary rest →
    lexUpTo (fuel + words.length) depth (text ++ rest) =
      (nest depth words).bind fun inner => (lexUpTo fuel inner rest).map (words.reduceOption ++ ·)
  length_le : words.length ≤ text.length

namespace Writes

variable {text front back : List Char} {words frontWords backWords : List Word}

theorem nil : Writes [] [] := ⟨fun _ _ _ _ => by simp [nest], Nat.le_refl 0⟩

/-- What stands between two tokens leaves no word. -/
theorem gap {c : Char} (hc : isGap c) (h : Writes text words) : Writes (c :: text) words where
  lex fuel depth rest hrest := by rw [List.cons_append, lexUpTo_gap hc, h.lex fuel depth rest hrest]
  length_le := Nat.le_succ_of_le h.length_le

theorem append (hfront : Writes front frontWords) (hboundary : Boundary back)
    (hback : Writes back backWords) : Writes (front ++ back) (frontWords ++ backWords) where
  lex fuel depth rest hrest := by
    have hlength : fuel + (frontWords ++ backWords).length =
        fuel + backWords.length + frontWords.length := by
      rw [List.length_append]
      omega
    rw [List.append_assoc, hlength, hfront.lex _ depth _ (hboundary.append hrest), nest_append]
    simp [hback.lex fuel _ rest hrest, Option.bind_assoc, Option.map_bind, Function.comp_def,
      List.reduceOption_append]
  length_le := by
    simpa using Nat.add_le_add hfront.length_le hback.length_le

end Writes

/-! ## Single words -/

section Characters

variable {c : Char} {mark : Punctuator}

/-- The text of a punctuator is cut off whatever follows. -/
theorem scan_mark (h : Token.punctuator? c = some mark) (rest : List Char) :
    isSolid c ∧ Token.scan (c :: rest) = some (⟨.punctuator mark, [c]⟩, rest) := by
  unfold Token.punctuator? at h
  split at h <;> cases h <;> exact ⟨rfl, rfl⟩

theorem endsToken_eq_true (h : endsToken c) :
    Token.isNamePart c = false ∧ Token.endsNumber c = true ∧ c ≠ '"' := by
  have hmark : ∀ mark, Token.punctuator? c = some mark →
      Token.isNamePart c = false ∧ Token.endsNumber c = true ∧ c ≠ '"' := by
    intro mark hmark
    unfold Token.punctuator? at hmark
    split at hmark <;> cases hmark <;> decide
  rcases (Bool.or_eq_true _ _).mp h with hgap | hsome
  · simp only [isGap, Bool.or_eq_true, decide_eq_true_eq] at hgap
    rcases hgap with (rfl | rfl) | rfl <;> decide
  · obtain ⟨mark, hfound⟩ := Option.isSome_iff_exists.mp hsome
    exact hmark mark hfound

end Characters

/-- A text is a single word in front of every boundary. -/
structure Lexes (text : List Char) (word : Word) : Prop where
  solid : ∃ c ∈ text.head?, isSolid c
  scan : ∀ rest, Boundary rest →
    Token.scan (text ++ rest) = word.map fun token => (⟨token, text⟩, rest)

namespace Writes

variable {text : List Char} {words : List Word}

theorem word {word : Word} (h : Lexes text word) : Writes text [word] where
  lex fuel depth rest hrest := by
    obtain ⟨c, hhead, hsolid⟩ := h.solid
    obtain ⟨tail, rfl⟩ : ∃ tail, text = c :: tail := List.head?_eq_some_iff.mp hhead
    have hscan := h.scan rest hrest
    rw [List.cons_append] at hscan ⊢
    rw [List.length_singleton, lexUpTo_cons hsolid, hscan]
    cases word with
    | none => rfl
    | some token => simp [nest]
  length_le := by
    obtain ⟨c, hhead, -⟩ := h.solid
    obtain ⟨tail, rfl⟩ : ∃ tail, text = c :: tail := List.head?_eq_some_iff.mp hhead
    simp

/-- A punctuator in front of a text. -/
theorem mark {c : Char} {mark : Punctuator} (hmark : Token.punctuator? c = some mark)
    (h : Writes text words) : Writes (c :: text) (markWord mark :: words) where
  lex fuel depth rest hrest := by
    obtain ⟨hsolid, hscan⟩ := scan_mark hmark (text ++ rest)
    rw [List.cons_append, List.length_cons, ← Nat.add_assoc, lexUpTo_cons hsolid, hscan]
    simp [nest, h.lex fuel _ rest hrest, Option.bind_assoc, Option.map_bind, Function.comp_def,
      List.reduceOption_cons_of_some]
  length_le := Nat.succ_le_succ h.length_le

end Writes

/-! ## Longer texts -/

namespace Writes

variable {α : Type} {text : List Char} {words : List Word}

theorem blanks (count : Nat) (h : Writes text words) :
    Writes (List.replicate count ' ' ++ text) words := by
  induction count with
  | zero => exact h
  | succ count ih => exact ih.gap rfl

/-- Pieces one behind the other, each of which starts with a boundary. -/
theorem flatMap {items : List α} {piece : α → List Char} {wordsOf : α → List Word}
    (hboundary : ∀ item ∈ items, Boundary (piece item))
    (h : ∀ item ∈ items, Writes (piece item) (wordsOf item)) :
    Boundary (items.flatMap piece) ∧ Writes (items.flatMap piece) (items.flatMap wordsOf) := by
  induction items with
  | nil => exact ⟨boundary_nil, .nil⟩
  | cons item rest ih =>
    obtain ⟨hrest, hwrites⟩ := ih (fun x hx => hboundary x (List.mem_cons_of_mem _ hx))
      fun x hx => h x (List.mem_cons_of_mem _ hx)
    exact ⟨(hboundary item List.mem_cons_self).append hrest,
      (h item List.mem_cons_self).append hrest hwrites⟩

/-- Pieces with a separator between them, which starts with a boundary. -/
theorem intercalate {separator : List Char} {separatorWords : List Word}
    (hseparator : ∀ {text words}, Writes text words →
      Boundary (separator ++ text) ∧ Writes (separator ++ text) (separatorWords ++ words))
    {piece : α → List Char} {wordsOf : α → List Word} {first : α} {rest : List α}
    (h : ∀ item ∈ first :: rest, Writes (piece item) (wordsOf item)) :
    Writes (separator.intercalate ((first :: rest).map piece))
      (wordsOf first ++ rest.flatMap fun item => separatorWords ++ wordsOf item) := by
  induction rest generalizing first with
  | nil => simpa using h first List.mem_cons_self
  | cons second more ih =>
    have hrest := hseparator (ih fun x hx => h x (List.mem_cons_of_mem _ hx))
    rw [List.map_cons, List.map_cons, List.intercalate_cons_cons, List.append_assoc,
      List.flatMap_cons, List.append_assoc]
    exact (h first List.mem_cons_self).append hrest.1 hrest.2

end Writes

/-! ## Whole texts -/

namespace Stream

/-- The tokens of a stream without their places, as words. -/
def words (stream : Stream) : List Word := stream.tokens.map fun entry => some entry.2

/-- A text whose words nest well is cut into just these. -/
theorem words_ofText {text : List Char} {words : List Word} (h : Writes text words) :
    (nest 0 words = none → (ofText text).complete = false) ∧
      ((nest 0 words).isSome → (ofText text).complete ∧ (ofText text).words = words) := by
  obtain ⟨fuel, hfuel⟩ := Nat.exists_eq_add_of_le' h.length_le
  have hlex := h.lex fuel 0 [] boundary_nil
  rw [List.append_nil, ← hfuel, lexUpTo] at hlex
  change (if (ofText text).complete then some ((ofText text).tokens.map Prod.snd) else none) = _
    at hlex
  constructor
  · intro hnest
    rw [hnest, Option.bind_none] at hlex
    simpa using hlex
  · intro hnest
    obtain ⟨inner, hinner⟩ := Option.isSome_iff_exists.mp hnest
    rw [hinner, Option.bind_some, lexUpTo_nil, Option.map_some, List.append_nil] at hlex
    obtain ⟨hcomplete, htokens⟩ : (ofText text).complete = true ∧
        (ofText text).tokens.map Prod.snd = words.reduceOption := by
      simpa using hlex
    refine ⟨hcomplete, ?_⟩
    rw [← map_some_reduceOption_of_nest hinner, ← htokens, List.map_map]
    rfl

end Stream

end SchemaAlgebra
