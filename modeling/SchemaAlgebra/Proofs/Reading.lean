import SchemaAlgebra.Language.Parser
import SchemaAlgebra.Proofs.WrittenWords

/-!
# Reading words

`Reads size reader words value follow` says what a reader makes of a list of words at the front of a
stream: it takes exactly these words off and gives `value`, or fails if there is no value.  What
stands behind the words must satisfy `follow`, because a reader looks one token ahead: an optional
part that is absent must not be there by accident.  The size bounds the tokens that are left, for
readers that bound their nesting.

A malformed word is no token of any stream, so nothing is asked of a reader there.

Each way of putting readers together has a lemma, and none of them looks at a stream again.

## Main statements

* `Reads.bind`: one reader after the other.
* `Reads.optional_absent`, `Reads.optional`: a part that may be left out.
* `Reads.many`, `Reads.enclosed?`, `Reads.separated`: lists of items.
-/

namespace SchemaAlgebra

/-! ## Streams -/

namespace Stream

/-- A stream without its first tokens. -/
def drop (stream : Stream) (count : Nat) : Stream :=
  { stream with tokens := stream.tokens.drop count }

@[simp] theorem tokens_drop (stream : Stream) (count : Nat) :
    (stream.drop count).tokens = stream.tokens.drop count := rfl

@[simp] theorem bound_drop (stream : Stream) (count : Nat) :
    (stream.drop count).bound = stream.bound := rfl

@[simp] theorem complete_drop (stream : Stream) (count : Nat) :
    (stream.drop count).complete = stream.complete := rfl

theorem drop_drop (stream : Stream) (first second : Nat) :
    (stream.drop first).drop second = stream.drop (first + second) := by
  simp [drop, List.drop_drop]

theorem words_drop {stream : Stream} {front back : List Word} (h : stream.words = front ++ back) :
    (stream.drop front.length).words = back := by
  simp only [words, tokens_drop, List.map_drop] at h ⊢
  rw [h, List.drop_left]

/-- The first word of a stream is its first token. -/
theorem exists_token {stream : Stream} {word : Word} {rest : List Word}
    (h : stream.words = word :: rest) :
    ∃ place token more, stream.tokens = (place, token) :: more ∧ word = some token := by
  obtain ⟨⟨place, token⟩, more, htokens, hword, -⟩ := List.map_eq_cons_iff.mp h
  exact ⟨place, token, more, htokens, hword.symm⟩

theorem length_tokens (stream : Stream) : stream.tokens.length = stream.words.length := by
  simp [words]

end Stream

/-! ## What follows -/

/-- A list of words does not start with one of some tokens. -/
def Avoids (tokens : List Token) (words : List Word) : Prop :=
  ∀ token ∈ tokens, words.head? ≠ some (some token)

namespace Avoids

variable {tokens : List Token} {words front back : List Word}

theorem nil : Avoids tokens [] := fun _ _ h => nomatch h

theorem append (hfront : Avoids tokens front) (hback : Avoids tokens back) :
    Avoids tokens (front ++ back) := by
  cases front with
  | nil => exact hback
  | cons word rest => exact hfront

theorem mono {more : List Token} (h : Avoids more words) (hsub : tokens ⊆ more) :
    Avoids tokens words := fun token hmem => h token (hsub hmem)

/-- What starts with one of the tokens only is not there. -/
theorem any_eq_false (h : Avoids tokens words) {starts : Token → Bool}
    (hstarts : ∀ token, starts token = true → token ∈ tokens) :
    words.head?.join.any starts = false := by
  cases words with
  | nil => rfl
  | cons word rest =>
    cases word with
    | none => rfl
    | some token =>
      show starts token = false
      rw [← Bool.not_eq_true]
      exact fun hstart => h token (hstarts token hstart) rfl

theorem cons {word : Word} (h : ∀ token ∈ tokens, word ≠ some token) (rest : List Word) :
    Avoids tokens (word :: rest) := fun token hmem heq => h token hmem (Option.some.inj heq)

end Avoids

/-- A list of words starts with a word that may start an item, unless it is malformed. -/
def StartsWith (starts : Token → Bool) (words : List Word) : Prop :=
  ∃ word rest, words = word :: rest ∧ ∀ token, word = some token → starts token = true

theorem StartsWith.append {starts : Token → Bool} {front : List Word} (h : StartsWith starts front)
    (back : List Word) : StartsWith starts (front ++ back) := by
  obtain ⟨word, rest, rfl, hword⟩ := h
  exact ⟨word, rest ++ back, rfl, hword⟩

/-! ## Reading -/

/-- A reader takes some words off the front of a stream and gives a value, or fails for want of a
value, if what follows them is as it should be. -/
def Reads {α : Type} (size : Nat) (reader : Reader α) (words : List Word) (value : Option α)
    (follow : List Word → Prop) : Prop :=
  ∀ (stream : Stream) (rest : List Word), stream.words = words ++ rest →
    stream.tokens.length ≤ size → stream.tokens.length ≤ stream.bound → follow rest →
      (reader.run stream).toOption = value.map fun result => (result, stream.drop words.length)

/-- Nothing is asked of what follows. -/
abbrev anything : List Word → Prop := fun _ => True

section Runs

variable {α β : Type}

theorem toOption_run_bind (reader : Reader α) (next : α → Reader β) (stream : Stream) :
    ((reader >>= next).run stream).toOption =
      (reader.run stream).toOption.bind fun result => ((next result.1).run result.2).toOption := by
  rw [StateT.run_bind]
  cases reader.run stream <;> rfl

theorem toOption_run_refuse (stream : Stream) :
    ((Reader.refuse : Reader α).run stream).toOption = none := by
  simp only [Reader.refuse, toOption_run_bind]
  cases ((Reader.position).run stream).toOption <;> rfl

/-- Asking for the next token takes no words. -/
theorem toOption_run_next (starts : Token → Bool) (stream : Stream) :
    ((Reader.next starts).run stream).toOption = some (stream.words.head?.join.any starts, stream) := by
  show some ((stream.tokens.head?.map Prod.snd).any starts, stream) = _
  rw [Stream.words]
  cases stream.tokens <;> rfl

/-- The first word is taken if it is accepted. -/
theorem toOption_run_take (accepts : Token → Option α) (stream : Stream) :
    ((Reader.take accepts).run stream).toOption =
      (stream.words.head?.join.bind accepts).map fun result => (result, stream.drop 1) := by
  have hget : ((get : Reader Stream).run stream).toOption = some (stream, stream) := rfl
  rw [Reader.take, toOption_run_bind, hget, Option.bind_some, Stream.words]
  cases htokens : stream.tokens with
  | nil => exact toOption_run_refuse stream
  | cons entry rest =>
    show _ = (accepts entry.2).map _
    dsimp only
    cases accepts entry.2 with
    | none => exact toOption_run_refuse stream
    | some result =>
      have hdrop : stream.drop 1 = { stream with tokens := rest } := by simp [Stream.drop, htokens]
      rw [Option.map_some, hdrop]
      rfl

end Runs

namespace Reads

variable {α β : Type} {size : Nat} {reader : Reader α} {words front back : List Word}
  {value : Option α} {follow more : List Word → Prop}

theorem mono {larger : Nat} (h : Reads larger reader words value follow) (hsize : size ≤ larger) :
    Reads size reader words value follow := fun stream rest hwords hlength hbound hrest =>
  h stream rest hwords (Nat.le_trans hlength hsize) hbound hrest

theorem follow_mono (h : Reads size reader words value more)
    (hfollow : ∀ rest, follow rest → more rest) :
    Reads size reader words value follow := fun stream rest hwords hlength hbound hrest =>
  h stream rest hwords hlength hbound (hfollow rest hrest)

/-- Where no token is left, no words are. -/
theorem of_exhausted (hne : words ≠ []) (hsize : size ≤ 0) : Reads size reader words value follow := by
  intro stream rest hwords hlength _ _
  -- Every word is a token of the stream, and there would be none.
  have htokens := stream.length_tokens
  have hpositive := List.length_pos_of_ne_nil hne
  rw [hwords, List.length_append] at htokens
  omega

theorem pure (result : α) : Reads size (Pure.pure result) [] (some result) anything :=
  fun _ _ _ _ _ _ => rfl

/-- One reader after the other: the words of the second follow those of the first. -/
theorem bind {next : α → Reader β} {result : α → Option β}
    (h : Reads size reader front value more)
    (hnext : ∀ found, value = some found →
      Reads (size - front.length) (next found) back (result found) follow)
    (hstop : ∀ rest, follow rest → more (back ++ rest)) :
    Reads size (reader >>= next) (front ++ back) (value.bind result) follow := by
  intro stream rest hwords hlength hbound hrest
  -- For the first reader, the words of the second are part of what follows.
  rw [List.append_assoc] at hwords
  rw [toOption_run_bind, h stream _ hwords hlength hbound (hstop rest hrest)]
  cases hvalue : value with
  | none => rfl
  | some found =>
    -- The second reader starts on what the first one left, which is shorter by its words.
    have hdropped : (stream.drop front.length).tokens.length = stream.tokens.length - front.length := by
      simp
    have hrun := hnext found hvalue (stream.drop front.length) rest (Stream.words_drop hwords)
      (by omega) (by simp only [hdropped, Stream.bound_drop]; omega) hrest
    rw [Option.map_some, Option.bind_some, Option.bind_some, hrun]
    simp [Stream.drop_drop]

/-- A reader whose value is known, and another one after it. -/
theorem followed {next : α → Reader β} {found : α} {result : Option β}
    (h : Reads size reader front (some found) more)
    (hnext : Reads (size - front.length) (next found) back result follow)
    (hstop : ∀ rest, follow rest → more (back ++ rest)) :
    Reads size (reader >>= next) (front ++ back) result follow := by
  have hfound : ∀ other, some found = some other →
      Reads (size - front.length) (next other) back result follow := by
    rintro other ⟨⟩
    exact hnext
  exact h.bind hfound hstop

/-- What is done with the value of a reader may fail, but takes no words. -/
theorem checked {next : α → Reader β} {result : α → Option β}
    (h : Reads size reader words value follow)
    (hnext : ∀ found, Reads (size - words.length) (next found) [] (result found) anything) :
    Reads size (reader >>= next) words (value.bind result) follow := by
  have hbind := h.bind (fun found _ => (hnext found).follow_mono fun _ _ => trivial)
    fun _ hrest => hrest
  rwa [List.append_nil] at hbind

/-- What is done with the value of a reader. -/
theorem map {result : α → β} (h : Reads size reader words value follow) :
    Reads size (reader >>= fun found => Pure.pure (result found)) words (value.map result) follow := by
  rw [Option.map_eq_bind]
  exact h.checked fun found => pure (result found)

/-! ### Single tokens -/

/-- Looking at the next token takes no words. -/
theorem peek {next : Option Token → Reader α} {word : Word}
    (h : ∀ token, word = some token →
      Reads size (next (some token)) (word :: words) value follow) :
    Reads size (Reader.peek >>= next) (word :: words) value follow := by
  intro stream rest hwords hlength hbound hrest
  obtain ⟨place, token, tail, htokens, htoken⟩ := Stream.exists_token hwords
  rw [← h token htoken stream rest hwords hlength hbound hrest, toOption_run_bind]
  have hpeek : (Reader.peek.run stream).toOption = some (some token, stream) := by
    show some (stream.tokens.head?.map Prod.snd, stream) = _
    rw [htokens]
    rfl
  rw [hpeek]
  rfl

theorem take (accepts : Token → Option α) (word : Word) :
    Reads size (Reader.take accepts) [word] (word.bind accepts) anything := by
  intro stream rest hwords _ _ _
  rw [toOption_run_take, hwords]
  rfl

/-- Asking where the next token stands takes no words. -/
theorem position {next : Position → Reader α}
    (h : ∀ place, Reads size (next place) words value follow) :
    Reads size (Reader.position >>= next) words value follow := by
  intro stream rest hwords hlength hbound hrest
  have hplace : (Reader.position.run stream).toOption =
      some ((stream.tokens.head?.map Prod.fst).getD stream.ending, stream) := rfl
  rw [toOption_run_bind, hplace]
  exact h _ stream rest hwords hlength hbound hrest

/-- A token that is not there is not taken. -/
theorem take_absent {accepts : Token → Option α} {tokens : List Token}
    (haccepts : ∀ token, token ∉ tokens → accepts token = none) (next : α → Reader β) :
    Reads size (Reader.take accepts >>= next) [] none (Avoids tokens) := by
  intro stream rest hwords hlength hbound hrest
  have hnone : rest.head?.join.bind accepts = none := by
    cases rest with
    | nil => rfl
    | cons word more =>
      cases word with
      | none => rfl
      | some token => exact haccepts token fun hmem => hrest token hmem rfl
  rw [toOption_run_bind, toOption_run_take, hwords, List.nil_append, hnone]
  rfl

theorem mark (expected : Punctuator) :
    Reads size (Reader.mark expected) [markWord expected] (some ()) anything := by
  have htake : Reads size (Reader.mark expected) [markWord expected]
      ((markWord expected).bind fun token => if Reader.isMark expected token then some () else none)
      anything := take _ (markWord expected)
  simpa [Reader.isMark] using htake

theorem keyword (word : String) :
    Reads size (Reader.keyword word) [nameWord word] (some ()) anything := by
  have htake : Reads size (Reader.keyword word) [nameWord word]
      ((nameWord word).bind fun token => if Reader.isKeyword word token then some () else none)
      anything := take _ (nameWord word)
  simpa [Reader.isKeyword] using htake

theorem name (text : String) : Reads size Reader.name [nameWord text] (some text) anything :=
  take Reader.nameOf (nameWord text)

/-! ### Parts -/

theorem next {starts : Token → Bool} {item : Bool → Reader α} {found : Bool} {word : Word}
    (hword : ∀ token, word = some token → starts token = found)
    (h : Reads size (item found) (word :: words) value follow) :
    Reads size (Reader.next starts >>= item) (word :: words) value follow := by
  intro stream rest hwords hlength hbound hrest
  obtain ⟨place, token, tail, htokens, rfl⟩ := Stream.exists_token hwords
  rw [← h stream rest hwords hlength hbound hrest, toOption_run_bind, toOption_run_next, hwords]
  simp [hword token rfl]

/-- An optional part that is not there: what follows does not start it. -/
theorem optional_absent (starts : Token → Bool) (absent : α) (item : Reader α) :
    Reads size (Reader.optional starts absent item) [] (some absent)
      (fun rest => rest.head?.join.any starts = false) := by
  intro stream rest hwords _ _ hrest
  rw [Reader.optional, toOption_run_bind, toOption_run_next, hwords, List.nil_append, hrest]
  rfl

/-- A choice that the first word decides for. -/
theorem present {starts : Token → Bool} {item : Bool → Reader α} (hstarts : StartsWith starts words)
    (h : Reads size (item true) words value follow) :
    Reads size (Reader.next starts >>= item) words value follow := by
  obtain ⟨word, tail, rfl, hword⟩ := hstarts
  exact next hword h

/-- A choice that the first word decides against. -/
theorem skip {starts : Token → Bool} {item : Bool → Reader α}
    (hstarts : StartsWith (!starts ·) words) (h : Reads size (item false) words value follow) :
    Reads size (Reader.next starts >>= item) words value follow := by
  obtain ⟨word, tail, rfl, hword⟩ := hstarts
  exact next (fun token htoken => by simpa using hword token htoken) h

/-- An optional part that is there. -/
theorem optional {starts : Token → Bool} (hstarts : StartsWith starts words) (absent : α)
    (h : Reads size reader words value follow) :
    Reads size (Reader.optional starts absent reader) words value follow := present hstarts h

/-- An optional part that is not there, in words that do not start with one of its tokens. -/
theorem absent {starts : Token → Bool} {tokens : List Token}
    (hstarts : ∀ token, starts token = true → token ∈ tokens) (absent : α) (item : Reader α) :
    Reads size (Reader.optional starts absent item) [] (some absent) (Avoids tokens) :=
  (optional_absent starts absent item).follow_mono fun _ hrest => hrest.any_eq_false hstarts

end Reads

/-! ## Lists -/

/-- Items that a reader takes one by one.  Each starts as an item should, and may follow another. -/
structure ReadsItems {ι α : Type} (size : Nat) (reader : Reader α) (starts : Token → Bool)
    (wordsOf : ι → List Word) (valueOf : ι → Option α) (more : List Word → Prop)
    (items : List ι) : Prop where
  reads : ∀ item ∈ items, Reads size reader (wordsOf item) (valueOf item) more
  starts : ∀ item ∈ items, StartsWith starts (wordsOf item)
  more : ∀ item ∈ items, ∀ rest, more (wordsOf item ++ rest)

section Lists

variable {ι α : Type} {size : Nat} {reader : Reader α} {starts : Token → Bool}
  {wordsOf : ι → List Word} {valueOf : ι → Option α} {more follow : List Word → Prop}
  {first : ι} {items : List ι}

theorem mapM_cons_eq (valueOf : ι → Option α) (first : ι) (items : List ι) :
    (first :: items).mapM valueOf =
      (valueOf first).bind fun found => (items.mapM valueOf).map (found :: ·) := by
  rw [List.mapM_cons]
  cases valueOf first with
  | none => rfl
  | some found => cases items.mapM valueOf <;> rfl

namespace ReadsItems

theorem mono {larger : Nat}
    (h : ReadsItems larger reader starts wordsOf valueOf more items) (hsize : size ≤ larger) :
    ReadsItems size reader starts wordsOf valueOf more items where
  reads item hitem := (h.reads item hitem).mono hsize
  starts := h.starts
  more := h.more

theorem tail (h : ReadsItems size reader starts wordsOf valueOf more (first :: items)) :
    ReadsItems size reader starts wordsOf valueOf more items where
  reads item hitem := h.reads item (List.mem_cons_of_mem _ hitem)
  starts item hitem := h.starts item (List.mem_cons_of_mem _ hitem)
  more item hitem := h.more item (List.mem_cons_of_mem _ hitem)

theorem length_le (h : ReadsItems size reader starts wordsOf valueOf more items) :
    items.length ≤ (items.flatMap wordsOf).length := by
  induction items with
  | nil => exact Nat.le_refl 0
  | cons item others ih =>
    obtain ⟨word, rest, hwords, -⟩ := h.starts item List.mem_cons_self
    have hothers := ih h.tail
    rw [List.flatMap_cons, List.length_append, hwords, List.length_cons, List.length_cons]
    omega

/-- What may follow the last item may also follow the items before. -/
theorem separate (h : ReadsItems size reader starts wordsOf valueOf more items)
    {rest : List Word} (hrest : more rest) : more (items.flatMap wordsOf ++ rest) := by
  cases items with
  | nil => exact hrest
  | cons item others =>
    rw [List.flatMap_cons, List.append_assoc]
    exact h.more item List.mem_cons_self _

/-- Items are read until something follows that starts none. -/
theorem manyUpTo (h : ReadsItems size reader starts wordsOf valueOf more items)
    (hfollow : ∀ rest, follow rest → rest.head?.join.any starts = false ∧ more rest)
    {fuel : Nat} (hfuel : items.length ≤ fuel) :
    Reads size (Reader.manyUpTo starts reader fuel) (items.flatMap wordsOf) (items.mapM valueOf)
      follow := by
  induction items generalizing size fuel with
  | nil =>
    intro stream rest hwords _ _ hrest
    -- What follows starts no item, so reading ends here with or without fuel.
    have hnone : stream.words.head?.join.any starts = false := by
      rw [hwords]
      exact (hfollow rest hrest).1
    cases fuel with
    | zero => rfl
    | succ fuel =>
      rw [Reader.manyUpTo, toOption_run_bind, toOption_run_next, hnone]
      rfl
  | cons item others ih =>
    obtain ⟨fuel, rfl⟩ := Nat.exists_eq_succ_of_ne_zero (Nat.ne_zero_of_lt hfuel)
    -- The other items are read from what the first one leaves.
    have hothers := ih (h.tail.mono (Nat.sub_le size (wordsOf item).length))
      (Nat.le_of_succ_le_succ hfuel)
    have hboth : Reads size (do
          let first ← reader
          return first :: (← Reader.manyUpTo starts reader fuel))
        (wordsOf item ++ others.flatMap wordsOf)
        ((valueOf item).bind fun found => (others.mapM valueOf).map (found :: ·)) follow :=
      (h.reads item List.mem_cons_self).bind (fun _ _ => hothers.map)
        fun rest hrest => h.tail.separate (hfollow rest hrest).2
    rw [mapM_cons_eq, List.flatMap_cons]
    exact hboth.optional ((h.starts item List.mem_cons_self).append _) []

/-- The tokens of a stream are fuel enough, because every item takes at least one. -/
theorem many (h : ReadsItems size reader starts wordsOf valueOf more items)
    (hfollow : ∀ rest, follow rest → rest.head?.join.any starts = false ∧ more rest) :
    Reads size (Reader.many starts reader) (items.flatMap wordsOf) (items.mapM valueOf) follow := by
  intro stream rest hwords hlength hbound hrest
  have hfuel : items.length ≤ stream.bound := by
    -- There are no more items than words, and no more words than tokens.
    have hitems := h.length_le
    have htokens := stream.length_tokens
    rw [hwords, List.length_append] at htokens
    omega
  exact h.manyUpTo hfollow hfuel stream rest hwords hlength hbound hrest

variable {opening closing : Punctuator}

/-- Items up to a closing punctuator, which is taken as well.  What is done with them then may
fail. -/
theorem manyChecked (h : ReadsItems size reader (!Reader.isMark closing ·) wordsOf valueOf more items)
    (hclosing : ∀ rest, more (markWord closing :: rest)) {β : Type} {next : List α → Reader β}
    {result : List α → Option β}
    (hnext : ∀ {size} found, Reads size (next found) [] (result found) anything) :
    Reads size (do
        let found ← Reader.many (!Reader.isMark closing ·) reader
        Reader.mark closing
        next found)
      (items.flatMap wordsOf ++ [markWord closing]) ((items.mapM valueOf).bind result) anything := by
  -- The items end in front of the closing punctuator, whatever stands behind it.
  have hmany : Reads size (Reader.many (!Reader.isMark closing ·) reader)
      (items.flatMap wordsOf) (items.mapM valueOf)
      fun rest => ∃ tail, rest = markWord closing :: tail := by
    apply h.many
    rintro rest ⟨tail, rfl⟩
    exact ⟨by simp [Reader.isMark], hclosing tail⟩
  have hclose : ∀ found, Reads (size - (items.flatMap wordsOf).length) (do
        Reader.mark closing
        next found) [markWord closing] (result found) anything :=
    fun found => (Reads.mark closing).checked fun _ => hnext found
  exact hmany.bind (fun found _ => hclose found) fun rest _ => ⟨rest, rfl⟩

theorem manyClosed (h : ReadsItems size reader (!Reader.isMark closing ·) wordsOf valueOf more items)
    (hclosing : ∀ rest, more (markWord closing :: rest)) {β : Type} (result : List α → β) :
    Reads size (do
        let found ← Reader.many (!Reader.isMark closing ·) reader
        Reader.mark closing
        return result found)
      (items.flatMap wordsOf ++ [markWord closing]) ((items.mapM valueOf).map result) anything := by
  rw [Option.map_eq_bind]
  exact h.manyChecked hclosing fun found => Reads.pure (result found)

/-- Items between two punctuators, of which there is at least one. -/
theorem enclosed (h : ReadsItems size reader (!Reader.isMark closing ·) wordsOf valueOf more
      (first :: items)) (hclosing : ∀ rest, more (markWord closing :: rest)) :
    Reads size (Reader.enclosed opening closing reader)
      (markWord opening :: ((first :: items).flatMap wordsOf ++ [markWord closing]))
      ((first :: items).mapM valueOf) anything := by
  have hitems : Reads (size - 1) (do
        let found ← reader
        let others ← Reader.many (!Reader.isMark closing ·) reader
        Reader.mark closing
        return found :: others)
      (wordsOf first ++ (items.flatMap wordsOf ++ [markWord closing]))
      ((valueOf first).bind fun found => (items.mapM valueOf).map (found :: ·)) anything :=
    ((h.mono (Nat.sub_le _ _)).reads first List.mem_cons_self).bind
      (fun found _ => (h.tail.mono (Nat.le_trans (Nat.sub_le _ _) (Nat.sub_le _ _))).manyClosed
        hclosing (found :: ·))
      fun rest _ => by
        rw [List.append_assoc]
        exact h.tail.separate (hclosing rest)
  rw [mapM_cons_eq, List.flatMap_cons, List.append_assoc]
  exact (Reads.mark opening).bind (fun _ _ => hitems) fun _ _ => trivial

/-- Items between two punctuators, if there are any. -/
theorem enclosed? (h : ReadsItems size reader (!Reader.isMark closing ·) wordsOf valueOf more items)
    (hclosing : ∀ rest, more (markWord closing :: rest)) :
    Reads size (Reader.enclosed? opening closing reader)
      (enclosedWords opening closing wordsOf items) (items.mapM valueOf)
      (Avoids [.punctuator opening]) := by
  cases items with
  | nil => exact Reads.absent (by simp [Reader.isMark]) [] _
  | cons item others =>
    have hstarts : StartsWith (Reader.isMark opening)
        (markWord opening :: ((item :: others).flatMap wordsOf ++ [markWord closing])) :=
      ⟨_, _, rfl, by simp [Reader.isMark]⟩
    exact ((h.enclosed hclosing).optional hstarts []).follow_mono fun _ _ => trivial

end ReadsItems

/-- Names with a punctuator between them, each of which is read as an item. -/
theorem Reads.separated {separator : Punctuator} {valueOf : String → Option α}
    (hitem : ∀ {size name}, Reads size reader [nameWord name] (valueOf name) anything)
    (first : String) (names : List String) :
    Reads size (Reader.separated separator reader) (separatedWords separator (first :: names))
      ((first :: names).mapM valueOf) (Avoids [.punctuator separator]) := by
  have hnames : ∀ {size : Nat}, ReadsItems size
      (do
        Reader.mark separator
        reader) (Reader.isMark separator) (fun name => [markWord separator, nameWord name]) valueOf
      anything names := {
    reads := fun name _ => (Reads.mark separator).bind (fun _ _ => hitem) fun _ _ => trivial
    starts := fun name _ => ⟨_, _, rfl, by simp [Reader.isMark]⟩
    more := fun _ _ _ => trivial }
  have hmany : ∀ {size : Nat}, Reads size (Reader.many (Reader.isMark separator) do
        Reader.mark separator
        reader) (names.flatMap fun name => [markWord separator, nameWord name])
      (names.mapM valueOf) (Avoids [.punctuator separator]) :=
    hnames.many fun rest hrest => ⟨hrest.any_eq_false (by simp [Reader.isMark]), trivial⟩
  have hboth : ∀ {size : Nat}, Reads size (do
        let found ← reader
        let others ← Reader.many (Reader.isMark separator) do
          Reader.mark separator
          reader
        return found :: others)
      ([nameWord first] ++ names.flatMap fun name => [markWord separator, nameWord name])
      ((valueOf first).bind fun found => (names.mapM valueOf).map (found :: ·))
      (Avoids [.punctuator separator]) :=
    hitem.bind (fun _ _ => hmany.map) fun _ _ => trivial
  -- No separator stands in front of the first name.
  have habsent : Reads size
      (Reader.optional (Reader.isMark separator) () (Reader.mark separator)) [] (some ())
      (Avoids [.punctuator separator]) := Reads.absent (by simp [Reader.isMark]) () _
  rw [mapM_cons_eq]
  exact habsent.bind (fun _ _ => hboth) fun rest _ => Avoids.cons (by simp) _

end Lists

end SchemaAlgebra
