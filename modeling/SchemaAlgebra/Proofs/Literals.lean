import SchemaAlgebra.Language.Printer
import SchemaAlgebra.Proofs.Lexing

/-!
# Names and literals as words

Every name, number and string is written as a single word.  For a name this is the name itself, if
its characters allow it; for a literal it is whatever the text of the literal is read as, which may
be nothing at all: a string may be written with an escape that cannot be read, and a large number
with more digits than an integer can have.  An infinite number is even written as a name.

## Main statements

* `Lexes.name`, `Lexes.int`, `Lexes.float`, `Lexes.text`: the word for each of them.
-/

namespace SchemaAlgebra

/-! ### Names -/

/-- Whether a text can be the text of a name. -/
def isName (text : String) : Bool :=
  match text.toList with
  | [] => false
  | first :: rest => Token.isNameStart first && rest.all Token.isNamePart

theorem takeWhile_boundary {inside : Char → Bool} {text rest : List Char}
    (htext : ∀ c ∈ text, inside c = true) (hrest : ∀ c ∈ rest.head?, inside c = false) :
    (text ++ rest).takeWhile inside = text ∧ (text ++ rest).dropWhile inside = rest := by
  rw [List.takeWhile_append_of_pos htext, List.dropWhile_append_of_pos htext]
  cases rest with
  | nil => simp
  | cons c more =>
    have hc : inside c = false := hrest c rfl
    simp [hc]

theorem Lexes.name {text : String} (h : isName text) :
    Lexes text.toList (nameWord text) := by
  unfold isName at h
  split at h
  · cases h
  · next first rest htext =>
    rw [Bool.and_eq_true, List.all_eq_true] at h
    obtain ⟨hfirst, hrest⟩ := h
    rw [htext]
    -- A character that starts a name is none of those that other tokens start with.
    have hother : ∀ c, Token.isNameStart c = false → first ≠ c := by
      rintro c hc rfl
      exact Bool.false_ne_true (hc.symm.trans hfirst)
    refine ⟨⟨first, rfl, isSolid_of (by decide) hfirst⟩, ?_⟩
    · intro after hafter
      obtain ⟨htake, hdrop⟩ := takeWhile_boundary hrest
        fun c hc => (endsToken_eq_true (hafter c hc)).1
      have hname : String.ofList (first :: rest) = text := by
        rw [← htext, String.ofList_toList]
      rw [List.cons_append, Token.scan]
      · simp [hfirst, htake, hdrop, hname]
      · rintro _ rfl
        exact absurd rfl (hother '.' (by decide))
      · rintro rfl
        exact absurd rfl (hother '"' (by decide))

/-! ### Numbers -/

/-- The decimal digits. -/
def decimalDigits : List Char := ['0', '1', '2', '3', '4', '5', '6', '7', '8', '9']

theorem mem_decimalDigits {c : Char} (h : c.isDigit) : c ∈ decimalDigits := by
  simp only [Char.isDigit, Bool.and_eq_true, decide_eq_true_eq, ge_iff_le,
    UInt32.le_iff_toNat_le] at h
  have hlow : 48 ≤ c.toNat := h.1
  have hhigh : c.toNat ≤ 57 := h.2
  have hall : ∀ n, n ≤ 57 → 48 ≤ n → Char.ofNat n ∈ decimalDigits := by decide
  rw [← Char.ofNat_toNat c]
  exact hall c.toNat hhigh hlow

/-- Digits start no name and end no number. -/
theorem isDigit_class {c : Char} (h : c.isDigit) :
    Token.isNameStart c = false ∧ Token.endsNumber c = false := by
  have hall : decimalDigits.all fun d => !Token.isNameStart d && !Token.endsNumber d := by decide
  simpa using List.all_eq_true.mp hall c (mem_decimalDigits h)

theorem Lexes.number {text : List Char} (hfirst : ∃ c ∈ text.head?, c = '-' ∨ c.isDigit)
    (hrest : ∀ c ∈ text, Token.endsNumber c = false) : Lexes text (Token.number? text) := by
  obtain ⟨first, hhead, hfirst⟩ := hfirst
  obtain ⟨tail, rfl⟩ : ∃ tail, text = first :: tail := List.head?_eq_some_iff.mp hhead
  have hclass : (first = '-' || first.isDigit) = true := by simpa using hfirst
  have hname : Token.isNameStart first = false := by
    rcases hfirst with rfl | hdigit
    · decide
    · exact (isDigit_class hdigit).1
  have hsolid : isSolid first := @isSolid_of (fun c => c = '-' || c.isDigit) (by decide) first hclass
  refine ⟨⟨first, rfl, hsolid⟩, ?_⟩
  intro after hafter
  have hinside : ∀ c ∈ tail, (!Token.endsNumber c) = true := fun c hc => by
    simp [hrest c (List.mem_cons_of_mem _ hc)]
  have hends : ∀ c ∈ after.head?, (!Token.endsNumber c) = false := fun c hc => by
    simp [(endsToken_eq_true (hafter c hc)).2.1]
  obtain ⟨htake, hdrop⟩ := takeWhile_boundary hinside hends
  rw [List.cons_append, Token.scan]
  · simp [hname, hclass, htake, hdrop]
  · rintro _ rfl
    exact absurd hclass (by decide)
  · rintro rfl
    exact absurd hclass (by decide)

theorem isDigit_of_mem_toDigits {n : Nat} {c : Char} (h : c ∈ Nat.toDigits 10 n) : c.isDigit :=
  Nat.isDigit_of_mem_toDigits (by decide) (by decide) h

theorem isDigit_of_mem_zeros {count : Nat} {c : Char} (h : c ∈ List.replicate count '0') :
    c.isDigit := by
  rw [(List.mem_replicate.mp h).2]
  rfl

/-- Digits stay digits when they are padded with zeros. -/
theorem isDigit_of_mem_padded {count n : Nat} {c : Char}
    (h : c ∈ List.replicate count '0' ++ Nat.toDigits 10 n) : c.isDigit :=
  (List.mem_append.mp h).elim isDigit_of_mem_zeros isDigit_of_mem_toDigits

theorem exists_head_toDigits (n : Nat) : ∃ c ∈ (Nat.toDigits 10 n).head?, c.isDigit := by
  obtain ⟨c, rest, hdigits⟩ := List.exists_cons_of_ne_nil (Nat.toDigits_ne_nil (n := n) (b := 10))
  refine ⟨c, by rw [hdigits]; rfl, isDigit_of_mem_toDigits (n := n) ?_⟩
  rw [hdigits]
  exact List.mem_cons_self

theorem Lexes.int (number : Int) :
    Lexes (renderInt number).toList (Token.number? (renderInt number).toList) := by
  cases number with
  | ofNat n =>
    have htext : (renderInt (.ofNat n)).toList = Nat.toDigits 10 n := String.toList_ofList
    rw [htext]
    obtain ⟨c, hhead, hdigit⟩ := exists_head_toDigits n
    exact .number ⟨c, hhead, .inr hdigit⟩
      fun d hd => (isDigit_class (isDigit_of_mem_toDigits hd)).2
  | negSucc n =>
    have htext : (renderInt (.negSucc n)).toList = '-' :: Nat.toDigits 10 (n + 1) := by
      simp [renderInt]
    rw [htext]
    refine .number ⟨'-', rfl, .inl rfl⟩ ?_
    rintro d (_ | ⟨_, hd⟩)
    · decide
    · exact (isDigit_class (isDigit_of_mem_toDigits hd)).2

namespace Binary64

/-- There are more digits than places, so those in front of the point are not empty. -/
theorem lt_length_padded (n places : Nat) :
    places < (List.replicate (places + 1 - (Nat.toDigits 10 n).length) '0' ++
      Nat.toDigits 10 n).length := by
  rw [List.length_append, List.length_replicate]
  omega

/-- The leading part of digits starts with a digit, unless it is empty. -/
theorem exists_head_take {digits : List Char} (h : ∀ c ∈ digits, c.isDigit) {count : Nat}
    (hcount : 0 < count) (hlength : 0 < digits.length) :
    ∃ c ∈ (digits.take count).head?, c.isDigit := by
  obtain ⟨c, rest, rfl⟩ := List.exists_cons_of_length_pos hlength
  refine ⟨c, ?_, h c List.mem_cons_self⟩
  rw [List.head?_take, if_neg (Nat.ne_of_gt hcount)]
  rfl

theorem mem_of_mem_trimZeros {digits : List Char} {c : Char} (h : c ∈ trimZeros digits) :
    c ∈ digits :=
  List.mem_reverse.mp ((List.dropWhile_sublist _).subset (List.mem_reverse.mp h))

/-- A number in positional notation starts with a digit and holds nothing but digits and a point. -/
theorem positional_class (d : Decimal) :
    (∃ c ∈ (positional d).head?, c.isDigit) ∧
      ∀ c ∈ positional d, c.isDigit ∨ c = '.' := by
  unfold positional
  dsimp only
  split
  · obtain ⟨c, hhead, hdigit⟩ := exists_head_toDigits d.digits
    refine ⟨⟨c, by simp [List.head?_append, Option.mem_def.mp hhead], hdigit⟩, fun x hx => .inl ?_⟩
    exact (List.mem_append.mp hx).elim isDigit_of_mem_toDigits isDigit_of_mem_zeros
  · have hlength := lt_length_padded d.digits (-d.exponent).toNat
    have hdigits : ∀ c ∈ List.replicate ((-d.exponent).toNat + 1 - (Nat.toDigits 10 d.digits).length)
        '0' ++ Nat.toDigits 10 d.digits, c.isDigit := fun c hc => isDigit_of_mem_padded hc
    generalize List.replicate ((-d.exponent).toNat + 1 - (Nat.toDigits 10 d.digits).length) '0' ++
      Nat.toDigits 10 d.digits = padded at *
    obtain ⟨c, hhead, hdigit⟩ :=
      exists_head_take hdigits (Nat.sub_pos_of_lt hlength) (Nat.zero_lt_of_lt hlength)
    split
    · exact ⟨⟨c, hhead, hdigit⟩, fun c hc => .inl (hdigits c (List.mem_of_mem_take hc))⟩
    · refine ⟨⟨c, by simp [List.head?_append, Option.mem_def.mp hhead], hdigit⟩, fun x hx => ?_⟩
      rcases List.mem_append.mp hx with hx | hx
      · exact .inl (hdigits x (List.mem_of_mem_take hx))
      · rcases List.mem_cons.mp hx with rfl | hx
        · exact .inr rfl
        · exact .inl (hdigits x (List.mem_of_mem_drop (mem_of_mem_trimZeros hx)))

end Binary64

/-- The word that a floating-point number is written as.  The infinite one is written as a name. -/
def floatWord (number : Binary64) : Word :=
  if number = .infinite false then nameWord "inf" else Token.number? number.render

theorem Lexes.float (number : Binary64) : Lexes number.render (floatWord number) := by
  -- A sign may stand in front; what comes behind it is digits and a point, which end no number.
  have hsigned : ∀ (negative : Bool) {text : List Char},
      (∃ c ∈ text.head?, c.isDigit) → (∀ c ∈ text, c.isDigit ∨ c = '.') →
      Lexes ((if negative then ['-'] else []) ++ text)
        (Token.number? ((if negative then ['-'] else []) ++ text)) := by
    rintro negative text ⟨c, hhead, hdigit⟩ htext
    have hinside : ∀ c ∈ text, Token.endsNumber c = false := by
      intro x hx
      rcases htext x hx with hdigit | rfl
      · exact (isDigit_class hdigit).2
      · decide
    cases negative with
    | false => exact .number ⟨c, hhead, .inr hdigit⟩ hinside
    | true =>
      refine .number ⟨'-', rfl, .inl rfl⟩ ?_
      rintro x (_ | ⟨_, hx⟩)
      · decide
      · exact hinside x hx
  cases number with
  | infinite negative =>
    cases negative with
    | false =>
      have hname : isName "inf" := by decide
      exact .name hname
    | true =>
      have hinside : (Binary64.render (.infinite true)).all (!Token.endsNumber ·) := by decide
      exact .number ⟨'-', rfl, .inl rfl⟩ fun c hc => by simpa using List.all_eq_true.mp hinside c hc
  | finite negative significand exponent =>
    have htext : (∃ c ∈ (if significand = 0 then ['0']
          else Binary64.positional (Binary64.shortest significand exponent)).head?, c.isDigit) ∧
        ∀ c ∈ (if significand = 0 then ['0']
          else Binary64.positional (Binary64.shortest significand exponent)),
          c.isDigit ∨ c = '.' := by
      split
      · exact ⟨⟨'0', rfl, rfl⟩, List.forall_mem_singleton.mpr (.inl rfl)⟩
      · exact Binary64.positional_class _
    rw [floatWord, if_neg (by simp), Binary64.render]
    exact hsigned negative htext.1 htext.2

/-! ### Strings -/

/-- Puts what a reader has passed in front of the content that it finds behind it. -/
def prepend (passed : List Char) (found : List Char × List Char) : List Char × List Char :=
  (passed ++ found.1, found.2)

theorem map_prepend (front back : List Char) (found : Option (List Char × List Char)) :
    (found.map (prepend back)).map (prepend front) = found.map (prepend (front ++ back)) := by
  cases found <;> simp [prepend]

theorem map_prepend_nil (found : Option (List Char × List Char)) :
    found.map (prepend []) = found := by
  cases found <;> rfl

namespace Quoted

/-- A character that neither closes a literal nor starts an escape is passed. -/
theorem content?_cons {c : Char} (hc : c ≠ '"' ∧ c ≠ '\\' ∧ c ≠ '\n') (rest : List Char) :
    content? (c :: rest) = (content? rest).map (prepend [c]) := by
  rw [content?]
  · rw [if_neg hc.2.2]
    rfl
  · exact hc.1
  · rintro _ _ rfl
    exact absurd rfl hc.2.1

/-- A `\\` is passed together with the character behind it. -/
theorem content?_escape {c : Char} (hc : c ≠ '\n') (rest : List Char) :
    content? ('\\' :: c :: rest) = (content? rest).map (prepend ['\\', c]) := by
  rw [content?, if_neg hc]
  rfl

theorem content?_digits {digits : List Char} (h : ∀ c ∈ digits, c.isDigit) (rest : List Char) :
    content? (digits ++ rest) = (content? rest).map (prepend digits) := by
  have hpassed : ∀ c : Char, c.isDigit → c ≠ '"' ∧ c ≠ '\\' ∧ c ≠ '\n' := by
    intro c hc
    refine ⟨?_, ?_, ?_⟩ <;>
      · rintro rfl
        cases hc
  induction digits with
  | nil => exact (map_prepend_nil _).symm
  | cons c more ih =>
    rw [List.cons_append, content?_cons (hpassed c (h c List.mem_cons_self)),
      ih fun d hd => h d (List.mem_cons_of_mem _ hd), map_prepend]
    rfl

/-- The written form of a character is passed as a whole. -/
theorem content?_encodeChar (c : Char) (rest : List Char) :
    content? (encodeChar c ++ rest) = (content? rest).map (prepend (encodeChar c)) := by
  unfold encodeChar
  split
  · exact content?_escape (by decide) rest
  · exact content?_escape (by decide) rest
  · exact content?_escape (by decide) rest
  · exact content?_escape (by decide) rest
  · exact content?_escape (by decide) rest
  · next hreturn hline htab hquote hslash =>
    split
    · exact content?_cons ⟨hquote, hslash, hline⟩ rest
    · have hdigits : ∀ x ∈ fourDigits c.toNat, x.isDigit := fun x hx => isDigit_of_mem_padded hx
      rw [List.cons_append, List.cons_append, content?_escape (by decide), content?_digits hdigits,
        map_prepend]
      rfl

theorem content?_flatMap_encodeChar (value rest : List Char) :
    content? (value.flatMap encodeChar ++ '"' :: rest) = some (value.flatMap encodeChar, rest) := by
  induction value with
  | nil => rfl
  | cons c more ih =>
    rw [List.flatMap_cons, List.append_assoc, content?_encodeChar, ih]
    rfl

theorem head_encodeChar (c : Char) : ∃ d rest, encodeChar c = d :: rest ∧ d ≠ '"' := by
  unfold encodeChar
  split
  · exact ⟨_, _, rfl, by decide⟩
  · exact ⟨_, _, rfl, by decide⟩
  · exact ⟨_, _, rfl, by decide⟩
  · exact ⟨_, _, rfl, by decide⟩
  · exact ⟨_, _, rfl, by decide⟩
  · next hquote _ =>
    split
    · exact ⟨_, _, rfl, hquote⟩
    · exact ⟨_, _, rfl, by decide⟩

end Quoted

/-- The word that a string is written as between single marks. -/
def quotedWord (value : List Char) : Word :=
  (Quoted.decode (value.flatMap Quoted.encodeChar)).map fun read => .string (String.ofList read)

theorem Lexes.quoted (value : List Char) : Lexes (Quoted.encode value) (quotedWord value) := by
  refine ⟨⟨'"', rfl, by decide⟩, ?_⟩
  intro after hafter
  have htext : Quoted.encode value ++ after =
      '"' :: (value.flatMap Quoted.encodeChar ++ '"' :: after) := by
    simp [Quoted.encode]
  -- A mark directly behind the first one closes the literal, so no third one follows it.
  have hsingle : ∀ rest, value.flatMap Quoted.encodeChar ++ '"' :: after ≠ '"' :: '"' :: rest := by
    intro rest heq
    cases value with
    | nil =>
      obtain ⟨-, hmark⟩ := List.cons.inj heq
      exact (endsToken_eq_true (hafter '"' (by rw [hmark]; rfl))).2.2 rfl
    | cons c more =>
      obtain ⟨d, tail, hc, hd⟩ := Quoted.head_encodeChar c
      rw [List.flatMap_cons, hc] at heq
      exact hd (List.cons.inj heq).1
  rw [htext, Token.scan, Token.scanText?.eq_2 _ hsingle, Quoted.content?_flatMap_encodeChar]
  unfold quotedWord
  cases hdecode : Quoted.decode (value.flatMap Quoted.encodeChar) <;> simp [hdecode, Quoted.encode]

namespace Block

theorem content?_cons {escaped : Bool} {c : Char} {rest : List Char}
    (h : ∀ more, c :: rest ≠ '"' :: '"' :: '"' :: more) :
    content? escaped (c :: rest) = (content? (c = '\\') rest).map (prepend [c]) := by
  rw [content?]
  · rfl
  · rintro more rfl rfl
    exact h more rfl

/-- Blanks and line feeds are passed. -/
theorem content?_layout {escaped : Bool} {layout : List Char} (hne : layout ≠ [])
    (hlayout : ∀ c ∈ layout, c = ' ' ∨ c = '\n') (rest : List Char) :
    content? escaped (layout ++ rest) = (content? false rest).map (prepend layout) := by
  induction layout generalizing escaped with
  | nil => exact absurd rfl hne
  | cons c more ih =>
    have hc : c ≠ '"' ∧ c ≠ '\\' := by
      rcases hlayout c List.mem_cons_self with rfl | rfl <;> decide
    rw [List.cons_append, content?_cons fun _ heq => hc.1 (List.cons.inj heq).1,
      decide_eq_false hc.2]
    rcases more with - | ⟨d, more⟩
    · rfl
    · rw [ih (List.cons_ne_nil _ _) fun x hx => hlayout x (List.mem_cons_of_mem _ hx),
        map_prepend]
      rfl

/-- A mark at the front of an escaped line is the first character of the line. -/
theorem of_escape_eq {line rest more : List Char}
    (h : escape line ++ '\n' :: rest = '"' :: more) :
    ∃ tail, line = '"' :: tail ∧ escape tail ++ '\n' :: rest = more ∧
      ∀ last, line ≠ '"' :: '"' :: '"' :: last := by
  revert h
  fun_cases escape line with
  | case1 last => exact fun h => absurd (List.cons.inj h).1 (by decide)
  | case2 c tail hsingle =>
    intro h
    obtain ⟨rfl, hmore⟩ := List.cons.inj h
    refine ⟨tail, rfl, hmore, ?_⟩
    intro last hlast
    exact hsingle last rfl (List.cons.inj hlast).2
  | case3 => exact fun h => absurd (List.cons.inj h).1 (by decide)

/-- An escaped line does not start with a closing mark. -/
theorem escape_ne (line rest more : List Char) :
    escape line ++ '\n' :: rest ≠ '"' :: '"' :: '"' :: more := by
  intro h
  obtain ⟨line₁, rfl, h₁, hsingle⟩ := of_escape_eq h
  obtain ⟨line₂, rfl, h₂, -⟩ := of_escape_eq h₁
  obtain ⟨line₃, rfl, -, -⟩ := of_escape_eq h₂
  exact hsingle line₃ rfl

/-- A line is passed: it holds no closing mark that is not escaped. -/
theorem content?_escape (line rest : List Char) (escaped : Bool) :
    content? escaped (escape line ++ '\n' :: rest) =
      (content? false rest).map (prepend (escape line ++ ['\n'])) := by
  have hne := escape_ne line rest
  revert hne
  induction line using escape.induct generalizing escaped with
  | case1 more ih =>
    intro _
    have hmark : ∀ text, content? true ('"' :: '"' :: '"' :: text) =
        (content? false text).map (prepend ['"', '"', '"']) := fun text => by
      rw [content?, if_pos rfl]
      rfl
    rw [escape, List.cons_append, content?_cons (by simp), decide_eq_true rfl]
    rw [List.cons_append, List.cons_append, List.cons_append, hmark, ih _ (escape_ne more rest),
      map_prepend, map_prepend]
    rfl
  | case2 c more hmore ih =>
    intro hne
    rw [escape] at hne ⊢
    · rw [List.cons_append] at hne ⊢
      rw [content?_cons hne, ih _ (escape_ne more rest), map_prepend]
      rfl
    · exact hmore
    · exact hmore
  | case3 =>
    intro hne
    exact content?_cons hne

end Block

/-- What a block holds between its marks. -/
def blockContent (column : Nat) (value : List Char) : List Char :=
  '\n' :: (lines value).flatMap (Block.encodeLine column) ++ List.replicate column ' '

theorem Block.content?_encode (column : Nat) (value rest : List Char) :
    content? false (blockContent column value ++ '"' :: '"' :: '"' :: rest) =
      some (blockContent column value, rest) := by
  have hlines : ∀ (pieces : List (List Char)) (rest : List Char),
      content? false (pieces.flatMap (encodeLine column) ++ rest) =
        (content? false rest).map (prepend (pieces.flatMap (encodeLine column))) := by
    intro pieces rest
    induction pieces with
    | nil => exact (map_prepend_nil _).symm
    | cons line more ih =>
      have hline : ∀ text, content? false (encodeLine column line ++ text) =
          (content? false text).map (prepend (encodeLine column line)) := by
        intro text
        unfold encodeLine
        split
        · exact content?_layout (List.cons_ne_nil _ _) (List.forall_mem_singleton.mpr (.inr rfl)) text
        · rw [List.append_assoc, List.append_assoc, List.singleton_append,
            content?_layout (by simp) (by simp), content?_escape, map_prepend, ← List.append_assoc]
      rw [List.flatMap_cons, List.append_assoc, hline, ih, map_prepend]
  have hclose : content? false (List.replicate column ' ' ++ '"' :: '"' :: '"' :: rest) =
      some (List.replicate column ' ', rest) := by
    rcases column with - | column
    · rw [List.replicate_zero, List.nil_append, content?, if_neg Bool.false_ne_true]
    · rw [content?_layout (by simp) (by simp), content?, if_neg Bool.false_ne_true]
      simp [prepend]
  rw [blockContent, List.append_assoc, List.cons_append, content?_cons (by simp),
    decide_eq_false (by decide), hlines, hclose]
  rfl

theorem Lexes.block (column : Nat) (value : List Char) :
    Lexes (Block.encode column value) (some (.block (blockContent column value))) := by
  refine ⟨⟨'"', rfl, by decide⟩, ?_⟩
  intro after _
  have htext : Block.encode column value ++ after =
      '"' :: '"' :: '"' :: (blockContent column value ++ '"' :: '"' :: '"' :: after) := by
    simp [Block.encode, blockContent]
  rw [htext, Token.scan, Token.scanText?, Block.content?_encode]
  simp [Block.encode, blockContent]

/-- The word that a string is written as. -/
def textWord (column : Nat) (text : String) : Word :=
  if Block.isBlock text.toList then some (.block (blockContent column text.toList))
  else quotedWord text.toList

theorem Lexes.text (column : Nat) (text : String) :
    Lexes (renderText column text).toList (textWord column text) := by
  rw [renderText, String.toList_ofList, textWord]
  split
  · exact .block column text.toList
  · exact .quoted text.toList

end SchemaAlgebra
