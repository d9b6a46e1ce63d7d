import SchemaAlgebra.Proofs.RereadDefinitions

/-!
# Texts that are read back

A string is written between single marks or as a block, and either way it may come back as another
one.  Between single marks a character is lost if it is written as `\u` with decimal digits, which are
read as hexadecimal ones; only the digits of a number below ten mean the same in both.  A block loses
blank lines at its ends, what its lines have in common at their front, and what stands on blank lines;
and a carriage return at the end of a line is taken for a part of the line's end.

The column at which a string is written makes no difference.

## Main statements

* `Quoted.decode_encode_iff`: the strings that are read back from between single marks.
* `Block.decode_blockContent`: what a block is read back as.
* `Block.decode_blockContent_iff`: the strings that are read back from blocks.
* `rereadText_eq_self_iff`: the strings that are read back.
-/

namespace SchemaAlgebra

/-! ## Between single marks -/

namespace Quoted

/-- A character that comes back when it is written between single marks. -/
def keeps (c : Char) : Bool :=
  c = '\n' || c = '\r' || c = '\t' || c.toNat < 10 || isPlain c

/-- A short escape is read as its character. -/
theorem decode_short {mark c : Char} (hmark : shortEscape? mark = some c) (hu : mark ≠ 'u')
    (rest : List Char) : decode ('\\' :: mark :: rest) = (decode rest).map (c :: ·) := by
  rw [decode.eq_3]
  · rw [hmark]
    cases decode rest <;> rfl
  · rintro _ _ _ _ _ rfl
    exact absurd rfl hu

/-- Digits behind `\u` are read as one character, by the first four of them. -/
theorem decode_digits {digits : List Char} (hlength : 4 ≤ digits.length) {code : Nat}
    (hcode : hexNumber? (digits.take 4) = some code) (hvalid : code.isValidChar)
    (hfirst : digits.head? ≠ some '+') (rest : List Char) :
    decode ('\\' :: 'u' :: digits ++ rest) =
      (decode (digits.drop 4 ++ rest)).map (Char.ofNat code :: ·) := by
  match digits, hlength with
  | a :: b :: c :: d :: more, _ =>
    have hunicode : unicode? [a, b, c, d] = some (Char.ofNat code) := by
      have hcode : hexNumber? [a, b, c, d] = some code := hcode
      rw [unicode?]
      · simp [hcode, scalar?, hvalid]
      · rintro _ ⟨⟩
        exact hfirst rfl
    show decode ('\\' :: 'u' :: a :: b :: c :: d :: (more ++ rest)) = _
    rw [decode, hunicode]
    show _ = (decode (more ++ rest)).map _
    cases decode (more ++ rest) <;> rfl

/-- The digits of a number below a hundred, read as hexadecimal ones. -/
theorem hexNumber?_fourDigits : ∀ n < 32, (fourDigits n).length = 4 ∧
    (fourDigits n).head? = some '0' ∧ hexNumber? (fourDigits n) = some (n + 6 * (n / 10)) := by
  decide +kernel

theorem hexDigit?_of_isDigit {c : Char} (h : c.isDigit) : ∃ n ≤ 9, hexDigit? c = some n := by
  have hall : decimalDigits.all fun d => (hexDigit? d).any (· ≤ 9) := by decide
  obtain ⟨n, hn, hsmall⟩ :=
    (Option.any_eq_true _ _).mp (List.all_eq_true.mp hall c (mem_decimalDigits h))
  exact ⟨n, of_decide_eq_true hsmall, hn⟩

/-- Four decimal digits are a hexadecimal number of no more than sixteen bits. -/
theorem hexNumber?_of_isDigit {digits : List Char} (hlength : digits.length = 4)
    (h : ∀ c ∈ digits, c.isDigit) : ∃ code ≤ 0x9999, hexNumber? digits = some code := by
  match digits, hlength with
  | [a, b, c, d], _ =>
    simp only [List.mem_cons, List.not_mem_nil, or_false, forall_eq_or_imp, forall_eq] at h
    obtain ⟨ha, hb, hc, hd⟩ := h
    obtain ⟨i, hi, hia⟩ := hexDigit?_of_isDigit ha
    obtain ⟨j, hj, hjb⟩ := hexDigit?_of_isDigit hb
    obtain ⟨k, hk, hkc⟩ := hexDigit?_of_isDigit hc
    obtain ⟨l, hl, hld⟩ := hexDigit?_of_isDigit hd
    refine ⟨((i * 16 + j) * 16 + k) * 16 + l, by omega, ?_⟩
    simp [hexNumber?, hia, hjb, hkc, hld]

/-- The written form of a character that is kept is read as this character. -/
theorem decode_encodeChar {c : Char} (h : keeps c) (rest : List Char) :
    decode (encodeChar c ++ rest) = (decode rest).map (c :: ·) := by
  unfold encodeChar
  -- Five characters have short escapes, most stand for themselves, and the others are written in decimal.
  split
  · exact decode_short rfl (by decide) rest
  · exact decode_short rfl (by decide) rest
  · exact decode_short rfl (by decide) rest
  · exact decode_short rfl (by decide) rest
  · exact decode_short rfl (by decide) rest
  · next hreturn hline htab hquote hslash =>
    split
    · show decode (c :: rest) = _
      rw [decode]
      · rintro _ _ _ _ _ rfl
        exact absurd rfl hslash
      · rintro _ _ rfl
        exact absurd rfl hslash
      · rintro rfl
        exact absurd rfl hslash
    · next hplain =>
      have hsmall : c.toNat < 10 := by
        simp only [keeps, Bool.or_eq_true, decide_eq_true_eq] at h
        rcases h with (((h | h) | h) | h) | h
        · exact absurd h hline
        · exact absurd h hreturn
        · exact absurd h htab
        · exact h
        · exact absurd h hplain
      obtain ⟨hlength, hhead, hcode⟩ := hexNumber?_fourDigits c.toNat (by omega)
      have hread : decode ('\\' :: 'u' :: fourDigits c.toNat ++ rest) =
          (decode ((fourDigits c.toNat).drop 4 ++ rest)).map
            (Char.ofNat (c.toNat + 6 * (c.toNat / 10)) :: ·) :=
        decode_digits (Nat.le_of_eq hlength.symm)
          (by rwa [List.take_of_length_le (Nat.le_of_eq hlength)])
          (.inl (by omega)) (by rw [hhead]; decide) rest
      rw [hread, List.drop_of_length_le (Nat.le_of_eq hlength), Nat.div_eq_of_lt hsmall]
      simp

/-- The written form of any other character is read as another one, if at all. -/
theorem head?_of_decode_encodeChar {c : Char} (h : keeps c = false) {rest read : List Char}
    (hread : decode (encodeChar c ++ rest) = some read) : read.head? ≠ some c := by
  simp only [keeps, Bool.or_eq_false_iff, decide_eq_false_iff_not] at h
  obtain ⟨⟨⟨⟨hline, hreturn⟩, htab⟩, hlarge⟩, hplain⟩ := h
  have hother : ∀ d, isPlain d = true → c ≠ d := by
    rintro d hd rfl
    rw [hplain] at hd
    cases hd
  have hencode : encodeChar c = '\\' :: 'u' :: fourDigits c.toNat := by
    unfold encodeChar
    split
    · exact absurd rfl hreturn
    · exact absurd rfl hline
    · exact absurd rfl htab
    · exact absurd rfl (hother '"' (by decide))
    · exact absurd rfl (hother '\\' (by decide))
    · simp [hplain]
  have hfirst : (fourDigits c.toNat).head? ≠ some '+' := by
    intro hplus
    have hdigit := isDigit_of_mem_padded (List.mem_of_head? hplus)
    cases hdigit
  have hlength : 4 ≤ (fourDigits c.toNat).length := by
    simp only [fourDigits, List.length_append, List.length_replicate]
    omega
  -- The digits are read as the number of another character.
  obtain ⟨code, hcode, hvalid, hne⟩ : ∃ code, hexNumber? ((fourDigits c.toNat).take 4) = some code ∧
      code.isValidChar ∧ code ≠ c.toNat := by
    by_cases hsmall : c.toNat < 32
    · obtain ⟨hfour, -, hcode⟩ := hexNumber?_fourDigits c.toNat hsmall
      exact ⟨_, by rwa [List.take_of_length_le (Nat.le_of_eq hfour)], .inl (by omega), by omega⟩
    · have hbig : 0xFFFF < c.toNat := by
        simp only [isPlain, Bool.and_eq_false_iff, decide_eq_false_iff_not] at hplain
        omega
      obtain ⟨code, hle, hcode⟩ := hexNumber?_of_isDigit (List.length_take_of_le hlength)
        fun d hd => isDigit_of_mem_padded (List.mem_of_mem_take hd)
      exact ⟨code, hcode, .inl (by omega), by omega⟩
  rw [hencode, decode_digits hlength hcode hvalid hfirst] at hread
  obtain ⟨tail, -, rfl⟩ := Option.map_eq_some_iff.mp hread
  rw [List.head?_cons, ne_eq, Option.some.injEq]
  intro heq
  apply hne
  rw [← heq, Char.ofNat, dif_pos hvalid]
  rfl

/-- A string comes back from between single marks exactly if each of its characters does. -/
theorem decode_encode_iff {value : List Char} :
    decode (value.flatMap encodeChar) = some value ↔ ∀ c ∈ value, keeps c := by
  induction value with
  | nil => simp [decode]
  | cons c rest ih =>
    rw [List.flatMap_cons, List.forall_mem_cons]
    by_cases hc : keeps c
    · rw [decode_encodeChar hc, ← ih, Option.map_eq_some_iff]
      simp [hc]
    · have hnot : keeps c = false := by simpa using hc
      refine iff_of_false (fun hread => ?_) fun h => hc h.1
      exact head?_of_decode_encodeChar hnot hread rfl

end Quoted

/-! ## Lines -/

/-- The pieces of a text between its line feeds. -/
def pieces (text : List Char) : List (List Char) := text.splitOn '\n'

/-- A piece without a carriage return at its end. -/
def chop (piece : List Char) : List Char :=
  if piece.getLast? = some '\r' then piece.dropLast else piece

/-- The lines that the pieces of a text are.  The last piece is a line only if there is something in
it, and it ends with no line feed. -/
def endLines : List (List Char) → List (List Char)
  | [] => []
  | [last] => if last = [] then [] else [last]
  | piece :: rest => chop piece :: endLines rest

theorem endLines_cons {piece : List Char} {rest : List (List Char)} (h : rest ≠ []) :
    endLines (piece :: rest) = chop piece :: endLines rest := by
  cases rest with
  | nil => exact absurd rfl h
  | cons second more => rfl

theorem pieces_ne_nil (text : List Char) : pieces text ≠ [] := List.splitOn_ne_nil _ _

theorem pieces_newline (text : List Char) : pieces ('\n' :: text) = [] :: pieces text := by
  simp [pieces, List.splitOn_cons_eq_if_modifyHead]

theorem pieces_cons {c : Char} (h : c ≠ '\n') (text : List Char) :
    pieces (c :: text) = (pieces text).modifyHead (c :: ·) := by
  simp [pieces, List.splitOn_cons_eq_if_modifyHead, h]

theorem chop_cons (c : Char) {piece : List Char} (h : piece ≠ []) :
    chop (c :: piece) = c :: chop piece := by
  simp only [chop, List.getLast?_cons_of_ne_nil h, List.dropLast_cons_of_ne_nil h]
  split <;> rfl

/-- A text whose first piece is empty, and not the only one, starts with a line feed. -/
theorem exists_of_pieces_eq {text : List Char} {rest : List (List Char)} (h : pieces text = [] :: rest)
    (hne : rest ≠ []) : ∃ tail, text = '\n' :: tail := by
  cases text with
  | nil =>
    cases h
    exact absurd rfl hne
  | cons c tail =>
    by_cases hc : c = '\n'
    · exact ⟨tail, by rw [hc]⟩
    · obtain ⟨first, more, hmore⟩ := List.exists_cons_of_ne_nil (pieces_ne_nil tail)
      rw [pieces_cons hc, hmore] at h
      cases h

/-- A character that ends no line goes on with the first line. -/
theorem endLines_pieces_cons {c : Char} {rest : List Char} (hline : c ≠ '\n')
    (hreturn : ∀ tail, c = '\r' → rest ≠ '\n' :: tail) :
    endLines (pieces (c :: rest)) = match endLines (pieces rest) with
      | [] => [[c]]
      | line :: more => (c :: line) :: more := by
  obtain ⟨first, more, hpieces⟩ := List.exists_cons_of_ne_nil (pieces_ne_nil rest)
  rw [pieces_cons hline, hpieces, List.modifyHead_cons]
  by_cases hmore : more = []
  · subst hmore
    by_cases hfirst : first = [] <;> simp [endLines, hfirst]
  · rw [endLines_cons hmore, endLines_cons hmore]
    by_cases hfirst : first = []
    · -- A line feed follows directly, so the character is no carriage return.
      subst hfirst
      obtain ⟨tail, htail⟩ := exists_of_pieces_eq hpieces hmore
      have hc : c ≠ '\r' := fun hc => hreturn tail hc htail
      simp [chop, hc]
    · rw [chop_cons c hfirst]

/-- The lines of a text are its pieces, without the carriage returns in front of line feeds. -/
theorem lines_eq (text : List Char) : lines text = endLines (pieces text) := by
  fun_induction lines text with
  | case1 => rfl
  | case2 rest ih =>
    rw [pieces_cons (by decide), pieces_newline, List.modifyHead_cons,
      endLines_cons (pieces_ne_nil _), ih]
    rfl
  | case3 rest ih =>
    rw [pieces_newline, endLines_cons (pieces_ne_nil _), ih]
    rfl
  | case4 c rest hreturn hline hlines ih =>
    rw [endLines_pieces_cons hline hreturn, ← ih, hlines]
  | case5 c rest hreturn hline first more hlines ih =>
    rw [endLines_pieces_cons hline hreturn, ← ih, hlines]

/-- A line of a text holds no line feed. -/
theorem newline_notMem_of_mem_pieces {text piece : List Char} (h : piece ∈ pieces text) :
    '\n' ∉ piece := by
  induction text generalizing piece with
  | nil =>
    cases List.mem_singleton.mp h
    exact List.not_mem_nil
  | cons c rest ih =>
    by_cases hc : c = '\n'
    · subst hc
      rw [pieces_newline] at h
      rcases List.mem_cons.mp h with rfl | hrest
      · exact List.not_mem_nil
      · exact ih hrest
    · obtain ⟨first, more, hmore⟩ := List.exists_cons_of_ne_nil (pieces_ne_nil rest)
      rw [hmore] at ih
      rw [pieces_cons hc, hmore, List.modifyHead_cons] at h
      rcases List.mem_cons.mp h with rfl | hlater
      · exact fun hmem => (List.mem_cons.mp hmem).elim (hc ·.symm) (ih List.mem_cons_self)
      · exact ih (List.mem_cons_of_mem _ hlater)

theorem length_chop_le (piece : List Char) : (chop piece).length ≤ piece.length := by
  unfold chop
  split
  · simp
  · exact Nat.le_refl _

/-- A piece that keeps its length has no carriage return at its end. -/
theorem getLast?_ne_of_length_chop {piece : List Char} (h : piece.length ≤ (chop piece).length) :
    piece.getLast? ≠ some '\r' := by
  intro hlast
  obtain ⟨front, rfl⟩ := List.getLast?_eq_some_iff.mp hlast
  rw [chop, if_pos hlast, List.dropLast_concat, List.length_append] at h
  exact absurd h (Nat.not_succ_le_self _)

theorem chop_of_getLast?_ne {piece : List Char} (h : piece.getLast? ≠ some '\r') : chop piece = piece :=
  if_neg h

theorem mem_of_mem_chop {piece : List Char} {c : Char} (h : c ∈ chop piece) : c ∈ piece := by
  unfold chop at h
  split at h
  · exact (List.dropLast_subset _) h
  · exact h

theorem newline_notMem_of_mem_lines {text line : List Char} (h : line ∈ lines text) : '\n' ∉ line := by
  have hall : ∀ given : List (List Char), (∀ piece ∈ given, '\n' ∉ piece) →
      ∀ line ∈ endLines given, '\n' ∉ line := by
    intro given hgiven
    fun_induction endLines given with
    | case1 => exact List.forall_mem_nil _
    | case2 => exact List.forall_mem_nil _
    | case3 last => exact hgiven
    | case4 piece rest hrest ih =>
      obtain ⟨hpiece, hmore⟩ := List.forall_mem_cons.mp hgiven
      exact List.forall_mem_cons.mpr ⟨fun hmem => hpiece (mem_of_mem_chop hmem), ih hmore⟩
  rw [lines_eq] at h
  exact hall _ (fun _ => newline_notMem_of_mem_pieces) line h

theorem allBlank_chop (piece : List Char) : allBlank (chop piece) = allBlank piece := by
  unfold chop
  split
  · next hlast =>
    obtain ⟨front, rfl⟩ := List.getLast?_eq_some_iff.mp hlast
    have hreturn : isBlank '\r' := by decide
    simp [allBlank, hreturn]
  · rfl

/-! ## Blocks -/

namespace Block

/-- A line as it is written in a block, without the line feed at its end. -/
def encoded (column : Nat) (line : List Char) : List Char :=
  if allBlank line then [] else List.replicate (column + 2) ' ' ++ escape line

theorem encodeLine_eq (column : Nat) (line : List Char) :
    encodeLine column line = encoded column line ++ ['\n'] := by
  unfold encodeLine encoded
  split <;> simp

theorem unescape_escape (line : List Char) : unescape (escape line) = line := by
  induction line using escape.induct with
  | case1 rest ih => rw [escape, unescape, ih]
  | case2 c rest hmark ih =>
    rw [escape, unescape, ih]
    · -- A mark in the line that is left has its own `\`, so this one does not belong to a mark.
      intro more _ hrest
      apply escape_ne rest [] (more ++ ['\n'])
      rw [hrest]
      rfl
    · exact hmark
  | case3 => rfl

theorem allBlank_escape (line : List Char) : allBlank (escape line) = allBlank line := by
  have hquote : isBlank '"' = false := by decide
  have hslash : isBlank '\\' = false := by decide
  unfold allBlank
  induction line using escape.induct with
  | case1 rest ih => simp [escape, hquote, hslash]
  | case2 c rest hmark ih =>
    rw [escape, List.all_cons, List.all_cons, ih]
    exact hmark
  | case3 => rfl

theorem takeWhile_isBlank_escape (line : List Char) :
    (escape line).takeWhile isBlank = line.takeWhile isBlank := by
  have hquote : isBlank '"' = false := by decide
  have hslash : isBlank '\\' = false := by decide
  induction line using escape.induct with
  | case1 rest ih => simp [escape, hquote, hslash]
  | case2 c rest hmark ih =>
    rw [escape, List.takeWhile_cons, List.takeWhile_cons, ih]
    exact hmark
  | case3 => rfl

theorem getLast?_escape (line : List Char) : (escape line).getLast? = line.getLast? := by
  induction line using escape.induct with
  | case1 rest ih =>
    simp [escape, List.getLast?_cons, ih]
  | case2 c rest hmark ih =>
    rw [escape, List.getLast?_cons, List.getLast?_cons, ih]
    exact hmark
  | case3 => rfl

theorem escape_append_return (line : List Char) : escape (line ++ ['\r']) = escape line ++ ['\r'] := by
  induction line using escape.induct with
  | case1 rest ih => simp [escape, ih]
  | case2 c rest hmark ih =>
    have hmark' : ∀ more, c = '"' → rest ++ ['\r'] = '"' :: '"' :: more → False := by
      rintro more rfl hrest
      cases rest with
      | nil => cases hrest
      | cons d others =>
        cases others with
        | nil => cases hrest
        | cons e others =>
          cases hrest
          exact hmark others rfl rfl
    rw [List.cons_append, escape, escape, ih]
    · rfl
    · exact hmark
    · exact hmark'
  | case3 => rfl

theorem chop_escape (line : List Char) : chop (escape line) = escape (chop line) := by
  unfold chop
  rw [getLast?_escape]
  split
  · next hlast =>
    obtain ⟨front, rfl⟩ := List.getLast?_eq_some_iff.mp hlast
    rw [escape_append_return, List.dropLast_concat, List.dropLast_concat]
  · rfl

/-- A carriage return at the end of a line is at the end of the written line. -/
theorem chop_encoded (column : Nat) (line : List Char) :
    chop (encoded column line) = encoded column (chop line) := by
  unfold encoded
  rw [allBlank_chop]
  split
  · rfl
  · next hvisible =>
    obtain ⟨c, rest, hescape⟩ : ∃ c rest, escape line = c :: rest := by
      cases hline : escape line with
      | nil =>
        rw [← allBlank_escape, hline] at hvisible
        exact absurd rfl hvisible
      | cons c rest => exact ⟨c, rest, rfl⟩
    have hblanks : ∀ count, chop (List.replicate count ' ' ++ escape line) =
        List.replicate count ' ' ++ chop (escape line) := by
      intro count
      induction count with
      | zero => rfl
      | succ count ih =>
        rw [List.replicate_succ, List.cons_append, chop_cons _ (by simp [hescape]), ih]
        rfl
    rw [hblanks, chop_escape]

theorem newline_notMem_encoded {column : Nat} {line : List Char} (h : '\n' ∉ line) :
    '\n' ∉ encoded column line := by
  have hescape : '\n' ∉ escape line := by
    induction line using escape.induct with
    | case1 rest ih => simpa [escape] using ih (by simpa using h)
    | case2 c rest hmark ih =>
      rw [escape]
      · simp only [List.mem_cons, not_or] at h ⊢
        exact ⟨h.1, ih h.2⟩
      · exact hmark
    | case3 => exact h
  unfold encoded
  split
  · exact List.not_mem_nil
  · simp [hescape]

/-- The lines of a block: an empty one behind the opening mark, the lines of the value, and the blanks
in front of the closing mark. -/
theorem lines_blockContent (column : Nat) (value : List Char) :
    ∃ layout, (∀ line ∈ layout, allBlank line) ∧
      lines (blockContent column value) =
        [] :: (((lines value).map chop).map (encoded column) ++ layout) := by
  -- Written lines with a line feed behind each are cut apart where they were put together.
  have hpieces : ∀ (written : List (List Char)) (last : List Char), (∀ line ∈ written, '\n' ∉ line) →
      '\n' ∉ last →
      pieces (written.flatMap (· ++ ['\n']) ++ last) = written ++ [last] := by
    intro written last hwritten hlast
    induction written with
    | nil => exact List.splitOn_eq_singleton hlast
    | cons line rest ih =>
      obtain ⟨hline, hrest⟩ := List.forall_mem_cons.mp hwritten
      rw [List.cons_append, ← ih hrest, List.flatMap_cons, List.append_assoc, List.append_assoc]
      exact List.splitOn_append_cons_self_of_not_mem hline _
  have hends : ∀ (written : List (List Char)) (last : List Char),
      endLines (written ++ [last]) = written.map chop ++ if last = [] then [] else [last] := by
    intro written last
    induction written with
    | nil => rfl
    | cons line rest ih => rw [List.cons_append, endLines_cons (by simp), ih]; rfl
  have hclean : ∀ line ∈ (lines value).map (encoded column), '\n' ∉ line := by
    intro line hmem
    obtain ⟨given, hgiven, rfl⟩ := List.mem_map.mp hmem
    exact newline_notMem_encoded (newline_notMem_of_mem_lines hgiven)
  have hcontent : blockContent column value =
      '\n' :: (((lines value).map (encoded column)).flatMap (· ++ ['\n']) ++
        List.replicate column ' ') := by
    simp [blockContent, List.flatMap_map, funext (encodeLine_eq column)]
  refine ⟨if List.replicate column ' ' = [] then [] else [List.replicate column ' '], ?_, ?_⟩
  · have hblank : isBlank ' ' := by decide
    split <;> simp [allBlank, hblank]
  · have hchop : ((lines value).map (encoded column)).map chop =
        ((lines value).map chop).map (encoded column) := by
      simp [List.map_map, Function.comp_def, chop_encoded]
    rw [lines_eq, hcontent, pieces_newline, hpieces _ _ hclean (by simp), endLines_cons (by simp), hends,
      hchop]
    rfl

/-- Lines without the blank ones at both ends. -/
def trim (given : List (List Char)) : List (List Char) :=
  ((given.dropWhile allBlank).reverse.dropWhile allBlank).reverse

theorem trim_append {layout : List (List Char)} (h : ∀ line ∈ layout, allBlank line)
    (given : List (List Char)) : trim (given ++ layout) = trim given := by
  unfold trim
  rw [List.dropWhile_append]
  split
  · next hnone =>
    have hlayout : layout.dropWhile allBlank = [] := by
      rw [← List.append_nil layout, List.dropWhile_append_of_pos h]
      rfl
    rw [hlayout, List.isEmpty_iff.mp hnone]
  · rw [List.reverse_append,
      List.dropWhile_append_of_pos fun line hmem => h line (List.mem_reverse.mp hmem)]

theorem trim_map {f : List Char → List Char} (h : ∀ line, allBlank (f line) = allBlank line)
    (given : List (List Char)) : trim (given.map f) = (trim given).map f := by
  have hdrop : ∀ given : List (List Char),
      (given.map f).dropWhile allBlank = (given.dropWhile allBlank).map f := by
    intro given
    rw [List.dropWhile_map]
    simp [Function.comp_def, h]
  simp only [trim, hdrop, ← List.map_reverse]

/-- Of a block whose first line is empty, the other lines make up the value. -/
theorem decode_of_lines {content : List Char} {rest : List (List Char)}
    (h : lines content = [] :: rest) :
    decode content = ((trim rest).mapM (dedent (commonIndent rest))).map
      fun kept => joinLines (kept.map unescape) := by
  have hdecode : decode content =
      ((trimBlankLines ((lines content).zipIdx.map
        fun entry : List Char × Nat => (entry.2 == 0, entry.1))).mapM
        fun marked : Bool × List Char => if marked.1 then some marked.2
          else dedent (commonIndent ((lines content).drop 1)) marked.2).bind
            fun kept => some (joinLines (kept.map unescape)) := rfl
  have hmarked : (([] :: rest).zipIdx.map
      fun entry : List Char × Nat => (entry.2 == 0, entry.1)) =
      (true, ([] : List Char)) :: rest.map (false, ·) := by
    rw [List.zipIdx_cons, List.map_cons]
    refine congrArg _ ?_
    apply List.ext_getElem
    · simp
    · intro index _ _
      simp
  have htrim : trimBlankLines ((true, []) :: rest.map (false, ·)) = (trim rest).map (false, ·) := by
    unfold trimBlankLines
    dsimp only
    rw [List.dropWhile_cons_of_pos rfl, List.dropWhile_map, ← List.map_reverse, List.dropWhile_map,
      ← List.map_reverse]
    rfl
  -- Behind the first line, every line loses the common indent.
  have hdedent : ((fun marked : Bool × List Char =>
      if marked.1 then some marked.2 else dedent (commonIndent rest) marked.2) ∘ (false, ·)) =
        dedent (commonIndent rest) := rfl
  rw [hdecode, h, hmarked, htrim, List.drop_one, List.tail_cons, List.mapM_map, hdedent]
  cases (trim rest).mapM (dedent (commonIndent rest)) <;> rfl

/-! ### The indent -/

theorem commonIndent_append {layout : List (List Char)} (h : ∀ line ∈ layout, allBlank line)
    (given : List (List Char)) : commonIndent (given ++ layout) = commonIndent given := by
  have hnone : layout.filter (!allBlank ·) = [] := by
    rw [List.filter_eq_nil_iff]
    exact fun line hmem => by simp [h line hmem]
  rw [commonIndent, List.filter_append, hnone, List.append_nil, commonIndent]

theorem allBlank_encoded (column : Nat) (line : List Char) :
    allBlank (encoded column line) = allBlank line := by
  have hblank : isBlank ' ' := by decide
  unfold encoded
  split
  · next h => rw [h]; rfl
  · have hescape := allBlank_escape line
    unfold allBlank at hescape
    simp [allBlank, hescape, hblank]

theorem byteLength_append (front back : List Char) :
    byteLength (front ++ back) = byteLength front + byteLength back := by
  induction front with
  | nil => simp [byteLength]
  | cons c rest ih => simp [byteLength, ih, Nat.add_assoc]

theorem byteLength_replicate_space (count : Nat) : byteLength (List.replicate count ' ') = count := by
  induction count with
  | zero => rfl
  | succ count ih =>
    rw [List.replicate_succ, byteLength, ih]
    exact Nat.add_comm 1 count

/-- A line that is not blank is indented by its place in addition to its own blanks. -/
theorem indent_encoded {line : List Char} (h : allBlank line = false) (column : Nat) :
    indent (encoded column line) = column + 2 + indent line := by
  have hblanks : ∀ c ∈ List.replicate (column + 2) ' ', isBlank c := by
    intro c hmem
    rw [(List.mem_replicate.mp hmem).2]
    decide
  rw [encoded, if_neg (by simp [h]), indent, List.takeWhile_append_of_pos hblanks,
    takeWhile_isBlank_escape, byteLength_append, byteLength_replicate_space, indent]

theorem min?_map_add (count : Nat) (given : List Nat) :
    (given.map (count + ·)).min? = given.min?.map (count + ·) := by
  cases given with
  | nil => rfl
  | cons first rest =>
    rw [List.map_cons, List.min?_cons', List.min?_cons', Option.map_some]
    refine congrArg some ?_
    induction rest generalizing first with
    | nil => rfl
    | cons second more ih =>
      rw [List.map_cons, List.foldl_cons, List.foldl_cons, ← ih, Nat.add_min_add_left]

/-- What the written lines have in common is the place of the block and what the lines have in
common. -/
theorem commonIndent_map_encoded (column : Nat) (given : List (List Char)) :
    commonIndent (given.map (encoded column)) = (commonIndent given).map (column + 2 + ·) := by
  have hfilter : (given.map (encoded column)).filter (!allBlank ·) =
      (given.filter (!allBlank ·)).map (encoded column) := by
    rw [List.filter_map]
    simp [Function.comp_def, allBlank_encoded]
  have hindent : ((given.filter (!allBlank ·)).map (encoded column)).map indent =
      ((given.filter (!allBlank ·)).map indent).map (column + 2 + ·) := by
    rw [List.map_map, List.map_map]
    refine List.map_congr_left fun line hmem => indent_encoded ?_ column
    simpa using (List.mem_filter.mp hmem).2
  rw [commonIndent, hfilter, hindent, min?_map_add, commonIndent]

/-! ### What is left of a line -/

/-- What is left of a line of a block when the block is read. -/
def strip (common : Option Nat) (line : List Char) : Option (List Char) :=
  if allBlank line then some [] else dropBytes (common.getD 0) line

/-- Dropping bytes leaves an end of the line. -/
theorem suffix_of_dropBytes {count : Nat} {line rest : List Char}
    (h : dropBytes count line = some rest) :
    rest <:+ line := by
  fun_induction dropBytes count line with
  | case1 =>
    cases h
    exact List.suffix_rfl
  | case2 =>
    cases h
    exact List.suffix_rfl
  | case3 count c line _ ih => exact (ih h).trans (List.suffix_cons c line)
  | case4 => cases h

/-- Something is dropped unless nothing is to be dropped. -/
theorem eq_zero_of_dropBytes {count : Nat} {line : List Char} (hne : line ≠ [])
    (h : dropBytes count line = some line) : count = 0 := by
  cases line with
  | nil => exact absurd rfl hne
  | cons c rest =>
    cases count with
    | zero => rfl
    | succ count =>
      rw [dropBytes] at h
      obtain ⟨-, hdrop⟩ := Option.ite_none_right_eq_some.mp h
      have hlength := (suffix_of_dropBytes hdrop).length_le
      rw [List.length_cons] at hlength
      omega

theorem dropBytes_append_of_le {count : Nat} {front : List Char} (h : count ≤ byteLength front)
    (back : List Char) : dropBytes count (front ++ back) = (dropBytes count front).map (· ++ back) := by
  induction front generalizing count with
  | nil =>
    cases Nat.le_zero.mp h
    simp [dropBytes]
  | cons c rest ih =>
    cases count with
    | zero => simp [dropBytes]
    | succ count =>
      rw [List.cons_append, dropBytes, dropBytes]
      split
      · have hsize : byteLength (c :: rest) = c.utf8Size + byteLength rest := rfl
        exact ih (by omega)
      · rfl

/-- The blanks that a line is moved in by are dropped first. -/
theorem dropBytes_replicate_append (place count : Nat) (text : List Char) :
    dropBytes (place + count) (List.replicate place ' ' ++ text) = dropBytes count text := by
  induction place with
  | zero => rw [Nat.zero_add, List.replicate_zero, List.nil_append]
  | succ place ih =>
    have hsize : ' '.utf8Size = 1 := rfl
    rw [Nat.add_right_comm, List.replicate_succ, List.cons_append, dropBytes, hsize,
      if_pos (Nat.le_add_left 1 _), Nat.add_sub_cancel, ih]

theorem escape_blanks_append {front : List Char} (h : ∀ c ∈ front, isBlank c) (back : List Char) :
    escape (front ++ back) = front ++ escape back := by
  induction front with
  | nil => rfl
  | cons c rest ih =>
    obtain ⟨hc, hrest⟩ := List.forall_mem_cons.mp h
    rw [List.cons_append, escape, ih hrest]
    · rfl
    · rintro _ rfl
      exact absurd hc (by decide)

/-- Blanks at the front of a line are dropped from its written form like from the line. -/
theorem dropBytes_escape {count : Nat} {line : List Char} (h : count ≤ indent line) :
    (dropBytes count (escape line)).map unescape = dropBytes count line := by
  obtain ⟨front, back, hline, hblanks, hindent⟩ : ∃ front back, line = front ++ back ∧
      (∀ c ∈ front, isBlank c) ∧ indent line = byteLength front :=
    ⟨line.takeWhile isBlank, line.dropWhile isBlank, List.takeWhile_append_dropWhile.symm,
      fun c hc => List.all_eq_true.mp List.all_takeWhile c hc, rfl⟩
  rw [hindent] at h
  rw [hline, escape_blanks_append hblanks, dropBytes_append_of_le h, dropBytes_append_of_le h]
  cases hdrop : dropBytes count front with
  | none => rfl
  | some rest =>
    have hrest : ∀ c ∈ rest, isBlank c :=
      fun c hc => hblanks c ((suffix_of_dropBytes hdrop).subset hc)
    rw [Option.map_some, Option.map_some, ← escape_blanks_append hrest, unescape_escape]
    rfl

theorem indent_le_byteLength (line : List Char) : indent line ≤ byteLength line := by
  have hsplit := byteLength_append (line.takeWhile isBlank) (line.dropWhile isBlank)
  rw [List.takeWhile_append_dropWhile] at hsplit
  rw [indent, hsplit]
  exact Nat.le_add_right _ _

/-- The common indent is no more than the indent of any line that is not blank. -/
theorem exists_commonIndent {given : List (List Char)} {line : List Char} (hmem : line ∈ given)
    (hvisible : allBlank line = false) : ∃ count ≤ indent line, commonIndent given = some count := by
  have hindent : indent line ∈ (given.filter (!allBlank ·)).map indent :=
    List.mem_map_of_mem (List.mem_filter.mpr ⟨hmem, by simp [hvisible]⟩)
  obtain ⟨count, hcount⟩ := Option.isSome_iff_exists.mp (List.isSome_min?_of_mem hindent)
  exact ⟨count, (List.min?_eq_some_iff.mp hcount).2 _ hindent, hcount⟩

/-- Of a written line, its place is dropped and as much of the line as its lines have in common. -/
theorem dedent_encoded {given : List (List Char)} {line : List Char} (hmem : line ∈ given)
    (column : Nat) :
    (dedent ((commonIndent given).map (column + 2 + ·)) (encoded column line)).map unescape =
      strip (commonIndent given) line := by
  unfold encoded strip
  split
  · -- Nothing is written of a blank line, so nothing is dropped.
    cases commonIndent given with
    | none => rfl
    | some count =>
      have hnothing : ¬column + 2 + count ≤ byteLength [] := by
        rw [byteLength]
        omega
      rw [Option.map_some, dedent, if_neg hnothing]
      rfl
  · next hvisible =>
    obtain ⟨count, hcount, hcommon⟩ := exists_commonIndent hmem (by simpa using hvisible)
    have hindent : indent (escape line) = indent line := by
      rw [indent, takeWhile_isBlank_escape, indent]
    have hlong : column + 2 + count ≤ byteLength (List.replicate (column + 2) ' ' ++ escape line) := by
      have hescape := indent_le_byteLength (escape line)
      rw [byteLength_append, byteLength_replicate_space]
      omega
    rw [hcommon, Option.map_some, dedent, if_pos hlong, dropBytes_replicate_append,
      dropBytes_escape hcount]
    rfl

theorem map_mapM {α β γ : Type} {items : List α} {f : α → Option β} {g : β → γ} {k : α → Option γ}
    (h : ∀ item ∈ items, (f item).map g = k item) :
    (items.mapM f).map (List.map g) = items.mapM k := by
  induction items with
  | nil => rfl
  | cons first rest ih =>
    obtain ⟨hfirst, hrest⟩ := List.forall_mem_cons.mp h
    rw [mapM_cons_eq, mapM_cons_eq, ← hfirst, ← ih hrest]
    cases f first <;> cases rest.mapM f <;> rfl

theorem mapM_cons_eq_some_iff {α β : Type} {valueOf : α → Option β} {first : α} {items : List α}
    {found : β} {others : List β} :
    (first :: items).mapM valueOf = some (found :: others) ↔
      valueOf first = some found ∧ items.mapM valueOf = some others := by
  rw [mapM_cons_eq]
  cases valueOf first <;> cases items.mapM valueOf <;> simp

theorem length_of_mapM {α β : Type} {valueOf : α → Option β} {items : List α} {found : List β}
    (h : items.mapM valueOf = some found) : found.length = items.length := by
  induction items generalizing found with
  | nil =>
    cases h
    rfl
  | cons first rest ih =>
    rw [mapM_cons_eq] at h
    obtain ⟨_, -, hrest⟩ := Option.bind_eq_some_iff.mp h
    obtain ⟨others, hothers, rfl⟩ := Option.map_eq_some_iff.mp hrest
    rw [List.length_cons, List.length_cons, ih hothers]

theorem exists_of_mem_mapM {α β : Type} {valueOf : α → Option β} {items : List α} {found : List β}
    (h : items.mapM valueOf = some found) {value : β} (hmem : value ∈ found) :
    ∃ item ∈ items, valueOf item = some value := by
  induction items generalizing found with
  | nil =>
    cases h
    cases hmem
  | cons first rest ih =>
    rw [mapM_cons_eq] at h
    obtain ⟨second, hsecond, hrest⟩ := Option.bind_eq_some_iff.mp h
    obtain ⟨others, hothers, rfl⟩ := Option.map_eq_some_iff.mp hrest
    rcases List.mem_cons.mp hmem with rfl | hlater
    · exact ⟨first, List.mem_cons_self, hsecond⟩
    · obtain ⟨item, hitem, hvalue⟩ := ih hothers hlater
      exact ⟨item, List.mem_cons_of_mem _ hitem, hvalue⟩

theorem trim_sublist (given : List (List Char)) : (trim given).Sublist given := by
  have hback := List.dropWhile_sublist allBlank (l := (given.dropWhile allBlank).reverse)
  rw [← List.reverse_sublist, List.reverse_reverse] at hback
  exact hback.trans (List.dropWhile_sublist _)

/-- What a block is read back as: the lines of the value without the blank ones at both ends and
without the indent that they have in common. -/
theorem decode_blockContent (column : Nat) (value : List Char) :
    decode (blockContent column value) =
      ((trim ((lines value).map chop)).mapM (strip (commonIndent ((lines value).map chop)))).map
        joinLines := by
  obtain ⟨layout, hlayout, hlines⟩ := lines_blockContent column value
  set given := (lines value).map chop
  rw [decode_of_lines hlines, trim_append hlayout, trim_map (allBlank_encoded column),
    commonIndent_append hlayout, commonIndent_map_encoded, List.mapM_map,
    ← map_mapM fun line hmem => dedent_encoded ((trim_sublist given).subset hmem) column, Option.map_map]
  rfl

/-! ### Texts that are kept -/

/-- A text that comes back when it is written as a block. -/
structure Keeps (value : List Char) : Prop where
  /-- The first line is not blank. -/
  first : ∀ piece ∈ (pieces value).head?, allBlank piece = false
  /-- The last line is not blank. -/
  last : ∀ piece ∈ (pieces value).getLast?, allBlank piece = false
  /-- No line ends with a carriage return. -/
  ends : ∀ piece ∈ pieces value, piece.getLast? ≠ some '\r'
  /-- A blank line is empty. -/
  blank : ∀ piece ∈ pieces value, allBlank piece → piece = []
  /-- Some line starts with a character that is not blank. -/
  margin : ∃ piece ∈ pieces value, ∃ c ∈ piece.head?, isBlank c = false

instance (value : List Char) : Decidable (Keeps value) :=
  decidable_of_iff
    ((∀ piece ∈ (pieces value).head?, allBlank piece = false) ∧
      (∀ piece ∈ (pieces value).getLast?, allBlank piece = false) ∧
        (∀ piece ∈ pieces value, piece.getLast? ≠ some '\r') ∧
          (∀ piece ∈ pieces value, allBlank piece → piece = []) ∧
            ∃ piece ∈ pieces value, piece.head?.any (!isBlank ·)) <| by
    simp only [Option.any_eq_true, Bool.not_eq_true']
    exact ⟨fun h => ⟨h.1, h.2.1, h.2.2.1, h.2.2.2.1, h.2.2.2.2⟩,
      fun h => ⟨h.first, h.last, h.ends, h.blank, h.margin⟩⟩

theorem joinLines_eq_intercalate (given : List (List Char)) :
    joinLines given = ['\n'].intercalate given := by
  fun_induction joinLines given with
  | case1 => rfl
  | case2 line => simp
  | case3 line rest hrest ih =>
    cases rest with
    | nil => exact absurd rfl hrest
    | cons second more => rw [ih, List.intercalate_cons_cons, List.append_assoc]; rfl

theorem joinLines_pieces (value : List Char) : joinLines (pieces value) = value := by
  rw [joinLines_eq_intercalate]
  exact List.intercalate_splitOn '\n'

theorem pieces_joinLines {given : List (List Char)} (hne : given ≠ [])
    (h : ∀ line ∈ given, '\n' ∉ line) : pieces (joinLines given) = given := by
  rw [joinLines_eq_intercalate]
  exact List.splitOn_intercalate '\n' h hne

theorem dropWhile_eq_self_iff {given : List (List Char)} :
    given.dropWhile allBlank = given ↔ ∀ line ∈ given.head?, allBlank line = false := by
  cases given with
  | nil => simp
  | cons first rest =>
    rw [List.dropWhile_cons, List.head?_cons]
    split
    · next hblank =>
      refine iff_of_false (fun heq => ?_) fun hall => ?_
      · have hlength := (List.dropWhile_sublist allBlank (l := rest)).length_le
        rw [heq, List.length_cons] at hlength
        omega
      · rw [hall first rfl] at hblank
        cases hblank
    · next hvisible => simpa using hvisible

theorem trim_eq_self_iff {given : List (List Char)} :
    trim given = given ↔ (∀ line ∈ given.head?, allBlank line = false) ∧
      ∀ line ∈ given.getLast?, allBlank line = false := by
  have hlast : given.reverse.dropWhile allBlank = given.reverse ↔
      ∀ line ∈ given.getLast?, allBlank line = false := by
    rw [dropWhile_eq_self_iff, List.head?_reverse]
  rw [← dropWhile_eq_self_iff, ← hlast, trim]
  constructor
  · intro h
    -- Nothing is dropped at either end, because nothing is dropped altogether.
    have hfront : given.dropWhile allBlank = given := by
      have hfirst := List.dropWhile_sublist allBlank (l := given)
      have hsecond := List.dropWhile_sublist allBlank (l := (given.dropWhile allBlank).reverse)
      refine hfirst.eq_of_length (Nat.le_antisymm hfirst.length_le ?_)
      have hlength := hsecond.length_le
      rw [List.length_reverse] at hlength
      rw [← List.length_reverse, h] at hlength
      exact hlength
    rw [hfront] at h
    exact ⟨hfront, List.reverse_eq_iff.mp h⟩
  · rintro ⟨hfront, hback⟩
    rw [hfront, hback, List.reverse_reverse]

/-- What is left of a line is no longer than the line and holds no other characters. -/
theorem suffix_of_strip {common : Option Nat} {line rest : List Char}
    (h : strip common line = some rest) :
    rest <:+ line := by
  unfold strip at h
  split at h
  · cases h
    exact List.nil_suffix
  · exact suffix_of_dropBytes h

/-- A line that comes back has no carriage return at its end. -/
theorem getLast?_ne_of_strip {common : Option Nat} {piece : List Char}
    (h : strip common (chop piece) = some piece) :
    piece.getLast? ≠ some '\r' ∧ strip common piece = some piece := by
  have hends := getLast?_ne_of_length_chop (suffix_of_strip h).length_le
  rw [chop_of_getLast?_ne hends] at h
  exact ⟨hends, h⟩

/-- If the lines come back as the pieces that they were, each of them does. -/
theorem endLines_eq_self_of_strip {common : Option Nat} {given : List (List Char)}
    (hlength : (endLines given).length = given.length)
    (h : ((endLines given).map chop).mapM (strip common) = some given) :
    endLines given = given ∧
      ∀ piece ∈ given, piece.getLast? ≠ some '\r' ∧ strip common piece = some piece := by
  fun_induction endLines given with
  | case1 => exact ⟨rfl, List.forall_mem_nil _⟩
  | case2 => cases hlength
  | case3 last hlast =>
    obtain ⟨hpiece, -⟩ := mapM_cons_eq_some_iff.mp h
    exact ⟨rfl, List.forall_mem_singleton.mpr (getLast?_ne_of_strip hpiece)⟩
  | case4 piece rest hrest ih =>
    obtain ⟨hpiece, hmore⟩ := mapM_cons_eq_some_iff.mp h
    obtain ⟨hlines, hothers⟩ := ih (Nat.succ.inj hlength) hmore
    -- A carriage return is taken off twice, by the writer's lines and by the reader's.
    have htwice : chop (chop piece) = chop piece := by
      have hlong := Nat.le_trans (suffix_of_strip hpiece).length_le (length_chop_le (chop piece))
      rw [chop_of_getLast?_ne (getLast?_ne_of_length_chop hlong),
        chop_of_getLast?_ne (getLast?_ne_of_length_chop hlong)]
    rw [htwice] at hpiece
    have hboth := getLast?_ne_of_strip hpiece
    rw [chop_of_getLast?_ne hboth.1, hlines]
    exact ⟨rfl, List.forall_mem_cons.mpr ⟨hboth, hothers⟩⟩

theorem length_endLines_le (given : List (List Char)) : (endLines given).length ≤ given.length := by
  fun_induction endLines given with
  | case1 => exact Nat.le_refl 0
  | case2 => exact Nat.zero_le _
  | case3 => exact Nat.le_refl 1
  | case4 piece rest hrest ih => exact Nat.succ_le_succ ih

/-- Pieces are lines as they are, unless the last one is empty or one of them loses its end. -/
theorem endLines_eq_self {given : List (List Char)} (hends : ∀ piece ∈ given, piece.getLast? ≠ some '\r')
    (hlast : ∀ piece ∈ given.getLast?, piece ≠ []) : endLines given = given := by
  fun_induction endLines given with
  | case1 => rfl
  | case2 => exact absurd rfl (hlast _ rfl)
  | case3 => rfl
  | case4 piece rest hrest ih =>
    obtain ⟨hpiece, hothers⟩ := List.forall_mem_cons.mp hends
    have hne : rest ≠ [] := fun heq => by subst heq; exact hrest rfl
    rw [chop_of_getLast?_ne hpiece, ih hothers fun last hmem => hlast last ?_]
    rwa [List.getLast?_cons_of_ne_nil hne]

/-- Lines that keep their ends and their blanks come back. -/
theorem Keeps.decode {value : List Char} (h : Keeps value) (column : Nat) :
    decode (blockContent column value) = some value := by
  have hlines : lines value = pieces value := by
    rw [lines_eq]
    refine endLines_eq_self h.ends ?_
    rintro piece hmem rfl
    cases h.last [] hmem
  have hchop : (pieces value).map chop = pieces value := by
    refine (List.map_congr_left fun piece hmem => ?_).trans (List.map_id _)
    exact chop_of_getLast?_ne (h.ends piece hmem)
  -- The line at the margin has no indent, so neither have the lines in common.
  obtain ⟨piece, hmem, c, hc, hvisible⟩ := h.margin
  obtain ⟨rest, rfl⟩ := List.head?_eq_some_iff.mp hc
  have hseen : allBlank (c :: rest) = false := by simp [allBlank, hvisible]
  obtain ⟨count, hcount, hcommon⟩ := exists_commonIndent hmem hseen
  have hmargin : indent (c :: rest) = 0 := by simp [indent, hvisible, byteLength]
  rw [hmargin, Nat.le_zero] at hcount
  subst hcount
  have hstrip : ∀ line ∈ pieces value, strip (some 0) line = some line := by
    intro line hline
    unfold strip
    split
    · next hblank => rw [h.blank line hline hblank]
    · exact dropBytes_byteLength [] line
  rw [decode_blockContent, hlines, hchop, trim_eq_self_iff.mpr ⟨h.first, h.last⟩, hcommon,
    mapM_eq_self hstrip, Option.map_some, joinLines_pieces]

/-- If every line comes back, the lines have no indent in common, because one of them starts at the
margin. -/
theorem exists_margin {given : List (List Char)} (hne : given ≠ [])
    (hfirst : ∀ line ∈ given.head?, allBlank line = false)
    (hkept : ∀ line ∈ given, strip (commonIndent given) line = some line) :
    ∃ line ∈ given, ∃ c ∈ line.head?, isBlank c = false := by
  obtain ⟨first, rest, rfl⟩ := List.exists_cons_of_ne_nil hne
  have hvisible : allBlank first = false := hfirst first rfl
  obtain ⟨count, -, hcommon⟩ := exists_commonIndent List.mem_cons_self hvisible
  have hzero : count = 0 := by
    have hstrip := hkept first List.mem_cons_self
    rw [strip, if_neg (by simp [hvisible]), hcommon] at hstrip
    refine eq_zero_of_dropBytes ?_ hstrip
    rintro rfl
    cases hvisible
  subst hzero
  -- The least indent is that of one of the lines.
  obtain ⟨line, hline, hindent⟩ := List.mem_map.mp (List.min?_eq_some_iff.mp hcommon).1
  obtain ⟨hmem, hshown⟩ := List.mem_filter.mp hline
  refine ⟨line, hmem, ?_⟩
  cases line with
  | nil => cases hshown
  | cons c more =>
    refine ⟨c, rfl, ?_⟩
    by_contra hblank
    rw [Bool.not_eq_false] at hblank
    have hpositive := Char.utf8Size_pos c
    rw [indent, List.takeWhile_cons_of_pos hblank, byteLength] at hindent
    omega

/-- A text with line feeds is read back from a block exactly if it is kept, wherever the block
stands. -/
theorem decode_blockContent_iff {value : List Char} (hline : '\n' ∈ value) (column : Nat) :
    decode (blockContent column value) = some value ↔ Keeps value := by
  refine ⟨fun h => ?_, fun h => h.decode column⟩
  rw [decode_blockContent, lines_eq] at h
  obtain ⟨left, hleft, hjoin⟩ := Option.map_eq_some_iff.mp h
  -- What is left of the lines are the pieces of the value, because no line feed is among them.
  have hpieces : pieces value = left := by
    have hne : left ≠ [] := by
      rintro rfl
      rw [← hjoin] at hline
      cases hline
    have hclean : ∀ line ∈ left, '\n' ∉ line := by
      intro line hmem hbreak
      obtain ⟨given, hgiven, hstrip⟩ := exists_of_mem_mapM hleft hmem
      obtain ⟨whole, hwhole, rfl⟩ := List.mem_map.mp ((trim_sublist _).subset hgiven)
      rw [← lines_eq] at hwhole
      exact newline_notMem_of_mem_lines hwhole
        (mem_of_mem_chop ((suffix_of_strip hstrip).subset hbreak))
    rw [← hjoin, pieces_joinLines hne hclean]
  -- There are as many of them as there were pieces, so no line was dropped.
  have htrim := trim_sublist ((endLines (pieces value)).map chop)
  have hlength := length_of_mapM hleft
  have hfewer := htrim.length_le
  have hlines := length_endLines_le (pieces value)
  rw [List.length_map] at hfewer
  rw [← hpieces] at hlength hleft
  have hnone : trim ((endLines (pieces value)).map chop) = (endLines (pieces value)).map chop :=
    htrim.eq_of_length (by rw [List.length_map]; omega)
  rw [hnone] at hleft
  obtain ⟨hsame, hkept⟩ := endLines_eq_self_of_strip (by omega) hleft
  have hchop : (pieces value).map chop = pieces value :=
    (List.map_congr_left fun piece hmem => chop_of_getLast?_ne (hkept piece hmem).1).trans
      (List.map_id _)
  rw [hsame, hchop] at hnone
  obtain ⟨hfirst, hlast⟩ := trim_eq_self_iff.mp hnone
  rw [hsame, hchop] at hkept
  have hblank : ∀ piece ∈ pieces value, allBlank piece → piece = [] := by
    intro piece hmem hall
    have hstrip := (hkept piece hmem).2
    rw [strip, if_pos hall] at hstrip
    exact (Option.some.inj hstrip).symm
  exact ⟨hfirst, hlast, fun piece hmem => (hkept piece hmem).1, hblank,
    exists_margin (pieces_ne_nil value) hfirst fun piece hmem => (hkept piece hmem).2⟩

end Block

/-! ## Strings -/

/-- A string that comes back when it is written. -/
def TextKeeps (text : String) : Prop :=
  if Block.isBlock text.toList then Block.Keeps text.toList else ∀ c ∈ text.toList, Quoted.keeps c

instance (text : String) : Decidable (TextKeeps text) :=
  if hblock : Block.isBlock text.toList then
    decidable_of_iff (Block.Keeps text.toList) (by rw [TextKeeps, if_pos hblock])
  else decidable_of_iff (text.toList.all Quoted.keeps)
    (by rw [TextKeeps, if_neg hblock, List.all_eq_true])

/-- A string is read back as it was exactly if it is kept, wherever it stands. -/
theorem rereadText_eq_self_iff {column : Nat} {text : String} :
    rereadText column text = some text ↔ TextKeeps text := by
  have hstring : ∀ {found : Option (List Char)},
      found.map String.ofList = some text ↔ found = some text.toList := by
    intro found
    rw [Option.map_eq_some_iff]
    constructor
    · rintro ⟨value, rfl, rfl⟩
      rw [String.toList_ofList]
    · exact fun h => ⟨text.toList, h, String.ofList_toList⟩
  unfold rereadText textWord TextKeeps
  split
  · next hblock =>
    have hline : '\n' ∈ text.toList := by
      simp only [Block.isBlock, Bool.and_eq_true] at hblock
      simpa using hblock.1
    rw [← Block.decode_blockContent_iff hline column, ← hstring, Option.bind_some, Token.text?]
  · rw [← Quoted.decode_encode_iff, ← hstring, quotedWord]
    cases Quoted.decode (text.toList.flatMap Quoted.encodeChar) <;> rfl

end SchemaAlgebra
