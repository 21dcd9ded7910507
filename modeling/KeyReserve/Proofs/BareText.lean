import KeyReserve.Yaml.Reader
import KeyReserve.Yaml.Writer

/-!
# Words without marks

Names and numbers are put down in a document as they are. Their characters are none of those that
mark something, so a reader that comes upon one takes it for a scalar, and the scalar ends where the
writer goes on: at a colon with a blank behind it, or at the end of a line below which nothing is
indented deeper.

## Main definitions

* `Yaml.isBare`: whether a text is a word that needs no marks;
* `Yaml.Follows`: what may stand below a part.

## Main results

* `Yaml.Scalar.plain_word`: a word is read as a scalar.
-/

namespace KeyReserve

namespace Yaml

/-- Characters of scalars that need no marks. -/
def isBareChar (c : Char) : Bool := c.isAlphanum || c = '_'

/-- Whether a text consists of such characters, and of one at least. -/
def isBare (text : String) : Bool := !text.toList.isEmpty && text.toList.all isBareChar

theorem isBareChar_of_mem {w : String} (hw : isBare w = true) :
    ∀ x ∈ w.toList, isBareChar x = true := by
  simp only [isBare, Bool.and_eq_true, List.all_eq_true] at hw
  exact hw.2

theorem exists_cons_of_isBare {w : String} (hw : isBare w = true) :
    ∃ x xs, w.toList = x :: xs ∧ isBareChar x = true := by
  have hne : w.toList ≠ [] := by
    simp only [isBare, Bool.and_eq_true, Bool.not_eq_true', List.isEmpty_eq_false_iff] at hw
    exact hw.1
  obtain ⟨x, xs, hx⟩ := List.exists_cons_of_ne_nil hne
  exact ⟨x, xs, hx, isBareChar_of_mem hw x (hx ▸ List.mem_cons_self)⟩

theorem length_pos_of_isBare {w : String} (hw : isBare w = true) : 0 < w.toList.length := by
  obtain ⟨x, xs, hx, -⟩ := exists_cons_of_isBare hw
  rw [hx]
  exact Nat.succ_pos _

variable {c : Char}

theorem isNameChar_of_bare (h : isBareChar c = true) : Mark.isNameChar c = true := by
  simp only [isBareChar, Bool.or_eq_true] at h
  simp only [Mark.isNameChar, Bool.or_eq_true]
  exact .inl h

/-- What is not among some characters differs from each of them. -/
theorem ne_of_isNameChar (h : Mark.isNameChar c = true) {x : Char}
    (hx : Mark.isNameChar x = false) : c ≠ x := by
  rintro rfl
  rw [h] at hx
  cases hx

theorem isBreak_eq_false (h : Mark.isNameChar c = true) : isBreak c = false := by
  simp only [isBreak, Bool.or_eq_false_iff, decide_eq_false_iff_not]
  exact ⟨⟨ne_of_isNameChar h (by decide), ne_of_isNameChar h (by decide)⟩,
    ne_of_isNameChar h (by decide)⟩

theorem isBlank_eq_false (h : Mark.isNameChar c = true) : isBlank c = false := by
  simp only [isBlank, Bool.or_eq_false_iff, decide_eq_false_iff_not]
  exact ⟨ne_of_isNameChar h (by decide), ne_of_isNameChar h (by decide)⟩

theorem isIndicator_eq_false (h : Mark.isNameChar c = true) : Scalar.isIndicator c = false := by
  simp only [Scalar.isIndicator, Scalar.isBracketMark, Bool.or_eq_false_iff,
    decide_eq_false_iff_not]
  repeat' constructor
  all_goals exact ne_of_isNameChar h (by decide)

theorem ne_dash_of_bare (h : isBareChar c = true) : c ≠ '-' := by
  rintro rfl
  exact absurd h (by decide)

/-- What may stand below a part: nothing, or a line that begins in a column before some bound. A
dash has a bound of its own. -/
inductive Follows (keys dashes : Nat) : List Char → Prop
  | nothing : Follows keys dashes []
  | key {col : Nat} (hcol : col < keys) {c : Char} (hc : isBareChar c = true) (cs : List Char) :
      Follows keys dashes (Writer.indentation col ++ c :: cs)
  | dash {col : Nat} (hcol : col < dashes) (cs : List Char) :
      Follows keys dashes (Writer.indentation col ++ '-' :: ' ' :: cs)

theorem Follows.mono {keys dashes keys' dashes' : Nat} {cs : List Char}
    (h : Follows keys dashes cs) (hkeys : keys ≤ keys') (hdashes : dashes ≤ dashes') :
    Follows keys' dashes' cs := by
  cases h with
  | nothing => exact .nothing
  | key hcol hc cs => exact .key (Nat.lt_of_lt_of_le hcol hkeys) hc cs
  | dash hcol cs => exact .dash (Nat.lt_of_lt_of_le hcol hdashes) cs

/-! ## Between parts -/

namespace Cursor

/-- Spaces are passed over. -/
theorem skipFrom_indentation (tabs : Bool) (n : Nat) (cs : List Char) (line col pos : Nat) :
    skipFrom false tabs false (Writer.indentation n ++ cs) line col pos =
      skipFrom false tabs false cs line (col + n) (pos + n) := by
  induction n generalizing col pos with
  | zero => rfl
  | succ n ih =>
    show skipFrom false tabs false (' ' :: (Writer.indentation n ++ cs)) line col pos = _
    rw [skipFrom, if_neg (by decide), if_pos (by simp), ih]
    congr 1 <;> omega

/-- What begins with a name is not passed over. -/
theorem skipFrom_name (tabs : Bool) (h : Mark.isNameChar c = true) (cs : List Char)
    (line col pos : Nat) :
    skipFrom false tabs false (c :: cs) line col pos = ⟨c :: cs, line, col, pos⟩ := by
  have hspace : c ≠ ' ' := ne_of_isNameChar h (by decide)
  have htab : c ≠ '\t' := ne_of_isNameChar h (by decide)
  have hcomment : c ≠ '#' := ne_of_isNameChar h (by decide)
  rw [skipFrom, if_neg (by simp [isBreak_eq_false h]), if_neg (by simp [hspace, htab]),
    if_neg hcomment]

/-- From the end of a line one gets to what the next line begins with. -/
theorem skip_line (tabs : Bool) {e : Cursor} {n : Nat} {cs : List Char}
    (he : e.rest = '\n' :: (Writer.indentation n ++ c :: cs)) (h : Mark.isNameChar c = true) :
    e.skip tabs = ⟨c :: cs, e.line + 1, n, e.pos + 1 + n⟩ := by
  rw [skip, he, skipFrom, if_pos (by decide), skipFrom_indentation, skipFrom_name _ h, Nat.zero_add]

/-- One space is passed over on the line. -/
theorem skip_space (tabs : Bool) {e : Cursor} {cs : List Char} (he : e.rest = ' ' :: c :: cs)
    (h : Mark.isNameChar c = true) : e.skip tabs = e.advance 1 := by
  rw [skip, he, skipFrom, if_neg (by decide), if_pos (by simp), skipFrom_name _ h, advance, he]
  rfl

variable {e : Cursor} {cs : List Char}

theorem isAt_eq_false (he : e.rest = c :: cs) (h : Mark.isNameChar c = true) {x : Char}
    (hx : Mark.isNameChar x = false) : e.isAt x = false := by
  simp [isAt, he, ne_of_isNameChar h hx]

theorem atMark_eq_false (he : e.rest = c :: cs) {x : Char} (hx : c ≠ x) : e.atMark x = false := by
  simp [atMark, he, hx]

theorem atProperties_eq_false (he : e.rest = c :: cs) (h : Mark.isNameChar c = true) :
    Mark.atProperties e = false := by
  simp only [Mark.atProperties, isAt_eq_false he h (x := '&') (by decide),
    isAt_eq_false he h (x := '!') (by decide), Bool.or_self]

theorem tripled_eq_false {x : Char} (h : c ≠ x) : tripled x (c :: cs) = false := by
  unfold tripled
  split
  · rename_i heq
    cases heq
    simp [h]
  · rfl

theorem atMarker_of_bare (he : e.rest = c :: cs) (hc : isBareChar c = true) :
    e.atMarker = false := by
  have hdot : c ≠ '.' := ne_of_isNameChar (isNameChar_of_bare hc) (by decide)
  simp [atMarker, atDashes, atDots, he, tripled_eq_false (ne_dash_of_bare hc),
    tripled_eq_false hdot]

theorem atMarker_of_dash (he : e.rest = '-' :: ' ' :: cs) : e.atMarker = false := by
  have hdashes : tripled '-' ('-' :: ' ' :: cs) = false := by cases cs <;> rfl
  simp [atMarker, atDashes, atDots, he, hdashes, tripled_eq_false (c := '-') (x := '.') (by decide)]

/-- Where there are no blanks none are passed over. -/
theorem skipBlanks_eq_self (he : e.rest = c :: cs) (h : isBlank c = false) : e.skipBlanks = e := by
  simp only [skipBlanks, he, List.takeWhile_cons, h]
  rfl

end Cursor

/-! ## Scalars -/

namespace Scalar

variable {least : Nat}

/-- A word is taken into the text as it is. -/
theorem plainFrom_word (least : Nat) {w : List Char} (h : ∀ c ∈ w, isBareChar c = true)
    (cs : List Char) (line col pos : Nat) (text : List Char) :
    plainFrom false least (w ++ cs) line col pos text .none ⟨w ++ cs, line, col, pos⟩ =
      plainFrom false least cs line (col + w.length) (pos + w.length) (w.reverse ++ text) .none
        ⟨cs, line, col + w.length, pos + w.length⟩ := by
  induction w generalizing col pos text with
  | nil => rfl
  | cons c w ih =>
    have hc := isNameChar_of_bare (h c List.mem_cons_self)
    have hcolon : c ≠ ':' := ne_of_isNameChar hc (by decide)
    rw [List.cons_append, plainFrom, if_neg (by simp [isBreak_eq_false hc]),
      if_neg (by simp [isBlank_eq_false hc]), if_neg (by simp [Gap.isBroken]),
      if_neg (by simp [Gap.isNone, hcolon]), if_neg (by simp), if_neg (by simp),
      ih fun c hc => h c (List.mem_cons_of_mem _ hc)]
    simp only [List.length_cons, List.reverse_cons, List.append_assoc, Gap.onto]
    congr 1 <;> simp only [Nat.add_assoc, Nat.add_comm 1]

/-- Behind a line break spaces do not count. -/
theorem plainFrom_indentation (n : Nat) (cs : List Char) (line col pos : Nat) (text : List Char)
    (first : Option Char) (more : List Char) (stop : Cursor) :
    plainFrom false least (Writer.indentation n ++ cs) line col pos text (.broken first more) stop =
      plainFrom false least cs line (col + n) (pos + n) text (.broken first more) stop := by
  induction n generalizing col pos with
  | zero => rfl
  | succ n ih =>
    show plainFrom false least (' ' :: (Writer.indentation n ++ cs)) line col pos text _ stop = _
    rw [plainFrom, if_neg (by decide), if_pos (by decide), if_neg (by simp)]
    simp only [Gap.addBlank]
    rw [ih]
    congr 1 <;> omega

/-- The text of a scalar ends with its line, unless the next line is indented as deep as it must
be to belong to it. -/
theorem plainFrom_follows {rest : List Char} (h : Follows least least rest) (line col pos : Nat)
    (text : List Char) (stop : Cursor) :
    plainFrom false least ('\n' :: rest) line col pos text .none stop = some (text, stop) := by
  have hline : ∀ {n : Nat} {c : Char} (cs : List Char), n < least → Mark.isNameChar c = true →
      plainFrom false least (Writer.indentation n ++ c :: cs) (line + 1) 0 (pos + 1) text
        (.broken (some '\n') []) stop = some (text, stop) := by
    intro n c cs hn hc
    rw [plainFrom_indentation, plainFrom, if_neg (by simp [isBreak_eq_false hc]),
      if_neg (by simp [isBlank_eq_false hc]), if_pos (by simp [Gap.isBroken, hn])]
  rw [plainFrom, if_pos (by decide)]
  cases h with
  | nothing => rfl
  | key hcol hc cs => exact hline cs hcol (isNameChar_of_bare hc)
  | dash hcol cs => exact hline _ hcol (by decide)

/-- Whether a word ends here: at a colon with a blank behind it, or at the end of a line that
nothing continues. -/
inductive Ends (least : Nat) : List Char → Prop
  | colon {cs : List Char} (h : blankAhead cs = true) : Ends least (':' :: cs)
  | line {cs : List Char} (h : Follows least least cs) : Ends least ('\n' :: cs)

theorem plainFrom_ends {tail : List Char} (h : Ends least tail) (line col pos : Nat)
    (text : List Char) (stop : Cursor) :
    plainFrom false least tail line col pos text .none stop = some (text, stop) := by
  cases h with
  | @colon cs h =>
    rw [plainFrom, if_neg (by decide), if_neg (by decide), if_neg (by simp [Gap.isBroken]),
      if_pos (by simp [h])]
  | line h => exact plainFrom_follows h line col pos text stop

/-- A word is read as a scalar without marks. -/
theorem plain_word {c : Cursor} {w : String} (hw : isBare w = true) {tail : List Char}
    (hc : c.rest = w.toList ++ tail) (htail : Ends least tail) :
    plain false least c = some (w, c.advance w.toList.length) := by
  have hstart : canStart false c.rest = true := by
    obtain ⟨x, xs, hx, hbare⟩ := exists_cons_of_isBare hw
    have hname := isNameChar_of_bare hbare
    have hquestion : x ≠ '?' := ne_of_isNameChar hname (by decide)
    have hcolon : x ≠ ':' := ne_of_isNameChar hname (by decide)
    rw [hc, hx, List.cons_append, canStart, if_neg (ne_dash_of_bare hbare),
      if_neg (by simp [hquestion, hcolon])]
    simp [isBreak_eq_false hname, isBlank_eq_false hname, isIndicator_eq_false hname]
  have hread : plainFrom false least c.rest c.line c.col c.pos [] .none c =
      some (w.toList.reverse, c.advance w.toList.length) := by
    have hword := plainFrom_word least (isBareChar_of_mem hw) tail c.line c.col c.pos []
    have hstop : c.advance w.toList.length = ⟨tail, c.line, c.col + w.toList.length,
        c.pos + w.toList.length⟩ := by rw [Cursor.advance, hc, List.drop_left]
    rw [← hc, plainFrom_ends htail, List.append_nil] at hword
    rw [hstop]
    exact hword
  rw [plain, if_pos hstart, hread]
  simp

end Scalar

end Yaml

end KeyReserve
