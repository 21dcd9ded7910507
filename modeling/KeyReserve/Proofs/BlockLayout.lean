import KeyReserve.Proofs.BareText

/-!
# Reading block layout

The reader goes through what the writer has written one token after the other. A value is written
behind a colon and an item behind a dash, and in both places a collection begins on a line whose
column tells what belongs to it. So what reading a part brings is said of the text of the part and
of what may stand below it, and follows for a collection from the same of what it consists of.

## Main definitions

* `Yaml.Bare`: trees that can be written without marks;
* `Yaml.Reader.ReadsValue`, `Yaml.Reader.ReadsItem`: whether a tree is read from what is written
  behind a colon, and behind a dash.

## Main results

* `Yaml.Reader.reads_of_bare`: both hold of every tree without marks;
* `Yaml.Reader.document_write`: a document without marks is read as it has been written.
-/

namespace KeyReserve

namespace Yaml

variable {c : Char}

/-! ## Trees that are written -/

/-- Keys that can be written without marks: words that are not too long for a key. -/
def BareKey (t : Tree) : Prop :=
  ∃ k : String, t = .word k ∧ isBare k = true ∧ k.toList.length ≤ 1024

/-- Trees that can be written without marks: words, and collections that are not empty. -/
inductive Bare : Tree → Prop
  | word {w : String} (hw : isBare w = true) : Bare (.word w)
  | mapping {es : List (Tree × Tree)} (hne : es ≠ []) (hkeys : ∀ e ∈ es, BareKey e.1)
      (hvalues : ∀ e ∈ es, Bare e.2) : Bare (.mapping es)
  | sequence {ts : List Tree} (hne : ts ≠ []) (hitems : ∀ t ∈ ts, Bare t) : Bare (.sequence ts)

theorem Writer.entries_cons (col : Nat) (lead : List Char) (k : String) (v : Tree)
    (es : List (Tree × Tree)) :
    entries col lead ((.word k, v) :: es) =
      lead ++ (k.toList ++ ':' :: (value col v ++ entries col (indentation col) es)) := rfl

namespace Reader

variable (forms : List (String × String)) {least fuel : Nat} {e : Cursor}

theorem keyNode_word {w : String} (hw : isBare w = true) {tail : List Char}
    (he : e.rest = w.toList ++ tail) (htail : Scalar.Ends least tail) (hfuel : 0 < fuel) :
    keyNode forms least fuel e = some (.word w, e.advance w.toList.length) := by
  obtain ⟨x, xs, hx, hbare⟩ := exists_cons_of_isBare hw
  have hname := isNameChar_of_bare hbare
  have hcons : e.rest = x :: (xs ++ tail) := by rw [he, hx, List.cons_append]
  obtain ⟨f, rfl⟩ := Nat.exists_eq_add_of_lt hfuel
  rw [keyNode, if_neg (by simp [Cursor.atProperties_eq_false hcons hname]), Nat.zero_add, content]
  simp only [Cursor.isAt_eq_false hcons hname (x := '[') (by decide),
    Cursor.isAt_eq_false hcons hname (x := '\x7b') (by decide),
    Cursor.isAt_eq_false hcons hname (x := '*') (by decide),
    Cursor.isAt_eq_false hcons hname (x := '\'') (by decide),
    Cursor.isAt_eq_false hcons hname (x := '"') (by decide), Bool.or_self, Bool.false_eq_true,
    if_false, Scalar.plain_word hw he htail, Option.map_some]
  rfl

/-- What begins with a word is a key or a scalar. -/
theorem blockNode_bare (keys : Bool) {x : Char} {xs : List Char} (he : e.rest = x :: xs)
    (hx : isBareChar x = true) :
    blockNode forms least keys (fuel + 1) e =
      (keyNode forms least fuel e).bind fun (t, e') => keyOrNode forms keys fuel e t e' := by
  have hname := isNameChar_of_bare hx
  rw [blockNode]
  simp only [Cursor.atMark_eq_false he (ne_dash_of_bare hx),
    Cursor.atMark_eq_false he (ne_of_isNameChar hname (x := '?') (by decide)),
    Cursor.atMark_eq_false he (ne_of_isNameChar hname (x := ':') (by decide)),
    Cursor.isAt_eq_false he hname (x := '|') (by decide),
    Cursor.isAt_eq_false he hname (x := '>') (by decide),
    Cursor.atProperties_eq_false he hname, Bool.or_self, Bool.false_eq_true, if_false]
  rfl

/-- A word at the end of its line is a scalar. -/
theorem blockNode_word (least fuel : Nat) (keys : Bool) {w : String} (hw : isBare w = true)
    {rest : List Char} (he : e.rest = w.toList ++ '\n' :: rest) (h : Follows least least rest)
    (hfuel : 2 ≤ fuel) :
    ∃ e', blockNode forms least keys fuel e = some (.word w, e') ∧ e'.rest = '\n' :: rest := by
  obtain ⟨f, rfl⟩ := Nat.exists_eq_add_of_le hfuel
  obtain ⟨x, xs, hx, hbare⟩ := exists_cons_of_isBare hw
  have hstop : (e.advance w.toList.length).rest = '\n' :: rest := by
    rw [Cursor.advance, he, List.drop_left]
  refine ⟨e.advance w.toList.length, ?_, hstop⟩
  rw [show 2 + f = f + 1 + 1 by omega,
    blockNode_bare forms keys (by rw [he, hx, List.cons_append]) hbare,
    keyNode_word forms hw he (.line h) (Nat.succ_pos f)]
  simp only [Option.bind_some, keyOrNode, Cursor.skipBlanks_eq_self hstop (by decide),
    Cursor.atMark_eq_false hstop (x := ':') (by decide), Bool.false_eq_true, if_false]

/-- A word with a colon behind it is a key. -/
theorem colon_behind_key {k : String} {tail : List Char} (he : e.rest = k.toList ++ ':' :: tail)
    (htail : blankAhead tail = true) (hlen : k.toList.length ≤ 1024) :
    let colon := (e.advance k.toList.length).skipBlanks
    colon.atMark ':' = true ∧ makesKey e colon = true ∧
      colon.advance 1 = e.advance (k.toList.length + 1) := by
  have hrest : (e.advance k.toList.length).rest = ':' :: tail := by
    rw [Cursor.advance, he, List.drop_left]
  rw [Cursor.skipBlanks_eq_self hrest (by decide)]
  refine ⟨?_, ?_, ?_⟩
  · simp [Cursor.atMark, hrest, htail]
  · simp only [makesKey, Cursor.advance, Bool.and_eq_true, decide_eq_true_eq]
    exact ⟨trivial, decide_eq_true (by omega)⟩
  · simp [Cursor.advance, Nat.add_assoc]

theorem rest_behind_key {k : String} {tail : List Char} (he : e.rest = k.toList ++ ':' :: tail) :
    (e.advance (k.toList.length + 1)).rest = tail := by
  simp [Cursor.advance, he, List.drop_append]

/-- A mapping is read on from the value of its first entry. -/
theorem blockNode_key {k : String} {tail : List Char} (hk : isBare k = true)
    (hlen : k.toList.length ≤ 1024) (he : e.rest = k.toList ++ ':' :: tail)
    (htail : blankAhead tail = true) :
    blockNode forms least true (fuel + 2) e =
      (blockValue forms e.col false fuel (e.advance (k.toList.length + 1))).bind fun (v, e') =>
        blockNext forms e.col fuel [(.word k, v)] e' := by
  obtain ⟨x, xs, hx, hbare⟩ := exists_cons_of_isBare hk
  obtain ⟨hcolon, hkey, hbehind⟩ := colon_behind_key he htail hlen
  rw [blockNode_bare forms true (by rw [he, hx, List.cons_append]) hbare,
    keyNode_word forms hk he (.colon htail) (Nat.succ_pos fuel)]
  simp only [Option.bind_some, keyOrNode, hcolon, hkey, Bool.and_self, if_true, hbehind]
  rfl

/-- The same of an entry that is not the first. -/
theorem blockEntries_key {k : String} {tail : List Char} (hk : isBare k = true)
    (hlen : k.toList.length ≤ 1024) (he : e.rest = k.toList ++ ':' :: tail)
    (htail : blankAhead tail = true) (hfuel : 0 < fuel) (col : Nat) (done : List (Tree × Tree)) :
    blockEntries forms col (fuel + 1) done e =
      (blockValue forms col false fuel (e.advance (k.toList.length + 1))).bind fun (v, e') =>
        blockNext forms col fuel ((.word k, v) :: done) e' := by
  obtain ⟨x, xs, hx, hbare⟩ := exists_cons_of_isBare hk
  obtain ⟨hcolon, hkey, hbehind⟩ := colon_behind_key he htail hlen
  have hcons : e.rest = x :: (xs ++ ':' :: tail) := by rw [he, hx, List.cons_append]
  have hname := isNameChar_of_bare hbare
  rw [blockEntries]
  simp only [Cursor.atMark_eq_false hcons (ne_of_isNameChar hname (x := '?') (by decide)),
    Cursor.atMark_eq_false hcons (ne_of_isNameChar hname (x := ':') (by decide)),
    Bool.false_eq_true, if_false, keyNode_word forms hk he (.colon htail) hfuel,
    Option.bind_eq_bind, Option.bind_some, hcolon, hkey, Bool.and_self, if_true, hbehind]

/-! ## The next line -/

/-- A token that begins a line below a part that has just been read. -/
structure Below (e n : Cursor) : Prop where
  notEnd : n.atEnd = false
  noMarker : n.atMarker = false
  newLine : onNewLine e n = true

theorem below_key {col : Nat} (hc : isBareChar c = true) {cs : List Char}
    (he : e.rest = '\n' :: (Writer.indentation col ++ c :: cs)) :
    Below e (e.skip true) ∧ (e.skip true).rest = c :: cs ∧ (e.skip true).col = col := by
  have hname := isNameChar_of_bare hc
  rw [Cursor.skip_line true he hname]
  exact ⟨⟨rfl, Cursor.atMarker_of_bare rfl hc, by simp [onNewLine]⟩, rfl, rfl⟩

theorem below_dash {col : Nat} {cs : List Char}
    (he : e.rest = '\n' :: (Writer.indentation col ++ '-' :: ' ' :: cs)) :
    Below e (e.skip true) ∧ (e.skip true).rest = '-' :: ' ' :: cs ∧ (e.skip true).col = col := by
  rw [Cursor.skip_line true he (by decide)]
  exact ⟨⟨rfl, Cursor.atMarker_of_dash rfl, by simp [onNewLine]⟩, rfl, rfl⟩

/-- A mapping ends above a line that begins further left. -/
theorem blockNext_follows {col : Nat} {rest : List Char} (h : Follows col col rest)
    (he : e.rest = '\n' :: rest) (hfuel : 0 < fuel) (done : List (Tree × Tree)) :
    blockNext forms col fuel done e = some (.mapping done.reverse, e) := by
  obtain ⟨f, rfl⟩ := Nat.exists_eq_add_of_lt hfuel
  have hline : Below e (e.skip true) → (e.skip true).col < col →
      blockNext forms col (0 + f + 1) done e = some (.mapping done.reverse, e) := by
    intro hbelow hcol
    rw [blockNext]
    simp [hbelow.notEnd, hbelow.noMarker, hbelow.newLine, Nat.ne_of_lt hcol, hcol]
  cases h with
  | nothing =>
    have hend : (e.skip true).atEnd = true := by
      rw [Cursor.skip, he]
      rfl
    rw [blockNext]
    simp [hend]
  | key hcol hc cs =>
    obtain ⟨hbelow, -, hat⟩ := below_key hc he
    exact hline hbelow (hat ▸ hcol)
  | dash hcol cs =>
    obtain ⟨hbelow, -, hat⟩ := below_dash he
    exact hline hbelow (hat ▸ hcol)

/-! ## Collections -/

/-- What has been written behind the colon of an entry is read as the value of the entry. -/
def ReadsValue (t : Tree) : Prop :=
  ∀ (forms : List (String × String)) (fuel : Nat) {col : Nat} {e : Cursor} {rest : List Char},
    e.rest = Writer.value col t ++ rest → Follows (col + 1) col rest →
      2 * (Writer.value col t).length ≤ fuel →
        ∃ e', blockValue forms col false fuel e = some (t, e') ∧ e'.rest = '\n' :: rest

/-- What has been written behind the dash of an item is read as the item. -/
def ReadsItem (t : Tree) : Prop :=
  ∀ (forms : List (String × String)) (fuel : Nat) {col : Nat} {e : Cursor} {rest : List Char},
    e.rest = Writer.item col t ++ rest → e.col = col + 1 → Follows (col + 1) (col + 1) rest →
      2 * (Writer.item col t).length ≤ fuel →
        (e.skip false).atEnd = false ∧ (e.skip false).atMarker = false ∧
          (e.skip false).line = e.line ∧
            ∃ e', blockNode forms (col + 1) true fuel (e.skip false) = some (t, e') ∧
              e'.rest = '\n' :: rest

/-- An entry without marks whose value is read as it has been written. -/
structure ReadsEntry (entry : Tree × Tree) : Prop where
  key : BareKey entry.1
  bare : Bare entry.2
  reads : ReadsValue entry.2

/-- Below a value stands the next entry, or what stands below the mapping. -/
theorem follows_entries {es : List (Tree × Tree)} (hes : ∀ e ∈ es, ReadsEntry e) {col : Nat}
    {rest : List Char} (h : Follows col col rest) :
    Follows (col + 1) col (Writer.entries col (Writer.indentation col) es ++ rest) := by
  cases es with
  | nil => exact h.mono (Nat.le_succ col) (Nat.le_refl col)
  | cons entry es =>
    obtain ⟨key, v⟩ := entry
    obtain ⟨k, rfl, hk, -⟩ := (hes _ List.mem_cons_self).key
    obtain ⟨x, xs, hx, hbare⟩ := exists_cons_of_isBare hk
    simp only [Writer.entries_cons, hx, List.append_assoc, List.cons_append]
    exact .key (Nat.lt_succ_self col) hbare _

theorem blankAhead_value {t : Tree} (h : Bare t) (col : Nat) (cs : List Char) :
    blankAhead (Writer.value col t ++ cs) = true := by
  cases h with
  | word hw => rfl
  | mapping hne hkeys hvalues =>
    obtain ⟨entry, es, rfl⟩ := List.exists_cons_of_ne_nil hne
    rfl
  | sequence hne hitems =>
    obtain ⟨t, ts, rfl⟩ := List.exists_cons_of_ne_nil hne
    rfl

/-- The entries of a mapping behind a value, each on a line of its own. -/
theorem blockNext_entries (fuel : Nat) (done : List (Tree × Tree)) {es : List (Tree × Tree)}
    (hes : ∀ e ∈ es, ReadsEntry e) {col : Nat} {rest : List Char} (h : Follows col col rest)
    (he : e.rest = '\n' :: (Writer.entries col (Writer.indentation col) es ++ rest))
    (hfuel : 2 * (Writer.entries col (Writer.indentation col) es).length < fuel) :
    ∃ e', blockNext forms col fuel done e = some (.mapping (done.reverse ++ es), e') ∧
      e'.rest = '\n' :: rest := by
  induction es generalizing fuel e done with
  | nil =>
    refine ⟨e, ?_, he⟩
    rw [blockNext_follows forms h he (Nat.zero_lt_of_lt hfuel), List.append_nil]
  | cons entry es ih =>
    obtain ⟨key, v⟩ := entry
    obtain ⟨⟨k, rfl, hk, hlen⟩, (hbare : Bare v), (hreads : ReadsValue v)⟩ :=
      hes _ List.mem_cons_self
    obtain ⟨x, xs, hx, hx'⟩ := exists_cons_of_isBare hk
    have hlater : ∀ entry ∈ es, ReadsEntry entry := fun _ h => hes _ (List.mem_cons_of_mem _ h)
    simp only [Writer.entries_cons, List.append_assoc, List.cons_append, List.length_append,
      List.length_cons] at he hfuel
    obtain ⟨f, rfl⟩ : ∃ f, fuel = f + 2 := ⟨fuel - 2, by omega⟩
    have hline := he
    rw [hx, List.cons_append] at hline
    obtain ⟨hbelow, hn, hcol⟩ := below_key hx' hline
    rw [← List.cons_append, ← hx] at hn
    have hnext : blockNext forms col (f + 2) done e =
        blockEntries forms col (f + 1) done (e.skip true) := by
      rw [blockNext]
      simp [hbelow.notEnd, hbelow.noMarker, hbelow.newLine, hcol]
    obtain ⟨e₁, hread, hrest₁⟩ := hreads forms f (rest_behind_key hn) (follows_entries hlater h)
      (by omega)
    obtain ⟨e₂, hread₂, hrest₂⟩ := ih f ((.word k, v) :: done) hlater hrest₁ (by omega)
    refine ⟨e₂, ?_, hrest₂⟩
    rw [hnext, blockEntries_key forms hk hlen hn (blankAhead_value hbare _ _) (by omega), hread]
    simpa using hread₂

/-- A mapping is read where its first key stands. -/
theorem blockNode_mapping (least fuel : Nat) {es : List (Tree × Tree)} (hne : es ≠ [])
    (hes : ∀ e ∈ es, ReadsEntry e) {rest : List Char} (h : Follows e.col e.col rest)
    (he : e.rest = Writer.entries e.col [] es ++ rest)
    (hfuel : 2 * (Writer.entries e.col [] es).length ≤ fuel) :
    ∃ e', blockNode forms least true fuel e = some (.mapping es, e') ∧ e'.rest = '\n' :: rest := by
  obtain ⟨entry, es, rfl⟩ := List.exists_cons_of_ne_nil hne
  obtain ⟨key, v⟩ := entry
  obtain ⟨⟨k, rfl, hk, hlen⟩, (hbare : Bare v), (hreads : ReadsValue v)⟩ :=
    hes _ List.mem_cons_self
  have hlater : ∀ entry ∈ es, ReadsEntry entry := fun _ h => hes _ (List.mem_cons_of_mem _ h)
  simp only [Writer.entries_cons, List.nil_append, List.append_assoc, List.cons_append,
    List.length_append, List.length_cons] at he hfuel
  obtain ⟨f, rfl⟩ : ∃ f, fuel = f + 2 := ⟨fuel - 2, by omega⟩
  have hpos := length_pos_of_isBare hk
  obtain ⟨e₁, hread, hrest₁⟩ := hreads forms f (rest_behind_key he) (follows_entries hlater h)
    (by omega)
  obtain ⟨e₂, hread₂, hrest₂⟩ :=
    blockNext_entries forms f [(.word k, v)] hlater h hrest₁ (by omega)
  refine ⟨e₂, ?_, hrest₂⟩
  rw [blockNode_key forms hk hlen he (blankAhead_value hbare _ _), hread]
  simpa using hread₂

/-! ## Sequences -/

theorem item_eq_space {t : Tree} (h : Bare t) (col : Nat) :
    ∃ cs, Writer.item col t = ' ' :: cs := by
  cases h with
  | word hw => exact ⟨_, rfl⟩
  | mapping hne hkeys hvalues =>
    obtain ⟨entry, es, rfl⟩ := List.exists_cons_of_ne_nil hne
    exact ⟨_, rfl⟩
  | sequence hne hitems =>
    obtain ⟨t, ts, rfl⟩ := List.exists_cons_of_ne_nil hne
    exact ⟨_, rfl⟩

/-- A sequence ends above a line that begins further left, and in a mapping above its next key. -/
theorem follows_sequence {col : Nat} {inMapping : Bool} {rest : List Char}
    (h : Follows (if inMapping then col + 1 else col) col rest) (he : e.rest = '\n' :: rest) :
    (e.skip true).atEnd = true ∨
      Below e (e.skip true) ∧
        ((e.skip true).col = col ∧ (e.skip true).atMark '-' = false ∧ inMapping = true ∨
          (e.skip true).col < col) := by
  cases h with
  | nothing =>
    refine .inl ?_
    rw [Cursor.skip, he]
    rfl
  | key hcol hc cs =>
    obtain ⟨hbelow, hrest, hat⟩ := below_key hc he
    refine .inr ⟨hbelow, ?_⟩
    have hdash : (e.skip true).atMark '-' = false :=
      Cursor.atMark_eq_false hrest (ne_dash_of_bare hc)
    cases inMapping with
    | true =>
      rcases Nat.lt_succ_iff_lt_or_eq.1 hcol with hlt | heq
      · exact .inr (hat ▸ hlt)
      · exact .inl ⟨hat.trans heq, hdash, rfl⟩
    | false => exact .inr (hat ▸ hcol)
  | dash hcol cs =>
    obtain ⟨hbelow, -, hat⟩ := below_dash he
    exact .inr ⟨hbelow, .inr (hat ▸ hcol)⟩

/-- Below an item stands the next one, or what stands below the sequence. -/
theorem follows_items {ts : List Tree} (hts : ∀ t ∈ ts, Bare t) {col : Nat} {rest : List Char}
    (h : Follows (col + 1) col rest) :
    Follows (col + 1) (col + 1) (Writer.items col (Writer.indentation col) ts ++ rest) := by
  cases ts with
  | nil => exact h.mono (Nat.le_refl _) (Nat.le_succ col)
  | cons t ts =>
    obtain ⟨cs, hcs⟩ := item_eq_space (hts t List.mem_cons_self) col
    simp only [Writer.items, hcs, List.append_assoc, List.cons_append]
    exact .dash (Nat.lt_succ_self col) _

/-- Behind the dash of an item the item is read, and then it is seen what stands below. -/
theorem blockItems_item (fuel : Nat) (inMapping : Bool) (done : List Tree) {t : Tree}
    (ht : ReadsItem t) {col : Nat} (hcol : e.col = col) {rest : List Char}
    (he : e.rest = '-' :: (Writer.item col t ++ rest)) (h : Follows (col + 1) (col + 1) rest)
    (hfuel : 2 * (Writer.item col t).length ≤ fuel) :
    ∃ e', e'.rest = '\n' :: rest ∧ blockItems forms col inMapping (fuel + 1) done e =
      let n := e'.skip true
      if n.atEnd || n.atMarker then some (.sequence (t :: done).reverse, e')
      else if !onNewLine e' n then none
      else if n.col = col then
        if n.atMark '-' then blockItems forms col inMapping fuel (t :: done) n
        else if inMapping then some (.sequence (t :: done).reverse, e')
        else none
      else if n.col < col then some (.sequence (t :: done).reverse, e')
      else none := by
  have hbehind : (e.advance 1).rest = Writer.item col t ++ rest := by simp [Cursor.advance, he]
  obtain ⟨hend, hmarker, hline, e', hread, hrest⟩ :=
    ht forms fuel hbehind (by simp [Cursor.advance, hcol]) h hfuel
  refine ⟨e', hrest, ?_⟩
  rw [blockItems]
  simp [hend, hmarker, hline, hread]

/-- The items of a sequence are read where the first of them stands. -/
theorem blockItems_items (fuel : Nat) (inMapping : Bool) (done : List Tree) {ts : List Tree}
    (hts : ∀ t ∈ ts, Bare t ∧ ReadsItem t) {t : Tree} (ht : ReadsItem t) {col : Nat}
    (hcol : e.col = col) {rest : List Char}
    (h : Follows (if inMapping then col + 1 else col) col rest)
    (he : e.rest =
      '-' :: (Writer.item col t ++ (Writer.items col (Writer.indentation col) ts ++ rest)))
    (hfuel : 2 * ((Writer.item col t).length +
      (Writer.items col (Writer.indentation col) ts).length) < fuel) :
    ∃ e', blockItems forms col inMapping fuel done e =
        some (.sequence (done.reverse ++ t :: ts), e') ∧ e'.rest = '\n' :: rest := by
  have hrest : Follows (col + 1) col rest := h.mono (by split <;> omega) (Nat.le_refl col)
  induction ts generalizing t fuel e done with
  | nil =>
    obtain ⟨f, rfl⟩ : ∃ f, fuel = f + 1 := ⟨fuel - 1, by omega⟩
    obtain ⟨e', he', hread⟩ := blockItems_item forms f inMapping done ht hcol he
      (follows_items (by simp) hrest) (by omega)
    refine ⟨e', ?_, he'⟩
    rw [hread]
    rcases follows_sequence h he' with hend | ⟨hnext, ⟨hat, hdash, rfl⟩ | hlt⟩
    · simp [hend]
    · simp [hnext.notEnd, hnext.noMarker, hnext.newLine, hat, hdash]
    · simp [hnext.notEnd, hnext.noMarker, hnext.newLine, Nat.ne_of_lt hlt, hlt]
  | cons t' ts ih =>
    obtain ⟨f, rfl⟩ : ∃ f, fuel = f + 1 := ⟨fuel - 1, by omega⟩
    obtain ⟨e', he', hread⟩ := blockItems_item forms f inMapping done ht hcol he
      (follows_items (fun t ht => (hts t ht).1) hrest) (by omega)
    obtain ⟨cs, hcs⟩ := item_eq_space (hts t' List.mem_cons_self).1 col
    simp only [Writer.items, List.append_assoc, List.cons_append, List.length_append,
      List.length_cons] at he' hfuel
    have hline := he'
    rw [hcs, List.cons_append] at hline
    obtain ⟨hnext, hn, hat⟩ := below_dash hline
    rw [← List.cons_append, ← hcs] at hn
    obtain ⟨e'', hread', he''⟩ := ih f (t :: done) (fun t ht => hts t (List.mem_cons_of_mem _ ht))
      (hts t' List.mem_cons_self).2 hat hn (by omega)
    refine ⟨e'', ?_, he''⟩
    have hdash : (e'.skip true).atMark '-' = true := by
      rw [Cursor.atMark, hn, hcs]
      rfl
    rw [hread]
    simp only [hnext.notEnd, hnext.noMarker, hnext.newLine, hat, hdash]
    simpa using hread'

/-! ## Values and items -/

/-- Behind one space a token stands on the same line. -/
theorem skip_behind (tabs : Bool) {cs : List Char} (he : e.rest = ' ' :: c :: cs)
    (h : Mark.isNameChar c = true) :
    (e.skip tabs).atEnd = false ∧ (e.skip tabs).atMarker = false ∧ (e.skip tabs).line = e.line ∧
      (e.skip tabs).rest = c :: cs ∧ (e.skip tabs).col = e.col + 1 := by
  rw [Cursor.skip_space tabs he h]
  refine ⟨?_, ?_, rfl, ?_, rfl⟩ <;>
    simp [Cursor.advance, Cursor.atEnd, Cursor.atMarker, Cursor.atDashes, Cursor.atDots, he]

theorem readsValue_word {w : String} (hw : isBare w = true) : ReadsValue (.word w) := by
  intro forms fuel col e rest he h hfuel
  obtain ⟨x, xs, hx, hbare⟩ := exists_cons_of_isBare hw
  have hvalue : Writer.value col (.word w) = ' ' :: (w.toList ++ ['\n']) := rfl
  simp only [hvalue, List.append_assoc, List.cons_append, List.nil_append, List.length_cons,
    List.length_append, List.length_nil] at he hfuel
  obtain ⟨f, rfl⟩ : ∃ f, fuel = f + 1 := ⟨fuel - 1, by omega⟩
  obtain ⟨hend, hmarker, hline, hat, -⟩ :=
    skip_behind true (by rw [he, hx, List.cons_append]) (isNameChar_of_bare hbare)
  rw [← List.cons_append, ← hx] at hat
  obtain ⟨e', hread, he'⟩ := blockNode_word forms (col + 1) f false hw hat
    (h.mono (Nat.le_refl (col + 1)) (Nat.le_succ col)) (by omega)
  refine ⟨e', ?_, he'⟩
  rw [blockValue]
  simp [hend, hmarker, hline, hread]

theorem readsItem_word {w : String} (hw : isBare w = true) : ReadsItem (.word w) := by
  intro forms fuel col e rest he hcol h hfuel
  obtain ⟨x, xs, hx, hbare⟩ := exists_cons_of_isBare hw
  have hitem : Writer.item col (.word w) = ' ' :: (w.toList ++ ['\n']) := rfl
  simp only [hitem, List.append_assoc, List.cons_append, List.nil_append, List.length_cons,
    List.length_append, List.length_nil] at he hfuel
  obtain ⟨hend, hmarker, hline, hat, -⟩ :=
    skip_behind false (by rw [he, hx, List.cons_append]) (isNameChar_of_bare hbare)
  rw [← List.cons_append, ← hx] at hat
  exact ⟨hend, hmarker, hline, blockNode_word forms _ fuel true hw hat h (by omega)⟩

section Mapping

variable {es : List (Tree × Tree)} (hne : es ≠ []) (hes : ∀ e ∈ es, ReadsEntry e)

include hne hes in
/-- The text of the entries begins with a key. -/
theorem entries_eq_key (col : Nat) (lead : List Char) :
    ∃ x xs, isBareChar x = true ∧ Writer.entries col lead es = lead ++ x :: xs ∧
      Writer.entries col [] es = x :: xs := by
  obtain ⟨entry, es, rfl⟩ := List.exists_cons_of_ne_nil hne
  obtain ⟨key, v⟩ := entry
  obtain ⟨k, rfl, hk, -⟩ := (hes _ List.mem_cons_self).key
  obtain ⟨x, xs, hx, hbare⟩ := exists_cons_of_isBare hk
  exact ⟨x, _, hbare, by rw [Writer.entries_cons, hx, List.cons_append],
    by rw [Writer.entries_cons, hx, List.nil_append, List.cons_append]⟩

include hne hes

theorem readsValue_mapping : ReadsValue (.mapping es) := by
  intro forms fuel col e rest he h hfuel
  obtain ⟨x, xs, hbare, hlead, hkeys⟩ :=
    entries_eq_key hne hes (col + 2) (Writer.indentation (col + 2))
  have hvalue : Writer.value col (.mapping es) =
      '\n' :: Writer.entries (col + 2) (Writer.indentation (col + 2)) es := by
    cases es with
    | nil => exact absurd rfl hne
    | cons entry es => rfl
  simp only [hvalue, hlead, List.append_assoc, List.cons_append, List.length_cons,
    List.length_append] at he hfuel
  obtain ⟨f, rfl⟩ : ∃ f, fuel = f + 1 := ⟨fuel - 1, by omega⟩
  obtain ⟨hbelow, hat, hcol⟩ := below_key hbare he
  rw [← List.cons_append, ← hkeys] at hat
  have hline : (e.skip true).line ≠ e.line := by
    rw [Cursor.skip_line true he (isNameChar_of_bare hbare)]
    exact Nat.succ_ne_self _
  rw [← hcol] at hat hkeys
  have hfollows : Follows (e.skip true).col (e.skip true).col rest := by
    rw [hcol]
    exact h.mono (by omega) (by omega)
  obtain ⟨e', hread, he'⟩ := blockNode_mapping forms (col + 1) f hne hes hfollows hat
    (by rw [hkeys, List.length_cons]; omega)
  refine ⟨e', ?_, he'⟩
  rw [blockValue]
  simp [hbelow.notEnd, hbelow.noMarker, hline, hcol, hread]

theorem readsItem_mapping : ReadsItem (.mapping es) := by
  intro forms fuel col e rest he hcol h hfuel
  obtain ⟨x, xs, hbare, hlead, hkeys⟩ := entries_eq_key hne hes (col + 2) [' ']
  have hitem : Writer.item col (.mapping es) = Writer.entries (col + 2) [' '] es := by
    cases es with
    | nil => exact absurd rfl hne
    | cons entry es => rfl
  simp only [hitem, hlead, List.cons_append, List.nil_append, List.length_cons] at he hfuel
  obtain ⟨hend, hmarker, hline, hat, hcol'⟩ := skip_behind false he (isNameChar_of_bare hbare)
  rw [← List.cons_append, ← hkeys] at hat
  have hcol₂ : (e.skip false).col = col + 2 := by rw [hcol', hcol]
  refine ⟨hend, hmarker, hline, blockNode_mapping forms _ fuel hne hes ?_ ?_ ?_⟩
  · rw [hcol₂]
    exact h.mono (by omega) (by omega)
  · rw [hcol₂]
    exact hat
  · rw [hcol₂, hkeys, List.length_cons]
    omega

end Mapping

section Sequence

variable {ts : List Tree} (hne : ts ≠ []) (hts : ∀ t ∈ ts, Bare t ∧ ReadsItem t)

include hne hts

theorem readsValue_sequence : ReadsValue (.sequence ts) := by
  intro forms fuel col e rest he h hfuel
  obtain ⟨t, ts, rfl⟩ := List.exists_cons_of_ne_nil hne
  obtain ⟨cs, hcs⟩ := item_eq_space (hts t List.mem_cons_self).1 col
  have hvalue : Writer.value col (.sequence (t :: ts)) = '\n' :: (Writer.indentation col ++
      '-' :: (Writer.item col t ++ Writer.items col (Writer.indentation col) ts)) := rfl
  simp only [hvalue, List.append_assoc, List.cons_append, List.length_cons,
    List.length_append] at he hfuel
  obtain ⟨f, rfl⟩ : ∃ f, fuel = f + 1 := ⟨fuel - 1, by omega⟩
  have hdash := he
  rw [hcs, List.cons_append] at hdash
  obtain ⟨hbelow, hat, hcol⟩ := below_dash hdash
  have hline : (e.skip true).line ≠ e.line := by
    rw [Cursor.skip_line true he (by decide)]
    exact Nat.succ_ne_self _
  have hmark : (e.skip true).atMark '-' = true := by
    rw [Cursor.atMark, hat]
    rfl
  rw [← List.cons_append, ← hcs] at hat
  obtain ⟨e', hread, he'⟩ := blockItems_items forms f true []
    (fun t ht => hts t (List.mem_cons_of_mem _ ht)) (hts t List.mem_cons_self).2 hcol h hat
    (by omega)
  refine ⟨e', ?_, he'⟩
  rw [blockValue]
  simpa [hbelow.notEnd, hbelow.noMarker, hline, hcol, hmark] using hread

theorem readsItem_sequence : ReadsItem (.sequence ts) := by
  intro forms fuel col e rest he hcol h hfuel
  obtain ⟨t, ts, rfl⟩ := List.exists_cons_of_ne_nil hne
  obtain ⟨cs, hcs⟩ := item_eq_space (hts t List.mem_cons_self).1 (col + 2)
  have hitem : Writer.item col (.sequence (t :: ts)) = ' ' :: '-' ::
      (Writer.item (col + 2) t ++ Writer.items (col + 2) (Writer.indentation (col + 2)) ts) := rfl
  simp only [hitem, List.append_assoc, List.cons_append, List.length_cons,
    List.length_append] at he hfuel
  obtain ⟨f, rfl⟩ : ∃ f, fuel = f + 1 := ⟨fuel - 1, by omega⟩
  obtain ⟨hend, hmarker, hline, hat, hcol'⟩ := skip_behind false he (by decide)
  have hcol₂ : (e.skip false).col = col + 2 := by rw [hcol', hcol]
  have hmark : (e.skip false).atMark '-' = true := by
    rw [Cursor.atMark, hat, hcs]
    rfl
  obtain ⟨e', hread, he'⟩ := blockItems_items forms f false []
    (fun t ht => hts t (List.mem_cons_of_mem _ ht)) (hts t List.mem_cons_self).2 hcol₂
    (h.mono (by simp) (by omega)) hat (by omega)
  refine ⟨hend, hmarker, hline, e', ?_, he'⟩
  rw [blockNode]
  simpa [hmark, hcol₂] using hread

end Sequence

/-- What has been written without marks is read as it was, behind a colon and behind a dash. -/
theorem reads_of_bare {t : Tree} (h : Bare t) : ReadsValue t ∧ ReadsItem t := by
  induction h with
  | word hw => exact ⟨readsValue_word hw, readsItem_word hw⟩
  | @mapping es hne hkeys hvalues ih =>
    have hes : ∀ e ∈ es, ReadsEntry e := fun e he => ⟨hkeys e he, hvalues e he, (ih e he).1⟩
    exact ⟨readsValue_mapping hne hes, readsItem_mapping hne hes⟩
  | @sequence ts hne hitems ih =>
    have hts : ∀ t ∈ ts, Bare t ∧ ReadsItem t := fun t ht => ⟨hitems t ht, (ih t ht).2⟩
    exact ⟨readsValue_sequence hne hts, readsItem_sequence hne hts⟩

/-! ## Documents -/

/-- Where the whole text is one part, and does not begin like anything else, that is the
document. -/
theorem document_eq {cs : List Char} (hc : Mark.isNameChar c = true)
    (hmarker : (Cursor.start (c :: cs)).atMarker = false) {t : Tree} {e : Cursor}
    (hread : blockNode Mark.standardForms 0 true (steps (c :: cs)) (Cursor.start (c :: cs)) =
      some (t, e)) (he : e.rest = ['\n']) : document (c :: cs) = some t := by
  have hrest : (Cursor.start (c :: cs)).rest = c :: cs := rfl
  have hskip : (Cursor.start (c :: cs)).skip false = Cursor.start (c :: cs) :=
    Cursor.skipFrom_name false hc cs 0 0 0
  have hbom := Cursor.isAt_eq_false hrest hc (x := '\ufeff') (by decide)
  have hpercent := Cursor.isAt_eq_false hrest hc (x := '%') (by decide)
  obtain ⟨hdashes, hdots⟩ : (Cursor.start (c :: cs)).atDashes = false ∧
      (Cursor.start (c :: cs)).atDots = false := by simpa [Cursor.atMarker] using hmarker
  have hdeclared : Mark.directives (steps (c :: cs)) {} (Cursor.start (c :: cs)) =
      some ({}, Cursor.start (c :: cs)) := by
    rw [steps, Mark.directives]
    simp [hpercent]
  have hroot : root Mark.standardForms true (steps (c :: cs)) (Cursor.start (c :: cs)) =
      some (t, e) := by
    have hend : (Cursor.start (c :: cs)).atEnd = false := rfl
    rw [root]
    simp [hskip, hend, hmarker, hpercent, hread]
  have hafter : nothingFollows (steps (c :: cs)) (e.skip true) = true := by
    have hend : (e.skip true).atEnd = true := by
      rw [Cursor.skip, he]
      rfl
    rw [steps, nothingFollows]
    simp [hend]
  simp [document, hbom, hskip, hdeclared, hdashes, hdots, hroot, hafter]

theorem document_word {w : String} (hw : isBare w = true) :
    document (Writer.document (.word w)) = some (.word w) := by
  obtain ⟨x, xs, hx, hbare⟩ := exists_cons_of_isBare hw
  have hdocument : Writer.document (.word w) = x :: (xs ++ ['\n']) := by
    show w.toList ++ ['\n'] = _
    rw [hx, List.cons_append]
  have hstart : (Cursor.start (x :: (xs ++ ['\n']))).rest = w.toList ++ '\n' :: [] := by
    rw [hx]
    rfl
  obtain ⟨e, hread, he⟩ := blockNode_word Mark.standardForms 0 (steps (x :: (xs ++ ['\n']))) true
    hw hstart .nothing (by simp [steps])
  rw [hdocument]
  exact document_eq (isNameChar_of_bare hbare) (Cursor.atMarker_of_bare rfl hbare) hread he

theorem document_mapping {es : List (Tree × Tree)} (hne : es ≠ [])
    (hes : ∀ e ∈ es, ReadsEntry e) :
    document (Writer.document (.mapping es)) = some (.mapping es) := by
  obtain ⟨x, xs, hbare, -, htext⟩ := entries_eq_key hne hes 0 []
  have hdocument : Writer.document (.mapping es) = x :: xs := by
    rw [← htext]
    cases es with
    | nil => exact absurd rfl hne
    | cons entry es => rfl
  have hstart : (Cursor.start (x :: xs)).rest =
      Writer.entries (Cursor.start (x :: xs)).col [] es ++ [] := by
    rw [List.append_nil]
    exact htext.symm
  have hlength : 2 * (Writer.entries 0 [] es).length ≤ steps (x :: xs) := by
    rw [htext, steps]
    omega
  obtain ⟨e, hread, he⟩ :=
    blockNode_mapping Mark.standardForms 0 (steps (x :: xs)) hne hes .nothing hstart hlength
  rw [hdocument]
  exact document_eq (isNameChar_of_bare hbare) (Cursor.atMarker_of_bare rfl hbare) hread he

theorem document_sequence {ts : List Tree} (hne : ts ≠ []) (hts : ∀ t ∈ ts, Bare t ∧ ReadsItem t) :
    document (Writer.document (.sequence ts)) = some (.sequence ts) := by
  obtain ⟨t, ts, rfl⟩ := List.exists_cons_of_ne_nil hne
  obtain ⟨cs, hcs⟩ := item_eq_space (hts t List.mem_cons_self).1 0
  obtain ⟨behind, hbehind⟩ : ∃ behind, behind = cs ++ Writer.items 0 (Writer.indentation 0) ts :=
    ⟨_, rfl⟩
  have hdocument : Writer.document (.sequence (t :: ts)) = '-' :: ' ' :: behind := by
    show '-' :: (Writer.item 0 t ++ _) = _
    rw [hcs, hbehind, List.cons_append]
  have hstart : (Cursor.start ('-' :: ' ' :: behind)).rest =
      '-' :: (Writer.item 0 t ++ (Writer.items 0 (Writer.indentation 0) ts ++ [])) := by
    rw [hcs, List.append_nil, List.cons_append, ← hbehind]
    rfl
  have hlength : (Writer.item 0 t).length + (Writer.items 0 (Writer.indentation 0) ts).length =
      behind.length + 1 := by
    rw [hcs, hbehind, List.length_cons, List.length_append]
    omega
  have hcol : (Cursor.start ('-' :: ' ' :: behind)).col = 0 := rfl
  obtain ⟨e, hread, he⟩ := blockItems_items Mark.standardForms (8 * (behind.length + 2) + 63) false
    [] (fun t ht => hts t (List.mem_cons_of_mem _ ht)) (hts t List.mem_cons_self).2 hcol .nothing
    hstart (by omega)
  have hnode : blockNode Mark.standardForms 0 true (steps ('-' :: ' ' :: behind))
      (Cursor.start ('-' :: ' ' :: behind)) = some (.sequence (t :: ts), e) := by
    have hmark : (Cursor.start ('-' :: ' ' :: behind)).atMark '-' = true := rfl
    rw [show steps ('-' :: ' ' :: behind) = 8 * (behind.length + 2) + 63 + 1 from rfl, blockNode]
    simpa [hmark, hcol] using hread
  rw [hdocument]
  exact document_eq (by decide) (Cursor.atMarker_of_dash rfl) hnode he

/-- A document without marks is read as it has been written. -/
theorem document_write {t : Tree} (h : Bare t) : document (Writer.document t) = some t := by
  cases h with
  | word hw => exact document_word hw
  | mapping hne hkeys hvalues =>
    exact document_mapping hne fun e he =>
      ⟨hkeys e he, hvalues e he, (reads_of_bare (hvalues e he)).1⟩
  | sequence hne hitems =>
    exact document_sequence hne fun t ht => ⟨hitems t ht, (reads_of_bare (hitems t ht)).2⟩

end Reader

end Yaml

end KeyReserve
