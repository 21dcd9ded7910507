import KeyReserve.Proofs.BlockLayout

/-!
# Reading back what is written

Trees without marks consist of characters that any document may have, and none of them is a break
that is written in another way. Such trees have no names for parts either. So reading a document
brings the tree that it was written from.

## Main results

* `Yaml.read_write`: a tree without marks is read from what is written of it;
* `Yaml.unsigned?_toString`: so is a number from its digits.
-/

namespace KeyReserve

namespace Yaml

/-! ## Characters -/

/-- Characters of which written documents consist. -/
def isWrittenChar (c : Char) : Bool := Mark.isNameChar c || c = ' ' || c = ':' || c = '\n'

theorem all_written_of_isBare {w : String} (hw : isBare w = true) :
    w.toList.all isWrittenChar = true := by
  refine List.all_eq_true.2 fun x hx => ?_
  simp [isWrittenChar, isNameChar_of_bare (isBareChar_of_mem hw x hx)]

theorem all_written_indentation (col : Nat) :
    (Writer.indentation col).all isWrittenChar = true := by
  simp [Writer.indentation, isWrittenChar]

namespace Writer

theorem all_written_entries {es : List (Tree × Tree)} (hkeys : ∀ e ∈ es, BareKey e.1)
    (hvalues : ∀ e ∈ es, ∀ col, (value col e.2).all isWrittenChar = true) (col : Nat)
    {lead : List Char} (hlead : lead.all isWrittenChar = true) :
    (entries col lead es).all isWrittenChar = true := by
  induction es generalizing lead with
  | nil => rfl
  | cons e es ih =>
    obtain ⟨key, v⟩ := e
    obtain ⟨k, rfl, hk, -⟩ := hkeys _ List.mem_cons_self
    have hlater := ih (fun e he => hkeys e (List.mem_cons_of_mem _ he))
      (fun e he => hvalues e (List.mem_cons_of_mem _ he)) (all_written_indentation col)
    have hv := hvalues _ List.mem_cons_self col
    have hcolon : isWrittenChar ':' = true := by decide
    simp only [entries_cons, List.all_append, List.all_cons, hlead, all_written_of_isBare hk,
      hcolon, hv, hlater, Bool.and_self]

theorem all_written_items {ts : List Tree}
    (hitems : ∀ t ∈ ts, ∀ col, (item col t).all isWrittenChar = true) (col : Nat)
    {lead : List Char} (hlead : lead.all isWrittenChar = true) :
    (items col lead ts).all isWrittenChar = true := by
  induction ts generalizing lead with
  | nil => rfl
  | cons t ts ih =>
    have hlater := ih (fun t ht => hitems t (List.mem_cons_of_mem _ ht))
      (all_written_indentation col)
    have ht := hitems _ List.mem_cons_self col
    have hdash : isWrittenChar '-' = true := by decide
    simp only [items, List.all_append, List.all_cons, hlead, hdash, ht, hlater, Bool.and_self]

theorem all_written {t : Tree} (h : Bare t) :
    (∀ col, (value col t).all isWrittenChar = true) ∧
      ∀ col, (item col t).all isWrittenChar = true := by
  have hbreak : isWrittenChar '\n' = true := by decide
  have hspace : isWrittenChar ' ' = true := by decide
  induction h with
  | @word w hw =>
    have hall := all_written_of_isBare hw
    have hline : (' ' :: (w.toList ++ ['\n'])).all isWrittenChar = true := by
      simp only [List.all_cons, List.all_append, List.all_nil, hall, hbreak, hspace, Bool.and_self]
    exact ⟨fun _ => hline, fun _ => hline⟩
  | @mapping es hne hkeys hvalues ih =>
    obtain ⟨e, es, rfl⟩ := List.exists_cons_of_ne_nil hne
    have hentries := fun col (lead : List Char) (hlead : lead.all isWrittenChar = true) =>
      all_written_entries hkeys (fun e he => (ih e he).1) col hlead
    constructor <;> intro col
    · simp only [value, List.all_cons, hbreak, hentries _ _ (all_written_indentation _),
        Bool.and_self]
    · exact hentries _ [' '] (by simp [hspace])
  | @sequence ts hne hitems ih =>
    obtain ⟨t, ts, rfl⟩ := List.exists_cons_of_ne_nil hne
    have hall := fun col (lead : List Char) (hlead : lead.all isWrittenChar = true) =>
      all_written_items (fun t ht => (ih t ht).2) col hlead
    constructor <;> intro col
    · simp only [value, List.all_cons, hbreak, hall _ _ (all_written_indentation _), Bool.and_self]
    · exact hall _ [' '] (by simp [hspace])

theorem all_written_document {t : Tree} (h : Bare t) :
    (document t).all isWrittenChar = true := by
  cases h with
  | word hw =>
    have hbreak : isWrittenChar '\n' = true := by decide
    simp only [document, Tree.word, scalarText, List.all_append, all_written_of_isBare hw,
      List.all_cons, hbreak, List.all_nil, Bool.and_self]
  | mapping hne hkeys hvalues =>
    obtain ⟨e, es, rfl⟩ := List.exists_cons_of_ne_nil hne
    exact all_written_entries hkeys (fun e he => (all_written (hvalues e he)).1) 0 rfl
  | sequence hne hitems =>
    obtain ⟨t, ts, rfl⟩ := List.exists_cons_of_ne_nil hne
    exact all_written_items (fun t ht => (all_written (hitems t ht)).2) 0 rfl

end Writer

/-- Written characters are kept as they are. -/
theorem normalizeBreaks_eq_self {cs : List Char} (h : cs.all isWrittenChar = true) :
    normalizeBreaks cs = cs := by
  induction cs with
  | nil => rfl
  | cons c cs ih =>
    simp only [List.all_cons, Bool.and_eq_true] at h
    have hreturn : c ≠ '\r' := by
      rintro rfl
      exact absurd h.1 (by decide)
    have hnext : c ≠ '\u0085' := by
      rintro rfl
      exact absurd h.1 (by decide)
    rw [normalizeBreaks, ih h.2]
    · simp [hreturn, hnext]
    · simp [hreturn]

/-- What lies in a range of printed characters may stand in a document. -/
theorem isAllowed_of_range {c : Char} {low high : UInt32} (hlow : 32 ≤ low) (hhigh : high ≤ 126)
    (h : low ≤ c.val ∧ c.val ≤ high) : isAllowed c = true := by
  have hprinted : ' ' ≤ c ∧ c ≤ '~' := ⟨UInt32.le_trans hlow h.1, UInt32.le_trans h.2 hhigh⟩
  simp [isAllowed, hprinted]

theorem isAllowed_of_isAlphanum {c : Char} (h : c.isAlphanum = true) : isAllowed c = true := by
  have hboth : ∀ {low high : UInt32}, (decide (low ≤ c.val) && decide (c.val ≤ high)) = true →
      low ≤ c.val ∧ c.val ≤ high := fun h => by simpa using h
  rcases Bool.or_eq_true_iff.1 h with hletter | hdigit
  · rcases Bool.or_eq_true_iff.1 hletter with hupper | hlower
    · exact isAllowed_of_range (by decide) (by decide) (of_decide_eq_true hupper)
    · exact isAllowed_of_range (by decide) (by decide) (hboth hlower)
  · exact isAllowed_of_range (by decide) (by decide) (hboth hdigit)

theorem isAllowed_of_written {c : Char} (h : isWrittenChar c = true) : isAllowed c = true := by
  simp only [isWrittenChar, Mark.isNameChar, Bool.or_eq_true, decide_eq_true_eq] at h
  rcases h with ((((h | rfl) | rfl) | rfl) | rfl) | rfl
  · exact isAllowed_of_isAlphanum h
  all_goals decide

/-! ## Names of parts -/

namespace Tree

variable {named : List (String × Tree)}

theorem resolveItems_eq_self {ts : List Tree} (h : ∀ t ∈ ts, t.resolve named = some (t, named)) :
    resolveItems named ts = some (ts, named) := by
  induction ts with
  | nil => rfl
  | cons t ts ih =>
    rw [resolveItems, h t List.mem_cons_self]
    simp [ih fun t ht => h t (List.mem_cons_of_mem _ ht)]

theorem resolveEntries_eq_self {es : List (Tree × Tree)} (hkeys : ∀ e ∈ es, BareKey e.1)
    (h : ∀ e ∈ es, e.2.resolve named = some (e.2, named)) :
    resolveEntries named es = some (es, named) := by
  induction es with
  | nil => rfl
  | cons e es ih =>
    obtain ⟨key, v⟩ := e
    obtain ⟨k, rfl, -, -⟩ := hkeys _ List.mem_cons_self
    have hk : (word k).resolve named = some (word k, named) := rfl
    rw [resolveEntries, hk]
    simp [h _ List.mem_cons_self, ih (fun e he => hkeys e (List.mem_cons_of_mem _ he))
      fun e he => h e (List.mem_cons_of_mem _ he)]

/-- Where no names for parts are used there is nothing to resolve. -/
theorem resolve_of_bare {t : Tree} (h : Bare t) : t.resolve named = some (t, named) := by
  induction h with
  | word hw => rfl
  | mapping hne hkeys hvalues ih =>
    rw [resolve, resolveEntries_eq_self hkeys ih]
    rfl
  | sequence hne hitems ih =>
    rw [resolve, resolveItems_eq_self ih]
    rfl

end Tree

/-! ## Documents -/

/-- Whatever can be written without marks is read from what is written as it was. -/
theorem read_write {t : Tree} (h : Bare t) : read (write t) = some t := by
  have hall := Writer.all_written_document h
  have hallowed : (Writer.document t).all isAllowed = true :=
    List.all_eq_true.2 fun c hc => isAllowed_of_written (List.all_eq_true.1 hall c hc)
  rw [read, write, String.toList_ofList]
  simp [hallowed, normalizeBreaks_eq_self hall, Reader.document_write h, Tree.resolve_of_bare h]

/-! ## Numbers -/

theorem digitsFrom_ten {cs : List Char} (h : ∀ c ∈ cs, c.isDigit = true) (n : Nat) :
    digitsFrom 10 n cs = some (Nat.ofDigitChars 10 cs n) := by
  induction cs generalizing n with
  | nil => rfl
  | cons c cs ih =>
    have hc := h c List.mem_cons_self
    have hlt : c.toNat - '0'.toNat < 10 := by
      simp only [Char.isDigit, Bool.and_eq_true, decide_eq_true_eq, ge_iff_le,
        UInt32.le_iff_toNat_le] at hc
      change 48 ≤ c.toNat ∧ c.toNat ≤ 57 at hc
      show c.toNat - 48 < 10
      omega
    rw [digitsFrom, digit?, if_pos hc]
    simp only [hlt, if_true, ih fun c hc => h c (List.mem_cons_of_mem _ hc), Nat.ofDigitChars_cons]

/-- The digits of a positive number do not begin with a zero. -/
theorem toDigits_ne_zero {n : Nat} (hn : 0 < n) (cs : List Char) :
    Nat.toDigits 10 n ≠ '0' :: cs := by
  induction n using Nat.strongRecOn generalizing cs with
  | _ n ih =>
    rw [Nat.toDigits_eq_if (by decide)]
    split
    · intro h
      have := (List.cons.inj h).1
      rw [Nat.digitChar_eq_zero] at this
      omega
    · have hpos : 0 < n / 10 := by omega
      cases hd : Nat.toDigits 10 (n / 10) with
      | nil => exact absurd hd Nat.toDigits_ne_nil
      | cons d ds =>
        intro h
        have hd0 : d = '0' := (List.cons.inj h).1
        exact ih (n / 10) (by omega) hpos ds (hd0 ▸ hd)

/-- Digits that do not begin with a needless zero are read in base ten. -/
theorem unsigned?_of_lead {text : String} {c : Char} {cs : List Char}
    (htext : text.toList = c :: cs) (hplus : c ≠ '+') (hzero : c = '0' → cs = []) :
    unsigned? text = digits? 10 (c :: cs) := by
  have hmarked : ∀ d ds, c :: cs ≠ '0' :: d :: ds := by
    intro d ds h
    obtain ⟨rfl, rfl⟩ := List.cons.inj h
    exact absurd (hzero rfl) (List.cons_ne_nil d ds)
  unfold unsigned?
  rw [htext]
  split
  · rename_i h
    exact absurd (List.cons.inj h).1 hplus
  · simp only
    split
    · rename_i h
      exact absurd h (hmarked _ _)
    · rename_i h
      exact absurd h (hmarked _ _)
    · rename_i h
      exact absurd h (hmarked _ _)
    · rename_i h
      exact absurd h (hmarked _ _)
    · rfl

theorem toList_toString (n : UInt64) : (toString n).toList = Nat.toDigits 10 n.toNat :=
  Nat.toList_repr

/-- A number is read from its digits. -/
theorem unsigned?_toString (n : UInt64) : unsigned? (toString n) = some n := by
  have htext := toList_toString n
  have hdigits : ∀ c ∈ Nat.toDigits 10 n.toNat, c.isDigit = true :=
    fun c hc => Nat.isDigit_of_mem_toDigits (by decide) (by decide) hc
  have hread : digits? 10 (Nat.toDigits 10 n.toNat) = some n := by
    have hne : (Nat.toDigits 10 n.toNat).isEmpty = false := by
      simp [Nat.toDigits_ne_nil]
    rw [digits?, hne, digitsFrom_ten hdigits, Nat.ofDigitChars_ten_toDigits]
    simp [n.toNat_lt_size]
  cases hd : Nat.toDigits 10 n.toNat with
  | nil => exact absurd hd Nat.toDigits_ne_nil
  | cons c cs =>
    rw [hd] at htext hdigits hread
    rw [unsigned?_of_lead htext ?_ ?_, hread]
    · rintro rfl
      exact absurd (hdigits _ List.mem_cons_self) (by decide)
    · rintro rfl
      have hn : n.toNat = 0 := Nat.eq_zero_of_not_pos fun hpos => toDigits_ne_zero hpos cs hd
      rw [hn] at hd
      cases hd
      rfl

end Yaml

end KeyReserve
