/-!
# Finite maps in key order

A `Table` keeps its entries in ascending order of their keys, so equal maps are equal values and a
walk over the entries has one order.

## Main definitions

* `Ranked`: keys with an injective position among the natural numbers;
* `Table`, `Table.find?`, `Table.insert`, `Table.erase`, `Table.filter`.

## Main results

* `Table.find?_insert`, `Table.find?_erase`: what the table holds after a change;
* `Table.mem_entries_iff`: an entry is in the list exactly when its key is found with that value;
* `Table.ext_find?`: tables that find the same are equal.
-/

namespace KeyReserve

/-- Keys that have a position of their own, by which they are ordered. -/
class Ranked (κ : Type) where
  /-- The position of a key. -/
  rank : κ → Nat
  /-- No two keys share a position. -/
  rank_inj : ∀ {a b : κ}, rank a = rank b → a = b

export Ranked (rank)

/-- A finite map, its entries in ascending order of key. -/
structure Table (κ ν : Type) [Ranked κ] where
  /-- The entries, the least key first. -/
  entries : List (κ × ν)
  /-- Keys ascend, so none occurs twice. -/
  ascending : entries.Pairwise (fun a b => rank a.1 < rank b.1)

namespace Table

variable {κ ν : Type} [Ranked κ]

/-- The table with no entry. -/
def empty : Table κ ν := ⟨[], .nil⟩

instance : Inhabited (Table κ ν) := ⟨empty⟩

/-- The number of entries. -/
def size (t : Table κ ν) : Nat := t.entries.length

def isEmpty (t : Table κ ν) : Bool := t.entries.isEmpty

/-- The keys, in ascending order. -/
def keys (t : Table κ ν) : List κ := t.entries.map (·.1)

/-- The value under a key. -/
def find? (t : Table κ ν) (k : κ) : Option ν :=
  (t.entries.find? (fun e => rank e.1 == rank k)).map (·.2)

/-- Whether a key has a value. -/
def contains (t : Table κ ν) (k : κ) : Bool := (t.find? k).isSome

/-- Entries that satisfy a test on key and value. -/
def filter (t : Table κ ν) (p : κ → ν → Bool) : Table κ ν :=
  ⟨t.entries.filter (fun e => p e.1 e.2), t.ascending.filter _⟩

/-- The table without a key. -/
def erase (t : Table κ ν) (k : κ) : Table κ ν := t.filter (fun k' _ => rank k' != rank k)

/-- Places an entry among ascending ones, instead of an earlier entry of its key. -/
def place (k : κ) (v : ν) : List (κ × ν) → List (κ × ν)
  | [] => [(k, v)]
  | e :: es =>
    if rank k < rank e.1 then (k, v) :: e :: es
    else if rank k = rank e.1 then (k, v) :: es
    else e :: place k v es

theorem mem_place {k : κ} {v : ν} {es : List (κ × ν)} {x : κ × ν} (h : x ∈ place k v es) :
    x = (k, v) ∨ x ∈ es := by
  induction es with
  | nil => simpa [place] using h
  | cons e es ih =>
    simp only [place] at h
    split at h
    · simpa using h
    · split at h
      · rcases List.mem_cons.1 h with h | h
        · exact .inl h
        · exact .inr (List.mem_cons_of_mem _ h)
      · rcases List.mem_cons.1 h with h | h
        · exact .inr (h ▸ List.mem_cons_self)
        · exact (ih h).imp_right (List.mem_cons_of_mem _)

theorem pairwise_place {k : κ} {v : ν} {es : List (κ × ν)}
    (h : es.Pairwise (fun a b => rank a.1 < rank b.1)) :
    (place k v es).Pairwise (fun a b => rank a.1 < rank b.1) := by
  induction es with
  | nil => simp [place]
  | cons e es ih =>
    obtain ⟨he, hes⟩ := List.pairwise_cons.1 h
    simp only [place]
    split
    · rename_i hk
      refine List.pairwise_cons.2 ⟨?_, h⟩
      intro x hx
      rcases List.mem_cons.1 hx with rfl | hx
      · exact hk
      · exact Nat.lt_trans hk (he x hx)
    · split
      · rename_i hk
        exact List.pairwise_cons.2 ⟨fun x hx => hk ▸ he x hx, hes⟩
      · rename_i hlt hne
        refine List.pairwise_cons.2 ⟨?_, ih hes⟩
        intro x hx
        rcases mem_place hx with rfl | hx
        · show rank e.1 < rank k
          omega
        · exact he x hx

/-- The table with a value under a key, in place of any other under it. -/
def insert (t : Table κ ν) (k : κ) (v : ν) : Table κ ν :=
  ⟨place k v t.entries, pairwise_place t.ascending⟩

/-! ## What a table finds -/

theorem find?_eq_some_iff {t : Table κ ν} {k : κ} {v : ν} :
    t.find? k = some v ↔ (k, v) ∈ t.entries := by
  obtain ⟨es, h⟩ := t
  simp only [find?]
  induction es with
  | nil => simp
  | cons e es ih =>
    obtain ⟨he, hes⟩ := List.pairwise_cons.1 h
    by_cases hk : rank e.1 = rank k
    · have : e.1 = k := Ranked.rank_inj hk
      obtain ⟨k', v'⟩ := e
      simp only at this
      subst this
      have hnot : (k', v) ∉ es := fun hm => Nat.lt_irrefl _ (he (k', v) hm)
      simp [hnot, eq_comm]
    · have hne : (k, v) ≠ e := fun h => hk (h ▸ rfl)
      rw [List.find?_cons_of_neg (by simpa using hk), ih hes]
      simp [hne]

theorem mem_entries_iff {t : Table κ ν} {e : κ × ν} :
    e ∈ t.entries ↔ t.find? e.1 = some e.2 := find?_eq_some_iff.symm

theorem contains_eq_isSome (t : Table κ ν) (k : κ) : t.contains k = (t.find? k).isSome := rfl

theorem mem_keys_iff {t : Table κ ν} {k : κ} : k ∈ t.keys ↔ (t.find? k).isSome := by
  simp only [keys, List.mem_map, Option.isSome_iff_exists, find?_eq_some_iff]
  exact ⟨fun ⟨e, he, hk⟩ => ⟨e.2, hk ▸ he⟩, fun ⟨v, hv⟩ => ⟨(k, v), hv, rfl⟩⟩

theorem find?_empty (k : κ) : (empty : Table κ ν).find? k = none := rfl

theorem find?_filter (t : Table κ ν) (p : κ → ν → Bool) (k : κ) :
    (t.filter p).find? k = (t.find? k).filter (p k) := by
  apply Option.ext
  intro v
  simp only [find?_eq_some_iff, filter, List.mem_filter, Option.filter_eq_some_iff]

theorem find?_filter_of_pos {t : Table κ ν} {p : κ → ν → Bool} {k : κ} (h : ∀ v, p k v = true) :
    (t.filter p).find? k = t.find? k := by
  rw [find?_filter]
  cases t.find? k with
  | none => rfl
  | some v => exact if_pos (h v)

theorem find?_erase (t : Table κ ν) (k j : κ) [DecidableEq κ] :
    (t.erase k).find? j = if j = k then none else t.find? j := by
  rw [erase, find?_filter]
  by_cases h : j = k
  · subst h
    cases t.find? j <;> simp
  · have : rank j ≠ rank k := fun hr => h (Ranked.rank_inj hr)
    cases t.find? j <;> simp [h, this]

theorem mem_place_iff {k : κ} {v : ν} {es : List (κ × ν)}
    (h : es.Pairwise (fun a b => rank a.1 < rank b.1)) {x : κ × ν} :
    x ∈ place k v es ↔ x = (k, v) ∨ (rank x.1 ≠ rank k ∧ x ∈ es) := by
  induction es with
  | nil => simp [place]
  | cons e es ih =>
    obtain ⟨he, hes⟩ := List.pairwise_cons.1 h
    simp only [place]
    split
    · rename_i hk
      have : ∀ y ∈ e :: es, rank k < rank y.1 := fun y hy => by
        rcases List.mem_cons.1 hy with rfl | hy
        · exact hk
        · exact Nat.lt_trans hk (he y hy)
      rw [List.mem_cons]
      exact or_congr_right ⟨fun hx => ⟨(Nat.ne_of_lt (this x hx)).symm, hx⟩, And.right⟩
    · split
      · rename_i hk
        rw [List.mem_cons, List.mem_cons]
        refine or_congr_right ⟨fun hx => ⟨?_, .inr hx⟩, ?_⟩
        · exact hk ▸ (Nat.ne_of_lt (he x hx)).symm
        · rintro ⟨hne, rfl | hx⟩
          · exact absurd hk.symm hne
          · exact hx
      · rename_i hlt hne
        rw [List.mem_cons, ih hes, List.mem_cons]
        constructor
        · rintro (rfl | hx | ⟨h1, h2⟩)
          · exact .inr ⟨fun h => hne h.symm, .inl rfl⟩
          · exact .inl hx
          · exact .inr ⟨h1, .inr h2⟩
        · rintro (hx | ⟨h1, rfl | h2⟩)
          · exact .inr (.inl hx)
          · exact .inl rfl
          · exact .inr (.inr ⟨h1, h2⟩)

theorem find?_insert (t : Table κ ν) (k j : κ) (v : ν) [DecidableEq κ] :
    (t.insert k v).find? j = if j = k then some v else t.find? j := by
  apply Option.ext
  intro w
  rw [find?_eq_some_iff, insert, mem_place_iff t.ascending]
  by_cases h : j = k
  · subst h
    simp [eq_comm]
  · have : rank j ≠ rank k := fun hr => h (Ranked.rank_inj hr)
    simp [h, this, find?_eq_some_iff]

/-! ## One list of entries for each map -/

theorem ext_entries {t u : Table κ ν} (h : t.entries = u.entries) : t = u := by
  cases t; cases u; cases h; rfl

theorem ext_find? {t u : Table κ ν} (h : ∀ k, t.find? k = u.find? k) : t = u := by
  have hmem : ∀ e, e ∈ t.entries ↔ e ∈ u.entries := fun e => by
    rw [mem_entries_iff, mem_entries_iff, h]
  apply ext_entries
  obtain ⟨es, ht⟩ := t
  obtain ⟨fs, hu⟩ := u
  simp only at hmem
  show es = fs
  clear h
  induction es generalizing fs with
  | nil =>
    cases fs with
    | nil => rfl
    | cons f fs => simpa using hmem f
  | cons e es ih =>
    cases fs with
    | nil => simpa using hmem e
    | cons f fs =>
      obtain ⟨he, hes⟩ := List.pairwise_cons.1 ht
      obtain ⟨hf, hfs⟩ := List.pairwise_cons.1 hu
      have hef : e = f := by
        rcases List.mem_cons.1 ((hmem e).1 List.mem_cons_self) with h1 | h1
        · exact h1
        rcases List.mem_cons.1 ((hmem f).2 List.mem_cons_self) with h2 | h2
        · exact h2.symm
        · exact absurd (Nat.lt_trans (hf e h1) (he f h2)) (Nat.lt_irrefl _)
      subst hef
      congr 1
      refine ih hes fs hfs ?_
      intro x
      constructor <;> intro hx
      · rcases List.mem_cons.1 ((hmem x).1 (List.mem_cons_of_mem _ hx)) with h1 | h1
        · exact absurd (h1 ▸ he x hx) (Nat.lt_irrefl _)
        · exact h1
      · rcases List.mem_cons.1 ((hmem x).2 (List.mem_cons_of_mem _ hx)) with h1 | h1
        · exact absurd (h1 ▸ hf x hx) (Nat.lt_irrefl _)
        · exact h1

theorem eq_empty {t : Table κ ν} (h : ∀ k v, t.find? k ≠ some v) : t = .empty :=
  ext_find? fun k => Option.eq_none_iff_forall_ne_some.2 (h k)

/-- A test that every entry passes takes none out. -/
theorem filter_eq_self {t : Table κ ν} {p : κ → ν → Bool}
    (h : ∀ k v, t.find? k = some v → p k v = true) : t.filter p = t :=
  ext_entries (List.filter_eq_self.2 fun e he => h e.1 e.2 (mem_entries_iff.1 he))

/-- Of two tests the order does not matter, and neither does whether they are made at once. -/
theorem filter_filter (t : Table κ ν) (p q : κ → ν → Bool) :
    (t.filter p).filter q = t.filter fun k v => q k v && p k v :=
  ext_entries List.filter_filter

/-- What was under a key does not matter once another value is. -/
theorem filter_insert_filter [DecidableEq κ] (t : Table κ ν) (p : κ → ν → Bool) (k : κ) (v : ν) :
    ((t.filter p).insert k v).filter p = (t.insert k v).filter p := by
  refine ext_find? fun j => ?_
  simp only [find?_filter, find?_insert]
  split
  · rfl
  · simp [Option.filter_filter]

theorem erase_eq_self {t : Table κ ν} {k : κ} (h : t.find? k = none) : t.erase k = t := by
  refine filter_eq_self fun j v hj => ?_
  rw [bne_iff_ne]
  intro hrank
  rw [Ranked.rank_inj hrank, h] at hj
  cases hj

/-! ## Keys -/

/-- The keys of a table without their values. -/
def keySet (t : Table κ ν) : Table κ Unit :=
  ⟨t.entries.map fun e => (e.1, ()), List.pairwise_map.2 t.ascending⟩

theorem keys_keySet (t : Table κ ν) : t.keySet.keys = t.keys := by
  simp [keySet, keys, Function.comp_def]

theorem contains_keySet (t : Table κ ν) (k : κ) : t.keySet.contains k = t.contains k := by
  rw [Bool.eq_iff_iff]
  show (t.keySet.find? k).isSome = true ↔ (t.find? k).isSome = true
  rw [← mem_keys_iff, ← mem_keys_iff, keys_keySet]

/-- A set of keys is told by what it contains. -/
theorem ext_contains {t u : Table κ Unit} (h : ∀ k, t.contains k = u.contains k) : t = u := by
  refine ext_find? fun k => ?_
  have hk : (t.find? k).isSome = (u.find? k).isSome := h k
  cases ht : t.find? k <;> cases hu : u.find? k <;> simp [ht, hu] at hk ⊢

theorem keys_pairwise (t : Table κ ν) : t.keys.Pairwise (fun a b => rank a < rank b) :=
  List.pairwise_map.2 t.ascending

/-! ## Values -/

/-- The table with every value changed in one way. -/
def mapValues {μ : Type} (t : Table κ ν) (f : ν → μ) : Table κ μ :=
  ⟨t.entries.map fun e => (e.1, f e.2), List.pairwise_map.2 t.ascending⟩

theorem find?_mapValues {μ : Type} (t : Table κ ν) (f : ν → μ) (k : κ) :
    (t.mapValues f).find? k = (t.find? k).map f := by
  simp only [find?, mapValues, List.find?_map, Option.map_map, Function.comp_def]

end Table

end KeyReserve
