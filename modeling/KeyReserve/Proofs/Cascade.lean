import KeyReserve.Config.File

/-!
# Cascading configurations

Merging takes over of each setting what the later configuration sets, where having the standard
value counts as being unset; the number of a node and the list of links are no exceptions, since
their standard values are the missing number and the empty list. So it does not matter how the
configurations of a cascade are grouped, and the result has of each setting what the last of them
says that sets it.

## Main definitions

* `lastSet`: the last of some values that is not the standard one;
* `Config.fieldwise`: the configuration that is given setting by setting;
* `Config.cascade`: the configuration in which each setting is the one set last.

## Main results

* `Config.merge_eq_fieldwise`: merging overrides setting by setting;
* `Config.cascade_concat`: a further configuration is merged into a cascade;
* `Config.load_eq_cascade`: merging is associative and idempotent with the standard configuration as
  its identity, and loading files brings their cascade.
-/

namespace KeyReserve

/-! ## Single settings -/

section Override

variable {α : Type} [DecidableEq α] (standard a b c : α)

theorem override_assoc :
    override standard (override standard a b) c = override standard a (override standard b c) := by
  by_cases hc : c = standard <;> simp [override, hc]

theorem override_standard : override standard a standard = a := if_pos rfl

theorem standard_override : override standard standard a = a := by
  by_cases ha : a = standard <;> simp [override, ha]

theorem override_self : override standard a a = a := ite_self a

/-- The last value that is not the standard one, or the standard one where there is none. -/
def lastSet (values : List α) : α := ((values.filter (· ≠ standard)).getLast?).getD standard

theorem lastSet_concat (values : List α) :
    lastSet standard (values ++ [a]) = override standard (lastSet standard values) a := by
  by_cases ha : a = standard <;> simp [lastSet, override, ha]

/-- Zero counts as unset here. -/
example : lastSet 0 [1, 0, 2, 0] = 2 := by decide

end Override

/-- A number that is given overrides an earlier one. -/
theorem orElse_eq_override {α : Type} [DecidableEq α] (a b : Option α) :
    (b <|> a) = override none a b := by
  cases b <;> simp [override]

/-- So does a list that is not empty. -/
theorem ite_isEmpty_eq_override {α : Type} [DecidableEq α] (a b : List α) :
    (if b.isEmpty then a else b) = override [] a b := by
  cases b <;> simp [override]

/-! ## Whole configurations -/

namespace Config

/-- The configuration whose settings are given, each as what is to be said of that setting. -/
def fieldwise (value : {α : Type} → [DecidableEq α] → (Config → α) → α) : Config where
  node := { id := value (·.node.id), tickInterval := value (·.node.tickInterval) }
  buffer :=
    { minimum := value (·.buffer.minimum), threshold := value (·.buffer.threshold)
      maximum := value (·.buffer.maximum), initial := value (·.buffer.initial) }
  charging :=
    { sendSize := value (·.charging.sendSize), roundInterval := value (·.charging.roundInterval)
      totalAmount := value (·.charging.totalAmount) }
  cost :=
    { encryption := value (·.cost.encryption), authentication := value (·.cost.authentication)
      otpBytesPerByte := value (·.cost.otpBytesPerByte)
      aesKeyBytes := value (·.cost.aesKeyBytes), authTagBytes := value (·.cost.authTagBytes) }
  routing :=
    { protocol := value (·.routing.protocol), securedMin := value (·.routing.securedMin)
      bestEffortMin := value (·.routing.bestEffortMin)
      epochLength := value (·.routing.epochLength), seed := value (·.routing.seed)
      firstStream := value (·.routing.firstStream)
      routeLifetime := value (·.routing.routeLifetime)
      maxRequestJitter := value (·.routing.maxRequestJitter) }
  delay := { defaultMaxDelay := value (·.delay.defaultMaxDelay) }
  links := value (·.links)

/-- The configuration in which each setting is the last of the configurations' that is not the
standard one. -/
def cascade (cs : List Config) : Config :=
  fieldwise fun setting => lastSet (setting standard) (cs.map setting)

variable (a b c : Config)

/-- Merging overrides setting by setting. -/
theorem merge_eq_fieldwise :
    a.merge b = fieldwise fun setting => override (setting standard) (setting a) (setting b) := by
  simp only [merge, NodeSettings.merge, orElse_eq_override, ite_isEmpty_eq_override]
  rfl

theorem merge_assoc : (a.merge b).merge c = a.merge (b.merge c) := by
  simp only [merge_eq_fieldwise, fieldwise, override_assoc]

theorem merge_standard : a.merge standard = a := by
  simp only [merge_eq_fieldwise, fieldwise, override_standard]

theorem standard_merge : standard.merge a = a := by
  simp only [merge_eq_fieldwise, fieldwise, standard_override]

theorem merge_self : a.merge a = a := by
  simp only [merge_eq_fieldwise, fieldwise, override_self]

theorem cascade_concat (cs : List Config) : cascade (cs ++ [c]) = (cascade cs).merge c := by
  simp only [merge_eq_fieldwise, cascade, fieldwise, List.map_append, List.map_cons, List.map_nil,
    lastSet_concat]

/-! ## Loading -/

variable (read : String → Source) (paths : List String)

/-- The paths at which there is anything. -/
def existing : List String := paths.filter fun p => (read p).isThere

/-- Files that are loaded onto a cascade extend it. -/
theorem loadOnto_cascade (cs : List Config) :
    loadOnto read (cascade cs) paths =
      ((existing read paths).mapM (loadFile read)).map fun files =>
        (cascade (cs ++ files), existing read paths) := by
  induction paths generalizing cs with
  | nil => simp [loadOnto, existing, pure, Except.pure, Except.map]
  | cons p ps ih =>
    by_cases hp : (read p).isThere = true
    · have hexisting : existing read (p :: ps) = p :: existing read ps := List.filter_cons_of_pos hp
      rw [loadOnto, if_pos hp, hexisting, List.mapM_cons]
      cases hfile : loadFile read p with
      | error e => rfl
      | ok file =>
        have hlater := ih (cs ++ [file])
        simp only [cascade_concat, List.append_assoc, List.singleton_append] at hlater
        show (loadOnto read ((cascade cs).merge file) ps).bind _ = _
        rw [hlater]
        cases (existing read ps).mapM (loadFile read) with
        | error e => rfl
        | ok files => rfl
    · have hexisting : existing read (p :: ps) = existing read ps := List.filter_cons_of_neg hp
      rw [loadOnto, if_neg hp, hexisting, ih]

/-- Merging configurations is associative and idempotent, and the standard one changes nothing,
whether it comes first or last. So loading files brings their cascade, unless one of them fails,
and loading a single file brings what is in it. -/
theorem load_eq_cascade :
    (∀ a b c : Config, (a.merge b).merge c = a.merge (b.merge c)) ∧
      (∀ c : Config, standard.merge c = c ∧ c.merge standard = c ∧ c.merge c = c) ∧
        (load read paths = ((existing read paths).mapM (loadFile read)).map fun files =>
          (cascade files, existing read paths)) ∧
          ∀ path, load read [path] =
            if (read path).isThere then (loadFile read path).map fun c => (c, [path])
            else .ok (standard, []) := by
  have hload : ∀ paths, load read paths = ((existing read paths).mapM (loadFile read)).map
      fun files => (cascade files, existing read paths) := fun paths =>
    loadOnto_cascade read paths []
  refine ⟨merge_assoc, fun c => ⟨c.standard_merge, c.merge_standard, c.merge_self⟩,
    hload paths, fun path => ?_⟩
  rw [hload]
  split
  case isTrue hpath =>
    have hcascade : ∀ c, cascade [c] = c := fun c => (cascade_concat c []).trans c.standard_merge
    have hexisting : existing read [path] = [path] := List.filter_cons_of_pos hpath
    rw [hexisting, List.mapM_cons]
    cases loadFile read path with
    | error e => rfl
    | ok c => exact congrArg (fun c => Except.ok (c, [path])) (hcascade c)
  case isFalse hpath =>
    have hexisting : existing read [path] = [] := List.filter_cons_of_neg hpath
    rw [hexisting]
    rfl

end Config

end KeyReserve
