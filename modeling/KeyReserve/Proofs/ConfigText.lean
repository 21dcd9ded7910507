import KeyReserve.Command
import KeyReserve.Proofs.ReadBack

/-!
# Configurations as texts

A configuration that has been printed is found again in the text. Each section is written as a
mapping of its settings, whose values are numbers and names, and is read from that mapping as it
was; so is the list of links, whatever its length. What is left out when it is unset or empty is
unset or empty when it is missing. None of this needs any marks, so the document is read from the
text as it has been written there.

## Main results

* `Config.ofTree_toTree`: the document of a configuration means that configuration;
* `Config.read_print`: the text of a configuration is read as its document;
* `Config.parse_print`: the text of a configuration means that configuration, also when it comes out
  of a file.
-/

namespace KeyReserve

open Yaml (Tree Bare isBare field)

/-! ## Numbers -/

namespace Yaml

theorem Tree.number?_ofNumber (n : UInt64) : (Tree.ofNumber n).number? = some n :=
  unsigned?_toString n

/-- A number is not among the texts that say that nothing is meant. -/
theorem Tree.optional?_ofNumber (n : UInt64) :
    (Tree.ofNumber n).optional? = some (some (.ofNumber n)) := by
  have hne : ∀ text : String, unsigned? text = none → toString n ≠ text := by
    rintro text htext rfl
    rw [unsigned?_toString] at htext
    cases htext
  have hempty : (toString n).isEmpty = false := by
    simpa using hne "" (by decide)
  have hnull : isNull (toString n) = false := by
    simp [isNull, hne "null" (by decide), hne "Null" (by decide), hne "NULL" (by decide),
      hne "~" (by decide)]
  simp [Tree.ofNumber, Tree.word, Tree.optional?, hempty, hnull]

theorem bare_ofNumber (n : UInt64) : Bare (.ofNumber n) := by
  refine .word ?_
  have htext : (toString n).toList = Nat.toDigits 10 n.toNat := toList_toString n
  have hall : ∀ c ∈ Nat.toDigits 10 n.toNat, isBareChar c = true := fun c hc => by
    simp [isBareChar, Char.isAlphanum, Nat.isDigit_of_mem_toDigits (by decide) (by decide) hc]
  simpa [isBare, htext, Nat.toDigits_ne_nil] using hall

/-- Entries that can be written without marks. -/
def BareEntries (es : List (Tree × Tree)) : Prop := ∀ e ∈ es, BareKey e.1 ∧ Bare e.2

theorem BareEntries.nil : BareEntries [] := fun _ he => absurd he List.not_mem_nil

theorem BareEntries.cons {name : String} {value : Tree} {es : List (Tree × Tree)}
    (hname : isBare name = true ∧ name.toList.length ≤ 1024) (hvalue : Bare value)
    (hes : BareEntries es) : BareEntries (Tree.entry name value :: es) :=
  List.forall_mem_cons.2 ⟨⟨⟨name, rfl, hname⟩, hvalue⟩, hes⟩

theorem BareEntries.number {name : String} {n : UInt64} {es : List (Tree × Tree)}
    (hname : isBare name = true ∧ name.toList.length ≤ 1024) (hes : BareEntries es) :
    BareEntries (Tree.entry name (.ofNumber n) :: es) :=
  hes.cons hname (bare_ofNumber n)

/-- A section is written without marks if its entries are. -/
theorem BareEntries.bare {e : Tree × Tree} {es : List (Tree × Tree)}
    (hes : BareEntries (e :: es)) : Bare (.mapping (e :: es)) :=
  .mapping (List.cons_ne_nil e es) (fun e he => (hes e he).1) fun e he => (hes e he).2

end Yaml

open Yaml (BareEntries bare_ofNumber)
open Yaml.Tree (number?_ofNumber optional?_ofNumber)

theorem NodeId.ofTree_ofNumber (id : NodeId) :
    NodeId.ofTree (.ofNumber id.val.toUInt64) = some id := by
  simp [NodeId.ofTree, Tree.number32?, number?_ofNumber, id.val.toNat_lt_size]

/-! ## Sections

The names of settings are known, so the fields of a section that has been written are found by
computation, whatever their values. -/

theorem NodeSettings.ofTree_toTree (s : NodeSettings) : ofTree s.toTree = some s := by
  obtain ⟨id, interval⟩ := s
  cases id with
  | none =>
    have hfields : (toTree ⟨none, interval⟩).fields? =
        some [("tick_interval_ms", .ofNumber interval)] := rfl
    simp [ofTree, hfields, field, number?_ofNumber]
  | some id =>
    have hfields : (toTree ⟨some id, interval⟩).fields? =
        some [("id", .ofNumber id.val.toUInt64), ("tick_interval_ms", .ofNumber interval)] := rfl
    have hid : Tree.unlessUnset NodeId.ofTree (.ofNumber id.val.toUInt64) = some (some id) := by
      simp [Tree.unlessUnset, optional?_ofNumber, NodeId.ofTree_ofNumber]
    simp [ofTree, hfields, field, number?_ofNumber, hid]

theorem NodeSettings.bare_toTree (s : NodeSettings) : Bare s.toTree := by
  obtain ⟨id, interval⟩ := s
  have hinterval : BareEntries [Tree.entry "tick_interval_ms" (.ofNumber interval)] :=
    .number (by decide) .nil
  cases id with
  | none => exact hinterval.bare
  | some id =>
    have hid : BareEntries [Tree.entry "id" (.ofNumber id.val.toUInt64),
        Tree.entry "tick_interval_ms" (.ofNumber interval)] := .number (by decide) hinterval
    exact hid.bare

theorem Bounds.ofTree_toTree (b : Bounds) : ofTree b.toTree = some b := by
  have hfields : b.toTree.fields? =
      some [("minimum", .ofNumber b.minimum), ("threshold", .ofNumber b.threshold),
        ("maximum", .ofNumber b.maximum), ("initial", .ofNumber b.initial)] := rfl
  simp [ofTree, hfields, field, number?_ofNumber]

theorem Bounds.bare_toTree (b : Bounds) : Bare b.toTree :=
  BareEntries.bare <| .number (by decide) <| .number (by decide) <| .number (by decide) <|
    .number (by decide) .nil

theorem ChargingSettings.ofTree_toTree (s : ChargingSettings) : ofTree s.toTree = some s := by
  have hfields : s.toTree.fields? =
      some [("send_size", .ofNumber s.sendSize), ("round_interval_ms", .ofNumber s.roundInterval),
        ("total_amount", .ofNumber s.totalAmount)] := rfl
  simp [ofTree, hfields, field, number?_ofNumber]

theorem ChargingSettings.bare_toTree (s : ChargingSettings) : Bare s.toTree :=
  BareEntries.bare <| .number (by decide) <| .number (by decide) <| .number (by decide) .nil

theorem Encryption.choice?_name (e : Encryption) :
    (Tree.word e.name).choice?.bind ofName? = some e := by
  cases e <;> rfl

theorem Authentication.choice?_name (a : Authentication) :
    (Tree.word a.name).choice?.bind ofName? = some a := by
  cases a <;> rfl

theorem Tariff.ofTree_toTree (s : Tariff) : ofTree s.toTree = some s := by
  have hfields : s.toTree.fields? =
      some [("encryption", .word s.encryption.name),
        ("authentication", .word s.authentication.name),
        ("otp_bytes_per_byte", .ofNumber s.otpBytesPerByte),
        ("aes_key_bytes", .ofNumber s.aesKeyBytes),
        ("auth_tag_bytes", .ofNumber s.authTagBytes)] := rfl
  simp [ofTree, hfields, field, number?_ofNumber, Encryption.choice?_name,
    Authentication.choice?_name]

theorem Tariff.bare_toTree (s : Tariff) : Bare s.toTree := by
  have hencryption : isBare s.encryption.name = true := by cases s.encryption <;> decide
  have hauthentication : isBare s.authentication.name = true := by
    cases s.authentication <;> decide
  exact BareEntries.bare <| .cons (by decide) (.word hencryption) <|
    .cons (by decide) (.word hauthentication) <| .number (by decide) <| .number (by decide) <|
      .number (by decide) .nil

theorem Role.choice?_name (r : Role) : (Tree.word r.name).choice?.bind ofName? = some r := by
  cases r <;> rfl

theorem RoutingSettings.ofTree_toTree (s : RoutingSettings) : ofTree s.toTree = some s := by
  have hfields : s.toTree.fields? =
      some [("protocol", .word s.protocol.name), ("secured_min_bytes", .ofNumber s.securedMin),
        ("best_effort_min_bytes", .ofNumber s.bestEffortMin),
        ("epoch_ms", .ofNumber s.epochLength), ("seed", .ofNumber s.seed),
        ("first_stream", .ofNumber s.firstStream),
        ("route_lifetime_ms", .ofNumber s.routeLifetime),
        ("max_request_jitter_ms", .ofNumber s.maxRequestJitter)] := rfl
  simp [ofTree, hfields, field, number?_ofNumber, Role.choice?_name]

theorem RoutingSettings.bare_toTree (s : RoutingSettings) : Bare s.toTree := by
  have hprotocol : isBare s.protocol.name = true := by cases s.protocol <;> decide
  exact BareEntries.bare <| .cons (by decide) (.word hprotocol) <| .number (by decide) <|
    .number (by decide) <| .number (by decide) <| .number (by decide) <| .number (by decide) <|
      .number (by decide) <| .number (by decide) .nil

theorem DelaySettings.ofTree_toTree (s : DelaySettings) : ofTree s.toTree = some s := by
  have hfields : s.toTree.fields? =
      some [("default_max_delay_ms", .ofNumber s.defaultMaxDelay)] := rfl
  simp [ofTree, hfields, field, number?_ofNumber]

theorem DelaySettings.bare_toTree (s : DelaySettings) : Bare s.toTree :=
  BareEntries.bare <| .number (by decide) .nil

/-! ## Links -/

theorem LinkSettings.ofTree_toTree (l : LinkSettings) : ofTree l.toTree = some l := by
  obtain ⟨peer, bounds⟩ := l
  cases bounds with
  | none =>
    have hfields : (toTree ⟨peer, none⟩).fields? = some [("peer", .ofNumber peer.val.toUInt64)] :=
      rfl
    simp [ofTree, hfields, field, NodeId.ofTree_ofNumber]
  | some b =>
    have hfields : (toTree ⟨peer, some b⟩).fields? =
        some [("peer", .ofNumber peer.val.toUInt64), ("buffer", b.toTree)] := rfl
    have hbounds : Tree.unlessUnset Bounds.ofTree b.toTree = some (some b) := by
      have hset : b.toTree.optional? = some (some b.toTree) := rfl
      simp [Tree.unlessUnset, hset, Bounds.ofTree_toTree]
    simp [ofTree, hfields, field, NodeId.ofTree_ofNumber, hbounds]

theorem LinkSettings.bare_toTree (l : LinkSettings) : Bare l.toTree := by
  obtain ⟨peer, bounds⟩ := l
  refine BareEntries.bare ?_
  cases bounds with
  | none => exact .number (by decide) .nil
  | some b => exact .number (by decide) <| .cons (by decide) b.bare_toTree .nil

/-- A list is read from its written parts if each part is. -/
theorem readAll_map {α : Type} {read : Tree → Option α} {write : α → Tree}
    (h : ∀ x, read (write x) = some x) (xs : List α) : readAll read (xs.map write) = some xs := by
  induction xs with
  | nil => rfl
  | cons x xs ih => simp [readAll, h x, ih]

/-! ## Whole configurations -/

namespace Config

/-- The document of a configuration means that configuration. -/
theorem ofTree_toTree (c : Config) : ofTree c.toTree = some c := by
  obtain ⟨node, buffer, charging, cost, routing, delay, links⟩ := c
  cases links with
  | nil =>
    have hfields : (toTree ⟨node, buffer, charging, cost, routing, delay, []⟩).fields? =
        some [("node", node.toTree), ("buffer", buffer.toTree), ("charging", charging.toTree),
          ("cost", cost.toTree), ("routing", routing.toTree), ("delay", delay.toTree)] := rfl
    simp [ofTree, hfields, field, NodeSettings.ofTree_toTree, Bounds.ofTree_toTree,
      ChargingSettings.ofTree_toTree, Tariff.ofTree_toTree, RoutingSettings.ofTree_toTree,
      DelaySettings.ofTree_toTree, standard]
  | cons l links =>
    have hfields : (toTree ⟨node, buffer, charging, cost, routing, delay, l :: links⟩).fields? =
        some [("node", node.toTree), ("buffer", buffer.toTree), ("charging", charging.toTree),
          ("cost", cost.toTree), ("routing", routing.toTree), ("delay", delay.toTree),
          ("links", .sequence ((l :: links).map LinkSettings.toTree))] := rfl
    have hlinks : (Tree.sequence ((l :: links).map LinkSettings.toTree)).items?.bind
        (readAll LinkSettings.ofTree) = some (l :: links) :=
      readAll_map LinkSettings.ofTree_toTree (l :: links)
    simp [-List.map_cons, ofTree, hfields, field, NodeSettings.ofTree_toTree, Bounds.ofTree_toTree,
      ChargingSettings.ofTree_toTree, Tariff.ofTree_toTree, RoutingSettings.ofTree_toTree,
      DelaySettings.ofTree_toTree, hlinks]

/-- A configuration is written without marks. -/
theorem bare_toTree (c : Config) : Bare c.toTree := by
  obtain ⟨node, buffer, charging, cost, routing, delay, links⟩ := c
  refine BareEntries.bare ?_
  refine .cons (by decide) node.bare_toTree <| .cons (by decide) buffer.bare_toTree <|
    .cons (by decide) charging.bare_toTree <| .cons (by decide) cost.bare_toTree <|
    .cons (by decide) routing.bare_toTree <| .cons (by decide) delay.bare_toTree ?_
  cases links with
  | nil => exact .nil
  | cons l links =>
    have hlinks : Bare (.sequence ((l :: links).map LinkSettings.toTree)) :=
      .sequence (List.cons_ne_nil _ _) (List.forall_mem_map.2 fun l _ => l.bare_toTree)
    exact .cons (by decide) hlinks .nil

/-- The text of a configuration is read as its document. -/
theorem read_print (c : Config) : Yaml.read c.print = some c.toTree :=
  Yaml.read_write c.bare_toTree

theorem fromUTF8?_toUTF8 (text : String) : String.fromUTF8? text.toUTF8 = some text :=
  dif_pos text.isValidUTF8

/-- A configuration that has been printed into a file is loaded from it. -/
theorem loadFile_print (c : Config) {read : String → Source} {path : String}
    (hread : read path = .bytes c.print.toUTF8) : loadFile read path = .ok c := by
  simp only [loadFile, hread, fromUTF8?_toUTF8, parse, read_print, Option.bind_some, ofTree_toTree]

/-- Nothing is lost when a configuration is printed: its text means it, a file with its text is
loaded as it, and whatever configuration a call gathers that only prints one, what the call puts out
means that configuration. -/
theorem parse_print (c : Config) :
    parse c.print = some c ∧
      (∀ path, loadFile (fun _ => .bytes c.print.toUTF8) path = .ok c) ∧
        ∀ read search file, Command.config read search file = .ok c →
          ((Command.check file true).run read search).status = 0 ∧
            parse ((Command.check file true).run read search).output = some c := by
  have hparse : parse c.print = some c := by
    rw [parse, read_print, Option.bind_some, ofTree_toTree]
  refine ⟨hparse, fun path => c.loadFile_print rfl, fun read search file hconfig => ?_⟩
  have hrun : (Command.check file true).run read search = { status := 0, output := c.print } := by
    simp only [Command.run, hconfig, if_true]
  rw [hrun]
  exact ⟨rfl, hparse⟩

/-- With no files anywhere the standard configuration is printed. -/
theorem parse_print_standard :
    Command.config (fun _ => .missing) [] none = .ok standard ∧
      parse ((Command.check none true).run (fun _ => .missing) []).output = some standard :=
  ⟨rfl, ((parse_print standard).2.2 (fun _ => .missing) [] none rfl).2⟩

end Config

end KeyReserve
