import KeyReserve.Proofs.Arguments
import KeyReserve.Proofs.ConfigText
import KeyReserve.Proofs.Lifecycle

/-!
# What the check of a configuration finds

A configuration makes a node if the node has a number and its links lead to different peers, none
of them the node itself. What may then be wrong with a link are its bounds, which are judged when
the link comes up: since no link is in the way of another, each of them comes up with its first
level or fails for its own bounds, wherever it stands in the list. So the status of the program
tells whether a configuration is missing or wrong, or some bounds are, or nothing is, in every call
that asks for a check.

## Main definitions

* `Config.Names`: a configuration names a node, with links that it can have.

## Main results

* `Config.check_eq_ok_iff`: what passes the check;
* `Node.bringUp_of_down`, `Node.bringUpAll_of_down`: what comes of one link, and of a list of them;
* `Config.check_exact`: the check is exact, link by link and in the status of the program.
-/

namespace KeyReserve

theorem LinkKey.isLoop_join_of_ne {a b : NodeId} (h : b ≠ a) :
    (LinkKey.join a b).isLoop = false := by
  refine decide_eq_false fun heq => ?_
  unfold join at heq
  split at heq
  · exact h heq.symm
  · exact h heq

/-! ## The check -/

namespace Config

/-- The configuration is one of the node with some number: the number is given, and the links lead
to different peers, none of them the node itself. -/
structure Names (c : Config) (id : NodeId) : Prop where
  number : c.node.id = some id
  notSelf : ∀ l ∈ c.links, l.peer ≠ id
  distinct : (c.links.map (·.peer)).Nodup

/-- There is no fault among peers that are not the node, have not been listed before and are not
listed twice. -/
theorem linkFault?_eq_none_iff {own : NodeId} {before ps : List NodeId} :
    linkFault? own before ps = none ↔
      (∀ p ∈ ps, p ≠ own) ∧ (∀ p ∈ ps, p ∉ before) ∧ ps.Nodup := by
  induction ps generalizing before with
  | nil => simp [linkFault?]
  | cons p ps ih =>
    by_cases hown : p = own
    · simp [linkFault?, hown]
    · by_cases hbefore : p ∈ before
      · simp [linkFault?, hown, hbefore]
      · have hstep : linkFault? own before (p :: ps) = linkFault? own (p :: before) ps := by
          simp [linkFault?, hown, hbefore]
        rw [hstep, ih, List.forall_mem_cons, List.forall_mem_cons, List.nodup_cons]
        constructor
        · rintro ⟨hself, hlisted, hnodup⟩
          exact ⟨⟨hown, hself⟩, ⟨hbefore, fun q hq h => hlisted q hq (List.mem_cons_of_mem p h)⟩,
            fun hp => hlisted p hp List.mem_cons_self, hnodup⟩
        · rintro ⟨⟨-, hself⟩, ⟨-, hlisted⟩, hp, hnodup⟩
          refine ⟨hself, fun q hq h => ?_, hnodup⟩
          rcases List.mem_cons.1 h with rfl | h
          · exact hp hq
          · exact hlisted q hq h

/-- The check lets a configuration through as that of the node that it names. -/
theorem check_eq_ok_iff {c : Config} {id : NodeId} : c.check = .ok id ↔ c.Names id := by
  have hfault : ∀ own, linkFault? own [] (c.links.map (·.peer)) = none ↔
      (∀ l ∈ c.links, l.peer ≠ own) ∧ (c.links.map (·.peer)).Nodup := fun own => by
    simp [linkFault?_eq_none_iff]
  constructor
  · intro h
    unfold check nodeId at h
    cases hid : c.node.id with
    | none =>
      rw [hid] at h
      cases h
    | some own =>
      simp only [hid] at h
      split at h
      · cases h
      · rename_i hnone
        cases h
        obtain ⟨hself, hdistinct⟩ := (hfault _).1 hnone
        exact ⟨hid, hself, hdistinct⟩
  · intro h
    simp only [check, nodeId, h.number, (hfault id).2 ⟨h.notSelf, h.distinct⟩]

end Config

/-! ## New nodes -/

namespace Node

/-- What a node is once it has been made. -/
structure Fresh (n : Node) (c : Config) : Prop where
  names : c.Names n.id
  config : n.config = c
  phase : n.phase = .created
  links : n.links = .empty

theorem fresh_of_create {c : Config} {t : Transport} {n : Node} (h : create c t = .ok n) :
    n.Fresh c := by
  unfold create at h
  split at h
  · cases h
  · rename_i hcheck
    cases h
    exact ⟨Config.check_eq_ok_iff.1 hcheck, rfl, rfl, rfl⟩

/-- A configuration makes a node exactly if it names one. -/
theorem exists_create_iff {c : Config} {t : Transport} :
    (∃ n, create c t = .ok n) ↔ ∃ id, c.Names id := by
  constructor
  · rintro ⟨n, h⟩
    exact ⟨n.id, (fresh_of_create h).names⟩
  · rintro ⟨id, h⟩
    rw [create, Config.check_eq_ok_iff.2 h]
    exact ⟨_, rfl⟩

/-! ## Links that come up -/

/-- The failure of a link whose bounds are out of order. -/
def boundsFailure (n : Node) (peer : NodeId) (bounds : Bounds) : LinkError :=
  .buffer (n.linkTo peer) (.configuration bounds)

variable (n : Node)

/-- What lies in the buffers is told by the stock. -/
theorem buffer?_eq_accounts (key : LinkKey) :
    n.links.buffer? key = (n.stock.accounts key).map (·.buffer) := by
  show _ = ((n.links.find? key).map Link.account).map (·.buffer)
  rw [Option.map_map]
  rfl

/-- A link that is down, and leads to another node, comes up if its bounds are in order. Its failure
is that they are not. -/
theorem bringUp_of_down {peer : NodeId} (bounds : Bounds) (now : Millis) (hself : peer ≠ n.id)
    (hdown : n.links.buffer? (n.linkTo peer) = none) :
    (n.bringUp peer bounds now).1 =
        (if bounds.Ordered then none else some (n.boundsFailure peer bounds)) ∧
      ∀ key, (n.bringUp peer bounds now).2.links.buffer? key =
        if key = n.linkTo peer then (KeyBuffer.ofBounds bounds).toOption
        else n.links.buffer? key := by
  have hloop : (n.linkTo peer).isLoop = false := LinkKey.isLoop_join_of_ne hself
  have hfind : n.links.find? (n.linkTo peer) = none := Option.map_eq_none_iff.1 hdown
  by_cases hbounds : bounds.Ordered
  · obtain ⟨buffer, hbuffer⟩ : ∃ buffer, KeyBuffer.ofBounds bounds = .ok buffer :=
      ⟨_, dif_pos hbounds⟩
    have hlinks : Links.establish n.links (n.linkTo peer) bounds now =
        .ok (n.links.insert (n.linkTo peer) ⟨buffer, {}, now⟩) :=
      Links.establish_eq_ok_iff.2 ⟨hloop, hfind, buffer, hbuffer, rfl⟩
    simp only [bringUp, hlinks, if_pos hbounds, hbuffer, true_and]
    intro key
    rw [buffer?_eq_accounts, stock_chargeIfLow, ← buffer?_eq_accounts, Links.buffer?,
      Table.find?_insert]
    split <;> rfl
  · have hlinks : Links.establish n.links (n.linkTo peer) bounds now =
        .error (n.boundsFailure peer bounds) := by
      simp [Links.establish, hloop, Table.contains_eq_isSome, hfind, KeyBuffer.ofBounds, hbounds,
        boundsFailure]
    have hbuffer : KeyBuffer.ofBounds bounds = .error (.configuration bounds) := dif_neg hbounds
    simp only [bringUp, hlinks, if_neg hbounds, hbuffer, true_and]
    intro key
    split
    · rename_i hkey
      rw [hkey, hdown]
      rfl
    · rfl

/-- A list of links to different other nodes, all of them down: each link fails for bounds out of
order, or comes up, and the links that are not listed stay as they are. -/
theorem bringUpAll_of_down (now : Millis) {ls : List LinkSettings}
    (hself : ∀ l ∈ ls, l.peer ≠ n.id) (hdistinct : (ls.map (·.peer)).Nodup)
    (hdown : ∀ l ∈ ls, n.links.buffer? (n.linkTo l.peer) = none) :
    (n.bringUpAll now ls).1 =
        (ls.filter fun l => ¬ (l.boundsOr n.config.buffer).Ordered).map
          (fun l => n.boundsFailure l.peer (l.boundsOr n.config.buffer)) ∧
      (∀ l ∈ ls, (n.bringUpAll now ls).2.links.buffer? (n.linkTo l.peer) =
        (KeyBuffer.ofBounds (l.boundsOr n.config.buffer)).toOption) ∧
        ∀ key, (∀ l ∈ ls, key ≠ n.linkTo l.peer) →
          (n.bringUpAll now ls).2.links.buffer? key = n.links.buffer? key := by
  induction ls generalizing n with
  | nil => exact ⟨rfl, fun l hl => absurd hl List.not_mem_nil, fun key _ => rfl⟩
  | cons l ls ih =>
    obtain ⟨hfailure, hbuffers⟩ := n.bringUp_of_down (l.boundsOr n.config.buffer) now
      (hself l List.mem_cons_self) (hdown l List.mem_cons_self)
    have hsettings := (n.raised_bringUp l.peer (l.boundsOr n.config.buffer) now).settings
    obtain ⟨m, hm⟩ : ∃ m, m = (n.bringUp l.peer (l.boundsOr n.config.buffer) now).2 := ⟨_, rfl⟩
    rw [← hm] at hbuffers hsettings
    have hid : m.id = n.id := congrArg Settings.id hsettings
    have hconfig : m.config = n.config := congrArg Settings.config hsettings
    have hlink : m.linkTo = n.linkTo := funext fun peer => congrArg (LinkKey.join · peer) hid
    obtain ⟨hfirst, hlater⟩ := List.nodup_cons.1 (List.map_cons ▸ hdistinct)
    have hother : ∀ k ∈ ls, n.linkTo k.peer ≠ n.linkTo l.peer := fun k hk heq =>
      hfirst (LinkKey.join_inj heq ▸ List.mem_map_of_mem hk)
    obtain ⟨hfailures, hup, hrest⟩ := ih m
      (fun k hk => hid ▸ hself k (List.mem_cons_of_mem l hk)) hlater fun k hk => by
        rw [hlink, hbuffers, if_neg (hother k hk)]
        exact hdown k (List.mem_cons_of_mem l hk)
    have hall : n.bringUpAll now (l :: ls) =
        ((n.bringUp l.peer (l.boundsOr n.config.buffer) now).1.toList ++ (m.bringUpAll now ls).1,
          (m.bringUpAll now ls).2) := by
      rw [hm]
      rfl
    rw [hall, hfailure]
    simp only [hlink, hconfig, boundsFailure] at hfailures hup hrest ⊢
    refine ⟨?_, List.forall_mem_cons.2 ⟨?_, hup⟩, fun key hkey => ?_⟩
    · rw [hfailures]
      by_cases hbounds : (l.boundsOr n.config.buffer).Ordered <;> simp [hbounds]
    · rw [hrest _ fun k hk heq => hother k hk heq.symm, hbuffers, if_pos rfl]
    · obtain ⟨hne, hkeys⟩ := List.forall_mem_cons.1 hkey
      rw [hrest key hkeys, hbuffers, if_neg hne]

/-- A new node that starts reports the configured links whose bounds are out of order, and the
others are up with what they are to begin with. -/
theorem start_of_fresh {c : Config} (h : n.Fresh c) (now : Millis) :
    (n.start now).1 = .ok
        ((c.links.filter fun l => ¬ (l.boundsOr c.buffer).Ordered).map
          fun l => n.boundsFailure l.peer (l.boundsOr c.buffer)) ∧
      ∀ l ∈ c.links, (n.start now).2.links.buffer? (n.linkTo l.peer) =
        (KeyBuffer.ofBounds (l.boundsOr c.buffer)).toOption := by
  have hstart : n.start now = (.ok (n.bringUpAll now c.links).1,
      { (n.bringUpAll now c.links).2 with phase := .running }.scheduleTick now) := by
    simp [start, h.phase, h.config]
  obtain ⟨hfailures, hup, -⟩ := n.bringUpAll_of_down now h.names.notSelf h.names.distinct
    fun l hl => by rw [h.links]; rfl
  rw [h.config] at hfailures hup
  rw [hstart, hfailures]
  refine ⟨rfl, fun l hl => ?_⟩
  rw [buffer?_eq_accounts, stock_scheduleTick, ← hup l hl, buffer?_eq_accounts]
  rfl

end Node

/-! ## The program -/

namespace Command

variable {c : Config}

/-- A node that can be made is brought up, which fails if some bounds are out of order. -/
theorem tryOut_of_create {n : Node} (hn : Node.create c .accepting = .ok n) :
    (tryOut c).status = if ∀ l ∈ c.links, (l.boundsOr c.buffer).Ordered then 0 else 2 := by
  have hstart : n.start 0 = (_, (n.start 0).2) :=
    Prod.ext (n.start_of_fresh (Node.fresh_of_create hn) 0).1 rfl
  simp only [tryOut, hn]
  rw [hstart]
  by_cases hall : ∀ l ∈ c.links, (l.boundsOr c.buffer).Ordered
  · have hnone : (c.links.filter fun l => ¬ (l.boundsOr c.buffer).Ordered) = [] := by
      simpa using hall
    rw [if_pos hall, hnone]
    rfl
  · simp [hall]

theorem status_tryOut (c : Config) :
    ((tryOut c).status = 1 ↔ ∀ n, Node.create c .accepting ≠ .ok n) ∧
      ((tryOut c).status = 2 ↔ ∃ n, Node.create c .accepting = .ok n ∧
        ∃ l ∈ c.links, ¬ (l.boundsOr c.buffer).Ordered) ∧
      ((tryOut c).status = 0 ↔ ∃ n, Node.create c .accepting = .ok n ∧
        ∀ l ∈ c.links, (l.boundsOr c.buffer).Ordered) := by
  cases hn : Node.create c .accepting with
  | error e =>
    have hstatus : (tryOut c).status = 1 := by simp only [tryOut, hn]
    simp [hstatus]
  | ok n =>
    rw [tryOut_of_create hn]
    by_cases hall : ∀ l ∈ c.links, (l.boundsOr c.buffer).Ordered
    · rw [if_pos hall]
      simpa using hall
    · rw [if_neg hall]
      simpa using hall

/-- The status of a call that checks a configuration or prints it. -/
theorem status_runArgs (read : String → Config.Source) (search : List String) {args : List String}
    {file : Option String} {printOnly : Bool} (h : ofArgs? args = some (.check file printOnly)) :
    (runArgs read search args).status =
      match config read search file with
      | .error _ => 1
      | .ok c => if printOnly then 0 else (tryOut c).status := by
  simp only [runArgs, h, run]
  cases config read search file with
  | error e => rfl
  | ok c => cases printOnly <;> rfl

end Command

/-- The check of a configuration is exact. A node is made if the configuration names one. When it
starts, the links with bounds out of order fail for that, in the order of the list, and each other
one is up with its first level. A call may ask for the check of a file or of what is found, and for
printing only. The program then ends with status one if there is no configuration or no node, else
with status two if some bounds are out of order, and with none of these in all other cases, among
them that the configuration is only printed. -/
theorem Config.check_exact :
    (∀ c t, (∃ n, Node.create c t = .ok n) ↔
      ∃ id, c.node.id = some id ∧ (∀ l ∈ c.links, l.peer ≠ id) ∧
        (c.links.map (·.peer)).Nodup) ∧
    (∀ c t n now, Node.create c t = .ok n → ∃ n', n.start now =
        (.ok ((c.links.filter fun l => ¬ (l.boundsOr c.buffer).Ordered).map fun l =>
          .buffer (n.linkTo l.peer) (.configuration (l.boundsOr c.buffer))), n') ∧
      ∀ l ∈ c.links,
        if (l.boundsOr c.buffer).Ordered then
          ∃ buffer, n'.links.buffer? (n.linkTo l.peer) = some buffer ∧
            buffer.current = (l.boundsOr c.buffer).initial
        else n'.links.buffer? (n.linkTo l.peer) = none) ∧
    (∀ args file printOnly, Command.Asks args file printOnly →
      Command.ofArgs? args = some (.check file printOnly)) ∧
    ∀ read search args file printOnly, Command.ofArgs? args = some (.check file printOnly) →
      ((Command.runArgs read search args).status = 1 ↔
        (∃ e, Command.config read search file = .error e) ∨
          printOnly = false ∧ ∃ c, Command.config read search file = .ok c ∧
            ∀ n, Node.create c .accepting ≠ .ok n) ∧
      ((Command.runArgs read search args).status = 2 ↔
        printOnly = false ∧ ∃ c n, Command.config read search file = .ok c ∧
          Node.create c .accepting = .ok n ∧ ∃ l ∈ c.links, ¬ (l.boundsOr c.buffer).Ordered) ∧
      ((Command.runArgs read search args).status = 0 ↔
        ∃ c, Command.config read search file = .ok c ∧
          (printOnly = true ∨ ∃ n, Node.create c .accepting = .ok n ∧
            ∀ l ∈ c.links, (l.boundsOr c.buffer).Ordered)) := by
  refine ⟨fun c t => ?_, fun c t n now hn => ?_, fun _ _ _ => Command.ofArgs?_of_asks,
    fun read search args file printOnly hargs => ?_⟩
  · rw [Node.exists_create_iff]
    constructor
    · rintro ⟨id, h⟩
      exact ⟨id, h.number, h.notSelf, h.distinct⟩
    · rintro ⟨id, hnumber, hself, hdistinct⟩
      exact ⟨id, hnumber, hself, hdistinct⟩
  · obtain ⟨hfailures, hup⟩ := n.start_of_fresh (Node.fresh_of_create hn) now
    refine ⟨(n.start now).2, Prod.ext hfailures rfl, fun l hl => ?_⟩
    rw [hup l hl, KeyBuffer.ofBounds]
    split
    · exact ⟨_, rfl, rfl⟩
    · rfl
  · rw [Command.status_runArgs read search hargs]
    cases Command.config read search file with
    | error e => simp
    | ok c =>
      cases printOnly with
      | true => simp
      | false => simpa using Command.status_tryOut c

/-- Three links, of which the second has a threshold below its floor. -/
def Config.mixedLinks : Config :=
  { Config.forNode ⟨1⟩ with
    links :=
      [⟨⟨2⟩, none⟩,
        ⟨⟨3⟩, some { minimum := 5, threshold := 4, maximum := 9, initial := 7 }⟩,
        ⟨⟨4⟩, some { minimum := 5, threshold := 6, maximum := 9, initial := 7 }⟩] }

/-- Only the second link fails, and the program says so when it is called with a file of these
settings, but not when it only prints them. A file that names a node without links passes, and where
no file is found there is no node. -/
theorem Config.check_exact_mixedLinks :
    ∃ n n', Node.create .mixedLinks .accepting = .ok n ∧
      n.start 0 = (.ok [.buffer (.join ⟨1⟩ ⟨3⟩) (.configuration
        { minimum := 5, threshold := 4, maximum := 9, initial := 7 })], n') ∧
      (n'.links.buffer? (.join ⟨1⟩ ⟨4⟩)).map (·.current) = some 7 ∧
      n'.links.buffer? (.join ⟨1⟩ ⟨3⟩) = none ∧
      (Command.runArgs (fun _ => .bytes (Config.print .mixedLinks).toUTF8) []
        ["--config=node.yaml"]).status = 2 ∧
      (Command.runArgs (fun _ => .bytes (Config.print .mixedLinks).toUTF8) []
        ["--config=node.yaml", "--dump-config"]).status = 0 ∧
      (Command.runArgs (fun _ => .bytes (Config.print (.forNode ⟨1⟩)).toUTF8) []
        ["--config", "node.yaml"]).status = 0 ∧
      (Command.runArgs (fun _ => .missing) ["node.yaml"] []).status = 1 := by
  obtain ⟨hmake, hstart, hasks, hstatus⟩ := Config.check_exact
  obtain ⟨n, hn⟩ := (hmake .mixedLinks .accepting).2 ⟨⟨1⟩, rfl, by decide, by decide⟩
  obtain ⟨n', hfailures, hup⟩ := hstart .mixedLinks .accepting n 0 hn
  have hlink : n.linkTo = .join ⟨1⟩ := by
    have hid : some n.id = some ⟨1⟩ := (Node.fresh_of_create hn).names.number.symm
    exact funext fun peer => congrArg (LinkKey.join · peer) (Option.some.inj hid)
  rw [hlink] at hfailures hup
  have hattached : Command.NamesFile "node.yaml" ["--config=node.yaml"] := .attached
  have hnext : Command.NamesFile "node.yaml" ["--config", "node.yaml"] :=
    .long (by simp [Command.isValue])
  have hcheck := hasks _ _ _ (.checkFile (by decide) hattached)
  have hprint := hasks _ _ _ (.filePrint (by decide) hattached)
  have hlong := hasks _ _ _ (.checkFile (by decide) hnext)
  have hconfig : ∀ c : Config,
      Command.config (fun _ => .bytes c.print.toUTF8) [] (some "node.yaml") = .ok c := by
    intro c
    rw [Command.config]
    exact c.loadFile_print rfl
  refine ⟨n, n', hn, hfailures, ?_, hup ⟨⟨3⟩, _⟩ (.tail _ (.head _)), ?_, ?_, ?_, ?_⟩
  · obtain ⟨buffer, hbuffer, hcurrent⟩ := hup ⟨⟨4⟩, _⟩ (.tail _ (.tail _ (.head _)))
    rw [hbuffer, Option.map_some, hcurrent]
    rfl
  · exact (hstatus _ [] _ _ _ hcheck).2.1.2
      ⟨rfl, .mixedLinks, n, hconfig _, hn, ⟨⟨3⟩, _⟩, .tail _ (.head _), by decide⟩
  · exact (hstatus _ [] _ _ _ hprint).2.2.2 ⟨.mixedLinks, hconfig _, .inl rfl⟩
  · obtain ⟨m, hm⟩ := (hmake (.forNode ⟨1⟩) .accepting).2 ⟨⟨1⟩, rfl, by decide, by decide⟩
    exact (hstatus _ [] _ _ _ hlong).2.2.2 ⟨.forNode ⟨1⟩, hconfig _, .inr ⟨m, hm, by decide⟩⟩
  · have hunnamed : ∀ n, Node.create .standard .accepting ≠ .ok n := fun n hn => by
      obtain ⟨id, hid, -⟩ := (hmake .standard .accepting).1 ⟨n, hn⟩
      cases hid
    exact (hstatus _ _ _ _ _ (hasks _ _ _ .check)).1.2 (.inr ⟨rfl, .standard, rfl, hunnamed⟩)

end KeyReserve
