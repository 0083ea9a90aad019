import Fsync.Base.Registry
import Fsync.Base.Run
import Fsync.Mac.AppDelegate

/-!
# The registry of the Mac server

`MenuOk` is what the menu, the streams and the separator should look like in
every state.  Every operation keeps it but one: an alert that is raised when no
file is watched removes the top separator.

* `menuOk_step_iff`: a step keeps `MenuOk` exactly if it is not such an alert;
* `menuOk_along_iff`: so a run keeps it in every state exactly if each of its
  alerts finds a watch item in the menu.
-/

namespace Fsync.Mac

open Posix Os Registry

/-! ## The menu as a list of watch items -/

theorem mem_watchItems {menu : List MenuItem} {item : WatchItem} :
    item ∈ watchItems menu ↔ .watch item ∈ menu := by
  rw [watchItems, List.mem_filterMap]
  constructor
  · rintro ⟨w, hw, h⟩
    cases w <;> cases h
    exact hw
  · exact fun h => ⟨_, h, rfl⟩

theorem watchItems_map (items : List WatchItem) :
    watchItems (items.map .watch ++ fixedItems) = items := by
  rw [watchItems, List.filterMap_append, List.filterMap_map]
  exact (List.append_nil _).trans List.filterMap_some

theorem watch_notMem_fixedItems (item : WatchItem) : .watch item ∉ fixedItems := by
  simp [fixedItems]

theorem scan_iff (serverFn : Str) (b : Bool) (w : MenuItem) : scan serverFn b w = true ↔
    b = true ∧ ∀ item, w = .watch item → serverFn ≠ item.watchFolder.serverFn := by
  cases w with
  | watch item => by_cases h : serverFn = item.watchFolder.serverFn <;> simp [scan, h]
  | topSeparator => simp [scan]
  | about => simp [scan]
  | separator => simp [scan]
  | quit => simp [scan]

/-- The scan finds exactly the items with the `server_fn` of the message. -/
theorem isUnique_iff {menu : List MenuItem} {serverFn : Str} :
    isUnique menu serverFn = true ↔
      ∀ item ∈ watchItems menu, item.watchFolder.serverFn ≠ serverFn := by
  rw [isUnique, foldl_flag (scan_iff serverFn), and_iff_right rfl]
  constructor
  · intro h item hitem
    exact Ne.symm (h _ (mem_watchItems.1 hitem) item rfl)
  · rintro h w hw item rfl
    exact Ne.symm (h item (mem_watchItems.2 hw))

/-! ## The invariant -/

/-- The menu is the watch items and then the four fixed items; the watch items
have different `server_fn`; the streams are those of the watch items; the top
separator is hidden exactly if there is none; and no index was out of range. -/
structure MenuOk (s : App) : Prop where
  menu : s.menu = (watchItems s.menu).map .watch ++ fixedItems
  distinct : ((watchItems s.menu).map (·.watchFolder.serverFn)).Nodup
  streams : s.streams = (watchItems s.menu).map (·.watchFolder.stream)
  hidden : s.topHidden = true ↔ watchItems s.menu = []
  range : s.rangeError = false

/-- Streams have different numbers, all given out. -/
structure StreamsOk (s : App) : Prop where
  old : ∀ stream ∈ s.streams, stream.id < s.nextStream
  ids : (s.streams.map (·.id)).Nodup

theorem menuOk_awakeFromNib (tree : FileTree Bytes) : MenuOk (awakeFromNib tree) :=
  ⟨rfl, by simp [awakeFromNib, fixedItems, watchItems], rfl,
    by simp [awakeFromNib, fixedItems, watchItems], rfl⟩

theorem streamsOk_awakeFromNib (tree : FileTree Bytes) : StreamsOk (awakeFromNib tree) :=
  ⟨by simp [awakeFromNib], by simp [awakeFromNib]⟩

/-- Nothing that the registry is made of differs between two states. -/
structure SameRegistry (s s' : App) : Prop where
  menu : s'.menu = s.menu
  topHidden : s'.topHidden = s.topHidden
  streams : s'.streams = s.streams
  nextStream : s'.nextStream = s.nextStream
  rangeError : s'.rangeError = s.rangeError

theorem SameRegistry.menuOk {s s' : App} (h : SameRegistry s s') (hs : MenuOk s) : MenuOk s' := by
  obtain ⟨h1, h2, h3, -, h5⟩ := h
  exact ⟨by rw [h1]; exact hs.menu, by rw [h1]; exact hs.distinct, by rw [h1, h3]; exact hs.streams,
    by rw [h1, h2]; exact hs.hidden, by rw [h5]; exact hs.range⟩

theorem SameRegistry.streamsOk {s s' : App} (h : SameRegistry s s') (hs : StreamsOk s) :
    StreamsOk s' :=
  ⟨by rw [h.streams, h.nextStream]; exact hs.old, by rw [h.streams]; exact hs.ids⟩

/-! ## Registration -/

/-- The item of a new file. -/
def App.newItem {T : Type} [FileSystem T Bytes] (s : App T) (cwd : Path) (msg : PathMsg) :
    WatchItem :=
  ⟨itemTitle msg.hostname msg.displayname, ⟨msg.serverFn, msg.clientFn, msg.hostname,
    ⟨s.nextStream, watchRoot s.tree cwd msg.serverFn, msg.route⟩⟩⟩

/-- The state with the item of a new file. -/
def App.register {T : Type} [FileSystem T Bytes] (s : App T) (cwd : Path) (msg : PathMsg) :
    App T :=
  { s with
    menu := .watch (s.newItem cwd msg) :: s.menu
    topHidden := false
    streams := (s.newItem cwd msg).watchFolder.stream :: s.streams
    nextStream := s.nextStream + 1
    editors := s.editors ++ [(msg.editor, msg.serverFn)] }

@[simp] theorem watchItems_register (s : App) (cwd : Path) (msg : PathMsg) :
    watchItems (s.register cwd msg).menu = s.newItem cwd msg :: watchItems s.menu := rfl

@[simp] theorem route_newItem (s : App) (cwd : Path) (msg : PathMsg) :
    (s.newItem cwd msg).route = msg.route := rfl

/-- **What `registerNewPath:` does**: the app ends if the file is new and does not
exist; else the file has an item afterwards and its editor is to be launched. -/
theorem registerNewPath_cases {T : Type} [FileSystem T Bytes] (cwd : Path) (msg : PathMsg)
    (s : App T) :
    ((∀ item ∈ watchItems s.menu, item.watchFolder.serverFn ≠ msg.serverFn) ∧
      pathExists s.tree cwd msg.serverFn = false ∧
      registerNewPath cwd msg s =
        terminate { s with alerts := s.alerts ++ ["File doesn't exist".toList] }) ∨
    ((∀ item ∈ watchItems s.menu, item.watchFolder.serverFn ≠ msg.serverFn) ∧
      pathExists s.tree cwd msg.serverFn = true ∧
      registerNewPath cwd msg s = s.register cwd msg) ∨
    ((∃ item ∈ watchItems s.menu, item.watchFolder.serverFn = msg.serverFn) ∧
      registerNewPath cwd msg s =
        { s with editors := s.editors ++ [(msg.editor, msg.serverFn)] }) := by
  rw [registerNewPath]
  by_cases hu : isUnique s.menu msg.serverFn = true
  · rw [if_pos hu]
    have hfresh := isUnique_iff.1 hu
    cases hex : pathExists s.tree cwd msg.serverFn with
    | false => exact Or.inl ⟨hfresh, rfl, if_neg (by simp)⟩
    | true => exact Or.inr (Or.inl ⟨hfresh, rfl, if_pos rfl⟩)
  · refine Or.inr (Or.inr ⟨?_, if_neg hu⟩)
    by_contra hc
    push Not at hc
    exact hu (isUnique_iff.2 hc)

theorem menuOk_register {s : App} (h : MenuOk s) {cwd : Path} {msg : PathMsg}
    (hfresh : ∀ item ∈ watchItems s.menu, item.watchFolder.serverFn ≠ msg.serverFn) :
    MenuOk (s.register cwd msg) := by
  refine ⟨?_, ?_, ?_, ?_, h.range⟩ <;> rw [watchItems_register]
  · rw [List.map_cons, List.cons_append, ← h.menu]
    rfl
  · rw [List.map_cons, List.nodup_cons]
    refine ⟨fun hm => ?_, h.distinct⟩
    obtain ⟨i, hi, hk⟩ := List.mem_map.1 hm
    exact hfresh i hi hk
  · rw [List.map_cons, ← h.streams]
    rfl
  · exact ⟨fun hc => (Bool.false_ne_true hc).elim, fun hc => by simp at hc⟩

theorem streamsOk_register {s : App} (h : StreamsOk s) (cwd : Path) (msg : PathMsg) :
    StreamsOk (s.register cwd msg) := by
  refine ⟨fun stream hm => ?_, List.nodup_cons.2 ⟨fun hm => ?_, h.ids⟩⟩
  · rcases List.mem_cons.1 hm with rfl | hm
    · exact Nat.lt_succ_self _
    · exact Nat.lt_succ_of_lt (h.old stream hm)
  · obtain ⟨x, hx, hid⟩ := List.mem_map.1 hm
    have hlt := h.old x hx
    rw [hid] at hlt
    exact lt_irrefl _ hlt

/-! ## Removal -/

theorem removeMenuItem_menu (i : ℕ) (s : App) :
    (removeMenuItem i s).menu = s.menu.eraseIdx i := by
  have hun : ∀ item, (unregisterStream item s).menu = s.menu := fun item => by cases item <;> rfl
  rw [removeMenuItem]
  split
  · rename_i h
    exact (List.eraseIdx_of_length_le (List.getElem?_eq_none_iff.1 h)).symm
  · rename_i item _
    exact congrArg (·.eraseIdx i) (hun item)

theorem streamsOk_removeMenuItem {s : App} (h : StreamsOk s) (i : ℕ) :
    StreamsOk (removeMenuItem i s) := by
  rw [removeMenuItem]
  split
  · exact h
  · rename_i w _
    cases w with
    | watch item =>
      exact ⟨fun x hx => h.old x (List.mem_filter.1 hx).1,
        h.ids.sublist (List.filter_sublist.map _)⟩
    | topSeparator => exact ⟨h.old, h.ids⟩
    | about => exact ⟨h.old, h.ids⟩
    | separator => exact ⟨h.old, h.ids⟩
    | quit => exact ⟨h.old, h.ids⟩

/-- A watch item of the menu is at its place among the watch items. -/
theorem MenuOk.item_at {s : App} (h : MenuOk s) {i : ℕ} {item : WatchItem} :
    s.menu[i]? = some (.watch item) ↔ (watchItems s.menu)[i]? = some item := by
  conv_lhs => rw [h.menu]
  exact getElem?_entry_iff (fun a b hab => MenuItem.watch.inj hab) watch_notMem_fixedItems

/-- Removing a watch item removes its entry and its stream, nothing else. -/
theorem removeMenuItem_watch {s : App} (h : MenuOk s) (hids : StreamsOk s) {i : ℕ}
    {item : WatchItem} (hi : s.menu[i]? = some (.watch item)) :
    (watchItems s.menu)[i]? = some item ∧
      removeMenuItem i s = { s with
        menu := ((watchItems s.menu).eraseIdx i).map .watch ++ fixedItems
        streams := ((watchItems s.menu).eraseIdx i).map (·.watchFolder.stream)
        topHidden := decide ((watchItems s.menu).eraseIdx i = []) } := by
  have hitem : (watchItems s.menu)[i]? = some item := h.item_at.1 hi
  have hnd : ((watchItems s.menu).map fun x => x.watchFolder.stream.id).Nodup := by
    have hn := hids.ids
    rw [h.streams, List.map_map] at hn
    exact hn
  have hmenu : s.menu.eraseIdx i = ((watchItems s.menu).eraseIdx i).map .watch ++ fixedItems := by
    conv_lhs => rw [h.menu]
    exact eraseIdx_entry _ _ hitem
  have hstreams : s.streams.filter (fun x => x.id ≠ item.watchFolder.stream.id) =
      ((watchItems s.menu).eraseIdx i).map (·.watchFolder.stream) := by
    conv_lhs => rw [h.streams]
    rw [List.filter_map, ← filter_key_ne hnd hitem]
    rfl
  have hvisible : s.topHidden = false := by
    have hne : watchItems s.menu ≠ [] := by
      intro h0
      rw [h0] at hitem
      simp at hitem
    simpa using mt h.hidden.1 hne
  have hcount : ∀ items : List WatchItem,
      (if (items.map MenuItem.watch ++ fixedItems).length ≤ 4 then true else false) =
        decide (items = []) := by
    intro items
    cases items <;> simp [fixedItems]
  refine ⟨hitem, ?_⟩
  rw [removeMenuItem, hi]
  simp only [unregisterStream, hstreams, hmenu, hvisible, hcount]

theorem menuOk_removeMenuItem {s : App} (h : MenuOk s) (hids : StreamsOk s) {i : ℕ}
    {item : WatchItem} (hi : s.menu[i]? = some (.watch item)) : MenuOk (removeMenuItem i s) := by
  rw [(removeMenuItem_watch h hids hi).2]
  refine ⟨?_, ?_, ?_, ?_, h.range⟩ <;> simp only [watchItems_map]
  · exact h.distinct.sublist ((List.eraseIdx_sublist _ i).map _)
  · exact decide_eq_true_iff

/-! ## Alerts -/

/-- With a watch item in the menu, an alert removes the first one. -/
theorem menuOk_raiseAlert {s : App} (h : MenuOk s) (hids : StreamsOk s)
    (hne : watchItems s.menu ≠ []) (msg : Str) : MenuOk (raiseAlert msg s) := by
  obtain ⟨item, items, hitems⟩ := List.exists_cons_of_ne_nil hne
  have hi : s.menu[0]? = some (.watch item) := by
    rw [h.menu, hitems]
    rfl
  have hmenu : s.menu ≠ [] := by
    intro h0
    rw [h0] at hi
    simp at hi
  rw [raiseAlert, if_neg hmenu]
  have hrem := menuOk_removeMenuItem h hids hi
  exact ⟨hrem.menu, hrem.distinct, hrem.streams, hrem.hidden, hrem.range⟩

/-- With none, it removes the top separator. -/
theorem not_menuOk_raiseAlert {s : App} (h : MenuOk s) (hempty : watchItems s.menu = [])
    (msg : Str) : ¬ MenuOk (raiseAlert msg s) := by
  have hmenu : s.menu = fixedItems := by rw [h.menu, hempty]; rfl
  have hleft : (raiseAlert msg s).menu = [.about, .separator, .quit] := by
    rw [raiseAlert, if_neg (by rw [hmenu]; simp [fixedItems])]
    exact (removeMenuItem_menu 0 s).trans (by rw [hmenu]; rfl)
  intro hc
  have hshape := hc.menu
  rw [hleft] at hshape
  exact absurd hshape (by decide)

/-! ## Steps and runs -/

theorem sameRegistry_mkdirForClient (cwd : Path) (mayCreate : Path → Bool) (dir : Str) (s : App) :
    SameRegistry s (mkdirForClient cwd mayCreate dir s) := by
  rw [mkdirForClient]
  split <;> exact ⟨rfl, rfl, rfl, rfl, rfl⟩

theorem sameRegistry_launchEditor (env : EditorEnv) (editorPath arg : Str) (s : App) :
    SameRegistry s (launchEditor env editorPath arg s) := by
  rw [launchEditor]
  split
  · exact ⟨rfl, rfl, rfl, rfl, rfl⟩
  · split
    · exact ⟨rfl, rfl, rfl, rfl, rfl⟩
    · simp only
      split <;> exact ⟨rfl, rfl, rfl, rfl, rfl⟩

theorem terminated_sendReply {T : Type} (s : App T) : (sendReply s).terminated = s.terminated := by
  rw [sendReply]
  split <;> rfl

theorem menu_sendReply (s : App) : (sendReply s).menu = s.menu := by
  rw [sendReply]
  split <;> rfl

theorem SameRegistry.sendReply {s s' : App} (h : SameRegistry s s') :
    SameRegistry s (sendReply s') := by
  rw [Mac.sendReply]
  split
  · exact h
  · exact ⟨h.menu, h.topHidden, h.streams, h.nextStream, h.rangeError⟩

/-- `poll` registers the file of a path message that is new and exists, and leaves
the registry as it is else. -/
theorem poll_cases (cwd : Path) (mayCreate : Path → Bool) (req : Request) (s : App) :
    SameRegistry s (poll cwd mayCreate req s) ∨ ∃ msg, req = .path msg ∧
      (∀ item ∈ watchItems s.menu, item.watchFolder.serverFn ≠ msg.serverFn) ∧
      pathExists s.tree cwd msg.serverFn = true ∧
      SameRegistry (s.register cwd msg) (poll cwd mayCreate req s) := by
  cases req with
  | path msg =>
    rw [poll]
    rcases registerNewPath_cases cwd msg s with ⟨-, -, h⟩ | ⟨hf, hex, h⟩ | ⟨-, h⟩
    · exact Or.inl (by rw [h]; exact SameRegistry.sendReply ⟨rfl, rfl, rfl, rfl, rfl⟩)
    · refine Or.inr ⟨msg, rfl, hf, hex, ?_⟩
      rw [h]
      exact SameRegistry.sendReply ⟨rfl, rfl, rfl, rfl, rfl⟩
    · exact Or.inl (by rw [h]; exact SameRegistry.sendReply ⟨rfl, rfl, rfl, rfl, rfl⟩)
  | mkdir dir => exact Or.inl (sameRegistry_mkdirForClient cwd mayCreate dir s).sendReply
  | bad => exact Or.inl (SameRegistry.sendReply ⟨rfl, rfl, rfl, rfl, rfl⟩)

/-- An alert that is raised finds a watch item in the menu. -/
def AlertHasItem (s : App) : Action → Prop
  | .runQueued k => ∀ msg, s.queue[k]? = some (.raiseAlert, msg) → watchItems s.menu ≠ []
  | _ => True

/-- What a step does to the registry: nothing, a registration, a click on a watch
item, or an alert. -/
inductive RegistryStep (s s' : App) : Action → Prop
  | same {a : Action} (hs : SameRegistry s s') (ha : AlertHasItem s a) : RegistryStep s s' a
  | register {cwd : Path} {mayCreate : Path → Bool} {msg : PathMsg}
      (fresh : ∀ item ∈ watchItems s.menu, item.watchFolder.serverFn ≠ msg.serverFn)
      (found : pathExists s.tree cwd msg.serverFn = true) (hs : SameRegistry (s.register cwd msg) s') :
      RegistryStep s s' (.request cwd mayCreate (.path msg))
  | click {i : ℕ} {item : WatchItem} (hi : s.menu[i]? = some (.watch item))
      (hs : s' = removeMenuItem i s) : RegistryStep s s' (.click i)
  | alert {k : ℕ} {msg : Str} (hk : s.queue[k]? = some (.raiseAlert, msg))
      (hs : s' = raiseAlert msg { s with queue := s.queue.eraseIdx k }) :
      RegistryStep s s' (.runQueued k)

theorem registryStep_of_step {s s' : App} {a : Action} (hs : step s a = some s') :
    RegistryStep s s' a := by
  obtain ⟨-, hs⟩ := act_of_step hs
  cases a with
  | request cwd mayCreate req =>
    rw [← Option.some.inj hs]
    rcases poll_cases cwd mayCreate req s with h | ⟨msg, rfl, hf, hex, h⟩
    · exact .same h trivial
    · exact .register hf hex h
  | click i =>
    rw [act, clicked] at hs
    split at hs
    · rename_i item hi
      exact .click hi (Option.some.inj hs).symm
    · cases hs
  | pullFails i stderr =>
    obtain ⟨_, -, rfl⟩ := Option.map_eq_some_iff.1 hs
    exact .same ⟨rfl, rfl, rfl, rfl, rfl⟩ trivial
  | editorEnds k env =>
    obtain ⟨⟨editor, arg⟩, -, rfl⟩ := Option.map_eq_some_iff.1 hs
    obtain ⟨h1, h2, h3, h4, h5⟩ := sameRegistry_launchEditor env editor arg
      { s with editors := s.editors.eraseIdx k }
    exact .same ⟨h1, h2, h3, h4, h5⟩ trivial
  | runQueued k =>
    obtain ⟨⟨selector, msg⟩, hk, rfl⟩ := Option.map_eq_some_iff.1 hs
    cases selector with
    | raiseAlert => exact .alert hk rfl
    | raiseLaunchAlert =>
      refine .same ⟨rfl, rfl, rfl, rfl, rfl⟩ fun m hm => ?_
      rw [hk] at hm
      cases hm
  | disk tree =>
    rw [← Option.some.inj hs]
    exact .same ⟨rfl, rfl, rfl, rfl, rfl⟩ trivial

theorem streamsOk_raiseAlert {s : App} (h : StreamsOk s) (msg : Str) :
    StreamsOk (raiseAlert msg s) := by
  rw [raiseAlert]
  split
  · exact ⟨h.old, h.ids⟩
  · have hrem := streamsOk_removeMenuItem h 0
    exact ⟨hrem.old, hrem.ids⟩

theorem streamsOk_step {s s' : App} {a : Action} (h : StreamsOk s) (hs : step s a = some s') :
    StreamsOk s' := by
  cases registryStep_of_step hs with
  | same hsame _ => exact hsame.streamsOk h
  | register _ _ hreg => exact hreg.streamsOk (streamsOk_register h _ _)
  | click _ hrem => rw [hrem]; exact streamsOk_removeMenuItem h _
  | @alert k msg _ hal =>
    have hq : StreamsOk { s with queue := s.queue.eraseIdx k } := ⟨h.old, h.ids⟩
    rw [hal]
    exact streamsOk_raiseAlert hq msg

/-- **When a step keeps the invariant.** -/
theorem menuOk_step_iff {s s' : App} {a : Action} (hids : StreamsOk s) (h : MenuOk s)
    (hs : step s a = some s') : MenuOk s' ↔ AlertHasItem s a := by
  cases registryStep_of_step hs with
  | same hsame ha => exact ⟨fun _ => ha, fun _ => hsame.menuOk h⟩
  | register hf _ hreg =>
    exact ⟨fun _ => trivial, fun _ => hreg.menuOk (menuOk_register h hf)⟩
  | click hi hrem =>
    rw [hrem]
    exact ⟨fun _ => trivial, fun _ => menuOk_removeMenuItem h hids hi⟩
  | @alert k msg hk hal =>
    have hq : MenuOk { s with queue := s.queue.eraseIdx k } :=
      ⟨h.menu, h.distinct, h.streams, h.hidden, h.range⟩
    rw [hal]
    constructor
    · intro hok m _ hempty
      exact not_menuOk_raiseAlert hq hempty msg hok
    · intro hal
      exact menuOk_raiseAlert hq ⟨hids.old, hids.ids⟩ (hal msg hk) msg

/-- **The registry invariant.**  In a run from `awakeFromNib` it holds in every
state if and only if every alert that is raised finds a watch item in the menu. -/
theorem menuOk_along_iff (tree : FileTree Bytes) (as : List Action) :
    Run.Along step MenuOk (awakeFromNib tree) as ↔
      Run.Guarded step AlertHasItem (awakeFromNib tree) as :=
  Run.along_iff_guarded_of_inv (fun _ _ _ h hs => streamsOk_step h hs)
    (fun _ _ _ hids h hs => menuOk_step_iff hids h hs) (streamsOk_awakeFromNib tree)
    (menuOk_awakeFromNib tree)

/-- A file tree with one file, `/f`, and the message that opens it. -/
def sampleTree : FileTree Bytes := DirTree.empty.put ["f".toList] (.file [])

/-- A message for the file `/f`. -/
def sampleMsg : PathMsg :=
  ⟨"~/f".toList, "mate".toList, "/f".toList, "ann@h".toList, "/home/ann/f".toList⟩

/-- Two pulls of one file fail before the first alert is raised: the second alert
removes the top separator. -/
theorem second_alert_removes_the_separator :
    ∃ s, Run.exec step (awakeFromNib sampleTree)
        [.request [] (fun _ => true) (.path sampleMsg), .pullFails 0 "e1".toList,
          .pullFails 0 "e2".toList, .runQueued 0, .runQueued 0] = some s ∧
      s.menu = [.about, .separator, .quit] ∧ ¬ MenuOk s :=
  ⟨_, rfl, rfl, fun h => absurd h.menu (by decide)⟩

end Fsync.Mac
