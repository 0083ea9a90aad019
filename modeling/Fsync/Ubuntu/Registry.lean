import Fsync.Base.Registry
import Fsync.Base.Run
import Fsync.Ubuntu.Handlers

/-!
# The registry of the Ubuntu server

Runs of the Ubuntu server: requests, clicks on menu items, and changes others
make to its file tree, in any order.  A `Session` adds to the state of the
server the path messages it answered and whose item was not clicked since.

* `Inv` and `inv_step`: the shape of the menu and the bookkeeping of monitors;
* `book_step`: a step of the server is a step of the abstract registry
  `Registry.Book`, so what holds of that holds of the server;
* `registry_invariant`: both together, in every reachable state.
-/

namespace Fsync.Ubuntu

open Posix Os Program Registry

/-! ## Runs -/

/-- The server, with the path messages that were answered and whose item was
not clicked since. -/
structure Session where
  fsync : State
  accepted : List Route

/-- What the server does, one event at a time. -/
inductive Action where
  | message (env : Env) (req : Json)
  /-- A click on the item at a position of the menu. -/
  | click (i : ℕ)
  /-- Somebody changes the file tree. -/
  | disk (tree : FileTree Bytes)

/-- Where a path message wants its edits. -/
def routeOf (msg : Dict) : Option Route :=
  match msg.get? "server_fn", msg.get? "hostname", msg.get? "client_fn" with
  | some (.str serverFn), some hostname, some clientFn =>
    some ⟨serverFn, hostname.text, clientFn.text⟩
  | _, _, _ => none

/-- The route of a request, if it is a path message. -/
def pathRoute : Json → Option Route
  | .object msg => if msg.get? "type" = some (.str "path".toList) then routeOf msg else none
  | _ => none

/-- The server handles a request: `zmq_msg`, whether it returns or raises. -/
def handle (env : Env) (req : Json) (s : Session) : Session :=
  match (zmqMsg env req).run s.fsync with
  | .ok _ fsync => ⟨fsync, (pathRoute req).toList ++ s.accepted⟩
  | .error _ fsync => ⟨fsync, s.accepted⟩

/-- One step, with the books on accepted routes. -/
def step (s : Session) : Action → Option Session
  | .message env req => some (handle env req s)
  | .click i =>
    match s.fsync.menu[i]? with
    | some (.watch item) => (itemClicked i s.fsync).map fun fsync =>
        ⟨fsync, s.accepted.filter fun r => r.serverFn ≠ item.serverFn⟩
    | _ => none
  | .disk tree => some { s with fsync := { s.fsync with tree := tree } }

/-- The session of `Fsync.__init__`. -/
def start (tree : FileTree Bytes) : Session := ⟨init tree, []⟩

/-! ## The invariant of the menu and the monitors -/

/-- The menu is the watch items and then what `create_menu` built, and the
monitors are those of the watch items. -/
structure Inv (s : State) : Prop where
  menu : s.menu = (watchItems s.menu).map .watch ++ createMenu
  monitors : s.monitors = (watchItems s.menu).map (·.monitor)
  old : ∀ m ∈ s.monitors, m.id < s.nextMonitor
  ids : (s.monitors.map (·.id)).Nodup
  owner : ∀ item ∈ watchItems s.menu, item.monitor.owner = item.route
  path : ∀ item ∈ watchItems s.menu, item.monitor.path = item.serverFn

theorem watchItems_append (items : List WatchFileMenuItem) (rest : List Widget) :
    watchItems (items.map .watch ++ rest) = items ++ watchItems rest := by
  rw [watchItems, List.filterMap_append, List.filterMap_map]
  congr 1
  exact List.filterMap_some

theorem watchItems_createMenu : watchItems createMenu = [] := rfl

theorem watchItems_map (items : List WatchFileMenuItem) :
    watchItems (items.map .watch ++ createMenu) = items := by
  rw [watchItems_append, watchItems_createMenu, List.append_nil]

theorem watch_notMem_createMenu (item : WatchFileMenuItem) : .watch item ∉ createMenu := by
  simp [createMenu]

theorem inv_init (tree : FileTree Bytes) : Inv (init tree) :=
  ⟨rfl, rfl, by simp [init], by simp [init], by simp [init, watchItems_createMenu],
    by simp [init, watchItems_createMenu]⟩

theorem inv_tree {s : State} (h : Inv s) (tree : FileTree Bytes) : Inv { s with tree := tree } :=
  ⟨h.menu, h.monitors, h.old, h.ids, h.owner, h.path⟩

theorem watchItems_prepend (s : State) (item : WatchFileMenuItem) :
    watchItems (s.prepend item).menu = item :: watchItems s.menu := rfl

theorem inv_prepend {env : Env} {s : State} {msg : Dict} {item : WatchFileMenuItem} (h : Inv s)
    (hw : Watches env s msg item) : Inv (s.prepend item) := by
  have hid : item.monitor.id = s.nextMonitor := by rw [hw.monitor]
  refine ⟨?_, ?_, ?_, ?_, ?_, ?_⟩
  · rw [watchItems_prepend, List.map_cons, List.cons_append, ← h.menu]
    rfl
  · rw [watchItems_prepend, List.map_cons, ← h.monitors]
    rfl
  · intro m hm
    rcases List.mem_cons.1 hm with rfl | hm
    · rw [hid]
      exact Nat.lt_succ_self _
    · exact Nat.lt_succ_of_lt (h.old m hm)
  · refine List.nodup_cons.2 ⟨fun hm => ?_, h.ids⟩
    -- an old monitor has a smaller number
    obtain ⟨m, hm, hmid⟩ := List.mem_map.1 hm
    have hlt := h.old m hm
    rw [hmid] at hlt
    simp only [hid, lt_irrefl] at hlt
  · rw [watchItems_prepend]
    intro i hi
    rcases List.mem_cons.1 hi with rfl | hi
    · rw [hw.monitor]
    · exact h.owner i hi
  · rw [watchItems_prepend]
    intro i hi
    rcases List.mem_cons.1 hi with rfl | hi
    · rw [hw.monitor]
    · exact h.path i hi

theorem inv_registration {env : Env} {s s' : State} {msg : Dict} (h : Inv s)
    (hr : Registration env s msg s') : Inv s' := by
  cases hr with
  | kept mem serverFn => exact h
  | added fresh hw => exact inv_prepend h hw

/-- A watch item of the menu is at its place among the watch items. -/
theorem Inv.item_at {s : State} (h : Inv s) {i : ℕ} {item : WatchFileMenuItem} :
    s.menu[i]? = some (.watch item) ↔ (watchItems s.menu)[i]? = some item := by
  conv_lhs => rw [h.menu]
  exact getElem?_entry_iff (fun a b hab => Widget.watch.inj hab) watch_notMem_createMenu

/-- A click removes the item and cancels its monitor. -/
theorem itemClicked_eq {s s' : State} {i : ℕ} (h : Inv s) (hs : itemClicked i s = some s') :
    ∃ item, s.menu[i]? = some (.watch item) ∧ (watchItems s.menu)[i]? = some item ∧
      s' = { s with menu := ((watchItems s.menu).eraseIdx i).map .watch ++ createMenu,
                    monitors := ((watchItems s.menu).eraseIdx i).map (·.monitor) } := by
  rw [itemClicked] at hs
  split at hs
  · rename_i item hi
    have hitem : (watchItems s.menu)[i]? = some item := h.item_at.1 hi
    refine ⟨item, hi, hitem, ?_⟩
    have hids : ((watchItems s.menu).map fun x => x.monitor.id).Nodup := by
      have hnd := h.ids
      rw [h.monitors, List.map_map] at hnd
      exact hnd
    have hmenu : s.menu.eraseIdx i = ((watchItems s.menu).eraseIdx i).map .watch ++ createMenu := by
      conv_lhs => rw [h.menu]
      exact eraseIdx_entry _ _ hitem
    have hmon : s.monitors.filter (fun m => m.id ≠ item.monitor.id) =
        ((watchItems s.menu).eraseIdx i).map (·.monitor) := by
      conv_lhs => rw [h.monitors]
      rw [List.filter_map, ← filter_key_ne hids hitem]
      rfl
    rw [← Option.some.inj hs, hmenu, hmon]
  · cases hs

theorem inv_itemClicked {s s' : State} {i : ℕ} (h : Inv s) (hs : itemClicked i s = some s') :
    Inv s' := by
  obtain ⟨item, -, -, rfl⟩ := itemClicked_eq h hs
  have hsub : ∀ x, x ∈ (watchItems s.menu).eraseIdx i → x ∈ watchItems s.menu :=
    fun x hx => List.mem_of_mem_eraseIdx hx
  refine ⟨?_, ?_, ?_, ?_, ?_, ?_⟩ <;> simp only [watchItems_map]
  · intro m hm
    obtain ⟨x, hx, rfl⟩ := List.mem_map.1 hm
    exact h.old _ (h.monitors ▸ List.mem_map_of_mem (hsub x hx))
  · have hids := h.ids
    rw [h.monitors, List.map_map] at hids
    rw [List.map_map]
    exact hids.sublist ((List.eraseIdx_sublist _ i).map _)
  · exact fun x hx => h.owner x (hsub x hx)
  · exact fun x hx => h.path x (hsub x hx)

/-- **What a request does to the registry**: nothing, or it registers the path of
a path message and may then launch an editor. -/
theorem handle_cases (env : Env) (req : Json) (s : Session) :
    (∃ tree, (handle env req s).fsync = { s.fsync with tree := tree } ∧
      ((handle env req s).accepted = s.accepted)) ∨
    ∃ msg editor serverFn t launched, IsRequest req (.str "path".toList) msg ∧
      Registers env s.fsync msg editor serverFn t ∧
      (handle env req s).fsync = { t with launched := launched } ∧
      ((handle env req s).accepted = s.accepted ∨
        (handle env req s).accepted = (pathRoute req).toList ++ s.accepted) := by
  rw [handle]
  cases h : (zmqMsg env req).run s.fsync with
  | ok reply s' =>
    obtain ⟨rfl, ⟨msg, hreq, hok⟩ | ⟨msg, hreq, hok⟩⟩ := zmqMsg_eq_ok.1 h
    · obtain ⟨editor, serverFn, t, hr, -, rfl⟩ := registerNewPath_eq_ok.1 hok
      exact Or.inr ⟨msg, editor, serverFn, t, _, hreq, hr, rfl, Or.inr rfl⟩
    · obtain ⟨dir, -, -, rfl⟩ := mkdirForClient_eq_ok.1 hok
      obtain ⟨full, rfl, ht, rfl⟩ := hreq
      refine Or.inl ⟨_, rfl, ?_⟩
      have hno : pathRoute (.object full) = none := by
        rw [pathRoute, if_neg (by rw [ht]; decide)]
      rw [hno]
      rfl
  | error e s' =>
    rcases zmqMsg_error h with ⟨tree, rfl⟩ | ⟨msg, editor, serverFn, hreq, hr, -⟩
    · exact Or.inl ⟨tree, rfl, rfl⟩
    · exact Or.inr ⟨msg, editor, serverFn, s', s'.launched, hreq, hr, rfl, Or.inl rfl⟩

theorem inv_handle {env : Env} {req : Json} {s : Session} (h : Inv s.fsync) :
    Inv (handle env req s).fsync := by
  rcases handle_cases env req s with ⟨tree, hs, -⟩ | ⟨msg, editor, fn, t, l, -, hr, hs, -⟩
  · rw [hs]
    exact inv_tree h tree
  · rw [hs]
    have ht := inv_registration h hr.registration
    exact ⟨ht.menu, ht.monitors, ht.old, ht.ids, ht.owner, ht.path⟩

theorem inv_step {s s' : Session} {a : Action} (h : Inv s.fsync) (hs : step s a = some s') :
    Inv s'.fsync := by
  cases a with
  | message env req =>
    rw [← Option.some.inj hs]
    exact inv_handle h
  | click i =>
    rw [step] at hs
    split at hs
    · obtain ⟨t, ht, rfl⟩ := Option.map_eq_some_iff.1 hs
      exact inv_itemClicked h ht
    · cases hs
  | disk tree =>
    rw [← Option.some.inj hs]
    exact inv_tree h tree

/-! ## The abstract registry -/

/-- The registry of a session: what the menu routes, and the accepted messages. -/
def book (s : Session) : Book Route := ⟨(watchItems s.fsync.menu).map (·.route), s.accepted⟩

theorem routeOf_registers {env : Env} {s s' : State} {msg : Dict} {editor serverFn : Value}
    (hr : Registers env s msg editor serverFn s') :
    ∃ r, routeOf msg = some r ∧
      (watchItems s'.menu).map (·.route) =
        insertNew Route.serverFn r ((watchItems s.menu).map (·.route)) := by
  obtain ⟨h, hh⟩ := Dict.has_iff.1 (hr.keys "hostname" (by decide))
  obtain ⟨c, hc⟩ := Dict.has_iff.1 (hr.keys "client_fn" (by decide))
  have hreg := hr.registration
  cases hreg with
  | @kept item mem hfn =>
    refine ⟨⟨item.serverFn, h.text, c.text⟩, by rw [routeOf, hfn, hh, hc], ?_⟩
    have hmem : item.route ∈ (watchItems s.menu).map (·.route) := List.mem_map_of_mem mem
    rw [insertNew_of_mem hmem]
    rfl
  | @added item fresh hw =>
    have hfn := hw.serverFn
    have hh' := hw.hostname
    have hc' := hw.clientFn
    rw [Dict.get?_pop (by decide)] at hfn hh' hc'
    refine ⟨item.route, by rw [routeOf, hfn, hh', hc']; rfl, ?_⟩
    rw [insertNew_of_fresh, watchItems_prepend, List.map_cons]
    intro r hrm
    obtain ⟨i, hi, rfl⟩ := List.mem_map.1 hrm
    exact fresh i hi

/-- The step of the abstract registry that a step of the server is. -/
inductive BookStep (b : Book Route) : Book Route → Prop
  | idle : BookStep b b
  | register (r : Route) (acked : Bool) : BookStep b (b.register Route.serverFn r acked)
  | remove (i : ℕ) : BookStep b (b.remove Route.serverFn i)

/-- A request registers its own route, and is acknowledged or not. -/
theorem book_handle {env : Env} {req : Json} {s : Session} :
    book (handle env req s) = book s ∨ ∃ r acked, pathRoute req = some r ∧
      book (handle env req s) = (book s).register Route.serverFn r acked := by
  rcases handle_cases env req s with ⟨tree, hs, ha⟩ | ⟨msg, editor, fn, t, l, hreq, hr, hs, ha⟩
  · left
    rw [book, book, hs, ha]
  · right
    obtain ⟨full, rfl, ht, rfl⟩ := hreq
    obtain ⟨r, hroute, hitems⟩ := routeOf_registers hr
    have hpath : pathRoute (.object full) = some r := by
      rw [pathRoute, if_pos ht, ← hroute, routeOf, routeOf, Dict.get?_pop (by decide),
        Dict.get?_pop (by decide), Dict.get?_pop (by decide)]
    have hmenu : (watchItems (handle env (.object full) s).fsync.menu).map (·.route) =
        insertNew Route.serverFn r ((watchItems s.fsync.menu).map (·.route)) := by
      rw [hs, ← hitems]
    rcases ha with ha | ha
    · refine ⟨r, false, hpath, ?_⟩
      rw [book, hmenu, ha]
      rfl
    · refine ⟨r, true, hpath, ?_⟩
      rw [book, hmenu, ha, hpath]
      rfl

/-- A click removes the entry at its place. -/
theorem book_click {s s' : Session} {i : ℕ} (h : Inv s.fsync)
    (hs : step s (.click i) = some s') : book s' = (book s).remove Route.serverFn i := by
  rw [step] at hs
  split at hs
  · rename_i item hi
    obtain ⟨t, ht, rfl⟩ := Option.map_eq_some_iff.1 hs
    obtain ⟨item', hi', hitem, rfl⟩ := itemClicked_eq h ht
    rw [hi', Option.some.injEq, Widget.watch.injEq] at hi
    subst hi
    have hb : (book s).items[i]? = some item'.route := by
      rw [book, List.getElem?_map, hitem]
      rfl
    rw [Book.remove, hb, book]
    simp only [watchItems_map]
    rw [book, List.eraseIdx_map]
    rfl
  · cases hs

theorem book_step {s s' : Session} {a : Action} (h : Inv s.fsync) (hs : step s a = some s') :
    BookStep (book s) (book s') := by
  cases a with
  | message env req =>
    rw [← Option.some.inj hs]
    rcases book_handle with hb | ⟨r, acked, -, hb⟩
    · rw [hb]; exact BookStep.idle
    · rw [hb]; exact BookStep.register r acked
  | click i => rw [book_click h hs]; exact BookStep.remove i
  | disk tree => rw [← Option.some.inj hs]; exact BookStep.idle

theorem ok_of_bookStep {b b' : Book Route} (h : b.Ok Route.serverFn) (hs : BookStep b b') :
    b'.Ok Route.serverFn := by
  cases hs with
  | idle => exact h
  | register r acked => exact h.register r acked
  | remove i => exact h.remove i

/-- What holds in every state of a run. -/
structure Sound (s : Session) : Prop where
  inv : Inv s.fsync
  book : (book s).Ok Route.serverFn

theorem sound_start (tree : FileTree Bytes) : Sound (start tree) :=
  ⟨inv_init tree, Book.ok_empty⟩

theorem sound_step {s s' : Session} {a : Action} (h : Sound s) (hs : step s a = some s') :
    Sound s' :=
  ⟨inv_step h.inv hs, ok_of_bookStep h.book (book_step h.inv hs)⟩

/-- **The registry invariant.**  In every reachable state the menu is the watch
items and then the four fixed items, no two watch items have the same
`server_fn`, the active monitors are those of the watch items, and every file
that was accepted and not clicked away since has its item. -/
theorem registry_invariant {tree : FileTree Bytes} {s : Session}
    (h : Run.Reachable step (start tree) s) :
    ∃ items : List WatchFileMenuItem,
      s.fsync.menu = items.map .watch ++ createMenu ∧
      (items.map (·.serverFn)).Nodup ∧
      s.fsync.monitors = items.map (·.monitor) ∧
      ∀ r ∈ s.accepted, ∃ item ∈ items, item.serverFn = r.serverFn := by
  have hs : Sound s := h.inv (sound_start tree) fun _ _ _ hs ht => sound_step hs ht
  refine ⟨watchItems s.fsync.menu, hs.inv.menu, ?_, hs.inv.monitors, fun r hr => ?_⟩
  · have hnd := hs.book.nodup
    rw [Ubuntu.book, List.map_map] at hnd
    exact hnd
  · obtain ⟨x, hx, hk⟩ := hs.book.entry r hr
    obtain ⟨item, hitem, rfl⟩ := List.mem_map.1 hx
    exact ⟨item, hitem, hk⟩

/-! ### A session with one file -/

/-- A system that refuses nothing. -/
def sampleEnv : Env := ⟨[], fun _ => true, fun _ => true, false, fun _ => true⟩

/-- A file tree with one file, `/f`. -/
def sampleTree : FileTree Bytes := DirTree.empty.put ["f".toList] (.file [])

/-- A message for the file `/f`. -/
def sampleMsg : PathMsg :=
  ⟨"~/f".toList, "/usr/bin/vi".toList, "/f".toList, "ann@h".toList, "/home/ann/f".toList⟩

/-- The session after `/f` was opened. -/
def sampleSession : Session := handle sampleEnv (.object sampleMsg.toDict) (start sampleTree)

theorem registry_invariant_sample : sampleSession.accepted = [sampleMsg.route] ∧
    ∃ items : List WatchFileMenuItem,
      sampleSession.fsync.menu = items.map .watch ++ createMenu ∧
      (items.map (·.serverFn)).Nodup ∧
      sampleSession.fsync.monitors = items.map (·.monitor) ∧
      ∀ r ∈ sampleSession.accepted, ∃ item ∈ items, item.serverFn = r.serverFn :=
  ⟨rfl, registry_invariant ⟨[.message sampleEnv (.object sampleMsg.toDict)], rfl⟩⟩

/-! ## One registration -/

/-- The message gets a new item: it has the keys, its file has no item yet, and
`WatchFileMenuItem(**msg)` makes one. -/
structure Adds (env : Env) (s : State) (msg : Dict) (item : WatchFileMenuItem) : Prop where
  keys : ∀ key ∈ requiredKeys, msg.has key = true
  fresh : ∀ i ∈ watchItems s.menu, i.serverFn ≠ item.serverFn
  watches : Watches env s (msg.pop "editor") item

theorem Adds.registers {env : Env} {s : State} {msg : Dict} {item : WatchFileMenuItem}
    (h : Adds env s msg item) : ∃ editor, Registers env s msg editor (.str item.serverFn)
      (s.prepend item) := by
  obtain ⟨editor, heditor⟩ := Dict.has_iff.1 (h.keys "editor" (by decide))
  have hfn := h.watches.serverFn
  rw [Dict.get?_pop (by decide)] at hfn
  exact ⟨editor, h.keys, heditor, hfn, .added h.fresh h.watches⟩

/-- **What `register_new_path` leaves.**  If it returns, the file is registered and the
editor launched.  If it raises, nothing has changed, or all but the launch was done: the
file has got its item and its monitor, and keeps them. -/
theorem registered_or_unchanged (env : Env) (s : State) (msg : Dict) :
    match (registerNewPath env msg).run s with
    | .ok _ s' => ∃ editor serverFn, msg.get? "editor" = some (.str editor) ∧
        msg.get? "server_fn" = some (.str serverFn) ∧
        (∃ item ∈ watchItems s'.menu, item.serverFn = serverFn) ∧
        s'.launched = s.launched ++ [[editor, serverFn]]
    | .error _ s' => s'.launched = s.launched ∧
        ((s'.menu = s.menu ∧ s'.monitors = s.monitors ∧ ∀ item, ¬ Adds env s msg item) ∨
          ∃ item editor, s'.menu = .watch item :: s.menu ∧
            s'.monitors = item.monitor :: s.monitors ∧ Adds env s msg item ∧
            msg.get? "editor" = some editor ∧ ¬ CanLaunch env editor (.str item.serverFn)) := by
  cases hrun : (registerNewPath env msg).run s with
  | ok u s' =>
    obtain ⟨editor, serverFn, t, hr, hl, rfl⟩ := registerNewPath_eq_ok.1 hrun
    obtain ⟨e, rfl, -⟩ := hl.editor
    obtain ⟨f, rfl, -⟩ := hl.arg
    refine ⟨e, f, hr.editor, hr.serverFn, ?_, ?_⟩
    · cases hr.registration with
      | @kept item mem serverFn =>
        rw [hr.serverFn, Option.some.injEq] at serverFn
        exact ⟨item, mem, (Value.str.inj serverFn).symm⟩
      | @added item fresh watches =>
        have hfn := watches.serverFn
        rw [Dict.get?_pop (by decide), hr.serverFn, Option.some.injEq] at hfn
        refine ⟨item, ?_, (Value.str.inj hfn).symm⟩
        show item ∈ watchItems (.watch item :: s.menu)
        exact mem_watchItems.2 List.mem_cons_self
    · cases hr.registration <;> rfl
  | error e s' =>
    rcases registerNewPath_error hrun with ⟨rfl, hno⟩ | ⟨editor, serverFn, hr, hl⟩
    · refine ⟨rfl, Or.inl ⟨rfl, rfl, fun item hadds => ?_⟩⟩
      obtain ⟨editor, hr⟩ := hadds.registers
      exact hno _ _ _ hr
    · cases hr.registration with
      | @kept item mem serverFn =>
        refine ⟨rfl, Or.inl ⟨rfl, rfl, fun new hadds => ?_⟩⟩
        have hfn := hadds.watches.serverFn
        rw [Dict.get?_pop (by decide), serverFn, Option.some.injEq] at hfn
        exact hadds.fresh item mem (Value.str.inj hfn)
      | @added item fresh watches =>
        have hfn := watches.serverFn
        rw [Dict.get?_pop (by decide), hr.serverFn, Option.some.injEq] at hfn
        rw [hfn] at hl
        exact ⟨rfl, Or.inr ⟨item, editor, rfl, rfl, ⟨hr.keys, fresh, watches⟩, hr.editor, hl⟩⟩

/-- If the editor cannot be executed, the file keeps its item and its monitor. -/
theorem raises_and_registers : ∃ e s',
    (registerNewPath { sampleEnv with canExecute := fun _ => false }
      (sampleMsg.toDict.pop "type")).run (init sampleTree) = .error e s' ∧ e = .osError ∧
      s'.menu ≠ (init sampleTree).menu ∧ s'.monitors ≠ (init sampleTree).monitors :=
  ⟨_, _, rfl, rfl, by decide, by decide⟩

end Fsync.Ubuntu
