import Fsync.Client.Fs
import Fsync.Watches

/-!
# Where edits go back to

Runs of `fs` by any users on any hosts, in any order with clicks on menu items.
Both servers key their registry on `server_fn` alone, so both are instances of
`Registry.Book` with that key, and the destination of the pull is what the entry
of a key leads to.

* `Ubuntu.routed_along_iff`, `Mac.routed_along_iff`: in every state of a run every
  acknowledged message whose item was not clicked since gets its edits back, if and
  only if no message is acknowledged while its `server_fn` is registered with
  another destination;
* `edits_return_along_iff`: both servers.
-/

namespace Fsync

open Posix Os Program Registry

/-- The commands that a change to `path` starts, for a list of routes. -/
def pullsOf (routes : List Route) (path : Str) : List (List Str) :=
  (routes.filter fun r => r.serverFn = path).map Route.pullCommand

theorem pullCommand_inj {r x : Route} :
    x.pullCommand = r.pullCommand ↔ x.serverFn = r.serverFn ∧ x.destination = r.destination := by
  simp [Route.pullCommand]

/-- A change starts the pull of `r` if an entry of its key leads where `r` does. -/
theorem mem_pullsOf {routes : List Route} {r : Route} :
    r.pullCommand ∈ pullsOf routes r.serverFn ↔
      ∃ x ∈ routes, x.serverFn = r.serverFn ∧ x.destination = r.destination := by
  rw [pullsOf, List.mem_map]
  constructor
  · rintro ⟨x, hx, heq⟩
    exact ⟨x, (List.mem_filter.1 hx).1, pullCommand_inj.1 heq⟩
  · rintro ⟨x, hx, hk, hd⟩
    exact ⟨x, List.mem_filter.2 ⟨hx, by simpa using hk⟩, pullCommand_inj.2 ⟨hk, hd⟩⟩

/-! ## Ubuntu -/

namespace Ubuntu

/-- What happens to the server: a run of `fs` sends its message, somebody clicks on
an item, or changes the file tree. -/
inductive Opening where
  | fs (client : Client.Env) (path : Str) (isDir : Bool) (env : Env)
  | click (i : ℕ)
  | disk (tree : FileTree Bytes)

/-- The action of the session, if `fs` accepts the path. -/
def Opening.action : Opening → Option Action
  | .fs client path isDir env =>
    (Client.opened client path isDir).map fun msg => .message env (.object msg.toDict)
  | .click i => some (.click i)
  | .disk tree => some (.disk tree)

/-- One step of a session with runs of `fs`. -/
def follow (s : Session) (o : Opening) : Option Session := o.action.bind (step s)

/-- A change to the file of a live message starts a pull to where its sender asked. -/
def EditsReturn (s : Session) : Prop :=
  ∀ r ∈ s.accepted, r.pullCommand ∈ s.fsync.pulls r.serverFn

/-- A message that will be acknowledged does not find its `server_fn` registered
with another destination. -/
def NoClash (s : Session) : Opening → Prop
  | .fs client path isDir env => ∀ msg, Client.opened client path isDir = some msg →
      CanLaunch env (.str msg.editor) (.str msg.serverFn) →
      ∀ item ∈ watchItems s.fsync.menu, item.serverFn = msg.serverFn →
        item.route.destination = msg.route.destination
  | _ => True

theorem pulls_eq {s : State} (h : Inv s) (path : Str) :
    s.pulls path = pullsOf ((watchItems s.menu).map (·.route)) path := by
  have hkey : ∀ items : List WatchFileMenuItem,
      (∀ item ∈ items, item.monitor.owner = item.route) →
      (∀ item ∈ items, item.monitor.path = item.serverFn) →
      ((items.map (·.monitor)).filter fun m => m.path = path).filterMap
          (fun m => fileChanged m.owner .changesDoneHint) =
        pullsOf (items.map (·.route)) path := by
    intro items
    induction items with
    | nil => intro _ _; rfl
    | cons item items ih =>
      intro ho hp
      have hrest := ih (fun i hi => ho i (List.mem_cons_of_mem _ hi))
        (fun i hi => hp i (List.mem_cons_of_mem _ hi))
      have h1 := ho item List.mem_cons_self
      have h2 : item.monitor.path = item.route.serverFn := hp item List.mem_cons_self
      by_cases hpath : item.route.serverFn = path
      · simp_all [pullsOf, fileChanged]
      · simp_all [pullsOf, fileChanged]
  rw [State.pulls, h.monitors]
  exact hkey _ h.owner h.path

theorem editsReturn_iff {s : Session} (h : Inv s.fsync) :
    EditsReturn s ↔ (book s).Routed Route.serverFn Route.destination := by
  simp only [EditsReturn, pulls_eq h, mem_pullsOf]
  rfl

theorem toDict_request (msg : PathMsg) :
    IsRequest (.object msg.toDict) (.str "path".toList) (msg.toDict.pop "type") :=
  ⟨msg.toDict, rfl, rfl, rfl⟩

theorem toDict_keys (msg : PathMsg) :
    ∀ key ∈ requiredKeys, (msg.toDict.pop "type").has key = true :=
  List.all_eq_true.1 (rfl : (requiredKeys.all fun key => (msg.toDict.pop "type").has key) = true)

/-- A path message that is answered is entered as acknowledged. -/
theorem book_answered {env : Env} {msg : PathMsg} {s : Session} {reply : Str} {t : State}
    (h : (zmqMsg env (.object msg.toDict)).run s.fsync = .ok reply t) :
    CanLaunch env (.str msg.editor) (.str msg.serverFn) ∧
      book (handle env (.object msg.toDict) s) =
        (book s).register Route.serverFn msg.route true := by
  have hbook := @book_handle env (.object msg.toDict) s
  have hroute : pathRoute (.object msg.toDict) = some msg.route := rfl
  rw [hroute] at hbook
  have hacc : (book (handle env (.object msg.toDict) s)).live = msg.route :: s.accepted := by
    show (handle env (.object msg.toDict) s).accepted = _
    rw [handle, h, hroute]
    rfl
  obtain ⟨-, ⟨m, ⟨full, hfull, -, rfl⟩, hok⟩ | ⟨m, ⟨full, hfull, ht, -⟩, -⟩⟩ := zmqMsg_eq_ok.1 h
  · cases hfull
    obtain ⟨editor, fn, t', hr, hl, -⟩ := registerNewPath_eq_ok.1 hok
    have he : editor = .str msg.editor := (Option.some.inj hr.editor).symm
    have hf : fn = .str msg.serverFn := (Option.some.inj hr.serverFn).symm
    rw [he, hf] at hl
    refine ⟨hl, ?_⟩
    rcases hbook with hb | ⟨r, acked, hr, hb⟩
    · rw [hb] at hacc
      exact absurd hacc (List.cons_ne_self _ _).symm
    · cases hr
      cases acked with
      | true => exact hb
      | false =>
        rw [hb] at hacc
        exact absurd hacc (List.cons_ne_self _ _).symm
  · cases hfull
    cases ht

/-- One that is not is not entered as acknowledged. -/
theorem book_unanswered {env : Env} {msg : PathMsg} {s : Session} {e : Exn} {t : State}
    (h : (zmqMsg env (.object msg.toDict)).run s.fsync = .error e t) :
    book (handle env (.object msg.toDict) s) = book s ∨
      book (handle env (.object msg.toDict) s) =
        (book s).register Route.serverFn msg.route false := by
  have hacc : (book (handle env (.object msg.toDict) s)).live = s.accepted := by
    show (handle env (.object msg.toDict) s).accepted = _
    rw [handle, h]
  rcases @book_handle env (.object msg.toDict) s with hb | ⟨r, acked, hr, hb⟩
  · exact Or.inl hb
  · obtain rfl : msg.route = r := Option.some.inj hr
    cases acked with
    | true =>
      rw [hb] at hacc
      exact absurd hacc (List.cons_ne_self _ _)
    | false => exact Or.inr hb

/-- A registered file and an editor that starts are all that a path message needs. -/
theorem zmqMsg_of_registered {env : Env} {msg : PathMsg} {s : State}
    (h : ∃ item ∈ watchItems s.menu, item.serverFn = msg.serverFn)
    (hl : CanLaunch env (.str msg.editor) (.str msg.serverFn)) :
    ∃ t, (zmqMsg env (.object msg.toDict)).run s = .ok "OK".toList t := by
  obtain ⟨item, hitem, hfn⟩ := h
  have hreg : Registers env s (msg.toDict.pop "type") (.str msg.editor) (.str msg.serverFn) s := by
    refine ⟨toDict_keys msg, rfl, rfl, Registration.kept hitem ?_⟩
    rw [hfn]
    rfl
  have hok := (registerNewPath_eq_ok (u := ())).2 ⟨_, _, _, hreg, hl, rfl⟩
  exact ⟨_, zmqMsg_eq_ok.2 ⟨rfl, Or.inl ⟨_, toDict_request msg, hok⟩⟩⟩

/-- **What a path message of a client does.**  If it is acknowledged it is
registered and its editor launched; if it is not, its file is not registered or its
editor cannot be launched. -/
theorem book_path (env : Env) (msg : PathMsg) (s : Session) :
    (CanLaunch env (.str msg.editor) (.str msg.serverFn) ∧
      book (handle env (.object msg.toDict) s) =
        (book s).register Route.serverFn msg.route true) ∨
    ((book (handle env (.object msg.toDict) s) = book s ∨
      book (handle env (.object msg.toDict) s) =
        (book s).register Route.serverFn msg.route false) ∧
      ((∃ item ∈ watchItems s.fsync.menu, item.serverFn = msg.serverFn) →
        ¬ CanLaunch env (.str msg.editor) (.str msg.serverFn))) := by
  cases h : (zmqMsg env (.object msg.toDict)).run s.fsync with
  | ok reply t => exact Or.inl (book_answered h)
  | error e t =>
    refine Or.inr ⟨book_unanswered h, fun hreg hl => ?_⟩
    obtain ⟨t', ht'⟩ := zmqMsg_of_registered hreg hl
    rw [h] at ht'
    cases ht'

theorem agrees_iff {s : Session} {r : Route} :
    (book s).Agrees Route.serverFn Route.destination r ↔
      ∀ item ∈ watchItems s.fsync.menu, item.serverFn = r.serverFn →
        item.route.destination = r.destination := by
  constructor
  · exact fun h item hitem hk => h item.route (List.mem_map_of_mem hitem) hk
  · intro h x hx hk
    obtain ⟨item, hitem, rfl⟩ := List.mem_map.1 hx
    exact h item hitem hk

theorem sound_follow {s s' : Session} {o : Opening} (h : Sound s) (hs : follow s o = some s') :
    Sound s' := by
  obtain ⟨a, -, ha⟩ := Option.bind_eq_some_iff.1 hs
  exact sound_step h ha

/-- **When a step keeps edits returning.** -/
theorem editsReturn_step_iff {s s' : Session} {o : Opening} (h : Sound s) (hr : EditsReturn s)
    (hs : follow s o = some s') : EditsReturn s' ↔ NoClash s o := by
  have hs' : Sound s' := sound_follow h hs
  rw [editsReturn_iff hs'.inv]
  rw [editsReturn_iff h.inv] at hr
  obtain ⟨a, ha, hstep⟩ := Option.bind_eq_some_iff.1 hs
  cases o with
  | fs client path isDir env =>
    obtain ⟨msg, hmsg, rfl⟩ := Option.map_eq_some_iff.1 ha
    obtain rfl := Option.some.inj hstep
    have hclash : NoClash s (.fs client path isDir env) ↔
        (CanLaunch env (.str msg.editor) (.str msg.serverFn) →
          (book s).Agrees Route.serverFn Route.destination msg.route) := by
      rw [agrees_iff]
      constructor
      · exact fun hc => hc msg hmsg
      · intro hc m hm
        rw [hmsg, Option.some.injEq] at hm
        subst hm
        exact hc
    rw [hclash]
    rcases book_path env msg s with ⟨hl, hb⟩ | ⟨hb, hno⟩
    · rw [hb, Book.routed_register_iff h.book hr]
      exact ⟨fun hc _ => hc, fun hc => hc hl⟩
    · constructor
      · intro _ hl
        rw [agrees_iff]
        exact fun item hitem hk => absurd hl (hno ⟨item, hitem, hk⟩)
      · intro _
        rcases hb with hb | hb
        · rw [hb]; exact hr
        · rw [hb]; exact Book.routed_of_not_acked hr msg.route
  | click i =>
    obtain rfl := Option.some.inj ha
    rw [book_click h.inv hstep]
    exact ⟨fun _ => trivial, fun _ => Book.routed_remove hr i⟩
  | disk tree =>
    obtain rfl := Option.some.inj ha
    obtain rfl := Option.some.inj hstep
    exact ⟨fun _ => trivial, fun _ => hr⟩

theorem routed_along_iff (tree : FileTree Bytes) (os : List Opening) :
    Run.Along follow EditsReturn (start tree) os ↔ Run.Guarded follow NoClash (start tree) os :=
  Run.along_iff_guarded_of_inv (fun _ _ _ h hs => sound_follow h hs)
    (fun _ _ _ h hr hs => editsReturn_step_iff h hr hs) (sound_start tree)
    (fun _ hr => by cases hr)

end Ubuntu

/-! ## The Mac -/

namespace Mac

/-- The app, with the path messages that were acknowledged and whose item was not
clicked since. -/
structure Served where
  app : App
  accepted : List Route

/-- A run of `fs`, a click, or a change of the files. -/
inductive Opening where
  | fs (client : Client.Env) (path : Str) (isDir : Bool) (cwd : Path) (mayCreate : Path → Bool)
  | click (i : ℕ)
  | disk (tree : FileTree Bytes)

/-- One step, with the books on accepted routes. -/
def follow (s : Served) : Opening → Option Served
  | .fs client path isDir cwd mayCreate =>
    (Client.opened client path isDir).bind fun msg =>
      (step s.app (.request cwd mayCreate (.path msg))).map fun app =>
        ⟨app, if app.terminated then s.accepted else msg.route :: s.accepted⟩
  | .click i =>
    match s.app.menu[i]? with
    | some (.watch item) => (step s.app (.click i)).map fun app =>
        ⟨app, s.accepted.filter fun r => r.serverFn ≠ item.watchFolder.serverFn⟩
    | _ => none
  | .disk tree => (step s.app (.disk tree)).map fun app => ⟨app, s.accepted⟩

/-- A change to the file of a live message starts a pull to where its sender asked. -/
def EditsReturn (s : Served) : Prop :=
  ∀ r ∈ s.accepted, r.pullCommand ∈ s.app.pulls r.serverFn

/-- A message does not find its `server_fn` registered with another destination. -/
def NoClash (s : Served) : Opening → Prop
  | .fs client path isDir _ _ => ∀ msg, Client.opened client path isDir = some msg →
      ∀ item ∈ watchItems s.app.menu, item.watchFolder.serverFn = msg.serverFn →
        item.route.destination = msg.route.destination
  | _ => True

/-- The app as a registry. -/
def book (s : Served) : Book Route := ⟨(watchItems s.app.menu).map (·.route), s.accepted⟩

/-- The invariant of a run. -/
structure Sound (s : Served) : Prop where
  menu : MenuOk s.app
  streams : StreamsOk s.app
  tracked : Tracked s.app
  book : (book s).Ok Route.serverFn

theorem sound_awakeFromNib (tree : FileTree Bytes) : Sound ⟨awakeFromNib tree, []⟩ :=
  ⟨menuOk_awakeFromNib tree, streamsOk_awakeFromNib tree, tracked_awakeFromNib tree,
    Book.ok_empty⟩

/-- A change to a path starts a pull of it exactly if an item for it leads there: the
streams of other items run their own pulls. -/
theorem mem_pulls {s : App} (h : MenuOk s) (ht : Tracked s) {r : Route} :
    r.pullCommand ∈ s.pulls r.serverFn ↔ ∃ x ∈ (watchItems s.menu).map (·.route),
      x.serverFn = r.serverFn ∧ x.destination = r.destination := by
  rw [App.pulls, App.reporting, h.streams, List.mem_map]
  constructor
  · rintro ⟨stream, hstream, heq⟩
    obtain ⟨item, hitem, rfl⟩ := List.mem_map.1 (List.mem_filter.1 hstream).1
    rw [callback, (ht.made item hitem).1] at heq
    exact ⟨item.route, List.mem_map_of_mem hitem, pullCommand_inj.1 heq⟩
  · rintro ⟨x, hx, hkey⟩
    obtain ⟨item, hitem, rfl⟩ := List.mem_map.1 hx
    have hmade := ht.made item hitem
    have hreports : item.watchFolder.stream.reports (absComps r.serverFn) := by
      have hroot := absComps_root hmade
      rwa [show item.watchFolder.serverFn = r.serverFn from hkey.1] at hroot
    refine ⟨item.watchFolder.stream, List.mem_filter.2 ⟨List.mem_map_of_mem hitem, ?_⟩, ?_⟩
    · simpa using hreports
    · rw [callback, hmade.1]
      exact pullCommand_inj.2 hkey

theorem editsReturn_iff {s : Served} (h : Sound s) :
    EditsReturn s ↔ (book s).Routed Route.serverFn Route.destination := by
  simp only [EditsReturn, mem_pulls h.menu h.tracked]
  rfl

/-- A path message is registered and acknowledged, or ends the app without a reply. -/
theorem book_path {s s' : Served} {client : Client.Env} {path : Str} {isDir : Bool} {cwd : Path}
    {mayCreate : Path → Bool} {msg : PathMsg} (hmsg : Client.opened client path isDir = some msg)
    (hs : follow s (.fs client path isDir cwd mayCreate) = some s') :
    book s' = (book s).register Route.serverFn msg.route true ∨
      (book s' = book s ∧ ∀ item ∈ watchItems s.app.menu,
        item.watchFolder.serverFn ≠ msg.serverFn) := by
  rw [follow, hmsg] at hs
  obtain ⟨app, hstep, rfl⟩ := Option.map_eq_some_iff.1 hs
  obtain ⟨halive, hact⟩ := act_of_step hstep
  obtain rfl : sendReply (registerNewPath cwd msg s.app) = app := Option.some.inj hact
  rw [book, menu_sendReply, terminated_sendReply]
  rcases registerNewPath_cases cwd msg s.app with ⟨hf, -, h⟩ | ⟨hf, -, h⟩ | ⟨⟨item, hi, hk⟩, h⟩
  · rw [h]
    exact Or.inr ⟨rfl, hf⟩
  · left
    have hfresh : ∀ r ∈ (book s).items, r.serverFn ≠ msg.route.serverFn := by
      intro r hr
      obtain ⟨item, hi, rfl⟩ := List.mem_map.1 hr
      exact hf item hi
    have hlive : (s.app.register cwd msg).terminated = false := halive
    rw [h, hlive, if_neg Bool.false_ne_true, Book.register, insertNew_of_fresh hfresh,
      watchItems_register, List.map_cons, route_newItem]
    rfl
  · left
    have hmem : item.route ∈ (book s).items := List.mem_map_of_mem hi
    rw [h, Book.register, insertNew_of_mem hmem hk, if_pos rfl]
    simp only [halive, if_neg Bool.false_ne_true]
    rfl

theorem book_click {s s' : Served} {i : ℕ} (h : Sound s) (hs : follow s (.click i) = some s') :
    book s' = (book s).remove Route.serverFn i := by
  rw [follow] at hs
  split at hs
  · rename_i item hi
    obtain ⟨app, hstep, rfl⟩ := Option.map_eq_some_iff.1 hs
    obtain ⟨-, hact⟩ := act_of_step hstep
    rw [act, clicked, hi] at hact
    obtain ⟨hitem, hrem⟩ := removeMenuItem_watch h.menu h.streams hi
    have hroute : (book s).items[i]? = some item.route := by
      rw [book, List.getElem?_map, hitem]
      rfl
    rw [← Option.some.inj hact, hrem, book, watchItems_map, Book.remove, hroute]
    simp only [book, List.eraseIdx_map]
    rfl
  · cases hs

theorem book_disk {s s' : Served} {tree : FileTree Bytes} (hs : follow s (.disk tree) = some s') :
    book s' = book s := by
  obtain ⟨app, hstep, rfl⟩ := Option.map_eq_some_iff.1 hs
  rw [← Option.some.inj (act_of_step hstep).2]
  rfl

/-- A step of `follow` is a step of the app that raises no alert. -/
theorem step_of_follow {s s' : Served} {o : Opening} (hs : follow s o = some s') :
    ∃ a, step s.app a = some s'.app ∧ AlertHasItem s.app a := by
  cases o with
  | fs client path isDir cwd mayCreate =>
    obtain ⟨msg, -, h⟩ := Option.bind_eq_some_iff.1 hs
    obtain ⟨app, hstep, rfl⟩ := Option.map_eq_some_iff.1 h
    exact ⟨_, hstep, trivial⟩
  | click i =>
    rw [follow] at hs
    split at hs
    · obtain ⟨app, hstep, rfl⟩ := Option.map_eq_some_iff.1 hs
      exact ⟨_, hstep, trivial⟩
    · cases hs
  | disk tree =>
    obtain ⟨app, hstep, rfl⟩ := Option.map_eq_some_iff.1 hs
    exact ⟨_, hstep, trivial⟩

theorem sound_follow {s s' : Served} {o : Opening} (h : Sound s) (hs : follow s o = some s') :
    Sound s' := by
  obtain ⟨a, hstep, hal⟩ := step_of_follow hs
  refine ⟨(menuOk_step_iff h.streams h.menu hstep).2 hal, streamsOk_step h.streams hstep,
    tracked_step h.tracked hstep, ?_⟩
  cases o with
  | fs client path isDir cwd mayCreate =>
    obtain ⟨msg, hmsg, -⟩ := Option.bind_eq_some_iff.1 hs
    rcases book_path hmsg hs with hb | ⟨hb, -⟩
    · rw [hb]; exact h.book.register msg.route true
    · rw [hb]; exact h.book
  | click i => rw [book_click h hs]; exact h.book.remove i
  | disk tree => rw [book_disk hs]; exact h.book

theorem agrees_iff {s : Served} {r : Route} :
    (book s).Agrees Route.serverFn Route.destination r ↔
      ∀ item ∈ watchItems s.app.menu, item.watchFolder.serverFn = r.serverFn →
        item.route.destination = r.destination := by
  constructor
  · exact fun h item hitem hk => h item.route (List.mem_map_of_mem hitem) hk
  · intro h x hx hk
    obtain ⟨item, hitem, rfl⟩ := List.mem_map.1 hx
    exact h item hitem hk

/-- **When a step keeps edits returning.** -/
theorem editsReturn_step_iff {s s' : Served} {o : Opening} (h : Sound s) (hr : EditsReturn s)
    (hs : follow s o = some s') : EditsReturn s' ↔ NoClash s o := by
  rw [editsReturn_iff (sound_follow h hs)]
  rw [editsReturn_iff h] at hr
  cases o with
  | fs client path isDir cwd mayCreate =>
    obtain ⟨msg, hmsg, -⟩ := Option.bind_eq_some_iff.1 hs
    have hclash : NoClash s (.fs client path isDir cwd mayCreate) ↔
        (book s).Agrees Route.serverFn Route.destination msg.route := by
      rw [agrees_iff]
      constructor
      · exact fun hc => hc msg hmsg
      · intro hc m hm
        rw [hmsg, Option.some.injEq] at hm
        subst hm
        exact hc
    rw [hclash]
    rcases book_path hmsg hs with hb | ⟨hb, hno⟩
    · rw [hb]
      exact Book.routed_register_iff h.book hr msg.route
    · rw [hb]
      exact ⟨fun _ => agrees_iff.2 fun item hi hk => absurd hk (hno item hi), fun _ => hr⟩
  | click i =>
    rw [book_click h hs]
    exact ⟨fun _ => trivial, fun _ => Book.routed_remove hr i⟩
  | disk tree =>
    rw [book_disk hs]
    exact ⟨fun _ => trivial, fun _ => hr⟩

theorem routed_along_iff (tree : FileTree Bytes) (os : List Opening) :
    Run.Along follow EditsReturn ⟨awakeFromNib tree, []⟩ os ↔
      Run.Guarded follow NoClash ⟨awakeFromNib tree, []⟩ os :=
  Run.along_iff_guarded_of_inv (fun _ _ _ h hs => sound_follow h hs)
    (fun _ _ _ h hr hs => editsReturn_step_iff h hr hs) (sound_awakeFromNib tree)
    (fun _ hr => by cases hr)

end Mac

/-! ## Both servers -/

/-- **Where edits go.**  In every state of a run of either server, edits of every
file that was opened and not unregistered go back to the client that opened it, if
and only if no message was acknowledged whose `server_fn` was registered with
another destination. -/
theorem edits_return_along_iff (tree : FileTree Bytes) :
    (∀ os, Run.Along Mac.follow Mac.EditsReturn ⟨Mac.awakeFromNib tree, []⟩ os ↔
      Run.Guarded Mac.follow Mac.NoClash ⟨Mac.awakeFromNib tree, []⟩ os) ∧
    ∀ os, Run.Along Ubuntu.follow Ubuntu.EditsReturn (Ubuntu.start tree) os ↔
      Run.Guarded Ubuntu.follow Ubuntu.NoClash (Ubuntu.start tree) os :=
  ⟨Mac.routed_along_iff tree, Ubuntu.routed_along_iff tree⟩

/-- A workstation that has the copy of their file. -/
def clashTree : FileTree Bytes :=
  ((DirTree.empty.put ["tmp".toList] .dir).put ["tmp".toList, "h".toList] .dir).put
    ["tmp".toList, "h".toList, "f".toList] (.file [])

/-- Ann and Bob both open their file `f`.  Both messages are acknowledged, by either
server, and every edit of the copy goes to Ann. -/
theorem second_user_gets_nothing :
    (∃ s, Run.exec Mac.follow ⟨Mac.awakeFromNib clashTree, []⟩
        [.fs Client.ann "f".toList false [] fun _ => true, .fs Client.bob "f".toList false [] fun _ => true] =
          some s ∧
      s.accepted = [⟨"/tmp/h/f".toList, "bob@h".toList, "/home/bob/f".toList⟩,
        ⟨"/tmp/h/f".toList, "ann@h".toList, "/home/ann/f".toList⟩] ∧
      s.app.pulls "/tmp/h/f".toList = [["/usr/bin/rsync".toList, "-r".toList, "/tmp/h/f".toList,
        "ann@h:/home/ann/f".toList]] ∧ ¬ Mac.EditsReturn s) ∧
    ∃ s, Run.exec Ubuntu.follow (Ubuntu.start clashTree)
        [.fs Client.ann "f".toList false Ubuntu.sampleEnv, .fs Client.bob "f".toList false Ubuntu.sampleEnv] =
          some s ∧
      s.accepted = [⟨"/tmp/h/f".toList, "bob@h".toList, "/home/bob/f".toList⟩,
        ⟨"/tmp/h/f".toList, "ann@h".toList, "/home/ann/f".toList⟩] ∧
      s.fsync.pulls "/tmp/h/f".toList = [["/usr/bin/rsync".toList, "-r".toList,
        "/tmp/h/f".toList, "ann@h:/home/ann/f".toList]] ∧ ¬ Ubuntu.EditsReturn s :=
  ⟨⟨_, rfl, rfl, rfl, fun h => absurd (h _ List.mem_cons_self) (by decide)⟩,
    ⟨_, rfl, rfl, rfl, fun h => absurd (h _ List.mem_cons_self) (by decide)⟩⟩

end Fsync
