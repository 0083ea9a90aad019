import Fsync.Watches

/-!
# Which watch a failed pull removes

A callback waits for its `rsync` and, if that fails, leaves the text of the error to
the main thread.  The call has nothing that names the watch; `raiseAlert:` removes
the item at index 0, "really should remove the *correct* item".

* `Failing`: the app, with the callbacks that wait and, beside each queued call, the
  stream whose pull failed, which the code does not keep;
* `RemovesOnly`: what the alert for a stream should do;
* `alerts_right_iff`: the alerts of a run all do so exactly if each finds the item of
  its watch in front.
-/

namespace Fsync.Mac

open Posix Os Registry

/-! ## Pulls that fail -/

/-- The app with its pulls under way, and for each call in the queue whose failure it is about. -/
structure Failing where
  app : App
  /-- The streams whose callbacks wait for `rsync`, stopped or not. -/
  pulls : List Stream
  /-- For each call in the queue, the stream whose pull failed. -/
  culprits : List (Option Stream)

namespace Failing

/-- The actions of the app, with a pull as two: its start and its end. -/
inductive Action where
  | request (cwd : Path) (mayCreate : Path → Bool) (req : Request)
  | click (i : ℕ)
  | editorEnds (k : ℕ) (env : EditorEnv)
  | disk (tree : FileTree Bytes)
  /-- The callback of a stream is called. -/
  | pullBegins (i : ℕ)
  /-- The `rsync` of a callback exits, with an error or not. -/
  | pullEnds (k : ℕ) (error : Option Str)
  | runQueued (k : ℕ)

/-- A step of the app in which no pull begins or ends; what it leaves to the main
thread is no failed pull. -/
def other (s : Failing) (a : Mac.Action) : Option Failing :=
  (Mac.step s.app a).map fun app =>
    { s with
      app := app
      culprits := s.culprits ++ List.replicate (app.queue.length - s.app.queue.length) none }

/-- A pull that fails leaves an alert to the main thread, with the stream it is about. -/
def step (s : Failing) : Action → Option Failing
  | .request cwd mayCreate req => s.other (.request cwd mayCreate req)
  | .click i => s.other (.click i)
  | .editorEnds k env => s.other (.editorEnds k env)
  | .disk tree => s.other (.disk tree)
  | .pullBegins i =>
    if s.app.terminated then none
    else (s.app.streams[i]?).map fun stream => { s with pulls := s.pulls ++ [stream] }
  | .pullEnds k error =>
    if s.app.terminated then none
    else (s.pulls[k]?).map fun stream =>
      match error with
      | none => { s with pulls := s.pulls.eraseIdx k }
      | some stderr => { s with
          app := performOnMainThread .raiseAlert stderr s.app
          pulls := s.pulls.eraseIdx k
          culprits := s.culprits ++ [some stream] }
  | .runQueued k => (Mac.step s.app (.runQueued k)).map fun app =>
      { s with app := app, culprits := s.culprits.eraseIdx k }

/-- The app has just started. -/
def start (tree : FileTree Bytes) : Failing := ⟨awakeFromNib tree, [], []⟩

/-! ## What an alert should do -/

/-- The item is the one of the stream. -/
def Owns (stream : Stream) (item : WatchItem) : Prop := item.watchFolder.stream.id = stream.id

/-- Between the two states, the item of the stream is removed and the stream stopped
if it has an item, and nothing else happens to menu and streams. -/
structure RemovesOnly (stream : Stream) (s s' : App) : Prop where
  registered : ∀ item ∈ watchItems s.menu, Owns stream item →
    s'.menu = s.menu.erase (.watch item) ∧ ∀ x ∈ s'.streams, x.id ≠ stream.id
  gone : (∀ item ∈ watchItems s.menu, ¬ Owns stream item) →
    s'.menu = s.menu ∧ s'.streams = s.streams
  others : ∀ item ∈ watchItems s.menu, ¬ Owns stream item →
    item ∈ watchItems s'.menu ∧ item.watchFolder.stream ∈ s'.streams

/-- If the main thread performs the call of a failed pull, the right watch goes. -/
def AlertRight (s : Failing) : Action → Prop
  | .runQueued k => ∀ stream s', s.culprits[k]? = some (some stream) →
      step s (.runQueued k) = some s' → RemovesOnly stream s.app s'.app
  | _ => True

/-- If the main thread performs the call of a failed pull, the item of its stream is
the first of the menu, or there is no item at all. -/
def CulpritFirst (s : Failing) : Action → Prop
  | .runQueued k => ∀ stream, s.culprits[k]? = some (some stream) →
      s.app.menu = [] ∨ ∃ item, s.app.menu.head? = some (.watch item) ∧ Owns stream item
  | _ => True

/-! ## The queue -/

/-- Each failed pull has its call in the queue. -/
def Parallel (s : Failing) : Prop :=
  s.culprits.map Option.isSome = s.app.queue.map fun call => decide (call.1 = .raiseAlert)

end Failing

theorem queue_sendReply (s : App) : (sendReply s).queue = s.queue := by
  rw [sendReply]
  split <;> rfl

theorem queue_poll (cwd : Path) (mayCreate : Path → Bool) (req : Request) (s : App) :
    (poll cwd mayCreate req s).queue = s.queue := by
  cases req with
  | path msg =>
    rw [poll, queue_sendReply]
    rcases registerNewPath_cases cwd msg s with ⟨-, -, h⟩ | ⟨-, -, h⟩ | ⟨-, h⟩ <;> rw [h] <;> rfl
  | mkdir dir =>
    rw [poll, queue_sendReply, mkdirForClient]
    split <;> rfl
  | bad => exact queue_sendReply (terminate s)

theorem queue_removeMenuItem (i : ℕ) (s : App) : (removeMenuItem i s).queue = s.queue := by
  rw [removeMenuItem]
  split
  · rfl
  · rename_i item _
    cases item <;> rfl

/-- An editor leaves calls of its own kind to the main thread. -/
theorem queue_launchEditor (env : EditorEnv) (editorPath arg : Str) (s : App) :
    ∃ calls : List (Selector × Str), (launchEditor env editorPath arg s).queue = s.queue ++ calls ∧
      ∀ call ∈ calls, call.1 = .raiseLaunchAlert := by
  rw [launchEditor]
  split
  · exact ⟨[_], rfl, by simp⟩
  · split
    · exact ⟨[], by simp [terminate], by simp⟩
    · dsimp only
      split
      · exact ⟨[_], rfl, by simp⟩
      · exact ⟨[], by simp, by simp⟩

namespace Failing

theorem parallel_other {s s' : Failing} {a : Mac.Action} (hs : Parallel s)
    (h : s.other a = some s')
    (hqueue : ∀ app, Mac.step s.app a = some app → ∃ calls : List (Selector × Str),
      app.queue = s.app.queue ++ calls ∧ ∀ call ∈ calls, call.1 = .raiseLaunchAlert) :
    Parallel s' := by
  obtain ⟨app, happ, rfl⟩ := Option.map_eq_some_iff.1 h
  obtain ⟨calls, hcalls, hkind⟩ := hqueue app happ
  have hnone : calls.map (fun call => decide (call.1 = Selector.raiseAlert)) =
      List.replicate calls.length false := by
    rw [List.eq_replicate_iff]
    refine ⟨List.length_map _, fun b hb => ?_⟩
    obtain ⟨call, hcall, rfl⟩ := List.mem_map.1 hb
    rw [hkind call hcall]
    rfl
  rw [Parallel] at hs ⊢
  dsimp only
  rw [hcalls, List.map_append, List.map_append, hs, hnone, List.length_append,
    Nat.add_sub_cancel_left, List.map_replicate]
  rfl

/-- A step keeps the calls beside their pulls. -/
theorem parallel_step {s s' : Failing} {a : Action} (hs : Parallel s) (h : step s a = some s') :
    Parallel s' := by
  cases a with
  | request cwd mayCreate req =>
    refine parallel_other hs h fun app happ => ?_
    obtain rfl := Option.some.inj (act_of_step happ).2
    exact ⟨[], by rw [queue_poll, List.append_nil], by simp⟩
  | click i =>
    refine parallel_other hs h fun app happ => ?_
    have hact := (act_of_step happ).2
    rw [act, clicked] at hact
    split at hact
    · obtain rfl := Option.some.inj hact
      exact ⟨[], by rw [queue_removeMenuItem, List.append_nil], by simp⟩
    · cases hact
  | editorEnds k env =>
    refine parallel_other hs h fun app happ => ?_
    obtain ⟨⟨editor, arg⟩, -, rfl⟩ := Option.map_eq_some_iff.1 (act_of_step happ).2
    exact queue_launchEditor env editor arg { s.app with editors := s.app.editors.eraseIdx k }
  | disk tree =>
    refine parallel_other hs h fun app happ => ?_
    obtain rfl := Option.some.inj (act_of_step happ).2
    exact ⟨[], (List.append_nil _).symm, by simp⟩
  | pullBegins i =>
    rw [step] at h
    split at h
    · cases h
    · obtain ⟨stream, -, rfl⟩ := Option.map_eq_some_iff.1 h
      exact hs
  | pullEnds k error =>
    rw [step] at h
    split at h
    · cases h
    · obtain ⟨stream, -, rfl⟩ := Option.map_eq_some_iff.1 h
      cases error with
      | none => exact hs
      | some stderr =>
        rw [Parallel] at hs ⊢
        simp [performOnMainThread, hs]
  | runQueued k =>
    obtain ⟨app, happ, rfl⟩ := Option.map_eq_some_iff.1 h
    have hqueue : app.queue = s.app.queue.eraseIdx k := by
      obtain ⟨⟨selector, msg⟩, -, rfl⟩ := Option.map_eq_some_iff.1 (act_of_step happ).2
      cases selector with
      | raiseAlert =>
        show (raiseAlert msg _).queue = _
        rw [raiseAlert]
        split
        · rfl
        · exact queue_removeMenuItem 0 _
      | raiseLaunchAlert => rfl
    rw [Parallel] at hs ⊢
    dsimp only
    rw [hqueue, ← List.eraseIdx_map, ← List.eraseIdx_map, hs]

end Failing

/-! ## One alert -/

theorem menu_raiseAlert (msg : Str) (s : App) : (raiseAlert msg s).menu = s.menu.tail := by
  rw [raiseAlert]
  split
  · rename_i h
    show s.menu = _
    rw [h]
    rfl
  · show (removeMenuItem 0 s).menu = _
    rw [removeMenuItem_menu, List.eraseIdx_zero]

theorem streams_raiseAlert {s : App} {item : MenuItem} (h : s.menu.head? = some item) (msg : Str) :
    (raiseAlert msg s).streams = (unregisterStream item s).streams := by
  have h0 : s.menu[0]? = some item := by rw [← h, List.head?_eq_getElem?]
  have hne : s.menu ≠ [] := by
    rintro hnil
    rw [hnil] at h
    cases h
  rw [raiseAlert, if_neg hne]
  show (removeMenuItem 0 s).streams = _
  rw [removeMenuItem, h0]

/-- The items of the menu, watched or not, are different ones. -/
theorem nodup_register {s : App} (h : Tracked s) (hs : s.menu.Nodup) (cwd : Path) (msg : PathMsg) :
    (s.register cwd msg).menu.Nodup := by
  refine List.nodup_cons.2 ⟨fun hm => ?_, hs⟩
  exact lt_irrefl _ (h.old _ (mem_watchItems.2 hm))

theorem nodup_step {s s' : App} {a : Action} (h : Tracked s) (hs : s.menu.Nodup)
    (hstep : step s a = some s') : s'.menu.Nodup := by
  cases registryStep_of_step hstep with
  | same hsame _ => rw [hsame.menu]; exact hs
  | register _ _ hreg => rw [hreg.menu]; exact nodup_register h hs _ _
  | click _ hrem =>
    rw [hrem, removeMenuItem_menu]
    exact hs.sublist (List.eraseIdx_sublist _ _)
  | alert _ hal =>
    rw [hal, menu_raiseAlert]
    exact hs.sublist (List.tail_sublist _)

/-- Where no item is left, an alert removes nothing. -/
theorem removesOnly_of_empty {s : App} (h : s.menu = []) (stream : Stream) (msg : Str) :
    Failing.RemovesOnly stream s (raiseAlert msg s) := by
  have hsame : raiseAlert msg s = { s with rangeError := true } := by rw [raiseAlert, if_pos h]
  have hempty : watchItems s.menu = [] := by
    rw [h]
    rfl
  rw [hsame]
  refine ⟨?_, fun _ => ⟨rfl, rfl⟩, ?_⟩
  · rw [hempty]
    simp
  · rw [hempty]
    simp

/-- The item in front is removed, and its stream stopped. -/
theorem removesOnly_of_front {s : App} (h : Tracked s) {stream : Stream} {item : WatchItem}
    (hhead : s.menu.head? = some (.watch item)) (howns : Failing.Owns stream item) (msg : Str) :
    Failing.RemovesOnly stream s (raiseAlert msg s) := by
  obtain ⟨rest, hitems⟩ := List.head?_eq_some_iff.1 hhead
  have hmenu : (raiseAlert msg s).menu = rest := by
    rw [menu_raiseAlert, hitems]
    rfl
  have hwatch : watchItems s.menu = item :: watchItems rest := by
    rw [hitems]
    rfl
  have hids := h.ids
  rw [hwatch, List.map_cons, List.nodup_cons] at hids
  have hstreams : (raiseAlert msg s).streams = s.streams.filter fun x => x.id ≠ stream.id := by
    rw [streams_raiseAlert hhead, ← howns]
    rfl
  refine ⟨fun other hmem hother => ⟨?_, ?_⟩, fun hgone => ?_, fun other hmem hother => ⟨?_, ?_⟩⟩
  · obtain rfl : other = item := by
      rw [hwatch] at hmem
      refine (List.mem_cons.1 hmem).resolve_right fun hrest => hids.1 ?_
      rw [howns, ← hother]
      exact List.mem_map_of_mem hrest
    rw [hmenu, hitems, List.erase_cons_head]
  · rw [hstreams]
    intro x hx
    simpa using (List.mem_filter.1 hx).2
  · refine absurd howns (hgone item ?_)
    rw [hwatch]
    exact List.mem_cons_self
  · rw [hwatch] at hmem
    rw [hmenu]
    exact (List.mem_cons.1 hmem).resolve_left fun heq => hother (heq ▸ howns)
  · rw [hstreams]
    exact List.mem_filter.2 ⟨h.started other hmem, by simpa [Failing.Owns] using hother⟩

/-- An alert takes the first item away, so that item is the one of the stream. -/
theorem front_of_removesOnly {s : App} (hs : s.menu.Nodup) {stream : Stream} {msg : Str}
    (hright : Failing.RemovesOnly stream s (raiseAlert msg s)) :
    s.menu = [] ∨ ∃ item, s.menu.head? = some (.watch item) ∧ Failing.Owns stream item := by
  have hmenu := menu_raiseAlert msg s
  cases hitems : s.menu with
  | nil => exact Or.inl rfl
  | cons first rest =>
    refine Or.inr ?_
    rw [hitems] at hmenu hs
    have hnew : first ∉ (raiseAlert msg s).menu := by
      rw [hmenu]
      exact (List.nodup_cons.1 hs).1
    by_contra hother
    by_cases hreg : ∃ item ∈ watchItems s.menu, Failing.Owns stream item
    · obtain ⟨item, hitem, howns⟩ := hreg
      -- the first item is another one, and is still to be there
      have hne : first ≠ .watch item := by
        rintro rfl
        exact hother ⟨item, rfl, howns⟩
      rw [(hright.registered item hitem howns).1, hitems] at hnew
      exact hnew ((List.mem_erase_of_ne hne).2 List.mem_cons_self)
    · push Not at hreg
      rw [(hright.gone hreg).1, hitems] at hnew
      exact hnew List.mem_cons_self

/-- **An alert removes the right watch** exactly if its item is in front. -/
theorem removesOnly_raiseAlert_iff {s : App} (h : Tracked s) (hs : s.menu.Nodup) (stream : Stream)
    (msg : Str) : Failing.RemovesOnly stream s (raiseAlert msg s) ↔
      s.menu = [] ∨ ∃ item, s.menu.head? = some (.watch item) ∧ Failing.Owns stream item := by
  constructor
  · intro hright
    exact front_of_removesOnly hs hright
  · rintro (hnil | ⟨item, hhead, howns⟩)
    · exact removesOnly_of_empty hnil stream msg
    · exact removesOnly_of_front h hhead howns msg

/-! ## Runs -/

namespace Failing

/-- What holds in every state. -/
structure Ok (s : Failing) : Prop where
  tracked : Tracked s.app
  nodup : s.app.menu.Nodup
  parallel : Parallel s

theorem ok_start (tree : FileTree Bytes) : Ok (start tree) :=
  ⟨tracked_awakeFromNib tree, by simp [start, awakeFromNib, fixedItems], rfl⟩

theorem ok_of_app {s s' : Failing} {a : Mac.Action} (hs : Ok s) (h : Mac.step s.app a = some s'.app)
    (hp : Parallel s') : Ok s' :=
  ⟨tracked_step hs.tracked h, nodup_step hs.tracked hs.nodup h, hp⟩

theorem app_of_other {s s' : Failing} {a : Mac.Action} (h : s.other a = some s') :
    Mac.step s.app a = some s'.app := by
  obtain ⟨app, happ, rfl⟩ := Option.map_eq_some_iff.1 h
  exact happ

theorem ok_step {s s' : Failing} {a : Action} (hs : Ok s) (h : step s a = some s') : Ok s' := by
  have hp := parallel_step hs.parallel h
  cases a with
  | request cwd mayCreate req => exact ok_of_app hs (app_of_other h) hp
  | click i => exact ok_of_app hs (app_of_other h) hp
  | editorEnds k env => exact ok_of_app hs (app_of_other h) hp
  | disk tree => exact ok_of_app hs (app_of_other h) hp
  | pullBegins i =>
    rw [step] at h
    split at h
    · cases h
    · obtain ⟨stream, -, rfl⟩ := Option.map_eq_some_iff.1 h
      exact ⟨hs.tracked, hs.nodup, hp⟩
  | pullEnds k error =>
    rw [step] at h
    split at h
    · cases h
    · obtain ⟨stream, -, rfl⟩ := Option.map_eq_some_iff.1 h
      cases error with
      | none => exact ⟨hs.tracked, hs.nodup, hp⟩
      | some stderr =>
        have hsame : SameRegistry s.app (performOnMainThread .raiseAlert stderr s.app) :=
          ⟨rfl, rfl, rfl, rfl, rfl⟩
        exact ⟨hsame.tracked hs.tracked, hs.nodup, hp⟩
  | runQueued k =>
    obtain ⟨app, happ, rfl⟩ := Option.map_eq_some_iff.1 h
    exact ok_of_app hs happ hp

/-- A call with a stream beside it is an alert. -/
theorem runQueued_of_culprit {s s' : Failing} {k : ℕ} {stream : Stream} (hs : Parallel s)
    (hk : s.culprits[k]? = some (some stream)) (h : step s (.runQueued k) = some s') :
    ∃ msg, s'.app = raiseAlert msg { s.app with queue := s.app.queue.eraseIdx k } := by
  obtain ⟨app, happ, rfl⟩ := Option.map_eq_some_iff.1 h
  obtain ⟨⟨selector, msg⟩, hcall, rfl⟩ := Option.map_eq_some_iff.1 (act_of_step happ).2
  have hkind := congrArg (·[k]?) hs
  simp only [List.getElem?_map, hk, hcall, Option.map_some, Option.isSome_some] at hkind
  cases selector with
  | raiseAlert => exact ⟨msg, rfl⟩
  | raiseLaunchAlert => simp at hkind

theorem alertRight_iff {s s' : Failing} {a : Action} (hs : Ok s) (h : step s a = some s') :
    AlertRight s a ↔ CulpritFirst s a := by
  cases a with
  | runQueued k =>
    have hiff : ∀ stream, s.culprits[k]? = some (some stream) →
        (RemovesOnly stream s.app s'.app ↔ s.app.menu = [] ∨
          ∃ item, s.app.menu.head? = some (.watch item) ∧ Owns stream item) := by
      intro stream hk
      obtain ⟨msg, happ⟩ := runQueued_of_culprit hs.parallel hk h
      have hsame : SameRegistry s.app { s.app with queue := s.app.queue.eraseIdx k } :=
        ⟨rfl, rfl, rfl, rfl, rfl⟩
      have hq := removesOnly_raiseAlert_iff (hsame.tracked hs.tracked) hs.nodup stream msg
      rw [← happ] at hq
      rw [← hq]
      exact ⟨fun hr => ⟨hr.registered, hr.gone, hr.others⟩,
        fun hr => ⟨hr.registered, hr.gone, hr.others⟩⟩
    constructor
    · intro hright stream hk
      exact (hiff stream hk).1 (hright stream s' hk h)
    · intro hfirst stream t hk ht
      obtain rfl : s' = t := Option.some.inj (h.symm.trans ht)
      exact (hiff stream hk).2 (hfirst stream hk)
  | _ => exact Iff.rfl

/-- **When every failing pull removes its own watch**: in a run from `awakeFromNib`,
exactly if each of its alerts finds the item of the failing watch in front of the
menu, or no item at all. -/
theorem alerts_right_iff (tree : FileTree Bytes) (as : List Action) :
    Run.Guarded step AlertRight (start tree) as ↔
      Run.Guarded step CulpritFirst (start tree) as :=
  Run.guarded_iff_guarded (fun _ _ _ hs h => ok_step hs h) (fun _ _ _ hs h => alertRight_iff hs h)
    (ok_start tree)

/-- Two files, and the message that opens the second one. -/
def twoFiles : FileTree Bytes := sampleTree.put ["g".toList] (.file [])

/-- A message for a second file. -/
def secondMsg : PathMsg :=
  ⟨"~/g".toList, "mate".toList, "/g".toList, "ann@h".toList, "/home/ann/g".toList⟩

/-- The pull of the file that was opened first fails: the other one is removed. -/
theorem wrong_watch_removed :
    ¬ Run.Guarded step AlertRight (start twoFiles)
      [.request [] (fun _ => true) (.path sampleMsg), .request [] (fun _ => true) (.path secondMsg),
        .pullBegins 1, .pullEnds 0 (some "e".toList), .runQueued 0] := by
  intro h
  have halert := (((((h _ rfl).2 _ rfl).2 _ rfl).2 _ rfl).2 _ rfl).1 _ _ rfl rfl
  have hother := halert.others ⟨itemTitle secondMsg.hostname secondMsg.displayname,
    ⟨secondMsg.serverFn, secondMsg.clientFn, secondMsg.hostname, ⟨1, "/".toList, secondMsg.route⟩⟩⟩
    (by decide) (by unfold Owns; decide)
  exact absurd hother.1 (by decide)

end Failing

end Fsync.Mac
