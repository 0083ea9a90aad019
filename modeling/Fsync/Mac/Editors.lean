import Fsync.Mac.Registry

/-!
# Requests and editors on the Mac

A request is acknowledged while its editor is still to be launched in the
background, and what comes of it is left to the main thread under the name
`raiseLaunchAlert:`, which `AppDelegate` does not have.

`Good` is what should hold all along: one `'OK'` for each request, an app that
runs, calls the main thread can perform, and an alert for each editor that failed,
with all watches in place.  `good_along_iff`: a run keeps it exactly as long as no
editor fails.
-/

namespace Fsync.Mac

open Posix Os Registry

/-- The app, with how many requests it received, how many editors failed, and the
files that were opened. -/
structure Session where
  app : App
  received : ℕ
  failures : ℕ
  opened : List Route

namespace Session

/-- What happens: requests, editors that are launched and end, and calls the main
thread performs, in any order. -/
inductive Action where
  | request (cwd : Path) (mayCreate : Path → Bool) (req : Request)
  | editorEnds (k : ℕ) (env : EditorEnv)
  | runQueued (k : ℕ)
  | disk (tree : FileTree Bytes)

/-- A `mkdir` message, or a path message whose file exists. -/
def wellFormed (cwd : Path) (s : App) : Request → Bool
  | .path msg => pathExists s.tree cwd msg.serverFn
  | .mkdir _ => true
  | .bad => false

/-- The editor is found, can be launched, and exits with status zero. -/
def editorRuns (env : EditorEnv) (tree : FileTree Bytes) (editor : Str) : Bool :=
  match absEditorPath env tree editor with
  | none => false
  | some path => env.accessible path && env.terminationStatus == 0

/-- The files that are open after a request. -/
def opens (opened : List Route) : Request → List Route
  | .path msg => insertNew Route.serverFn msg.route opened
  | _ => opened

/-- The step of the app, with the books on requests and editors. -/
def step (s : Session) : Action → Option Session
  | .request cwd mayCreate req =>
    if wellFormed cwd s.app req then
      (Mac.step s.app (.request cwd mayCreate req)).map fun app =>
        { s with
          app := app
          received := s.received + 1
          opened := opens s.opened req }
    else none
  | .editorEnds k env =>
    match s.app.editors[k]? with
    | none => none
    | some (editor, _) => (Mac.step s.app (.editorEnds k env)).map fun app =>
        { s with
          app := app
          failures := if editorRuns env s.app.tree editor then s.failures else s.failures + 1 }
  | .runQueued k => (Mac.step s.app (.runQueued k)).map fun app => { s with app := app }
  | .disk tree => (Mac.step s.app (.disk tree)).map fun app => { s with app := app }

/-- The app has just started. -/
def start (tree : FileTree Bytes) : Session := ⟨awakeFromNib tree, 0, 0, []⟩

/-- What should hold in every state. -/
structure Good (s : Session) : Prop where
  alive : s.app.terminated = false
  replies : s.app.replies = List.replicate s.received "OK".toList
  performed : ∀ selector ∈ s.app.performed, selector.implemented = true
  /-- Every failure of an editor has its alert, left to the main thread or shown. -/
  alerts : s.failures ≤ s.app.queue.length + s.app.alerts.length
  /-- All registered watches are in place. -/
  watches : (watchItems s.app.menu).map (·.route) = s.opened

/-- No editor that ends has failed. -/
def EditorRuns (s : Session) : Action → Prop
  | .editorEnds k env => ∀ editor arg, s.app.editors[k]? = some (editor, arg) →
      editorRuns env s.app.tree editor = true
  | _ => True

/-- Only failures of editors are left to the main thread. -/
structure Queued (s : Session) : Prop where
  performed : ∀ selector ∈ s.app.performed, selector = .raiseLaunchAlert
  queue : ∀ call ∈ s.app.queue, call.1 ∈ s.app.performed

theorem good_start (tree : FileTree Bytes) : Good (start tree) :=
  ⟨rfl, rfl, by simp [start, awakeFromNib], by simp [start], rfl⟩

theorem queued_start (tree : FileTree Bytes) : Queued (start tree) :=
  ⟨by simp [start, awakeFromNib], by simp [start, awakeFromNib]⟩

/-! ## Editors -/

/-- An editor that runs is launched, and nothing else happens. -/
theorem launchEditor_of_runs {env : EditorEnv} {editor : Str} {s : App} (arg : Str)
    (h : editorRuns env s.tree editor = true) : ∃ path,
      absEditorPath env s.tree editor = some path ∧
        launchEditor env editor arg s = { s with launched := s.launched ++ [[path, arg]] } := by
  rw [editorRuns] at h
  split at h
  · cases h
  · rename_i path hp
    rw [Bool.and_eq_true, beq_iff_eq] at h
    refine ⟨path, hp, ?_⟩
    rw [launchEditor, hp]
    simp [h.1, h.2]

/-- One that fails leaves `raiseLaunchAlert:` to the main thread, or ends the app. -/
theorem launchEditor_of_fails {env : EditorEnv} {editor : Str} {s : App} (arg : Str)
    (h : editorRuns env s.tree editor = false) :
    launchEditor env editor arg s = terminate s ∨ ∃ launched msg,
      launchEditor env editor arg s =
        performOnMainThread .raiseLaunchAlert msg { s with launched := launched } := by
  rw [editorRuns] at h
  rw [launchEditor]
  cases hp : absEditorPath env s.tree editor with
  | none => exact Or.inr ⟨s.launched, _, rfl⟩
  | some path =>
    rw [hp] at h
    by_cases hacc : env.accessible path = false
    · exact Or.inl (if_pos hacc)
    · rw [Bool.and_eq_false_iff] at h
      have hst : env.terminationStatus ≠ 0 := by simpa using h.resolve_left hacc
      simp only [if_neg hacc, if_pos hst]
      exact Or.inr ⟨_, _, rfl⟩

/-! ## Steps -/

/-- A well-formed request is acknowledged, and registers its file if it is new. -/
theorem poll_of_wellFormed {cwd : Path} {mayCreate : Path → Bool} {req : Request} {s : App}
    (halive : s.terminated = false) (hwf : wellFormed cwd s req = true) :
    (poll cwd mayCreate req s).terminated = false ∧
    (poll cwd mayCreate req s).replies = s.replies ++ ["OK".toList] ∧
    (poll cwd mayCreate req s).performed = s.performed ∧
    (poll cwd mayCreate req s).queue = s.queue ∧
    (poll cwd mayCreate req s).alerts = s.alerts ∧
    (watchItems (poll cwd mayCreate req s).menu).map (·.route) =
      opens ((watchItems s.menu).map (·.route)) req := by
  cases req with
  | path msg =>
    rw [poll]
    rcases registerNewPath_cases cwd msg s with ⟨-, hex, -⟩ | ⟨hf, -, h⟩ | ⟨⟨item, hitem, hfn⟩, h⟩
    · rw [wellFormed, hex] at hwf
      cases hwf
    · rw [h, sendReply, if_neg (by rw [App.register, halive]; simp)]
      refine ⟨halive, rfl, rfl, rfl, rfl, ?_⟩
      rw [watchItems_register, List.map_cons, route_newItem, opens, insertNew_of_fresh]
      intro r hr
      obtain ⟨i, hi, rfl⟩ := List.mem_map.1 hr
      exact hf i hi
    · rw [h, sendReply, if_neg (by rw [halive]; simp)]
      refine ⟨halive, rfl, rfl, rfl, rfl, ?_⟩
      have hmem : item.route ∈ (watchItems s.menu).map (·.route) := List.mem_map_of_mem hitem
      rw [opens, insertNew_of_mem hmem hfn]
  | mkdir dir =>
    have h : ∃ tree, mkdirForClient cwd mayCreate dir s = { s with tree := tree } := by
      rw [mkdirForClient]
      split
      · exact ⟨s.tree, rfl⟩
      · exact ⟨_, rfl⟩
    obtain ⟨tree, h⟩ := h
    rw [poll, h, sendReply, if_neg (by rw [halive]; simp)]
    exact ⟨halive, rfl, rfl, rfl, rfl, rfl⟩
  | bad => cases hwf

/-- Nothing has been left to the main thread as long as all is good. -/
theorem queue_eq_nil {s : Session} (hq : Queued s) (h : Good s) : s.app.queue = [] := by
  rw [List.eq_nil_iff_forall_not_mem]
  intro call hcall
  have hperf := hq.queue call hcall
  have himpl := h.performed _ hperf
  rw [hq.performed _ hperf] at himpl
  cases himpl

/-- The end of an editor, with the thread that waited for it gone. -/
theorem step_editorEnds {s app : App} {k : ℕ} {env : EditorEnv} {editor arg : Str}
    (hk : s.editors[k]? = some (editor, arg)) (hs : Mac.step s (.editorEnds k env) = some app) :
    app = launchEditor env editor arg { s with editors := s.editors.eraseIdx k } := by
  have hact := (act_of_step hs).2
  rw [act, hk] at hact
  exact (Option.some.inj hact).symm

/-- What a step can do.  An editor that ends was launched, or it failed: then the app
is terminated or a call is left that cannot be performed. -/
inductive Effect (s : Session) : Action → Session → Prop where
  | request {cwd : Path} {mayCreate : Path → Bool} {req : Request}
      (alive : s.app.terminated = false) (wf : wellFormed cwd s.app req = true) :
      Effect s (.request cwd mayCreate req)
        { s with
          app := poll cwd mayCreate req s.app
          received := s.received + 1
          opened := opens s.opened req }
  | launched {k : ℕ} {env : EditorEnv} {editor arg : Str} (commands : List (List Str))
      (ends : s.app.editors[k]? = some (editor, arg))
      (runs : editorRuns env s.app.tree editor = true) :
      Effect s (.editorEnds k env)
        { s with app := { s.app with editors := s.app.editors.eraseIdx k, launched := commands } }
  | crashed {k : ℕ} {env : EditorEnv} {editor arg : Str}
      (ends : s.app.editors[k]? = some (editor, arg))
      (fails : editorRuns env s.app.tree editor = false) :
      Effect s (.editorEnds k env)
        { s with
          app := terminate { s.app with editors := s.app.editors.eraseIdx k }
          failures := s.failures + 1 }
  | failed {k : ℕ} {env : EditorEnv} {editor arg : Str} (commands : List (List Str)) (msg : Str)
      (ends : s.app.editors[k]? = some (editor, arg))
      (fails : editorRuns env s.app.tree editor = false) :
      Effect s (.editorEnds k env)
        { s with
          app := performOnMainThread .raiseLaunchAlert msg
            { s.app with editors := s.app.editors.eraseIdx k, launched := commands }
          failures := s.failures + 1 }
  | performed {k : ℕ} {selector : Selector} {msg : Str}
      (call : s.app.queue[k]? = some (selector, msg)) :
      Effect s (.runQueued k)
        { s with app := perform selector msg { s.app with queue := s.app.queue.eraseIdx k } }
  | disk {tree : FileTree Bytes} : Effect s (.disk tree) { s with app := { s.app with tree := tree } }

theorem effect_of_step {s s' : Session} {a : Action} (hs : step s a = some s') : Effect s a s' := by
  cases a with
  | request cwd mayCreate req =>
    rw [step] at hs
    split at hs
    · rename_i hwf
      obtain ⟨app, happ, rfl⟩ := Option.map_eq_some_iff.1 hs
      obtain ⟨halive, hact⟩ := act_of_step happ
      obtain rfl := Option.some.inj hact
      exact .request halive hwf
    · cases hs
  | editorEnds k env =>
    rw [step] at hs
    split at hs
    · cases hs
    · rename_i editor arg hk
      obtain ⟨app, happ, rfl⟩ := Option.map_eq_some_iff.1 hs
      obtain rfl := step_editorEnds hk happ
      cases hr : editorRuns env s.app.tree editor with
      | true =>
        obtain ⟨path, -, hl⟩ := launchEditor_of_runs arg
          (s := { s.app with editors := s.app.editors.eraseIdx k }) hr
        rw [hl]
        exact .launched _ hk hr
      | false =>
        rcases launchEditor_of_fails arg
          (s := { s.app with editors := s.app.editors.eraseIdx k }) hr with hl | ⟨commands, msg, hl⟩
        · rw [hl]
          exact .crashed hk hr
        · rw [hl]
          exact .failed commands msg hk hr
  | runQueued k =>
    obtain ⟨app, happ, rfl⟩ := Option.map_eq_some_iff.1 hs
    obtain ⟨⟨selector, msg⟩, hk, rfl⟩ := Option.map_eq_some_iff.1 (act_of_step happ).2
    exact .performed hk
  | disk tree =>
    obtain ⟨app, happ, rfl⟩ := Option.map_eq_some_iff.1 hs
    obtain rfl := Option.some.inj (act_of_step happ).2
    exact .disk

theorem queued_step {s s' : Session} {a : Action} (h : Queued s) (hs : step s a = some s') :
    Queued s' := by
  cases effect_of_step hs with
  | request alive wf =>
    obtain ⟨-, -, h3, h4, -, -⟩ := poll_of_wellFormed alive wf
    exact ⟨by rw [h3]; exact h.performed, by rw [h3, h4]; exact h.queue⟩
  | launched => exact ⟨h.performed, h.queue⟩
  | crashed => exact ⟨h.performed, h.queue⟩
  | failed =>
    refine ⟨fun x hx => ?_, fun call hcall => ?_⟩
    · rcases List.mem_append.1 hx with hx | hx
      · exact h.performed x hx
      · exact List.mem_singleton.1 hx
    · rcases List.mem_append.1 hcall with hcall | hcall
      · exact List.mem_append_left _ (h.queue call hcall)
      · rw [List.mem_singleton.1 hcall]
        exact List.mem_append_right _ (List.mem_singleton.2 rfl)
  | @performed k selector msg call =>
    obtain rfl : selector = .raiseLaunchAlert :=
      h.performed _ (h.queue _ (List.mem_of_getElem? call))
    exact ⟨h.performed, fun call hcall => h.queue call (List.mem_of_mem_eraseIdx hcall)⟩
  | disk => exact ⟨h.performed, h.queue⟩

/-- The guard is about the one editor that ends. -/
theorem editorRuns_iff {s : Session} {k : ℕ} {env : EditorEnv} {editor arg : Str}
    (hk : s.app.editors[k]? = some (editor, arg)) :
    EditorRuns s (.editorEnds k env) ↔ editorRuns env s.app.tree editor = true := by
  refine ⟨fun hg => hg editor arg hk, fun hr e x hx => ?_⟩
  rw [hk, Option.some.injEq, Prod.mk.injEq] at hx
  rw [← hx.1]
  exact hr

/-- **When a step keeps the server good.** -/
theorem good_step_iff {s s' : Session} {a : Action} (hq : Queued s) (h : Good s)
    (hs : step s a = some s') : Good s' ↔ EditorRuns s a := by
  cases effect_of_step hs with
  | request alive wf =>
    obtain ⟨h1, h2, h3, h4, h5, h6⟩ := poll_of_wellFormed alive wf
    refine ⟨fun _ => trivial, fun _ => ⟨h1, ?_, by rw [h3]; exact h.performed, ?_, ?_⟩⟩
    · rw [h2, h.replies, List.replicate_succ']
    · rw [h4, h5]; exact h.alerts
    · rw [h6, h.watches]
  | launched _ ends runs =>
    rw [editorRuns_iff ends]
    exact ⟨fun _ => runs, fun _ => ⟨h.alive, h.replies, h.performed, h.alerts, h.watches⟩⟩
  | crashed ends fails =>
    rw [editorRuns_iff ends, fails]
    exact ⟨fun hgood => absurd hgood.alive (by simp [terminate]), fun hr => by cases hr⟩
  | failed _ _ ends fails =>
    rw [editorRuns_iff ends, fails]
    refine ⟨fun hgood => ?_, fun hr => by cases hr⟩
    cases hgood.performed .raiseLaunchAlert (List.mem_append_right _ (List.mem_singleton.2 rfl))
  | performed call =>
    rw [queue_eq_nil hq h] at call
    cases call
  | disk => exact ⟨fun _ => trivial, fun _ => ⟨h.alive, h.replies, h.performed, h.alerts, h.watches⟩⟩

/-- **The Mac server survives requests, not editors.**  In every state of a run it
is good if and only if no editor of the run fails: each is found in `$PATH`, can be
launched, and exits with status zero. -/
theorem good_along_iff (tree : FileTree Bytes) (as : List Action) :
    Run.Along step Good (start tree) as ↔ Run.Guarded step EditorRuns (start tree) as :=
  Run.along_iff_guarded_of_inv (fun _ _ _ h hs => queued_step h hs)
    (fun _ _ _ hq h hs => good_step_iff hq h hs) (queued_start tree) (good_start tree)

/-- A `$PATH` without the editor. -/
def sampleEditorEnv : EditorEnv :=
  ⟨[], some "/usr/bin:/bin".toList, fun s => s, fun _ => true, 0, []⟩

/-- An editor that is not found leaves a call to a method that is not there, and no
alert is shown when it is performed. -/
theorem missing_editor_raises_no_alert :
    ∃ s, Run.exec step (start sampleTree)
        [.request [] (fun _ => true) (.path sampleMsg), .editorEnds 0 sampleEditorEnv,
          .runQueued 0] = some s ∧
      s.app.performed = [.raiseLaunchAlert] ∧ s.failures = 1 ∧ s.app.alerts = [] ∧ ¬ Good s :=
  ⟨_, rfl, rfl, rfl, rfl, fun h => by cases h.performed .raiseLaunchAlert (by decide)⟩

end Session

end Fsync.Mac
