import Fsync.Base.Registry
import Fsync.Ubuntu.FsyncWindow

/-!
# What the handlers of the Ubuntu server do

One lemma a handler says everything it can do: which state it leaves, and
whether it raises.  `Watches` is a successful `WatchFileMenuItem(**msg)`,
`Registration` is what `register_new_path` leaves before the editor is launched,
and `CanLaunch` decides whether the launch raises.

* `registerNewPath_eq_ok`, `registerNewPath_error`: when it returns, and what it leaves
  if it raises;
* `zmqMsg_eq_ok`, `zmqMsg_error`: the same for a whole request.
-/

namespace Fsync.Ubuntu

open Posix Os Program

variable {T : Type} {env : Env} {s s' : State T}

/-! ## System calls -/

theorem osString_eq_ok {v : Value} {t : Str} :
    (osString env v).run s = .ok t s' ↔ v = .str t ∧ env.takes t = true ∧ s' = s := by
  cases v with
  | other text => rw [osString, throw_ne_ok]; simp
  | str a =>
    rw [osString]
    simp only [bind_eq_ok, raiseIf_eq_ok, pure_eq_ok]
    constructor
    · rintro ⟨-, -, ⟨h, rfl⟩, rfl, rfl⟩
      exact ⟨rfl, by simpa using h, rfl⟩
    · rintro ⟨ht, h, rfl⟩
      cases ht
      exact ⟨(), s', ⟨by simp [h], rfl⟩, rfl, rfl⟩

theorem reads_osString (v : Value) : Reads (osString env v : Handler T Str) :=
  fun _ _ _ h => (osString_eq_ok.1 h).2.2

theorem rollback_osString (v : Value) : Rollback (osString env v : Handler T Str) := by
  cases v with
  | other text => exact rollback_throw _
  | str a =>
    exact (rollback_raiseIf _ _).bind (reads_raiseIf _ _) fun _ => rollback_pure a

/-- `Popen([editor, arg])` does not raise. -/
structure CanLaunch (env : Env) (editor arg : Value) : Prop where
  editor : ∃ e, editor = .str e ∧ env.takes e = true ∧ env.canExecute e = true
  arg : ∃ a, arg = .str a ∧ env.takes a = true

/-- The state with one more program started. -/
def State.launch (s : State T) (argv : List Str) : State T :=
  { s with launched := s.launched ++ [argv] }

theorem popen_eq_ok {editor arg : Value} {u : Unit} :
    (popen env editor arg).run s = .ok u s' ↔
      CanLaunch env editor arg ∧ s' = s.launch [editor.text, arg.text] := by
  rw [popen]
  simp only [bind_eq_ok, osString_eq_ok, raiseIf_eq_ok, modify_eq_ok]
  constructor
  · rintro ⟨e, -, ⟨rfl, he, rfl⟩, a, -, ⟨rfl, ha, rfl⟩, -, -, ⟨hx, rfl⟩, rfl⟩
    exact ⟨⟨⟨e, rfl, he, by simpa using hx⟩, a, rfl, ha⟩, rfl⟩
  · rintro ⟨⟨⟨e, rfl, he, hx⟩, a, rfl, ha⟩, rfl⟩
    exact ⟨e, s, ⟨rfl, he, rfl⟩, a, s, ⟨rfl, ha, rfl⟩, (), s, ⟨by simp [hx], rfl⟩, rfl⟩

theorem rollback_popen (editor arg : Value) :
    Rollback (popen env editor arg : Handler T Unit) :=
  (rollback_osString _).bind (reads_osString _) fun _ =>
    (rollback_osString _).bind (reads_osString _) fun _ =>
      (rollback_raiseIf _ _).bind (reads_raiseIf _ _) fun _ => rollback_modify _

/-! ## A new menu item -/

/-- The state with the monitor of a new item connected. -/
def State.connect (s : State T) (monitor : Monitor) : State T :=
  { s with monitors := monitor :: s.monitors, nextMonitor := s.nextMonitor + 1 }

/-- The state with a new item in the menu. -/
def State.prepend (s : State T) (item : WatchFileMenuItem) : State T :=
  { s.connect item.monitor with menu := .watch item :: s.menu }

variable [FileSystem T Bytes]

/-- `WatchFileMenuItem(**msg)` makes `item` in the state `s`. -/
structure Watches (env : Env) (s : State T) (msg : Dict) (item : WatchFileMenuItem) : Prop where
  keys : ∀ kv ∈ msg, kv.1 ∈ initParameters
  clientFn : msg.get? "client_fn" = some item.clientFn
  serverFn : msg.get? "server_fn" = some (.str item.serverFn)
  hostname : msg.get? "hostname" = some item.hostname
  label : ∃ d, msg.get? "displayname" = some d ∧ item.label = itemTitle item.hostname.text d.text
  takesLabel : env.takes item.label = true
  takes : env.takes item.serverFn = true
  found : pathExists s.tree env.cwd item.serverFn = true
  monitorOk : env.monitorFails = false
  monitor : item.monitor =
    ⟨s.nextMonitor, item.serverFn, isdir s.tree env.cwd item.serverFn, item.route⟩

theorem watchFileMenuItem_eq_ok {msg : Dict} {item : WatchFileMenuItem} :
    (watchFileMenuItem env msg).run s = .ok item s' ↔
      Watches env s msg item ∧ s' = s.connect item.monitor := by
  rw [watchFileMenuItem]
  simp only [bind_eq_ok, raiseIf_eq_ok, orRaise_eq_ok, osString_eq_ok, get_eq_ok, set_eq_ok,
    pure_eq_ok]
  constructor
  · rintro ⟨_, _, ⟨hkeys, rfl⟩, c, _, ⟨hc, rfl⟩, v, _, ⟨hv, rfl⟩, h, _, ⟨hh, rfl⟩, d, _, ⟨hd, rfl⟩,
      l, _, ⟨hl, htl, rfl⟩, f, _, ⟨rfl, htf, rfl⟩, _, _, ⟨rfl, rfl⟩, _, _, ⟨hex, rfl⟩,
      _, _, ⟨hmon, rfl⟩, _, _, rfl, rfl, rfl⟩
    cases hl
    refine ⟨⟨fun kv hkv => ?_, hc, hv, hh, ⟨d, hd, rfl⟩, htl, htf, by simpa using hex, hmon, rfl⟩,
      rfl⟩
    simpa using List.any_eq_false.1 hkeys kv hkv
  · rintro ⟨h, rfl⟩
    obtain ⟨d, hd, hl⟩ := h.label
    obtain ⟨clientFn, serverFn, hostname, label, monitor⟩ := item
    have hmon : monitor = ⟨s.nextMonitor, serverFn, isdir s.tree env.cwd serverFn,
        ⟨serverFn, hostname.text, clientFn.text⟩⟩ := h.monitor
    simp only at hl
    subst hl hmon
    refine ⟨(), s, ⟨?_, rfl⟩, clientFn, s, ⟨h.clientFn, rfl⟩, .str serverFn, s, ⟨h.serverFn, rfl⟩,
      hostname, s, ⟨h.hostname, rfl⟩, d, s, ⟨hd, rfl⟩, _, s, ⟨rfl, h.takesLabel, rfl⟩, serverFn, s,
      ⟨rfl, h.takes, rfl⟩, s, s, ⟨rfl, rfl⟩, (), s, ⟨?_, rfl⟩, (), s, ⟨h.monitorOk, rfl⟩,
      ⟨⟩, _, rfl, rfl, rfl⟩
    · exact List.any_eq_false.2 fun kv hkv => by simpa using h.keys kv hkv
    · simpa using h.found

theorem rollback_watchFileMenuItem (msg : Dict) :
    Rollback (watchFileMenuItem env msg : Handler T WatchFileMenuItem) := by
  refine (rollback_raiseIf _ _).bind (reads_raiseIf _ _) fun _ => ?_
  refine (rollback_orRaise _ _).bind (reads_orRaise _ _) fun _ => ?_
  refine (rollback_orRaise _ _).bind (reads_orRaise _ _) fun _ => ?_
  refine (rollback_orRaise _ _).bind (reads_orRaise _ _) fun _ => ?_
  refine (rollback_orRaise _ _).bind (reads_orRaise _ _) fun _ => ?_
  refine (rollback_osString _).bind (reads_osString _) fun _ => ?_
  refine (rollback_osString _).bind (reads_osString _) fun _ => ?_
  refine rollback_get.bind reads_get fun _ => ?_
  refine (rollback_raiseIf _ _).bind (reads_raiseIf _ _) fun _ => ?_
  refine (rollback_raiseIf _ _).bind (reads_raiseIf _ _) fun _ => ?_
  exact (rollback_set _).bind_ok fun _ _ _ _ h => by cases h

/-! ## Registration -/

theorem mem_watchItems {menu : List Widget} {item : WatchFileMenuItem} :
    item ∈ watchItems menu ↔ .watch item ∈ menu := by
  rw [watchItems, List.mem_filterMap]
  constructor
  · rintro ⟨w, hw, h⟩
    cases w with
    | watch i => cases h; exact hw
    | separator => cases h
    | menuItem l => cases h
  · exact fun h => ⟨_, h, rfl⟩

theorem scan_iff (v : Value) (b : Bool) (w : Widget) : scan v b w = true ↔
    b = true ∧ ∀ item, w = .watch item → Value.str item.serverFn ≠ v := by
  cases w with
  | watch item => by_cases h : Value.str item.serverFn = v <;> simp [scan, h]
  | separator => simp [scan]
  | menuItem t => simp [scan]

/-- The scan finds exactly the items with the `server_fn` of the message. -/
theorem unique_iff {menu : List Widget} {v : Value} :
    unique menu v = true ↔ ∀ item ∈ watchItems menu, Value.str item.serverFn ≠ v := by
  rw [unique, Registry.foldl_flag (scan_iff v), and_iff_right rfl]
  constructor
  · intro h item hitem
    exact h _ (mem_watchItems.1 hitem) item rfl
  · rintro h w hw item rfl
    exact h item (mem_watchItems.2 hw)

/-- What `register_new_path` leaves before it launches the editor. -/
inductive Registration (env : Env) (s : State T) (msg : Dict) : State T → Prop
  /-- The file has an item. -/
  | kept {item : WatchFileMenuItem} (mem : item ∈ watchItems s.menu)
      (serverFn : msg.get? "server_fn" = some (.str item.serverFn)) : Registration env s msg s
  | added {item : WatchFileMenuItem} (fresh : ∀ i ∈ watchItems s.menu, i.serverFn ≠ item.serverFn)
      (watches : Watches env s (msg.pop "editor") item) : Registration env s msg (s.prepend item)

/-- `register_new_path` gets as far as the launch of the editor, in the state `s'`. -/
structure Registers (env : Env) (s : State T) (msg : Dict) (editor serverFn : Value)
    (s' : State T) : Prop where
  keys : ∀ key ∈ requiredKeys, msg.has key = true
  editor : msg.get? "editor" = some editor
  serverFn : msg.get? "server_fn" = some serverFn
  registration : Registration env s msg s'

theorem addItem_eq_ok {msg : Dict} {u : Unit} :
    (addItem env msg).run s = .ok u s' ↔ ∃ item, Watches env s msg item ∧ s' = s.prepend item := by
  rw [addItem]
  simp only [bind_eq_ok, watchFileMenuItem_eq_ok, modify_eq_ok]
  constructor
  · rintro ⟨item, _, ⟨hw, rfl⟩, rfl⟩
    exact ⟨item, hw, rfl⟩
  · rintro ⟨item, hw, rfl⟩
    exact ⟨item, _, ⟨hw, rfl⟩, rfl⟩

theorem rollback_addItem (msg : Dict) : Rollback (addItem env msg : Handler T Unit) :=
  (rollback_watchFileMenuItem msg).bind_ok fun _ _ _ _ h => by cases h

/-- The part of `register_new_path` in front of the launch of the editor. -/
theorem addUnique_eq_ok {msg : Dict} {v : Value} {u : Unit} (hv : msg.get? "server_fn" = some v) :
    (bif unique s.menu v then addItem env (msg.pop "editor") else pure ()).run s = .ok u s' ↔
      Registration env s msg s' := by
  have hpop : (msg.pop "editor").get? "server_fn" = some v := by
    rw [Dict.get?_pop (by decide), hv]
  cases hu : unique s.menu v with
  | true =>
    rw [cond_true, addItem_eq_ok]
    constructor
    · rintro ⟨item, hw, rfl⟩
      refine Registration.added (fun i hi hk => unique_iff.1 hu i hi ?_) hw
      have hfn := hw.serverFn
      rw [hpop, Option.some.injEq] at hfn
      rw [hfn, hk]
    · intro h
      cases h with
      | kept mem serverFn =>
        rw [hv, Option.some.injEq] at serverFn
        exact absurd serverFn.symm (unique_iff.1 hu _ mem)
      | added fresh hw => exact ⟨_, hw, rfl⟩
  | false =>
    have hmem : ∃ item ∈ watchItems s.menu, Value.str item.serverFn = v := by
      by_contra hc
      push Not at hc
      rw [unique_iff.2 hc] at hu
      cases hu
    obtain ⟨item, hitem, hfn⟩ := hmem
    rw [cond_false, pure_eq_ok]
    constructor
    · rintro ⟨-, rfl⟩
      exact Registration.kept hitem (by rw [hv, hfn])
    · intro h
      cases h with
      | kept mem serverFn => exact ⟨rfl, rfl⟩
      | added fresh hw =>
        have hfn' := hw.serverFn
        rw [hpop, Option.some.injEq, ← hfn] at hfn'
        exact absurd (Value.str.inj hfn') (fresh _ hitem)

/-- **When `register_new_path` returns**, and the state it leaves. -/
theorem registerNewPath_eq_ok {msg : Dict} {u : Unit} :
    (registerNewPath env msg).run s = .ok u s' ↔
      ∃ editor serverFn t, Registers env s msg editor serverFn t ∧ CanLaunch env editor serverFn ∧
        s' = t.launch [editor.text, serverFn.text] := by
  rw [registerNewPath]
  simp only [bind_eq_ok, raiseIf_eq_ok, orRaise_eq_ok, get_eq_ok, popen_eq_ok,
    Dict.get?_pop (show "server_fn" ≠ "editor" by decide)]
  constructor
  · rintro ⟨_, _, ⟨hkeys, rfl⟩, e, _, ⟨he, rfl⟩, v, _, ⟨hv, rfl⟩, _, _, ⟨rfl, rfl⟩,
      _, t, ht, hl, rfl⟩
    exact ⟨e, v, t, ⟨by simpa using hkeys, he, hv, (addUnique_eq_ok hv).1 ht⟩, hl, rfl⟩
  · rintro ⟨e, v, t, ⟨hkeys, he, hv, hr⟩, hl, rfl⟩
    exact ⟨(), s, ⟨by simpa using hkeys, rfl⟩, e, s, ⟨he, rfl⟩, v, s, ⟨hv, rfl⟩, s, s, ⟨rfl, rfl⟩,
      (), t, (addUnique_eq_ok hv).2 hr, hl, rfl⟩

/-- **What `register_new_path` leaves if it raises**: either nothing can be registered
and nothing has changed, or the file is registered and the editor could not be launched. -/
theorem registerNewPath_error {msg : Dict} {e : Exn}
    (h : (registerNewPath env msg).run s = .error e s') :
    (s' = s ∧ ∀ editor serverFn t, ¬ Registers env s msg editor serverFn t) ∨
      ∃ editor serverFn, Registers env s msg editor serverFn s' ∧ ¬ CanLaunch env editor serverFn := by
  rw [registerNewPath] at h
  rcases bind_eq_error.1 h with h1 | ⟨_, _, c1, h1⟩
  · refine Or.inl ⟨rollback_raiseIf _ _ _ _ _ h1, fun editor serverFn t hr => ?_⟩
    have hkeys : (requiredKeys.any fun key => !msg.has key) = false := by simpa using hr.keys
    rw [hkeys] at h1
    cases h1
  obtain ⟨hkeys, rfl⟩ := raiseIf_eq_ok.1 c1
  rcases bind_eq_error.1 h1 with h2 | ⟨editor, _, c2, h2⟩
  · refine Or.inl ⟨rollback_orRaise _ _ _ _ _ h2, fun editor serverFn t hr => ?_⟩
    rw [hr.editor] at h2
    cases h2
  obtain ⟨he, rfl⟩ := orRaise_eq_ok.1 c2
  simp only [Dict.get?_pop (show "server_fn" ≠ "editor" by decide)] at h2
  rcases bind_eq_error.1 h2 with h3 | ⟨serverFn, _, c3, h3⟩
  · refine Or.inl ⟨rollback_orRaise _ _ _ _ _ h3, fun editor serverFn t hr => ?_⟩
    rw [hr.serverFn] at h3
    cases h3
  obtain ⟨hv, rfl⟩ := orRaise_eq_ok.1 c3
  rcases bind_eq_error.1 h3 with h4 | ⟨_, _, c4, h4⟩
  · cases h4
  obtain ⟨rfl, rfl⟩ := get_eq_ok.1 c4
  rcases bind_eq_error.1 h4 with h5 | ⟨_, t, c5, h5⟩
  · refine Or.inl ⟨?_, fun editor serverFn t hr => ?_⟩
    · cases hu : unique _ serverFn with
      | true => rw [hu] at h5; exact rollback_addItem _ _ _ _ h5
      | false => rw [hu] at h5; cases h5
    · have hok := (addUnique_eq_ok (u := ()) hv).2 hr.registration
      rw [h5] at hok
      cases hok
  · -- only the launch of the editor is left
    have ht := rollback_popen editor serverFn t e s' h5
    subst ht
    refine Or.inr ⟨editor, serverFn, ⟨by simpa using hkeys, he, hv, (addUnique_eq_ok hv).1 c5⟩, ?_⟩
    intro hl
    have hok := (popen_eq_ok (s := s') (u := ())).2 ⟨hl, rfl⟩
    rw [h5] at hok
    cases hok

/-! ## `mkdir` requests -/

/-- `os.makedirs` is not handed a text that no system call takes. -/
def MkdirTakes (env : Env) (s : State T) (dir : Str) : Prop :=
  ∀ t, (makedirs env.mayCreate env.takes s.tree env.cwd dir).2 ≠ .error (.text t)

theorem mkdirForClient_eq_ok {msg : Dict} {u : Unit} :
    (mkdirForClient env msg).run s = .ok u s' ↔
      ∃ dir, msg.get? "dir" = some (.str dir) ∧ MkdirTakes env s dir ∧
        s' = { s with tree := (makedirs env.mayCreate env.takes s.tree env.cwd dir).1 } := by
  rw [mkdirForClient]
  simp only [bind_eq_ok, orRaise_eq_ok]
  constructor
  · rintro ⟨v, _, ⟨hv, rfl⟩, h⟩
    cases v with
    | other text => exact absurd h (by simp only [throw_ne_ok, not_false_eq_true])
    | str dir =>
      simp only [bind_eq_ok, get_eq_ok, set_eq_ok] at h
      obtain ⟨_, _, ⟨rfl, rfl⟩, _, _, rfl, h⟩ := h
      refine ⟨dir, hv, fun t ht => ?_, ?_⟩
      · rw [ht] at h
        exact throw_ne_ok.1 h
      · split at h
        · exact (throw_ne_ok.1 h).elim
        · exact (pure_eq_ok.1 h).2
  · rintro ⟨dir, hd, hm, rfl⟩
    refine ⟨.str dir, s, ⟨hd, rfl⟩, ?_⟩
    simp only [bind_eq_ok, get_eq_ok, set_eq_ok]
    refine ⟨s, s, ⟨rfl, rfl⟩, ⟨⟩, _, rfl, ?_⟩
    split
    · rename_i t ht
      exact absurd ht (hm t)
    · rfl

/-- A `mkdir` request changes the file tree only. -/
theorem mkdirForClient_error {msg : Dict} {e : Exn}
    (h : (mkdirForClient env msg).run s = .error e s') : ∃ tree, s' = { s with tree := tree } := by
  rw [mkdirForClient] at h
  rcases bind_eq_error.1 h with h1 | ⟨v, _, c1, h1⟩
  · exact ⟨s.tree, rollback_orRaise _ _ _ _ _ h1⟩
  obtain ⟨-, rfl⟩ := orRaise_eq_ok.1 c1
  cases v with
  | other text => cases h1; exact ⟨_, rfl⟩
  | str dir =>
    rcases bind_eq_error.1 h1 with h2 | ⟨_, _, c2, h2⟩
    · cases h2
    obtain ⟨rfl, rfl⟩ := get_eq_ok.1 c2
    rcases bind_eq_error.1 h2 with h3 | ⟨_, _, c3, h3⟩
    · cases h3
    rw [set_eq_ok] at c3
    subst c3
    split at h3
    · exact ⟨_, rollback_throw _ _ _ _ h3⟩
    · cases h3

/-! ## Requests -/

/-- The body of a request of the given type. -/
def IsRequest (req : Json) (type : Value) (msg : Dict) : Prop :=
  ∃ full : Dict, req = .object full ∧ full.get? "type" = some type ∧ msg = full.pop "type"

/-- **Which requests are answered**, and the state they leave. -/
theorem zmqMsg_eq_ok {req : Json} {reply : Str} :
    (zmqMsg env req).run s = .ok reply s' ↔ reply = "OK".toList ∧
      ((∃ msg, IsRequest req (.str "path".toList) msg ∧
          (registerNewPath env msg).run s = .ok () s') ∨
        ∃ msg, IsRequest req (.str "mkdir".toList) msg ∧
          (mkdirForClient env msg).run s = .ok () s') := by
  have hne : Value.str "mkdir".toList ≠ Value.str "path".toList := by decide
  constructor
  · intro h
    cases req with
    | array => exact (throw_ne_ok.1 h).elim
    | scalar => exact (throw_ne_ok.1 h).elim
    | object full =>
      rw [zmqMsg] at h
      obtain ⟨type, _, h1, h2⟩ := bind_eq_ok.1 h
      obtain ⟨ht, rfl⟩ := orRaise_eq_ok.1 h1
      by_cases hp : type = .str "path".toList
      · rw [if_pos hp] at h2
        obtain ⟨_, _, h3, h4⟩ := bind_eq_ok.1 h2
        obtain ⟨rfl, rfl⟩ := pure_eq_ok.1 h4
        exact ⟨rfl, Or.inl ⟨_, ⟨full, rfl, hp ▸ ht, rfl⟩, h3⟩⟩
      · rw [if_neg hp] at h2
        by_cases hm : type = .str "mkdir".toList
        · rw [if_pos hm] at h2
          obtain ⟨_, _, h3, h4⟩ := bind_eq_ok.1 h2
          obtain ⟨rfl, rfl⟩ := pure_eq_ok.1 h4
          exact ⟨rfl, Or.inr ⟨_, ⟨full, rfl, hm ▸ ht, rfl⟩, h3⟩⟩
        · rw [if_neg hm] at h2
          obtain ⟨_, _, h3, -⟩ := bind_eq_ok.1 h2
          exact (throw_ne_ok.1 h3).elim
  · rintro ⟨rfl, ⟨msg, ⟨full, rfl, ht, rfl⟩, h⟩ | ⟨msg, ⟨full, rfl, ht, rfl⟩, h⟩⟩
    · rw [zmqMsg]
      refine bind_eq_ok.2 ⟨_, _, orRaise_eq_ok.2 ⟨ht, rfl⟩, ?_⟩
      rw [if_pos rfl]
      exact bind_eq_ok.2 ⟨_, _, h, rfl⟩
    · rw [zmqMsg]
      refine bind_eq_ok.2 ⟨_, _, orRaise_eq_ok.2 ⟨ht, rfl⟩, ?_⟩
      rw [if_neg hne, if_pos rfl]
      exact bind_eq_ok.2 ⟨_, _, h, rfl⟩

/-- A `mkdir` request that is answered leaves what `os.makedirs` makes of the tree. -/
theorem zmqMsg_mkdir_ok {req : Json} {msg : Dict} {dir reply : Str}
    (hreq : IsRequest req (.str "mkdir".toList) msg) (hdir : msg.get? "dir" = some (.str dir))
    (h : (zmqMsg env req).run s = .ok reply s') : MkdirTakes env s dir ∧
      s' = { s with tree := (makedirs env.mayCreate env.takes s.tree env.cwd dir).1 } := by
  obtain ⟨full, rfl, htype, rfl⟩ := hreq
  obtain ⟨-, ⟨msg', ⟨full', hfull, htype', -⟩, -⟩ | ⟨msg', ⟨full', hfull, -, rfl⟩, hok⟩⟩ :=
    zmqMsg_eq_ok.1 h
  · obtain rfl := Json.object.inj hfull
    rw [htype] at htype'
    exact absurd (Option.some.inj htype') (by decide)
  · obtain rfl := Json.object.inj hfull
    obtain ⟨d, hd, htakes, rfl⟩ := mkdirForClient_eq_ok.1 hok
    rw [hdir] at hd
    obtain rfl := Value.str.inj (Option.some.inj hd)
    exact ⟨htakes, rfl⟩

/-- **What a request leaves that is not answered**: the state with another file
tree at most, or that of a registration whose editor could not be launched. -/
theorem zmqMsg_error {req : Json} {e : Exn} (h : (zmqMsg env req).run s = .error e s') :
    (∃ tree, s' = { s with tree := tree }) ∨ ∃ msg editor serverFn,
      IsRequest req (.str "path".toList) msg ∧ Registers env s msg editor serverFn s' ∧
        ¬ CanLaunch env editor serverFn := by
  cases req with
  | array => exact Or.inl ⟨s.tree, rollback_throw _ _ _ _ h⟩
  | scalar => exact Or.inl ⟨s.tree, rollback_throw _ _ _ _ h⟩
  | object full =>
    rw [zmqMsg] at h
    rcases bind_eq_error.1 h with h1 | ⟨type, _, c1, h1⟩
    · exact Or.inl ⟨s.tree, rollback_orRaise _ _ _ _ _ h1⟩
    obtain ⟨ht, rfl⟩ := orRaise_eq_ok.1 c1
    by_cases hp : type = .str "path".toList
    · rw [if_pos hp] at h1
      rcases bind_eq_error.1 h1 with h2 | ⟨_, _, -, h2⟩
      · rcases registerNewPath_error h2 with ⟨rfl, -⟩ | ⟨editor, serverFn, hr, hl⟩
        · exact Or.inl ⟨_, rfl⟩
        · exact Or.inr ⟨_, editor, serverFn, ⟨full, rfl, hp ▸ ht, rfl⟩, hr, hl⟩
      · cases h2
    · rw [if_neg hp] at h1
      left
      by_cases hm : type = .str "mkdir".toList
      · rw [if_pos hm] at h1
        rcases bind_eq_error.1 h1 with h2 | ⟨_, _, -, h2⟩
        · exact mkdirForClient_error h2
        · cases h2
      · rw [if_neg hm] at h1
        rcases bind_eq_error.1 h1 with h2 | ⟨_, _, -, h2⟩
        · exact ⟨_, rollback_throw _ _ _ _ h2⟩
        · cases h2

end Fsync.Ubuntu
