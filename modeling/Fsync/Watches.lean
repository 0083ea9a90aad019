import Fsync.Mac.Registry
import Fsync.Ubuntu.Registry

/-!
# Which writes a watch sees

An FSEvents stream reports what changes anywhere below its directory; a GIO
monitor reports the file it was made for, or the direct children of the directory
it was made for.  The pull that follows is recursive on both servers.

* `Mac.tracked_reachable`: in every reachable state each item's stream is started
  and watches the item's directory, or the one its file is in;
* `edit_noticed_iff`: on the Mac every write below a registered path is followed
  by a pull that covers it; on Ubuntu exactly if the path is a file or the written
  file is a direct child of the path.
-/

namespace Fsync

open Posix Os Registry

/-- The source operand of an rsync command covers the place `w`. -/
def SourceCovers (command : List Str) (w : Path) : Prop :=
  ∃ operand, command[2]? = some operand ∧ absComps operand <+: w

theorem sourceCovers_pullCommand {r : Route} {w : Path} (h : absComps r.serverFn <+: w) :
    SourceCovers r.pullCommand w :=
  ⟨r.serverFn, rfl, h⟩

/-! ## The Mac -/

namespace Mac

/-- The item's stream runs, reports a write at `w`, and pulls what covers it. -/
def Notices (s : App) (item : WatchItem) (w : Path) : Prop :=
  item.watchFolder.stream ∈ s.streams ∧ item.watchFolder.stream.reports w ∧
    SourceCovers (callback item.watchFolder.stream) w

/-- The stream of a `WatchFolder` is that of `initWithServerFn:`. -/
def Made (wf : WatchFolder) : Prop :=
  wf.stream.owner = wf.route ∧ ∃ (tree : FileTree Bytes) (cwd : Path),
    pathExists tree cwd wf.serverFn = true ∧
      wf.stream.root = watchRoot tree cwd wf.serverFn

/-- The streams of the items in the menu are started. -/
structure Tracked (s : App) : Prop where
  started : ∀ item ∈ watchItems s.menu, item.watchFolder.stream ∈ s.streams
  ids : ((watchItems s.menu).map (·.watchFolder.stream.id)).Nodup
  old : ∀ item ∈ watchItems s.menu, item.watchFolder.stream.id < s.nextStream
  made : ∀ item ∈ watchItems s.menu, Made item.watchFolder

theorem tracked_awakeFromNib (tree : FileTree Bytes) : Tracked (awakeFromNib tree) := by
  have h : watchItems (awakeFromNib tree).menu = [] := rfl
  constructor <;> simp [h]

theorem SameRegistry.tracked {s s' : App} (h : SameRegistry s s') (hs : Tracked s) :
    Tracked s' :=
  ⟨by rw [h.menu, h.streams]; exact hs.started, by rw [h.menu]; exact hs.ids,
    by rw [h.menu, h.nextStream]; exact hs.old, by rw [h.menu]; exact hs.made⟩

theorem tracked_register {s : App} (h : Tracked s) {cwd : Path} {msg : PathMsg}
    (hex : pathExists s.tree cwd msg.serverFn = true) : Tracked (s.register cwd msg) := by
  refine ⟨?_, ?_, ?_, ?_⟩ <;> rw [watchItems_register]
  · intro i hi
    rcases List.mem_cons.1 hi with rfl | hi
    · exact List.mem_cons_self
    · exact List.mem_cons_of_mem _ (h.started i hi)
  · rw [List.map_cons, List.nodup_cons]
    refine ⟨fun hm => ?_, h.ids⟩
    obtain ⟨i, hi, hk⟩ := List.mem_map.1 hm
    have hlt := h.old i hi
    rw [hk] at hlt
    exact lt_irrefl _ hlt
  · intro i hi
    rcases List.mem_cons.1 hi with rfl | hi
    · exact Nat.lt_succ_self _
    · exact Nat.lt_succ_of_lt (h.old i hi)
  · intro i hi
    rcases List.mem_cons.1 hi with rfl | hi
    · exact ⟨rfl, s.tree, cwd, hex, rfl⟩
    · exact h.made i hi

/-- Removing an item stops its stream and leaves those of the other items. -/
theorem tracked_removeMenuItem {s : App} (h : Tracked s) (i : ℕ) :
    Tracked (removeMenuItem i s) := by
  have hnext : (removeMenuItem i s).nextStream = s.nextStream := by
    rw [removeMenuItem]
    split
    · rfl
    · rename_i w _
      cases w <;> rfl
  have hsub : List.Sublist (watchItems (s.menu.eraseIdx i)) (watchItems s.menu) :=
    (List.eraseIdx_sublist s.menu i).filterMap _
  refine ⟨fun y hy => ?_, ?_, ?_, ?_⟩
  · rw [removeMenuItem_menu] at hy
    have hstarted := h.started y (hsub.subset hy)
    rw [removeMenuItem]
    split
    · exact hstarted
    · rename_i w hw
      cases w with
      | watch x =>
        refine List.mem_filter.2 ⟨hstarted, ?_⟩
        -- the item that goes has another number than those that stay
        obtain ⟨hi, hx⟩ := List.getElem?_eq_some_iff.1 hw
        have hsplit : s.menu = s.menu.take i ++ .watch x :: s.menu.drop (i + 1) := by
          rw [← hx, List.cons_getElem_drop_succ, List.take_append_drop]
        have hids := h.ids
        rw [hsplit, watchItems, List.filterMap_append, List.filterMap_cons] at hids
        rw [List.eraseIdx_eq_take_drop_succ, watchItems, List.filterMap_append] at hy
        simp only [List.map_append, List.map_cons, List.nodup_append, List.nodup_cons] at hids
        have hne : y.watchFolder.stream.id ≠ x.watchFolder.stream.id := by
          rcases List.mem_append.1 hy with hy | hy
          · exact hids.2.2 _ (List.mem_map_of_mem hy) _ List.mem_cons_self
          · exact fun hc => hids.2.1.1 (hc ▸ List.mem_map_of_mem hy)
        simpa using hne
      | topSeparator => exact hstarted
      | about => exact hstarted
      | separator => exact hstarted
      | quit => exact hstarted
  · rw [removeMenuItem_menu]
    exact h.ids.sublist (hsub.map _)
  · rw [removeMenuItem_menu, hnext]
    exact fun y hy => h.old y (hsub.subset hy)
  · rw [removeMenuItem_menu]
    exact fun y hy => h.made y (hsub.subset hy)

theorem tracked_raiseAlert {s : App} (h : Tracked s) (msg : Str) : Tracked (raiseAlert msg s) := by
  rw [raiseAlert]
  split
  · exact ⟨h.started, h.ids, h.old, h.made⟩
  · have hrem := tracked_removeMenuItem h 0
    exact ⟨hrem.started, hrem.ids, hrem.old, hrem.made⟩

theorem tracked_step {s s' : App} {a : Action} (h : Tracked s) (hs : step s a = some s') :
    Tracked s' := by
  cases registryStep_of_step hs with
  | same hsame _ => exact hsame.tracked h
  | register _ hex hreg => exact hreg.tracked (tracked_register h hex)
  | click _ hrem => rw [hrem]; exact tracked_removeMenuItem h _
  | @alert k msg _ hal =>
    have hq : Tracked { s with queue := s.queue.eraseIdx k } := ⟨h.started, h.ids, h.old, h.made⟩
    rw [hal]
    exact tracked_raiseAlert hq msg

theorem tracked_reachable {tree : FileTree Bytes} {s : App}
    (h : Run.Reachable step (awakeFromNib tree) s) : Tracked s :=
  h.inv (tracked_awakeFromNib tree) fun _ _ _ hs ht => tracked_step hs ht

/-- What is watched is the path or above it. -/
theorem absComps_root {wf : WatchFolder} (h : Made wf) :
    absComps wf.stream.root <+: absComps wf.serverFn := by
  obtain ⟨-, tree, cwd, hex, hroot⟩ := h
  rw [hroot, watchRoot]
  split
  · exact List.prefix_refl _
  · rename_i hdir
    -- what is there is no directory, so the path ends in a name
    obtain ⟨kind, hkind⟩ := Option.isSome_iff_exists.1 hex
    obtain ⟨e, he, hfollow⟩ := Option.bind_eq_some_iff.1 hkind
    obtain ⟨q, hq, hnode⟩ := Option.bind_eq_some_iff.1 he
    have hname : ¬ (basename wf.serverFn = [] ∨ basename wf.serverFn = dot ∨
        basename wf.serverFn = dotdot) := by
      intro hb
      rw [node_of_basename hb hq, Option.some.injEq] at hnode
      subst hnode
      rw [isdir, hkind, ← hfollow] at hdir
      exact hdir rfl
    rw [not_or, not_or] at hname
    have hne : wf.serverFn ≠ [] := by
      intro h0
      rw [h0] at hq
      cases hq
    rw [deletingLastPathComponent, rstripSlash_of_basename hname.1, if_neg hne]
    by_cases hd : dirname wf.serverFn = []
    · rw [hd]
      exact List.nil_prefix
    have h := absCompsFrom_dirname [] hname.2.2 hd
    rw [absCompsFrom, absCompsFrom] at h
    simpa [absComps] using h

/-- Every write at or below a registered path is noticed. -/
theorem notices {tree : FileTree Bytes} {s : App} {item : WatchItem} {w : Path}
    (h : Run.Reachable step (awakeFromNib tree) s) (hitem : item ∈ watchItems s.menu)
    (hw : absComps item.watchFolder.serverFn <+: w) : Notices s item w := by
  have ht := tracked_reachable h
  have hmade := ht.made item hitem
  refine ⟨ht.started item hitem, (absComps_root hmade).trans hw, ?_⟩
  rw [callback, hmade.1]
  exact sourceCovers_pullCommand hw

end Mac

/-! ## Ubuntu -/

namespace Ubuntu

/-- The item's monitor runs, reports a completed write at `w`, and pulls what
covers it. -/
def Notices (s : State) (item : WatchFileMenuItem) (w : Path) : Prop :=
  item.monitor ∈ s.monitors ∧ item.monitor.reports w ∧
    ∃ command, fileChanged item.monitor.owner .changesDoneHint = some command ∧
      SourceCovers command w

/-- A file that the item's path contains: below it if it is a directory, the path
itself if it is a file. -/
def Contains (item : WatchFileMenuItem) (w : Path) : Prop :=
  if item.monitor.isDir then absComps item.serverFn <+: w ∧ w ≠ absComps item.serverFn
  else w = absComps item.serverFn

theorem Contains.below {item : WatchFileMenuItem} {w : Path} (h : Contains item w) :
    absComps item.serverFn <+: w := by
  rw [Contains] at h
  split at h
  · exact h.1
  · rw [h]

/-- A write is noticed if the path is a file or the file is its direct child. -/
theorem notices_iff {tree : FileTree Bytes} {s : Session} {item : WatchFileMenuItem} {w : Path}
    (h : Run.Reachable step (start tree) s) (hitem : item ∈ watchItems s.fsync.menu)
    (hw : Contains item w) :
    Notices s.fsync item w ↔
      item.monitor.isDir = false ∨ w.dropLast = absComps item.serverFn := by
  have hinv : Inv s.fsync := (h.inv (sound_start tree) fun _ _ _ hs ht => sound_step hs ht).inv
  have hmem : item.monitor ∈ s.fsync.monitors := by
    rw [hinv.monitors]
    exact List.mem_map_of_mem hitem
  have hcommand : ∃ command, fileChanged item.monitor.owner .changesDoneHint = some command ∧
      SourceCovers command w := by
    rw [hinv.owner item hitem]
    exact ⟨_, rfl, sourceCovers_pullCommand hw.below⟩
  have hreports : item.monitor.reports w ↔
      item.monitor.isDir = false ∨ w.dropLast = absComps item.serverFn := by
    rw [Monitor.reports, hinv.path item hitem]
    rw [Contains] at hw
    cases hdir : item.monitor.isDir with
    | false =>
      rw [hdir, if_neg Bool.false_ne_true] at hw
      exact ⟨fun _ => Or.inl rfl, fun _ => by rw [if_neg Bool.false_ne_true]; exact hw⟩
    | true =>
      rw [hdir, if_pos rfl] at hw
      rw [if_pos rfl]
      constructor
      · exact fun h => Or.inr h.2
      · rintro (hc | hc)
        · cases hc
        · refine ⟨fun h0 => hw.2 ?_, hc⟩
          rw [h0] at hc ⊢
          exact hc
  exact ⟨fun h => hreports.1 h.2.1, fun h => ⟨hmem, hreports.2 h, hcommand⟩⟩

end Ubuntu

/-! ## Both servers -/

/-- **Which edits go unnoticed.**  On the Mac every write at or below a registered
path is followed by a pull that covers it.  On Ubuntu a write to a file of a
registered path is if and only if the path is a file or the file is directly in it. -/
theorem edit_noticed_iff (w : Path) :
    (∀ {tree s} {item : Mac.WatchItem}, Run.Reachable Mac.step (Mac.awakeFromNib tree) s →
      item ∈ Mac.watchItems s.menu → isabs item.watchFolder.serverFn = true →
      absComps item.watchFolder.serverFn <+: w → Mac.Notices s item w) ∧
    (∀ {tree s} {item : Ubuntu.WatchFileMenuItem}, Run.Reachable Ubuntu.step (Ubuntu.start tree) s →
      item ∈ Ubuntu.watchItems s.fsync.menu → Ubuntu.Contains item w →
      (Ubuntu.Notices s.fsync item w ↔
        item.monitor.isDir = false ∨ w.dropLast = absComps item.serverFn)) :=
  ⟨fun h hitem _ hw => Mac.notices h hitem hw, Ubuntu.notices_iff⟩

/-- A directory `/d` with a file two levels below it, opened on either server. -/
def deepTree : FileTree Bytes :=
  ((DirTree.empty.put ["d".toList] .dir).put ["d".toList, "s".toList] .dir).put
    ["d".toList, "s".toList, "f".toList] (.file [])

/-- A file two directories below the one that is opened. -/
def deepFile : Path := ["d".toList, "s".toList, "f".toList]

/-- The message for `/d/`. -/
def deepMsg : PathMsg :=
  ⟨"~/d".toList, "vi".toList, "/d/".toList, "ann@h".toList, "/home/ann/d/".toList⟩

/-- The Mac with `/d/` registered. -/
def deepMac : Mac.App := Mac.poll [] (fun _ => true) (.path deepMsg) (Mac.awakeFromNib deepTree)

/-- The Ubuntu server with `/d/` registered. -/
def deepUbuntu : Ubuntu.Session :=
  Ubuntu.handle Ubuntu.sampleEnv (.object deepMsg.toDict) (Ubuntu.start deepTree)

/-- Its item on the Mac. -/
def deepMacItem : Mac.WatchItem :=
  ⟨itemTitle deepMsg.hostname deepMsg.displayname, deepMsg.serverFn, deepMsg.clientFn,
    deepMsg.hostname, 0, deepMsg.serverFn, deepMsg.route⟩

/-- Its item on Ubuntu. -/
def deepUbuntuItem : Ubuntu.WatchFileMenuItem :=
  ⟨.str deepMsg.clientFn, deepMsg.serverFn, .str deepMsg.hostname,
    itemTitle deepMsg.hostname deepMsg.displayname, 0, deepMsg.serverFn, true, deepMsg.route⟩

theorem edit_noticed_deep : Mac.Notices deepMac deepMacItem deepFile ∧
    (Ubuntu.Notices deepUbuntu.fsync deepUbuntuItem deepFile ↔
      deepUbuntuItem.monitor.isDir = false ∨
        deepFile.dropLast = absComps deepUbuntuItem.serverFn) :=
  ⟨(edit_noticed_iff deepFile).1 ⟨[.request [] (fun _ => true) (.path deepMsg)], rfl⟩
      (by decide) rfl (by decide),
    (edit_noticed_iff deepFile).2 ⟨[.message Ubuntu.sampleEnv (.object deepMsg.toDict)], rfl⟩
      (by decide) ⟨by decide, by decide⟩⟩

/-- The Ubuntu server does not notice a write two levels below an opened directory. -/
theorem deep_write_unnoticed : Run.Reachable Ubuntu.step (Ubuntu.start deepTree) deepUbuntu ∧
    deepUbuntuItem ∈ Ubuntu.watchItems deepUbuntu.fsync.menu ∧
    Ubuntu.Contains deepUbuntuItem deepFile ∧
    ¬ Ubuntu.Notices deepUbuntu.fsync deepUbuntuItem deepFile :=
  ⟨⟨[.message Ubuntu.sampleEnv (.object deepMsg.toDict)], rfl⟩, by decide,
    ⟨by decide, by decide⟩, fun h => absurd h.2.1.2 (by decide)⟩

end Fsync
