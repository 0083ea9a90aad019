import Fsync.Base.Run
import Fsync.Message
import Mathlib.Data.List.Perm.Basic
import Mathlib.Tactic.Linarith

/-!
# The sync indicator of the Mac server

The icon turns while pulls are in progress.  A watch callback leaves two calls to
the main thread, `startRsyncIndicator:` before its `rsync` and `stopRsyncIndicator:`
behind it; the methods count, and keep the timer that turns the icon.

* `Pulls`: callbacks that overlap in any way, the calls they left, and the timers
  that fire; the calls are performed in any order that has the start of a callback
  before its stop;
* `Ordered`: what that order gives: a stop is performed only while one more start
  than stops was;
* `indicator_counts`: so the counter is the number of pulls in progress, and the one
  timer runs while there are any.
-/

namespace Fsync.Mac

open Posix

/-! ## The methods -/

/-- The fields of `AppDelegate` that the indicator uses, and the timers of the run loop. -/
structure Indicator where
  statusImages : List Str
  currentFrame : ℕ
  nRsyncs : ℤ
  animTimer : Option ℕ
  /-- The timers that are valid. -/
  timers : List ℕ
  nextTimer : ℕ
  /-- The image of the status item. -/
  image : Option Str
  /-- The times the counter was below zero and set to zero. -/
  clamps : ℕ
  /-- `objectAtIndex:` was handed an index out of range. -/
  rangeError : Bool
  deriving DecidableEq, Repr

namespace Indicator

/-- `loadImages`: one image for every five degrees. -/
def loadImages : List Str :=
  (List.range 72).map fun i => "refresh_small_".toList ++ (Nat.repr (5 * i)).toList

/-- `scheduledTimerWithTimeInterval:` for a timer that repeats. -/
def scheduleTimer (s : Indicator) : Indicator :=
  { s with
    animTimer := some s.nextTimer
    timers := s.nextTimer :: s.timers
    nextTimer := s.nextTimer + 1 }

/-- `[self.animTimer invalidate]`; a message to `nil` does nothing. -/
def invalidate (s : Indicator) : Indicator :=
  match s.animTimer with
  | none => s
  | some timer => { s with timers := s.timers.filter (· ≠ timer) }

/-- `setImage:` of the image at an index. -/
def showImage (i : ℕ) (s : Indicator) : Indicator :=
  match s.statusImages[i]? with
  | none => { s with rangeError := true }
  | some image => { s with image := some image }

/-- `startRsyncIndicator:` -/
def startRsync (s : Indicator) : Indicator :=
  let s := { s with currentFrame := 0 }
  let s := if s.nRsyncs = 0 then scheduleTimer s else s
  { s with nRsyncs := s.nRsyncs + 1 }

/-- "keep it in valid teritory" -/
def clamp (s : Indicator) : Indicator :=
  if s.nRsyncs < 0 then { s with nRsyncs := 0, clamps := s.clamps + 1 } else s

/-- `stopRsyncIndicator:` -/
def stopRsync (s : Indicator) : Indicator :=
  let s := clamp { s with nRsyncs := s.nRsyncs - 1 }
  if s.nRsyncs = 0 then showImage 0 { invalidate s with currentFrame := 0 } else s

/-- `animateTick:`; an exception leaves the frame as it is. -/
def animateTick (s : Indicator) : Indicator :=
  match s.statusImages[s.currentFrame]? with
  | none => { s with rangeError := true }
  | some image =>
    { s with
      image := some image
      currentFrame := (s.currentFrame + 1) % s.statusImages.length }

/-- `awakeFromNib`: the counter is zero when it is stopped. -/
def awake : Indicator :=
  stopRsync
    { statusImages := loadImages
      currentFrame := 0
      nRsyncs := 0
      animTimer := none
      timers := []
      nextTimer := 0
      image := none
      clamps := 0
      rangeError := false }

/-! ## What the methods keep -/

/-- The indicator counts `n` pulls, and was clamped when the app woke up only. -/
structure Counts (n : ℕ) (s : Indicator) : Prop where
  images : s.statusImages = loadImages
  frame : s.currentFrame < s.statusImages.length
  count : s.nRsyncs = n
  idle : n = 0 → s.timers = []
  timer : n ≠ 0 → ∃ t, s.animTimer = some t ∧ s.timers = [t]
  clamps : s.clamps = 1
  range : s.rangeError = false

theorem counts_awake : Counts 0 awake := by
  constructor <;> first | rfl | decide

variable {n : ℕ} {s : Indicator}

theorem Counts.startRsync (h : Counts n s) : Counts (n + 1) (startRsync s) := by
  have hpos : 0 < s.statusImages.length := Nat.lt_of_le_of_lt (Nat.zero_le _) h.frame
  rw [Indicator.startRsync]
  dsimp only
  by_cases hn : n = 0
  · -- the counter is zero: a new timer is the only one
    have hcount : s.nRsyncs = 0 := by
      rw [h.count, hn]
      rfl
    rw [if_pos hcount]
    refine ⟨h.images, hpos, ?_, by omega, ?_, h.clamps, h.range⟩
    · show s.nRsyncs + 1 = _
      rw [h.count]
      rfl
    · intro _
      refine ⟨s.nextTimer, rfl, ?_⟩
      show s.nextTimer :: s.timers = _
      rw [h.idle hn]
  · have hcount : ¬ s.nRsyncs = 0 := by
      rw [h.count]
      omega
    rw [if_neg hcount]
    refine ⟨h.images, hpos, ?_, by omega, fun _ => h.timer hn, h.clamps, h.range⟩
    show s.nRsyncs + 1 = _
    rw [h.count]
    rfl

theorem Counts.stopRsync (h : Counts (n + 1) s) : Counts n (stopRsync s) := by
  have hpos : 0 < s.statusImages.length := Nat.lt_of_le_of_lt (Nat.zero_le _) h.frame
  have hcount : s.nRsyncs - 1 = n := by
    rw [h.count]
    omega
  have hclamp : ¬ s.nRsyncs - 1 < 0 := by omega
  obtain ⟨t, htimer, htimers⟩ := h.timer (Nat.succ_ne_zero n)
  rw [Indicator.stopRsync]
  dsimp only
  rw [clamp, if_neg hclamp]
  dsimp only
  rw [hcount]
  by_cases hn : n = 0
  · subst hn
    rw [if_pos Nat.cast_zero]
    have hinv : invalidate { s with nRsyncs := (0 : ℕ) } =
        { s with nRsyncs := (0 : ℕ), timers := [] } := by
      rw [invalidate]
      dsimp only
      rw [htimer, htimers]
      simp
    have himage : s.statusImages[0]? = some s.statusImages[0] := List.getElem?_eq_getElem hpos
    rw [hinv, showImage]
    dsimp only
    rw [himage]
    exact ⟨h.images, hpos, rfl, fun _ => rfl, by simp, h.clamps, h.range⟩
  · rw [if_neg (by omega)]
    exact ⟨h.images, h.frame, rfl, fun h0 => absurd h0 hn, fun _ => ⟨t, htimer, htimers⟩, h.clamps,
      h.range⟩

theorem Counts.animateTick (h : Counts n s) : Counts n (animateTick s) := by
  have hframe := h.frame
  have himage : s.statusImages[s.currentFrame]? = some s.statusImages[s.currentFrame] :=
    List.getElem?_eq_getElem hframe
  rw [Indicator.animateTick, himage]
  refine ⟨h.images, ?_, h.count, h.idle, h.timer, h.clamps, h.range⟩
  exact Nat.mod_lt _ (Nat.lt_of_le_of_lt (Nat.zero_le _) h.frame)

end Indicator

/-! ## Callbacks in progress -/

/-- The calls that a callback leaves to the main thread. -/
inductive Call where
  | start
  | stop
  deriving DecidableEq, Repr

/-- The method that a call performs. -/
def Call.run : Call → Indicator → Indicator
  | .start => Indicator.startRsync
  | .stop => Indicator.stopRsync

/-- The callbacks that have one of the calls among `calls`. -/
def callers (call : Call) (calls : List (Call × ℕ)) : List ℕ :=
  calls.filterMap fun c => if c.1 = call then some c.2 else none

/-- The indicator with the callbacks that drive it. -/
structure Pulls where
  indicator : Indicator
  nextCallback : ℕ
  /-- The callbacks that wait for their `rsync`. -/
  waiting : List ℕ
  /-- The calls left to the main thread. -/
  queue : List (Call × ℕ)
  /-- The calls it performed. -/
  performed : List (Call × ℕ)
  deriving DecidableEq, Repr

namespace Pulls

/-- No callback was called yet. -/
def awake : Pulls := ⟨Indicator.awake, 0, [], [], []⟩

/-- What callbacks, the main thread and the timers do. -/
inductive Action where
  /-- A watch callback is called, also while others wait. -/
  | begins
  /-- The `rsync` of a callback exits. -/
  | ends (callback : ℕ)
  /-- The main thread performs a call that was left to it. -/
  | perform (k : ℕ)
  /-- A valid timer fires. -/
  | tick (timer : ℕ)
  deriving DecidableEq, Repr

/-- A callback leaves its calls to the main thread, which performs them in any order. -/
def step (s : Pulls) : Action → Option Pulls
  | .begins => some { s with
      nextCallback := s.nextCallback + 1
      waiting := s.nextCallback :: s.waiting
      queue := s.queue ++ [(.start, s.nextCallback)] }
  | .ends callback =>
    if callback ∈ s.waiting then some { s with
      waiting := s.waiting.erase callback
      queue := s.queue ++ [(.stop, callback)] }
    else none
  | .perform k =>
    match s.queue[k]? with
    | none => none
    | some (call, callback) =>
      -- the start of a callback runs before its own stop
      if call = .stop ∧ (.start, callback) ∈ s.queue then none
      else some { s with
        indicator := call.run s.indicator
        queue := s.queue.eraseIdx k
        performed := s.performed ++ [(call, callback)] }
  | .tick timer =>
    if timer ∈ s.indicator.timers then some { s with indicator := s.indicator.animateTick }
    else none

/-! ## The order of the calls -/

/-- The calls that were left to the main thread, performed or not. -/
def calls (s : Pulls) : List (Call × ℕ) := s.performed ++ s.queue

/-- Every callback starts once and stops at most once, after its start. -/
structure Ordered (s : Pulls) : Prop where
  starts : (callers .start s.calls).Nodup
  stops : (callers .stop s.calls ++ s.waiting).Nodup
  fresh : ∀ c ∈ callers .start s.calls, c < s.nextCallback
  begun : ∀ c ∈ callers .stop s.calls ++ s.waiting, c ∈ callers .start s.calls
  after : ∀ c ∈ callers .stop s.performed, c ∈ callers .start s.performed

end Pulls

section Callers

variable {call : Call} {cs ds : List (Call × ℕ)} {c : ℕ}

theorem callers_append : callers call (cs ++ ds) = callers call cs ++ callers call ds :=
  List.filterMap_append

theorem mem_callers : c ∈ callers call cs ↔ (call, c) ∈ cs := by
  rw [callers, List.mem_filterMap]
  constructor
  · rintro ⟨⟨call', c'⟩, hmem, h⟩
    dsimp only at h
    split at h
    · rename_i hcall
      rw [← hcall, ← Option.some.inj h]
      exact hmem
    · cases h
  · intro h
    exact ⟨(call, c), h, if_pos rfl⟩

theorem callers_perm (call : Call) (h : cs.Perm ds) :
    (callers call cs).Perm (callers call ds) := h.filterMap _

theorem callers_singleton_self : callers call [(call, c)] = [c] := by simp [callers]

theorem callers_singleton_ne {call' : Call} (h : call' ≠ call) :
    callers call [(call', c)] = [] := by simp [callers, h]

end Callers

namespace Pulls

theorem ordered_awake : Ordered awake :=
  ⟨List.nodup_nil, List.nodup_nil, by simp [awake, calls, callers],
    by simp [awake, calls, callers], by simp [awake, callers]⟩

/-- Performing a call moves it. -/
theorem calls_perform {s : Pulls} {k : ℕ} {x : Call × ℕ} (h : s.queue[k]? = some x) :
    ((s.performed ++ [x]) ++ s.queue.eraseIdx k).Perm s.calls := by
  obtain ⟨hk, hx⟩ := List.getElem?_eq_some_iff.1 h
  have hperm := List.getElem_cons_eraseIdx_perm hk
  rw [hx] at hperm
  rw [List.append_assoc]
  exact hperm.append_left s.performed

/-- A stop in the queue whose start is not in the queue comes after its start. -/
theorem Ordered.started {s : Pulls} (hs : Ordered s) {k callback : ℕ}
    (hk : s.queue[k]? = some (.stop, callback)) (hturn : (Call.start, callback) ∉ s.queue) :
    callback ∈ callers .start s.performed := by
  have hmem : (Call.stop, callback) ∈ s.calls :=
    List.mem_append_right _ (List.mem_of_getElem? hk)
  have hbegun := hs.begun callback (List.mem_append_left _ (mem_callers.2 hmem))
  rcases List.mem_append.1 (mem_callers.1 hbegun) with hin | hin
  · exact mem_callers.2 hin
  · exact absurd hin hturn

theorem ordered_begins {s s' : Pulls} (hs : Ordered s) (h : step s .begins = some s') :
    Ordered s' := by
  obtain rfl := Option.some.inj h
  have hstart : callers .start (s.performed ++ (s.queue ++ [(.start, s.nextCallback)])) =
      callers .start s.calls ++ [s.nextCallback] := by
    rw [← List.append_assoc, callers_append, callers_singleton_self]
    rfl
  have hstop : callers .stop (s.performed ++ (s.queue ++ [(.start, s.nextCallback)])) =
      callers .stop s.calls := by
    rw [← List.append_assoc, callers_append, callers_singleton_ne (by simp), List.append_nil]
    rfl
  have hnew : s.nextCallback ∉ callers .start s.calls := fun hc =>
    absurd (hs.fresh _ hc) (lt_irrefl _)
  refine ⟨?_, ?_, ?_, ?_, hs.after⟩
  · rw [calls, hstart]
    refine List.nodup_append.2 ⟨hs.starts, List.pairwise_singleton _ _, ?_⟩
    rintro c hc _ hd rfl
    exact hnew (List.mem_singleton.1 hd ▸ hc)
  · rw [calls, hstop]
    exact List.perm_middle.nodup_iff.2
      (List.nodup_cons.2 ⟨fun hc => hnew (hs.begun _ hc), hs.stops⟩)
  · rw [calls, hstart]
    intro c hc
    rcases List.mem_append.1 hc with hc | hc
    · exact Nat.lt_succ_of_lt (hs.fresh c hc)
    · rw [List.mem_singleton.1 hc]
      exact Nat.lt_succ_self _
  · rw [calls, hstart, hstop]
    intro c hc
    rcases List.mem_cons.1 (List.perm_middle.mem_iff.1 hc) with rfl | hc
    · exact List.mem_append_right _ List.mem_cons_self
    · exact List.mem_append_left _ (hs.begun c hc)

theorem ordered_ends {s s' : Pulls} (hs : Ordered s) {callback : ℕ}
    (h : step s (.ends callback) = some s') : Ordered s' := by
  rw [Pulls.step] at h
  split at h
  · rename_i hwait
    obtain rfl := Option.some.inj h
    have hstart : callers .start (s.performed ++ (s.queue ++ [(.stop, callback)])) =
        callers .start s.calls := by
      rw [← List.append_assoc, callers_append, callers_singleton_ne (by simp), List.append_nil]
      rfl
    have hstop : (callers .stop (s.performed ++ (s.queue ++ [(.stop, callback)])) ++
        s.waiting.erase callback).Perm (callers .stop s.calls ++ s.waiting) := by
      rw [← List.append_assoc, callers_append, callers_singleton_self, List.append_assoc]
      exact (List.perm_cons_erase hwait).symm.append_left _
    refine ⟨?_, hstop.nodup_iff.2 hs.stops, ?_, ?_, hs.after⟩
    · rw [calls, hstart]
      exact hs.starts
    · rw [calls, hstart]
      exact hs.fresh
    · rw [calls, hstart]
      exact fun c hc => hs.begun c (hstop.mem_iff.1 hc)
  · cases h

theorem ordered_perform {s s' : Pulls} (hs : Ordered s) {k : ℕ}
    (h : step s (.perform k) = some s') : Ordered s' := by
  rw [Pulls.step] at h
  split at h
  · cases h
  · rename_i call callback hk
    split at h
    · cases h
    · rename_i hturn
      obtain rfl := Option.some.inj h
      have hperm := calls_perform hk
      have hstart := callers_perm .start hperm
      have hstop := (callers_perm .stop hperm).append_right s.waiting
      refine ⟨hstart.nodup_iff.2 hs.starts, hstop.nodup_iff.2 hs.stops,
        fun c hc => hs.fresh c (hstart.mem_iff.1 hc),
        fun c hc => hstart.mem_iff.2 (hs.begun c (hstop.mem_iff.1 hc)), ?_⟩
      intro c hc
      rw [callers_append, List.mem_append] at hc ⊢
      rcases hc with hc | hc
      · exact Or.inl (hs.after c hc)
      · -- the call is the stop of `c`, whose start is no longer in the queue
        obtain ⟨rfl, rfl⟩ : call = .stop ∧ callback = c := by
          simpa [eq_comm] using mem_callers.1 hc
        exact Or.inl (hs.started hk fun hin => hturn ⟨rfl, hin⟩)

/-- **A step keeps the order.** -/
theorem Ordered.step {s s' : Pulls} {a : Action} (hs : Ordered s) (h : step s a = some s') :
    Ordered s' := by
  cases a with
  | begins => exact ordered_begins hs h
  | ends callback => exact ordered_ends hs h
  | perform k => exact ordered_perform hs h
  | tick timer =>
    rw [Pulls.step] at h
    split at h
    · obtain rfl := Option.some.inj h
      exact ⟨hs.starts, hs.stops, hs.fresh, hs.begun, hs.after⟩
    · cases h

/-- A stop is performed only while more starts than stops were. -/
theorem Ordered.stops_lt_starts {s : Pulls} (hs : Ordered s) {k callback : ℕ}
    (hk : s.queue[k]? = some (.stop, callback)) (hturn : (Call.start, callback) ∉ s.queue) :
    (callers .stop s.performed).length < (callers .start s.performed).length := by
  have hnodup := (List.nodup_append.1 hs.stops).1
  rw [calls, callers_append] at hnodup
  obtain ⟨hstops, -, hdisj⟩ := List.nodup_append.1 hnodup
  have hnew : callback ∉ callers .stop s.performed := fun hc =>
    hdisj callback hc callback (mem_callers.2 (List.mem_of_getElem? hk)) rfl
  have hsub : callback :: callers .stop s.performed ⊆ callers .start s.performed := by
    intro c hc
    rcases List.mem_cons.1 hc with rfl | hc
    · exact hs.started hk hturn
    · exact hs.after c hc
  have hlen := (List.subperm_of_subset (List.nodup_cons.2 ⟨hnew, hstops⟩) hsub).length_le
  rw [List.length_cons] at hlen
  omega

/-! ## What the indicator counts -/

/-- The pulls in progress: the starts that were performed, less the stops. -/
def inProgress (s : Pulls) : ℕ :=
  (callers .start s.performed).length - (callers .stop s.performed).length

theorem inProgress_performed {cs : List (Call × ℕ)} {call : Call} {c : ℕ} :
    (callers .start (cs ++ [(call, c)])).length - (callers .stop (cs ++ [(call, c)])).length =
      match call with
      | .start => (callers .start cs).length + 1 - (callers .stop cs).length
      | .stop => (callers .start cs).length - ((callers .stop cs).length + 1) := by
  rw [callers_append, callers_append]
  cases call with
  | start => rw [callers_singleton_self, callers_singleton_ne (by simp)]; simp
  | stop => rw [callers_singleton_self, callers_singleton_ne (by simp)]; simp

theorem Ordered.stops_le_starts {s : Pulls} (hs : Ordered s) :
    (callers .stop s.performed).length ≤ (callers .start s.performed).length := by
  have hnodup := (List.nodup_append.1 hs.stops).1
  rw [calls, callers_append] at hnodup
  exact (List.subperm_of_subset (List.nodup_append.1 hnodup).1 hs.after).length_le

/-- A step keeps the count. -/
theorem counts_step {s s' : Pulls} {a : Action} (hs : Ordered s)
    (hcount : s.indicator.Counts s.inProgress) (h : step s a = some s') :
    s'.indicator.Counts s'.inProgress := by
  cases a with
  | begins =>
    obtain rfl := Option.some.inj h
    exact hcount
  | ends callback =>
    rw [Pulls.step] at h
    split at h
    · obtain rfl := Option.some.inj h
      exact hcount
    · cases h
  | perform k =>
    rw [Pulls.step] at h
    split at h
    · cases h
    · rename_i call callback hk
      split at h
      · cases h
      · rename_i hturn
        obtain rfl := Option.some.inj h
        rw [inProgress, inProgress_performed]
        cases call with
        | start =>
          have hle := hs.stops_le_starts
          have hnext : (callers .start s.performed).length + 1 -
              (callers .stop s.performed).length = s.inProgress + 1 := by
            rw [inProgress]
            omega
          dsimp only
          rw [hnext]
          exact hcount.startRsync
        | stop =>
          have hlt := hs.stops_lt_starts hk fun hin => hturn ⟨rfl, hin⟩
          have hnow : s.inProgress = (callers .start s.performed).length -
              ((callers .stop s.performed).length + 1) + 1 := by
            rw [inProgress]
            omega
          rw [hnow] at hcount
          exact hcount.stopRsync
  | tick timer =>
    rw [Pulls.step] at h
    split at h
    · obtain rfl := Option.some.inj h
      exact hcount.animateTick
    · cases h

theorem counts_reachable {s : Pulls} (h : Run.Reachable step awake s) :
    Ordered s ∧ s.indicator.Counts s.inProgress := by
  refine h.inv (P := fun s => Ordered s ∧ s.indicator.Counts s.inProgress)
    ⟨ordered_awake, Indicator.counts_awake⟩ ?_
  intro s a s' hs hstep
  exact ⟨hs.1.step hstep, counts_step hs.1 hs.2 hstep⟩

/-- **The indicator counts exactly the pulls in progress**, in every order of the
calls that callbacks leave: the counter is starts less stops and was clamped at the
start only, one timer is valid while it is positive and none while it is zero, and
the frame is an index of the images. -/
theorem indicator_counts {s : Pulls} (h : Run.Reachable step awake s) :
    s.indicator.nRsyncs =
        (callers .start s.performed).length - (callers .stop s.performed).length ∧
      s.indicator.clamps = Indicator.awake.clamps ∧
      (0 < s.indicator.nRsyncs →
        ∃ t, s.indicator.animTimer = some t ∧ s.indicator.timers = [t]) ∧
      (s.indicator.nRsyncs = 0 → s.indicator.timers = []) ∧
      0 ≤ s.indicator.nRsyncs ∧
      s.indicator.currentFrame < s.indicator.statusImages.length ∧
      s.indicator.rangeError = false := by
  obtain ⟨hs, hcount⟩ := counts_reachable h
  have hle := hs.stops_le_starts
  have hn := hcount.count
  rw [inProgress] at hn
  refine ⟨by omega, hcount.clamps, ?_, ?_, by omega, hcount.frame, hcount.range⟩
  · intro hpos
    exact hcount.timer (by rw [inProgress]; omega)
  · intro hzero
    exact hcount.idle (by rw [inProgress]; omega)

/-- Two pulls overlap, and the first one to begin ends last. -/
theorem indicator_counts_sample :
    ∃ s, Run.exec step awake [.begins, .perform 0, .begins, .tick 0, .perform 0, .ends 1, .perform 0,
        .tick 0] = some s ∧ s.indicator.nRsyncs = 1 ∧ ∃ t, s.indicator.timers = [t] := by
  have hrun : (Run.exec step awake [.begins, .perform 0, .begins, .tick 0, .perform 0, .ends 1,
      .perform 0, .tick 0]).isSome = true := by decide
  obtain ⟨s, hs⟩ := Option.isSome_iff_exists.1 hrun
  have hn : (Run.exec step awake [.begins, .perform 0, .begins, .tick 0, .perform 0, .ends 1,
      .perform 0, .tick 0]).map (·.indicator.nRsyncs) = some 1 := by decide
  rw [hs] at hn
  have hone : s.indicator.nRsyncs = 1 := Option.some.inj hn
  obtain ⟨t, -, ht⟩ := (indicator_counts ⟨_, hs⟩).2.2.1 (by rw [hone]; decide)
  exact ⟨s, hs, hone, t, ht⟩

end Pulls

end Fsync.Mac
