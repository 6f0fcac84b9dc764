import Erl.Queue.Basic
import Mathlib.Data.List.Basic

/-!
# `BasicQueue` is a queue

At most one thread is inside the mutex, and only it changes the queue. So the critical
sections are atomic: in the order in which they take place they are the operations of a
FIFO queue, and each call returns what its critical section has found.
-/

namespace Erl.Queue.Basic
open TransitionSystem Function

section
variable {Tid Token T : Type}

/-- Inside the critical section. -/
def Pc.holds : Pc Token T → Bool
  | .pushQueue _ | .pushNotify _ | .popCheck _ | .popSleep _ | .popTake _ | .tryPopTake | .emptyRead | .unlock _ => true
  | _ => false

/-- What the critical section has done, until the call returns. -/
def Pc.event : Pc Token T → Option (Event Token T)
  | .pushNotify data => some (.put data)
  | .unlock e => some e
  | _ => none

/-- What the predicate of the wait has found, while the mutex is held. -/
def Knows (s : State Tid Token T) : Pc Token T → Prop
  | .popSleep _ => s.queue = []
  | .popTake token => s.queue = [] → s.stopRequested token = true
  | _ => True

/-- The effect of one operation on an abstract queue. -/
def Event.Does : Event Token T → List T → List T → Prop
  | .put data, q, q' => q' = q ++ [data]
  | .took value, q, q' => q = value :: q'
  | .gaveUp _, q, q' | .missed, q, q' => q = [] ∧ q' = []
  | .looked empty, q, q' => empty = q.isEmpty ∧ q' = q

/-- The operations, one after the other, lead from the empty queue to `q`. -/
inductive Replays : List (Event Token T) → List T → Prop where
  | nil : Replays [] []
  | snoc {es : List (Event Token T)} {q q' : List T} {e : Event Token T} :
      Replays es q → e.Does q q' → Replays (es ++ [e]) q'

def stored (es : List (Event Token T)) : List T :=
  es.filterMap fun
    | .put data => some data
    | _ => none

def taken (es : List (Event Token T)) : List T :=
  es.filterMap fun
    | .took value => some value
    | _ => none

/-- First in, first out. -/
theorem Replays.first_in_first_out {es : List (Event Token T)} {q : List T} (h : Replays es q) : stored es = taken es ++ q := by
  induction h with
  | nil => rfl
  | @snoc es q q' e _ does ih =>
    simp only [stored, taken, List.filterMap_append] at ih ⊢
    rw [ih]
    cases e with
    | put data =>
      rw [does]
      simp
    | took value =>
      replace does : q = value :: q' := does
      simp [does]
    | gaveUp token => simp [does.1, does.2]
    | missed => simp [does.1, does.2]
    | looked empty => simp [does.2]

/-- What a call may do in its critical section. -/
def Call.Does : Call Token T → Event Token T → Prop
  | .push data, .put data' | .tryPush data, .put data' => data' = data
  | .pop _, .took _ | .tryPop, .took _ | .tryPop, .missed | .isEmpty, .looked _ => True
  | .pop token, .gaveUp token' => token' = token
  | _, _ => False

/-- What a call returns that has done `e` with the mutex, or never had it. -/
def Call.Answers : Call Token T → Option (Event Token T) → Answer T → Prop
  | c, some e, a => c.Does e ∧ a = e.answer
  | .tryPush _, none, .pushed false | .tryPop, none, .popped none | .notifyAll, none, .notified => True
  | _, none, _ => False

/-- The call that a thread is in, if any. -/
def Pc.Serves (pc : Pc Token T) (current : Option (Call Token T)) : Prop :=
  match pc with
  | .idle => current = none
  | .pushLock data => current = some (.push data)
  | .tryPushLock data => current = some (.tryPush data)
  | .pushQueue data | .pushNotify data => current = some (.push data) ∨ current = some (.tryPush data)
  | .popLock token | .popCheck token | .popSleep token | .sleeping token | .popRelock token | .popTake token =>
    current = some (.pop token)
  | .tryPopLock | .tryPopTake => current = some .tryPop
  | .emptyLock | .emptyRead => current = some .isEmpty
  | .unlock e => ∃ c, current = some c ∧ c.Does e
  | .notifyAll => current = some .notifyAll

theorem wake_holds (pc : Pc Token T) : pc.wake.holds = pc.holds := by cases pc <;> rfl

theorem wake_event (pc : Pc Token T) : pc.wake.event = pc.event := by cases pc <;> rfl

theorem wake_serves {pc : Pc Token T} {current : Option (Call Token T)} (h : pc.Serves current) :
    pc.wake.Serves current := by
  cases pc <;> exact h

theorem Knows.of_outside {s : State Tid Token T} {pc : Pc Token T} (h : pc.holds = false) : Knows s pc := by
  cases pc <;> trivial

theorem start_holds (c : Call Token T) : (Pc.start c).holds = false := by cases c <;> rfl

theorem start_serves (c : Call Token T) : (Pc.start c).Serves (some c) := by
  cases c <;> rfl

theorem start_event (c : Call Token T) : (Pc.start c).event = none := by cases c <;> rfl

variable [DecidableEq Tid]

def eventsOf (t : Tid) (l : List (Tid × Event Token T)) : List (Event Token T) :=
  l.filterMap fun r => if r.1 = t then some r.2 else none

def answeredOf (t : Tid) (l : List (Tid × Option (Event Token T) × Answer T)) : List (Event Token T) :=
  l.filterMap fun r => if r.1 = t then r.2.1 else none

def callsOf (t : Tid) (l : List (Tid × Call Token T)) : List (Call Token T) :=
  l.filterMap fun r => if r.1 = t then some r.2 else none

def returnsOf (t : Tid) (l : List (Tid × Option (Event Token T) × Answer T)) : List (Option (Event Token T) × Answer T) :=
  l.filterMap fun r => if r.1 = t then some r.2 else none

/-- The calls of a thread are those that have returned, with these answers, and the one it is in. -/
def Answered (s : State Tid Token T) (t : Tid) : Prop :=
  ∃ past current, callsOf t s.calls = past ++ Option.toList current ∧
    List.Forall₂ (fun c r => Call.Answers c r.1 r.2) past (returnsOf t s.returned) ∧ (s.thread t).Serves current

/-- Mutual exclusion, what the threads and the logs say, and that each call answers for
its critical section. -/
structure Inv (s : State Tid Token T) : Prop where
  exclusive : ∀ t, (s.thread t).holds = true ↔ s.lock = some t
  knows : ∀ t, Knows s (s.thread t)
  legal : Replays (s.history.map (·.2)) s.queue
  asked : ∀ t token, (t, .gaveUp token) ∈ s.history → s.stopRequested token = true
  own : ∀ t, eventsOf t s.history = answeredOf t s.returned ++ (s.thread t).event.toList
  answered : ∀ t, Answered s t

variable {s s' : State Tid Token T} {t : Tid}

theorem inv_start : Inv (start : State Tid Token T) where
  exclusive _ := by simp [start, Pc.holds]
  knows _ := trivial
  legal := .nil
  asked := by simp [start]
  own _ := rfl
  answered _ := ⟨[], none, rfl, .nil, rfl⟩

/-! ## What a step does -/

/-- One thread moves; the others at most wake up. -/
structure Moves (s s' : State Tid Token T) (t : Tid) : Prop where
  others : ∀ u, u ≠ t → s'.thread u = s.thread u ∨ s'.thread u = (s.thread u).wake
  lock : ∀ u, u ≠ t → (s'.lock = some u ↔ s.lock = some u)
  own : (s'.thread t).holds = true ↔ s'.lock = some t
  knows : Knows s' (s'.thread t)
  stops : s'.stopped = s.stopped

/-- It begins a call, moves between critical sections, carries out its own, or returns. -/
inductive Effect (s s' : State Tid Token T) (t : Tid) : Prop where
  | begins (c : Call Token T) (queue : s'.queue = s.queue) (history : s'.history = s.history)
      (calls : s'.calls = s.calls ++ [(t, c)]) (returned : s'.returned = s.returned)
      (event : (s'.thread t).event = (s.thread t).event) (before : s.thread t = .idle)
      (serves : (s'.thread t).Serves (some c))
  | quiet (queue : s'.queue = s.queue) (history : s'.history = s.history) (calls : s'.calls = s.calls)
      (returned : s'.returned = s.returned) (event : (s'.thread t).event = (s.thread t).event)
      (serves : ∀ current, (s.thread t).Serves current → (s'.thread t).Serves current)
  | acts (e : Event Token T) (inside : (s.thread t).holds = true) (before : (s.thread t).event = none)
      (does : e.Does s.queue s'.queue) (asked : ∀ token, e = .gaveUp token → s.stopRequested token = true)
      (history : s'.history = s.history ++ [(t, e)]) (calls : s'.calls = s.calls) (returned : s'.returned = s.returned)
      (after : (s'.thread t).event = some e)
      (serves : ∀ current, (s.thread t).Serves current → (s'.thread t).Serves current)
  | returns (a : Answer T) (queue : s'.queue = s.queue) (history : s'.history = s.history) (calls : s'.calls = s.calls)
      (returned : s'.returned = s.returned ++ [(t, (s.thread t).event, a)])
      (answers : ∀ current, (s.thread t).Serves current → ∃ c, current = some c ∧ c.Answers (s.thread t).event a)
      (after : s'.thread t = .idle)

omit [DecidableEq Tid] in
theorem Moves.stopRequested (moves : Moves s s' t) (token : Option Token) :
    s'.stopRequested token = s.stopRequested token := by
  cases token with
  | none => rfl
  | some token => exact congrFun moves.stops token

omit [DecidableEq Tid] in
theorem Moves.unchanged (moves : Moves s s' t) {u : Tid} (ne : u ≠ t) :
    (s'.thread u).holds = (s.thread u).holds ∧ (s'.thread u).event = (s.thread u).event := by
  rcases moves.others u ne with same | woken
  · rw [same]
    exact ⟨rfl, rfl⟩
  · rw [woken]
    exact ⟨wake_holds _, wake_event _⟩

omit [DecidableEq Tid] in
theorem Moves.serves (moves : Moves s s' t) {u : Tid} (ne : u ≠ t) {current : Option (Call Token T)}
    (serves : (s.thread u).Serves current) : (s'.thread u).Serves current := by
  rcases moves.others u ne with same | woken
  · rwa [same]
  · exact woken ▸ wake_serves serves

/-- The thread inside the mutex knows what it knew: its being there excludes that another
has changed the queue. -/
theorem Inv.knows_keep (inv : Inv s) (moves : Moves s s' t) (effect : Effect s s' t) (u : Tid) :
    Knows s' (s'.thread u) := by
  by_cases ne : u = t
  · exact ne ▸ moves.knows
  by_cases inside : (s'.thread u).holds = true
  · have same : s'.thread u = s.thread u := by
      rcases moves.others u ne with same | woken
      · exact same
      · rw [woken]
        cases pc : s.thread u <;> first | rfl | simp [woken, pc, Pc.wake, Pc.holds] at inside
    have queue : s'.queue = s.queue := by
      cases effect with
      | begins _ queue => exact queue
      | quiet queue => exact queue
      | returns a queue => exact queue
      | acts e owner =>
        have mine := (inv.exclusive u).mp (same ▸ inside)
        have yours := (inv.exclusive t).mp owner
        exact absurd (Option.some.inj (mine.symm.trans yours)) ne
    have known := inv.knows u
    rw [same]
    cases pc : s.thread u <;> rw [pc] at known <;> try trivial
    · exact queue.trans known
    · intro empty
      rw [moves.stopRequested]
      exact known (queue ▸ empty)
  · exact Knows.of_outside (Bool.eq_false_iff.mpr inside)

/-- Each thread's sections are still those that its returned calls answer for, and its own. -/
theorem Inv.own_keep (inv : Inv s) (moves : Moves s s' t) (effect : Effect s s' t) (u : Tid) :
    eventsOf u s'.history = answeredOf u s'.returned ++ (s'.thread u).event.toList := by
  have before := inv.own u
  by_cases ne : u = t
  · subst ne
    cases effect with
    | begins _ _ history _ returned event => rw [history, returned, event, before]
    | quiet _ history _ returned event => rw [history, returned, event, before]
    | acts e _ none _ _ history _ returned after =>
      rw [history, returned, after, eventsOf, List.filterMap_append, ← eventsOf, before, none]
      simp
    | returns a _ history _ returned _ after =>
      rw [history, returned, after, before, answeredOf, answeredOf, List.filterMap_append]
      cases (s.thread u).event <;> simp [Pc.event]
  · rw [(moves.unchanged ne).2]
    cases effect with
    | begins _ _ history _ returned => rw [history, returned, before]
    | quiet _ history _ returned => rw [history, returned, before]
    | acts e _ _ _ _ history _ returned =>
      rw [history, returned, eventsOf, List.filterMap_append, ← eventsOf, before]
      simp [Ne.symm ne]
    | returns a _ history _ returned =>
      rw [history, returned, before, answeredOf, answeredOf, List.filterMap_append]
      simp [Ne.symm ne]

/-- A call begins with the thread in it, and returns with an answer to it. -/
theorem Answered.keep {u : Tid} (answered : Answered s u) (moves : Moves s s' t) (effect : Effect s s' t) :
    Answered s' u := by
  obtain ⟨past, current, begun, answers, serves⟩ := answered
  unfold Answered callsOf returnsOf at *
  by_cases ne : u = t
  · subst ne
    cases effect with
    | begins c _ _ calls returned _ idle serving =>
      obtain rfl : current = none := by
        rwa [idle] at serves
      refine ⟨past, some c, ?_, returned ▸ answers, serving⟩
      rw [calls, List.filterMap_append, begun]
      simp
    | quiet _ _ calls returned _ kept => exact ⟨past, current, calls ▸ begun, returned ▸ answers, kept current serves⟩
    | acts e _ _ _ _ _ calls returned _ kept =>
      exact ⟨past, current, calls ▸ begun, returned ▸ answers, kept current serves⟩
    | returns a _ _ calls returned answer after =>
      obtain ⟨c, rfl, fine⟩ := answer current serves
      refine ⟨past ++ [c], none, ?_, ?_, by rw [after]; rfl⟩
      · rw [calls, begun]
        simp
      · rw [returned, List.filterMap_append]
        simpa using List.rel_append answers (.cons fine .nil)
  · have kept := moves.serves ne serves
    cases effect with
    | begins c _ _ calls returned =>
      refine ⟨past, current, ?_, returned ▸ answers, kept⟩
      rw [calls, List.filterMap_append, begun]
      simp [Ne.symm ne]
    | quiet _ _ calls returned => exact ⟨past, current, calls ▸ begun, returned ▸ answers, kept⟩
    | acts _ _ _ _ _ _ calls returned => exact ⟨past, current, calls ▸ begun, returned ▸ answers, kept⟩
    | returns a _ _ calls returned =>
      refine ⟨past, current, calls ▸ begun, ?_, kept⟩
      rw [returned, List.filterMap_append]
      simpa [Ne.symm ne] using answers

theorem Inv.keep (inv : Inv s) (moves : Moves s s' t) (effect : Effect s s' t) : Inv s' where
  exclusive u := by
    by_cases ne : u = t
    · exact ne ▸ moves.own
    · rw [(moves.unchanged ne).1, moves.lock u ne]
      exact inv.exclusive u
  knows := inv.knows_keep moves effect
  legal := by
    cases effect with
    | begins _ queue history =>
      rw [queue, history]
      exact inv.legal
    | quiet queue history =>
      rw [queue, history]
      exact inv.legal
    | returns a queue history =>
      rw [queue, history]
      exact inv.legal
    | acts e _ _ does _ history =>
      rw [history, List.map_append]
      exact inv.legal.snoc does
  asked u token mem := by
    rw [moves.stopRequested]
    cases effect with
    | begins _ _ history => exact inv.asked u token (history ▸ mem)
    | quiet _ history => exact inv.asked u token (history ▸ mem)
    | returns _ _ history => exact inv.asked u token (history ▸ mem)
    | acts e _ _ _ asked history =>
      rw [history] at mem
      rcases List.mem_append.mp mem with old | new
      · exact inv.asked u token old
      · have same := List.mem_singleton.mp new
        exact asked token (Prod.mk.inj same).2.symm
  own := inv.own_keep moves effect
  answered u := (inv.answered u).keep moves effect

@[simp]
theorem goto_thread_self (pc : Pc Token T) : (s.goto t pc).thread t = pc := update_self ..

theorem goto_event (pc : Pc Token T) : ((s.goto t pc).thread t).event = pc.event := congrArg Pc.event (goto_thread_self pc)

/-- The mutex stays as it is. -/
theorem Inv.stays (inv : Inv s) {pc : Pc Token T} (thread : s'.thread = update s.thread t pc) (lock : s'.lock = s.lock)
    (stops : s'.stopped = s.stopped) (holds : pc.holds = (s.thread t).holds) (knows : Knows s' pc) : Moves s s' t where
  others u ne := .inl (by rw [thread, update_of_ne ne])
  lock u _ := by rw [lock]
  own := by
    rw [thread, update_self, lock, holds]
    exact inv.exclusive t
  knows := by rwa [thread, update_self]
  stops := stops

/-- A thread takes the mutex. -/
theorem Inv.locks {pc : Pc Token T} (free : s.lock = none) (inside : pc.holds = true)
    (knows : Knows { s.goto t pc with lock := some t } pc) : Moves s { s.goto t pc with lock := some t } t where
  others u ne := .inl (update_of_ne ne ..)
  lock u ne := by
    rw [free]
    constructor
    · intro same
      exact absurd (Option.some.inj same).symm ne
    · intro same
      cases same
  own := by
    simp only [goto_thread_self, inside]
  knows := by
    simpa only [goto_thread_self] using knows
  stops := rfl

/-- Its owner gives the mutex back. -/
theorem Inv.unlocks (inv : Inv s) {pc : Pc Token T} (thread : s'.thread = update s.thread t pc)
    (owner : (s.thread t).holds = true) (lock : s'.lock = none) (stops : s'.stopped = s.stopped)
    (outside : pc.holds = false) : Moves s s' t where
  others u ne := .inl (by rw [thread, update_of_ne ne])
  lock u ne := by
    rw [lock, (inv.exclusive t).mp owner]
    constructor
    · intro same
      cases same
    · intro same
      exact absurd (Option.some.inj same).symm ne
  own := by
    rw [thread, update_self, lock, outside]
    simp
  knows := by
    rw [thread, update_self]
    exact .of_outside outside
  stops := stops

theorem goto_serves {p : Pc Token T} {current : Option (Call Token T)} (h : p.Serves current) :
    ((s.goto t p).thread t).Serves current := by
  rwa [goto_thread_self]

theorem acquire_moves {pc : Pc Token T} (h : acquire s t pc = some s') (inside : pc.holds = true)
    (knows : Knows { s.goto t pc with lock := some t } pc) (before : (s.thread t).event = none)
    (after : pc.event = none) (serves : ∀ current, (s.thread t).Serves current → pc.Serves current) :
    Moves s s' t ∧ Effect s s' t := by
  unfold acquire at h
  cases free : s.lock with
  | some u => simp [free] at h
  | none =>
    simp only [free, Option.some.injEq] at h
    subst h
    refine ⟨Inv.locks free inside knows, .quiet rfl rfl rfl rfl ?_ fun current here => goto_serves (serves current here)⟩
    rw [before, ← after]
    exact goto_event pc

/-- A critical section takes effect. -/
theorem Inv.acts (inv : Inv s) {pc : Pc Token T} {queue : List T} {e : Event Token T}
    (inside : (s.thread t).holds = true) (before : (s.thread t).event = none) (does : e.Does s.queue queue)
    (asked : ∀ token, e = .gaveUp token → s.stopRequested token = true) (stays : pc.holds = true)
    (after : pc.event = some e) (knows : ∀ s : State Tid Token T, Knows s pc)
    (serves : ∀ current, (s.thread t).Serves current → pc.Serves current) :
    Moves s (act s t queue e pc) t ∧ Effect s (act s t queue e pc) t := by
  refine ⟨inv.stays rfl rfl rfl (stays.trans inside.symm) (knows _), ?_⟩
  refine .acts e inside before does asked rfl rfl rfl ?_ fun current here => goto_serves (serves current here)
  exact (goto_event pc).trans after

/-- A call returns without having had the mutex. -/
theorem Inv.refused (inv : Inv s) {a : Answer T} (outside : (s.thread t).holds = false)
    (before : (s.thread t).event = none)
    (answers : ∀ current, (s.thread t).Serves current → ∃ c, current = some c ∧ c.Answers none a) :
    Moves s (s.answer t none a) t ∧ Effect s (s.answer t none a) t := by
  refine ⟨inv.stays rfl rfl rfl outside.symm trivial, ?_⟩
  refine .returns a rfl rfl rfl ?_ ?_ (goto_thread_self .idle)
  · rw [before]
    rfl
  · rw [before]
    exact answers

omit [DecidableEq Tid] in
theorem serves_at {pc : Pc Token T} (here : s.thread t = pc) {current : Option (Call Token T)}
    (h : (s.thread t).Serves current) : pc.Serves current := here ▸ h

theorem Inv.next (inv : Inv s) (h : next s t = some s') : Moves s s' t ∧ Effect s s' t := by
  have known := inv.knows t
  cases pc : s.thread t <;> simp only [Basic.next, pc, reduceCtorEq, Option.some.injEq] at h
  case pushLock data => exact acquire_moves h rfl trivial (pc ▸ rfl) rfl fun _ here => .inl (serves_at pc here)
  case tryPushLock data => exact acquire_moves h rfl trivial (pc ▸ rfl) rfl fun _ here => .inr (serves_at pc here)
  case popLock token => exact acquire_moves h rfl trivial (pc ▸ rfl) rfl fun _ => serves_at pc
  case popRelock token => exact acquire_moves h rfl trivial (pc ▸ rfl) rfl fun _ => serves_at pc
  case tryPopLock => exact acquire_moves h rfl trivial (pc ▸ rfl) rfl fun _ => serves_at pc
  case emptyLock => exact acquire_moves h rfl trivial (pc ▸ rfl) rfl fun _ => serves_at pc
  all_goals subst h
  case pushQueue data =>
    exact inv.acts (pc ▸ rfl) (pc ▸ rfl) rfl (fun _ same => by cases same) rfl rfl (fun _ => trivial)
      fun _ => serves_at pc
  case popCheck token =>
    refine ⟨?_, .quiet rfl rfl rfl rfl ?_ fun current here => goto_serves ?_⟩
    · refine inv.stays rfl rfl rfl ?_ ?_
      · rw [pc]
        split <;> rfl
      · split
        · intro empty
          rename_i go
          rw [show s.queue = [] from empty] at go
          exact (Bool.false_or _).symm.trans go
        · rename_i wait
          simp only [Bool.or_eq_true, Bool.not_eq_true', not_or, Bool.not_eq_false, List.isEmpty_iff] at wait
          exact wait.1
    · rw [pc]
      refine (goto_event _).trans ?_
      split <;> rfl
    · rw [pc] at here
      split <;> exact here
  case popSleep token =>
    refine ⟨inv.unlocks rfl (pc ▸ rfl) rfl rfl rfl, .quiet rfl rfl rfl rfl ?_ fun _ here => ?_⟩
    · rw [pc]
      exact goto_event (.sleeping token)
    · rw [pc] at here
      exact goto_serves (s := s) (p := .sleeping token) here
  case popTake token =>
    rw [pc] at known
    unfold popTake
    cases stored : s.queue with
    | nil =>
      refine inv.acts (pc ▸ rfl) (pc ▸ rfl) ⟨stored, rfl⟩ ?_ rfl rfl (fun _ => trivial) fun _ here => ⟨.pop token, serves_at pc here, rfl⟩
      intro k same
      cases same
      exact known stored
    | cons value rest =>
      exact inv.acts (pc ▸ rfl) (pc ▸ rfl) stored (fun _ same => by cases same) rfl rfl (fun _ => trivial)
        fun _ here => ⟨.pop token, serves_at pc here, trivial⟩
  case tryPopTake =>
    unfold tryPopTake
    cases stored : s.queue with
    | nil =>
      exact inv.acts (pc ▸ rfl) (pc ▸ rfl) ⟨stored, rfl⟩ (fun _ same => by cases same) rfl rfl (fun _ => trivial)
        fun _ here => ⟨.tryPop, serves_at pc here, trivial⟩
    | cons value rest =>
      exact inv.acts (pc ▸ rfl) (pc ▸ rfl) stored (fun _ same => by cases same) rfl rfl (fun _ => trivial)
        fun _ here => ⟨.tryPop, serves_at pc here, trivial⟩
  case emptyRead =>
    exact inv.acts (pc ▸ rfl) (pc ▸ rfl) ⟨rfl, rfl⟩ (fun _ same => by cases same) rfl rfl (fun _ => trivial)
      fun _ here => ⟨.isEmpty, serves_at pc here, trivial⟩
  case unlock e =>
    refine ⟨inv.unlocks rfl (pc ▸ rfl) rfl rfl rfl, ?_⟩
    refine .returns e.answer rfl rfl rfl ?_ ?_ (goto_thread_self .idle)
    · rw [pc]
      rfl
    · rw [pc]
      rintro current ⟨c, rfl, does⟩
      exact ⟨c, rfl, does, rfl⟩
  case notifyAll =>
    have outside := inv.exclusive t
    rw [pc] at outside
    refine ⟨⟨fun u ne => .inr (update_of_ne ne ..), fun _ _ => Iff.rfl, ?_, ?_, rfl⟩, ?_⟩
    · exact (iff_of_eq (congrArg (fun pc => Pc.holds pc = true) (goto_thread_self (.idle : Pc Token T)))).trans outside
    · exact .of_outside (congrArg Pc.holds (goto_thread_self .idle))
    · refine .returns .notified rfl rfl rfl ?_ ?_ (goto_thread_self .idle)
      · rw [pc]
        rfl
      · rw [pc]
        rintro current rfl
        exact ⟨_, rfl, trivial⟩

theorem Inv.refuse (inv : Inv s) (h : refuse s t = some s') : Moves s s' t ∧ Effect s s' t := by
  cases pc : s.thread t <;> simp only [Basic.refuse, pc, reduceCtorEq, Option.some.injEq] at h
  all_goals
    subst h
    refine inv.refused (pc ▸ rfl) (pc ▸ rfl) ?_
    rw [pc]
    rintro current rfl
    exact ⟨_, rfl, trivial⟩

theorem Inv.wakes (inv : Inv s) (asleep : (s.thread t).asleep = true) :
    Moves s (s.goto t (s.thread t).wake) t ∧ Effect s (s.goto t (s.thread t).wake) t := by
  refine ⟨inv.stays rfl rfl rfl (wake_holds _) ?_, .quiet rfl rfl rfl rfl ((goto_event _).trans (wake_event _))
    fun _ here => goto_serves (wake_serves here)⟩
  cases pc : s.thread t <;> simp only [pc, Pc.asleep, reduceCtorEq] at asleep
  trivial

theorem Inv.notify [Fintype Tid] (inv : Inv s) {data : T} {woken : Option Tid} (pc : s.thread t = .pushNotify data)
    (h : notify s t data woken = some s') : Moves s s' t ∧ Effect s s' t := by
  have event : ∀ s' : State Tid Token T, ((s'.goto t (.unlock (.put data))).thread t).event = (s.thread t).event := by
    intro s'
    rw [pc]
    exact goto_event _
  have serves : ∀ (s' : State Tid Token T) (current : Option (Call Token T)), (s.thread t).Serves current →
      ((s'.goto t (.unlock (.put data))).thread t).Serves current := by
    intro s' current here
    rw [pc] at here
    refine goto_serves (p := .unlock (.put data)) ?_
    rcases here with rfl | rfl <;> exact ⟨_, rfl, rfl⟩
  cases woken with
  | none =>
    simp only [Basic.notify, Option.ite_none_right_eq_some, Option.some.injEq] at h
    obtain ⟨-, rfl⟩ := h
    exact ⟨inv.stays rfl rfl rfl (pc ▸ rfl) trivial, .quiet rfl rfl rfl rfl (event _) (serves _)⟩
  | some u =>
    simp only [Basic.notify, Option.ite_none_right_eq_some, Option.some.injEq] at h
    obtain ⟨asleep, rfl⟩ := h
    have other : t ≠ u := by
      rintro rfl
      simp [pc, Pc.asleep] at asleep
    obtain ⟨woken, -⟩ := inv.wakes asleep
    refine ⟨⟨?_, fun _ _ => Iff.rfl, ?_, ?_, rfl⟩, .quiet rfl rfl rfl rfl (event _) (serves _)⟩
    · intro v ne
      by_cases same : v = u
      · subst same
        right
        exact (update_of_ne ne ..).trans (update_self ..)
      · left
        exact (update_of_ne ne ..).trans (update_of_ne same ..)
    · have inside := inv.exclusive t
      rw [pc] at inside
      exact (iff_of_eq (congrArg (fun pc => Pc.holds pc = true) (goto_thread_self _))).trans inside
    · simp only [goto_thread_self]
      trivial

variable [DecidableEq Token] [Fintype Tid]

/-- Every step of every thread is one of these; `request_stop` changes nothing else. -/
theorem Inv.effect (inv : Inv s) {a : Action Tid Token T} (h : exec s a = some s') :
    (∃ token, s' = { s with stopped := update s.stopped token true }) ∨ ∃ t, Moves s s' t ∧ Effect s s' t := by
  cases a with
  | call t c =>
    cases pc : s.thread t <;> simp only [exec, pc, reduceCtorEq, Option.some.injEq] at h
    subst h
    refine .inr ⟨t, inv.stays rfl rfl rfl ?_ (.of_outside (start_holds c)), .begins c rfl rfl rfl rfl ?_ pc ?_⟩
    · rw [pc, start_holds]
      rfl
    · rw [pc]
      exact (goto_event (s := s) _).trans (start_event c)
    · exact goto_serves (s := s) (start_serves c)
  | step t => exact .inr ⟨t, inv.next h⟩
  | notify t woken =>
    cases pc : s.thread t <;> simp only [exec, pc, reduceCtorEq] at h
    exact .inr ⟨t, inv.notify pc h⟩
  | refuse t => exact .inr ⟨t, inv.refuse h⟩
  | spurious t =>
    simp only [exec, Option.ite_none_right_eq_some, Option.some.injEq] at h
    obtain ⟨asleep, rfl⟩ := h
    exact .inr ⟨t, inv.wakes asleep⟩
  | stop token =>
    simp only [exec, Option.some.injEq] at h
    exact .inl ⟨token, h.symm⟩

omit [DecidableEq Tid] [Fintype Tid] in
/-- A stop is never taken back. -/
theorem stopRequested_mono (token : Token) {k : Option Token} (h : s.stopRequested k = true) :
    ({ s with stopped := update s.stopped token true } : State Tid Token T).stopRequested k = true := by
  cases k with
  | none => cases h
  | some k =>
    by_cases same : k = token
    · subst same
      exact update_self ..
    · exact (update_of_ne same ..).trans h

omit [Fintype Tid] in
theorem Inv.stop (inv : Inv s) (token : Token) : Inv { s with stopped := update s.stopped token true } where
  exclusive := inv.exclusive
  knows t := by
    have known := inv.knows t
    show Knows _ (s.thread t)
    cases pc : s.thread t <;> rw [pc] at known <;> try trivial
    intro empty
    exact stopRequested_mono token (known empty)
  legal := inv.legal
  asked t k mem := stopRequested_mono token (inv.asked t k mem)
  own := inv.own
  answered := inv.answered

theorem invariant : Invariant (system : System (State Tid Token T)) Inv :=
  invariant_of_actions inv_start fun _ _ _ inv h => by
    obtain ⟨token, rfl⟩ | ⟨t, moves, effect⟩ := inv.effect h
    · exact inv.stop token
    · exact inv.keep moves effect

/-- **`BasicQueue` is linearizable.** In every reachable state: at most one thread is
inside the mutex; the critical sections, in the order in which they took place, are the
operations of a FIFO queue that now holds `queue`; each thread's sections are the ones its
returned calls answer for, then the one it is in; each thread's calls are those that have
returned and the one it is in, and a returned call has done what its operation and argument
ask for and answers as its section found, or without one has failed; and `pop` gives up
only on an empty queue whose stop was asked for. -/
theorem linearizable (h : Reachable system s) :
    (∀ t u, (s.thread t).holds = true → (s.thread u).holds = true → t = u) ∧
    Replays (s.history.map (·.2)) s.queue ∧
    stored (s.history.map (·.2)) = taken (s.history.map (·.2)) ++ s.queue ∧
    (∀ t, eventsOf t s.history = answeredOf t s.returned ++ (s.thread t).event.toList) ∧
    (∀ t, Answered s t) ∧
    ∀ t token, (t, .gaveUp token) ∈ s.history → s.stopRequested token = true := by
  have inv := invariant.reachable h
  refine ⟨?_, inv.legal, inv.legal.first_in_first_out, inv.own, inv.answered, inv.asked⟩
  intro t u ht hu
  exact Option.some.inj (((inv.exclusive t).mp ht).symm.trans ((inv.exclusive u).mp hu))

end

/-- One push, and two pops that have waited for it: the first to wake takes the element,
the other returns `{}` after the stop. -/
theorem linearizable_stop : ∃ s : State (Fin 3) Unit Nat, Reachable system s ∧
    s.history = [(0, .put 7), (1, .took 7), (2, .gaveUp (some ()))] ∧
    stored (s.history.map (·.2)) = taken (s.history.map (·.2)) ++ s.queue := by
  have reached : Reachable (system : System (State (Fin 3) Unit Nat)) _ :=
    reachable_of_actions start exec
      [.call 1 (.pop none), .step 1, .step 1, .step 1, .call 2 (.pop (some ())), .step 2, .step 2, .step 2,
        .call 0 (.push 7), .step 0, .step 0, .notify 0 (some 1), .step 0, .spurious 2, .step 1, .step 1, .step 1,
        .step 1, .step 2, .stop (), .step 2, .step 2, .step 2] rfl
  exact ⟨_, reached, rfl, (linearizable reached).2.2.1⟩

end Erl.Queue.Basic
