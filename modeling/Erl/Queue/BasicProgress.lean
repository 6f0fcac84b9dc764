import Erl.Lib.Threads
import Erl.Queue.BasicSafety
import Mathlib.Tactic.FinCases

/-!
# `BasicQueue` loses no wakeup, but may lose a stop

While a thread sleeps, the queue holds at most as many elements as there are poppers
awake, so the threads come to rest only with the queue empty or nobody asleep. The stop is
different: `notify_all` does not take the mutex, so it misses a thread between the
predicate of its wait and the wait itself.
-/

namespace Erl.Queue.Basic
open TransitionSystem Function

section
variable {Tid Token T : Type}

/-- A popper on its way to the queue, or a pusher about to wake one: weight 1. -/
def Pc.serves : Pc Token T → Nat
  | .popLock _ | .popCheck _ | .popRelock _ | .popTake _ | .pushNotify _ => 1
  | _ => 0

/-- Steps a thread can still take in its call, those of the threads it wakes included;
`n` is the number of threads. -/
def Pc.rank (n : Nat) : Pc Token T → Nat
  | .idle | .sleeping _ => 0
  | .unlock _ | .popSleep _ => 1
  | .popTake _ | .tryPopTake | .emptyRead => 2
  | .popCheck _ | .tryPopLock | .emptyLock => 3
  | .popLock _ | .popRelock _ => 4
  | .pushNotify _ => 6
  | .pushQueue _ => 7
  | .pushLock _ | .tryPushLock _ => 8
  | .notifyAll => 4 * n + 1

theorem wake_rank_le (n : Nat) (pc : Pc Token T) : pc.wake.rank n ≤ pc.rank n + 4 := by
  cases pc <;> simp [Pc.wake, Pc.rank]

theorem rank_le (n : Nat) (pc : Pc Token T) : pc.rank n ≤ 4 * n + 8 := by
  cases pc <;> simp only [Pc.rank] <;> omega

/-- The threads go on with the calls they are in. -/
def Action.Quiet : Action Tid Token T → Prop
  | .step _ | .notify .. | .refuse _ => True
  | _ => False

variable [DecidableEq Tid] [Fintype Tid] {s s' : State Tid Token T} {t : Tid}

/-- Whoever sleeps, the elements in the queue have poppers that are awake. -/
def Served (s : State Tid Token T) : Prop :=
  ∀ t, (s.thread t).asleep = true → s.queue.length ≤ Threads.total Pc.serves s.thread

/-- It makes no demand it does not serve, unless it leaves the queue empty. -/
theorem Served.update (served : Served s) {pc : Pc Token T} (thread : s'.thread = update s.thread t pc)
    (demand : s'.queue = [] ∨
      (pc.asleep = false ∨ (s.thread t).asleep = true) ∧ s'.queue.length + (s.thread t).serves ≤ s.queue.length + pc.serves) :
    Served s' := by
  intro u asleep
  rcases demand with empty | ⟨awake, balance⟩
  · rw [empty]
    exact Nat.zero_le _
  · have before : ∃ v, (s.thread v).asleep = true := by
      by_cases same : u = t
      · rcases awake with awake | asleep'
        · rw [thread, same, update_self, awake] at asleep
          cases asleep
        · exact ⟨t, asleep'⟩
      · rw [thread, update_of_ne same] at asleep
        exact ⟨u, asleep⟩
    obtain ⟨v, hv⟩ := before
    have least := served v hv
    have exchanged := Threads.total_update Pc.serves s.thread t pc
    rw [thread]
    omega

/-- The rank of all threads together. -/
def State.rank (s : State Tid Token T) : Nat := Threads.total (Pc.rank (Fintype.card Tid)) s.thread

theorem rank_update {pc : Pc Token T} (thread : s'.thread = Function.update s.thread t pc)
    (less : pc.rank (Fintype.card Tid) < (s.thread t).rank (Fintype.card Tid)) : s'.rank < s.rank := by
  have exchanged := Threads.total_update (Pc.rank (Fintype.card Tid)) s.thread t pc
  unfold State.rank
  rw [thread]
  omega

/-- What `next` does to the thread and the queue. -/
theorem next_moves (inv : Inv s) (h : next s t = some s') (other : s.thread t ≠ .notifyAll) :
    ∃ pc, s'.thread = Function.update s.thread t pc ∧ pc.rank (Fintype.card Tid) < (s.thread t).rank (Fintype.card Tid) ∧
      (s'.queue = [] ∨ (pc.asleep = false ∨ (s.thread t).asleep = true) ∧
        s'.queue.length + (s.thread t).serves ≤ s.queue.length + pc.serves) := by
  have known := inv.knows t
  have acquires : ∀ pc, acquire s t pc = some s' → s'.thread = Function.update s.thread t pc ∧ s'.queue = s.queue := by
    intro pc h
    cases free : s.lock <;> simp only [acquire, free, reduceCtorEq, Option.some.injEq] at h
    subst h
    exact ⟨rfl, rfl⟩
  cases pc : s.thread t <;> simp only [next, pc, reduceCtorEq, Option.some.injEq] at h <;> rw [pc] at known
  case notifyAll => exact absurd pc other
  case pushLock data | tryPushLock data | popLock token | popRelock token | tryPopLock | emptyLock =>
    obtain ⟨thread, queue⟩ := acquires _ h
    refine ⟨_, thread, by simp [Pc.rank], .inr ⟨.inl rfl, ?_⟩⟩
    rw [queue]
    exact Nat.le_refl _
  case popCheck token =>
    subst h
    refine ⟨_, rfl, ?_, ?_⟩
    · split <;> simp [Pc.rank]
    · split
      · exact .inr ⟨.inl rfl, Nat.le_refl _⟩
      · rename_i wait
        simp only [Bool.or_eq_true, Bool.not_eq_true', not_or, Bool.not_eq_false, List.isEmpty_iff] at wait
        exact .inl wait.1
  all_goals subst h
  case pushQueue data =>
    refine ⟨_, rfl, by simp [Pc.rank], .inr ⟨.inl rfl, ?_⟩⟩
    simp [act, Pc.serves]
  case popSleep token => exact ⟨_, rfl, by simp [Pc.rank], .inl known⟩
  case popTake token =>
    unfold popTake
    cases stored : s.queue with
    | nil => exact ⟨_, rfl, by simp [Pc.rank], .inl rfl⟩
    | cons value rest => exact ⟨_, rfl, by simp [Pc.rank], .inr ⟨.inl rfl, by simp [act, Pc.serves]⟩⟩
  case tryPopTake =>
    unfold tryPopTake
    cases stored : s.queue with
    | nil => exact ⟨_, rfl, by simp [Pc.rank], .inl rfl⟩
    | cons value rest => exact ⟨_, rfl, by simp [Pc.rank], .inr ⟨.inl rfl, by simp [act, Pc.serves]⟩⟩
  case emptyRead => exact ⟨_, rfl, by simp [Pc.rank], .inr ⟨.inl rfl, Nat.le_refl _⟩⟩
  case unlock e => exact ⟨_, rfl, by simp [Pc.rank], .inr ⟨.inl rfl, Nat.le_refl _⟩⟩

theorem refuse_moves (h : refuse s t = some s') :
    s'.thread = Function.update s.thread t .idle ∧ s'.queue = s.queue ∧ (s.thread t).serves = 0 ∧
      0 < (s.thread t).rank (Fintype.card Tid) := by
  cases pc : s.thread t <;> simp only [refuse, pc, reduceCtorEq, Option.some.injEq] at h
  all_goals
    subst h
    exact ⟨rfl, rfl, rfl, by simp [Pc.rank]⟩

omit [Fintype Tid] in
theorem notifyAll_next (pc : s.thread t = .notifyAll) :
    next s t = some ({ s with thread := fun u => (s.thread u).wake }.answer t none .notified) := by
  simp only [next, pc]

omit [Fintype Tid] in
/-- `notify_all` leaves nobody asleep. -/
theorem notifyAll_awake (pc : s.thread t = .notifyAll) (h : next s t = some s') (u : Tid) :
    (s'.thread u).asleep = false := by
  rw [notifyAll_next pc] at h
  cases h
  by_cases same : u = t
  · subst same
    have self : (State.answer { s with thread := fun u => (s.thread u).wake } u none .notified).thread u = .idle :=
      goto_thread_self _
    rw [self]
    rfl
  · have woken : (State.answer { s with thread := fun u => (s.thread u).wake } t none .notified).thread u =
        (s.thread u).wake := update_of_ne same ..
    rw [woken]
    cases s.thread u <;> rfl

theorem notifyAll_rank (pc : s.thread t = .notifyAll) (h : next s t = some s') : s'.rank < s.rank := by
  rw [notifyAll_next pc] at h
  cases h
  have woken := Threads.total_le_add fun u => wake_rank_le (Fintype.card Tid) (s.thread u)
  have exchanged := Threads.total_update (Pc.rank (Fintype.card Tid)) (fun u => (s.thread u).wake) t .idle
  have own : (s.thread t).wake.rank (Fintype.card Tid) = 4 * Fintype.card Tid + 1 := by
    rw [pc]
    rfl
  have last : (Pc.idle : Pc Token T).rank (Fintype.card Tid) = 0 := rfl
  show Threads.total _ (Function.update (fun u => (s.thread u).wake) t .idle) < Threads.total _ s.thread
  omega

/-- `notify_one` passes its own place on to the thread it wakes. -/
theorem notify_moves {data : T} {woken : Option Tid} (pc : s.thread t = .pushNotify data)
    (h : notify s t data woken = some s') :
    s'.queue = s.queue ∧ s'.rank < s.rank ∧
      ((∀ u, (s'.thread u).asleep = false) ∨ (∃ u, (s.thread u).asleep = true) ∧
        Threads.total Pc.serves s'.thread = Threads.total Pc.serves s.thread) := by
  cases woken with
  | none =>
    simp only [notify, Option.ite_none_right_eq_some, Option.some.injEq] at h
    obtain ⟨awake, rfl⟩ := h
    refine ⟨rfl, rank_update rfl (by simp [pc, Pc.rank]), .inl fun u => ?_⟩
    by_cases same : u = t
    · subst same
      exact congrArg Pc.asleep (goto_thread_self _)
    · exact (congrArg Pc.asleep (update_of_ne same ..)).trans (awake u)
  | some u =>
    simp only [notify, Option.ite_none_right_eq_some, Option.some.injEq] at h
    obtain ⟨asleep, rfl⟩ := h
    have other : t ≠ u := by
      rintro rfl
      simp [pc, Pc.asleep] at asleep
    have still : (s.goto u (s.thread u).wake).thread t = .pushNotify data := (update_of_ne other ..).trans pc
    have weight (w : Pc Token T → Nat) :
        Threads.total w ((s.goto u (s.thread u).wake).goto t (.unlock (.put data))).thread + w (.pushNotify data) +
          w (s.thread u) = Threads.total w s.thread + w (s.thread u).wake + w (.unlock (.put data)) := by
      have first := Threads.total_update w s.thread u (s.thread u).wake
      have second := Threads.total_update w (s.goto u (s.thread u).wake).thread t (.unlock (.put data))
      rw [still] at second
      exact (congrArg (· + _) second).trans ((Nat.add_right_comm ..).trans (congrArg (· + _) first))
    refine ⟨rfl, ?_, .inr ⟨⟨u, asleep⟩, ?_⟩⟩
    · have ranks := weight (Pc.rank (Fintype.card Tid))
      have woken := wake_rank_le (Fintype.card Tid) (s.thread u)
      have before : (Pc.pushNotify data : Pc Token T).rank (Fintype.card Tid) = 6 := rfl
      have after : (Pc.unlock (.put data) : Pc Token T).rank (Fintype.card Tid) = 1 := rfl
      unfold State.rank
      omega
    · have serves := weight Pc.serves
      cases place : s.thread u <;> simp only [place, Pc.asleep, reduceCtorEq] at asleep
      simp only [place, Pc.serves, Pc.wake] at serves ⊢
      omega

/-! ## Every reachable state -/

variable [DecidableEq Token] {a : Action Tid Token T}

theorem Served.step (inv : Inv s) (served : Served s) (h : exec s a = some s') : Served s' := by
  cases a with
  | call t c =>
    cases pc : s.thread t <;> simp only [exec, pc, reduceCtorEq, Option.some.injEq] at h
    subst h
    refine served.update rfl (.inr ⟨.inl ?_, ?_⟩)
    · cases c <;> rfl
    · rw [pc]
      exact Nat.add_le_add_left (Nat.zero_le _) _
  | step t =>
    by_cases all : s.thread t = .notifyAll
    · intro u asleep
      rw [notifyAll_awake all h] at asleep
      cases asleep
    · obtain ⟨pc, thread, -, demand⟩ := next_moves inv h all
      exact served.update thread demand
  | notify t woken =>
    cases pc : s.thread t <;> simp only [exec, pc, reduceCtorEq] at h
    obtain ⟨queue, -, awake | ⟨⟨u, asleep⟩, same⟩⟩ := notify_moves pc h
    · intro u asleep
      rw [awake u] at asleep
      cases asleep
    · intro _ _
      rw [queue, same]
      exact served u asleep
  | refuse t =>
    obtain ⟨thread, queue, none, -⟩ := refuse_moves h
    refine served.update thread (.inr ⟨.inl rfl, ?_⟩)
    rw [queue, none]
    exact Nat.le_refl _
  | spurious t =>
    simp only [exec, Option.ite_none_right_eq_some, Option.some.injEq] at h
    obtain ⟨asleep, rfl⟩ := h
    refine served.update rfl (.inr ⟨.inr asleep, ?_⟩)
    cases pc : s.thread t <;> simp only [pc, Pc.asleep, reduceCtorEq] at asleep
    exact Nat.le_succ _
  | stop token =>
    simp only [exec, Option.some.injEq] at h
    subst h
    exact served

theorem rank_step (inv : Inv s) (quiet : a.Quiet) (h : exec s a = some s') : s'.rank < s.rank := by
  cases a with
  | call | spurious | stop => cases quiet
  | step t =>
    by_cases all : s.thread t = .notifyAll
    · exact notifyAll_rank all h
    · obtain ⟨pc, thread, less, -⟩ := next_moves inv h all
      exact rank_update thread less
  | notify t woken =>
    cases pc : s.thread t <;> simp only [exec, pc, reduceCtorEq] at h
    exact (notify_moves pc h).2.1
  | refuse t =>
    obtain ⟨thread, -, -, more⟩ := refuse_moves h
    exact rank_update thread more

/-- Where no thread can go on, each is outside a call or asleep. -/
theorem Inv.at_rest (inv : Inv s) (rest : ∀ a : Action Tid Token T, a.Quiet → exec s a = none) (t : Tid) :
    s.thread t = .idle ∨ ∃ token, s.thread t = .sleeping token := by
  have inside : ∀ u, (s.thread u).holds = false := by
    intro u
    have stuck : Basic.next s u = none := rest (.step u) trivial
    cases pc : s.thread u <;> first | rfl | simp [Basic.next, pc] at stuck
    rename_i data
    -- a pusher can always end its `notify_one`
    by_cases awake : ∀ v, (s.thread v).asleep = false
    · have last := rest (.notify u none) trivial
      simp [exec, pc, Basic.notify, awake] at last
    · obtain ⟨v, asleep⟩ := not_forall.mp awake
      have last := rest (.notify u (some v)) trivial
      simp [exec, pc, Basic.notify, Bool.eq_true_of_not_eq_false asleep] at last
  have free : s.lock = none := by
    cases owner : s.lock with
    | none => rfl
    | some u =>
      have holds := (inv.exclusive u).mpr owner
      rw [inside u] at holds
      cases holds
  have stuck : Basic.next s t = none := rest (.step t) trivial
  cases pc : s.thread t
  case idle => exact .inl rfl
  case sleeping token => exact .inr ⟨token, rfl⟩
  all_goals
    exfalso
    have here := inside t
    simp [Basic.next, pc, acquire, free, Pc.holds] at stuck here

omit [DecidableEq Tid] [DecidableEq Token] in
theorem served_start : Served (start : State Tid Token T) := by
  intro t asleep
  cases asleep

theorem served_invariant : Invariant (system : System (State Tid Token T)) fun s => Inv s ∧ Served s :=
  invariant_of_actions ⟨inv_start, served_start⟩ fun s s' a hs h =>
    ⟨invariant.step s s' hs.1 ⟨a, h⟩, hs.2.step hs.1 h⟩

/-- A run of calls in progress is paid for by the ranks. -/
theorem quiet_run (inv : Inv s) (as : List (Action Tid Token T)) (quiet : ∀ a ∈ as, a.Quiet)
    (run : as.foldlM exec s = some s') : as.length + s'.rank ≤ s.rank := by
  induction as generalizing s with
  | nil =>
    cases run
    simp
  | cons a as ih =>
    rw [List.foldlM_cons, Option.bind_eq_bind, Option.bind_eq_some_iff] at run
    obtain ⟨u, first, rest⟩ := run
    have less := rank_step inv (quiet a List.mem_cons_self) first
    have later := ih (invariant.step s u inv ⟨a, first⟩) (fun b mem => quiet b (List.mem_cons_of_mem _ mem)) rest
    rw [List.length_cons]
    omega

/-- **No wakeup is lost.** From every reachable state, if no further calls are made, all
runs without spurious wakeups end within `(4 n + 8) n` steps of the `n` threads; and where
no thread can go on, each has returned from its call or sleeps in `pop`, and if one
sleeps the queue is empty. -/
theorem comes_to_rest (h : Reachable system s) :
    (∀ (as : List (Action Tid Token T)) (s' : State Tid Token T), (∀ a ∈ as, a.Quiet) → as.foldlM exec s = some s' →
      as.length ≤ Fintype.card Tid * (4 * Fintype.card Tid + 8)) ∧
    ((∀ a : Action Tid Token T, a.Quiet → exec s a = none) →
      ∀ t, s.thread t = .idle ∨ (∃ token, s.thread t = .sleeping token) ∧ s.queue = []) := by
  obtain ⟨inv, served⟩ := served_invariant.reachable h
  constructor
  · intro as s' quiet run
    have paid := quiet_run inv as quiet run
    have most : s.rank ≤ _ := Threads.total_le fun t => rank_le (Fintype.card Tid) (s.thread t)
    omega
  · intro rest t
    rcases inv.at_rest rest t with idle | ⟨token, asleep⟩
    · exact .inl idle
    · have nobody : Threads.total Pc.serves s.thread = 0 := by
        apply Threads.total_eq_zero
        intro u
        rcases inv.at_rest rest u with idle | ⟨token, asleep⟩
        · rw [idle]
          rfl
        · rw [asleep]
          rfl
      have few := served t (asleep ▸ rfl)
      rw [nobody] at few
      exact .inr ⟨⟨token, asleep⟩, List.length_eq_zero_iff.mp (Nat.le_zero.mp few)⟩

/-! ## Stopping -/

/-- About to sleep on the token, or asleep. -/
def Pc.Waits (token : Token) (pc : Pc Token T) : Prop := pc = .popSleep (some token) ∨ pc = .sleeping (some token)

omit [DecidableEq Tid] [Fintype Tid] [DecidableEq Token] in
theorem Pc.Waits.of_wake {token : Token} {pc : Pc Token T} (h : pc.wake.Waits token) : pc.Waits token := by
  cases pc <;> first | exact h | simp [Pc.wake, Pc.Waits] at h

omit [Fintype Tid] [DecidableEq Token] in
/-- Only a predicate that has found no stop sends a thread to sleep. -/
theorem next_waits {token : Token} (h : next s t = some s') (stopped : s.stopped token = true)
    (waits : (s'.thread t).Waits token) : (s.thread t).Waits token := by
  have acquired : ∀ pc : Pc Token T, acquire s t pc = some s' → s'.thread t = pc := by
    intro pc h
    cases free : s.lock <;> simp only [acquire, free, reduceCtorEq, Option.some.injEq] at h
    subst h
    exact goto_thread_self pc
  cases pc : s.thread t <;> simp only [next, pc, reduceCtorEq, Option.some.injEq] at h
  case popSleep k =>
    subst h
    rcases waits with sleeps | sleeps <;> rw [show _ = _ from goto_thread_self _] at sleeps <;> cases sleeps
    exact .inl rfl
  case popCheck k =>
    subst h
    simp only [popCheck, goto_thread_self] at waits
    split at waits
    · rcases waits with sleeps | sleeps <;> cases sleeps
    · rename_i unheard
      rcases waits with sleeps | sleeps <;> cases sleeps
      simp [State.stopRequested, stopped] at unheard
  case pushLock | tryPushLock | popLock | popRelock | tryPopLock | emptyLock =>
    rw [acquired _ h] at waits
    rcases waits with sleeps | sleeps <;> cases sleeps
  case popTake k =>
    subst h
    unfold popTake at waits
    split at waits <;> rcases waits with sleeps | sleeps <;>
      cases (show _ = _ from goto_thread_self _).symm.trans sleeps
  case tryPopTake =>
    subst h
    unfold tryPopTake at waits
    split at waits <;> rcases waits with sleeps | sleeps <;>
      cases (show _ = _ from goto_thread_self _).symm.trans sleeps
  all_goals
    subst h
    rcases waits with sleeps | sleeps <;> cases (show _ = _ from goto_thread_self _).symm.trans sleeps

/-- The stop has been asked for, and nobody waits for the token. -/
structure Heard (token : Token) (s : State Tid Token T) : Prop where
  stopped : s.stopped token = true
  nobody : ∀ t, ¬ (s.thread t).Waits token

omit [DecidableEq Tid] [Fintype Tid] [DecidableEq Token] in
/-- The thread that moves does not start to wait, and the others do not move. -/
theorem Heard.moves {token : Token} (heard : Heard token s) (moves : Moves s s' t)
    (own : ¬ (s'.thread t).Waits token) : Heard token s' := by
  refine ⟨moves.stops ▸ heard.stopped, fun u waits => ?_⟩
  by_cases same : u = t
  · exact own (same ▸ waits)
  · rcases moves.others u same with still | woken
    · exact heard.nobody u (still ▸ waits)
    · exact heard.nobody u (.of_wake (woken ▸ waits))

theorem Heard.step {token : Token} (inv : Inv s) (heard : Heard token s) (h : exec s a = some s') : Heard token s' := by
  obtain ⟨k, rfl⟩ | ⟨t, moves, -⟩ := inv.effect h
  · exact ⟨stopRequested_mono k (show s.stopRequested (some token) = true from heard.stopped), heard.nobody⟩
  cases a with
  | call t c =>
    cases pc : s.thread t <;> simp only [exec, pc, reduceCtorEq, Option.some.injEq] at h
    subst h
    refine ⟨heard.stopped, fun u waits => ?_⟩
    by_cases same : u = t
    · subst same
      rw [goto_thread_self] at waits
      cases c <;> rcases waits with sleeps | sleeps <;> cases sleeps
    · have still : (s.goto t (.start c)).thread u = s.thread u := update_of_ne same ..
      exact heard.nobody u (still ▸ waits)
  | step t => exact heard.moves (inv.next h).1 fun waits => heard.nobody t (next_waits h heard.stopped waits)
  | notify t woken =>
    cases pc : s.thread t <;> simp only [exec, pc, reduceCtorEq] at h
    refine heard.moves (inv.notify pc h).1 fun waits => ?_
    cases woken <;> simp only [notify, Option.ite_none_right_eq_some, Option.some.injEq] at h
    all_goals
      obtain ⟨-, rfl⟩ := h
      rw [goto_thread_self] at waits
      rcases waits with sleeps | sleeps <;> cases sleeps
  | refuse t =>
    refine heard.moves (inv.refuse h).1 fun waits => ?_
    rw [(refuse_moves h).1, update_self] at waits
    rcases waits with sleeps | sleeps <;> cases sleeps
  | spurious t =>
    simp only [exec, Option.ite_none_right_eq_some, Option.some.injEq] at h
    obtain ⟨asleep, rfl⟩ := h
    refine heard.moves (inv.wakes asleep).1 fun waits => heard.nobody t (.of_wake ?_)
    rwa [goto_thread_self] at waits
  | stop k =>
    simp only [exec, Option.some.injEq] at h
    subst h
    exact ⟨stopRequested_mono k (show s.stopRequested (some token) = true from heard.stopped), heard.nobody⟩

/-- **When a stop is missed.** After `request_stop`, a `notify_all` is enough to keep all
threads from ever sleeping on that token again, exactly if no thread stands between the
predicate of its wait and the wait when `notify_all` is called. -/
theorem stop_missed_iff (h : Reachable system s) {token : Token} (stopped : s.stopped token = true)
    (pc : s.thread t = .notifyAll) (step : exec s (.step t) = some s') :
    (∃ (as : List (Action Tid Token T)) (last : State Tid Token T) (u : Tid),
      as.foldlM exec s' = some last ∧ last.thread u = .sleeping (some token)) ↔
    ∃ u, s.thread u = .popSleep (some token) := by
  have inv := invariant.reachable h
  have keeps : s'.stopped = s.stopped := (inv.next step).1.stops
  constructor
  · rintro ⟨as, last, u, run, sleeps⟩
    by_contra missed
    have heard : Heard token s' := by
      refine ⟨keeps ▸ stopped, fun v waits => ?_⟩
      rcases waits with about | asleep
      · have before : (s.thread v).Waits token := by
          by_cases same : v = t
          · exact same ▸ next_waits step stopped (.inl (same ▸ about))
          · rcases (inv.next step).1.others v same with still | woken
            · exact .inl (still ▸ about)
            · exact .of_wake (woken ▸ .inl about)
        rcases before with about' | asleep
        · exact missed ⟨v, about'⟩
        · have other : v ≠ t := by
            rintro rfl
            cases pc.symm.trans asleep
          rcases (inv.next step).1.others v other with still | woken
          · cases asleep.symm.trans (still.symm.trans about)
          · rw [asleep, about] at woken
            cases woken
      · have awake := notifyAll_awake pc step v
        rw [asleep] at awake
        cases awake
    have along : Inv last ∧ Heard token last := by
      have start : Inv s' ∧ Heard token s' := ⟨invariant.step s s' inv ⟨_, step⟩, heard⟩
      exact holds_along (I := fun s => Inv s ∧ Heard token s) start (fun u a v taken hu =>
        ⟨invariant.step u v hu.1 ⟨a, taken.enabled⟩, hu.2.step hu.1 taken.enabled⟩) as [] (List.append_nil as).symm run
    exact along.2.nobody u (.inr sleeps)
  · rintro ⟨u, about⟩
    have other : u ≠ t := by
      rintro rfl
      cases pc.symm.trans about
    have still : s'.thread u = .popSleep (some token) := by
      rcases (inv.next step).1.others u other with still | woken
      · exact still.trans about
      · rw [woken, about]
        rfl
    refine ⟨[.step u], { s'.goto u (.sleeping (some token)) with lock := none }, u, ?_, goto_thread_self _⟩
    simp [exec, next, still]

end

/-- Two pushes, of which only the first finds a sleeper: the second element waits for the
popper the first has woken, and is left when all are at rest. -/
theorem comes_to_rest_two : ∃ s : State (Fin 3) Unit Nat, Reachable system s ∧ s.queue = [8] ∧
    (∀ t, s.thread t = .idle ∨ (∃ token, s.thread t = .sleeping token) ∧ s.queue = []) := by
  have reached : Reachable (system : System (State (Fin 3) Unit Nat)) _ :=
    reachable_of_actions start exec
      [.call 1 (.pop none), .step 1, .step 1, .step 1, .call 0 (.push 7), .step 0, .step 0, .notify 0 (some 1), .step 0,
        .call 0 (.push 8), .step 0, .step 0, .notify 0 none, .step 0, .step 1, .step 1, .step 1, .step 1] rfl
  refine ⟨_, reached, rfl, (comes_to_rest reached).2 ?_⟩
  intro a quiet
  cases a with
  | call | spurious | stop => cases quiet
  | step t => fin_cases t <;> rfl
  | notify t woken => fin_cases t <;> rfl
  | refuse t => fin_cases t <;> rfl

/-- A stop between the predicate and the wait: `notify_all` finds nobody asleep. -/
theorem stop_missed_one : ∃ s s' : State (Fin 2) Unit Nat, Reachable system s ∧ s.stopped () = true ∧
    exec s (.step 0) = some s' ∧ ∃ (as : List (Action (Fin 2) Unit Nat)) (last : State (Fin 2) Unit Nat) (u : Fin 2),
      as.foldlM exec s' = some last ∧ last.thread u = .sleeping (some ()) := by
  have reached : Reachable (system : System (State (Fin 2) Unit Nat)) _ :=
    reachable_of_actions start exec
      [.call 1 (.pop (some ())), .step 1, .step 1, .stop (), .call 0 .notifyAll] rfl
  exact ⟨_, _, reached, rfl, rfl, (stop_missed_iff (t := 0) reached rfl rfl rfl).mpr ⟨1, rfl⟩⟩

end Erl.Queue.Basic
