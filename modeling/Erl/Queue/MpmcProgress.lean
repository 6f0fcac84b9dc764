import Erl.Queue.MpmcSafety
import Mathlib.Data.List.Count

/-!
# `BoundedMPMC` makes progress

A position that a thread has loaded is one the counter has reached. So an attempt that
fails has seen the ring full or empty, or the one cell it needs in the hands of another
thread; and a thread starts over only when others have won tickets, or its weak exchange
has failed without a reason.
-/

namespace Erl.Queue.Mpmc
open TransitionSystem Function

section
variable {Tid T : Type}

/-- `try_push` or `try_pop`. -/
inductive Operation where
  | push
  | pop

/-- The counter an operation takes its ticket from. -/
def State.counter (s : State Tid T) : Operation → Nat
  | .push => s.queue.writePos
  | .pop => s.queue.readPos

/-- The thread is in the operation, or has returned from it. -/
def Pc.Within : Operation → Pc T → Prop
  | .push, .pushLoad .. | .push, .pushExchange .. | .push, .pushReload _ | .push, .pushConstruct ..
  | .push, .pushPublish .. => True
  | .pop, .popLoad _ | .pop, .popExchange _ | .pop, .popReload | .pop, .popMove _ | .pop, .popPublish .. => True
  | _, .idle => True
  | _, _ => False

/-- What the thread has loaded, the counter has reached. -/
def Behind (s : State Tid T) : Pc T → Prop
  | .pushLoad _ pos | .pushExchange _ pos => pos ≤ s.queue.writePos
  | .popLoad pos | .popExchange pos => pos ≤ s.queue.readPos
  | _ => True

/-- Steps left of the operation if nobody else wins a ticket and no exchange fails
spuriously; `n` is its counter. -/
def Pc.stepsLeft (n : Nat) : Pc T → Nat
  | .idle => 0
  | .pushLoad _ pos | .popLoad pos => if pos = n then 4 else 6
  | .pushExchange _ pos | .popExchange pos => if pos = n then 3 else 5
  | .pushReload _ | .popReload => 5
  | .pushConstruct .. | .popMove _ => 2
  | .pushPublish .. | .popPublish .. => 1

def Action.thread : Action Tid T → Tid
  | .push t _ | .pop t | .step t | .spurious t => t

variable {N : Ring.Size} {s s' : State Tid T}

theorem Behind.mono {pc : Pc T} (h : Behind s pc) (write : s.queue.writePos ≤ s'.queue.writePos)
    (read : s.queue.readPos ≤ s'.queue.readPos) : Behind s' pc := by
  cases pc <;> first | trivial | exact Nat.le_trans h write | exact Nat.le_trans h read

/-- A counter that moves on costs a thread at most two steps. -/
theorem stepsLeft_le (pc : Pc T) (m n : Nat) : pc.stepsLeft m ≤ pc.stepsLeft n + 2 := by
  cases pc <;> simp only [Pc.stepsLeft] <;> first | omega | (split <;> split <;> omega)

/-- Back from the exchange to the load of the current position. -/
theorem load_stepsLeft_le {pc pc' : Pc T} {n : Nat}
    (h : (∃ d d' pos, pc = .pushExchange d pos ∧ pc' = .pushLoad d' n) ∨ ∃ pos, pc = .popExchange pos ∧ pc' = .popLoad n) :
    pc'.stepsLeft n ≤ pc.stepsLeft n + 1 := by
  obtain ⟨d, d', pos, rfl, rfl⟩ | ⟨pos, rfl, rfl⟩ := h <;> simp only [Pc.stepsLeft, if_true] <;> split <;> omega

theorem stepsLeft_le_six (pc : Pc T) (n : Nat) : pc.stepsLeft n ≤ 6 := by
  cases pc <;> simp only [Pc.stepsLeft] <;> first | omega | (split <;> omega)

/-- `try_push` fails only on the current position, while the ring is full or the cell is
still with the pop of the lap before. -/
theorem Inv.push_refused (inv : Inv N s) {pos : Nat} (behind : pos ≤ s.queue.writePos)
    (less : (s.cell N pos).sequence < pos) :
    pos = s.queue.writePos ∧
      (s.queue.writePos = s.queue.readPos + N.size ∨ ∃ u p, p + N.size = pos ∧ (s.thread u).popping = some p) := by
  have lap := inv.write_le
  rw [cell_eq] at less
  cases inv.cell (pos % N.size) (Nat.mod_lt _ N.pos) with
  | free p slot seq lo hi claimed =>
    -- the cell waits for a ticket one lap below
    have below : p + N.size ≤ pos := by
      by_contra near
      have := Ring.eq_of_slot_eq p (Nat.le_refl p) (Nat.lt_add_of_pos_right N.pos) (by omega) (by omega) slot
      omega
    exact ⟨by omega, .inl (by omega)⟩
  | full p slot seq lo hi stored claimed =>
    have below : p + N.size ≤ pos := by
      by_contra near
      have := Ring.eq_of_slot_eq p (Nat.le_refl p) (Nat.lt_add_of_pos_right N.pos) (by omega) (by omega) slot
      omega
    refine ⟨by omega, ?_⟩
    by_cases read : p < s.queue.readPos
    · obtain ⟨u, hu⟩ := claimed read
      exact .inr ⟨u, p, by omega, hu⟩
    · exact .inl (by omega)

/-- `try_pop` fails only on the current position, while the ring is empty or the cell is
still with the push of this ticket. -/
theorem Inv.pop_refused (inv : Inv N s) {pos : Nat} (behind : pos ≤ s.queue.readPos)
    (less : (s.cell N pos).sequence < pos + 1) :
    pos = s.queue.readPos ∧
      (s.queue.writePos = s.queue.readPos ∨ ∃ u, (s.thread u).pushing = some pos) := by
  have order := inv.read_le
  rw [cell_eq] at less
  cases inv.cell (pos % N.size) (Nat.mod_lt _ N.pos) with
  | free p slot seq lo hi claimed =>
    have same : p = pos := by omega
    subst same
    refine ⟨by omega, ?_⟩
    by_cases written : p < s.queue.writePos
    · exact .inr (claimed written)
    · exact .inl (by omega)
  | full p slot seq lo hi stored claimed =>
    have below : p + N.size ≤ pos := by
      by_contra near
      have := Ring.eq_of_slot_eq p (Nat.le_refl p) (Nat.lt_add_of_pos_right N.pos) (by omega) (by omega) slot
      omega
    exact ⟨by omega, .inl (by omega)⟩

theorem Inv.refuses_push (inv : Inv N s) {pos : Nat} (current : pos = s.queue.writePos)
    (reason : s.queue.writePos = s.queue.readPos + N.size ∨ ∃ u p, p + N.size = pos ∧ (s.thread u).popping = some p) :
    (s.cell N pos).sequence < pos := by
  have two := N.two_le
  rcases reason with full | ⟨u, p, rfl, popping⟩
  · rw [cell_eq]
    cases inv.cell (pos % N.size) (Nat.mod_lt _ N.pos) with
    | free p slot seq lo hi claimed => omega
    | full p slot seq lo hi stored claimed =>
      -- the next position is a multiple of the lap away
      have same : p + 1 ≠ pos := by
        rintro rfl
        exact Ring.slot_succ_ne two p slot.symm
      omega
  · obtain ⟨-, seq, -⟩ := inv.popping popping
    rw [cell_eq, Nat.add_mod_right, ← cell_eq, seq]
    omega

theorem Inv.refuses_pop (inv : Inv N s) {pos : Nat} (current : pos = s.queue.readPos)
    (reason : s.queue.writePos = s.queue.readPos ∨ ∃ u, (s.thread u).pushing = some pos) :
    (s.cell N pos).sequence < pos + 1 := by
  rcases reason with empty | ⟨u, pushing⟩
  · rw [cell_eq]
    cases inv.cell (pos % N.size) (Nat.mod_lt _ N.pos) with
    | free p slot seq lo hi claimed =>
      have same : p = pos := Ring.eq_of_slot_eq pos (by omega) (by omega) (Nat.le_refl _) (Nat.lt_add_of_pos_right N.pos) slot
      omega
    | full p slot seq lo hi stored claimed => omega
  · rw [(inv.pushing pushing).2.1]
    exact Nat.lt_succ_self pos

/-- On the current position a push does not find its cell ahead of it. -/
theorem Inv.push_not_ahead (inv : Inv N s) : (s.cell N s.queue.writePos).sequence ≤ s.queue.writePos := by
  have order := inv.read_le
  rw [cell_eq]
  cases inv.cell (s.queue.writePos % N.size) (Nat.mod_lt _ N.pos) with
  | free p slot seq lo hi claimed =>
    by_contra ahead
    have := Ring.eq_of_slot_eq s.queue.writePos (by omega) (by omega) (Nat.le_refl _) (Nat.lt_add_of_pos_right N.pos) slot
    omega
  | full p slot seq lo hi stored claimed => omega

theorem Inv.pop_not_ahead (inv : Inv N s) : (s.cell N s.queue.readPos).sequence ≤ s.queue.readPos + 1 := by
  have lap := inv.write_le
  rw [cell_eq]
  cases inv.cell (s.queue.readPos % N.size) (Nat.mod_lt _ N.pos) with
  | free p slot seq lo hi claimed =>
    have := Ring.eq_of_slot_eq s.queue.readPos lo hi (Nat.le_refl _) (Nat.lt_add_of_pos_right N.pos) slot
    omega
  | full p slot seq lo hi stored claimed =>
    by_contra ahead
    have := Ring.eq_of_slot_eq s.queue.readPos (by omega) (by omega) (Nat.le_refl _) (Nat.lt_add_of_pos_right N.pos) slot
    omega

variable [DecidableEq Tid] {t : Tid} {a : Action Tid T}

/-! ## Steps -/

/-- A step moves one thread, and the counters only go up. -/
theorem exec_frame (h : exec N s a = some s') :
    (∀ u, u ≠ a.thread → s'.thread u = s.thread u) ∧ s.queue.writePos ≤ s'.queue.writePos ∧
      s.queue.readPos ≤ s'.queue.readPos := by
  have moved {q : State Tid T} {t : Tid} {pc : Pc T} : ∀ u, u ≠ t → (q.goto t pc).thread u = q.thread u :=
    fun u ne => goto_thread_of_ne ne pc
  have still : s.queue.writePos ≤ s.queue.writePos ∧ s.queue.readPos ≤ s.queue.readPos := ⟨Nat.le_refl _, Nat.le_refl _⟩
  cases a with
  | push t data =>
    cases pc : s.thread t <;> simp only [exec, pc] at h <;> cases h
    exact ⟨moved, still⟩
  | pop t =>
    cases pc : s.thread t <;> simp only [exec, pc] at h <;> cases h
    exact ⟨moved, still⟩
  | spurious t => cases pc : s.thread t <;> simp only [exec, pc] at h <;> cases h <;> exact ⟨moved, still⟩
  | step t =>
    cases pc : s.thread t <;> simp only [exec, pc] at h <;> cases h
    · exact ⟨moved, still⟩
    · unfold pushExchange
      split
      · rename_i won
        exact ⟨moved, Nat.le_of_lt (won ▸ Nat.lt_succ_self _), Nat.le_refl _⟩
      · exact ⟨moved, still⟩
    · exact ⟨moved, still⟩
    · exact ⟨moved, still⟩
    · exact ⟨moved, still⟩
    · exact ⟨moved, still⟩
    · unfold popExchange
      split
      · rename_i won
        exact ⟨moved, Nat.le_refl _, Nat.le_of_lt (won ▸ Nat.lt_succ_self _)⟩
      · exact ⟨moved, still⟩
    · exact ⟨moved, still⟩
    · exact ⟨moved, still⟩
    · exact ⟨moved, still⟩

theorem counter_le (h : exec N s a = some s') (o : Operation) : s.counter o ≤ s'.counter o := by
  cases o with
  | push => exact (exec_frame h).2.1
  | pop => exact (exec_frame h).2.2

/-- Where a step of `try_push` leads: the thread loads the position anew, or goes on. -/
theorem own_push (inv : Inv N s) (behind : Behind s (s.thread t)) (within : (s.thread t).Within .push)
    (h : exec N s (.step t) = some s') :
    (s'.thread t).Within .push ∧ Behind s' (s'.thread t) ∧
      (s'.thread t).stepsLeft s'.queue.writePos + 1 ≤ (s.thread t).stepsLeft s.queue.writePos := by
  cases pc : s.thread t <;> simp only [exec, pc] at h <;> simp only [pc, Pc.Within] at within <;> cases h
  · rename_i data pos
    rw [pc] at behind
    simp only [pushDecide, goto_thread_self]
    split
    · refine ⟨trivial, behind, ?_⟩
      show (Pc.pushExchange data pos).stepsLeft s.queue.writePos + 1 ≤ _
      simp only [Pc.stepsLeft]
      split <;> omega
    · split
      · refine ⟨trivial, trivial, ?_⟩
        simp only [Pc.stepsLeft]
        split <;> omega
      · refine ⟨trivial, trivial, ?_⟩
        have stale : pos ≠ s.queue.writePos := by
          rintro rfl
          have := inv.push_not_ahead
          omega
        simp [Pc.stepsLeft, stale]
  · rename_i data pos
    by_cases won : s.queue.writePos = pos
    · have after : (pushExchange s t data pos).thread t = .pushConstruct data pos := by
        simp only [pushExchange, if_pos won]
        exact goto_thread_self ..
      rw [after]
      exact ⟨trivial, trivial, by simp [Pc.stepsLeft, won]⟩
    · simp only [pushExchange, if_neg won, loadWrite, goto_thread_self]
      exact ⟨trivial, Nat.le_refl _, by simp [Pc.stepsLeft, Ne.symm won, State.goto]⟩
  · simp only [loadWrite, goto_thread_self]
    exact ⟨trivial, Nat.le_refl _, by simp [Pc.stepsLeft, State.goto]⟩
  · rename_i data pos
    have after : (pushConstruct N s t data pos).thread t = .pushPublish data pos := goto_thread_self ..
    rw [after]
    exact ⟨trivial, trivial, by simp [Pc.stepsLeft]⟩
  · rename_i data pos
    have after : (pushPublish N s t pos).thread t = .idle := goto_thread_self ..
    rw [after]
    exact ⟨trivial, trivial, by simp [Pc.stepsLeft]⟩

/-- Where a step of `try_pop` leads. -/
theorem own_pop (inv : Inv N s) (behind : Behind s (s.thread t)) (within : (s.thread t).Within .pop)
    (h : exec N s (.step t) = some s') :
    (s'.thread t).Within .pop ∧ Behind s' (s'.thread t) ∧
      (s'.thread t).stepsLeft s'.queue.readPos + 1 ≤ (s.thread t).stepsLeft s.queue.readPos := by
  cases pc : s.thread t <;> simp only [exec, pc] at h <;> simp only [pc, Pc.Within] at within <;> cases h
  · rename_i pos
    rw [pc] at behind
    simp only [popDecide, goto_thread_self]
    split
    · refine ⟨trivial, behind, ?_⟩
      show (Pc.popExchange pos : Pc T).stepsLeft s.queue.readPos + 1 ≤ _
      simp only [Pc.stepsLeft]
      split <;> omega
    · split
      · refine ⟨trivial, trivial, ?_⟩
        simp only [Pc.stepsLeft]
        split <;> omega
      · refine ⟨trivial, trivial, ?_⟩
        have stale : pos ≠ s.queue.readPos := by
          rintro rfl
          have := inv.pop_not_ahead
          omega
        simp [Pc.stepsLeft, stale]
  · rename_i pos
    by_cases won : s.queue.readPos = pos
    · have after : (popExchange s t pos).thread t = .popMove pos := by
        simp only [popExchange, if_pos won]
        exact goto_thread_self ..
      rw [after]
      exact ⟨trivial, trivial, by simp [Pc.stepsLeft, won]⟩
    · simp only [popExchange, if_neg won, loadRead, goto_thread_self]
      exact ⟨trivial, Nat.le_refl _, by simp [Pc.stepsLeft, Ne.symm won, State.goto]⟩
  · simp only [loadRead, goto_thread_self]
    exact ⟨trivial, Nat.le_refl _, by simp [Pc.stepsLeft, State.goto]⟩
  · rename_i pos
    have after : (popMove N s t pos).thread t = .popPublish (s.cell N pos).data pos := goto_thread_self ..
    rw [after]
    exact ⟨trivial, trivial, by simp [Pc.stepsLeft]⟩
  · rename_i target pos
    have after : (popPublish N s t pos).thread t = .idle := goto_thread_self ..
    rw [after]
    exact ⟨trivial, trivial, by simp [Pc.stepsLeft]⟩

/-- Where a weak exchange that fails without a reason leads. -/
theorem own_spurious (o : Operation) (within : (s.thread t).Within o) (h : exec N s (.spurious t) = some s') :
    (s'.thread t).Within o ∧ (s'.thread t).stepsLeft (s'.counter o) ≤ (s.thread t).stepsLeft (s.counter o) + 1 := by
  cases pc : s.thread t <;> simp only [exec, pc] at h <;> cases h
  · cases o with
    | pop => simp [pc, Pc.Within] at within
    | push =>
      simp only [loadWrite, goto_thread_self]
      exact ⟨trivial, load_stepsLeft_le (.inl ⟨_, _, _, rfl, rfl⟩)⟩
  · cases o with
    | push => simp [pc, Pc.Within] at within
    | pop =>
      simp only [loadRead, goto_thread_self]
      exact ⟨trivial, load_stepsLeft_le (.inr ⟨_, rfl, rfl⟩)⟩

/-- The ring is safe, and every thread has loaded what its counter has reached. -/
structure Loaded (N : Ring.Size) (s : State Tid T) : Prop where
  inv : Inv N s
  behind : ∀ t, Behind s (s.thread t)

theorem Pc.within (pc : Pc T) : ∃ o, pc.Within o := by
  cases pc <;> first | exact ⟨.push, trivial⟩ | exact ⟨.pop, trivial⟩

theorem own_step (loaded : Loaded N s) {o : Operation} (within : (s.thread t).Within o)
    (h : exec N s (.step t) = some s') :
    (s'.thread t).Within o ∧ Behind s' (s'.thread t) ∧
      (s'.thread t).stepsLeft (s'.counter o) + 1 ≤ (s.thread t).stepsLeft (s.counter o) := by
  cases o with
  | push => exact own_push loaded.inv (loaded.behind t) within h
  | pop => exact own_pop loaded.inv (loaded.behind t) within h

theorem Loaded.step (loaded : Loaded N s) (h : exec N s a = some s') : Loaded N s' := by
  obtain ⟨others, write, read⟩ := exec_frame h
  refine ⟨loaded.inv.step h, fun u => ?_⟩
  by_cases own : u = a.thread
  · subst own
    cases a with
    | push t data =>
      cases pc : s.thread t <;> simp only [exec, pc] at h <;> cases h
      simp only [loadWrite, Action.thread, goto_thread_self]
      exact Nat.le_refl _
    | pop t =>
      cases pc : s.thread t <;> simp only [exec, pc] at h <;> cases h
      simp only [loadRead, Action.thread, goto_thread_self]
      exact Nat.le_refl _
    | spurious t =>
      cases pc : s.thread t <;> simp only [exec, pc] at h <;> cases h <;>
        simp only [loadWrite, loadRead, Action.thread, goto_thread_self] <;> exact Nat.le_refl _
    | step t =>
      obtain ⟨o, within⟩ := Pc.within (s.thread t)
      exact (own_step loaded within h).2.1
  · rw [others u own]
    exact (loaded.behind u).mono write read

omit [DecidableEq Tid] in
theorem loaded_start : Loaded N (start : State Tid T) := ⟨inv_start, fun _ => trivial⟩

theorem loaded (h : Reachable (system N) s) : Loaded N s :=
  (invariant_of_actions loaded_start fun _ _ _ loaded h => loaded.step h : Invariant (system N) (Loaded N)).reachable h

/-- **Attempts fail for a reason.** A thread that compares a sequence number gives up
exactly if it has loaded the current position and either the ring is full (empty for a
pop), or another thread still holds the cell: the pop of the lap before (the push of this
ticket). -/
theorem gives_up_iff (h : Reachable (system N) s) (t : Tid) :
    (∀ data pos, s.thread t = .pushLoad data pos →
      ((pushDecide N s t data pos).thread t = .idle ↔ pos = s.queue.writePos ∧
        (s.queue.writePos = s.queue.readPos + N.size ∨ ∃ u p, p + N.size = pos ∧ (s.thread u).popping = some p))) ∧
    ∀ pos, s.thread t = .popLoad pos →
      ((popDecide N s t pos).thread t = .idle ↔ pos = s.queue.readPos ∧
        (s.queue.writePos = s.queue.readPos ∨ ∃ u, (s.thread u).pushing = some pos)) := by
  obtain ⟨inv, behind⟩ := loaded h
  constructor
  · intro data pos pc
    have reached : Behind s (.pushLoad data pos) := pc ▸ behind t
    simp only [pushDecide, goto_thread_self]
    constructor
    · intro failed
      apply inv.push_refused reached
      split at failed
      · cases failed
      · split at failed
        · assumption
        · cases failed
    · rintro ⟨current, reason⟩
      have less := inv.refuses_push current reason
      rw [if_neg (Nat.ne_of_lt less), if_pos less]
  · intro pos pc
    have reached : Behind s (.popLoad pos) := pc ▸ behind t
    simp only [popDecide, goto_thread_self]
    constructor
    · intro failed
      apply inv.pop_refused reached
      split at failed
      · cases failed
      · split at failed
        · assumption
        · cases failed
    · rintro ⟨current, reason⟩
      have less := inv.refuses_pop current reason
      rw [if_neg (Nat.ne_of_lt less), if_pos less]

/-! ## Runs -/

def Action.steps (t : Tid) : Action Tid T → Bool
  | .step u => u = t
  | _ => false

def Action.misses (t : Tid) : Action Tid T → Bool
  | .spurious u => u = t
  | _ => false

/-- What an action costs the call of thread `t`, in terms of the tickets taken. -/
theorem stepsLeft_exec (loaded : Loaded N s) {o : Operation} (within : (s.thread t).Within o)
    (noPush : ∀ data, a ≠ .push t data) (noPop : a ≠ .pop t) (h : exec N s a = some s') :
    (s'.thread t).Within o ∧
      (a.steps t).toNat + (s'.thread t).stepsLeft (s'.counter o) + 2 * s.counter o ≤
        (s.thread t).stepsLeft (s.counter o) + 2 * s'.counter o + (a.misses t).toNat := by
  have grows := counter_le h o
  by_cases own : t = a.thread
  · cases a with
    | push u data => exact absurd (own ▸ rfl) (noPush data)
    | pop u => exact absurd (own ▸ rfl) noPop
    | step u =>
      replace own : t = u := own
      subst own
      obtain ⟨stays, -, less⟩ := own_step loaded within h
      refine ⟨stays, ?_⟩
      simp only [Action.steps, Action.misses, decide_true, Bool.toNat_true, Bool.toNat_false]
      omega
    | spurious u =>
      replace own : t = u := own
      subst own
      obtain ⟨stays, most⟩ := own_spurious o within h
      refine ⟨stays, ?_⟩
      simp only [Action.steps, Action.misses, decide_true, Bool.toNat_true, Bool.toNat_false]
      omega
  · have quiet : a.steps t = false ∧ a.misses t = false := by
      cases a <;> simp [Action.steps, Action.misses, Action.thread] at own ⊢ <;> exact Ne.symm own
    have same := (exec_frame h).1 t own
    rw [same, quiet.1, quiet.2]
    refine ⟨within, ?_⟩
    by_cases still : s'.counter o = s.counter o
    · rw [still]
      simp
    · have more := stepsLeft_le (s.thread t) (s'.counter o) (s.counter o)
      simp only [Bool.toNat_false]
      omega

theorem run_potential (loaded : Loaded N s) {o : Operation} (within : (s.thread t).Within o)
    (as : List (Action Tid T)) (noPush : ∀ data, .push t data ∉ as) (noPop : .pop t ∉ as)
    (run : as.foldlM (exec N) s = some s') :
    as.countP (·.steps t) + (s'.thread t).stepsLeft (s'.counter o) + 2 * s.counter o ≤
      (s.thread t).stepsLeft (s.counter o) + 2 * s'.counter o + as.countP (·.misses t) := by
  induction as generalizing s with
  | nil =>
    cases run
    simp
  | cons a as ih =>
    rw [List.foldlM_cons, Option.bind_eq_bind, Option.bind_eq_some_iff] at run
    obtain ⟨u, first, rest⟩ := run
    obtain ⟨stays, paid⟩ := stepsLeft_exec loaded within (fun data same => noPush data (same ▸ List.mem_cons_self))
      (fun same => noPop (same ▸ List.mem_cons_self)) first
    have later := ih (loaded.step first) stays (fun data mem => noPush data (List.mem_cons_of_mem _ mem))
      (fun mem => noPop (List.mem_cons_of_mem _ mem)) rest
    have steps : (a :: as).countP (·.steps t) = as.countP (·.steps t) + (a.steps t).toNat := by
      rw [List.countP_cons]
      cases a.steps t <;> rfl
    have misses : (a :: as).countP (·.misses t) = as.countP (·.misses t) + (a.misses t).toNat := by
      rw [List.countP_cons]
      cases a.misses t <;> rfl
    omega

/-- **A call starts over only for others.** From any reachable state, the thread of a call
in progress takes at most six steps, two for each ticket taken meanwhile from the counter it
competes for, and one for each spurious failure of its own exchange. -/
theorem retries_bounded (h : Reachable (system N) s) {o : Operation} (within : (s.thread t).Within o)
    (as : List (Action Tid T)) (noPush : ∀ data, .push t data ∉ as) (noPop : .pop t ∉ as)
    (run : as.foldlM (exec N) s = some s') :
    as.countP (·.steps t) ≤ 6 + 2 * (s'.counter o - s.counter o) + as.countP (·.misses t) := by
  have paid := run_potential (loaded h) within as noPush noPop run
  have six := stepsLeft_le_six (s.thread t) (s.counter o)
  omega

end

/-- A third push into a ring of two while the first pop still holds its cell. -/
theorem gives_up_held : ∃ s : State Nat Nat, Reachable (system Ring.Size.two) s ∧
    s.thread 2 = .pushLoad 9 2 ∧ (s.thread 3).popping = some 0 ∧
    (pushDecide Ring.Size.two s 2 9 2).thread 2 = .idle := by
  have reached : Reachable (system Ring.Size.two) _ :=
    reachable_of_actions (start : State Nat Nat) (exec Ring.Size.two)
      [.push 0 7, .step 0, .step 0, .step 0, .step 0, .push 1 8, .step 1, .step 1, .step 1, .step 1,
        .pop 3, .step 3, .step 3, .push 2 9] rfl
  exact ⟨_, reached, rfl, rfl, ((gives_up_iff reached 2).1 9 2 rfl).mpr ⟨rfl, .inr ⟨3, 0, rfl, rfl⟩⟩⟩

/-- Thread 0 loses its first exchange to thread 1 and its second to chance. -/
def unlucky : List (Action Nat Nat) :=
  [.step 0, .step 1, .step 1, .step 0, .step 0, .spurious 0, .step 0, .step 0, .step 0, .step 0]

theorem retries_bounded_two : ∃ s s' : State Nat Nat, Reachable (system Ring.Size.two) s ∧
    unlucky.foldlM (exec Ring.Size.two) s = some s' ∧ s'.thread 0 = .idle ∧ s'.queue.writePos = s.queue.writePos + 2 ∧
    unlucky.countP (·.steps 0) = 7 ∧
    unlucky.countP (·.steps 0) ≤ 6 + 2 * (s'.queue.writePos - s.queue.writePos) + unlucky.countP (·.misses 0) := by
  have reached : Reachable (system Ring.Size.two) _ :=
    reachable_of_actions (start : State Nat Nat) (exec Ring.Size.two) [.push 0 7, .push 1 8] rfl
  refine ⟨_, _, reached, rfl, rfl, rfl, rfl, ?_⟩
  exact retries_bounded (o := .push) (t := 0) reached trivial unlucky (by simp [unlucky]) (by simp [unlucky]) rfl

end Erl.Queue.Mpmc
