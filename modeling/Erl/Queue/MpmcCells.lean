import Erl.Queue.MpmcSafety

/-!
# `BoundedMPMC`: what the cells hold

A cell holds an element from its construction to the move out of it. So nothing is ever
constructed over an element: the cell a push has won holds none.
-/

namespace Erl.Queue.Mpmc
open TransitionSystem Function

section
variable {Tid T : Type} {N : Ring.Size} {s s' : State Tid T} {t : Tid} {pos : Nat}

/-- A cell that waits for a push is empty unless the push has just constructed its element,
and so is one whose element was moved away. -/
structure Vacant (N : Ring.Size) (s : State Tid T) : Prop where
  free : ∀ c < N.size, (s.queue.cells c).sequence % N.size = c →
    (s.queue.cells c).data = none ∨ ∃ t data pos, s.thread t = .pushPublish data pos ∧ pos % N.size = c
  moved : ∀ t target pos, s.thread t = .popPublish target pos → (s.cell N pos).data = none

/-- The cell a push has won is empty. -/
theorem Vacant.won (vacant : Vacant N s) (inv : Inv N s) {data : T} (pc : s.thread t = .pushConstruct data pos) :
    (s.cell N pos).data = none := by
  have known := inv.thread t
  simp only [pc, PcInv] at known
  have waits : (s.queue.cells (pos % N.size)).sequence % N.size = pos % N.size := by
    rw [← cell_eq, known.2.1]
  rcases vacant.free _ (Nat.mod_lt _ N.pos) waits with empty | ⟨u, data', p, pc', slot⟩
  · rw [cell_eq, empty]
  · have same : u = t := inv.busy_unique ⟨p, slot, .inl (pc' ▸ rfl)⟩ ⟨pos, rfl, .inl (pc ▸ rfl)⟩
    rw [same, pc] at pc'
    cases pc'

/-- A step that leaves the cells alone. -/
theorem Vacant.frame (vacant : Vacant N s) (cells : s'.queue.cells = s.queue.cells)
    (other : ∀ u, u ≠ t → s'.thread u = s.thread u) (before : ∀ data p, s.thread t ≠ .pushPublish data p)
    (after : ∀ target p, s'.thread t ≠ .popPublish target p) : Vacant N s' := by
  constructor
  · rw [cells]
    intro c hc waits
    refine (vacant.free c hc waits).imp_right ?_
    rintro ⟨u, data, p, pc, slot⟩
    have ne : u ≠ t := by
      rintro rfl
      exact before data p pc
    exact ⟨u, data, p, (other u ne).trans pc, slot⟩
  · intro u target p pc
    have ne : u ≠ t := by
      rintro rfl
      exact after target p pc
    rw [State.cell, cells]
    exact vacant.moved u target p ((other u ne).symm.trans pc)

variable [DecidableEq Tid]

/-- A step on the cell of a ticket. -/
theorem Vacant.ownStep (vacant : Vacant N s) (inv : Inv N s) {c : Cell T} {pc : Pc T}
    (ticket : (s.thread t).pushing = some pos ∨ (s.thread t).popping = some pos) (step : OwnStep N s s' t pos c pc)
    (waits : c.sequence % N.size = pos % N.size → c.data = none ∨ ∃ data, pc = .pushPublish data pos)
    (emptied : ∀ target p, pc = .popPublish target p → p = pos ∧ c.data = none) : Vacant N s' := by
  have self : s'.thread t = pc := by rw [step.thread, update_self]
  have other {u : Tid} (ne : u ≠ t) : s'.thread u = s.thread u := by rw [step.thread, update_of_ne ne]
  have cells (q : Nat) : s'.cell N q = (s.setCell N pos c).cell N q := by simp only [State.cell, step.queue]
  have here : s'.cell N pos = c := (cells pos).trans (cell_setCell_self pos c)
  have away {q : Nat} (ne : q % N.size ≠ pos % N.size) : s'.cell N q = s.cell N q :=
    (cells q).trans (cell_setCell_of_ne ne c)
  constructor
  · intro b hb
    have slot : b % N.size = b := Nat.mod_eq_of_lt hb
    by_cases same : b = pos % N.size
    · rw [same, ← cell_eq, here]
      intro hwaits
      refine (waits hwaits).imp_right ?_
      rintro ⟨data, rfl⟩
      exact ⟨t, data, pos, self, rfl⟩
    · have kept := away (q := b) (by rwa [slot])
      rw [cell_eq, cell_eq, slot] at kept
      rw [kept]
      intro hwaits
      refine (vacant.free b hb hwaits).imp_right ?_
      rintro ⟨u, data, p, pc', hp⟩
      have ne : u ≠ t := by
        rintro rfl
        have tickets : p = pos := Pc.ticket_unique (.inl (pc' ▸ rfl)) ticket
        exact same (tickets ▸ hp.symm)
      exact ⟨u, data, p, (other ne).trans pc', hp⟩
  · intro u target p pc'
    by_cases same : u = t
    · rw [same, self] at pc'
      obtain ⟨rfl, empty⟩ := emptied target p pc'
      rw [here, empty]
    · rw [other same] at pc'
      rw [away (inv.slot_ne same ticket (.inr (pc' ▸ rfl)))]
      exact vacant.moved u target p pc'

/-- Every step of every thread keeps it. -/
theorem Vacant.step (vacant : Vacant N s) (inv : Inv N s) {a : Action Tid T} (h : exec N s a = some s') :
    Vacant N s' := by
  have elsewhere {q : State Tid T} {t : Tid} {pc : Pc T} : ∀ u, u ≠ t → (q.goto t pc).thread u = q.thread u :=
    fun u ne => goto_thread_of_ne ne pc
  cases a with
  | push t data =>
    cases pc : s.thread t <;> simp only [exec, pc] at h <;> cases h
    exact vacant.frame rfl elsewhere (by simp [pc]) (by simp [loadWrite])
  | pop t =>
    cases pc : s.thread t <;> simp only [exec, pc] at h <;> cases h
    exact vacant.frame rfl elsewhere (by simp [pc]) (by simp [loadRead])
  | spurious t =>
    cases pc : s.thread t <;> simp only [exec, pc] at h <;> cases h
    · exact vacant.frame rfl elsewhere (by simp [pc]) (by simp [loadWrite])
    · exact vacant.frame rfl elsewhere (by simp [pc]) (by simp [loadRead])
  | step t =>
    cases pc : s.thread t with
    | idle => simp [exec, pc] at h
    | pushLoad data pos =>
      simp only [exec, pc, Option.some.injEq] at h
      subst h
      refine vacant.frame rfl elsewhere (by simp [pc]) ?_
      intro target p
      simp only [pushDecide, goto_thread_self]
      split
      · simp
      · split <;> simp
    | pushExchange data pos =>
      simp only [exec, pc, Option.some.injEq, pushExchange] at h
      split at h
      · subst h
        exact vacant.frame rfl elsewhere (by simp [pc]) (fun target p => by simp [goto_thread_self])
      · subst h
        exact vacant.frame rfl elsewhere (by simp [pc]) (by simp [loadWrite])
    | pushReload data =>
      simp only [exec, pc, Option.some.injEq] at h
      subst h
      exact vacant.frame rfl elsewhere (by simp [pc]) (by simp [loadWrite])
    | pushConstruct data pos =>
      simp only [exec, pc, Option.some.injEq] at h
      subst h
      refine vacant.ownStep inv (.inl (pc ▸ rfl)) ⟨rfl, rfl, rfl, rfl, List.subset_append_left .., fun _ => id, fun _ => .inl⟩
        (fun _ => .inr ⟨data, rfl⟩) ?_
      intro target p same
      cases same
    | pushPublish data pos =>
      simp only [exec, pc, Option.some.injEq] at h
      subst h
      refine vacant.ownStep inv (.inl (pc ▸ rfl)) ⟨rfl, rfl, rfl, rfl, fun _ => id, fun _ => id, fun _ => .inl⟩
        (fun same => absurd same (Ring.slot_succ_ne N.two_le pos)) ?_
      intro target p same
      cases same
    | popLoad pos =>
      simp only [exec, pc, Option.some.injEq] at h
      subst h
      refine vacant.frame rfl elsewhere (by simp [pc]) ?_
      intro target p
      simp only [popDecide, goto_thread_self]
      split
      · simp
      · split <;> simp
    | popExchange pos =>
      simp only [exec, pc, Option.some.injEq, popExchange] at h
      split at h
      · subst h
        exact vacant.frame rfl elsewhere (by simp [pc]) (fun target p => by simp [goto_thread_self])
      · subst h
        exact vacant.frame rfl elsewhere (by simp [pc]) (by simp [loadRead])
    | popReload =>
      simp only [exec, pc, Option.some.injEq] at h
      subst h
      exact vacant.frame rfl elsewhere (by simp [pc]) (by simp [loadRead])
    | popMove pos =>
      simp only [exec, pc, Option.some.injEq] at h
      subst h
      refine vacant.ownStep inv (.inr (pc ▸ rfl)) ⟨rfl, rfl, rfl, rfl, fun _ => id, List.subset_append_left .., ?_⟩
        (fun _ => .inl rfl) ?_
      · intro d hd
        rcases List.mem_append.mp hd with old | new
        · exact .inl old
        · exact .inr (List.mem_singleton.mp new ▸ rfl)
      · intro target p same
        cases same
        exact ⟨rfl, rfl⟩
    | popPublish target pos =>
      simp only [exec, pc, Option.some.injEq] at h
      subst h
      refine vacant.ownStep inv (.inr (pc ▸ rfl)) ⟨rfl, rfl, rfl, rfl, fun _ => id, fun _ => id, fun _ => .inl⟩
        (fun _ => .inl (vacant.moved t target pos pc)) ?_
      intro target p same
      cases same

omit [DecidableEq Tid] in
theorem vacant_start : Vacant N (start : State Tid T) where
  free _ _ _ := .inl rfl
  moved _ _ _ pc := by cases pc

/-- In every reachable state an element is in its cell, or the cell is empty. -/
theorem vacant (h : Reachable (system N) s) : Vacant N s := by
  have both : Invariant (system N : System (State Tid T)) fun s => Inv N s ∧ Vacant N s :=
    invariant_of_actions ⟨inv_start, vacant_start⟩ fun _ _ _ ⟨inv, vacant⟩ h => ⟨inv.step h, vacant.step inv h⟩
  exact (both.reachable h).2

end

end Erl.Queue.Mpmc
