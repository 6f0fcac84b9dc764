import Erl.Queue.MpmcDelivery

/-!
# `push` and `pop` of `QueueBase` on a `BoundedMPMC`

As in `Erl.Queue.Blocking`, one step of a call is one step of the attempt under way. A
push enters the queue when it wins its ticket; the elements leave in the order of the
tickets.
-/

namespace Erl.Queue.Mpmc
open TransitionSystem Function

section
variable {Tid T : Type} [DecidableEq Tid] (N : Ring.Size)

/-- One step of `push(obj)`, and whether it is the last one; a thread inside `try_pop`
takes none. -/
def pushStep (q : State Tid T) (t : Tid) (obj : T) : State Tid T × Bool :=
  match q.thread t with
  | .idle => (loadWrite q t obj, false)
  | .pushLoad data pos => (pushDecide N q t data pos, false)
  | .pushExchange data pos => (pushExchange q t data pos, false)
  | .pushReload data => (loadWrite q t data, false)
  | .pushConstruct data pos => (pushConstruct N q t data pos, false)
  | .pushPublish _ pos => (pushPublish N q t pos, true)
  | .popLoad _ | .popExchange _ | .popReload | .popMove _ | .popPublish .. => (q, false)

/-- One step of `pop()`, and what is in the returned object if it is the last one; a thread
inside `try_push` takes none. -/
def popStep (q : State Tid T) (t : Tid) : State Tid T × Option (Option T) :=
  match q.thread t with
  | .idle => (loadRead q t, none)
  | .popLoad pos => (popDecide N q t pos, none)
  | .popExchange pos => (popExchange q t pos, none)
  | .popReload => (loadRead q t, none)
  | .popMove pos => (popMove N q t pos, none)
  | .popPublish target pos => (popPublish N q t pos, some target)
  | .pushLoad .. | .pushExchange .. | .pushReload _ | .pushConstruct .. | .pushPublish .. => (q, none)

/-- Who pushed what, in the order of the tickets. -/
def State.entries (q : State Tid T) : List (Tid × T) := q.pushClaims.map fun c => (c.1, c.2.2)

/-- The thread is outside any call or pushes `obj`. -/
def Pc.Offers (obj : T) : Pc T → Prop
  | .idle => True
  | .pushLoad data _ | .pushExchange data _ | .pushReload data | .pushConstruct data _ | .pushPublish data _ => data = obj
  | .popLoad _ | .popExchange _ | .popReload | .popMove _ | .popPublish .. => False

/-- What a step of a push does to its thread's part in the queue: the element enters with
its ticket, and the call returns after that. -/
inductive Pushed (q q' : State Tid T) (t : Tid) (obj : T) (done : Bool) : Prop where
  | goes (entries : q'.entries = q.entries) (ticket : (q'.thread t).pushing.isSome = (q.thread t).pushing.isSome)
      (more : done = false)
  | enters (entries : q'.entries = q.entries ++ [(t, obj)]) (before : (q.thread t).pushing = none)
      (after : (q'.thread t).pushing.isSome = true) (more : done = false)
  | returns (entries : q'.entries = q.entries) (before : (q.thread t).pushing.isSome = true)
      (after : q'.thread t = .idle) (last : done = true)

variable {N} {q : State Tid T} {t : Tid} {obj : T}

theorem Inv.pushStep (inv : Inv N q) (t : Tid) (obj : T) : Inv N (pushStep N q t obj).1 := by
  have outside (h : q.thread t = .idle) : (q.thread t).pushing = none ∧ (q.thread t).popping = none :=
    h ▸ ⟨rfl, rfl⟩
  cases pc : q.thread t <;> simp only [Mpmc.pushStep, pc]
  · exact inv.loadWrite obj (outside pc)
  · exact inv.pushDecide pc
  · exact inv.pushExchange pc
  · exact inv.loadWrite _ (pc ▸ ⟨rfl, rfl⟩)
  · exact inv.pushConstruct pc
  · exact inv.pushPublish pc
  all_goals exact inv

theorem Inv.popStep (inv : Inv N q) (t : Tid) : Inv N (popStep N q t).1 := by
  cases pc : q.thread t <;> simp only [Mpmc.popStep, pc]
  · exact inv.loadRead (pc ▸ ⟨rfl, rfl⟩)
  all_goals first | exact inv | skip
  · exact inv.popDecide pc
  · exact inv.popExchange pc
  · exact inv.loadRead (pc ▸ ⟨rfl, rfl⟩)
  · exact inv.popMove pc
  · exact inv.popPublish pc

theorem pushStep_thread {u : Tid} (ne : u ≠ t) : (pushStep N q t obj).1.thread u = q.thread u := by
  unfold Mpmc.pushStep
  split <;> simp only [loadWrite, pushDecide, pushExchange, pushConstruct, pushPublish, goto_thread_of_ne ne]
  all_goals first | rfl | skip
  split <;> exact goto_thread_of_ne ne _

theorem popStep_thread {u : Tid} (ne : u ≠ t) : (popStep N q t).1.thread u = q.thread u := by
  unfold Mpmc.popStep
  split <;> simp only [loadRead, popDecide, popExchange, popMove, popPublish, goto_thread_of_ne ne]
  all_goals first | rfl | skip
  split <;> exact goto_thread_of_ne ne _

theorem pushStep_readPos : (pushStep N q t obj).1.queue.readPos = q.queue.readPos := by
  unfold Mpmc.pushStep
  split
  all_goals first | rfl | skip
  unfold pushExchange
  split <;> rfl

theorem popStep_entries : (popStep N q t).1.entries = q.entries := by
  unfold Mpmc.popStep
  split
  all_goals first | rfl | skip
  unfold popExchange
  split <;> rfl

theorem pushStep_offers (offers : (q.thread t).Offers obj) : ((pushStep N q t obj).1.thread t).Offers obj := by
  unfold Mpmc.pushStep
  split <;> rename_i pc <;> rw [pc] at offers
  all_goals cases offers
  · simp [loadWrite, Pc.Offers]
  · simp only [pushDecide, goto_thread_self]
    split
    · rfl
    · split <;> trivial
  · unfold pushExchange
    split
    · exact (congrArg (Pc.Offers obj) (goto_thread_self ..)).mpr rfl
    · simp [loadWrite, Pc.Offers]
  · simp [loadWrite, Pc.Offers]
  · exact (congrArg (Pc.Offers obj) (goto_thread_self ..)).mpr rfl
  · exact (congrArg (Pc.Offers obj) (goto_thread_self ..)).mpr trivial

theorem pushed_pushStep (offers : (q.thread t).Offers obj) :
    Pushed q (pushStep N q t obj).1 t obj (pushStep N q t obj).2 := by
  unfold Mpmc.pushStep
  split <;> rename_i pc <;> rw [pc] at offers
  all_goals cases offers
  · exact .goes rfl (by simp [loadWrite, pc, Pc.pushing]) rfl
  · refine .goes rfl ?_ rfl
    simp only [pushDecide, goto_thread_self, pc]
    split
    · rfl
    · split <;> rfl
  · rename_i pos
    by_cases won : q.queue.writePos = pos
    · simp only [pushExchange, if_pos won]
      refine .enters ?_ (pc ▸ rfl) (congrArg Option.isSome (congrArg Pc.pushing (goto_thread_self ..))) rfl
      simp only [State.entries, List.map_append, List.map_cons, List.map_nil]
    · simp only [pushExchange, if_neg won]
      exact .goes rfl (by simp [loadWrite, pc, Pc.pushing]) rfl
  · exact .goes rfl (by simp [loadWrite, pc, Pc.pushing]) rfl
  · rename_i pos
    have after : (pushConstruct N q t obj pos).thread t = .pushPublish obj pos := goto_thread_self ..
    refine .goes rfl ?_ rfl
    rw [after, pc]
    rfl
  · exact .returns rfl (pc ▸ rfl) (goto_thread_self ..) rfl

/-! ## Popping -/

omit [DecidableEq Tid] in
/-- A ticket is its entry's place in the queue. -/
theorem Inv.entry (inv : Inv N q) {u : Tid} {p : Nat} {v : T} (claim : (u, p, v) ∈ q.pushClaims) :
    q.entries[p]? = some (u, v) := by
  obtain ⟨i, bound, here⟩ := List.getElem_of_mem claim
  have ticket : (q.pushClaims.map (·.2.1))[i]? = some p := by
    rw [List.getElem?_map, List.getElem?_eq_getElem bound, here]
    rfl
  rw [inv.pushTickets] at ticket
  obtain ⟨lt, same⟩ := List.getElem?_eq_some_iff.mp ticket
  rw [List.getElem_range] at same
  subst same
  rw [State.entries, List.getElem?_map, List.getElem?_eq_getElem bound, here]
  rfl

omit [DecidableEq Tid] in
theorem Inv.length_entries (inv : Inv N q) : q.entries.length = q.queue.writePos := by
  have tickets := congrArg List.length inv.pushTickets
  rw [List.length_map, List.length_range] at tickets
  rw [State.entries, List.length_map, tickets]

/-- The place of a thread in `pop`, for the only thread that pops, when `n` elements have
been returned: the ticket `n` is claimed, then its element is read. -/
inductive Popping (q : State Tid T) (t : Tid) (n : Nat) : Prop where
  | searching (pc : q.thread t = .idle ∨ q.thread t = .popLoad n ∨ q.thread t = .popExchange n ∨ q.thread t = .popReload)
      (read : q.queue.readPos = n)
  | moving (pc : q.thread t = .popMove n) (read : q.queue.readPos = n + 1)
  | publishing (u : Tid) (v : T) (pc : q.thread t = .popPublish (some v) n) (read : q.queue.readPos = n + 1)
      (entry : q.entries[n]? = some (u, v))

/-- A step of `pop` goes on with the same ticket, or returns the element of that ticket. -/
theorem Inv.popping_popStep (inv : Inv N q) {n : Nat} (popping : Popping q t n) :
    ((Mpmc.popStep N q t).2 = none ∧ Popping (Mpmc.popStep N q t).1 t n) ∨
      ∃ u v, (Mpmc.popStep N q t).2 = some (some v) ∧ q.entries[n]? = some (u, v) ∧
        (Mpmc.popStep N q t).1.thread t = .idle ∧ (Mpmc.popStep N q t).1.queue.readPos = n + 1 := by
  cases popping with
  | searching pc read =>
    left
    have loads : Popping (Mpmc.loadRead q t) t n := .searching (.inr (.inl (read ▸ goto_thread_self ..))) read
    rcases pc with pc | pc | pc | pc <;> simp only [Mpmc.popStep, pc]
    · exact ⟨trivial, loads⟩
    · refine ⟨trivial, .searching ?_ read⟩
      simp only [Mpmc.popDecide, goto_thread_self]
      split
      · exact .inr (.inr (.inl rfl))
      · split
        · exact .inl rfl
        · exact .inr (.inr (.inr rfl))
    · simp only [Mpmc.popExchange, if_pos read]
      exact ⟨trivial, .moving (goto_thread_self ..) rfl⟩
    · exact ⟨trivial, loads⟩
  | moving pc read =>
    left
    have known := inv.thread t
    simp only [pc, PcInv] at known
    obtain ⟨-, -, -, ⟨u, v, held, pushed, -⟩, -⟩ := known
    simp only [Mpmc.popStep, pc]
    refine ⟨trivial, .publishing u v ?_ read (inv.entry pushed)⟩
    rw [← held]
    exact goto_thread_self ..
  | publishing u v pc read entry =>
    right
    simp only [Mpmc.popStep, pc]
    exact ⟨u, v, rfl, entry, goto_thread_self .., read⟩

theorem entry_kept {α : Type*} {l l' : List α} (le : l <+: l') {i : Nat} {x : α} (h : l[i]? = some x) :
    l'[i]? = some x := by
  obtain ⟨rest, rfl⟩ := le
  rw [List.getElem?_append_left (List.getElem?_eq_some_iff.mp h).1]
  exact h

omit [DecidableEq Tid] in
/-- Steps of the other threads do not disturb a pop. -/
theorem Popping.frame {q' : State Tid T} {n : Nat} (popping : Popping q t n) (pc : q'.thread t = q.thread t)
    (read : q'.queue.readPos = q.queue.readPos) (entries : q.entries <+: q'.entries) : Popping q' t n := by
  cases popping with
  | searching place at_n => exact .searching (pc ▸ place) (read.trans at_n)
  | moving place at_n => exact .moving (pc.trans place) (read.trans at_n)
  | publishing u v place at_n entry =>
    exact .publishing u v (pc.trans place) (read.trans at_n) (entry_kept entries entry)

/-- Steps left of `pop`, if the attempt under way succeeds. -/
def Pc.popRank : Pc T → Nat
  | .popLoad _ => 4
  | .popExchange _ => 3
  | .popMove _ => 2
  | .popPublish .. => 1
  | _ => 5

omit [DecidableEq Tid] in
/-- With no push in progress, and one thread that pops, the cell of the next ticket holds
its element. -/
theorem Inv.next_full (inv : Inv N q) (pushing : ∀ u, (q.thread u).pushing = none)
    (popping : ∀ u, (q.thread u).popping = none) (more : q.queue.readPos < q.queue.writePos) :
    (q.cell N q.queue.readPos).sequence = q.queue.readPos + 1 := by
  have lap := inv.write_le
  rw [cell_eq]
  cases inv.cell (q.queue.readPos % N.size) (Nat.mod_lt _ N.pos) with
  | free p slot seq lo hi claimed =>
    have same : p = q.queue.readPos := Ring.eq_of_slot_eq q.queue.readPos lo hi (Nat.le_refl _) (by omega) slot
    obtain ⟨u, hu⟩ := claimed (same ▸ more)
    cases (pushing u).symm.trans hu
  | full p slot seq lo hi stored claimed =>
    by_cases read : p < q.queue.readPos
    · obtain ⟨u, hu⟩ := claimed read
      cases (popping u).symm.trans hu
    · have same : p = q.queue.readPos :=
        Ring.eq_of_slot_eq q.queue.readPos (by omega) (by omega) (Nat.le_refl _) (by omega) slot
      rw [seq, same]

/-- A step of `pop` that finds its cell full brings the call closer to its end. -/
theorem popRank_popStep {n : Nat} (popping : Popping q t n) (more : (popStep N q t).2 = none)
    (full : q.queue.readPos = n → (q.cell N n).sequence = n + 1) :
    ((popStep N q t).1.thread t).popRank < (q.thread t).popRank := by
  cases popping with
  | searching pc read =>
    rcases pc with pc | pc | pc | pc <;> simp only [Mpmc.popStep, pc]
    · simp [loadRead, Pc.popRank]
    · simp [popDecide, full read, Pc.popRank]
    · have after : (popExchange q t n).thread t = .popMove n := by
        simp only [popExchange, if_pos read]
        exact goto_thread_self ..
      rw [after]
      exact Nat.lt_succ_self 2
    · simp [loadRead, Pc.popRank]
  | moving pc read =>
    have after : (popMove N q t n).thread t = .popPublish (q.cell N n).data n := goto_thread_self ..
    simp only [Mpmc.popStep, pc, after]
    exact Nat.lt_succ_self 1
  | publishing u v pc read entry =>
    simp only [Mpmc.popStep, pc] at more
    cases more

theorem popRank_le (pc : Pc T) : pc.popRank ≤ 5 := by
  cases pc <;> simp [Pc.popRank]

theorem popRank_pos (pc : Pc T) : 1 ≤ pc.popRank := by
  cases pc <;> simp [Pc.popRank]

/-- A spurious failure sends its thread back to the load of the same call. -/
structure Retries (q q' : State Tid T) (t : Tid) (pc : Pc T) : Prop where
  goto : q' = q.goto t pc
  busy : q.thread t ≠ .idle
  ticket : (q.thread t).pushing = none ∧ pc.pushing = none
  offers : ∀ obj, (q.thread t).Offers obj → pc.Offers obj
  popping : ∀ n, Popping q t n → Popping q' t n

theorem spurious_retries {q' : State Tid T} (h : exec N q (.spurious t) = some q') : ∃ pc, Retries q q' t pc := by
  cases pc : q.thread t <;> simp only [exec, pc] at h <;> cases h
  · rename_i data pos
    refine ⟨.pushLoad data q.queue.writePos, rfl, by simp [pc], pc ▸ ⟨rfl, rfl⟩, fun obj offers => ?_, fun n popping => ?_⟩
    · rw [pc] at offers
      exact offers
    · cases popping with
      | searching place _ => simp [pc] at place
      | moving place _ => cases pc.symm.trans place
      | publishing u v place _ _ => cases pc.symm.trans place
  · refine ⟨.popLoad q.queue.readPos, rfl, by simp [pc], pc ▸ ⟨rfl, rfl⟩, fun obj offers => ?_, fun n popping => ?_⟩
    · rw [pc] at offers
      exact offers
    · cases popping with
      | searching _ read => exact .searching (.inr (.inl (read ▸ goto_thread_self ..))) read
      | moving place _ => cases pc.symm.trans place
      | publishing u v place _ _ => cases pc.symm.trans place

end

end Erl.Queue.Mpmc
