import Erl.Queue.Spsc

/-!
# `push` and `pop` of `QueueBase` on a `BoundedSPSC`

Both repeat an attempt until it succeeds (`_impl/queue/base.hpp`). One step of a call is
one step of the attempt; an attempt that fails is begun again by the next step. Only the
last step of a call changes what the queue contains.
-/

namespace Erl.Queue.Spsc
open TransitionSystem Function

section
variable {T : Type} (N : Ring.Size)

/-- One step of `push(obj)`, and whether it is the last one. -/
def pushStep (q : State T) (obj : T) : State T × Bool :=
  match q.producer with
  | .idle => (beginPush N q obj, false)
  | .reload data pos => (reloadRead N q data pos, false)
  | .construct data pos => (constructElement q data pos, false)
  | .publish data pos => (publishPush N q data pos, true)

/-- One step of `pop()`, and what it returns if it is the last one. -/
def popStep (q : State T) : State T × Option T :=
  match q.consumer with
  | .idle => (beginPop q, none)
  | .reload pos => (reloadWrite q pos, none)
  | .copy pos => (copyElement q pos, none)
  | .publish value pos => (publishPop N q value pos, some value)

/-- The elements pushed and not yet popped. -/
def State.contents (q : State T) : List T := q.pushed.drop q.popped.length

/-- The producer is outside any call or pushes `obj`. -/
def Producer.Offers (obj : T) : Producer T → Prop
  | .idle => True
  | .reload data _ | .construct data _ | .publish data _ => data = obj

/-- Steps left of `push`, if the attempt under way succeeds. -/
@[simp] def Producer.rank : Producer T → Nat
  | .idle => 4
  | .reload .. => 3
  | .construct .. => 2
  | .publish .. => 1

/-- Steps left of `pop`, if the attempt under way succeeds. -/
@[simp] def Consumer.rank : Consumer T → Nat
  | .idle => 4
  | .reload _ => 3
  | .copy _ => 2
  | .publish .. => 1

/-- The next step of `pop` finds the queue empty and fails the attempt. -/
def State.Misses (q : State T) : Prop := ∃ pos, q.consumer = .reload pos ∧ pos = q.queue.writePos

variable {N} {q : State T} {obj : T}

theorem Inv.pushStep (inv : Inv N q) (obj : T) : Inv N (pushStep N q obj).1 := by
  cases pc : q.producer with
  | idle =>
    simp only [Spsc.pushStep, pc]
    exact inv.beginPush obj
  | reload data pos =>
    simp only [Spsc.pushStep, pc]
    exact inv.reloadRead pc
  | construct data pos =>
    simp only [Spsc.pushStep, pc]
    exact inv.constructElement pc
  | publish data pos =>
    simp only [Spsc.pushStep, pc]
    exact inv.publishPush pc

theorem Inv.popStep (inv : Inv N q) : Inv N (popStep N q).1 := by
  cases pc : q.consumer with
  | idle =>
    simp only [Spsc.popStep, pc]
    exact inv.beginPop
  | reload pos =>
    simp only [Spsc.popStep, pc]
    exact inv.reloadWrite pc
  | copy pos =>
    simp only [Spsc.popStep, pc]
    exact inv.copyElement pc
  | publish value pos =>
    simp only [Spsc.popStep, pc]
    exact inv.publishPop pc

/-! ## What a step does to the contents -/

theorem pushStep_consumer : (pushStep N q obj).1.consumer = q.consumer := by
  unfold Spsc.pushStep
  split <;> rfl

theorem popStep_producer : (popStep N q).1.producer = q.producer := by
  unfold Spsc.popStep
  split <;> rfl

theorem pushStep_offers (offers : q.producer.Offers obj) : (pushStep N q obj).1.producer.Offers obj := by
  unfold Spsc.pushStep
  split <;> rename_i pc <;> rw [pc] at offers
  · dsimp only [beginPush]
    split <;> rfl
  · dsimp only [reloadRead]
    split
    · trivial
    · exact offers
  · exact offers
  · trivial

/-- The last step of a push appends its element; no other step changes the contents. -/
theorem Inv.contents_pushStep (inv : Inv N q) (offers : q.producer.Offers obj) :
    (Spsc.pushStep N q obj).1.contents = if (Spsc.pushStep N q obj).2 then q.contents ++ [obj] else q.contents := by
  have behind : q.popped.length ≤ q.pushed.length := inv.order.length_le
  unfold Spsc.pushStep
  split <;> rename_i pc <;> rw [pc] at offers
  · rfl
  · rfl
  · rfl
  · cases offers
    simp only [State.contents, Spsc.publishPush, if_true, List.drop_append_of_le_length behind]

/-- A push that has not changed the contents goes on. -/
theorem Inv.pushStep_more (inv : Inv N q) (offers : q.producer.Offers obj)
    (same : (Spsc.pushStep N q obj).1.contents = q.contents) : (Spsc.pushStep N q obj).2 = false := by
  have contents := inv.contents_pushStep offers
  cases last : (Spsc.pushStep N q obj).2 with
  | false => rfl
  | true => simp [last, contents] at same

theorem pushStep_done (done : (pushStep N q obj).2 = true) : (pushStep N q obj).1.producer = .idle := by
  unfold Spsc.pushStep at done ⊢
  split <;> rename_i pc <;> simp only [pc] at done ⊢
  all_goals first | rfl | cases done

/-- Before its last step a pop leaves the contents as they are. -/
theorem contents_popStep (more : (popStep N q).2 = none) : (popStep N q).1.contents = q.contents := by
  unfold Spsc.popStep at more ⊢
  split <;> rename_i pc <;> simp only [pc] at more ⊢
  · rfl
  · rfl
  · rfl
  · cases more

/-- The last step of a pop returns the front element and removes it. -/
theorem Inv.contents_popStep (inv : Inv N q) {value : T} (done : (Spsc.popStep N q).2 = some value) :
    q.contents = value :: (Spsc.popStep N q).1.contents := by
  have reader := inv.consumer
  unfold Spsc.popStep at done ⊢
  split <;> rename_i pc <;> simp only [pc] at done ⊢
  · cases done
  · cases done
  · cases done
  · cases done
    simp only [ConsumerInv, pc] at reader
    obtain ⟨bound, here⟩ := List.getElem?_eq_some_iff.mp reader.2.2
    simp only [State.contents, Spsc.publishPop, List.length_append, List.length_singleton]
    rw [List.drop_eq_getElem_cons bound, here]

/-- A pop that has not changed the contents goes on. -/
theorem Inv.popStep_more (inv : Inv N q) (same : (Spsc.popStep N q).1.contents = q.contents) :
    (Spsc.popStep N q).2 = none := by
  cases last : (Spsc.popStep N q).2 with
  | none => rfl
  | some value => simp [inv.contents_popStep last] at same

theorem popStep_done {value : T} (done : (popStep N q).2 = some value) : (popStep N q).1.consumer = .idle := by
  unfold Spsc.popStep at done ⊢
  split <;> rename_i pc <;> simp only [pc] at done ⊢
  all_goals first | rfl | cases done

/-- A producer that finds the queue empty succeeds at once. -/
theorem Inv.rank_pushStep (inv : Inv N q) (empty : q.contents = []) (more : (Spsc.pushStep N q obj).2 = false) :
    (Spsc.pushStep N q obj).1.producer.rank < q.producer.rank := by
  have writer := inv.producer
  have caught : q.pushed.length = q.popped.length := by
    have behind := inv.order.length_le
    have ahead := List.drop_eq_nil_iff.mp empty
    omega
  unfold Spsc.pushStep at more ⊢
  split <;> rename_i pc <;> simp only [pc] at more ⊢
  · dsimp only [Spsc.beginPush]
    split <;> simp
  · simp only [ProducerInv, pc] at writer
    have room : (q.pushed.length + 1) % N.size ≠ q.popped.length % N.size :=
      caught ▸ Ring.slot_succ_ne N.two_le q.pushed.length
    simp [Spsc.reloadRead, writer, inv.readPos, room]
  · exact Nat.lt_succ_self 1
  · cases more

/-- A step of `pop` that does not miss brings the call closer to its end. -/
theorem rank_popStep (hits : ¬ q.Misses) (more : (popStep N q).2 = none) :
    (popStep N q).1.consumer.rank < q.consumer.rank := by
  unfold Spsc.popStep at more ⊢
  split <;> rename_i pc <;> simp only [pc] at more ⊢
  · dsimp only [beginPop]
    split <;> simp
  · rename_i pos
    have ne : pos ≠ q.queue.writePos := fun same => hits ⟨pos, pc, same⟩
    simp [reloadWrite, ne]
  · exact Nat.lt_succ_self 1
  · cases more

theorem State.Misses.busy (misses : q.Misses) : q.consumer ≠ .idle := by
  obtain ⟨pos, pc, -⟩ := misses
  rw [pc]
  exact nofun

/-- A step that misses costs one step more. -/
theorem rank_popStep_of_misses (misses : q.Misses) :
    (popStep N q).2 = none ∧ (popStep N q).1.consumer.rank = q.consumer.rank + 1 := by
  obtain ⟨pos, pc, same⟩ := misses
  simp only [Spsc.popStep, pc, reloadWrite, if_pos same]
  exact ⟨trivial, rfl⟩

/-- A pop misses only an empty queue. -/
theorem Inv.hits (inv : Inv N q) (stored : q.contents ≠ []) : ¬ q.Misses := by
  rintro ⟨pos, pc, same⟩
  have reader := inv.consumer
  simp only [ConsumerInv, pc] at reader
  have ahead : q.popped.length < q.pushed.length := by
    rw [← Nat.not_le]
    exact fun le => stored (List.drop_eq_nil_iff.mpr le)
  have := inv.room
  have := inv.readSeen_le
  have := Ring.eq_of_slot_eq q.popped.length (Nat.le_refl _) (by omega) (Nat.le_of_lt ahead) (by omega)
    ((reader.symm.trans same).trans inv.writePos)
  omega

end

end Erl.Queue.Spsc
