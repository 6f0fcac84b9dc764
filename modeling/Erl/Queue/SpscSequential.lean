import Erl.Queue.Spsc
import Erl.Lib.Fifo

/-!
# `BoundedSPSC` used by one thread

`try_push`, `try_pop` and `is_empty` as whole calls, made one after another. Each is a run
of the steps of `Erl.Queue.Spsc`, so the invariant there says what the positions and their
caches can be; the queue answers as an abstract one that holds `N - 1` elements.
-/

namespace Erl.Queue.SpscSequential
open Fifo Function Spsc

section
variable {T : Type} (N : Ring.Size)

/-- The declared `capacity`. -/
def capacity : Nat := N.size

/-- `new (buffer + pos) T(data)` and the store of `write_pos`. -/
def put (q : BoundedSPSC T) (data : T) (pos next : Nat) : BoundedSPSC T :=
  { q with buffer := update q.buffer pos data, writePos := next }

def tryPush (q : BoundedSPSC T) (data : T) : BoundedSPSC T × Bool :=
  let pos := q.writePos
  let next := (pos + 1) &&& N.mask
  if next = q.readPosCached then
    let q := { q with readPosCached := q.readPos }
    if next = q.readPosCached then (q, false) else (put q data pos next, true)
  else (put q data pos next, true)

/-- The copy of the element and the store of `read_pos`. -/
def take (q : BoundedSPSC T) (pos : Nat) : BoundedSPSC T × Option T :=
  let next := (pos + 1) &&& N.mask
  ({ q with readPos := next }, some (q.buffer pos))

/-- `try_pop`, with the value constructed at the target where it returns true. -/
def tryPop (q : BoundedSPSC T) : BoundedSPSC T × Option T :=
  let pos := q.readPos
  if pos = q.writePosCached then
    let q := { q with writePosCached := q.writePos }
    if pos = q.writePosCached then (q, none) else take N q pos
  else take N q pos

def isEmpty (q : BoundedSPSC T) : Bool := q.writePos = q.readPos

/-- One call; all of them return. -/
def exec (q : BoundedSPSC T) : Call T → Option (BoundedSPSC T × Answer T)
  | .push data => let (q, ok) := tryPush N q data; some (q, .pushed ok)
  | .pop => let (q, value) := tryPop N q; some (q, .popped value)
  | .isEmpty => some (q, .empty (isEmpty q))

/-- The constructed queue. -/
def construct [Inhabited T] : BoundedSPSC T := ⟨fun _ => default, 0, 0, 0, 0⟩

/-- Every call of the sequence answers as a queue that holds `capacity` elements does. -/
def AsDeclared [Inhabited T] (calls : List (Call T)) : Prop :=
  ∃ q, runOn (exec N) construct calls = some (q, (run (capacity N) [] calls).2)

/-- The queue in a state of the two threads that are outside any call, with the elements
pushed and not yet popped. -/
structure Stores (q : BoundedSPSC T) (stored : List T) (s : State T) : Prop where
  inv : Inv N s
  queue : s.queue = q
  producer : s.producer = .idle
  consumer : s.consumer = .idle
  pushed : s.pushed = s.popped ++ stored

end

section
variable {T : Type} {N : Ring.Size} {q : BoundedSPSC T} {stored : List T} {s : State T}

theorem stores_construct [Inhabited T] : Stores N (construct : BoundedSPSC T) [] start where
  inv := inv_start N
  queue := rfl
  producer := rfl
  consumer := rfl
  pushed := rfl

theorem Stores.length (h : Stores N q stored s) : s.pushed.length = s.popped.length + stored.length := by
  rw [h.pushed, List.length_append]

/-- One slot stays free. -/
theorem Stores.length_lt (h : Stores N q stored s) : stored.length < N.size := by
  have hlength := h.length
  have hroom := h.inv.room
  have hseen := h.inv.readSeen_le
  omega

/-- The next write position is the read position exactly if all other slots are taken. -/
theorem Stores.next_eq_iff (h : Stores N q stored s) :
    (q.writePos + 1) &&& N.mask = q.readPos ↔ stored.length = N.size - 1 := by
  have hlength := h.length
  have hlt := h.length_lt
  have hpos := N.pos
  rw [← h.queue, h.inv.writePos, h.inv.readPos, N.and_mask, Nat.mod_add_mod, hlength]
  constructor
  · intro same
    by_contra hne
    have heq := Ring.eq_of_slot_eq s.popped.length (by omega) (by omega) (Nat.le_refl _) (by omega) same
    omega
  · intro hfull
    rw [hfull, Nat.add_assoc, Nat.sub_add_cancel hpos, Nat.add_mod_right]

theorem Stores.isEmpty_eq (h : Stores N q stored s) : isEmpty q = stored.isEmpty := by
  have hlength := h.length
  have hlt := h.length_lt
  rw [isEmpty, ← h.queue, h.inv.writePos, h.inv.readPos, hlength, Bool.eq_iff_iff, decide_eq_true_iff,
    List.isEmpty_iff, ← List.length_eq_zero_iff]
  constructor
  · intro same
    have heq := Ring.eq_of_slot_eq s.popped.length (by omega) (by omega) (Nat.le_refl _) (by omega) same
    omega
  · intro hnone
    rw [hnone, Nat.add_zero]

/-- A cached read position that differs from the next write position is not behind it by a
whole lap: there is room. -/
theorem Stores.room_of_cached (h : Stores N q stored s) (ne : (q.writePos + 1) &&& N.mask ≠ q.readPosCached) :
    stored.length ≠ N.size - 1 := by
  have hlength := h.length
  have hseen := h.inv.readSeen_le
  rw [← h.queue, h.inv.writePos, h.inv.readPosCached] at ne
  have hroom := room_of_next_ne h.inv.room ne
  omega

/-- Likewise an element waits behind a read position that is not the cached write
position. -/
theorem Stores.some_of_cached (h : Stores N q stored s) (ne : q.readPos ≠ q.writePosCached) : stored ≠ [] := by
  rintro rfl
  have hlength := h.length
  have hpopped := h.inv.popped_le
  have hseen := h.inv.writeSeen_le
  apply ne
  rw [← h.queue, h.inv.readPos, h.inv.writePosCached]
  congr 1
  rw [List.length_nil] at hlength
  omega

/-! ## One call -/

/-- Steps of the two threads. -/
def Steps (N : Ring.Size) (s t : State T) : Prop := ∃ actions : List (Action T), actions.foldlM (Spsc.exec N) s = some t

theorem Steps.refl (s : State T) : Steps N s s := ⟨[], rfl⟩

theorem Steps.cons {t u : State T} {a : Action T} (hfirst : Spsc.exec N s a = some t) (hrest : Steps N t u) :
    Steps N s u := by
  obtain ⟨actions, hrun⟩ := hrest
  refine ⟨a :: actions, ?_⟩
  rw [List.foldlM_cons, hfirst]
  exact hrun

/-- The end of a push that goes ahead. -/
theorem stores_put (inv : Inv N s) {data : T} {pos : Nat} (hpc : s.producer = .construct data pos)
    (hidle : s.consumer = .idle) (hpushed : s.pushed = s.popped ++ stored) :
    ∃ t, Steps N s t ∧ Stores N (put s.queue data pos ((pos + 1) &&& N.mask)) (stored ++ [data]) t := by
  have hbuilt := inv.constructElement hpc
  have hfirst : Spsc.exec N s .producer = some (constructElement s data pos) := by simp only [Spsc.exec, hpc]
  refine ⟨publishPush N (constructElement s data pos) data pos, .cons hfirst (.cons (a := .producer) rfl (.refl _)),
    hbuilt.publishPush rfl, rfl, rfl, hidle, ?_⟩
  · show s.pushed ++ [data] = s.popped ++ (stored ++ [data])
    rw [hpushed, List.append_assoc]

/-- The end of a pop that goes ahead. -/
theorem stores_take (inv : Inv N s) {pos : Nat} {value : T} (hpc : s.consumer = .copy pos) (hidle : s.producer = .idle)
    (hpushed : s.pushed = s.popped ++ value :: stored) :
    ∃ t q, Steps N s t ∧ take N s.queue pos = (q, some value) ∧ Stores N q stored t := by
  have hcopied := inv.copyElement hpc
  have hfirst : Spsc.exec N s .consumer = some (copyElement s pos) := by simp only [Spsc.exec, hpc]
  have hknown := hcopied.consumer
  simp only [ConsumerInv, copyElement] at hknown
  have hvalue : s.queue.buffer pos = value := by
    have hnext := hknown.2.2
    rw [hpushed, List.getElem?_append_right (Nat.le_refl _), Nat.sub_self, List.getElem?_cons_zero] at hnext
    exact (Option.some.inj hnext).symm
  refine ⟨publishPop N (copyElement s pos) (s.queue.buffer pos) pos, _, .cons hfirst (.cons (a := .consumer) rfl (.refl _)), ?_,
    hcopied.publishPop rfl, rfl, hidle, rfl, ?_⟩
  · rw [take, hvalue]
    rfl
  · show s.pushed = (s.popped ++ [s.queue.buffer pos]) ++ stored
    rw [hpushed, hvalue, List.append_assoc, List.singleton_append]

/-- `try_push` is a run of the producer, which goes ahead if it leaves a slot free. -/
theorem Stores.push (h : Stores N q stored s) (data : T) :
    ∃ t, Steps N s t ∧
      if stored.length = N.size - 1 then (tryPush N q data).2 = false ∧ Stores N (tryPush N q data).1 stored t
      else (tryPush N q data).2 = true ∧ Stores N (tryPush N q data).1 (stored ++ [data]) t := by
  obtain ⟨inv, rfl, hproducer, hconsumer, hpushed⟩ := h
  have h : Stores N s.queue stored s := ⟨inv, rfl, hproducer, hconsumer, hpushed⟩
  have hbegin := inv.beginPush data
  have hfirst : Spsc.exec N s (.push data) = some (beginPush N s data) := by
    simp only [Spsc.exec, hproducer]
  by_cases hcached : (s.queue.writePos + 1) &&& N.mask = s.queue.readPosCached
  · have hpc : (beginPush N s data).producer = .reload data s.queue.writePos := if_pos hcached
    have hreload := hbegin.reloadRead hpc
    have hsecond : Spsc.exec N (beginPush N s data) .producer =
        some (reloadRead N (beginPush N s data) data s.queue.writePos) := by
      simp only [Spsc.exec, hpc]
    by_cases hread : (s.queue.writePos + 1) &&& N.mask = s.queue.readPos
    · have hidle : (reloadRead N (beginPush N s data) data s.queue.writePos).producer = .idle := if_pos hread
      have hresult : tryPush N s.queue data = ({ s.queue with readPosCached := s.queue.readPos }, false) := by
        simp only [tryPush, hcached, if_true]
        rw [if_pos (hcached.symm.trans hread)]
      refine ⟨_, .cons hfirst (.cons hsecond (.refl _)), ?_⟩
      rw [if_pos (h.next_eq_iff.mp hread), hresult]
      exact ⟨rfl, hreload, rfl, hidle, hconsumer, hpushed⟩
    · have hidle : (reloadRead N (beginPush N s data) data s.queue.writePos).producer =
          .construct data s.queue.writePos := if_neg hread
      have hresult : tryPush N s.queue data = (put { s.queue with readPosCached := s.queue.readPos } data
          s.queue.writePos ((s.queue.writePos + 1) &&& N.mask), true) := by
        simp only [tryPush, hcached, if_true]
        rw [if_neg (fun same => hread (hcached.trans same))]
      obtain ⟨t, hrest, hstores⟩ := stores_put hreload hidle hconsumer hpushed
      refine ⟨t, .cons hfirst (.cons hsecond hrest), ?_⟩
      rw [if_neg fun hfull => hread (h.next_eq_iff.mpr hfull), hresult]
      exact ⟨rfl, hstores⟩
  · have hpc : (beginPush N s data).producer = .construct data s.queue.writePos := if_neg hcached
    have hresult : tryPush N s.queue data =
        (put s.queue data s.queue.writePos ((s.queue.writePos + 1) &&& N.mask), true) := by
      simp only [tryPush, hcached, if_false]
    obtain ⟨t, hrest, hstores⟩ := stores_put hbegin hpc hconsumer hpushed
    refine ⟨t, .cons hfirst hrest, ?_⟩
    rw [if_neg (h.room_of_cached hcached), hresult]
    exact ⟨rfl, hstores⟩

/-- `try_pop` is a run of the consumer, which goes ahead if there is an element. -/
theorem Stores.pop (h : Stores N q stored s) :
    ∃ t, Steps N s t ∧ (tryPop N q).2 = stored.head? ∧ Stores N (tryPop N q).1 stored.tail t := by
  obtain ⟨inv, rfl, hproducer, hconsumer, hpushed⟩ := h
  have h : Stores N s.queue stored s := ⟨inv, rfl, hproducer, hconsumer, hpushed⟩
  have hempty := h.isEmpty_eq
  have hfirst : Spsc.exec N s .pop = some (beginPop s) := by
    simp only [Spsc.exec, hconsumer]
  by_cases hcached : s.queue.readPos = s.queue.writePosCached
  · have hpc : (beginPop s).consumer = .reload s.queue.readPos := if_pos hcached
    have hreload := inv.beginPop.reloadWrite hpc
    have hsecond : Spsc.exec N (beginPop s) .consumer = some (reloadWrite (beginPop s) s.queue.readPos) := by
      simp only [Spsc.exec, hpc]
    by_cases hwrite : s.queue.readPos = s.queue.writePos
    · have hidle : (reloadWrite (beginPop s) s.queue.readPos).consumer = .idle := if_pos hwrite
      rw [isEmpty, decide_eq_true hwrite.symm] at hempty
      obtain rfl := List.isEmpty_iff.mp hempty.symm
      have hresult : tryPop N s.queue = ({ s.queue with writePosCached := s.queue.writePos }, none) := by
        simp only [tryPop]
        rw [if_pos hcached, if_pos hwrite]
      rw [hresult]
      exact ⟨_, .cons hfirst (.cons hsecond (.refl _)), rfl, hreload, rfl, hproducer, hidle, hpushed⟩
    · have hidle : (reloadWrite (beginPop s) s.queue.readPos).consumer = .copy s.queue.readPos := if_neg hwrite
      rw [isEmpty, decide_eq_false (fun same => hwrite same.symm)] at hempty
      obtain ⟨value, rest, rfl⟩ := List.exists_cons_of_ne_nil (List.isEmpty_eq_false_iff.mp hempty.symm)
      obtain ⟨t, q, hrest, htake, hstores⟩ := stores_take hreload hidle hproducer hpushed
      have hresult : tryPop N s.queue = (q, some value) := by
        simp only [tryPop]
        rw [if_pos hcached, if_neg hwrite]
        exact htake
      rw [hresult]
      exact ⟨t, .cons hfirst (.cons hsecond hrest), rfl, hstores⟩
  · have hpc : (beginPop s).consumer = .copy s.queue.readPos := if_neg hcached
    obtain ⟨value, rest, rfl⟩ := List.exists_cons_of_ne_nil (h.some_of_cached hcached)
    obtain ⟨t, q, hrest, htake, hstores⟩ := stores_take inv.beginPop hpc hproducer hpushed
    have hresult : tryPop N s.queue = (q, some value) := by
      simp only [tryPop]
      rw [if_neg hcached]
      exact htake
    rw [hresult]
    exact ⟨t, .cons hfirst hrest, rfl, hstores⟩

/-- The queue holds the elements, whatever the run so far. -/
def Represents (N : Ring.Size) (q : BoundedSPSC T) (stored : List T) : Prop := ∃ s, Stores N q stored s

/-- Every call answers as a queue that holds `N - 1` elements. -/
theorem exec_step (call : Call T) (h : Represents N q stored) :
    ∃ q', exec N q call = some (q', (step (N.size - 1) stored call).2) ∧
      Represents N q' (step (N.size - 1) stored call).1 := by
  obtain ⟨s, h⟩ := h
  cases call with
  | push data =>
    obtain ⟨t, -, hpush⟩ := h.push data
    refine ⟨(tryPush N q data).1, ?_, t, ?_⟩ <;> by_cases hfull : stored.length = N.size - 1
    · rw [if_pos hfull] at hpush
      rw [step, if_pos hfull]
      exact congrArg (fun ok => some ((tryPush N q data).1, Answer.pushed ok)) hpush.1
    · rw [if_neg hfull] at hpush
      rw [step, if_neg hfull]
      exact congrArg (fun ok => some ((tryPush N q data).1, Answer.pushed ok)) hpush.1
    · rw [if_pos hfull] at hpush
      rw [step, if_pos hfull]
      exact hpush.2
    · rw [if_neg hfull] at hpush
      rw [step, if_neg hfull]
      exact hpush.2
  | pop =>
    obtain ⟨t, -, hvalue, hstores⟩ := h.pop
    refine ⟨(tryPop N q).1, ?_, t, ?_⟩
    · show some ((tryPop N q).1, Answer.popped (tryPop N q).2) = _
      rw [hvalue]
      cases stored <;> rfl
    · cases stored <;> exact hstores
  | isEmpty =>
    refine ⟨q, ?_, s, h⟩
    show some (q, Answer.empty (isEmpty q)) = _
    rw [h.isEmpty_eq]
    rfl

/-- From the constructed state, the queue is one of `N - 1` elements. -/
theorem boundedSPSC_is_fifo [Inhabited T] (N : Ring.Size) (calls : List (Call T)) :
    ∃ q, runOn (exec N) construct calls = some (q, (run (N.size - 1) [] calls).2) := by
  have hstart : Represents N (construct : BoundedSPSC T) [] := ⟨start, stores_construct⟩
  obtain ⟨q, hrun, -⟩ := runOn_refines exec_step calls hstart
  exact ⟨q, hrun⟩

/-- **Declared capacity.** For every size and every sequence of calls, the queue answers as
one of its declared capacity does exactly if no push is tried when all elements but one of
that capacity are stored. -/
theorem asDeclared_iff [Inhabited T] (N : Ring.Size) (calls : List (Call T)) :
    AsDeclared N calls ↔
      ∀ before data after, calls = before ++ .push data :: after → (run (capacity N) [] before).1.length ≠ capacity N - 1 := by
  have hpos := N.pos
  have hsize : N.size - 1 + 1 = N.size := Nat.sub_add_cancel hpos
  have hsame := run_eq_run_succ_iff (N.size - 1) calls [] (Nat.zero_le _)
  rw [hsize] at hsame
  obtain ⟨q, hrun⟩ := boundedSPSC_is_fifo N calls
  rw [capacity, ← hsame]
  constructor
  · rintro ⟨q', hdeclared⟩
    rw [hrun, Option.some.injEq, Prod.mk.injEq] at hdeclared
    exact hdeclared.2
  · intro hanswers
    exact ⟨q, hanswers ▸ hrun⟩

end

/-- Two slots: the second push is refused. -/
theorem not_asDeclared_two : ¬ AsDeclared Ring.Size.two [.push 7, .push (8 : Nat)] := by
  rintro ⟨q, hdeclared⟩
  have hanswers : (runOn (exec Ring.Size.two) construct [.push 7, .push (8 : Nat)]).map Prod.snd =
      some [.pushed true, .pushed false] := by decide
  rw [hdeclared] at hanswers
  cases hanswers

end Erl.Queue.SpscSequential
