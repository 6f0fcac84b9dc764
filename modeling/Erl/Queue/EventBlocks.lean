import Erl.Queue.Events
import Erl.Queue.MpmcCells
import Erl.Queue.MpmcProgress
import Erl.Queue.PipeBlocks

/-!
# No block of an `EventQueue` leaks

`try_pop` moves the message out of its cell, so a cell that holds no element owns no block,
and `try_push` constructs over such cells only. Whatever the threads do and however their
steps are interleaved, each block stays with one buffer.
-/

namespace Erl.Queue.Events
open TransitionSystem Message Blocks Function
open Pipe (Place constructCopy constructDefault constructCopy_spec inv_constructCopy put_of_ne owner_put_self
  owner_put_of_ne live_of_contents contents_of_live inv_constructDefault constructDefault_of_ne object_ne)

section
variable {inlineCapacity : Nat} {w : World Place} {place other : Place} {b : HybridBuffer}

/-- What constructing by move over a buffer that owns nothing comes to: the bytes and the
block change places, the source is empty. -/
theorem constructMove_spec (inv : Message.Inv inlineCapacity w) (ne : place ≠ other)
    (hplace : w.owner place = none) {bytes : List UInt8} (hcontents : w.contents other = some bytes) :
    ∃ w', constructMove inlineCapacity w place other = some (.ok w') ∧ Message.Inv inlineCapacity w' ∧
      w'.contents = update (update w.contents place (some bytes)) other (some []) ∧ w'.owner other = none ∧
      ∀ k, k ≠ place → k ≠ other → w'.owner k = w.owner k := by
  obtain ⟨b, hlive⟩ := live_of_contents inv hcontents
  obtain ⟨_, hbytes, holds⟩ := inv.holds other b hlive
  cases hcontents.symm.trans hbytes
  obtain ⟨b', rest, hmove, holds', empty, takes, gives⟩ := HybridBuffer.moveConstruct_spec holds
  -- The object at `place` owns nothing: it might as well not be there.
  have nothing : Transfer w.heap w.heap (w.owner place) none := by
    rw [hplace]
    exact Transfer.refl _ _
  have gone := inv.remove nothing
  have moved := gone.move ne (update_self ..) ((update_of_ne ne.symm ..).trans hlive) holds' empty takes gives
  simp only [Memory.move, update_idem] at moved
  refine ⟨_, ?_, moved, rfl, ?_, ?_⟩
  · simp only [constructMove, hlive, Option.map_some, hmove, Except.map, hcontents, Memory.move]
  · show (update (update w.buffers place (some b')) other (some rest) other).bind HybridBuffer.owned = none
    rw [update_self, Option.bind_some, gives]
  · intro k hk hk'
    show (update (update w.buffers place (some b')) other (some rest) k).bind HybridBuffer.owned = _
    rw [update_of_ne hk', update_of_ne hk]
    rfl

end

section
variable {Tid T : Type} [DecidableEq Tid] {N : Ring.Size} {q : Mpmc.State Tid T} {t : Tid} {obj : T}

theorem reachable_pushStep (h : Reachable (Mpmc.system N) q) (t : Tid) (obj : T) :
    Reachable (Mpmc.system N) (Mpmc.pushStep N q t obj).1 := by
  unfold Mpmc.pushStep
  split <;> rename_i pc
  · exact h.step ⟨.push t obj, by simp [Mpmc.exec, pc]⟩
  · exact h.step ⟨.step t, by simp [Mpmc.exec, pc]⟩
  · exact h.step ⟨.step t, by simp [Mpmc.exec, pc]⟩
  · exact h.step ⟨.step t, by simp [Mpmc.exec, pc]⟩
  · exact h.step ⟨.step t, by simp [Mpmc.exec, pc]⟩
  · exact h.step ⟨.step t, by simp [Mpmc.exec, pc]⟩
  all_goals exact h

theorem reachable_popStep (h : Reachable (Mpmc.system N) q) (t : Tid) :
    Reachable (Mpmc.system N) (Mpmc.popStep N q t).1 := by
  unfold Mpmc.popStep
  split <;> rename_i pc
  · exact h.step ⟨.pop t, by simp [Mpmc.exec, pc]⟩
  · exact h.step ⟨.step t, by simp [Mpmc.exec, pc]⟩
  · exact h.step ⟨.step t, by simp [Mpmc.exec, pc]⟩
  · exact h.step ⟨.step t, by simp [Mpmc.exec, pc]⟩
  · exact h.step ⟨.step t, by simp [Mpmc.exec, pc]⟩
  · exact h.step ⟨.step t, by simp [Mpmc.exec, pc]⟩
  all_goals exact h

omit [DecidableEq Tid] in
/-- Storing a sequence number leaves the elements alone. -/
theorem data_setCell (pos n c : Nat) :
    (((q.setCell N pos { q.cell N pos with sequence := n }).queue.cells c).data) = (q.queue.cells c).data := by
  simp only [Mpmc.State.setCell, Mpmc.State.cell]
  by_cases same : c = pos &&& N.mask
  · rw [same, update_self]
  · rw [update_of_ne same]

/-- Only the construction changes an element. -/
theorem data_pushStep (quiet : ∀ data pos, q.thread t ≠ .pushConstruct data pos) (c : Nat) :
    ((Mpmc.pushStep N q t obj).1.queue.cells c).data = (q.queue.cells c).data := by
  unfold Mpmc.pushStep
  split <;> rename_i pc
  · rfl
  · rfl
  · unfold Mpmc.pushExchange
    split <;> rfl
  · rfl
  · exact absurd pc (quiet _ _)
  · exact data_setCell ..
  all_goals rfl

/-- Only the move does. -/
theorem data_popStep (quiet : ∀ pos, q.thread t ≠ .popMove pos) (c : Nat) :
    ((Mpmc.popStep N q t).1.queue.cells c).data = (q.queue.cells c).data := by
  unfold Mpmc.popStep
  split <;> rename_i pc
  · rfl
  · rfl
  · unfold Mpmc.popExchange
    split <;> rfl
  · rfl
  · exact absurd pc (quiet _)
  · exact data_setCell ..
  all_goals rfl

/-- A push returns from its last store. -/
theorem pushStep_last (last : (Mpmc.pushStep N q t obj).2 = true) : (Mpmc.pushStep N q t obj).1.thread t = .idle := by
  cases pc : q.thread t <;> simp only [Mpmc.pushStep, pc, Bool.false_eq_true] at last ⊢
  exact Mpmc.goto_thread_self ..

end

section
variable {Tid : Type} (N : Ring.Size) (inlineCapacity : Nat)

/-- The buffer of a cell holds its element, or nothing. -/
def Stored (s : State Tid) (c : Nat) : Prop :=
  s.world.contents (.cell c) = some ((s.ring.queue.cells c).data.getD []) ∧
    ((s.ring.queue.cells c).data = none → s.world.owner (.cell c) = none)

/-- A thread in `try_pop`: until the move its target owns nothing, after it the target holds
the element. -/
def Pops (bytes : List UInt8) (owner : Pointer) : Mpmc.Pc (List UInt8) → Prop
  | .popPublish target _ => target = some bytes
  | pc => pc.Within .pop ∧ bytes = [] ∧ owner = none

/-- A thread is where its call says. -/
def Called (s : State Tid) (t : Tid) : Prop :=
  match s.call t with
  | none => s.ring.thread t = .idle
  | some (.push i _) => ∃ bytes, s.world.contents (.object i) = some bytes ∧
      ((s.ring.thread t).Offers bytes ∨ ∃ data pos, s.ring.thread t = .pushPublish data pos)
  | some (.pop i) => ∃ bytes, s.world.contents (.object i) = some bytes ∧
      Pops bytes (s.world.owner (.object i)) (s.ring.thread t)

/-- The calls of two threads may be about the same object. -/
def Compatible (c d : Call) : Prop := c.object = d.object → c.shares = true ∧ d.shares = true

structure Inv [DecidableEq Tid] (s : State Tid) : Prop where
  ring : Reachable (Mpmc.system N) s.ring
  world : Message.Inv inlineCapacity s.world
  stored : ∀ c < N.size, Stored s c
  called : ∀ t, Called s t
  apart : ∀ t u, t ≠ u → ∀ c ∈ s.call t, ∀ d ∈ s.call u, Compatible c d

end

section
variable {Tid : Type} [DecidableEq Tid] {N : Ring.Size} {inlineCapacity : Nat} {A : Allocator} {s s' : State Tid} {t : Tid}

omit [DecidableEq Tid] in
/-- Two worlds agree about an object. -/
theorem Called.frame (h : Called s t) (thread : s'.ring.thread t = s.ring.thread t) (call : s'.call t = s.call t)
    (kept : ∀ c ∈ s.call t, s'.world.contents (.object c.object) = s.world.contents (.object c.object) ∧
      s'.world.owner (.object c.object) = s.world.owner (.object c.object)) : Called s' t := by
  unfold Called at h ⊢
  rw [call, thread]
  cases hc : s.call t with
  | none =>
    rw [hc] at h
    exact h
  | some c =>
    rw [hc] at h
    obtain ⟨contents, owner⟩ := kept c hc
    cases c with
    | push i rvalue =>
      change s'.world.contents (.object i) = s.world.contents (.object i) at contents
      simp only [contents]
      exact h
    | pop i =>
      change s'.world.contents (.object i) = s.world.contents (.object i) at contents
      change s'.world.owner (.object i) = s.world.owner (.object i) at owner
      simp only [contents, owner]
      exact h

omit [DecidableEq Tid] in
theorem Compatible.symm {c d : Call} (h : Compatible c d) : Compatible d c := fun same => (h same.symm).symm

/-- A thread moves: it leaves the objects of the other calls alone, and its own call is none
that gets in their way. -/
theorem Inv.goes (inv : Inv N inlineCapacity s) (ring : Reachable (Mpmc.system N) s'.ring)
    (world : Message.Inv inlineCapacity s'.world) (stored : ∀ c < N.size, Stored s' c)
    (others : ∀ u, u ≠ t → s'.ring.thread u = s.ring.thread u ∧ s'.call u = s.call u)
    (kept : ∀ u, u ≠ t → ∀ c ∈ s.call u, s'.world.contents (.object c.object) = s.world.contents (.object c.object) ∧
      s'.world.owner (.object c.object) = s.world.owner (.object c.object))
    (called : Called s' t) (calls : ∀ c ∈ s'.call t, c ∈ s.call t ∨ ∀ u, u ≠ t → ∀ d ∈ s.call u, Compatible c d) :
    Inv N inlineCapacity s' := by
  have mine : ∀ u, u ≠ t → ∀ c ∈ s'.call t, ∀ d ∈ s'.call u, Compatible c d := by
    intro u ne c hc d hd
    rw [(others u ne).2] at hd
    rcases calls c hc with old | new
    · exact inv.apart t u (Ne.symm ne) c old d hd
    · exact new u ne d hd
  refine ⟨ring, world, stored, ?_, ?_⟩
  · intro u
    by_cases same : u = t
    · exact same ▸ called
    · exact (inv.called u).frame (others u same).1 (others u same).2 (kept u same)
  · intro u v ne c hc d hd
    by_cases first : u = t
    · subst first
      exact mine v (Ne.symm ne) c hc d hd
    · by_cases second : v = t
      · subst second
        exact (mine u first d hd c hc).symm
      · rw [(others u first).2] at hc
        rw [(others v second).2] at hd
        exact inv.apart u v ne c hc d hd

theorem inv_initial : Inv N inlineCapacity
    (⟨Mpmc.start, (Pipe.State.initial N inlineCapacity).world, fun _ => none⟩ : State Tid) where
  ring := .init rfl
  world := Pipe.inv_initial.world
  stored c hc := ⟨if_pos hc, fun _ => Pipe.owner_initial _⟩
  called t := rfl
  apart t u _ c hc := by cases hc

theorem object_ne_cell {i c : Nat} : Place.object i ≠ .cell c := by
  intro same
  cases same

theorem cell_ne_cell {c c' : Nat} (ne : c ≠ c') : Place.cell c ≠ .cell c' := fun same => ne (Place.cell.inj same)

/-! ## Pushing -/

theorem after_of_ne {u : Tid} (ne : u ≠ t) (last : Bool) : s.after t last u = s.call u := by
  unfold State.after
  split
  · exact update_of_ne ne ..
  · rfl

theorem after_self (s : State Tid) (t : Tid) : s.after t true t = none := update_self ..

/-- A call that goes on, or is over. -/
theorem mem_after {last : Bool} {c : Call} (h : c ∈ s.after t last t) : c ∈ s.call t := by
  cases last with
  | true =>
    rw [after_self] at h
    cases h
  | false => exact h

theorem Inv.exists_bytes (inv : Inv N inlineCapacity s) {c : Call} (hc : c ∈ s.call t) :
    ∃ bytes, s.world.contents (.object c.object) = some bytes := by
  have called := inv.called t
  rw [Called, Option.mem_def.mp hc] at called
  cases c with
  | push i rvalue =>
    obtain ⟨bytes, contents, -⟩ := called
    exact ⟨bytes, contents⟩
  | pop i =>
    obtain ⟨bytes, contents, -⟩ := called
    exact ⟨bytes, contents⟩

theorem Inv.pushQuiet (inv : Inv N inlineCapacity s) {i : Nat} {rvalue : Bool} (hc : s.call t = some (.push i rvalue))
    (quiet : ∀ data pos, s.ring.thread t ≠ .pushConstruct data pos) :
    Inv N inlineCapacity ⟨(Mpmc.pushStep N s.ring t ((s.world.contents (.object i)).getD [])).1, s.world,
      s.after t (Mpmc.pushStep N s.ring t ((s.world.contents (.object i)).getD [])).2⟩ := by
  have called := inv.called t
  rw [Called, hc] at called
  obtain ⟨bytes, contents, offers⟩ := called
  rw [contents, Option.getD_some]
  refine inv.goes (t := t) (reachable_pushStep inv.ring t bytes) inv.world ?_
    (fun u ne => ⟨Mpmc.pushStep_thread ne, after_of_ne ne _⟩) (fun u _ c _ => ⟨rfl, rfl⟩) ?_
    (fun c hc' => .inl (mem_after hc'))
  · intro c hlt
    simp only [Stored, data_pushStep quiet]
    exact inv.stored c hlt
  · unfold Called
    cases last : (Mpmc.pushStep N s.ring t bytes).2 with
    | true =>
      simp only [after_self]
      exact pushStep_last last
    | false =>
      have goesOn : s.after t false t = some (.push i rvalue) := hc
      simp only [goesOn]
      refine ⟨bytes, contents, .inl (Mpmc.pushStep_offers (offers.resolve_right ?_))⟩
      rintro ⟨data, pos, pc⟩
      simp [Mpmc.pushStep, pc] at last

/-- The cell that a push has won owns nothing. -/
theorem Inv.cell_empty (inv : Inv N inlineCapacity s) {data : List UInt8} {pos : Nat}
    (pc : s.ring.thread t = .pushConstruct data pos) : s.world.owner (.cell (pos % N.size)) = none := by
  apply (inv.stored _ (Nat.mod_lt _ N.pos)).2
  rw [← Mpmc.cell_eq]
  exact (Mpmc.vacant inv.ring).won (Mpmc.invariant.reachable inv.ring) pc

/-- After the construction the cell holds the element, and the other cells what they held. -/
theorem Inv.stored_construct (inv : Inv N inlineCapacity s) {data : List UInt8} {pos : Nat} {w : World Place}
    {call : Tid → Option Call} (here : w.contents (.cell (pos % N.size)) = some data)
    (away : ∀ c, c ≠ pos % N.size → w.contents (.cell c) = s.world.contents (.cell c) ∧
      w.owner (.cell c) = s.world.owner (.cell c)) :
    ∀ c < N.size, Stored ⟨Mpmc.pushConstruct N s.ring t data pos, w, call⟩ c := by
  intro c hlt
  have cells : (Mpmc.pushConstruct N s.ring t data pos).queue.cells =
      update s.ring.queue.cells (pos % N.size) { s.ring.cell N pos with data := some data } := by
    rw [← N.and_mask]
    rfl
  unfold Stored
  rw [cells]
  by_cases same : c = pos % N.size
  · subst same
    rw [update_self]
    exact ⟨here, fun none => by cases none⟩
  · rw [update_of_ne same, (away c same).1, (away c same).2]
    exact inv.stored c hlt

theorem Inv.construct (inv : Inv N inlineCapacity s) {i : Nat} {rvalue : Bool} (hc : s.call t = some (.push i rvalue))
    {data : List UInt8} {pos : Nat} (pc : s.ring.thread t = .pushConstruct data pos) :
    ∃ w, pushEffect N inlineCapacity A s t i rvalue = some (.ok w) ∧
      Inv N inlineCapacity ⟨Mpmc.pushConstruct N s.ring t data pos, w, s.call⟩ := by
  have called := inv.called t
  rw [Called, hc] at called
  obtain ⟨bytes, contents, offers⟩ := called
  have same : data = bytes := by
    rcases offers with offers | ⟨_, _, pc'⟩
    · rw [pc] at offers
      exact offers
    · rw [pc] at pc'
      cases pc'
  subst same
  have empty := inv.cell_empty pc
  have ring : Reachable (Mpmc.system N) (Mpmc.pushConstruct N s.ring t data pos) :=
    inv.ring.step ⟨.step t, by simp [Mpmc.exec, pc]⟩
  have others {u : Tid} (ne : u ≠ t) : (Mpmc.pushConstruct N s.ring t data pos).thread u = s.ring.thread u :=
    Mpmc.goto_thread_of_ne ne _
  have self : (Mpmc.pushConstruct N s.ring t data pos).thread t = .pushPublish data pos := Mpmc.goto_thread_self ..
  unfold pushEffect
  simp only [pc, N.and_mask]
  cases rvalue with
  | false =>
    obtain ⟨b, hlive⟩ := live_of_contents inv.world contents
    obtain ⟨h', b', _, hcopy, hbytes, holds, transfer, -⟩ :=
      constructCopy_spec (A := A) (.cell (pos % N.size)) inv.world hlive
    cases contents.symm.trans hbytes
    have object {i : Nat} : Place.object i ≠ .cell (pos % N.size) := object_ne_cell
    refine ⟨_, hcopy, inv.goes (t := t) ring (inv_constructCopy inv.world empty holds transfer) ?_
      (fun u ne => ⟨others ne, rfl⟩) ?_ ?_ (fun c hc' => .inl hc')⟩
    · apply inv.stored_construct
      · exact update_self ..
      · intro c ne
        exact ⟨update_of_ne (cell_ne_cell ne) .., owner_put_of_ne (cell_ne_cell ne)⟩
    · intro u _ c _
      exact ⟨update_of_ne (object (i := c.object)) (some data) s.world.contents, owner_put_of_ne object⟩
    · rw [Called, hc]
      exact ⟨data, (update_of_ne object (some data) s.world.contents).trans contents, .inr ⟨data, pos, self⟩⟩
  | true =>
    obtain ⟨w, hmove, world, hcontents, gone, away⟩ :=
      constructMove_spec inv.world (Ne.symm object_ne_cell) empty contents
    refine ⟨w, hmove, inv.goes (t := t) ring world ?_ (fun u ne => ⟨others ne, rfl⟩) ?_ ?_ (fun c hc' => .inl hc')⟩
    · apply inv.stored_construct
      · rw [hcontents, update_of_ne (Ne.symm object_ne_cell), update_self]
      · intro c ne
        have other := cell_ne_cell ne
        exact ⟨by rw [hcontents, update_of_ne (Ne.symm object_ne_cell), update_of_ne other],
          away _ other (Ne.symm object_ne_cell)⟩
    · intro u ne c hc'
      have apart : c.object ≠ i := by
        intro same
        have := (inv.apart t u (Ne.symm ne) _ hc c hc' same.symm).1
        cases this
      have other : Place.object c.object ≠ .object i := object_ne apart
      exact ⟨by rw [hcontents, update_of_ne other, update_of_ne object_ne_cell], away _ object_ne_cell other⟩
    · rw [Called, hc]
      exact ⟨[], by rw [hcontents, update_self], .inr ⟨data, pos, self⟩⟩

theorem pops_popStep {bytes : List UInt8} {owner : Pointer} (pops : Pops bytes owner (s.ring.thread t))
    (quiet : ∀ pos, s.ring.thread t ≠ .popMove pos) :
    ((Mpmc.popStep N s.ring t).2.isSome = true ∧ (Mpmc.popStep N s.ring t).1.thread t = .idle) ∨
      ((Mpmc.popStep N s.ring t).2.isSome = false ∧ Pops bytes owner ((Mpmc.popStep N s.ring t).1.thread t)) := by
  unfold Mpmc.popStep
  split <;> rename_i pc <;> rw [pc] at pops
  · exact .inr ⟨rfl, by simpa [Mpmc.loadRead, Pops, Mpmc.Pc.Within] using pops⟩
  · refine .inr ⟨rfl, ?_⟩
    simp only [Mpmc.popDecide, Mpmc.goto_thread_self]
    split
    · exact pops
    · split <;> exact pops
  · refine .inr ⟨rfl, ?_⟩
    simp only [Mpmc.popExchange]
    split
    · exact (congrArg (Pops bytes owner) (Mpmc.goto_thread_self ..)).mpr pops
    · simpa [Mpmc.loadRead, Pops, Mpmc.Pc.Within] using pops
  · exact .inr ⟨rfl, by simpa [Mpmc.loadRead, Pops, Mpmc.Pc.Within] using pops⟩
  · exact absurd pc (quiet _)
  · exact .inl ⟨rfl, Mpmc.goto_thread_self ..⟩
  all_goals exact pops.1.elim

theorem Inv.popQuiet (inv : Inv N inlineCapacity s) {i : Nat} (hc : s.call t = some (.pop i))
    (quiet : ∀ pos, s.ring.thread t ≠ .popMove pos) :
    Inv N inlineCapacity ⟨(Mpmc.popStep N s.ring t).1, s.world, s.after t (Mpmc.popStep N s.ring t).2.isSome⟩ := by
  have called := inv.called t
  rw [Called, hc] at called
  obtain ⟨bytes, contents, pops⟩ := called
  refine inv.goes (t := t) (reachable_popStep inv.ring t) inv.world ?_
    (fun u ne => ⟨Mpmc.popStep_thread ne, after_of_ne ne _⟩) (fun u _ c _ => ⟨rfl, rfl⟩) ?_
    (fun c hc' => .inl (mem_after hc'))
  · intro c hlt
    simp only [Stored, data_popStep quiet]
    exact inv.stored c hlt
  · unfold Called
    rcases pops_popStep (N := N) pops quiet with ⟨last, idle⟩ | ⟨more, pops'⟩
    · simp only [last, after_self]
      exact idle
    · have goesOn : s.after t false t = some (.pop i) := hc
      simp only [more, goesOn]
      exact ⟨bytes, contents, pops'⟩

/-- Until the move the target of a pop owns nothing. -/
theorem Inv.target_empty (inv : Inv N inlineCapacity s) {i pos : Nat} (hc : s.call t = some (.pop i))
    (pc : s.ring.thread t = .popMove pos) : s.world.owner (.object i) = none := by
  have called := inv.called t
  rw [Called, hc] at called
  obtain ⟨bytes, -, pops⟩ := called
  rw [pc] at pops
  exact pops.2.2

theorem Inv.move (inv : Inv N inlineCapacity s) {i : Nat} (hc : s.call t = some (.pop i)) {pos : Nat}
    (pc : s.ring.thread t = .popMove pos) :
    ∃ w, popEffect N inlineCapacity s t i = some (.ok w) ∧
      Inv N inlineCapacity ⟨Mpmc.popMove N s.ring t pos, w, s.call⟩ := by
  have known := (Mpmc.invariant.reachable inv.ring).thread t
  simp only [pc, Mpmc.PcInv] at known
  obtain ⟨-, -, -, ⟨u, bytes, element, -, -⟩, -⟩ := known
  have hlt : pos % N.size < N.size := Nat.mod_lt _ N.pos
  have contents := (inv.stored _ hlt).1
  rw [← Mpmc.cell_eq, element, Option.getD_some] at contents
  have ring : Reachable (Mpmc.system N) (Mpmc.popMove N s.ring t pos) :=
    inv.ring.step ⟨.step t, by simp [Mpmc.exec, pc]⟩
  have self : (Mpmc.popMove N s.ring t pos).thread t = .popPublish (s.ring.cell N pos).data pos :=
    Mpmc.goto_thread_self ..
  obtain ⟨w, hmove, world, hcontents, gone, away⟩ :=
    constructMove_spec inv.world object_ne_cell (inv.target_empty hc pc) contents
  have cells : (Mpmc.popMove N s.ring t pos).queue.cells =
      update s.ring.queue.cells (pos % N.size) { s.ring.cell N pos with data := none } := by
    rw [← N.and_mask]
    rfl
  refine ⟨w, ?_, inv.goes (t := t) ring world ?_ (fun u ne => ⟨Mpmc.goto_thread_of_ne ne _, rfl⟩) ?_ ?_
    (fun c hc' => .inl hc')⟩
  · simp only [popEffect, pc, N.and_mask]
    exact hmove
  · intro c hc'
    unfold Stored
    rw [cells]
    by_cases same : c = pos % N.size
    · subst same
      rw [update_self, hcontents, update_self]
      exact ⟨rfl, fun _ => gone⟩
    · rw [update_of_ne same, hcontents, update_of_ne (cell_ne_cell same), update_of_ne (Ne.symm object_ne_cell),
        away _ (Ne.symm object_ne_cell) (cell_ne_cell same)]
      exact inv.stored c hc'
  · intro u ne c hc'
    have apart : c.object ≠ i := by
      intro same
      have shares := (inv.apart t u (Ne.symm ne) _ hc c hc' same.symm).1
      cases shares
    have other : Place.object c.object ≠ .object i := object_ne apart
    exact ⟨by rw [hcontents, update_of_ne object_ne_cell, update_of_ne other], away _ other object_ne_cell⟩
  · rw [Called, hc]
    refine ⟨bytes, by rw [hcontents, update_of_ne object_ne_cell, update_self], ?_⟩
    rw [self, element]
    rfl

/-- A step of a call goes through without a fault. -/
theorem Inv.callStep (inv : Inv N inlineCapacity s) {c : Call} (hc : s.call t = some c)
    {r : Except Fault (State Tid)} (h : callStep N inlineCapacity A s t c = some r) :
    ∃ s', r = .ok s' ∧ Inv N inlineCapacity s' := by
  cases c with
  | push i rvalue =>
    by_cases constructs : ∃ data pos, s.ring.thread t = .pushConstruct data pos
    · obtain ⟨data, pos, pc⟩ := constructs
      obtain ⟨w, effect, inv'⟩ := inv.construct (A := A) hc pc
      simp only [Events.callStep, effect, Mpmc.pushStep, pc, Option.map_some, Except.map, Option.some.injEq] at h
      exact ⟨_, h.symm, inv'⟩
    · have quiet : ∀ data pos, s.ring.thread t ≠ .pushConstruct data pos :=
        fun data pos pc => constructs ⟨data, pos, pc⟩
      have effect : pushEffect N inlineCapacity A s t i rvalue = some (.ok s.world) := by
        unfold pushEffect
        split
        · rename_i pc
          exact absurd pc (quiet _ _)
        · rfl
      simp only [Events.callStep, effect, Option.map_some, Except.map, Option.some.injEq] at h
      exact ⟨_, h.symm, inv.pushQuiet hc quiet⟩
  | pop i =>
    by_cases moves : ∃ pos, s.ring.thread t = .popMove pos
    · obtain ⟨pos, pc⟩ := moves
      obtain ⟨w, effect, inv'⟩ := inv.move hc pc
      simp only [Events.callStep, effect, Mpmc.popStep, pc, Option.map_some, Except.map, Option.some.injEq] at h
      exact ⟨_, h.symm, inv'⟩
    · have quiet : ∀ pos, s.ring.thread t ≠ .popMove pos := fun pos pc => moves ⟨pos, pc⟩
      have effect : popEffect N inlineCapacity s t i = some (.ok s.world) := by
        unfold popEffect
        split
        · rename_i pc
          exact absurd pc (quiet _)
        · rfl
      simp only [Events.callStep, effect, Option.map_some, Except.map, Option.some.injEq] at h
      exact ⟨_, h.symm, inv.popQuiet hc quiet⟩

omit [DecidableEq Tid] in
theorem Called.of_pushExchange (h : Called s t) {data : List UInt8} {pos : Nat}
    (pc : s.ring.thread t = .pushExchange data pos) :
    ∃ i rvalue, s.call t = some (.push i rvalue) ∧ s.world.contents (.object i) = some data := by
  unfold Called at h
  cases hc : s.call t with
  | none =>
    rw [hc] at h
    cases pc.symm.trans h
  | some c =>
    rw [hc] at h
    cases c with
    | push i rvalue =>
      obtain ⟨bytes, contents, offers | ⟨_, _, pc'⟩⟩ := h
      · rw [pc] at offers
        exact ⟨i, rvalue, rfl, contents.trans (congrArg some offers.symm)⟩
      · cases pc.symm.trans pc'
    | pop i =>
      obtain ⟨bytes, contents, pops⟩ := h
      rw [pc] at pops
      exact pops.1.elim

omit [DecidableEq Tid] in
theorem Called.of_popExchange (h : Called s t) {pos : Nat} (pc : s.ring.thread t = .popExchange pos) :
    ∃ i, s.call t = some (.pop i) ∧ s.world.contents (.object i) = some [] ∧ s.world.owner (.object i) = none := by
  unfold Called at h
  cases hc : s.call t with
  | none =>
    rw [hc] at h
    cases pc.symm.trans h
  | some c =>
    rw [hc] at h
    cases c with
    | push i rvalue =>
      obtain ⟨bytes, contents, offers | ⟨_, _, pc'⟩⟩ := h
      · rw [pc] at offers
        exact offers.elim
      · cases pc.symm.trans pc'
    | pop i =>
      obtain ⟨bytes, contents, pops⟩ := h
      rw [pc] at pops
      obtain ⟨-, rfl, owner⟩ := pops
      exact ⟨i, rfl, contents, owner⟩

/-- A weak exchange fails: the attempt goes on with the position loaded anew. -/
theorem Inv.spurious (inv : Inv N inlineCapacity s) {ring : Mpmc.State Tid (List UInt8)}
    (h : Mpmc.exec N s.ring (.spurious t) = some ring) : Inv N inlineCapacity { s with ring } := by
  have reached := inv.ring.step ⟨_, h⟩
  cases pc : s.ring.thread t <;> simp only [Mpmc.exec, pc] at h <;> cases h
  · obtain ⟨i, rvalue, hc, contents⟩ := (inv.called t).of_pushExchange pc
    refine inv.goes (t := t) reached inv.world inv.stored (fun u ne => ⟨Mpmc.goto_thread_of_ne ne _, rfl⟩)
      (fun u _ c _ => ⟨rfl, rfl⟩) ?_ (fun c hc' => .inl hc')
    unfold Called
    simp only [hc]
    exact ⟨_, contents, .inl (by simp [Mpmc.loadWrite, Mpmc.Pc.Offers])⟩
  · obtain ⟨i, hc, contents, owner⟩ := (inv.called t).of_popExchange pc
    refine inv.goes (t := t) reached inv.world inv.stored (fun u ne => ⟨Mpmc.goto_thread_of_ne ne _, rfl⟩)
      (fun u _ c _ => ⟨rfl, rfl⟩) ?_ (fun c hc' => .inl hc')
    unfold Called
    simp only [hc]
    exact ⟨[], contents, by simpa [Mpmc.loadRead, Pops, Mpmc.Pc.Within] using owner⟩

/-! ## Beginning and ending -/

omit [DecidableEq Tid] in
theorem not_free_of_call [Fintype Tid] {c : Call} (hc : c ∈ s.call t) : s.free (.object c.object) = false := by
  simp only [State.free, decide_eq_false_iff_not]
  exact fun free => free t c hc rfl

theorem Inv.user [Fintype Tid] (inv : Inv N inlineCapacity s) {op : Op Place} (hfree : op.places.all s.free = true)
    {r : Except Fault (Memory Place)} (hrun : perform inlineCapacity A s.world.toMemory op = some r) :
    ∃ m, r = .ok m ∧ Inv N inlineCapacity { s with world := ⟨m, op.effect s.world.contents⟩ } := by
  obtain ⟨m, rfl, hworld⟩ := inv.world.perform hrun
  refine ⟨m, rfl, ?_⟩
  have same (k : Place) (hk : s.free k = false) :
      op.effect s.world.contents k = s.world.contents k ∧ Memory.owner m k = s.world.owner k := by
    have away : k ∉ op.places := by
      intro hmem
      rw [List.all_eq_true.mp hfree k hmem] at hk
      cases hk
    exact ⟨Op.effect_frame away _, by rw [Memory.owner, Memory.owner, perform_frame hrun away]⟩
  refine ⟨inv.ring, hworld, ?_, ?_, inv.apart⟩
  · intro c hlt
    obtain ⟨contents, owner⟩ := same (.cell c) rfl
    have stored := inv.stored c hlt
    exact ⟨contents.trans stored.1, fun empty => owner.trans (stored.2 empty)⟩
  · intro t
    exact (inv.called t).frame rfl rfl fun c hc => same _ (not_free_of_call hc)

theorem Inv.idle (inv : Inv N inlineCapacity s) (hc : s.call t = none) : s.ring.thread t = .idle := by
  have called := inv.called t
  rw [Called, hc] at called
  exact called

theorem Inv.beginPush [Fintype Tid] (inv : Inv N inlineCapacity s) {i : Nat} {rvalue : Bool} {b : HybridBuffer}
    (hc : s.call t = none) (hlive : s.world.buffers (.object i) = some b)
    (hfree : (if rvalue then s.free (.object i) else decide (s.shared i)) = true) :
    Inv N inlineCapacity { s with call := update s.call t (some (.push i rvalue)) } := by
  obtain ⟨bytes, contents⟩ := contents_of_live inv.world hlive
  refine inv.goes (t := t) inv.ring inv.world inv.stored (fun u ne => ⟨rfl, update_of_ne ne ..⟩)
    (fun u _ c _ => ⟨rfl, rfl⟩) ?_ ?_
  · unfold Called
    simp only [update_self]
    exact ⟨bytes, contents, .inl (by rw [inv.idle hc]; trivial)⟩
  · intro c hc'
    simp only [update_self, Option.mem_def, Option.some.injEq] at hc'
    subst hc'
    refine .inr fun u _ d hd same => ?_
    change i = d.object at same
    cases rvalue with
    | true =>
      rw [if_pos rfl, same, not_free_of_call hd] at hfree
      cases hfree
    | false =>
      rw [if_neg Bool.false_ne_true, decide_eq_true_eq] at hfree
      exact ⟨rfl, hfree u d hd same.symm⟩

theorem Inv.beginPop (inv : Inv N inlineCapacity s) {i : Nat} (hc : s.call t = none)
    (hdead : s.world.buffers (.object i) = none) :
    Inv N inlineCapacity { s with
      world := constructDefault inlineCapacity s.world (.object i) s.world.heap
      call := update s.call t (some (.pop i)) } := by
  have hnone : s.world.owner (.object i) = none := owner_of_dead hdead
  have apart {u : Tid} {c : Call} (hc' : c ∈ s.call u) : c.object ≠ i := by
    rintro rfl
    obtain ⟨bytes, contents⟩ := inv.exists_bytes hc'
    cases (inv.world.dead _ hdead).symm.trans contents
  have away {k : Place} (ne : k ≠ .object i) :
      (constructDefault inlineCapacity s.world (.object i) s.world.heap).contents k = s.world.contents k ∧
        (constructDefault inlineCapacity s.world (.object i) s.world.heap).owner k = s.world.owner k :=
    ⟨(constructDefault_of_ne ne).2, owner_put_of_ne ne⟩
  refine inv.goes (t := t) inv.ring (inv_constructDefault inv.world (hnone ▸ .refl _ _)) ?_
    (fun u ne => ⟨rfl, update_of_ne ne ..⟩) (fun u _ c hc' => away (object_ne (apart hc'))) ?_ ?_
  · intro c hlt
    obtain ⟨contents, owner⟩ := away (Ne.symm (object_ne_cell (i := i) (c := c)))
    have stored := inv.stored c hlt
    exact ⟨contents.trans stored.1, fun empty => owner.trans (stored.2 empty)⟩
  · unfold Called
    simp only [update_self, inv.idle hc]
    exact ⟨[], update_self .., trivial, rfl, owner_put_self⟩
  · intro c hc'
    simp only [update_self, Option.mem_def, Option.some.injEq] at hc'
    subst hc'
    exact .inr fun u _ d hd same => absurd same.symm (apart hd)

/-- `pop` returns without a message: its object ends, and the result is an empty buffer. -/
theorem Inv.stop (inv : Inv N inlineCapacity s) {i : Nat} {b : HybridBuffer} (hc : s.call t = some (.pop i))
    (hidle : s.ring.thread t = .idle) (hlive : s.world.buffers (.object i) = some b) :
    ∃ h, b.destroy s.world.heap = .ok h ∧
      Inv N inlineCapacity { s with
        world := constructDefault inlineCapacity s.world (.object i) h
        call := update s.call t none } := by
  obtain ⟨bytes, -, holds⟩ := inv.world.holds _ b hlive
  obtain ⟨h, hdestroy, transfer⟩ := HybridBuffer.destroy_spec holds
  rw [← owner_of_live hlive] at transfer
  refine ⟨h, hdestroy, ?_⟩
  have apart {u : Tid} (ne : u ≠ t) {c : Call} (hc' : c ∈ s.call u) : c.object ≠ i := by
    intro same
    have shares := (inv.apart t u (Ne.symm ne) _ hc c hc' same.symm).1
    cases shares
  have away {k : Place} (ne : k ≠ .object i) :
      (constructDefault inlineCapacity s.world (.object i) h).contents k = s.world.contents k ∧
        (constructDefault inlineCapacity s.world (.object i) h).owner k = s.world.owner k :=
    ⟨(constructDefault_of_ne ne).2, owner_put_of_ne ne⟩
  refine inv.goes (t := t) inv.ring (inv_constructDefault inv.world transfer) ?_
    (fun u ne => ⟨rfl, update_of_ne ne ..⟩) (fun u ne c hc' => away (object_ne (apart ne hc'))) ?_ ?_
  · intro c hlt
    obtain ⟨contents, owner⟩ := away (Ne.symm (object_ne_cell (i := i) (c := c)))
    have stored := inv.stored c hlt
    exact ⟨contents.trans stored.1, fun empty => owner.trans (stored.2 empty)⟩
  · unfold Called
    simp only [update_self]
    exact hidle
  · intro c hc'
    simp only [update_self, Option.mem_def, reduceCtorEq] at hc'

/-! ## Runs -/

theorem Inv.step [Fintype Tid] (inv : Inv N inlineCapacity s) {a : Action Tid} {r : Except Fault (State Tid)}
    (h : Events.step N inlineCapacity A s a = some r) : ∃ s', r = .ok s' ∧ Inv N inlineCapacity s' := by
  cases a with
  | user op =>
    simp only [Events.step] at h
    split at h
    · rename_i hfree
      obtain ⟨m, hrun, rfl⟩ := Option.map_eq_some_iff.mp h
      obtain ⟨m, rfl, inv'⟩ := inv.user hfree hrun
      exact ⟨_, rfl, inv'⟩
    · cases h
  | push t i rvalue =>
    simp only [Events.step] at h
    split at h
    · rename_i hc hlive
      rw [Option.ite_none_right_eq_some] at h
      obtain ⟨hfree, h⟩ := h
      cases h
      exact ⟨_, rfl, inv.beginPush hc hlive hfree⟩
    · cases h
  | pop t i =>
    simp only [Events.step] at h
    split at h
    · rename_i hc hdead
      cases h
      exact ⟨_, rfl, inv.beginPop hc hdead⟩
    · cases h
  | step t =>
    obtain ⟨c, hc, h⟩ := Option.bind_eq_some_iff.mp h
    exact inv.callStep hc h
  | spurious t =>
    obtain ⟨ring, hring, rfl⟩ := Option.map_eq_some_iff.mp h
    exact ⟨_, rfl, inv.spurious hring⟩
  | stop t =>
    simp only [Events.step] at h
    split at h
    · rename_i i hc hidle
      obtain ⟨b, hlive, rfl⟩ := Option.map_eq_some_iff.mp h
      obtain ⟨h', hdestroy, inv'⟩ := inv.stop hc hidle hlive
      exact ⟨_, by rw [hdestroy, Except.map], inv'⟩
    · cases h

theorem invariant [Fintype Tid] : Invariant (system N inlineCapacity A) fun r : Except Fault (State Tid) =>
    ∃ s, r = .ok s ∧ Inv N inlineCapacity s := by
  refine invariant_of_actions ⟨_, rfl, inv_initial⟩ ?_
  rintro _ r a ⟨s, rfl, inv⟩ h
  exact inv.step h

/-- Nothing is ever constructed over a buffer that owns a block. -/
theorem Inv.constructs_empty (inv : Inv N inlineCapacity s) {k : Place} (h : s.constructs N t = some k) :
    s.world.owner k = none := by
  unfold State.constructs at h
  split at h
  · rename_i hc pc
    cases h
    rw [N.and_mask]
    exact inv.cell_empty pc
  · rename_i hc pc
    cases h
    exact inv.target_empty hc pc
  · cases h

/-- What a pop is about to return. -/
theorem Inv.popped (inv : Inv N inlineCapacity s) {i pos : Nat} {target : Option (List UInt8)}
    (hc : s.call t = some (.pop i)) (pc : s.ring.thread t = .popPublish target pos) :
    ∃ bytes b u, target = some bytes ∧ s.world.buffers (.object i) = some b ∧
      b.finalize inlineCapacity s.world.heap = .ok (bytes.map some) ∧ (u, pos, bytes) ∈ s.ring.pushClaims := by
  have ring := Mpmc.invariant.reachable inv.ring
  have known := ring.thread t
  rw [pc] at known
  obtain ⟨-, u, v, value, pushed, -⟩ := ring.delivered _ known.2.2.2
  have called := inv.called t
  rw [Called, hc] at called
  obtain ⟨bytes, contents, pops⟩ := called
  rw [pc] at pops
  cases value.symm.trans pops
  obtain ⟨b, hlive⟩ := live_of_contents inv.world contents
  obtain ⟨_, hbytes, holds⟩ := inv.world.holds _ b hlive
  cases contents.symm.trans hbytes
  exact ⟨v, b, u, value, hlive, (HybridBuffer.finalize_spec holds).1, pushed⟩

/-- **No leaked block.** In every state reached by any number of threads in `push` and
`pop`, in every interleaving of their steps and with everything they do to their own
buffers: no step has met a memory fault, the queue is in a state of `Mpmc`, each block not
freed yet has exactly one owner, and nothing is constructed over a buffer that owns a block;
what a `pop` is about to return holds the bytes that were pushed with its ticket. -/
theorem eventBlocks_owned [Fintype Tid] {r : Except Fault (State Tid)} (h : Reachable (system N inlineCapacity A) r) :
    ∃ s, r = .ok s ∧ Reachable (Mpmc.system N) s.ring ∧ s.Clean ∧ (∀ t k, s.constructs N t = some k → s.world.owner k = none) ∧
      (∀ c < N.size, (s.ring.queue.cells c).data = none → s.world.owner (.cell c) = none) ∧
      ∀ t i target pos, s.call t = some (.pop i) → s.ring.thread t = .popPublish target pos →
        ∃ bytes b u, target = some bytes ∧ s.world.buffers (.object i) = some b ∧
          b.finalize inlineCapacity s.world.heap = .ok (bytes.map some) ∧ (u, pos, bytes) ∈ s.ring.pushClaims := by
  obtain ⟨s, rfl, inv⟩ := invariant.reachable h
  refine ⟨s, rfl, inv.ring, ?_, fun t k => inv.constructs_empty, fun c hlt => (inv.stored c hlt).2,
    fun t i target pos => inv.popped⟩
  intro p alive
  obtain ⟨k, hk⟩ := inv.world.owned.covered p alive
  exact ⟨k, hk, fun k' hk' => inv.world.owned.separate k' k p hk' hk⟩

/-- A message of five bytes, copied into a queue of two cells and moved out of it. -/
def oneMessage : List (Action (Fin 2)) :=
  [.user (.construct (.object 0)), .user (.write (.object 0) [1, 2, 3, 4, 5]), .push 0 0 false, .step 0, .step 0,
    .step 0, .step 0, .step 0, .pop 1 1, .step 1, .step 1, .step 1, .step 1]

/-- It is about to be returned, with a block of its own. -/
theorem eventBlocks_message : ∃ (s : State (Fin 2)) (b : HybridBuffer),
    Reachable (system .two 4 .bump) (.ok s) ∧ s.Clean ∧ s.world.owner (.cell 0) = none ∧
      s.world.buffers (.object 1) = some b ∧ b.isHeap = true ∧
      b.finalize 4 s.world.heap = .ok ([1, 2, 3, 4, 5].map some) := by
  have reached : Reachable (system .two 4 .bump : System (Except Fault (State (Fin 2)))) _ :=
    reachable_of_actions (start .two 4) (exec .two 4 .bump) oneMessage rfl
  obtain ⟨s, same, -, clean, -, cells, popped⟩ := eventBlocks_owned reached
  cases same
  obtain ⟨bytes, b, u, target, live, final, -⟩ := popped 1 1 _ 0 rfl rfl
  cases target
  exact ⟨_, b, reached, clean, cells 0 (by decide) rfl, live, by cases live; rfl, final⟩

end

end Erl.Queue.Events
