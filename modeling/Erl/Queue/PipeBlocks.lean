import Erl.Queue.Pipe

/-!
# Which runs of a `Pipe` leak

A cell keeps the block of its message until the next message but `N - 1` is copied over
it. So a run leaks exactly if it copies a message into a cell whose last message was in
heap mode. As long as it does not, every buffer holds its bytes, every block has one
owner, and the queue carries the bytes of the messages like the `BoundedSPSC` of `Spsc`.
-/

namespace Erl.Queue.Pipe
open TransitionSystem Message Blocks Function

section
variable {inlineCapacity : Nat} {A : Allocator} {h h' : Heap} {b b' : HybridBuffer} {bytes : List UInt8}

/-- A buffer owns a block exactly in heap mode. -/
theorem owned_isSome (holds : b.Holds inlineCapacity h bytes) : b.owned.isSome = b.isHeap := by
  cases holds with
  | inline => simp
  | heap => simp

/-- A copy is in the mode of the original. -/
theorem isHeap_copyConstruct (hcopy : HybridBuffer.copyConstruct inlineCapacity A b h = .ok (h', b')) :
    b'.isHeap = b.isHeap := by
  have hcursor : b'.cursor = b.cursor := by
    unfold HybridBuffer.copyConstruct at hcopy
    split at hcopy
    · obtain ⟨⟨ptr, capacity⟩, -, hcopy⟩ := bind_eq_ok hcopy
      obtain ⟨loaded, -, hcopy⟩ := bind_eq_ok hcopy
      obtain ⟨stored, -, hcopy⟩ := bind_eq_ok hcopy
      cases hcopy
      rfl
    · obtain ⟨loaded, -, hcopy⟩ := bind_eq_ok hcopy
      obtain ⟨storage, -, hcopy⟩ := bind_eq_ok hcopy
      cases hcopy
      rfl
  rw [HybridBuffer.isHeap, HybridBuffer.isHeap, hcursor]

variable {w : World Place} {place other : Place}

variable (place) in
/-- What constructing a copy of a live buffer comes to: the copy holds the same bytes in
the same mode, and a block of its own if it needs one. -/
theorem constructCopy_spec (inv : Message.Inv inlineCapacity w) (hsource : w.buffers other = some b) :
    ∃ h' b' bytes, constructCopy inlineCapacity A w place other =
        some (.ok ⟨w.put place (h', b'), update w.contents place (some bytes)⟩) ∧
      w.contents other = some bytes ∧ b'.Holds inlineCapacity h' bytes ∧ Transfer w.heap h' none b'.owned ∧
      b'.owned.isSome = b.isHeap := by
  obtain ⟨bytes, hcontents, holds⟩ := inv.holds other b hsource
  obtain ⟨h', b', hcopy, holds', t⟩ := HybridBuffer.copyConstruct_spec (A := A) holds
  refine ⟨h', b', bytes, ?_, hcontents, holds', t, (owned_isSome holds').trans (isHeap_copyConstruct hcopy)⟩
  rw [constructCopy, hsource, Option.map_some, hcopy, Except.map, hcontents]

/-- Over a place that owns nothing, it keeps the invariant of the buffers. -/
theorem inv_constructCopy (inv : Message.Inv inlineCapacity w) (hplace : w.owner place = none)
    (holds : b'.Holds inlineCapacity h' bytes) (t : Transfer w.heap h' none b'.owned) :
    Message.Inv inlineCapacity ⟨w.put place (h', b'), update w.contents place (some bytes)⟩ :=
  inv.put (hplace ▸ t) holds

/-- Over a place that owns a block, it leaves the block without an owner. -/
theorem leaks_constructCopy (inv : Message.Inv inlineCapacity w) {p : Nat} (hplace : w.owner place = some p)
    (t : Transfer w.heap h' none b'.owned) :
    (w.put place (h', b')).heap.block p ≠ none ∧ ∀ k, (w.put place (h', b')).owner k ≠ some p := by
  have halive : w.heap.block p ≠ none := inv.owned.live place p hplace
  obtain ⟨hkept, haway⟩ := t.kept p halive nofun
  refine ⟨hkept ▸ halive, ?_⟩
  intro k
  show Memory.owner ⟨h', update w.buffers place (some b')⟩ k ≠ some p
  rw [owner_update]
  by_cases hk : k = place
  · rw [hk, update_self]
    exact haway
  · rw [update_of_ne hk]
    exact fun hsame => hk (inv.owned.separate k place p hsame hplace)

theorem owner_put_self : (w.put place (h', b')).owner place = b'.owned := by
  show ((update w.buffers place (some b')) place).bind HybridBuffer.owned = b'.owned
  rw [update_self, Option.bind_some]

theorem owner_put_of_ne {k : Place} (ne : k ≠ place) : (w.put place (h', b')).owner k = w.owner k := by
  show ((update w.buffers place (some b')) k).bind HybridBuffer.owned = (w.buffers k).bind HybridBuffer.owned
  rw [update_of_ne ne]

/-- The other places. -/
theorem put_of_ne {k : Place} (ne : k ≠ place) (c : Option (List UInt8)) :
    (w.put place (h', b')).buffers k = w.buffers k ∧ update w.contents place c k = w.contents k :=
  ⟨update_of_ne ne .., update_of_ne ne ..⟩

theorem live_of_contents (inv : Message.Inv inlineCapacity w) {k : Place} (hcontents : w.contents k = some bytes) :
    ∃ b, w.buffers k = some b := by
  cases hlive : w.buffers k with
  | none => cases (inv.dead k hlive).symm.trans hcontents
  | some b => exact ⟨b, rfl⟩

theorem contents_of_live (inv : Message.Inv inlineCapacity w) {k : Place} (hlive : w.buffers k = some b) :
    ∃ bytes, w.contents k = some bytes := by
  obtain ⟨bytes, hcontents, -⟩ := inv.holds k b hlive
  exact ⟨bytes, hcontents⟩

theorem clean_of_owned {s : State} (owned : Owned s.world.heap s.world.owner) : s.Clean := by
  intro p halive
  obtain ⟨k, hk⟩ := owned.covered p halive
  exact ⟨k, hk, fun k' hk' => owned.separate k' k p hk' hk⟩

end

/-! ## The invariant -/

/-- The message is in its cell, but its position is not published yet. -/
def inFlight : Spsc.Producer (List UInt8) → Nat
  | .publish _ _ => 1
  | _ => 0

section
variable (N : Ring.Size) (inlineCapacity : Nat)

/-- The argument of `push` holds the bytes the attempt is about. -/
def SourceInv (s : State) : Prop :=
  match s.source with
  | none => s.ring.producer = .idle
  | some i => ∃ bytes, s.world.contents (.object i) = some bytes ∧
    match s.ring.producer with
    | .idle => True
    | .reload data _ | .construct data _ | .publish data _ => data = bytes

/-- `obj` is empty and owns nothing until a message is copied over it. -/
def TargetInv (s : State) : Prop :=
  match s.target with
  | none => s.ring.consumer = .idle
  | some i =>
    match s.ring.consumer with
    | .publish value _ => s.world.contents (.object i) = some value
    | _ => s.world.contents (.object i) = some [] ∧ s.world.owner (.object i) = none

/-- A cell has the contents of its slot and a block if its last message had one. -/
structure Inv (s : State) : Prop where
  ring : Spsc.Inv N s.ring
  world : Message.Inv inlineCapacity s.world
  stored : ∀ i, i < N.size → s.world.contents (.cell i) = some (s.ring.queue.buffer i)
  source : SourceInv s
  target : TargetInv s
  apart : ∀ i, s.source = some i → s.target ≠ some i
  count : s.copied.length = s.ring.pushed.length + inFlight s.ring.producer
  lap : ∀ n m, s.copied[n]? = some m → s.copied.length ≤ n + N.size →
    (s.world.owner (.cell (n % N.size))).isSome = m.isHeap
  fresh : ∀ i, s.copied.length ≤ i → s.world.owner (.cell i) = none

end

section
variable {N : Ring.Size} {inlineCapacity : Nat} {A : Allocator} {s : State}

theorem owner_initial (k : Place) : (State.initial N inlineCapacity).world.owner k = none := by
  cases k with
  | object i => rfl
  | cell i =>
    simp only [Memory.owner, State.initial]
    split <;> rfl

theorem inv_initial : Inv N inlineCapacity (State.initial N inlineCapacity) where
  ring := Spsc.inv_start N
  world := by
    constructor
    · intro k b hlive
      cases k with
      | object i => cases hlive
      | cell i =>
        simp only [State.initial] at hlive ⊢
        split at hlive
        · rename_i hlt
          cases hlive
          exact ⟨[], if_pos hlt, HybridBuffer.construct_spec _⟩
        · cases hlive
    · intro k hdead
      cases k with
      | object i => rfl
      | cell i =>
        simp only [State.initial] at hdead ⊢
        split at hdead
        · cases hdead
        · rename_i hge
          exact if_neg hge
    · have hnone : (State.initial N inlineCapacity).world.owner = fun _ => none := funext owner_initial
      rw [hnone]
      exact owned_empty
  stored i hlt := if_pos hlt
  source := rfl
  target := rfl
  apart i h := by cases h
  count := rfl
  lap n m h := by cases h
  fresh i _ := owner_initial _

/-- Steps that leave the cells alone. -/
theorem Inv.frame (inv : Inv N inlineCapacity s) {s' : State} (ring : Spsc.Inv N s'.ring)
    (world : Message.Inv inlineCapacity s'.world)
    (cells : ∀ i, s'.world.buffers (.cell i) = s.world.buffers (.cell i) ∧
      s'.world.contents (.cell i) = s.world.contents (.cell i))
    (slots : s'.ring.queue.buffer = s.ring.queue.buffer) (copied : s'.copied = s.copied)
    (count : s'.ring.pushed.length + inFlight s'.ring.producer = s.ring.pushed.length + inFlight s.ring.producer)
    (source : SourceInv s') (target : TargetInv s') (apart : ∀ i, s'.source = some i → s'.target ≠ some i) :
    Inv N inlineCapacity s' := by
  have howner (i : Nat) : s'.world.owner (.cell i) = s.world.owner (.cell i) := by
    rw [Memory.owner, Memory.owner, (cells i).1]
  refine ⟨ring, world, ?_, source, target, apart, ?_, ?_, ?_⟩
  · intro i hlt
    rw [(cells i).2, slots]
    exact inv.stored i hlt
  · rw [copied, count]
    exact inv.count
  · rw [copied]
    intro n m hn hlap
    rw [howner]
    exact inv.lap n m hn hlap
  · rw [copied]
    intro i hle
    rw [howner]
    exact inv.fresh i hle

theorem SourceInv.frame (h : SourceInv s) {s' : State} (source : s'.source = s.source)
    (producer : s'.ring.producer = s.ring.producer)
    (contents : ∀ i, s.source = some i → s'.world.contents (.object i) = s.world.contents (.object i)) : SourceInv s' := by
  unfold SourceInv at h ⊢
  rw [source, producer]
  cases hs : s.source with
  | none => simpa only [hs] using h
  | some i => simpa only [hs, contents i hs] using h

theorem TargetInv.frame (h : TargetInv s) {s' : State} (target : s'.target = s.target)
    (consumer : s'.ring.consumer = s.ring.consumer)
    (objects : ∀ i, s.target = some i → s'.world.buffers (.object i) = s.world.buffers (.object i) ∧
      s'.world.contents (.object i) = s.world.contents (.object i)) : TargetInv s' := by
  unfold TargetInv at h ⊢
  rw [target, consumer]
  cases ht : s.target with
  | none => simpa only [ht] using h
  | some i => simpa only [ht, Memory.owner, objects i ht] using h

/-- The argument of `push` is alive. -/
theorem SourceInv.exists_contents (h : SourceInv s) {i : Nat} (hs : s.source = some i) :
    ∃ bytes, s.world.contents (.object i) = some bytes := by
  simp only [SourceInv, hs] at h
  obtain ⟨bytes, hcontents, -⟩ := h
  exact ⟨bytes, hcontents⟩

theorem not_free_source {i : Nat} (h : s.source = some i) : s.free (.object i) = false := by
  simp [State.free, h]

theorem not_free_target {i : Nat} (h : s.target = some i) : s.free (.object i) = false := by
  simp [State.free, h]

/-- Operations of the users on objects that no call is working with. -/
theorem Inv.user (inv : Inv N inlineCapacity s) {op : Op Place} (hfree : op.places.all s.free = true)
    {r : Except Fault (Memory Place)} (hrun : perform inlineCapacity A s.world.toMemory op = some r) :
    ∃ m, r = .ok m ∧ Inv N inlineCapacity { s with world := ⟨m, op.effect s.world.contents⟩ } := by
  obtain ⟨m, rfl, hworld⟩ := inv.world.perform hrun
  refine ⟨m, rfl, ?_⟩
  have hsame (k : Place) (hk : s.free k = false) :
      m.buffers k = s.world.buffers k ∧ op.effect s.world.contents k = s.world.contents k := by
    have haway : k ∉ op.places := by
      intro hmem
      rw [List.all_eq_true.mp hfree k hmem] at hk
      cases hk
    exact ⟨perform_frame hrun haway, Op.effect_frame haway _⟩
  exact inv.frame inv.ring hworld (fun i => hsame (.cell i) rfl) rfl rfl rfl
    (inv.source.frame rfl rfl fun i hs => (hsame _ (not_free_source hs)).2)
    (inv.target.frame rfl rfl fun i ht => hsame _ (not_free_target ht)) inv.apart

theorem Inv.push (inv : Inv N inlineCapacity s) {i : Nat} {b : HybridBuffer} (hidle : s.source = none)
    (hlive : s.world.buffers (.object i) = some b) (hapart : s.target ≠ some i) :
    Inv N inlineCapacity { s with source := some i } := by
  have hsource := inv.source
  simp only [SourceInv, hidle] at hsource
  obtain ⟨bytes, hcontents⟩ := contents_of_live inv.world hlive
  refine inv.frame inv.ring inv.world (fun _ => ⟨rfl, rfl⟩) rfl rfl rfl ?_ inv.target ?_
  · simp only [SourceInv, hsource]
    exact ⟨bytes, hcontents, trivial⟩
  · rintro j hj
    cases hj
    exact hapart

/-- An object that owns nothing is constructed, or again. -/
theorem inv_constructDefault {w : World Place} {k : Place} {h : Heap} (inv : Message.Inv inlineCapacity w)
    (t : Transfer w.heap h (w.owner k) none) : Message.Inv inlineCapacity (constructDefault inlineCapacity w k h) :=
  inv.put (t.trans (HybridBuffer.transfer_inline (n := 0))) (HybridBuffer.construct_spec _)

theorem constructDefault_of_ne {w : World Place} {k j : Place} {h : Heap} (ne : j ≠ k) :
    (constructDefault inlineCapacity w k h).buffers j = w.buffers j ∧
      (constructDefault inlineCapacity w k h).contents j = w.contents j :=
  put_of_ne ne _

theorem object_ne {i j : Nat} (ne : i ≠ j) : Place.object i ≠ .object j := by
  rintro ⟨⟩
  exact ne rfl

theorem Inv.pop (inv : Inv N inlineCapacity s) {i : Nat} (hidle : s.target = none)
    (hdead : s.world.buffers (.object i) = none) :
    Inv N inlineCapacity
      { s with world := constructDefault inlineCapacity s.world (.object i) s.world.heap, target := some i } := by
  have htarget := inv.target
  simp only [TargetInv, hidle] at htarget
  have hnone : s.world.owner (.object i) = none := owner_of_dead hdead
  have hapart (j : Nat) (hj : s.source = some j) : j ≠ i := by
    rintro rfl
    obtain ⟨bytes, hcontents⟩ := inv.source.exists_contents hj
    cases (inv.world.dead _ hdead).symm.trans hcontents
  refine inv.frame inv.ring (inv_constructDefault inv.world (hnone ▸ .refl _ _))
    (fun j => constructDefault_of_ne (by rintro ⟨⟩)) rfl rfl rfl
    (inv.source.frame rfl rfl fun j hj => (constructDefault_of_ne (object_ne (hapart j hj))).2) ?_ ?_
  · simp only [TargetInv, htarget]
    exact ⟨update_self .., owner_put_self⟩
  · rintro j hj ⟨⟩
    exact hapart i hj rfl

theorem Inv.stop (inv : Inv N inlineCapacity s) {i : Nat} {b : HybridBuffer} (ht : s.target = some i)
    (hidle : s.ring.consumer = .idle) (hlive : s.world.buffers (.object i) = some b) :
    ∃ h, b.destroy s.world.heap = .ok h ∧
      Inv N inlineCapacity { s with world := constructDefault inlineCapacity s.world (.object i) h, target := none } := by
  obtain ⟨bytes, -, holds⟩ := inv.world.holds _ b hlive
  obtain ⟨h, hdestroy, t⟩ := HybridBuffer.destroy_spec holds
  rw [← owner_of_live hlive] at t
  refine ⟨h, hdestroy, ?_⟩
  have hapart (j : Nat) (hj : s.source = some j) : j ≠ i := by
    rintro rfl
    exact inv.apart j hj ht
  exact inv.frame inv.ring (inv_constructDefault inv.world t) (fun j => constructDefault_of_ne (by rintro ⟨⟩)) rfl rfl rfl
    (inv.source.frame rfl rfl fun j hj => (constructDefault_of_ne (object_ne (hapart j hj))).2) hidle nofun

/-! ## Attempts to push -/

theorem Inv.beginPush (inv : Inv N inlineCapacity s) {i : Nat} (hs : s.source = some i)
    (hpc : s.ring.producer = .idle) :
    Inv N inlineCapacity
      { s with ring := Spsc.beginPush N s.ring ((s.world.contents (.object i)).getD []) } := by
  obtain ⟨bytes, hcontents⟩ := inv.source.exists_contents hs
  refine inv.frame (inv.ring.beginPush _) inv.world (fun _ => ⟨rfl, rfl⟩) rfl rfl ?_ ?_ inv.target inv.apart
  · simp only [Spsc.beginPush, hpc]
    split <;> rfl
  · simp only [SourceInv, hs, Spsc.beginPush, hcontents, Option.getD_some]
    refine ⟨bytes, rfl, ?_⟩
    by_cases hfull : (s.ring.queue.writePos + 1) &&& N.mask = s.ring.queue.readPosCached
    · simp only [hfull, if_true]
    · simp only [hfull, if_false]

theorem Inv.reloadRead (inv : Inv N inlineCapacity s) {i pos : Nat} {data : List UInt8} (hs : s.source = some i)
    (hpc : s.ring.producer = .reload data pos) :
    Inv N inlineCapacity { s with ring := Spsc.reloadRead N s.ring data pos } := by
  have hsource := inv.source
  simp only [SourceInv, hs, hpc] at hsource
  refine inv.frame (inv.ring.reloadRead hpc) inv.world (fun _ => ⟨rfl, rfl⟩) rfl rfl ?_ ?_ inv.target inv.apart
  · simp only [Spsc.reloadRead, hpc]
    split <;> rfl
  · simp only [SourceInv, hs, Spsc.reloadRead]
    obtain ⟨bytes, hcontents, hdata⟩ := hsource
    refine ⟨bytes, hcontents, ?_⟩
    by_cases hfull : (pos + 1) &&& N.mask = s.ring.queue.readPos
    · simp only [hfull, if_true]
    · simp only [hfull, if_false]
      exact hdata

theorem Inv.publishPush (inv : Inv N inlineCapacity s) {pos : Nat} {data : List UInt8}
    (hpc : s.ring.producer = .publish data pos) :
    Inv N inlineCapacity { s with ring := Spsc.publishPush N s.ring data pos, source := none } := by
  refine inv.frame (inv.ring.publishPush hpc) inv.world (fun _ => ⟨rfl, rfl⟩) rfl rfl ?_ rfl inv.target nofun
  simp only [Spsc.publishPush, hpc, inFlight, List.length_append, List.length_singleton]

/-- The slot of the message being copied. -/
theorem Inv.pos_eq (inv : Inv N inlineCapacity s) {pos : Nat} {data : List UInt8}
    (hpc : s.ring.producer = .construct data pos) : pos = s.copied.length % N.size := by
  have hknown := inv.ring.producer
  simp only [Spsc.ProducerInv, hpc] at hknown
  rw [inv.count, hpc]
  exact hknown.1

/-- The cell about to be constructed owns a block exactly if the message copied there a lap
before was in heap mode. -/
theorem Inv.owner_pos (inv : Inv N inlineCapacity s) {pos : Nat} {data : List UInt8}
    (hpc : s.ring.producer = .construct data pos) :
    s.world.owner (.cell pos) = none ↔ LapInline N (.ok s) .producer := by
  have hpos := inv.pos_eq hpc
  have hn := N.pos
  constructor
  · rintro hnone s' data' pos' m ⟨⟩ - hpc' hlap hm
    have hslot : (s.copied.length - N.size) % N.size = pos := by
      rw [hpos, ← Nat.add_mod_right (s.copied.length - N.size) N.size, Nat.sub_add_cancel hlap]
    have howner := inv.lap _ m hm (by omega)
    rw [hslot, hnone] at howner
    exact howner.symm
  · intro hinline
    rcases Nat.lt_or_ge s.copied.length N.size with hfirst | hlap
    · apply inv.fresh
      rw [hpos, Nat.mod_eq_of_lt hfirst]
    · have hlt : s.copied.length - N.size < s.copied.length := by omega
      have hm := List.getElem?_eq_getElem hlt
      have hslot : (s.copied.length - N.size) % N.size = pos := by
        rw [hpos, ← Nat.add_mod_right (s.copied.length - N.size) N.size, Nat.sub_add_cancel hlap]
      have howner := inv.lap _ _ hm (by omega)
      rw [hslot, hinline s data pos _ rfl rfl hpc hlap hm] at howner
      exact Option.not_isSome_iff_eq_none.mp (by simp [howner])

/-- One more message is copied: each cell of the last lap owns what its message needs. -/
theorem Inv.lap_copied (inv : Inv N inlineCapacity s) {owner : Place → Pointer} {pos : Nat} {b : HybridBuffer}
    (hpos : pos = s.copied.length % N.size) (hself : (owner (.cell pos)).isSome = b.isHeap)
    (hother : ∀ i, i ≠ pos → owner (.cell i) = s.world.owner (.cell i)) :
    ∀ n m, (s.copied ++ [b])[n]? = some m → (s.copied ++ [b]).length ≤ n + N.size →
      (owner (.cell (n % N.size))).isSome = m.isHeap := by
  intro n m hn hlap
  rw [List.length_append, List.length_singleton] at hlap
  by_cases hlast : n = s.copied.length
  · rw [hlast, List.getElem?_concat_length] at hn
    cases hn
    rw [hlast, ← hpos]
    exact hself
  · have hlt : n < (s.copied ++ [b]).length := (List.getElem?_eq_some_iff.mp hn).1
    rw [List.length_append, List.length_singleton] at hlt
    rw [List.getElem?_append_left (by omega)] at hn
    have hslot : n % N.size ≠ pos := by
      intro hsame
      rw [hpos] at hsame
      exact hlast (Ring.eq_of_slot_eq n (Nat.le_refl _) (by omega) (by omega) (by omega) hsame)
    rw [hother _ hslot]
    exact inv.lap n m hn (by omega)

theorem Inv.fresh_copied (inv : Inv N inlineCapacity s) {owner : Place → Pointer} {pos : Nat} {b : HybridBuffer}
    (hpos : pos = s.copied.length % N.size) (hother : ∀ i, i ≠ pos → owner (.cell i) = s.world.owner (.cell i)) :
    ∀ i, (s.copied ++ [b]).length ≤ i → owner (.cell i) = none := by
  intro i hi
  rw [List.length_append, List.length_singleton] at hi
  have hle : pos ≤ s.copied.length := hpos ▸ Nat.mod_le ..
  rw [hother i (by omega)]
  exact inv.fresh i (by omega)

/-- `try_push` constructs a copy of the message over the cell. -/
theorem Inv.construct (inv : Inv N inlineCapacity s) {i pos : Nat} {data : List UInt8} (hs : s.source = some i)
    (hpc : s.ring.producer = .construct data pos) {r : Except Fault State}
    (hstep : producerStep N inlineCapacity A s i = some r) :
    ∃ s', r = .ok s' ∧ (s.world.owner (.cell pos) = none → Inv N inlineCapacity s') ∧
      (s.world.owner (.cell pos) ≠ none → ¬ s'.Clean) := by
  have hsource := inv.source
  simp only [SourceInv, hs, hpc] at hsource
  obtain ⟨_, hcontents, rfl⟩ := hsource
  obtain ⟨b, hlive⟩ := live_of_contents inv.world hcontents
  obtain ⟨h', b', bytes, hcopy, hbytes, holds, t, hmode⟩ := constructCopy_spec (A := A) (.cell pos) inv.world hlive
  cases hcontents.symm.trans hbytes
  simp only [producerStep, hpc, hcopy, hlive, Option.map_some, Except.map, Option.toList_some, Option.some.injEq] at hstep
  refine ⟨_, hstep.symm, ?_, ?_⟩
  · intro hnone
    have hpos := inv.pos_eq hpc
    have howners (j : Nat) (hj : j ≠ pos) :
        (s.world.put (.cell pos) (h', b')).owner (.cell j) = s.world.owner (.cell j) :=
      owner_put_of_ne (by rintro ⟨⟩; exact hj rfl)
    constructor
    · exact inv.ring.constructElement hpc
    · exact inv_constructCopy inv.world hnone holds t
    · intro j hlt
      show update s.world.contents (.cell pos) (some data) (.cell j) = some (update s.ring.queue.buffer pos data j)
      by_cases hj : j = pos
      · rw [hj, update_self, update_self]
      · rw [update_of_ne (by rintro ⟨⟩; exact hj rfl), update_of_ne hj]
        exact inv.stored j hlt
    · simp only [SourceInv, hs, Spsc.constructElement]
      exact ⟨data, (update_of_ne (by rintro ⟨⟩) ..).trans hcontents, rfl⟩
    · exact inv.target.frame rfl rfl fun j _ => put_of_ne (by rintro ⟨⟩) (some data)
    · exact inv.apart
    · have hcount := inv.count
      rw [hpc] at hcount
      simp only [Spsc.constructElement, inFlight, List.length_append, List.length_singleton] at hcount ⊢
      omega
    · exact inv.lap_copied hpos ((congrArg Option.isSome owner_put_self).trans hmode) howners
    · exact inv.fresh_copied hpos howners
  · intro hsome hclean
    obtain ⟨p, hp⟩ := Option.ne_none_iff_exists'.mp hsome
    obtain ⟨halive, hlost⟩ := leaks_constructCopy inv.world hp t
    obtain ⟨k, hk, -⟩ := hclean p halive
    exact hlost k hk

theorem Inv.beginPop (inv : Inv N inlineCapacity s) {i : Nat} (ht : s.target = some i) (hpc : s.ring.consumer = .idle) :
    Inv N inlineCapacity { s with ring := Spsc.beginPop s.ring } := by
  have htarget := inv.target
  simp only [TargetInv, ht, hpc] at htarget
  refine inv.frame inv.ring.beginPop inv.world (fun _ => ⟨rfl, rfl⟩) rfl rfl rfl inv.source ?_ inv.apart
  simp only [TargetInv, ht, Spsc.beginPop]
  by_cases hempty : s.ring.queue.readPos = s.ring.queue.writePosCached
  · simp only [hempty, if_true]
    exact htarget
  · simp only [hempty, if_false]
    exact htarget

theorem Inv.reloadWrite (inv : Inv N inlineCapacity s) {i pos : Nat} (ht : s.target = some i)
    (hpc : s.ring.consumer = .reload pos) : Inv N inlineCapacity { s with ring := Spsc.reloadWrite s.ring pos } := by
  have htarget := inv.target
  simp only [TargetInv, ht, hpc] at htarget
  refine inv.frame (inv.ring.reloadWrite hpc) inv.world (fun _ => ⟨rfl, rfl⟩) rfl rfl rfl inv.source ?_ inv.apart
  simp only [TargetInv, ht, Spsc.reloadWrite]
  by_cases hempty : pos = s.ring.queue.writePos
  · simp only [hempty, if_true]
    exact htarget
  · simp only [hempty, if_false]
    exact htarget

theorem Inv.publishPop (inv : Inv N inlineCapacity s) {pos : Nat} {value : List UInt8}
    (hpc : s.ring.consumer = .publish value pos) :
    Inv N inlineCapacity { s with ring := Spsc.publishPop N s.ring value pos, target := none } :=
  inv.frame (inv.ring.publishPop hpc) inv.world (fun _ => ⟨rfl, rfl⟩) rfl rfl rfl inv.source rfl (fun _ _ => nofun)

/-- `try_pop` constructs a copy of the cell over `obj`, which owns nothing. -/
theorem Inv.copy (inv : Inv N inlineCapacity s) {i pos : Nat} (ht : s.target = some i)
    (hpc : s.ring.consumer = .copy pos) {r : Except Fault State}
    (hstep : consumerStep N inlineCapacity A s i = some r) :
    ∃ s', r = .ok s' ∧ Inv N inlineCapacity s' := by
  have htarget := inv.target
  simp only [TargetInv, ht, hpc] at htarget
  have hknown := inv.ring.consumer
  simp only [Spsc.ConsumerInv, hpc] at hknown
  have hlt : pos < N.size := hknown.1 ▸ Nat.mod_lt _ N.pos
  have hcell := inv.stored pos hlt
  obtain ⟨b, hlive⟩ := live_of_contents inv.world hcell
  obtain ⟨h', b', bytes, hcopy, hbytes, holds, t, -⟩ := constructCopy_spec (A := A) (.object i) inv.world hlive
  cases hcell.symm.trans hbytes
  simp only [consumerStep, hpc, hcopy, Option.map_some, Except.map, Option.some.injEq] at hstep
  refine ⟨_, hstep.symm, ?_⟩
  have hapart (j : Nat) (hj : s.source = some j) : Place.object j ≠ .object i := by
    rintro ⟨⟩
    exact inv.apart i hj ht
  have hother {k : Place} (ne : k ≠ .object i) :
      (s.world.put (.object i) (h', b')).buffers k = s.world.buffers k ∧
        update s.world.contents (.object i) (some (s.ring.queue.buffer pos)) k = s.world.contents k := put_of_ne ne _
  refine inv.frame (inv.ring.copyElement hpc) (inv_constructCopy inv.world htarget.2 holds t)
    (fun j => hother (by rintro ⟨⟩)) rfl rfl rfl (inv.source.frame rfl rfl fun j hj => (hother (hapart j hj)).2) ?_
    inv.apart
  simp only [TargetInv, ht, Spsc.copyElement]
  exact update_self ..

/-! ## Every step -/

/-- The construction of a cell keeps the invariant if the cell owns nothing, and leaks
otherwise. The producer's other steps keep it, and construct nothing. -/
theorem Inv.producer_cases (inv : Inv N inlineCapacity s) {i : Nat} (hs : s.source = some i) {r : Except Fault State}
    (hstep : producerStep N inlineCapacity A s i = some r) :
    (∃ data pos s', s.ring.producer = .construct data pos ∧ r = .ok s' ∧
      (s.world.owner (.cell pos) = none → Inv N inlineCapacity s') ∧
      (s.world.owner (.cell pos) ≠ none → ¬ s'.Clean)) ∨
    ((∀ data pos, s.ring.producer ≠ .construct data pos) ∧
      (∃ s', r = .ok s' ∧ Inv N inlineCapacity s') ∧ s.constructs .producer = none) := by
  cases hpc : s.ring.producer with
  | idle =>
    right
    simp only [producerStep, hpc, Option.some.injEq] at hstep
    exact ⟨by rintro _ _ ⟨⟩, ⟨_, hstep.symm, inv.beginPush hs hpc⟩, by rw [State.constructs, hpc]⟩
  | reload data pos =>
    right
    simp only [producerStep, hpc, Option.some.injEq] at hstep
    exact ⟨by rintro _ _ ⟨⟩, ⟨_, hstep.symm, inv.reloadRead hs hpc⟩, by rw [State.constructs, hpc]⟩
  | construct data pos =>
    left
    obtain ⟨s', hr, hkeeps, hleaks⟩ := inv.construct hs hpc hstep
    exact ⟨data, pos, s', rfl, hr, hkeeps, hleaks⟩
  | publish data pos =>
    right
    simp only [producerStep, hpc, Option.some.injEq] at hstep
    exact ⟨by rintro _ _ ⟨⟩, ⟨_, hstep.symm, inv.publishPush hpc⟩, by rw [State.constructs, hpc]⟩

/-- The consumer's steps keep it, and construct over nothing that owns a block. -/
theorem Inv.consumer_step (inv : Inv N inlineCapacity s) {i : Nat} (ht : s.target = some i) {r : Except Fault State}
    (hstep : consumerStep N inlineCapacity A s i = some r) :
    (∃ s', r = .ok s' ∧ Inv N inlineCapacity s') ∧ ∀ k, s.constructs .consumer = some k → s.world.owner k = none := by
  cases hpc : s.ring.consumer with
  | idle =>
    simp only [consumerStep, hpc, Option.some.injEq] at hstep
    exact ⟨⟨_, hstep.symm, inv.beginPop ht hpc⟩, by simp [State.constructs, hpc]⟩
  | reload pos =>
    simp only [consumerStep, hpc, Option.some.injEq] at hstep
    exact ⟨⟨_, hstep.symm, inv.reloadWrite ht hpc⟩, by simp [State.constructs, hpc]⟩
  | copy pos =>
    refine ⟨inv.copy ht hpc hstep, ?_⟩
    have htarget := inv.target
    simp only [TargetInv, ht, hpc] at htarget
    simp only [State.constructs, hpc, ht, Option.map_some, Option.some.injEq]
    rintro k rfl
    exact htarget.2
  | publish value pos =>
    simp only [consumerStep, hpc, Option.some.injEq] at hstep
    exact ⟨⟨_, hstep.symm, inv.publishPop hpc⟩, by simp [State.constructs, hpc]⟩

/-- So it is with the steps of all parties. -/
theorem Inv.step_cases (inv : Inv N inlineCapacity s) {a : Action} {r : Except Fault State}
    (hstep : step N inlineCapacity A s a = some r) :
    (∃ data pos s', a = .producer ∧ s.ring.producer = .construct data pos ∧ r = .ok s' ∧
      (s.world.owner (.cell pos) = none → Inv N inlineCapacity s') ∧
      (s.world.owner (.cell pos) ≠ none → ¬ s'.Clean)) ∨
    ((a = .producer → ∀ data pos, s.ring.producer ≠ .construct data pos) ∧
      (∃ s', r = .ok s' ∧ Inv N inlineCapacity s') ∧ ∀ k, s.constructs a = some k → s.world.owner k = none) := by
  cases a with
  | user op =>
    right
    refine ⟨by rintro ⟨⟩, ?_, by rintro k ⟨⟩⟩
    simp only [step] at hstep
    split at hstep
    · rename_i hfree
      obtain ⟨m, hrun, rfl⟩ := Option.map_eq_some_iff.mp hstep
      obtain ⟨m, rfl, inv'⟩ := inv.user hfree hrun
      exact ⟨_, rfl, inv'⟩
    · cases hstep
  | push i =>
    right
    refine ⟨by rintro ⟨⟩, ?_, by rintro k ⟨⟩⟩
    simp only [step] at hstep
    split at hstep
    · rename_i hidle hlive
      split at hstep
      · rename_i hapart
        cases hstep
        exact ⟨_, rfl, inv.push hidle hlive hapart⟩
      · cases hstep
    · cases hstep
  | producer =>
    obtain ⟨i, hs, hstep⟩ := Option.bind_eq_some_iff.mp hstep
    rcases inv.producer_cases hs hstep with ⟨data, pos, s', hpc, hr, hkeeps, hleaks⟩ | ⟨hother, hkept, hnone⟩
    · exact .inl ⟨data, pos, s', rfl, hpc, hr, hkeeps, hleaks⟩
    · refine .inr ⟨fun _ => hother, hkept, ?_⟩
      rw [hnone]
      rintro k ⟨⟩
  | pop i =>
    right
    refine ⟨by rintro ⟨⟩, ?_, by rintro k ⟨⟩⟩
    simp only [step] at hstep
    split at hstep
    · rename_i hidle hdead
      cases hstep
      exact ⟨_, rfl, inv.pop hidle hdead⟩
    · cases hstep
  | consumer =>
    obtain ⟨i, ht, hstep⟩ := Option.bind_eq_some_iff.mp hstep
    exact .inr ⟨by rintro ⟨⟩, inv.consumer_step ht hstep⟩
  | stop =>
    right
    refine ⟨by rintro ⟨⟩, ?_, by rintro k ⟨⟩⟩
    simp only [step] at hstep
    split at hstep
    · rename_i i ht hidle
      obtain ⟨b, hlive, rfl⟩ := Option.map_eq_some_iff.mp hstep
      obtain ⟨h, hdestroy, inv'⟩ := inv.stop ht hidle hlive
      exact ⟨_, by rw [hdestroy, Except.map], inv'⟩
    · cases hstep

theorem Inv.cleanStep {a : Action} {s' : State} (inv' : Inv N inlineCapacity s')
    (hplace : ∀ k, s.constructs a = some k → s.world.owner k = none) : CleanStep (.ok s) a (.ok s') :=
  ⟨s, s', rfl, rfl, clean_of_owned inv'.world.owned, hplace⟩

/-- A step is clean exactly if the lap before was inline, and then keeps the invariant. -/
theorem Inv.step (inv : Inv N inlineCapacity s) {a : Action} {r : Except Fault State}
    (hstep : Pipe.step N inlineCapacity A s a = some r) :
    (LapInline N (.ok s) a → CleanStep (.ok s) a r ∧ ∃ s', r = .ok s' ∧ Inv N inlineCapacity s') ∧
      (CleanStep (.ok s) a r → LapInline N (.ok s) a) := by
  rcases inv.step_cases hstep with ⟨data, pos, s', rfl, hpc, rfl, hkeeps, hleaks⟩ | ⟨hother, ⟨s', rfl, inv'⟩, hplace⟩
  · constructor
    · intro hinline
      have hnone := (inv.owner_pos hpc).mpr hinline
      refine ⟨(hkeeps hnone).cleanStep ?_, s', rfl, hkeeps hnone⟩
      simp only [State.constructs, hpc, Option.some.injEq]
      rintro k rfl
      exact hnone
    · rintro ⟨_, _, ⟨⟩, ⟨⟩, hclean, -⟩
      apply (inv.owner_pos hpc).mp
      by_contra hsome
      exact hleaks hsome hclean
  · refine ⟨fun _ => ⟨inv'.cleanStep hplace, s', rfl, inv'⟩, ?_⟩
    rintro - t data pos m ⟨⟩ ha hpc
    exact absurd hpc (hother ha data pos)

/-- No memory fault so far, and the invariant. -/
def Sound (N : Ring.Size) (inlineCapacity : Nat) (r : Except Fault State) : Prop := ∃ s, r = .ok s ∧ Inv N inlineCapacity s

theorem sound_start : Sound N inlineCapacity (start N inlineCapacity) := ⟨_, rfl, inv_initial⟩

theorem Sound.step {r r' : Except Fault State} {a : Action} (h : Sound N inlineCapacity r)
    (hstep : exec N inlineCapacity A r a = some r') :
    (LapInline N r a → CleanStep r a r' ∧ Sound N inlineCapacity r') ∧ (CleanStep r a r' → LapInline N r a) := by
  obtain ⟨s, rfl, inv⟩ := h
  exact inv.step hstep

/-- **No leaked block.** In every run of `push` and `pop` on a queue of any size, of
messages of any sizes, in every interleaving of their steps and with everything the users
do to their own buffers: each unfreed block has exactly one owner in every state reached,
and nothing is constructed over a buffer that owns a block, exactly if no message is copied
into a cell whose last message was in heap mode. -/
theorem lossless_iff (N : Ring.Size) (inlineCapacity : Nat) (A : Allocator) (actions : List Action) :
    Lossless N inlineCapacity A actions ↔
      ∀ r a r', Takes (start N inlineCapacity) (exec N inlineCapacity A) actions r a r' → LapInline N r a := by
  have hsteps := forall_takes_iff (Sound N inlineCapacity) CleanStep (LapInline N) sound_start
    (fun _ _ _ h hstep => Sound.step (A := A) h hstep) actions
  rw [Lossless, hsteps]
  exact and_iff_right (clean_of_owned inv_initial.world.owned)

/-- Where the elements of the queue come to: what a `pop` returns holds the next bytes that
were pushed. -/
theorem delivers {actions : List Action}
    (hinline : ∀ r a r', Takes (start N inlineCapacity) (exec N inlineCapacity A) actions r a r' → LapInline N r a)
    {s' : State} {i pos : Nat} {value : List UInt8}
    (htakes : Takes (start N inlineCapacity) (exec N inlineCapacity A) actions (.ok s) .consumer (.ok s'))
    (ht : s.target = some i) (hpc : s.ring.consumer = .publish value pos) :
    s'.ring.popped = s.ring.popped ++ [value] ∧ s'.ring.popped <+: s'.ring.pushed ∧
      ∃ b, s'.world.buffers (.object i) = some b ∧ b.finalize inlineCapacity s'.world.heap = .ok (value.map some) := by
  have hkeep : ∀ r a r', Takes (start N inlineCapacity) (exec N inlineCapacity A) actions r a r' →
      Sound N inlineCapacity r → Sound N inlineCapacity r' := by
    intro r a r' h hr
    exact ((hr.step h.enabled).1 (hinline r a r' h)).2
  obtain ⟨_, ⟨⟩, inv⟩ := holds_before sound_start hkeep htakes
  obtain ⟨_, ⟨⟩, inv'⟩ := hkeep _ _ _ htakes ⟨s, rfl, inv⟩
  have hstep := htakes.enabled
  simp only [exec, Pipe.step, ht, Option.bind_some, consumerStep, hpc, Option.some.injEq, Except.ok.injEq] at hstep
  subst hstep
  have htarget := inv.target
  simp only [TargetInv, ht, hpc] at htarget
  obtain ⟨b, hlive⟩ := live_of_contents inv.world htarget
  obtain ⟨bytes, hcontents, holds⟩ := inv.world.holds _ b hlive
  cases htarget.symm.trans hcontents
  exact ⟨rfl, inv'.ring.order, b, hlive, (HybridBuffer.finalize_spec holds).1⟩

/-- A test for leaks: the step constructs over a buffer that owns a block. -/
def overwrites (r : Except Fault State) (a : Action) : Bool :=
  match r with
  | .ok s => (s.constructs a).any fun k => (s.world.owner k).isSome
  | .error _ => false

theorem not_cleanStep_of_overwrites {r r' : Except Fault State} {a : Action} (h : overwrites r a = true) :
    ¬ CleanStep r a r' := by
  rintro ⟨s, s', rfl, -, -, hplace⟩
  obtain ⟨k, hk, howner⟩ := (Option.any_eq_true _ _).mp h
  rw [hplace k hk] at howner
  cases howner

/-- Three messages in a queue of two cells, each popped before the next is pushed. The
first one has five bytes, the others none. -/
def threeMessages : List Action :=
  [.user (.construct (.object 0)), .user (.write (.object 0) [1, 2, 3, 4, 5]), .user (.construct (.object 1)),
    .push 0, .producer, .producer, .producer, .pop 2, .consumer, .consumer, .consumer, .consumer,
    .push 1, .producer, .producer, .producer, .producer, .pop 3, .consumer, .consumer, .consumer, .consumer,
    .push 1, .producer, .producer]

/-- The third message is copied over the first one, whose block is still there. -/
theorem not_lossless_threeMessages : ¬ Lossless .two 4 .bump (threeMessages ++ [.producer]) := by
  rintro ⟨-, hclean⟩
  have hrun : (threeMessages.foldlM (exec .two 4 .bump) (start .two 4)).any (fun r =>
      overwrites r .producer && (exec .two 4 .bump r .producer).isSome) = true := by decide +kernel
  obtain ⟨r, hr, hlast⟩ := (Option.any_eq_true _ _).mp hrun
  obtain ⟨hover, hnext⟩ := Bool.and_eq_true_iff.mp hlast
  obtain ⟨r', hr'⟩ := Option.isSome_iff_exists.mp hnext
  exact not_cleanStep_of_overwrites hover (hclean r .producer r' ⟨threeMessages, [], rfl, hr, hr'⟩)

end

end Erl.Queue.Pipe
