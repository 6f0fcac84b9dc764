import Erl.Queue.MpmcSafety

/-!
# `BoundedMPMC` loses, duplicates and mixes up nothing

A ticket below `write_pos` names one pushed value. The invariant says where that value
is: still with its producer, in its cell, or delivered by the pop that took the same
ticket. As pops take the tickets in order, each producer's values leave in the order in
which they were claimed.
-/

namespace Erl.Queue.Mpmc
open TransitionSystem Function

section
variable {Tid T : Type} {N : Ring.Size} {s : State Tid T}

/-- Where the value of a push ticket is. -/
inductive Whereabouts (N : Ring.Size) (s : State Tid T) (t : Tid) (p : Nat) (v : T) : Prop where
  /-- With its producer, between the winning exchange and the sequence store. -/
  | pushing (pc : s.thread t = .pushConstruct v p ∨ s.thread t = .pushPublish v p)
  /-- In its cell, for a pop that may still come or has just claimed it. -/
  | stored (claim : s.queue.readPos ≤ p ∨ ∃ u, s.thread u = .popMove p)
      (cell : (s.cell N p).sequence = p + 1 ∧ (s.cell N p).data = some v)
  | delivered (done : (p, some v) ∈ s.delivered)

theorem Inv.whereabouts_of_read (inv : Inv N s) {t : Tid} {p : Nat} {v : T} (claim : (t, p, v) ∈ s.pushClaims)
    (less : p < s.queue.readPos) : Whereabouts N s t p v := by
  rcases inv.arrived p less with ⟨d, hd, same⟩ | ⟨u, pc⟩
  · obtain ⟨-, w, x, value, pushed, -⟩ := inv.delivered d hd
    subst same
    obtain ⟨-, same⟩ := inv.pushClaim_unique claim pushed
    apply Whereabouts.delivered
    rwa [same, ← value]
  · have known := inv.thread u
    simp only [pc, PcInv] at known
    obtain ⟨-, number, -, ⟨w, x, held, pushed, -⟩, -⟩ := known
    obtain ⟨-, same⟩ := inv.pushClaim_unique claim pushed
    exact .stored (.inr ⟨u, pc⟩) ⟨number, same ▸ held⟩

theorem Inv.whereabouts_of_unread (inv : Inv N s) {t : Tid} {p : Nat} {v : T} (claim : (t, p, v) ∈ s.pushClaims)
    (less : p < s.queue.writePos) (ahead : s.queue.readPos ≤ p) : Whereabouts N s t p v := by
  have lap := inv.write_le
  cases inv.cell (p % N.size) (Nat.mod_lt _ N.pos) with
  | free q slot seq lo hi claimed =>
    have same : q = p := Ring.eq_of_slot_eq s.queue.readPos lo hi ahead (by omega) slot
    subst same
    obtain ⟨u, hu⟩ := claimed less
    have known := inv.thread u
    apply Whereabouts.pushing
    cases pc : s.thread u <;> simp only [pc, Pc.pushing, reduceCtorEq, Option.some.injEq] at hu
    all_goals
      subst hu
      simp only [pc, PcInv] at known
    · obtain ⟨rfl, rfl⟩ := inv.pushClaim_unique claim known.2.2
      exact .inl pc
    · obtain ⟨rfl, rfl⟩ := inv.pushClaim_unique claim known.2.2.1
      exact .inr pc
  | full q slot seq lo hi stored claimed =>
    have same : q = p := Ring.eq_of_slot_eq (s.queue.writePos - N.size) (by omega) (by omega) (by omega) (by omega) slot
    subst same
    obtain ⟨w, x, held, pushed, -⟩ := stored ahead
    obtain ⟨-, same⟩ := inv.pushClaim_unique claim pushed
    rw [← cell_eq] at seq held
    exact .stored (.inl ahead) ⟨seq, same ▸ held⟩

/-- No claimed value is lost. -/
theorem Inv.whereabouts (inv : Inv N s) {t : Tid} {p : Nat} {v : T} (claim : (t, p, v) ∈ s.pushClaims) :
    Whereabouts N s t p v := by
  have less : p ∈ s.pushClaims.map (·.2.1) := List.mem_map.mpr ⟨_, claim, rfl⟩
  rw [inv.pushTickets, List.mem_range] at less
  rcases Nat.lt_or_ge p s.queue.readPos with read | ahead
  · exact inv.whereabouts_of_read claim read
  · exact inv.whereabouts_of_unread claim less ahead

variable [DecidableEq Tid]

/-- What `t` pushed under ticket `p`, if the ticket is its own: tickets are the indices
of `pushClaims`. -/
def State.pushedBy (s : State Tid T) (t : Tid) (p : Nat) : Option T :=
  s.pushClaims[p]?.bind fun c => if c.1 = t then some c.2.2 else none

/-- The values `t` has won a ticket for, in the order of the winning exchanges. -/
def State.claimedPushes (s : State Tid T) (t : Tid) : List T :=
  s.pushClaims.filterMap fun c => if c.1 = t then some c.2.2 else none

/-- The values of `t` that pops have claimed, in the order of the claims. -/
def State.claimedPops (s : State Tid T) (t : Tid) : List T :=
  s.popClaims.filterMap fun c => s.pushedBy t c.2

theorem filterMap_range_getElem? {α β : Type*} (l : List α) (f : α → Option β) (n : Nat) :
    (List.range n).filterMap (fun i => l[i]?.bind f) = (l.take n).filterMap f := by
  induction n with
  | zero => rfl
  | succ n ih =>
    rw [List.range_succ, List.filterMap_append, ih, List.take_add_one, List.filterMap_append]
    cases h : l[n]? <;> simp [h, List.filterMap_cons]

/-- Pops claim each producer's values in the order in which it won their tickets. -/
theorem Inv.producer_order (inv : Inv N s) (t : Tid) : s.claimedPops t <+: s.claimedPushes t := by
  have tickets : s.claimedPops t = (List.range s.queue.readPos).filterMap (s.pushedBy t) := by
    rw [← inv.popTickets, List.filterMap_map]
    rfl
  rw [tickets]
  show (List.range _).filterMap (fun p => s.pushClaims[p]?.bind _) <+: _
  rw [filterMap_range_getElem?]
  exact (List.take_prefix ..).filterMap _

/-- **Nothing is lost, duplicated or mixed up.** In every reachable state: no two threads
work on one cell; the push tickets are `0, 1, …` without gap or repetition and the pop
tickets an initial segment of them; what a pop delivers is the finished element of the
push with its ticket, and no ticket is delivered twice; every claimed value is with its
producer, in its cell or delivered; each producer's values are claimed in order; and a pop
about to return has in its target what was delivered under the ticket it claimed. -/
theorem exchange (h : Reachable (system N) s) :
    (∀ t u c, Busy N s t c → Busy N s u c → t = u) ∧
    (s.pushClaims.map (·.2.1) = List.range s.queue.writePos ∧
      s.popClaims.map (·.2) = List.range s.queue.readPos ∧
      s.popClaims.map (·.2) <+: s.pushClaims.map (·.2.1)) ∧
    (∀ p d, (p, d) ∈ s.delivered → ∃ t v, d = some v ∧ (t, p, v) ∈ s.pushClaims ∧ (p, v) ∈ s.constructed) ∧
    (s.delivered.map (·.1)).Nodup ∧
    (∀ t p v, (t, p, v) ∈ s.pushClaims → Whereabouts N s t p v) ∧
    (∀ t, s.claimedPops t <+: s.claimedPushes t) ∧
    ∀ t target p, s.thread t = .popPublish target p → (t, p) ∈ s.popClaims ∧ (p, target) ∈ s.delivered := by
  have inv := invariant.reachable h
  refine ⟨fun t u c => inv.busy_unique, ⟨inv.pushTickets, inv.popTickets, ?_⟩, ?_, inv.once,
    fun t p v => inv.whereabouts, inv.producer_order, ?_⟩
  · rw [inv.pushTickets, inv.popTickets, List.prefix_iff_eq_take, List.length_range, List.take_range,
      Nat.min_eq_left inv.read_le]
  · intro p d hd
    obtain ⟨-, t, v, value, pushed, built⟩ := inv.delivered (p, d) hd
    exact ⟨t, v, value, pushed, built⟩
  · intro t target p pc
    have known := inv.thread t
    rw [pc] at known
    exact ⟨known.2.2.1, known.2.2.2⟩

end

/-- Two producers, of which the second finishes first, and a consumer that must wait for
the first. -/
theorem exchange_two : ∃ s : State Nat Nat, Reachable (system Ring.Size.two) s ∧
    s.pushClaims = [(0, 0, 7), (1, 1, 8)] ∧ s.popClaims = [(2, 0)] ∧ s.delivered = [(0, some 7)] ∧
    (s.delivered.map (·.1)).Nodup := by
  have reached : Reachable (system Ring.Size.two) _ :=
    reachable_of_actions (start : State Nat Nat) (exec Ring.Size.two)
      [.push 0 7, .step 0, .push 1 8, .spurious 0, .step 0, .step 0, .step 1, .step 1, .step 1, .step 1, .step 1,
        .step 1, .pop 2, .step 2, .step 0, .step 0, .pop 2, .step 2, .step 2, .step 2, .step 2] rfl
  exact ⟨_, reached, rfl, rfl, rfl, (exchange reached).2.2.2.1⟩

end Erl.Queue.Mpmc
