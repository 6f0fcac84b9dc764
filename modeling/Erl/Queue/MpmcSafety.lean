import Erl.Queue.Mpmc
import Mathlib.Data.List.Nodup

/-!
# `BoundedMPMC` is safe under every interleaving

`Inv` is preserved by each step. A thread that has won an exchange owns its cell: the
sequence number equals its ticket (push) or one more (pop), and numbers of the two
kinds never meet in one cell because consecutive positions lie in different slots.
Everything else follows from the two counters being at most one lap apart.
-/

namespace Erl.Queue.Mpmc
open TransitionSystem Function

section
variable {Tid T : Type} {N : Ring.Size} {s s' : State Tid T}

theorem cell_eq (pos : Nat) : s.cell N pos = s.queue.cells (pos % N.size) := by
  simp [State.cell]

/-! ## Ownership -/

theorem Inv.pushing (inv : Inv N s) {t : Tid} {p : Nat} (h : (s.thread t).pushing = some p) :
    p < s.queue.writePos ∧ (s.cell N p).sequence = p ∧ ∃ v, (t, p, v) ∈ s.pushClaims := by
  have known := inv.thread t
  cases pc : s.thread t <;> simp only [pc, Pc.pushing, reduceCtorEq, Option.some.injEq] at h
  all_goals
    subst h
    simp only [pc, PcInv] at known
  · exact ⟨known.1, known.2.1, _, known.2.2⟩
  · exact ⟨known.1, known.2.1, _, known.2.2.1⟩

theorem Inv.popping (inv : Inv N s) {t : Tid} {p : Nat} (h : (s.thread t).popping = some p) :
    p < s.queue.readPos ∧ (s.cell N p).sequence = p + 1 ∧ (t, p) ∈ s.popClaims := by
  have known := inv.thread t
  cases pc : s.thread t <;> simp only [pc, Pc.popping, reduceCtorEq, Option.some.injEq] at h
  all_goals
    subst h
    simp only [pc, PcInv] at known
    exact ⟨known.1, known.2.1, known.2.2.1⟩

/-- A ticket is claimed by one push. -/
theorem Inv.pushClaim_unique (inv : Inv N s) {t u : Tid} {p : Nat} {v w : T}
    (ht : (t, p, v) ∈ s.pushClaims) (hu : (u, p, w) ∈ s.pushClaims) : t = u ∧ v = w := by
  have nodup : (s.pushClaims.map (·.2.1)).Nodup := inv.pushTickets ▸ List.nodup_range
  have same := List.inj_on_of_nodup_map nodup ht hu rfl
  simp only [Prod.mk.injEq, true_and] at same
  exact same

/-- A ticket is claimed by one pop. -/
theorem Inv.popClaim_unique (inv : Inv N s) {t u : Tid} {p : Nat}
    (ht : (t, p) ∈ s.popClaims) (hu : (u, p) ∈ s.popClaims) : t = u := by
  have nodup : (s.popClaims.map (·.2)).Nodup := inv.popTickets ▸ List.nodup_range
  have same := List.inj_on_of_nodup_map nodup ht hu rfl
  simp only [Prod.mk.injEq, and_true] at same
  exact same

/-- At most one thread is busy on a cell. -/
theorem Inv.busy_unique (inv : Inv N s) {t u : Tid} {c : Nat} (ht : Busy N s t c) (hu : Busy N s u c) : t = u := by
  obtain ⟨p, rfl, hp⟩ := ht
  obtain ⟨q, slot, hq⟩ := hu
  have cells : s.cell N q = s.cell N p := by rw [cell_eq, cell_eq, slot]
  rcases hp with hp | hp <;> rcases hq with hq | hq
  · obtain ⟨-, seqP, v, mem⟩ := inv.pushing hp
    obtain ⟨-, seqQ, w, mem'⟩ := inv.pushing hq
    rw [cells, seqP] at seqQ
    subst seqQ
    exact (inv.pushClaim_unique mem mem').1
  · obtain ⟨-, seqP, -⟩ := inv.pushing hp
    obtain ⟨-, seqQ, -⟩ := inv.popping hq
    rw [cells, seqP] at seqQ
    exact absurd (seqQ ▸ slot.symm) (Ring.slot_succ_ne N.two_le q)
  · obtain ⟨-, seqP, -⟩ := inv.popping hp
    obtain ⟨-, seqQ, -⟩ := inv.pushing hq
    rw [cells, seqP] at seqQ
    exact absurd (seqQ ▸ slot) (Ring.slot_succ_ne N.two_le p)
  · obtain ⟨-, seqP, mem⟩ := inv.popping hp
    obtain ⟨-, seqQ, mem'⟩ := inv.popping hq
    rw [cells, seqP] at seqQ
    have tickets : p = q := Nat.succ.inj seqQ
    subst tickets
    exact inv.popClaim_unique mem mem'

theorem cell_setCell_self (pos : Nat) (c : Cell T) : (s.setCell N pos c).cell N pos = c := update_self ..

theorem cell_setCell_of_ne {pos q : Nat} (h : q % N.size ≠ pos % N.size) (c : Cell T) :
    (s.setCell N pos c).cell N q = s.cell N q := by
  apply update_of_ne
  simpa using h

/-- A thread holds one ticket at a time. -/
theorem Pc.ticket_unique {pc : Pc T} {p q : Nat} (hp : pc.pushing = some p ∨ pc.popping = some p)
    (hq : pc.pushing = some q ∨ pc.popping = some q) : p = q := by
  cases pc <;> simp only [Pc.pushing, Pc.popping, reduceCtorEq, or_false, false_or, Option.some.injEq] at hp hq
  all_goals exact hp.symm.trans hq

theorem ne_of_pushing {t u : Tid} {p : Nat} (idle : (s.thread t).pushing = none)
    (h : (s.thread u).pushing = some p) : u ≠ t := by
  rintro rfl
  cases idle.symm.trans h

theorem ne_of_popping {t u : Tid} {p : Nat} (idle : (s.thread t).popping = none)
    (h : (s.thread u).popping = some p) : u ≠ t := by
  rintro rfl
  cases idle.symm.trans h

/-- While a thread without a ticket moves, the others keep theirs. -/
theorem keeps_pushing {t : Tid} (idle : (s.thread t).pushing = none)
    (other : ∀ {u}, u ≠ t → s'.thread u = s.thread u) :
    ∀ u p, (s.thread u).pushing = some p → (s'.thread u).pushing = some p := by
  intro u p hu
  rw [other (ne_of_pushing idle hu), hu]

theorem keeps_popping {t : Tid} (idle : (s.thread t).popping = none)
    (other : ∀ {u}, u ≠ t → s'.thread u = s.thread u) :
    ∀ u p, (s.thread u).popping = some p → (s'.thread u).popping = some p := by
  intro u p hu
  rw [other (ne_of_popping idle hu), hu]

/-- Tickets of two threads belong to different cells. -/
theorem Inv.slot_ne (inv : Inv N s) {t u : Tid} {p q : Nat} (ne : u ≠ t)
    (ht : (s.thread t).pushing = some p ∨ (s.thread t).popping = some p)
    (hu : (s.thread u).pushing = some q ∨ (s.thread u).popping = some q) : q % N.size ≠ p % N.size :=
  fun same => ne (inv.busy_unique ⟨q, rfl, hu⟩ ⟨p, same.symm, ht⟩)

/-- When the exchange on `write_pos` wins, the cell waits for exactly this ticket. -/
theorem Inv.free_of_exchange (inv : Inv N s) {pos : Nat} (seen : pos ≤ (s.cell N pos).sequence)
    (won : s.queue.writePos = pos) :
    (s.cell N pos).sequence = pos ∧ s.queue.readPos ≤ pos ∧ pos < s.queue.readPos + N.size := by
  have order := inv.read_le
  rw [cell_eq] at seen ⊢
  cases inv.cell (pos % N.size) (Nat.mod_lt _ N.pos) with
  | free p slot seq lo hi claimed =>
    have ticket : p = pos := Ring.eq_of_slot_eq pos (by omega) (by omega) (by omega) (by omega) slot
    subst ticket
    exact ⟨seq, lo, hi⟩
  | full p slot seq lo hi stored claimed =>
    have next : p + 1 = pos := by omega
    exact absurd (next ▸ slot).symm (Ring.slot_succ_ne N.two_le p)

/-- When the exchange on `read_pos` wins, the cell holds exactly this ticket's element. -/
theorem Inv.full_of_exchange (inv : Inv N s) {pos : Nat} (seen : pos + 1 ≤ (s.cell N pos).sequence)
    (won : s.queue.readPos = pos) :
    (s.cell N pos).sequence = pos + 1 ∧ pos < s.queue.writePos ∧
      ∃ u v, (s.cell N pos).data = some v ∧ (u, pos, v) ∈ s.pushClaims ∧ (pos, v) ∈ s.constructed := by
  have lap := inv.write_le
  rw [cell_eq] at seen ⊢
  cases inv.cell (pos % N.size) (Nat.mod_lt _ N.pos) with
  | free p slot seq lo hi claimed =>
    have ticket : p = pos := Ring.eq_of_slot_eq pos (by omega) (by omega) (by omega) (by omega) slot
    omega
  | full p slot seq lo hi stored claimed =>
    have ticket : p = pos := Ring.eq_of_slot_eq pos (by omega) (by omega) (by omega) (by omega) slot
    subst ticket
    exact ⟨seq, lo, stored (Nat.le_of_eq won)⟩

/-- The cell of a push in progress waits for its ticket. -/
theorem Inv.free_of_pushing (inv : Inv N s) {t : Tid} {pos : Nat} (ticket : (s.thread t).pushing = some pos) :
    s.queue.readPos ≤ pos ∧ pos < s.queue.readPos + N.size := by
  obtain ⟨-, number, -⟩ := inv.pushing ticket
  rw [cell_eq] at number
  cases inv.cell (pos % N.size) (Nat.mod_lt _ N.pos) with
  | free p slot seq lo hi =>
    have same : p = pos := seq.symm.trans number
    exact same ▸ ⟨lo, hi⟩
  | full p slot seq =>
    have next : p + 1 = pos := seq.symm.trans number
    exact absurd (next ▸ slot).symm (Ring.slot_succ_ne N.two_le p)

/-- The cell of a pop in progress has not been claimed for the next lap. -/
theorem Inv.full_of_popping (inv : Inv N s) {t : Tid} {pos : Nat} (ticket : (s.thread t).popping = some pos) :
    pos < s.queue.writePos ∧ s.queue.writePos ≤ pos + N.size := by
  obtain ⟨-, number, -⟩ := inv.popping ticket
  rw [cell_eq] at number
  cases inv.cell (pos % N.size) (Nat.mod_lt _ N.pos) with
  | free p slot seq =>
    have next : p = pos + 1 := seq.symm.trans number
    exact absurd (next ▸ slot) (Ring.slot_succ_ne N.two_le pos)
  | full p slot seq lo hi =>
    have same : p = pos := Nat.succ.inj (seq.symm.trans number)
    exact same ▸ ⟨lo, hi⟩

/-! ## Frames -/

/-- Counters and logs only grow. -/
structure Grows (s s' : State Tid T) : Prop where
  write : s.queue.writePos ≤ s'.queue.writePos
  read : s.queue.readPos ≤ s'.queue.readPos
  pushClaims : s.pushClaims ⊆ s'.pushClaims
  popClaims : s.popClaims ⊆ s'.popClaims
  constructed : s.constructed ⊆ s'.constructed
  delivered : s.delivered ⊆ s'.delivered

/-- A thread keeps what it knows when the counters, the logs and the sequence numbers
grow and the cell of its own ticket, if it has one, is left alone. -/
theorem PcInv.frame {u : Tid} {pc : Pc T} (h : PcInv N s u pc) (grows : Grows s s')
    (seq : ∀ pos, (s.cell N pos).sequence ≤ (s'.cell N pos).sequence)
    (own : ∀ p, pc.pushing = some p ∨ pc.popping = some p → s'.cell N p = s.cell N p)
    (fresh : ∀ p, pc.popping = some p → ∀ d ∈ s'.delivered, d.1 = p → d ∈ s.delivered) :
    PcInv N s' u pc := by
  cases pc with
  | idle | pushLoad | pushReload | popLoad | popReload => trivial
  | pushExchange data pos => exact Nat.le_trans h (seq pos)
  | popExchange pos => exact Nat.le_trans h (seq pos)
  | pushConstruct data pos =>
    obtain ⟨bound, number, claim⟩ := h
    exact ⟨Nat.lt_of_lt_of_le bound grows.write, own pos (.inl rfl) ▸ number, grows.pushClaims claim⟩
  | pushPublish data pos =>
    obtain ⟨bound, number, claim, held, built⟩ := h
    exact ⟨Nat.lt_of_lt_of_le bound grows.write, own pos (.inl rfl) ▸ number, grows.pushClaims claim,
      own pos (.inl rfl) ▸ held, grows.constructed built⟩
  | popMove pos =>
    obtain ⟨bound, number, claim, ⟨v, w, held, pushed, built⟩, waiting⟩ := h
    refine ⟨Nat.lt_of_lt_of_le bound grows.read, own pos (.inr rfl) ▸ number, grows.popClaims claim,
      ⟨v, w, own pos (.inr rfl) ▸ held, grows.pushClaims pushed, grows.constructed built⟩, ?_⟩
    intro d hd same
    exact waiting d (fresh pos rfl d hd same) same
  | popPublish target pos =>
    obtain ⟨bound, number, claim, done⟩ := h
    exact ⟨Nat.lt_of_lt_of_le bound grows.read, own pos (.inr rfl) ▸ number, grows.popClaims claim,
      grows.delivered done⟩

/-- A cell stays in step when it and the counters are left alone and every thread
with a ticket of the cell keeps it. -/
theorem CellInv.frame {c : Nat} (h : CellInv N s c) (grows : Grows s s')
    (write : s'.queue.writePos = s.queue.writePos) (read : s'.queue.readPos = s.queue.readPos)
    (same : s'.queue.cells c = s.queue.cells c)
    (push : ∀ u p, p % N.size = c → (s.thread u).pushing = some p → (s'.thread u).pushing = some p)
    (pop : ∀ u p, p % N.size = c → (s.thread u).popping = some p → (s'.thread u).popping = some p) :
    CellInv N s' c := by
  cases h with
  | free p slot seq lo hi claimed =>
    refine .free p slot (same ▸ seq) (read ▸ lo) (read ▸ hi) ?_
    intro less
    obtain ⟨u, hu⟩ := claimed (write ▸ less)
    exact ⟨u, push u p slot hu⟩
  | full p slot seq lo hi stored claimed =>
    refine .full p slot (same ▸ seq) (write ▸ lo) (write ▸ hi) ?_ ?_
    · intro le
      obtain ⟨u, v, held, pushed, built⟩ := stored (read ▸ le)
      exact ⟨u, v, same ▸ held, grows.pushClaims pushed, grows.constructed built⟩
    · intro less
      obtain ⟨u, hu⟩ := claimed (read ▸ less)
      exact ⟨u, pop u p slot hu⟩

/-- A winning push exchange claims the cell of ticket `write_pos`. -/
theorem CellInv.claimPush {c : Nat} {t : Tid} (h : CellInv N s c) (grows : Grows s s')
    (number : (s.cell N s.queue.writePos).sequence = s.queue.writePos)
    (write : s'.queue.writePos = s.queue.writePos + 1) (read : s'.queue.readPos = s.queue.readPos)
    (same : s'.queue.cells = s.queue.cells) (winner : (s'.thread t).pushing = some s.queue.writePos)
    (push : ∀ u p, (s.thread u).pushing = some p → (s'.thread u).pushing = some p)
    (pop : ∀ u p, (s.thread u).popping = some p → (s'.thread u).popping = some p) : CellInv N s' c := by
  cases h with
  | free p slot seq lo hi claimed =>
    refine .free p slot (same ▸ seq) (read ▸ lo) (read ▸ hi) ?_
    intro less
    rcases Nat.lt_succ_iff_lt_or_eq.mp (write ▸ less) with old | last
    · obtain ⟨u, hu⟩ := claimed old
      exact ⟨u, push u p hu⟩
    · exact ⟨t, last ▸ winner⟩
  | full p slot seq lo hi stored claimed =>
    -- a full cell is not the one that waits for the ticket
    have next : s.queue.writePos ≠ p + N.size := by
      intro lap
      have here : s.queue.writePos % N.size = c := by rw [lap, Nat.add_mod_right, slot]
      rw [cell_eq, here, seq] at number
      have := N.two_le
      omega
    refine .full p slot (same ▸ seq) (by omega) (by omega) ?_ ?_
    · intro le
      obtain ⟨u, v, held, pushed, built⟩ := stored (read ▸ le)
      exact ⟨u, v, same ▸ held, grows.pushClaims pushed, grows.constructed built⟩
    · intro less
      obtain ⟨u, hu⟩ := claimed (read ▸ less)
      exact ⟨u, pop u p hu⟩

/-- A winning pop exchange claims the cell of ticket `read_pos`. -/
theorem CellInv.claimPop {c : Nat} {t : Tid} (h : CellInv N s c) (grows : Grows s s')
    (number : (s.cell N s.queue.readPos).sequence = s.queue.readPos + 1)
    (write : s'.queue.writePos = s.queue.writePos) (read : s'.queue.readPos = s.queue.readPos + 1)
    (same : s'.queue.cells = s.queue.cells) (winner : (s'.thread t).popping = some s.queue.readPos)
    (push : ∀ u p, (s.thread u).pushing = some p → (s'.thread u).pushing = some p)
    (pop : ∀ u p, (s.thread u).popping = some p → (s'.thread u).popping = some p) : CellInv N s' c := by
  cases h with
  | free p slot seq lo hi claimed =>
    -- a free cell is not the one that holds the ticket's element
    have later : p ≠ s.queue.readPos := by
      intro here
      rw [cell_eq, ← here, slot, seq] at number
      omega
    refine .free p slot (same ▸ seq) (by omega) (by omega) ?_
    intro less
    obtain ⟨u, hu⟩ := claimed (write ▸ less)
    exact ⟨u, push u p hu⟩
  | full p slot seq lo hi stored claimed =>
    refine .full p slot (same ▸ seq) (write ▸ lo) (write ▸ hi) ?_ ?_
    · intro le
      obtain ⟨u, v, held, pushed, built⟩ := stored (by omega)
      exact ⟨u, v, same ▸ held, grows.pushClaims pushed, grows.constructed built⟩
    · intro less
      rcases Nat.lt_succ_iff_lt_or_eq.mp (read ▸ less) with old | last
      · obtain ⟨u, hu⟩ := claimed old
        exact ⟨u, pop u p hu⟩
      · exact ⟨t, last ▸ winner⟩

/-- The constructed queue is in step: cell `c` waits for ticket `c`. -/
theorem inv_start : Inv N (start : State Tid T) where
  read_le := Nat.le_refl _
  write_le := Nat.zero_le _
  cell c hc := .free c (Nat.mod_eq_of_lt hc) rfl (Nat.zero_le _) (by simpa [start] using hc)
    fun h => absurd h (Nat.not_lt_zero c)
  thread _ := trivial
  pushTickets := rfl
  popTickets := rfl
  delivered _ hd := by cases hd
  once := List.nodup_nil
  arrived p hp := absurd hp (Nat.not_lt_zero p)

variable [DecidableEq Tid]

@[simp] theorem goto_thread_self (t : Tid) (pc : Pc T) : (s.goto t pc).thread t = pc := update_self ..

theorem goto_thread_of_ne {t u : Tid} (h : u ≠ t) (pc : Pc T) : (s.goto t pc).thread u = s.thread u :=
  update_of_ne h ..

/-- A thread without a ticket may go wherever it knows enough and gains no ticket. -/
theorem Inv.goto (inv : Inv N s) {t : Tid} {pc : Pc T}
    (was : (s.thread t).pushing = none ∧ (s.thread t).popping = none)
    (quiet : pc.pushing = none ∧ pc.popping = none) (known : PcInv N s t pc) : Inv N (s.goto t pc) := by
  have grows : Grows s (s.goto t pc) :=
    ⟨Nat.le_refl _, Nat.le_refl _, fun _ => id, fun _ => id, fun _ => id, fun _ => id⟩
  have push : ∀ u, ((s.goto t pc).thread u).pushing = (s.thread u).pushing := by
    intro u
    by_cases h : u = t
    · subst h
      rw [goto_thread_self, was.1, quiet.1]
    · rw [goto_thread_of_ne h]
  have pop : ∀ u, ((s.goto t pc).thread u).popping = (s.thread u).popping := by
    intro u
    by_cases h : u = t
    · subst h
      rw [goto_thread_self, was.2, quiet.2]
    · rw [goto_thread_of_ne h]
  refine { inv with cell := ?_, thread := ?_, arrived := ?_ }
  · intro c hc
    exact (inv.cell c hc).frame grows rfl rfl rfl (fun u p _ h => (push u).trans h) fun u p _ h => (pop u).trans h
  · intro u
    have keep {q : Pc T} (h : PcInv N s u q) : PcInv N (s.goto t pc) u q :=
      h.frame grows (fun _ => Nat.le_refl _) (fun _ _ => rfl) fun _ _ _ hd _ => hd
    by_cases h : u = t
    · subst h
      rw [goto_thread_self]
      exact keep known
    · rw [goto_thread_of_ne h]
      exact keep (inv.thread u)
  · intro p hp
    rcases inv.arrived p hp with done | ⟨u, hu⟩
    · exact .inl done
    · refine .inr ⟨u, ?_⟩
      have other : u ≠ t := ne_of_popping (p := p) was.2 (hu ▸ rfl)
      rw [goto_thread_of_ne other, hu]

theorem Inv.loadWrite (inv : Inv N s) {t : Tid} (data : T)
    (was : (s.thread t).pushing = none ∧ (s.thread t).popping = none) : Inv N (loadWrite s t data) :=
  inv.goto was ⟨rfl, rfl⟩ trivial

theorem Inv.loadRead (inv : Inv N s) {t : Tid}
    (was : (s.thread t).pushing = none ∧ (s.thread t).popping = none) : Inv N (loadRead s t) :=
  inv.goto was ⟨rfl, rfl⟩ trivial

theorem Inv.pushDecide (inv : Inv N s) {t : Tid} {data : T} {pos : Nat} (pc : s.thread t = .pushLoad data pos) :
    Inv N (pushDecide N s t data pos) := by
  have was : (s.thread t).pushing = none ∧ (s.thread t).popping = none := by rw [pc]; exact ⟨rfl, rfl⟩
  unfold Mpmc.pushDecide
  simp only
  split
  · rename_i equal
    exact inv.goto was ⟨rfl, rfl⟩ (Nat.le_of_eq equal.symm)
  · split
    · exact inv.goto was ⟨rfl, rfl⟩ trivial
    · exact inv.goto was ⟨rfl, rfl⟩ trivial

theorem Inv.popDecide (inv : Inv N s) {t : Tid} {pos : Nat} (pc : s.thread t = .popLoad pos) :
    Inv N (popDecide N s t pos) := by
  have was : (s.thread t).pushing = none ∧ (s.thread t).popping = none := by rw [pc]; exact ⟨rfl, rfl⟩
  unfold Mpmc.popDecide
  simp only
  split
  · rename_i equal
    exact inv.goto was ⟨rfl, rfl⟩ (Nat.le_of_eq equal.symm)
  · split
    · exact inv.goto was ⟨rfl, rfl⟩ trivial
    · exact inv.goto was ⟨rfl, rfl⟩ trivial

theorem Inv.pushExchange (inv : Inv N s) {t : Tid} {data : T} {pos : Nat}
    (pc : s.thread t = .pushExchange data pos) : Inv N (pushExchange s t data pos) := by
  have seen := inv.thread t
  simp only [pc, PcInv] at seen
  have was : (s.thread t).pushing = none ∧ (s.thread t).popping = none := by rw [pc]; exact ⟨rfl, rfl⟩
  unfold Mpmc.pushExchange
  split
  · rename_i won
    subst won
    obtain ⟨number, reached, near⟩ := inv.free_of_exchange seen rfl
    set pos := s.queue.writePos with hpos
    set s' : State Tid T := { s.goto t (.pushConstruct data pos) with
      queue.writePos := pos + 1, pushClaims := s.pushClaims ++ [(t, pos, data)] } with hs'
    have self : s'.thread t = .pushConstruct data pos := goto_thread_self ..
    have other {u : Tid} (h : u ≠ t) : s'.thread u = s.thread u := goto_thread_of_ne h _
    have grows : Grows s s' :=
      ⟨Nat.le_succ _, Nat.le_refl _, fun _ => List.mem_append_left _, fun _ => id, fun _ => id, fun _ => id⟩
    have push := keeps_pushing was.1 other
    have pop := keeps_popping was.2 other
    refine { inv with
      read_le := Nat.le_succ_of_le reached
      write_le := near
      cell := ?_
      thread := ?_
      pushTickets := ?_
      delivered := ?_
      arrived := ?_ }
    · intro c hc
      exact (inv.cell c hc).claimPush (t := t) grows number rfl rfl rfl (by rw [self]; rfl) push pop
    · intro u
      by_cases h : u = t
      · subst h
        rw [self]
        exact ⟨Nat.lt_succ_self pos, number, List.mem_append_right _ (List.mem_singleton_self _)⟩
      · rw [other h]
        exact (inv.thread u).frame grows (fun _ => Nat.le_refl _) (fun _ _ => rfl) fun _ _ _ hd _ => hd
    · simp [hs', inv.pushTickets, hpos, List.range_succ]
    · intro d hd
      obtain ⟨bound, u, v, value, pushed, built⟩ := inv.delivered d hd
      exact ⟨bound, u, v, value, List.mem_append_left _ pushed, built⟩
    · intro p hp
      rcases inv.arrived p hp with done | ⟨u, hu⟩
      · exact .inl done
      · exact .inr ⟨u, (other (ne_of_popping (p := p) was.2 (hu ▸ rfl))).trans hu⟩
  · exact inv.loadWrite data was

theorem Inv.popExchange (inv : Inv N s) {t : Tid} {pos : Nat}
    (pc : s.thread t = .popExchange pos) : Inv N (popExchange s t pos) := by
  have seen := inv.thread t
  simp only [pc, PcInv] at seen
  have was : (s.thread t).pushing = none ∧ (s.thread t).popping = none := by rw [pc]; exact ⟨rfl, rfl⟩
  unfold Mpmc.popExchange
  split
  · rename_i won
    subst won
    obtain ⟨number, written, element⟩ := inv.full_of_exchange seen rfl
    set pos := s.queue.readPos with hpos
    set s' : State Tid T := { s.goto t (.popMove pos) with
      queue.readPos := pos + 1, popClaims := s.popClaims ++ [(t, pos)] } with hs'
    have self : s'.thread t = .popMove pos := goto_thread_self ..
    have other {u : Tid} (h : u ≠ t) : s'.thread u = s.thread u := goto_thread_of_ne h _
    have grows : Grows s s' :=
      ⟨Nat.le_refl _, Nat.le_succ _, fun _ => id, fun _ => List.mem_append_left _, fun _ => id, fun _ => id⟩
    have push := keeps_pushing was.1 other
    have pop := keeps_popping was.2 other
    have lap := inv.write_le
    refine { inv with
      read_le := written
      write_le := by show s.queue.writePos ≤ pos + 1 + N.size; omega
      cell := ?_
      thread := ?_
      popTickets := ?_
      delivered := ?_
      arrived := ?_ }
    · intro c hc
      exact (inv.cell c hc).claimPop (t := t) grows number rfl rfl rfl (by rw [self]; rfl) push pop
    · intro u
      by_cases h : u = t
      · subst h
        rw [self]
        refine ⟨Nat.lt_succ_self pos, number, List.mem_append_right _ (List.mem_singleton_self _), element, ?_⟩
        intro d hd same
        have := (inv.delivered d hd).1
        omega
      · rw [other h]
        exact (inv.thread u).frame grows (fun _ => Nat.le_refl _) (fun _ _ => rfl) fun _ _ _ hd _ => hd
    · simp [hs', inv.popTickets, hpos, List.range_succ]
    · intro d hd
      obtain ⟨bound, rest⟩ := inv.delivered d hd
      exact ⟨Nat.lt_succ_of_lt bound, rest⟩
    · intro p hp
      rcases Nat.lt_succ_iff_lt_or_eq.mp hp with old | rfl
      · rcases inv.arrived p old with done | ⟨u, hu⟩
        · exact .inl done
        · exact .inr ⟨u, (other (ne_of_popping (p := p) was.2 (hu ▸ rfl))).trans hu⟩
      · exact .inr ⟨t, self⟩
  · exact inv.loadRead was

/-! ## Steps on an owned cell -/

/-- `t`, holding ticket `pos`, rewrites its cell and moves on; the logs may gain the
ticket's own entries. -/
structure OwnStep (N : Ring.Size) (s s' : State Tid T) (t : Tid) (pos : Nat) (c : Cell T) (pc : Pc T) : Prop where
  queue : s'.queue = (s.setCell N pos c).queue
  thread : s'.thread = update s.thread t pc
  pushClaims : s'.pushClaims = s.pushClaims
  popClaims : s'.popClaims = s.popClaims
  constructed : s.constructed ⊆ s'.constructed
  delivered : s.delivered ⊆ s'.delivered
  fresh : ∀ d ∈ s'.delivered, d ∈ s.delivered ∨ d.1 = pos

theorem OwnStep.grows {t : Tid} {pos : Nat} {c : Cell T} {pc : Pc T} (step : OwnStep N s s' t pos c pc) :
    Grows s s' := by
  constructor
  · rw [step.queue]
    exact Nat.le_refl _
  · rw [step.queue]
    exact Nat.le_refl _
  · rw [step.pushClaims]
    exact fun _ => id
  · rw [step.popClaims]
    exact fun _ => id
  · exact step.constructed
  · exact step.delivered

/-- A step on an owned cell keeps the invariant if it leaves the cell in step, its
thread informed and the delivery log sound. -/
theorem Inv.ownStep (inv : Inv N s) {t : Tid} {pos : Nat} {c : Cell T} {pc : Pc T}
    (ticket : (s.thread t).pushing = some pos ∨ (s.thread t).popping = some pos)
    (step : OwnStep N s s' t pos c pc) (seq : (s.cell N pos).sequence ≤ c.sequence)
    (cell : CellInv N s' (pos % N.size)) (known : PcInv N s' t pc)
    (sound : ∀ d ∈ s'.delivered, d.1 = pos → d.1 < s.queue.readPos ∧
      ∃ u v, d.2 = some v ∧ (u, d.1, v) ∈ s'.pushClaims ∧ (d.1, v) ∈ s'.constructed)
    (once : (s'.delivered.map (·.1)).Nodup)
    (moved : ∀ p, s.thread t = .popMove p → ∃ d ∈ s'.delivered, d.1 = p) : Inv N s' := by
  have grows := step.grows
  have write : s'.queue.writePos = s.queue.writePos := by rw [step.queue]; rfl
  have read : s'.queue.readPos = s.queue.readPos := by rw [step.queue]; rfl
  have self : s'.thread t = pc := by rw [step.thread, update_self]
  have other {u : Tid} (h : u ≠ t) : s'.thread u = s.thread u := by rw [step.thread, update_of_ne h]
  have cells (q : Nat) : s'.cell N q = (s.setCell N pos c).cell N q := by simp only [State.cell, step.queue]
  have away {q : Nat} (h : q % N.size ≠ pos % N.size) : s'.cell N q = s.cell N q :=
    (cells q).trans (cell_setCell_of_ne h c)
  have numbers (q : Nat) : (s.cell N q).sequence ≤ (s'.cell N q).sequence := by
    by_cases h : q % N.size = pos % N.size
    · have same : s'.cell N q = s'.cell N pos := by rw [cell_eq, cell_eq, h]
      have same' : s.cell N q = s.cell N pos := by rw [cell_eq, cell_eq, h]
      rw [same, same', cells, cell_setCell_self]
      exact seq
    · rw [away h]
  constructor
  · rw [read, write]
    exact inv.read_le
  · rw [read, write]
    exact inv.write_le
  · intro b hb
    by_cases h : b = pos % N.size
    · exact h ▸ cell
    · have slot : b % N.size ≠ pos % N.size := by rwa [Nat.mod_eq_of_lt hb]
      have same := away slot
      rw [cell_eq, cell_eq, Nat.mod_eq_of_lt hb] at same
      have ne {u : Tid} {p : Nat} (hp : p % N.size = b)
          (hu : (s.thread u).pushing = some p ∨ (s.thread u).popping = some p) : u ≠ t := by
        rintro rfl
        exact h (Pc.ticket_unique hu ticket ▸ hp.symm)
      exact (inv.cell b hb).frame grows write read same
        (fun u p hp hu => (other (ne hp (.inl hu))).symm ▸ hu)
        fun u p hp hu => (other (ne hp (.inr hu))).symm ▸ hu
  · intro u
    by_cases h : u = t
    · subst h
      rw [self]
      exact known
    · rw [other h]
      refine (inv.thread u).frame grows numbers (fun q hq => away (inv.slot_ne h ticket hq)) ?_
      intro p hp d hd same
      rcases step.fresh d hd with old | new
      · exact old
      · exact absurd (by rw [← same, new]) (inv.slot_ne h ticket (.inr hp))
  · rw [step.pushClaims, write]
    exact inv.pushTickets
  · rw [step.popClaims, read]
    exact inv.popTickets
  · intro d hd
    by_cases h : d.1 = pos
    · exact read ▸ sound d hd h
    · obtain ⟨bound, u, v, value, pushed, built⟩ := inv.delivered d ((step.fresh d hd).resolve_right h)
      exact ⟨read ▸ bound, u, v, value, grows.pushClaims pushed, grows.constructed built⟩
  · exact once
  · intro p hp
    rcases inv.arrived p (read ▸ hp) with ⟨d, hd, same⟩ | ⟨u, hu⟩
    · exact .inl ⟨d, grows.delivered hd, same⟩
    · by_cases h : u = t
      · exact .inl (moved p (h ▸ hu))
      · exact .inr ⟨u, (other h).trans hu⟩

theorem Inv.pushConstruct (inv : Inv N s) {t : Tid} {data : T} {pos : Nat}
    (pc : s.thread t = .pushConstruct data pos) : Inv N (pushConstruct N s t data pos) := by
  have ticket : (s.thread t).pushing = some pos := pc ▸ rfl
  have known := inv.thread t
  simp only [pc, PcInv] at known
  obtain ⟨bound, number, claim⟩ := known
  obtain ⟨lo, hi⟩ := inv.free_of_pushing ticket
  have here : (Mpmc.pushConstruct N s t data pos).cell N pos = { s.cell N pos with data := some data } :=
    cell_setCell_self ..
  have step : OwnStep N s (Mpmc.pushConstruct N s t data pos) t pos { s.cell N pos with data := some data }
      (.pushPublish data pos) :=
    ⟨rfl, rfl, rfl, rfl, fun _ => List.mem_append_left _, fun _ => id, fun _ => .inl⟩
  apply inv.ownStep (.inl ticket) step (Nat.le_refl _)
  · refine .free pos rfl ?_ lo hi fun _ => ⟨t, congrArg Pc.pushing (goto_thread_self ..)⟩
    rw [← cell_eq, here]
    exact number
  · exact ⟨bound, here ▸ number, claim, here ▸ rfl, List.mem_append_right _ (List.mem_singleton_self _)⟩
  · intro d hd same
    have := (inv.delivered d hd).1
    omega
  · exact inv.once
  · intro p hp
    rw [pc] at hp
    cases hp

theorem Inv.pushPublish (inv : Inv N s) {t : Tid} {data : T} {pos : Nat}
    (pc : s.thread t = .pushPublish data pos) : Inv N (pushPublish N s t pos) := by
  have ticket : (s.thread t).pushing = some pos := pc ▸ rfl
  have known := inv.thread t
  simp only [pc, PcInv] at known
  obtain ⟨bound, number, claim, held, built⟩ := known
  obtain ⟨lo, hi⟩ := inv.free_of_pushing ticket
  have lap := inv.write_le
  have here : (Mpmc.pushPublish N s t pos).cell N pos = { s.cell N pos with sequence := pos + 1 } :=
    cell_setCell_self ..
  have step : OwnStep N s (Mpmc.pushPublish N s t pos) t pos { s.cell N pos with sequence := pos + 1 } .idle :=
    ⟨rfl, rfl, rfl, rfl, fun _ => id, fun _ => id, fun _ => .inl⟩
  apply inv.ownStep (.inl ticket) step (by show (s.cell N pos).sequence ≤ pos + 1; omega)
  · refine .full pos rfl ?_ bound (by show s.queue.writePos ≤ pos + N.size; omega) ?_ ?_
    · rw [← cell_eq, here]
    · intro _
      refine ⟨t, data, ?_, claim, built⟩
      rw [← cell_eq, here]
      exact held
    · intro less
      exact absurd lo (Nat.not_le_of_lt less)
  · trivial
  · intro d hd same
    have := (inv.delivered d hd).1
    omega
  · exact inv.once
  · intro p hp
    rw [pc] at hp
    cases hp

theorem Inv.popMove (inv : Inv N s) {t : Tid} {pos : Nat}
    (pc : s.thread t = .popMove pos) : Inv N (popMove N s t pos) := by
  have ticket : (s.thread t).popping = some pos := pc ▸ rfl
  have known := inv.thread t
  simp only [pc, PcInv] at known
  obtain ⟨bound, number, claim, ⟨u, v, held, pushed, built⟩, waiting⟩ := known
  obtain ⟨lo, hi⟩ := inv.full_of_popping ticket
  have here : (Mpmc.popMove N s t pos).cell N pos = { s.cell N pos with data := none } := cell_setCell_self ..
  have step : OwnStep N s (Mpmc.popMove N s t pos) t pos { s.cell N pos with data := none }
      (.popPublish (s.cell N pos).data pos) := by
    refine ⟨rfl, rfl, rfl, rfl, fun _ => id, fun _ => List.mem_append_left _, ?_⟩
    intro d hd
    rcases List.mem_append.mp hd with old | new
    · exact .inl old
    · exact .inr (List.mem_singleton.mp new ▸ rfl)
  apply inv.ownStep (.inr ticket) step (Nat.le_refl _)
  · refine .full pos rfl ?_ lo hi ?_ fun _ => ⟨t, congrArg Pc.popping (goto_thread_self ..)⟩
    · rw [← cell_eq, here]
      exact number
    · intro le
      exact absurd bound (Nat.not_lt_of_le le)
  · exact ⟨bound, here ▸ number, claim, List.mem_append_right _ (List.mem_singleton_self _)⟩
  · intro d hd same
    rcases List.mem_append.mp hd with old | new
    · exact absurd same (waiting d old)
    · cases List.mem_singleton.mp new
      exact ⟨bound, u, v, held, pushed, built⟩
  · show ((s.delivered ++ [(pos, (s.cell N pos).data)]).map (·.1)).Nodup
    rw [List.map_append]
    refine inv.once.append (List.nodup_singleton _) ?_
    intro p hp hq
    obtain ⟨d, hd, rfl⟩ := List.mem_map.mp hp
    exact waiting d hd (List.mem_singleton.mp hq)
  · intro p hp
    rw [pc] at hp
    cases hp
    exact ⟨_, List.mem_append_right _ (List.mem_singleton_self _), rfl⟩

theorem Inv.popPublish (inv : Inv N s) {t : Tid} {target : Option T} {pos : Nat}
    (pc : s.thread t = .popPublish target pos) : Inv N (popPublish N s t pos) := by
  have ticket : (s.thread t).popping = some pos := pc ▸ rfl
  have known := inv.thread t
  simp only [pc, PcInv] at known
  obtain ⟨bound, number, claim, done⟩ := known
  obtain ⟨lo, hi⟩ := inv.full_of_popping ticket
  have behind := inv.read_le
  have lap : pos + N.mask + 1 = pos + N.size := by rw [Nat.add_assoc, N.mask_add_one]
  have two := N.two_le
  have here : (Mpmc.popPublish N s t pos).cell N pos = { s.cell N pos with sequence := pos + N.mask + 1 } :=
    cell_setCell_self ..
  have step : OwnStep N s (Mpmc.popPublish N s t pos) t pos { s.cell N pos with sequence := pos + N.mask + 1 } .idle :=
    ⟨rfl, rfl, rfl, rfl, fun _ => id, fun _ => id, fun _ => .inl⟩
  apply inv.ownStep (.inr ticket) step (by show (s.cell N pos).sequence ≤ pos + N.mask + 1; omega)
  · refine .free (pos + N.size) (Nat.add_mod_right ..) ?_ ?_ ?_ ?_
    · rw [← cell_eq, here]
      exact lap
    · show s.queue.readPos ≤ pos + N.size
      omega
    · show pos + N.size < s.queue.readPos + N.size
      omega
    · intro less
      exact absurd hi (Nat.not_le_of_lt less)
  · trivial
  · intro d hd _
    exact inv.delivered d hd
  · exact inv.once
  · intro p hp
    rw [pc] at hp
    cases hp

/-- Every step of every thread keeps the invariant. -/
theorem Inv.step (inv : Inv N s) {a : Action Tid T} (h : exec N s a = some s') : Inv N s' := by
  cases a with
  | push t data =>
    cases pc : s.thread t <;> simp only [exec, pc] at h <;> cases h
    exact inv.loadWrite data ⟨pc ▸ rfl, pc ▸ rfl⟩
  | pop t =>
    cases pc : s.thread t <;> simp only [exec, pc] at h <;> cases h
    exact inv.loadRead ⟨pc ▸ rfl, pc ▸ rfl⟩
  | spurious t =>
    cases pc : s.thread t <;> simp only [exec, pc] at h <;> cases h
    · exact inv.loadWrite _ ⟨pc ▸ rfl, pc ▸ rfl⟩
    · exact inv.loadRead ⟨pc ▸ rfl, pc ▸ rfl⟩
  | step t =>
    cases pc : s.thread t <;> simp only [exec, pc] at h <;> cases h
    · exact inv.pushDecide pc
    · exact inv.pushExchange pc
    · exact inv.loadWrite _ ⟨pc ▸ rfl, pc ▸ rfl⟩
    · exact inv.pushConstruct pc
    · exact inv.pushPublish pc
    · exact inv.popDecide pc
    · exact inv.popExchange pc
    · exact inv.loadRead ⟨pc ▸ rfl, pc ▸ rfl⟩
    · exact inv.popMove pc
    · exact inv.popPublish pc

theorem invariant : Invariant (system N : System (State Tid T)) (Inv N) :=
  invariant_of_actions inv_start fun _ _ _ inv h => inv.step h

end

end Erl.Queue.Mpmc
