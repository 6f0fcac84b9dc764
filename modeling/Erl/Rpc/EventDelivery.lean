import Erl.Rpc.EventQueue

/-!
# Events are delivered once, in order, and never got stuck

What holds of the mailbox holds of the event queue. Once all threads have returned from
their sends, every attempt of the server to pop finds the next message.
-/

namespace Erl.Rpc.Events
open Reflect TransitionSystem Interleaving Function Queue

section
variable {Tid σ : Type} [DecidableEq Tid] {N : Ring.Size} {host : Host} {handlers : List (Handler σ)}
variable {s t : State Tid σ} {s₀ : σ} {script : Tid → List Message}

/-- The queue is in step with the threads, and the mailbox behind it is sound. -/
theorem invariant : Invariant (system N host handlers s₀ script) fun s =>
    Inv N s ∧ Mailbox.Inv host handlers s₀ (scripts script) s.abstract :=
  (simulation s₀ script).pullback Mailbox.invariant

/-- Steps the server needs for the message it is about to pop or is handling. -/
def State.localRank (s : State Tid σ) : Nat :=
  match s.server with
  | .receiving => (s.events.thread .server).popRank + 1
  | .handling _ => 1
  | .stopped | .failed _ | .undefined => 0

/-- Steps the server needs for all messages in the queue. -/
def State.rank (s : State Tid σ) : Nat := 6 * (s.events.entries.length - s.handled) + s.localRank

/-- The server has stopped, or has handled all that was sent. -/
def State.Finished (s : State Tid σ) : Prop :=
  s.server = .stopped ∨ (∃ f, s.server = .failed f) ∨ s.server = .receiving ∧ s.handled = s.events.entries.length

/-- With all sends returned, the server's attempt to pop succeeds. -/
theorem serverPop_rank (inv : Inv N s) (popping : Mpmc.Popping s.events .server s.handled) (pc : s.server = .receiving)
    (idle : ∀ t, s.events.thread (.client t) = .idle) (lt : s.handled < s.events.entries.length) :
    (serverPop N s).rank < s.rank := by
  have entries := Mpmc.popStep_entries (N := N) (q := s.events) (t := .server)
  have positive := Mpmc.popRank_pos (s.events.thread .server)
  have own : s.localRank = (s.events.thread .server).popRank + 1 := by simp only [State.localRank, pc]
  have full : s.events.queue.readPos = s.handled → (s.events.cell N s.handled).sequence = s.handled + 1 := by
    intro read
    have quiet (u : Thread Tid) : (s.events.thread u).pushing = none ∧ (s.events.thread u).popping = none := by
      cases u with
      | client u => exact idle u ▸ ⟨rfl, rfl⟩
      | server =>
        cases popping with
        | searching place _ => rcases place with pc | pc | pc | pc <;> exact pc ▸ ⟨rfl, rfl⟩
        | moving _ other | publishing _ _ _ other => omega
    have next := inv.queue.next_full (fun u => (quiet u).1) (fun u => (quiet u).2)
      (by rw [read, ← inv.queue.length_entries]; exact lt)
    rwa [read] at next
  rcases inv.queue.popping_popStep popping with ⟨more, -⟩ | ⟨u, m, last, -⟩
  · have less := Mpmc.popRank_popStep popping more full
    simp only [State.rank, own, serverPop, more, entries]
    simp only [State.localRank, pc]
    omega
  · have busy : (serverPop N s).localRank ≤ 1 := by
      simp only [serverPop, last]
      by_cases size : m.length = 0
      · simp [State.localRank, size]
      · simp [State.localRank, size]
    have kept : (serverPop N s).events.entries = s.events.entries ∧ (serverPop N s).handled = s.handled := by
      simp only [serverPop, last]
      exact ⟨entries, trivial⟩
    simp only [State.rank, own, kept.1, kept.2]
    omega

/-- With all sends returned, the server's next step brings it closer to its end. -/
theorem advance (inv : Inv N s) (mail : Mailbox.Inv host handlers s₀ (scripts script) s.abstract)
    (returned : ∀ t, s.todo t = []) (more : ¬ s.Finished) :
    ∃ t, exec N host handlers s .server = some t ∧ t.rank < s.rank := by
  have known := inv.server
  have le : s.handled ≤ s.events.entries.length := mail.handled_le
  have idle (t : Tid) : s.events.thread (.client t) = .idle := by
    have client := inv.clients t
    simp only [Sends, returned t] at client
    exact client
  cases pc : s.server <;> simp only [ServerInv, pc] at known
  · have lt : s.handled < s.events.entries.length :=
      Nat.lt_of_le_of_ne le fun all => more (.inr (.inr ⟨pc, all⟩))
    exact ⟨serverPop N s, by simp only [exec, pc], serverPop_rank inv known pc idle lt⟩
  · rename_i message
    obtain ⟨-, -, u, entry⟩ := known
    have lt := (List.getElem?_eq_some_iff.mp entry).1
    refine ⟨serverHandle host handlers s message, by simp only [exec, pc], ?_⟩
    have most := Mpmc.popRank_le (s.events.thread .server)
    unfold serverHandle
    split <;> simp only [State.rank, State.localRank, pc] <;> omega
  · exact absurd (.inl pc) more
  · exact absurd (.inr (.inl ⟨_, pc⟩)) more

/-- Steps keep the sends returned and the messages sent. -/
theorem exec_returned (returned : ∀ t, s.todo t = []) {a : Action Tid} (h : exec N host handlers s a = some t) :
    (∀ u, t.todo u = []) ∧ t.events.entries = s.events.entries := by
  cases a with
  | client u => simp [exec, clientPush, returned u] at h
  | server =>
    cases pc : s.server <;> simp only [exec, pc] at h <;> cases h
    · have entries := Mpmc.popStep_entries (N := N) (q := s.events) (t := .server)
      unfold serverPop
      dsimp only
      split <;> exact ⟨returned, entries⟩
    · unfold serverHandle
      split <;> exact ⟨returned, rfl⟩
  | spurious u =>
    obtain ⟨q, hq, rfl⟩ := Option.map_eq_some_iff.mp h
    obtain ⟨pc, retries⟩ := Mpmc.spurious_retries hq
    exact ⟨returned, retries.goto ▸ rfl⟩

/-- Once all sends have returned, the server can finish, and sends nothing itself. -/
theorem exists_finished (inv : Inv N s) (mail : Mailbox.Inv host handlers s₀ (scripts script) s.abstract)
    (returned : ∀ t, s.todo t = []) :
    ∃ n t, Run (system N host handlers s₀ script) n s t ∧ t.Finished ∧ t.events.entries = s.events.entries := by
  obtain ⟨n, t, -, run, ⟨-, -, same⟩, finished⟩ := exists_run (M := system N host handlers s₀ script)
    (I := fun t => (Inv N t ∧ Mailbox.Inv host handlers s₀ (scripts script) t.abstract) ∧ (∀ u, t.todo u = []) ∧
      t.events.entries = s.events.entries)
    (fun t u known step => ⟨invariant.step t u known.1 step, by
      obtain ⟨kept, same⟩ := exec_returned known.2.1 step.choose_spec
      exact ⟨kept, same.trans known.2.2⟩⟩)
    State.rank State.Finished
    (fun t known more => by
      obtain ⟨u, step, less⟩ := advance known.1.1 known.1.2 known.2.1 more
      exact ⟨u, ⟨.server, step⟩, less⟩) s ⟨⟨inv, mail⟩, returned, rfl⟩
  exact ⟨n, t, run, finished, same⟩

/-! ## Messages that stand for calls -/

section
variable {β : Type} (message : β → Message) (effect : β → σ → σ)

/-- The server answers the message of `c`, and that has the effect of `c`. -/
def Answers (host : Host) (handlers : List (Handler σ)) (c : β) : Prop :=
  (message c).length ≠ 0 ∧ ∀ s, ∃ reply, (dispatch host handlers (message c)).run s = (.ok reply, effect c s)

/-- The message of a call, or the goodbye. -/
def outgoing (c : Option β) : Message := (c.map message).getD []

variable {message effect}

theorem handles_calls {u : σ} {ms : List Message} (h : Mailbox.Handles host handlers s₀ ms u) (cs : List (Option β))
    (same : ms = cs.map (outgoing message)) (answers : ∀ c, some c ∈ cs → Answers message effect host handlers c) :
    ∃ done : List β, cs = done.map some ∧ u = done.foldl (fun s c => effect c s) s₀ := by
  induction h generalizing cs with
  | nil =>
    obtain rfl := List.map_eq_nil_iff.mp same.symm
    exact ⟨[], rfl, rfl⟩
  | @snoc t u ms m reply handled size answer ih =>
    rcases List.eq_nil_or_concat' cs with rfl | ⟨cs, o, rfl⟩
    · simp at same
    rw [List.map_append] at same
    obtain ⟨before, last⟩ := List.append_inj' same rfl
    obtain ⟨done, rfl, rfl⟩ := ih cs before fun c hc => answers c (List.mem_append_left _ hc)
    cases o with
    | none =>
      cases last
      exact absurd rfl size
    | some c =>
      cases last
      obtain ⟨reply', known⟩ := (answers c (by simp)).2 (done.foldl (fun s c => effect c s) s₀)
      cases known.symm.trans answer
      exact ⟨done ++ [c], by simp, by simp⟩

/-- Messages that stand for calls are handled as an interleaving of the threads' calls. -/
theorem calls_interleave {calls : Tid → List (Option β)}
    (answers : ∀ t c, some c ∈ calls t → Answers message effect host handlers c)
    (h : Reachable (system N host handlers s₀ fun t => (calls t).map (outgoing message)) s) :
    ∃ order : List (Thread Tid × Option β),
      order.map (fun e => (e.1, outgoing message e.2)) = s.events.entries ∧
      (∀ t, part order t <+: scripts calls t) ∧
      (∃ done : List β, (order.take s.handled).map (·.2) = done.map some ∧
        s.service = done.foldl (fun s c => effect c s) s₀) ∧
      (∀ f, s.server ≠ .failed f) ∧
      (s.server = .stopped → ∃ t, order[s.handled]? = some (t, none)) := by
  obtain ⟨inv, mail⟩ := invariant.reachable h
  have place := inv.server
  have known := mail.server
  obtain ⟨order, same, parts⟩ := exists_lift (outgoing message) (scripts calls) s.events.entries fun t => by
    have whole := mail.order t
    cases t with
    | client t => exact ⟨_, whole⟩
    | server => exact ⟨_, whole⟩
  have sound {t : Thread Tid} {c : β} (hc : (t, some c) ∈ order) : Answers message effect host handlers c := by
    have mem := (parts t).subset (mem_part hc)
    cases t with
    | client t => exact answers t c mem
    | server => cases mem
  have handled {u : σ} (handles : Mailbox.Handles host handlers s₀ ((s.events.entries.take s.handled).map (·.2)) u) :
      ∃ done : List β, (order.take s.handled).map (·.2) = done.map some ∧ u = done.foldl (fun s c => effect c s) s₀ := by
    apply handles_calls handles
    · rw [← same, ← List.map_take, List.map_map, List.map_map]
      rfl
    · intro c hc
      obtain ⟨e, he, here⟩ := List.mem_map.mp hc
      exact sound (t := e.1) (here ▸ List.mem_of_mem_take he)
  have next {e : Thread Tid × Message} (here : s.events.entries[s.handled]? = some e) :
      ∃ o, order[s.handled]? = some (e.1, o) ∧ e.2 = outgoing message o := by
    rw [← same, List.getElem?_map, Option.map_eq_some_iff] at here
    obtain ⟨e', he, rfl⟩ := here
    exact ⟨e'.2, he, rfl⟩
  refine ⟨order, same, parts, ?_⟩
  cases pc : s.server <;> simp only [ServerInv, pc] at place
    <;> simp only [Mailbox.ServerInv, State.abstract, pc, ServerPc.abstract] at known
  · exact ⟨handled known, by simp, by simp⟩
  · exact ⟨handled known.1, by simp, by simp⟩
  · obtain ⟨handles, e, here, size⟩ := known
    obtain ⟨o, at_handled, out⟩ := next here
    cases o with
    | none => exact ⟨handled handles, by simp, fun _ => ⟨e.1, at_handled⟩⟩
    | some c =>
      rw [out] at size
      exact absurd size (sound (List.mem_of_getElem? at_handled)).1
  · obtain ⟨u, e, handles, here, size, fails⟩ := known
    obtain ⟨o, at_handled, out⟩ := next here
    cases o with
    | none => exact absurd (congrArg List.length out) size
    | some c =>
      obtain ⟨reply, answer⟩ := (sound (List.mem_of_getElem? at_handled)).2 u
      rw [out] at fails
      cases answer.symm.trans fails

end

/-- **Events are delivered once and in order.** In every reachable state of any number of
sending threads and the server: what each thread has put into the queue, followed by what
it has still to send, is its script; the server has handled an initial part of the queue
in its order, each message once and none of them the goodbye, and the service is where
that takes it; it is handling the next message, has stopped at it because it is the
goodbye, or has failed on it. Once all sends have returned, it can finish. -/
theorem events_delivered (h : Reachable (system N host handlers s₀ script) s) :
    (∀ t, part s.events.entries (.client t) ++ s.unsent (.client t) = script t) ∧
    (∃ u, Mailbox.Handles host handlers s₀ ((s.events.entries.take s.handled).map (·.2)) u ∧
      ((∀ f, s.server ≠ .failed f) → s.service = u) ∧
      (∀ m, s.server = .handling m → ∃ t, s.events.entries[s.handled]? = some (t, m)) ∧
      (s.server = .stopped → ∃ t, s.events.entries[s.handled]? = some (t, [])) ∧
      ∀ f, s.server = .failed f → ∃ t m, s.events.entries[s.handled]? = some (t, m) ∧
        (dispatch host handlers m).run u = (.error f, s.service)) ∧
    s.server ≠ .undefined ∧
    ((∀ t, s.todo t = []) →
      ∃ n t, Run (system N host handlers s₀ script) n s t ∧ t.Finished ∧ t.events.entries = s.events.entries) := by
  obtain ⟨inv, mail⟩ := invariant.reachable h
  have place := inv.server
  have known := mail.server
  refine ⟨fun t => mail.order (.client t), ?_, ?_, exists_finished inv mail⟩
  · cases pc : s.server <;> simp only [ServerInv, pc] at place
      <;> simp only [Mailbox.ServerInv, State.abstract, pc, ServerPc.abstract] at known
    · exact ⟨s.service, known, fun _ => rfl, by simp, by simp, by simp⟩
    · obtain ⟨-, -, u, entry⟩ := place
      refine ⟨s.service, known.1, fun _ => rfl, ?_, by simp, by simp⟩
      intro m same
      cases same
      exact ⟨u, entry⟩
    · obtain ⟨handles, e, here, size⟩ := known
      refine ⟨s.service, handles, fun _ => rfl, by simp, fun _ => ⟨e.1, ?_⟩, by simp⟩
      rw [here, ← List.eq_nil_of_length_eq_zero size]
    · obtain ⟨u, e, handles, here, -, fails⟩ := known
      refine ⟨u, handles, fun none => absurd rfl (none _), by simp, by simp, ?_⟩
      intro f same
      cases same
      exact ⟨e.1, e.2, here, fails⟩
  · intro pc
    simp only [ServerInv, pc] at place

end

/-- A service that counts the calls of its only method. -/
def counter : List (Handler Nat) := [fun _ => do modify (· + 1); pure []]

/-- Each of two threads sends an event; the second one says goodbye after that. -/
def counterScript (t : Bool) : List Message := if t then [[0, 0, 0, 0], []] else [[0, 0, 0, 0]]

/-- The second thread wins the first ticket, and the server has handled its event. -/
theorem events_delivered_two :
    ∃ s, Reachable (system Ring.Size.two ⟨.little, fun _ => 1⟩ counter 0 counterScript) s ∧ s.service = 1 ∧ s.handled = 1 ∧
      part s.events.entries (.client true) ++ s.unsent (.client true) = counterScript true := by
  have reached : Reachable (system Ring.Size.two ⟨.little, fun _ => 1⟩ counter 0 counterScript) _ :=
    reachable_of_actions (start 0 counterScript) (exec Ring.Size.two ⟨.little, fun _ => 1⟩ counter)
      [.client false, .client true, .client true, .spurious (.client true), .client true, .client true, .client false,
        .client false, .client true, .client true, .server, .server, .server, .server, .server, .server] rfl
  exact ⟨_, reached, rfl, rfl, (events_delivered reached).1 true⟩

end Erl.Rpc.Events
