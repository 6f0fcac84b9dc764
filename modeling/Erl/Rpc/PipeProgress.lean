import Erl.Rpc.PipeRefinement

/-!
# Remote calls over a pipe come to their end

The rank of a pipe is that of its session, refined by how far the two threads are inside
`push` and `pop`. Every step decreases it, but for the polls that find their ring empty.
A party that can move in the session does not poll in vain, so no state but the last is
stuck.
-/

namespace Erl.Rpc.Pipe
open Reflect Decoding TransitionSystem Queue Message

section
variable {σ : Type}

/-- Steps left until the party's next step in the session, polls apart. -/
def State.localRank (s : State σ) : Party → Nat
  | .client =>
    match s.client with
    | .ready => 5
    | .calling .. | .killing => s.input.producer.rank
    | .awaiting .. => s.output.consumer.rank
    | .done | .failed _ => 0
  | .server =>
    match s.server with
    | .receiving => s.input.consumer.rank
    | .replying _ => s.output.producer.rank
    | .handling _ | .stopped | .failed _ => 0

def State.rank (s : State σ) : Nat := 5 * s.abstract.rank + s.localRank .client + s.localRank .server

/-- The party's next step is a poll that finds its ring empty. -/
def State.Misses (s : State σ) : Party → Prop
  | .client => s.output.Misses
  | .server => s.input.Misses

variable {order : Containers} {N : Ring.Size} {T : MessageType} {methods : List (Method σ order)} {client server : Host}
variable {s t : State σ} {p : Party}

theorem producer_rank_bounds {T : Type} (pc : Spsc.Producer T) : 1 ≤ pc.rank ∧ pc.rank ≤ 4 := by
  cases pc <;> simp

theorem consumer_rank_bounds {T : Type} (pc : Spsc.Consumer T) : 1 ≤ pc.rank ∧ pc.rank ≤ 4 := by
  cases pc <;> simp

theorem localRank_client_le (s : State σ) : s.localRank .client ≤ 5 := by
  have := producer_rank_bounds s.input.producer
  have := consumer_rank_bounds s.output.consumer
  simp only [State.localRank]
  split <;> omega

theorem localRank_server_le (s : State σ) : s.localRank .server ≤ 4 := by
  have := consumer_rank_bounds s.input.consumer
  have := producer_rank_bounds s.output.producer
  simp only [State.localRank]
  split <;> omega

/-- A party's step leaves the other one where it is. -/
theorem localRank_server (h : exec N T methods client server s .client = some t) :
    t.localRank .server = s.localRank .server := by
  cases pc : s.client <;> simp only [exec, pc] at h
  · unfold clientBegin at h
    split at h
    · cases h
      rfl
    · split at h
      · split at h <;> cases h <;> rfl
      · cases h
  · cases h
    simp only [State.localRank, clientPush, Spsc.pushStep_consumer]
  · cases h
    simp only [State.localRank, clientPush, Spsc.pushStep_consumer]
  · cases h
    unfold clientPop
    dsimp only
    split
    · simp only [State.localRank, Spsc.popStep_producer]
    · split <;> simp only [State.localRank, Spsc.popStep_producer]
  · cases h
  · cases h

theorem localRank_client (h : exec N T methods client server s .server = some t) :
    t.localRank .client = s.localRank .client := by
  cases pc : s.server <;> simp only [exec, pc] at h <;> cases h
  · unfold serverPop
    dsimp only
    split <;> simp only [State.localRank, Spsc.popStep_producer]
  · unfold serverHandle
    split <;> rfl
  · simp only [State.localRank, serverPush, Spsc.pushStep_consumer]

/-- The rank changes by what the own rank of the moving party changes. -/
theorem localRank_sum (h : exec N T methods client server s p = some t) :
    t.localRank .client + t.localRank .server + s.localRank p =
      s.localRank .client + s.localRank .server + t.localRank p := by
  cases p with
  | client =>
    rw [localRank_server h]
    omega
  | server =>
    rw [localRank_client h]
    omega

/-- The party's own rank rises by less than a step of the session is worth. -/
theorem localRank_lt (h : exec N T methods client server s p = some t) : t.localRank p < s.localRank p + 5 := by
  cases p with
  | client =>
    have most := localRank_client_le t
    have moving : 1 ≤ s.localRank .client := by
      have := producer_rank_bounds s.input.producer
      have := consumer_rank_bounds s.output.consumer
      cases pc : s.client <;> simp only [exec, pc] at h <;> simp only [State.localRank, pc]
      all_goals first | omega | cases h
    omega
  | server =>
    have most := localRank_server_le t
    omega

/-- A step of the client that leaves the session as it is gets it on, unless it polls in vain. -/
theorem localRank_client_lt (inv : Inv N T methods client s)
    (send : s.client.abstract = .ready → s.input.contents = [])
    (h : exec N T methods client server s .client = some t) (same : t.abstract = s.abstract)
    (hits : ¬ s.output.Misses) : t.localRank .client < s.localRank .client := by
  have known := inv.client
  have input : t.input.contents = s.input.contents := congrArg Session.input same
  have output : t.output.contents = s.output.contents := congrArg Session.output same
  cases pc : s.client <;> simp only [exec, pc] at h <;> simp only [ClientInv, pc] at known
  · unfold clientBegin at h
    split at h
    · cases h
      simp [State.localRank, pc, known]
    · split at h
      · split at h <;> cases h
        · simp [State.localRank, pc, known]
        · have place := congrArg Session.client same
          simp [State.abstract, pc, ClientPc.abstract] at place
      · cases h
  · cases h
    have more := inv.input.pushStep_more known.2.1 input
    simp only [State.localRank, clientPush, more, pc]
    exact inv.input.rank_pushStep (send (pc ▸ rfl)) more
  · cases h
    have more := inv.input.pushStep_more known.2.1 input
    simp only [State.localRank, clientPush, more, pc]
    exact inv.input.rank_pushStep (send (pc ▸ rfl)) more
  · cases h
    have more : (Spsc.popStep N s.output).2 = none := by
      apply inv.output.popStep_more
      rw [← output]
      unfold clientPop
      dsimp only
      split
      · rfl
      · split <;> rfl
    simp only [State.localRank, clientPop, more, pc]
    exact Spsc.rank_popStep hits more
  · cases h
  · cases h

/-- A step of the server that leaves the session as it is gets it on, unless it polls in vain. -/
theorem localRank_server_lt (inv : Inv N T methods client s)
    (reply : ∀ message, s.server = .replying message → s.output.contents = [])
    (h : exec N T methods client server s .server = some t) (same : t.abstract = s.abstract)
    (hits : ¬ s.input.Misses) : t.localRank .server < s.localRank .server := by
  have known := inv.server
  have input : t.input.contents = s.input.contents := congrArg Session.input same
  have output : t.output.contents = s.output.contents := congrArg Session.output same
  cases pc : s.server <;> simp only [exec, pc] at h <;> cases h <;> simp only [ServerInv, pc] at known
  · have more : (Spsc.popStep N s.input).2 = none := by
      apply inv.input.popStep_more
      rw [← input]
      unfold serverPop
      dsimp only
      split <;> rfl
    simp only [State.localRank, serverPop, more, pc]
    exact Spsc.rank_popStep hits more
  · have place := congrArg Session.server same
    unfold serverHandle at place
    split at place <;> simp [State.abstract, pc, ServerPc.abstract] at place
  · rename_i message
    have more := inv.output.pushStep_more known.1 output
    simp only [State.localRank, serverPush, more, pc]
    exact inv.output.rank_pushStep (reply message pc) more

/-- What a party can do in the session it can do on the rings, without a vain poll. -/
theorem advance (inv : Inv N T methods client s) {u : Session σ}
    (h : Rpc.exec T methods client server s.abstract p = some u) :
    ∃ t, exec N T methods client server s p = some t ∧ ¬ s.Misses p := by
  cases p with
  | client =>
    have known := inv.client
    have quiet (idle : s.output.consumer = .idle) : ¬ s.output.Misses := fun misses => misses.busy idle
    cases pc : s.client <;> simp only [ClientInv, pc] at known
      <;> simp only [State.abstract, pc, ClientPc.abstract, ClientPc.unsent, Rpc.exec] at h <;> simp only [exec, pc]
    · unfold clientSend at h
      unfold clientBegin
      cases todo : s.todo with
      | nil => exact ⟨_, rfl, quiet known.2⟩
      | cons c rest =>
        simp only [todo, List.nil_append] at h
        split at h
        · rename_i m found
          simp only [found]
          split <;> exact ⟨_, rfl, quiet known.2⟩
        · cases h
    · exact ⟨_, rfl, quiet known.2.2⟩
    · exact ⟨_, rfl, quiet known.2.2⟩
    · refine ⟨_, rfl, inv.output.hits fun empty => ?_⟩
      simp [clientReceive, empty] at h
    · cases h
    · cases h
  | server =>
    have known := inv.server
    have quiet (idle : s.input.consumer = .idle) : ¬ s.input.Misses := fun misses => misses.busy idle
    cases pc : s.server <;> simp only [ServerInv, pc] at known
      <;> simp only [State.abstract, pc, ServerPc.abstract, Rpc.exec] at h <;> simp only [exec, pc]
    · refine ⟨_, rfl, inv.input.hits fun empty => ?_⟩
      simp [serverReceive, empty] at h
    · exact ⟨_, rfl, quiet known.2⟩
    · exact ⟨_, rfl, quiet known.2⟩
    · cases h
    · cases h

/-! ## Runs -/

/-- A step of a party that polls in vain. -/
def Idle (N : Ring.Size) (T : MessageType) (methods : List (Method σ order)) (client server : Host) (s t : State σ) : Prop :=
  ∃ p, exec N T methods client server s p = some t ∧ s.Misses p

variable {s₀ : σ} {calls : List Invocation}

/-- Whoever sends finds its ring empty. -/
theorem empty_of_phase (phase : Phase methods client server s₀ calls s.abstract) :
    (s.client.abstract = .ready → s.input.contents = []) ∧
      ∀ message, s.server = .replying message → s.output.contents = [] := by
  have input : s.abstract.input = s.input.contents := rfl
  have output : s.abstract.output = s.output.contents := rfl
  have client : s.abstract.client = s.client.abstract := rfl
  have server : s.abstract.server = s.server.abstract := rfl
  rw [← input, ← output, ← client]
  constructor
  · intro ready
    generalize s.abstract = a at phase ready
    cases phase <;> first | rfl | cases ready
  · intro message pc
    simp only [pc, ServerPc.abstract] at server
    generalize s.abstract = a at phase server
    cases phase <;> first | rfl | cases server

/-- Every step but a vain poll decreases the rank. -/
theorem rank_lt (inv : Inv N T methods client s) (phase : Phase methods client server s₀ calls s.abstract)
    (h : exec N T methods client server s p = some t) (hits : ¬ s.Misses p) : t.rank < s.rank := by
  obtain ⟨send, reply⟩ := empty_of_phase phase
  have sum := localRank_sum h
  simp only [State.rank]
  rcases (inv.step h).2 with same | moved
  · have own : t.localRank p < s.localRank p := by
      cases p with
      | client => exact localRank_client_lt inv send h same hits
      | server => exact localRank_server_lt inv reply h same hits
    rw [same]
    omega
  · have fewer := exec_rank moved
    have own := localRank_lt h
    omega

/-- A vain poll leaves the session as it is and sends its party back by one step. -/
theorem vain_poll (inv : Inv N T methods client s) (h : exec N T methods client server s p = some t)
    (misses : s.Misses p) : t.abstract = s.abstract ∧ t.localRank p = s.localRank p + 1 := by
  cases p with
  | client =>
    have known := inv.client
    have busy := Spsc.State.Misses.busy misses
    cases pc : s.client <;> simp only [exec, pc] at h <;> simp only [ClientInv, pc] at known
    · exact absurd known.2 busy
    · exact absurd known.2.2 busy
    · exact absurd known.2.2 busy
    · cases h
      obtain ⟨more, less⟩ := Spsc.rank_popStep_of_misses (N := N) misses
      simp only [State.localRank, State.abstract, clientPop, more, pc, less, Spsc.contents_popStep more]
      exact ⟨trivial, trivial⟩
    · cases h
    · cases h
  | server =>
    have known := inv.server
    have busy := Spsc.State.Misses.busy misses
    cases pc : s.server <;> simp only [ServerInv, pc] at known <;> simp only [exec, pc] at h <;> cases h
    · obtain ⟨more, less⟩ := Spsc.rank_popStep_of_misses (N := N) misses
      simp only [State.localRank, State.abstract, serverPop, more, pc, less, Spsc.contents_popStep more]
      exact ⟨trivial, trivial⟩
    · exact absurd known.2 busy
    · exact absurd known.2 busy

theorem rank_of_misses (inv : Inv N T methods client s) (h : exec N T methods client server s p = some t)
    (misses : s.Misses p) : t.rank = s.rank + 1 := by
  obtain ⟨same, back⟩ := vain_poll inv h misses
  have sum := localRank_sum h
  simp only [State.rank, same]
  omega

/-- The session behind a pipe bounds its rank. -/
theorem rank_le (sound : Reachable (session T methods client server s₀ calls) s.abstract) :
    s.rank ≤ 25 * calls.length + 39 := by
  have bounded : Invariant (session T methods client server s₀ calls) fun s => s.rank ≤ 5 * calls.length + 6 :=
    invariant_of_actions (by simp [Rpc.start, Session.rank, Rpc.ClientPc.rank, Rpc.ServerPc.rank]) fun s t p le step =>
      Nat.le_trans (Nat.le_of_lt (exec_rank step)) le
  have session := bounded.reachable sound
  have := localRank_client_le s
  have := localRank_server_le s
  simp only [State.rank]
  omega

variable (small : methods.length ≤ 256) (callable : ∀ c ∈ calls, Callable methods client c)
  (answerable : Answerable methods server s₀ calls)
include small callable answerable

/-- The rings are in step with the threads, and the session is in one of its phases. -/
theorem invariant (N : Ring.Size) (T : MessageType) : Invariant (pipe N T methods client server s₀ calls) fun s =>
    Inv N T methods client s ∧ Phase methods client server s₀ calls s.abstract :=
  (simulation s₀ calls).pullback (phase_invariant T small callable answerable)

/-- From every reachable state some continuation ends the session. -/
theorem exists_end (h : Reachable (pipe N T methods client server s₀ calls) s) :
    ∃ n t, n ≤ s.rank ∧ Run (pipe N T methods client server s₀ calls) n s t ∧
      t.abstract = { between methods s₀ calls [] with client := .done, server := .stopped } := by
  have inv := invariant small callable answerable N T
  obtain ⟨n, t, le, run, known, final⟩ := exists_run inv.step State.rank
    (fun s => ∀ p, Rpc.exec T methods client server s.abstract p = none) (by
      rintro s ⟨inv, phase⟩ more
      rw [not_forall] at more
      obtain ⟨p, moves⟩ := more
      obtain ⟨u, hu⟩ := Option.ne_none_iff_exists'.mp moves
      obtain ⟨t, ht, hits⟩ := advance inv hu
      exact ⟨t, ⟨p, ht⟩, rank_lt inv phase ht hits⟩) s (inv.reachable h)
  exact ⟨n, t, le, run, known.2.eq_stopped callable final⟩

end

/-- **Remote calls over a pipe are local calls.** Whatever the order in which client and
server take their atomic steps: the calls that have returned gave what calling the service
directly gives, and the service went through the same states; neither side has failed; each
ring contains at most one message. Apart from polls that find their ring empty, a run takes
a bounded number of steps, and from every state it can be continued to the end, where all
calls have returned and the server has stopped. -/
theorem pipe_refines {σ : Type} {order : Containers} (N : Ring.Size) (T : MessageType) (methods : List (Method σ order))
    (client server : Host) (s₀ : σ) (calls : List Invocation)
    (small : methods.length ≤ 256) (callable : ∀ c ∈ calls, Callable methods client c)
    (answerable : Answerable methods server s₀ calls) {s : State σ}
    (h : Reachable (pipe N T methods client server s₀ calls) s) :
    (s.returned <+: (outcomes methods s₀ calls).map (·.1) ∧ s.states <+: (outcomes methods s₀ calls).map (·.2)) ∧
    (∀ f, s.client ≠ .failed f ∧ s.server ≠ .failed f) ∧
    (s.input.contents.length ≤ 1 ∧ s.output.contents.length ≤ 1) ∧
    (∀ n k t, Counted (pipe N T methods client server s₀ calls) (Idle N T methods client server) n k s t →
      n ≤ 25 * calls.length + 39 + k) ∧
    ∃ n t, n ≤ 25 * calls.length + 39 ∧ Run (pipe N T methods client server s₀ calls) n s t ∧ t.server = .stopped ∧
      t.client = .done ∧ t.returned = (outcomes methods s₀ calls).map (·.1) ∧
      t.states = (outcomes methods s₀ calls).map (·.2) ∧ t.service = stateAfter methods s₀ calls := by
  have inv := invariant small callable answerable N T
  have phase := (inv.reachable h).2
  have bound := rank_le ((simulation s₀ calls).reachable h)
  refine ⟨phase.history, ?_, ?_, ?_, ?_⟩
  · intro f
    have client : s.abstract.client = s.client.abstract := rfl
    have server : s.abstract.server = s.server.abstract := rfl
    constructor
    · intro pc
      rw [pc] at client
      generalize s.abstract = a at phase client
      cases phase <;> cases client
    · intro pc
      rw [pc] at server
      generalize s.abstract = a at phase server
      cases phase <;> cases server
  · have input : s.abstract.input = s.input.contents := rfl
    have output : s.abstract.output = s.output.contents := rfl
    rw [← input, ← output]
    generalize s.abstract = a at phase
    cases phase <;> exact ⟨by simp [between], by simp [between]⟩
  · intro n k t run
    have length := inv.counted_le State.rank (Idle N T methods client server) 1
      (fun s t known step busy => rank_lt known.1 known.2 step.choose_spec fun misses =>
        busy ⟨step.choose, step.choose_spec, misses⟩)
      (fun s t known _ idle => Nat.le_of_eq (rank_of_misses known.1 idle.choose_spec.1 idle.choose_spec.2))
      run (inv.reachable h)
    omega
  · obtain ⟨n, t, le, run, final⟩ := exists_end small callable answerable h
    refine ⟨n, t, Nat.le_trans le bound, run, ?_, ?_, congrArg Session.returned final, congrArg Session.states final,
      congrArg Session.service final⟩
    · have server := congrArg Session.server final
      cases pc : t.server <;> simp [State.abstract, pc, ServerPc.abstract] at server ⊢
    · have client := congrArg Session.client final
      cases pc : t.client <;> simp [State.abstract, pc, ClientPc.abstract] at client ⊢

/-- Three calls over rings of two slots return, and the server stops. -/
theorem pipe_refines_flag :
    let order : Containers := fun _ => .byKey (fun _ => 0) true
    ∃ s, Reachable (pipe Ring.Size.two defaultMessage (flagMethods order) smallHost smallHost false flagCalls) s ∧
      s.server = .stopped ∧ s.returned = [some (.int 0), none, some (.int 0)] := by
  intro order
  obtain ⟨-, -, -, -, n, s, -, run, stopped, -, returned, -, -⟩ := pipe_refines Ring.Size.two defaultMessage
    (flagMethods order) smallHost smallHost false flagCalls (by decide) (flag_callable order) (flag_answerable order)
    (.init rfl)
  exact ⟨s, (Reachable.init rfl).run run, stopped, returned⟩

end Erl.Rpc.Pipe
