import Erl.Rpc.PipeSession

/-!
# A pipe refines a session

Each atomic step of a pipe is a step of the session it stands for or leaves it as it is.
So remote calls over the rings are local calls too. Polling an empty ring is the one
step that gains nothing; with the other party there to answer it, every run that does not
poll forever ends with all calls returned.
-/

namespace Erl.Rpc.Pipe
open Reflect Decoding TransitionSystem Queue Message

section
variable {σ : Type} {order : Containers} {N : Ring.Size} {T : MessageType} {methods : List (Method σ order)} {client server : Host}
variable {s t : State σ}

theorem inv_start (service : σ) (calls : List Invocation) : Inv N T methods client (start service calls) where
  input := Spsc.inv_start N
  output := Spsc.inv_start N
  client := ⟨rfl, rfl⟩
  server := rfl

/-! ## The client -/

theorem Inv.clientBegin (inv : Inv N T methods client s) (pc : s.client = .ready)
    (h : clientBegin T methods client s = some t) : Inv N T methods client t ∧
      (t.abstract = s.abstract ∨ Rpc.exec T methods client server s.abstract .client = some t.abstract) := by
  have idle := inv.client
  simp only [ClientInv, pc] at idle
  unfold Pipe.clientBegin at h
  cases todo : s.todo with
  | nil =>
    simp only [todo, Option.some.injEq] at h
    subst h
    refine ⟨{ inv with client := ?_ }, .inl ?_⟩
    · simp only [ClientInv, idle.1, idle.2]
      exact ⟨trivial, trivial, trivial⟩
    · simp [State.abstract, pc, todo, ClientPc.abstract, ClientPc.unsent]
  | cons c rest =>
    simp only [todo] at h
    split at h
    · rename_i m found
      split at h <;> rename_i built <;> cases h
      · refine ⟨{ inv with client := ?_ }, .inl ?_⟩
        · simp only [ClientInv, idle.1, idle.2]
          exact ⟨⟨m, found, rfl, built⟩, trivial, trivial⟩
        · simp [State.abstract, pc, todo, ClientPc.abstract, ClientPc.unsent]
      · refine ⟨{ inv with client := idle }, .inr ?_⟩
        simp [State.abstract, pc, todo, ClientPc.abstract, ClientPc.unsent, Rpc.exec, clientSend, found, built]
    · cases h

/-- A step of `push` leaves the session as it is, until the last one sends the message. -/
theorem Inv.clientPush (inv : Inv N T methods client s) {message : Message} {next : ClientPc}
    (offers : s.input.producer.Offers message)
    (stay : ∀ q, q.producer.Offers message → ClientInv T methods client { s with input := q })
    (go : ∀ q, q.producer = .idle → ClientInv T methods client { s with input := q, client := next })
    (sends : Rpc.exec T methods client server s.abstract .client = some { s.abstract with
      client := next.abstract, todo := next.unsent ++ s.todo, input := s.input.contents ++ [message] }) :
    Inv N T methods client (clientPush N s message next) ∧
      ((clientPush N s message next).abstract = s.abstract ∨
        Rpc.exec T methods client server s.abstract .client = some (clientPush N s message next).abstract) := by
  have contents := inv.input.contents_pushStep offers
  have served : ServerInv (Pipe.clientPush N s message next) := by
    simpa only [ServerInv, Pipe.clientPush, Spsc.pushStep_consumer] using inv.server
  cases last : (Spsc.pushStep N s.input message).2 with
  | false =>
    simp only [last, Bool.false_eq_true, if_false] at contents
    refine ⟨⟨inv.input.pushStep _, inv.output, ?_, served⟩, .inl ?_⟩
    · simp only [Pipe.clientPush, last, Bool.false_eq_true, if_false]
      exact stay _ (Spsc.pushStep_offers offers)
    · simp [State.abstract, Pipe.clientPush, last, contents]
  | true =>
    simp only [last, if_true] at contents
    refine ⟨⟨inv.input.pushStep _, inv.output, ?_, served⟩, .inr ?_⟩
    · simp only [Pipe.clientPush, last, if_true]
      exact go _ (Spsc.pushStep_done last)
    · rw [sends]
      simp [State.abstract, Pipe.clientPush, last, contents]

theorem Inv.clientPop (inv : Inv N T methods client s) {index : Nat} {result : Option Ty}
    (pc : s.client = .awaiting index result) :
    Inv N T methods client (clientPop N client order s index result) ∧
      ((clientPop N client order s index result).abstract = s.abstract ∨
        Rpc.exec T methods client server s.abstract .client = some (clientPop N client order s index result).abstract) := by
  have known := inv.client
  simp only [ClientInv, pc] at known
  have served (q : Spsc.State Message) (same : q.producer = s.output.producer) (pc : ClientPc) (values : List (Option Val)) :
      ServerInv { s with output := q, client := pc, returned := values } := by
    simpa only [ServerInv, same] using inv.server
  cases last : (Spsc.popStep N s.output).2 with
  | none =>
    simp only [Pipe.clientPop, last]
    refine ⟨⟨inv.input, inv.output.popStep, ?_, served _ Spsc.popStep_producer _ _⟩, .inl ?_⟩
    · simpa only [ClientInv, pc] using known
    · simp [State.abstract, Spsc.contents_popStep last]
  | some response =>
    have contents := inv.output.contents_popStep last
    have idle := Spsc.popStep_done last
    simp only [Pipe.clientPop, last]
    cases read : readResponse order client result index response with
    | ok value =>
      refine ⟨⟨inv.input, inv.output.popStep, ⟨known, idle⟩, served _ Spsc.popStep_producer _ _⟩, .inr ?_⟩
      simp [State.abstract, pc, contents, read, ClientPc.abstract, ClientPc.unsent, Rpc.exec, clientReceive]
    | error f =>
      refine ⟨⟨inv.input, inv.output.popStep, ⟨known, idle⟩, served _ Spsc.popStep_producer _ _⟩, .inr ?_⟩
      simp [State.abstract, pc, contents, read, ClientPc.abstract, ClientPc.unsent, Rpc.exec, clientReceive]

theorem Inv.serverPop (inv : Inv N T methods client s) (pc : s.server = .receiving) :
    Inv N T methods client (serverPop N s) ∧
      ((serverPop N s).abstract = s.abstract ∨
        Rpc.exec T methods client server s.abstract .server = some (serverPop N s).abstract) := by
  have known := inv.server
  simp only [ServerInv, pc] at known
  have called (q : Spsc.State Message) (same : q.producer = s.input.producer) (pc : ServerPc) :
      ClientInv T methods client { s with input := q, server := pc } := by
    simpa only [ClientInv, same] using inv.client
  cases last : (Spsc.popStep N s.input).2 with
  | none =>
    simp only [Pipe.serverPop, last]
    refine ⟨⟨inv.input.popStep, inv.output, called _ Spsc.popStep_producer _, ?_⟩, .inl ?_⟩
    · simpa only [ServerInv, pc] using known
    · simp [State.abstract, Spsc.contents_popStep last]
  | some message =>
    have contents := inv.input.contents_popStep last
    have idle := Spsc.popStep_done last
    simp only [Pipe.serverPop, last]
    refine ⟨⟨inv.input.popStep, inv.output, called _ Spsc.popStep_producer _, ?_⟩, .inr ?_⟩
    · simp only [ServerInv]
      split <;> rename_i at_work <;> split at at_work <;> cases at_work <;> exact ⟨known, idle⟩
    · simp only [State.abstract, pc, contents, ServerPc.abstract, Rpc.exec, serverReceive]
      split <;> rfl

theorem Inv.serverHandle (server : Host) (inv : Inv N T methods client s) {message : Message} (pc : s.server = .handling message) :
    Inv N T methods client (serverHandle T methods server s message) ∧
      Rpc.exec T methods client server s.abstract .server = some (serverHandle T methods server s message).abstract := by
  have known := inv.server
  simp only [ServerInv, pc] at known
  unfold Pipe.serverHandle
  split <;> rename_i answer
  · refine ⟨{ inv with server := ?_ }, ?_⟩
    · simp only [ServerInv, known.1, known.2]
      exact ⟨trivial, trivial⟩
    · simp [State.abstract, pc, ServerPc.abstract, Rpc.exec, Rpc.serverHandle, answer]
  · refine ⟨{ inv with server := known }, ?_⟩
    simp [State.abstract, pc, ServerPc.abstract, Rpc.exec, Rpc.serverHandle, answer]

theorem Inv.serverPush (inv : Inv N T methods client s) {reply : Message} (pc : s.server = .replying reply) :
    Inv N T methods client (serverPush N s reply) ∧
      ((serverPush N s reply).abstract = s.abstract ∨
        Rpc.exec T methods client server s.abstract .server = some (serverPush N s reply).abstract) := by
  have known := inv.server
  simp only [ServerInv, pc] at known
  have contents := inv.output.contents_pushStep known.1
  have called : ClientInv T methods client (Pipe.serverPush N s reply) := by
    simpa only [ClientInv, Pipe.serverPush, Spsc.pushStep_consumer] using inv.client
  cases last : (Spsc.pushStep N s.output reply).2 with
  | false =>
    simp only [last, Bool.false_eq_true, if_false] at contents
    refine ⟨⟨inv.input, inv.output.pushStep _, called, ?_⟩, .inl ?_⟩
    · simp only [ServerInv, Pipe.serverPush, last, Bool.false_eq_true, if_false, pc]
      exact ⟨Spsc.pushStep_offers known.1, known.2⟩
    · simp [State.abstract, Pipe.serverPush, last, contents]
  | true =>
    simp only [last, if_true] at contents
    refine ⟨⟨inv.input, inv.output.pushStep _, called, ?_⟩, .inr ?_⟩
    · simp only [ServerInv, Pipe.serverPush, last, if_true]
      exact Spsc.pushStep_done last
    · simp [State.abstract, Pipe.serverPush, last, contents, pc, ServerPc.abstract, Rpc.exec, serverSend]

/-- Each step of either thread keeps the invariant and is a step of the session or none. -/
theorem Inv.step (inv : Inv N T methods client s) {p : Party} (h : exec N T methods client server s p = some t) :
    Inv N T methods client t ∧
      (t.abstract = s.abstract ∨ Rpc.exec T methods client server s.abstract p = some t.abstract) := by
  have known := inv.client
  cases p with
  | client =>
    cases pc : s.client <;> simp only [exec, pc] at h <;> simp only [ClientInv, pc] at known
    · exact inv.clientBegin pc h
    · cases h
      obtain ⟨⟨m, found, rfl, built⟩, offers, idle⟩ := known
      apply inv.clientPush offers
      · intro q offers
        simp only [ClientInv, pc]
        exact ⟨⟨m, found, rfl, built⟩, offers, idle⟩
      · intro q quiet
        exact quiet
      · simp [State.abstract, pc, ClientPc.abstract, ClientPc.unsent, Rpc.exec, clientSend, found, built]
    · cases h
      obtain ⟨todo, offers, idle⟩ := known
      apply inv.clientPush offers
      · intro q offers
        simp only [ClientInv, pc]
        exact ⟨todo, offers, idle⟩
      · intro q quiet
        exact ⟨quiet, idle⟩
      · simp [State.abstract, pc, todo, ClientPc.abstract, ClientPc.unsent, Rpc.exec, clientSend]
    · cases h
      exact inv.clientPop pc
    · cases h
    · cases h
  | server =>
    cases pc : s.server <;> simp only [exec, pc] at h <;> cases h
    · exact inv.serverPop pc
    · obtain ⟨kept, handled⟩ := inv.serverHandle server pc
      exact ⟨kept, .inr handled⟩
    · exact inv.serverPush pc

/-- **A pipe refines a session.** -/
theorem simulation (service : σ) (calls : List Invocation) :
    Simulation (pipe N T methods client server service calls) (session T methods client server service calls)
      (Inv N T methods client) State.abstract where
  invariant := invariant_of_actions (inv_start service calls) fun _ _ _ inv h => (inv.step h).1
  init := by
    rintro _ rfl
    rfl
  step s t inv h := by
    obtain ⟨p, hp⟩ := h
    rcases (inv.step hp).2 with same | moved
    · exact .inl same
    · exact .inr ⟨p, moved⟩

end

end Erl.Rpc.Pipe
