import Erl.Queue.Blocking
import Erl.Rpc.Refinement
import Erl.Lib.Simulation

/-!
# A blocking client and a server over the rings of a `Pipe`

`Pipe` joins the two by two `BoundedSPSC` queues (`erl/rpc`). `QueueClient` sends with
`push` and receives with `pop`, which poll (`_impl/net/queue.hpp`, `_impl/queue/base.hpp`).
Here the two threads take the atomic steps of the rings in any order. The messages a
ring contains are those of the channel in `Session`: a message is sent and received in
the last steps of `push` and `pop`.
-/

namespace Erl.Rpc.Pipe
open Reflect Decoding TransitionSystem Queue Message

inductive ClientPc where
  | ready
  /-- In `Client::send(request)` of the call `c`. -/
  | calling (c : Invocation) (result : Option Ty) (request : Message)
  /-- In `kill`. -/
  | killing
  /-- In `Client::recv`. -/
  | awaiting (index : Nat) (result : Option Ty)
  | done
  | failed (f : Failure)

inductive ServerPc where
  /-- In `client.recv()`. -/
  | receiving
  | handling (message : Message)
  /-- In `Client::send(reply)`. -/
  | replying (reply : Message)
  | stopped
  | failed (f : Failure)

structure State (σ : Type) where
  service : σ
  server : ServerPc
  client : ClientPc
  todo : List Invocation
  /-- `Pipe::in`. -/
  input : Spsc.State Message
  /-- `Pipe::out`. -/
  output : Spsc.State Message
  returned : List (Option Val)
  states : List σ

section
variable {σ : Type} {order : Containers} (N : Ring.Size) (T : MessageType) (methods : List (Method σ order))
  (client server : Host)

/-- The client builds the request of the next call, or begins `kill` when none is left. -/
def clientBegin (s : State σ) : Option (State σ) :=
  match s.todo with
  | [] => some { s with client := .killing }
  | c :: todo =>
    match methods[c.index]? with
    | some m =>
      match build T (requestCalls client c.index m.params c.args) with
      | .ok request => some { s with client := .calling c m.result request, todo := todo }
      | .error f => some { s with client := .failed f, todo := todo }
    | none => none

/-- One step of `in->push(message)`, after which the client goes on to `next`. -/
def clientPush (s : State σ) (message : Message) (next : ClientPc) : State σ :=
  let step := Spsc.pushStep N s.input message
  { s with input := step.1, client := if step.2 then next else s.client }

/-- One step of `out->pop()`, and `read_response` once it has returned. -/
def clientPop (order : Containers) (s : State σ) (index : Nat) (result : Option Ty) : State σ :=
  let step := Spsc.popStep N s.output
  match step.2 with
  | none => { s with output := step.1 }
  | some response =>
    match readResponse order client result index response with
    | .ok value => { s with output := step.1, client := .ready, returned := s.returned ++ [value] }
    | .error f => { s with output := step.1, client := .failed f }

/-- One step of `out->pop()` in `Server::run`, and the test for the goodbye message. -/
def serverPop (s : State σ) : State σ :=
  let step := Spsc.popStep N s.input
  match step.2 with
  | none => { s with input := step.1 }
  | some message => { s with
      input := step.1
      server := if message.length = 0 then .stopped else .handling message }

/-- `protocol::dispatch` in `BlockingCall::handle`. -/
def serverHandle (s : State σ) (message : Message) : State σ :=
  match (dispatch server (answering T server methods) message).run s.service with
  | (.ok reply, service) => { s with server := .replying reply, service := service, states := s.states ++ [service] }
  | (.error f, service) => { s with server := .failed f, service := service }

/-- One step of `in->push(reply)`. -/
def serverPush (s : State σ) (reply : Message) : State σ :=
  let step := Spsc.pushStep N s.output reply
  { s with output := step.1, server := if step.2 then .receiving else s.server }

def exec (s : State σ) : Party → Option (State σ)
  | .client =>
    match s.client with
    | .ready => clientBegin T methods client s
    | .calling c result request => some (clientPush N s request (.awaiting c.index result))
    | .killing => some (clientPush N s [] .done)
    | .awaiting index result => some (clientPop N client order s index result)
    | .done | .failed _ => none
  | .server =>
    match s.server with
    | .receiving => some (serverPop N s)
    | .handling message => some (serverHandle T methods server s message)
    | .replying reply => some (serverPush N s reply)
    | .stopped | .failed _ => none

/-- Before the first call, with both rings newly constructed. -/
def start (service : σ) (calls : List Invocation) : State σ where
  service := service
  server := .receiving
  client := .ready
  todo := calls
  input := Spsc.start
  output := Spsc.start
  returned := []
  states := []

/-- Any interleaving of the steps of the client making `calls` and of the server. -/
def pipe (service : σ) (calls : List Invocation) : System (State σ) :=
  ofActions (start service calls) (exec N T methods client server)

def ClientPc.abstract : ClientPc → Rpc.ClientPc
  | .ready | .calling .. | .killing => .ready
  | .awaiting index result => .awaiting index result
  | .done => .done
  | .failed f => .failed f

/-- The call whose request is not yet in the ring. -/
def ClientPc.unsent : ClientPc → List Invocation
  | .calling c _ _ => [c]
  | _ => []

def ServerPc.abstract : ServerPc → Rpc.ServerPc
  | .receiving => .receiving
  | .handling message => .handling message
  | .replying reply => .replying reply
  | .stopped => .stopped
  | .failed f => .failed f

/-- The session that the state of the rings stands for. -/
def State.abstract (s : State σ) : Session σ where
  service := s.service
  server := s.server.abstract
  client := s.client.abstract
  todo := s.client.unsent ++ s.todo
  input := s.input.contents
  output := s.output.contents
  returned := s.returned
  states := s.states

/-- What the client's place in its code says about the producer of `in` and the consumer
of `out`, which are the client's. -/
def ClientInv (s : State σ) : Prop :=
  match s.client with
  | .calling c result request =>
    (∃ m, methods[c.index]? = some m ∧ result = m.result ∧
      build T (requestCalls client c.index m.params c.args) = .ok request) ∧
      s.input.producer.Offers request ∧ s.output.consumer = .idle
  | .killing => s.todo = [] ∧ s.input.producer.Offers [] ∧ s.output.consumer = .idle
  | .awaiting .. => s.input.producer = .idle
  | .ready | .done | .failed _ => s.input.producer = .idle ∧ s.output.consumer = .idle

/-- What the server's place in its code says about the consumer of `in` and the producer
of `out`. -/
def ServerInv (s : State σ) : Prop :=
  match s.server with
  | .receiving => s.output.producer = .idle
  | .replying reply => s.output.producer.Offers reply ∧ s.input.consumer = .idle
  | .handling _ | .stopped | .failed _ => s.output.producer = .idle ∧ s.input.consumer = .idle

structure Inv (s : State σ) : Prop where
  input : Spsc.Inv N s.input
  output : Spsc.Inv N s.output
  client : ClientInv T methods client s
  server : ServerInv s

end

end Erl.Rpc.Pipe
