import Erl.Lib.System
import Erl.Rpc.Method

/-!
# A blocking client and a server over a pipe

`BlockingCall::call` builds a request, sends it and waits for the response; `Server::run`
receives a message, handles it and sends the reply, until it receives the empty message
(`_impl/rpc/protocol.hpp`, `_impl/net/service.hpp`). The two queues of a `Pipe` are FIFO
channels. The values returned and the states of the service are recorded as ghost state.
-/

namespace Erl.Rpc
open Reflect Decoding TransitionSystem Message

/-- A call of the proxy of method `index`. -/
structure Invocation where
  index : Nat
  args : List Val

inductive ClientPc where
  | ready
  /-- In `Client::recv`, with the locals `read_response` needs. -/
  | awaiting (index : Nat) (result : Option Ty)
  /-- After `kill`. -/
  | done
  | failed (f : Failure)

inductive ServerPc where
  | receiving
  | handling (message : Message)
  | replying (reply : Message)
  | stopped
  | failed (f : Failure)

structure Session (σ : Type) where
  service : σ
  server : ServerPc
  client : ClientPc
  /-- The calls still to be made. -/
  todo : List Invocation
  /-- From the client to the server. -/
  input : List Message
  /-- From the server to the client. -/
  output : List Message
  /-- What each finished call returned. -/
  returned : List (Option Val)
  /-- The state of the service after each request it handled. -/
  states : List σ

inductive Party where
  | client
  | server

section
variable {σ : Type} {order : Containers} (T : MessageType) (methods : List (Method σ order)) (client server : Host)

/-- `protocol::request` and `Client::send(request)`, or `kill` when no call is left. -/
def clientSend (s : Session σ) : Option (Session σ) :=
  match s.todo with
  | [] => some { s with client := .done, input := s.input ++ [[]] }
  | c :: todo =>
    match methods[c.index]? with
    | some m =>
      match build T (requestCalls client c.index m.params c.args) with
      | .ok request => some { s with
          client := .awaiting c.index m.result
          todo := todo
          input := s.input ++ [request] }
      | .error f => some { s with client := .failed f, todo := todo }
    | none => none

/-- `Client::recv()` and `read_response`. -/
def clientReceive (order : Containers) (s : Session σ) (index : Nat) (result : Option Ty) : Option (Session σ) :=
  match s.output with
  | [] => none
  | response :: output =>
    match readResponse order client result index response with
    | .ok value => some { s with client := .ready, output := output, returned := s.returned ++ [value] }
    | .error f => some { s with client := .failed f, output := output }

/-- `client.recv()` in `Server::run`, and the test for the goodbye message. -/
def serverReceive (s : Session σ) : Option (Session σ) :=
  match s.input with
  | [] => none
  | message :: input => some { s with
      input := input
      server := if message.length = 0 then .stopped else .handling message }

/-- `protocol::dispatch` in `BlockingCall::handle`. -/
def serverHandle (s : Session σ) (message : Message) : Session σ :=
  match (dispatch server (answering T server methods) message).run s.service with
  | (.ok reply, service) => { s with server := .replying reply, service := service, states := s.states ++ [service] }
  | (.error f, service) => { s with server := .failed f, service := service }

/-- `Client::send(reply)` in `BlockingCall::handle`. -/
def serverSend (s : Session σ) (reply : Message) : Session σ :=
  { s with server := .receiving, output := s.output ++ [reply] }

def exec (s : Session σ) : Party → Option (Session σ)
  | .client =>
    match s.client with
    | .ready => clientSend T methods client s
    | .awaiting index result => clientReceive client order s index result
    | .done | .failed _ => none
  | .server =>
    match s.server with
    | .receiving => serverReceive s
    | .handling message => some (serverHandle T methods server s message)
    | .replying reply => some (serverSend s reply)
    | .stopped | .failed _ => none

/-- Before the first call. -/
def start (service : σ) (calls : List Invocation) : Session σ where
  service := service
  server := .receiving
  client := .ready
  todo := calls
  input := []
  output := []
  returned := []
  states := []

/-- Any interleaving of the client making `calls` and the server. -/
def session (service : σ) (calls : List Invocation) : System (Session σ) :=
  ofActions (start service calls) (exec T methods client server)

/-- The value a method returns and the state it leaves behind. -/
def invoke (s : σ) (c : Invocation) : Option Val × σ :=
  match methods[c.index]? with
  | some m => m.body s c.args
  | none => (none, s)

/-- The state after some calls. -/
def stateAfter (s : σ) (calls : List Invocation) : σ := calls.foldl (fun s c => (invoke methods s c).2) s

/-- What each of some calls returns and the state it leaves behind. -/
def outcomes (s : σ) : List Invocation → List (Option Val × σ)
  | [] => []
  | c :: calls => invoke methods s c :: outcomes (invoke methods s c).2 calls

/-- A call of an existing method with arguments of its parameter types, whose containers
the length prefix can count, and which fit into a message. -/
def Callable (c : Invocation) : Prop :=
  ∃ m, methods[c.index]? = some m ∧ Ty.admitsAll order m.params c.args = true ∧ Val.smallAll c.args = true ∧
    Fillable 0 (requestCalls client c.index m.params c.args)

/-- What each of some calls returns can be counted and fits into a message, too. -/
def Answerable (s : σ) : List Invocation → Prop
  | [] => True
  | c :: calls =>
    (∀ m, methods[c.index]? = some m → (∀ v ∈ (invoke methods s c).1, v.small = true) ∧
      Fillable 0 (responseCalls server c.index (m.carried (invoke methods s c).1))) ∧
    Answerable (invoke methods s c).2 calls

end

end Erl.Rpc
