import Erl.Queue.MpmcBlocking
import Erl.Rpc.Mailbox

/-!
# `EventQueue`: events from any number of threads

`EventCall::call` sends a request and does not wait; `kill` sends the empty message. Any
number of threads do so on one `BoundedMPMC`, and one thread runs `Server::run` (`erl/rpc`,
`_impl/rpc/protocol.hpp`, `_impl/net/service.hpp`, `_impl/net/queue.hpp`). All of them
take the atomic steps of the queue in any order. The queue implements the mailbox: a
message is put into it when its thread wins a ticket.
-/

namespace Erl.Rpc.Events
open Reflect TransitionSystem Function Queue

/-- The threads that send, and the one that runs the server. -/
inductive Thread (Tid : Type) where
  | client (t : Tid)
  | server
deriving DecidableEq

inductive ServerPc where
  /-- In `client.recv()`. -/
  | receiving
  | handling (message : Message)
  | stopped
  /-- `protocol::dispatch` has thrown. -/
  | failed (f : Failure)
  /-- `pop` has returned what was in a cell without an object. -/
  | undefined

structure State (Tid σ : Type) where
  service : σ
  server : ServerPc
  events : Mpmc.State (Thread Tid) Message
  /-- The messages each thread has still to send, with the one it is sending. -/
  todo : Tid → List Message
  /-- How many messages have been handled. -/
  handled : Nat

/-- A thread takes its next step, or has its weak exchange fail. -/
inductive Action (Tid : Type) where
  | client (t : Tid)
  | server
  | spurious (t : Thread Tid)

section
variable {Tid σ : Type} [DecidableEq Tid] (N : Ring.Size) (host : Host) (handlers : List (Handler σ))

/-- One step of `in->push(message)` in `send` or `kill`. -/
def clientPush (s : State Tid σ) (t : Tid) : Option (State Tid σ) :=
  match s.todo t with
  | [] => none
  | m :: rest =>
    let step := Mpmc.pushStep N s.events (.client t) m
    some { s with events := step.1, todo := if step.2 then update s.todo t rest else s.todo }

/-- One step of `out->pop()` in `Server::run`, and the test for the goodbye message. -/
def serverPop (s : State Tid σ) : State Tid σ :=
  let step := Mpmc.popStep N s.events .server
  match step.2 with
  | none => { s with events := step.1 }
  | some none => { s with events := step.1, server := .undefined }
  | some (some m) => { s with events := step.1, server := if m.length = 0 then .stopped else .handling m }

/-- `EventCall::handle`, which drops the response. -/
def serverHandle (s : State Tid σ) (message : Message) : State Tid σ :=
  match (dispatch host handlers message).run s.service with
  | (.ok _, service) => { s with server := .receiving, service := service, handled := s.handled + 1 }
  | (.error f, service) => { s with server := .failed f, service := service }

def exec (s : State Tid σ) : Action Tid → Option (State Tid σ)
  | .client t => clientPush N s t
  | .server =>
    match s.server with
    | .receiving => some (serverPop N s)
    | .handling message => some (serverHandle host handlers s message)
    | .stopped | .failed _ | .undefined => none
  | .spurious t => (Mpmc.exec N s.events (.spurious t)).map fun q => { s with events := q }

/-- Each thread is about to send the messages of its script. -/
def start (service : σ) (script : Tid → List Message) : State Tid σ where
  service := service
  server := .receiving
  events := Mpmc.start
  todo := script
  handled := 0

/-- Any interleaving of the steps of the threads. -/
def system (service : σ) (script : Tid → List Message) : System (State Tid σ) :=
  ofActions (start service script) (exec N host handlers)

/-! ## The mailbox behind the queue -/

def ServerPc.abstract : ServerPc → Mailbox.ServerPc
  | .receiving => .receiving
  | .handling _ | .undefined => .busy
  | .stopped => .stopped
  | .failed f => .failed f

/-- What thread `t` has still to put into the queue. -/
def State.unsent (s : State Tid σ) : Thread Tid → List Message
  | .client t => if (s.events.thread (.client t)).pushing.isSome then (s.todo t).tail else s.todo t
  | .server => []

def State.abstract (s : State Tid σ) : Mailbox.State (Thread Tid) σ where
  service := s.service
  server := s.server.abstract
  todo := s.unsent
  sent := s.events.entries
  handled := s.handled

/-- The script of each thread; the server sends nothing. -/
def scripts {α : Type} (script : Tid → List α) : Thread Tid → List α
  | .client t => script t
  | .server => []

/-- A sending thread is in `push` with the first of its messages. -/
def Sends (todo : List Message) (pc : Mpmc.Pc Message) : Prop :=
  match todo with
  | [] => pc = .idle
  | m :: _ => pc.Offers m

/-- Where the server is: the messages it has handled, and the one it is handling, are
the ones it has popped. -/
def ServerInv (s : State Tid σ) : Prop :=
  match s.server with
  | .receiving => Mpmc.Popping s.events .server s.handled
  | .handling m => s.events.thread .server = .idle ∧ s.events.queue.readPos = s.handled + 1 ∧
      ∃ t, s.events.entries[s.handled]? = some (t, m)
  | .stopped | .failed _ => s.events.thread .server = .idle
  | .undefined => False

structure Inv (s : State Tid σ) : Prop where
  queue : Mpmc.Inv N s.events
  clients : ∀ t, Sends (s.todo t) (s.events.thread (.client t))
  server : ServerInv s

end

section
variable {Tid σ : Type} {N : Ring.Size} {host : Host} {handlers : List (Handler σ)} {s t : State Tid σ}

theorem client_ne {t u : Tid} (h : u ≠ t) : Thread.client u ≠ Thread.client t := by
  rintro ⟨⟩
  exact h rfl

/-- Steps of other threads do not disturb the server. -/
theorem ServerInv.frame (server : ServerInv s) {q : Mpmc.State (Thread Tid) Message} {todo : Tid → List Message}
    (pc : q.thread .server = s.events.thread .server) (read : q.queue.readPos = s.events.queue.readPos)
    (entries : s.events.entries <+: q.entries) : ServerInv { s with events := q, todo := todo } := by
  unfold ServerInv at server ⊢
  cases place : s.server <;> simp only [place] at server ⊢
  · exact server.frame pc read entries
  · obtain ⟨idle, at_read, t, entry⟩ := server
    exact ⟨pc.trans idle, read.trans at_read, t, Mpmc.entry_kept entries entry⟩
  · exact pc.trans server
  · exact pc.trans server

/-- A step that puts nothing into the queue leaves the mailbox as it is. -/
theorem abstract_eq {q : Mpmc.State (Thread Tid) Message} {todo : Tid → List Message}
    (entries : q.entries = s.events.entries)
    (unsent : ∀ t, { s with events := q, todo := todo }.unsent (.client t) = s.unsent (.client t)) :
    { s with events := q, todo := todo }.abstract = s.abstract := by
  simp only [State.abstract, entries, Mailbox.State.mk.injEq, true_and, and_true]
  funext v
  cases v with
  | server => rfl
  | client v => exact unsent v

theorem sends_idle (todo : List Message) : Sends todo .idle := by
  cases todo with
  | nil => rfl
  | cons => trivial

theorem inv_start (service : σ) (script : Tid → List Message) : Inv N (start service script) where
  queue := Mpmc.inv_start
  clients t := sends_idle (script t)
  server := .searching (.inl rfl) rfl

variable [DecidableEq Tid]

theorem Inv.clientPush (host : Host) (handlers : List (Handler σ)) (inv : Inv N s) {u : Tid} (h : clientPush N s u = some t) :
    Inv N t ∧ (t.abstract = s.abstract ∨ Mailbox.exec host handlers s.abstract (.send (.client u)) = some t.abstract) := by
  unfold Events.clientPush at h
  split at h
  · cases h
  rename_i m rest todo
  cases h
  have offers := inv.clients u
  simp only [Sends, todo] at offers
  have others {v : Tid} (ne : v ≠ u) : (Mpmc.pushStep N s.events (.client u) m).1.thread (.client v) =
      s.events.thread (.client v) := Mpmc.pushStep_thread (client_ne ne)
  have still (v : Tid) : Sends (s.todo v) ((Mpmc.pushStep N s.events (.client u) m).1.thread (.client v)) := by
    by_cases h : v = u
    · subst h
      simpa only [Sends, todo] using Mpmc.pushStep_offers (N := N) offers
    · simpa only [others h] using inv.clients v
  have serving : (Mpmc.pushStep N s.events (.client u) m).1.thread .server = s.events.thread .server :=
    Mpmc.pushStep_thread nofun
  have reading : (Mpmc.pushStep N s.events (.client u) m).1.queue.readPos = s.events.queue.readPos :=
    Mpmc.pushStep_readPos
  cases Mpmc.pushed_pushStep (N := N) offers with
  | goes entries ticket more =>
    simp only [more, Bool.false_eq_true, if_false]
    refine ⟨⟨inv.queue.pushStep _ _, still, inv.server.frame serving reading (entries ▸ List.prefix_refl _)⟩, .inl ?_⟩
    apply abstract_eq entries
    intro v
    by_cases h : v = u
    · subst h
      simp only [State.unsent, ticket]
    · simp only [State.unsent, others h]
  | enters entries before after more =>
    simp only [more, Bool.false_eq_true, if_false]
    refine ⟨⟨inv.queue.pushStep _ _, still, inv.server.frame serving reading (entries ▸ List.prefix_append ..)⟩, .inr ?_⟩
    have next : s.unsent (.client u) = m :: rest := by simp [State.unsent, before, todo]
    simp only [Mailbox.exec, Mailbox.send, State.abstract, next, entries, Option.some.injEq,
      Mailbox.State.mk.injEq, true_and, and_true]
    funext v
    cases v with
    | server =>
      exact update_of_ne (by simp) ..
    | client v =>
      by_cases h : v = u
      · subst h
        simp [State.unsent, after, todo]
      · rw [update_of_ne (client_ne h)]
        simp only [State.unsent, others h]
  | returns entries before after last =>
    simp only [last, if_true]
    refine ⟨⟨inv.queue.pushStep _ _, ?_, inv.server.frame serving reading (entries ▸ List.prefix_refl _)⟩, .inl ?_⟩
    · intro v
      by_cases h : v = u
      · subst h
        simpa only [update_self, after] using sends_idle rest
      · simpa only [others h, update_of_ne h] using inv.clients v
    · apply abstract_eq entries
      intro v
      by_cases h : v = u
      · subst h
        have quiet : (Mpmc.Pc.idle : Mpmc.Pc Message).pushing.isSome = false := rfl
        simp only [State.unsent, before, after, todo, quiet, update_self, if_true, Bool.false_eq_true, if_false,
          List.tail_cons]
      · simp only [State.unsent, others h, update_of_ne h]

theorem Inv.serverPop (host : Host) (handlers : List (Handler σ)) (inv : Inv N s) (pc : s.server = .receiving) :
    Inv N (serverPop N s) ∧
      ((serverPop N s).abstract = s.abstract ∨
        Mailbox.exec host handlers s.abstract .server = some (serverPop N s).abstract) := by
  have known := inv.server
  simp only [ServerInv, pc] at known
  have clients (t : Tid) : Sends (s.todo t) ((Mpmc.popStep N s.events .server).1.thread (.client t)) := by
    simpa only [Mpmc.popStep_thread (N := N) (q := s.events) (t := .server) (u := .client t) nofun] using inv.clients t
  have entries := Mpmc.popStep_entries (N := N) (q := s.events) (t := .server)
  have unsent (t : Tid) : { s with events := (Mpmc.popStep N s.events .server).1 }.unsent (.client t) =
      s.unsent (.client t) := by
    simp only [State.unsent, Mpmc.popStep_thread (N := N) (q := s.events) (t := .server) (u := .client t) nofun]
  have same := abstract_eq (s := s) entries unsent
  rcases inv.queue.popping_popStep known with ⟨more, popping⟩ | ⟨u, m, last, entry, idle, read⟩
  · simp only [Events.serverPop, more]
    refine ⟨⟨inv.queue.popStep _, clients, ?_⟩, .inl same⟩
    simpa only [ServerInv, pc] using popping
  · simp only [Events.serverPop, last]
    refine ⟨⟨inv.queue.popStep _, clients, ?_⟩, .inr ?_⟩
    · by_cases size : m.length = 0
      · simp only [ServerInv, if_pos size]
        exact idle
      · simp only [ServerInv, if_neg size]
        exact ⟨idle, read, u, entries ▸ entry⟩
    · have unsent := congrArg Mailbox.State.todo same
      simp only [State.abstract] at unsent
      simp only [Mailbox.exec, State.abstract, pc, ServerPc.abstract, Mailbox.receive, entry, entries,
        Option.some.injEq, Mailbox.State.mk.injEq, true_and, and_true]
      refine ⟨?_, unsent.symm⟩
      split <;> rfl

theorem Inv.serverHandle (host : Host) (handlers : List (Handler σ)) (inv : Inv N s) {message : Message} (pc : s.server = .handling message) :
    Inv N (serverHandle host handlers s message) ∧
      Mailbox.exec host handlers s.abstract .server = some (serverHandle host handlers s message).abstract := by
  have known := inv.server
  simp only [ServerInv, pc] at known
  obtain ⟨idle, read, u, entry⟩ := known
  unfold Events.serverHandle
  split <;> rename_i answer
  · refine ⟨{ inv with server := .searching (.inl idle) read }, ?_⟩
    simp only [Mailbox.exec, State.abstract, pc, ServerPc.abstract, entry, Option.map_some, Mailbox.handle, answer]
    rfl
  · refine ⟨{ inv with server := idle }, ?_⟩
    simp only [Mailbox.exec, State.abstract, pc, ServerPc.abstract, entry, Option.map_some, Mailbox.handle, answer]
    rfl

theorem Inv.spurious (inv : Inv N s) {u : Thread Tid} {q : Mpmc.State (Thread Tid) Message}
    (h : Mpmc.exec N s.events (.spurious u) = some q) :
    Inv N { s with events := q } ∧ { s with events := q }.abstract = s.abstract := by
  obtain ⟨pc, retries⟩ := Mpmc.spurious_retries h
  have queue := inv.queue.step h
  obtain ⟨rfl, busy, ticket, offers, popping⟩ := retries
  refine ⟨⟨queue, ?_, ?_⟩, abstract_eq rfl ?_⟩
  · intro t
    have known := inv.clients t
    by_cases same : Thread.client t = u
    · subst same
      rw [Mpmc.goto_thread_self]
      dsimp only
      cases todo : s.todo t with
      | nil =>
        simp only [Sends, todo] at known
        exact absurd known busy
      | cons m rest =>
        simp only [Sends, todo] at known
        exact offers m known
    · rwa [Mpmc.goto_thread_of_ne same]
  · by_cases same : Thread.server = u
    · subst same
      have known := inv.server
      unfold ServerInv at known ⊢
      cases place : s.server <;> simp only [place] at known ⊢
      · exact popping _ known
      · exact absurd known.1 busy
      · exact absurd known busy
      · exact absurd known busy
    · exact inv.server.frame (Mpmc.goto_thread_of_ne same _) rfl (List.prefix_refl _)
  · intro t
    by_cases same : Thread.client t = u
    · subst same
      simp only [State.unsent, Mpmc.goto_thread_self, ticket]
    · simp only [State.unsent, Mpmc.goto_thread_of_ne same]

/-- Each step of any thread keeps the invariant and is a step of the mailbox or none. -/
theorem Inv.step (inv : Inv N s) {a : Action Tid} (h : exec N host handlers s a = some t) :
    Inv N t ∧ (t.abstract = s.abstract ∨ ∃ b, Mailbox.exec host handlers s.abstract b = some t.abstract) := by
  cases a with
  | client u =>
    obtain ⟨kept, same | sent⟩ := inv.clientPush host handlers h
    · exact ⟨kept, .inl same⟩
    · exact ⟨kept, .inr ⟨_, sent⟩⟩
  | server =>
    cases pc : s.server <;> simp only [exec, pc] at h <;> cases h
    · obtain ⟨kept, same | received⟩ := inv.serverPop host handlers pc
      · exact ⟨kept, .inl same⟩
      · exact ⟨kept, .inr ⟨_, received⟩⟩
    · obtain ⟨kept, done⟩ := inv.serverHandle host handlers pc
      exact ⟨kept, .inr ⟨_, done⟩⟩
  | spurious u =>
    obtain ⟨q, hq, rfl⟩ := Option.map_eq_some_iff.mp h
    obtain ⟨kept, same⟩ := inv.spurious hq
    exact ⟨kept, .inl same⟩

/-- **An event queue implements a mailbox.** -/
theorem simulation (service : σ) (script : Tid → List Message) :
    Simulation (system N host handlers service script) (Mailbox.system host handlers service (scripts script)) (Inv N)
      State.abstract where
  invariant := invariant_of_actions (inv_start service script) fun _ _ _ inv h => (inv.step h).1
  init := by
    rintro _ rfl
    simp only [State.abstract, Mailbox.system, Mailbox.start, ofActions, start, Mailbox.State.mk.injEq, true_and,
      and_true]
    refine ⟨rfl, funext fun v => ?_, rfl⟩
    cases v <;> rfl
  step s t inv h := by
    obtain ⟨a, ha⟩ := h
    rcases (inv.step ha).2 with same | moved
    · exact .inl same
    · exact .inr moved

end

end Erl.Rpc.Events
