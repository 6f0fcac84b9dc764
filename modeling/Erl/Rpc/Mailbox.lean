import Erl.Lib.Interleaving
import Erl.Lib.Simulation
import Erl.Rpc.Protocol
import Mathlib.Logic.Function.Basic

/-!
# A mailbox of events

What an `EventQueue` is for: any number of threads put messages into one mailbox and the
server handles them one after the other, until it comes to an empty one. Putting a message
is one step. Nothing here is about queues; `Erl.Rpc.EventQueue` implements it.
-/

namespace Erl.Rpc.Mailbox
open Reflect TransitionSystem Interleaving Function

inductive ServerPc where
  | receiving
  /-- Handling the next message. -/
  | busy
  | stopped
  | failed (f : Failure)

structure State (Tid σ : Type) where
  service : σ
  server : ServerPc
  /-- What each thread has still to send. -/
  todo : Tid → List Message
  /-- Who sent what, in order. -/
  sent : List (Tid × Message)
  /-- How many of the messages have been handled. -/
  handled : Nat

inductive Action (Tid : Type) where
  | send (t : Tid)
  | server

section
variable {Tid σ : Type} [DecidableEq Tid] (host : Host) (handlers : List (Handler σ))

def send (s : State Tid σ) (t : Tid) : Option (State Tid σ) :=
  match s.todo t with
  | [] => none
  | m :: rest => some { s with todo := update s.todo t rest, sent := s.sent ++ [(t, m)] }

def receive (s : State Tid σ) : Option (State Tid σ) :=
  match s.sent[s.handled]? with
  | none => none
  | some e => some { s with server := if e.2.length = 0 then .stopped else .busy }

def handle (s : State Tid σ) (message : Message) : State Tid σ :=
  match (dispatch host handlers message).run s.service with
  | (.ok _, service) => { s with server := .receiving, service := service, handled := s.handled + 1 }
  | (.error f, service) => { s with server := .failed f, service := service }

def exec (s : State Tid σ) : Action Tid → Option (State Tid σ)
  | .send t => send s t
  | .server =>
    match s.server with
    | .receiving => receive s
    | .busy => s.sent[s.handled]?.map fun e => handle host handlers s e.2
    | .stopped | .failed _ => none

def start (service : σ) (script : Tid → List Message) : State Tid σ where
  service := service
  server := .receiving
  todo := script
  sent := []
  handled := 0

/-- The threads send what their scripts say, in any interleaving. -/
def system (service : σ) (script : Tid → List Message) : System (State Tid σ) :=
  ofActions (start service script) (exec host handlers)

/-- `Handles s ms t`: handling the messages `ms`, none of them empty, one after the other
leads the service from `s` to `t`. -/
inductive Handles : σ → List Message → σ → Prop where
  | nil (s : σ) : Handles s [] s
  | snoc {s t u : σ} {ms : List Message} {m reply : Message} : Handles s ms t → m.length ≠ 0 →
      (dispatch host handlers m).run t = (.ok reply, u) → Handles s (ms ++ [m]) u

/-- What the server's place in its loop says about the service. -/
def ServerInv (s₀ : σ) (s : State Tid σ) : Prop :=
  match s.server with
  | .receiving => Handles host handlers s₀ ((s.sent.take s.handled).map (·.2)) s.service
  | .busy => Handles host handlers s₀ ((s.sent.take s.handled).map (·.2)) s.service ∧
      ∃ e, s.sent[s.handled]? = some e ∧ e.2.length ≠ 0
  | .stopped => Handles host handlers s₀ ((s.sent.take s.handled).map (·.2)) s.service ∧
      ∃ e, s.sent[s.handled]? = some e ∧ e.2.length = 0
  | .failed f => ∃ t e, Handles host handlers s₀ ((s.sent.take s.handled).map (·.2)) t ∧
      s.sent[s.handled]? = some e ∧ e.2.length ≠ 0 ∧ (dispatch host handlers e.2).run t = (.error f, s.service)

/-- Each thread sends its script in order, and the service is where the handled messages
take it. -/
structure Inv (s₀ : σ) (script : Tid → List Message) (s : State Tid σ) : Prop where
  order : ∀ t, part s.sent t ++ s.todo t = script t
  handled_le : s.handled ≤ s.sent.length
  server : ServerInv host handlers s₀ s

variable {host handlers} {s₀ : σ} {script : Tid → List Message} {s t : State Tid σ}

theorem Inv.send (inv : Inv host handlers s₀ script s) {u : Tid} (h : send s u = some t) :
    Inv host handlers s₀ script t := by
  unfold Mailbox.send at h
  split at h
  · cases h
  · rename_i m rest todo
    cases h
    have keep {e : Tid × Message} (here : s.sent[s.handled]? = some e) : (s.sent ++ [(u, m)])[s.handled]? = some e := by
      rw [List.getElem?_append_left (List.getElem?_eq_some_iff.mp here).1]
      exact here
    have first : (s.sent ++ [(u, m)]).take s.handled = s.sent.take s.handled :=
      List.take_append_of_le_length inv.handled_le
    refine ⟨?_, ?_, ?_⟩
    · intro t
      dsimp only
      rw [part_snoc, ← inv.order t]
      split
      · rename_i same
        subst same
        rw [update_self, todo, List.append_assoc]
        rfl
      · rename_i other
        rw [update_of_ne (Ne.symm other)]
    · rw [List.length_append]
      exact Nat.le_add_right_of_le inv.handled_le
    · have known := inv.server
      simp only [ServerInv, first] at known ⊢
      cases pc : s.server <;> simp only [pc] at known ⊢
      · exact known
      · obtain ⟨handled, e, here, size⟩ := known
        exact ⟨handled, e, keep here, size⟩
      · obtain ⟨handled, e, here, size⟩ := known
        exact ⟨handled, e, keep here, size⟩
      · obtain ⟨v, e, handled, here, size, fails⟩ := known
        exact ⟨v, e, handled, keep here, size, fails⟩

theorem Inv.receive (inv : Inv host handlers s₀ script s) (pc : s.server = .receiving) (h : receive s = some t) :
    Inv host handlers s₀ script t := by
  have known := inv.server
  simp only [ServerInv, pc] at known
  unfold Mailbox.receive at h
  split at h
  · cases h
  · rename_i e here
    cases h
    refine { inv with server := ?_ }
    by_cases size : e.2.length = 0
    · simp only [ServerInv, if_pos size]
      exact ⟨known, e, here, size⟩
    · simp only [ServerInv, if_neg size]
      exact ⟨known, e, here, size⟩

theorem Inv.handle (inv : Inv host handlers s₀ script s) (pc : s.server = .busy) {e : Tid × Message}
    (here : s.sent[s.handled]? = some e) : Inv host handlers s₀ script (handle host handlers s e.2) := by
  have known := inv.server
  simp only [ServerInv, pc] at known
  obtain ⟨handled, e', here', size⟩ := known
  cases here.symm.trans here'
  obtain ⟨bound, at_handled⟩ := List.getElem?_eq_some_iff.mp here
  unfold Mailbox.handle
  split <;> rename_i answer
  · refine ⟨inv.order, bound, ?_⟩
    simp only [ServerInv]
    rw [List.take_succ_eq_append_getElem bound, at_handled, List.map_append]
    exact handled.snoc size answer
  · exact ⟨inv.order, inv.handled_le, s.service, e, handled, here, size, answer⟩

theorem Inv.step (inv : Inv host handlers s₀ script s) {a : Action Tid} (h : exec host handlers s a = some t) :
    Inv host handlers s₀ script t := by
  cases a with
  | send u => exact inv.send h
  | server =>
    cases pc : s.server <;> simp only [exec, pc] at h
    · exact inv.receive pc h
    · obtain ⟨e, here, same⟩ := Option.map_eq_some_iff.mp h
      subst same
      exact inv.handle pc here
    · cases h
    · cases h

theorem invariant : Invariant (system host handlers s₀ script) (Inv host handlers s₀ script) :=
  invariant_of_actions ⟨fun _ => rfl, Nat.le_refl 0, .nil s₀⟩ fun _ _ _ inv h => inv.step h

end

end Erl.Rpc.Mailbox
