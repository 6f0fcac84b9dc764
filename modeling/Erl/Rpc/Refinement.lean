import Erl.Rpc.Session

/-!
# Remote calls are local calls

A session passes through the same few phases for every call, whatever the interleaving:
at any time at most one message is on its way. Each step leads from phase to phase and
brings the session closer to its end, so every session ends, with the values and the
states that calling the service directly gives.
-/

namespace Erl.Rpc
open Reflect Decoding TransitionSystem Ordered Message

section
variable {σ : Type} {order : Containers} {T : MessageType} {methods : List (Method σ order)} {client server : Host}

theorem stateAfter_append (s : σ) (done : List Invocation) (c : Invocation) :
    stateAfter methods s (done ++ [c]) = (invoke methods (stateAfter methods s done) c).2 :=
  List.foldl_append ..

theorem outcomes_append (s : σ) (done : List Invocation) (c : Invocation) :
    outcomes methods s (done ++ [c]) = outcomes methods s done ++ [invoke methods (stateAfter methods s done) c] := by
  induction done generalizing s with
  | nil => rfl
  | cons d done ih =>
    rw [List.cons_append, outcomes, ih]
    rfl

theorem outcomes_initial (s : σ) (done rest : List Invocation) :
    outcomes methods s done <+: outcomes methods s (done ++ rest) := by
  induction done generalizing s with
  | nil => exact List.nil_prefix
  | cons d done ih => exact List.cons_prefix_cons.mpr ⟨rfl, ih _⟩

theorem invoke_found {c : Invocation} {m : Method σ order} (found : methods[c.index]? = some m) (s : σ) :
    invoke methods s c = m.body s c.args := by
  simp only [invoke, found]

/-- What a call returns after some calls can be sent. -/
theorem Answerable.after {s : σ} {done todo : List Invocation} {c : Invocation} {m : Method σ order}
    (answerable : Answerable methods server s (done ++ c :: todo)) (found : methods[c.index]? = some m) :
    (∀ v ∈ (invoke methods (stateAfter methods s done) c).1, v.small = true) ∧
      Fillable 0 (responseCalls server c.index (m.carried (invoke methods (stateAfter methods s done) c).1)) := by
  induction done generalizing s with
  | nil => exact answerable.1 m found
  | cons d done ih => exact ih answerable.2

variable (methods client server) (s₀ : σ) (calls : List Invocation)

/-- Between two calls, after the calls `done`. -/
def between (done todo : List Invocation) : Session σ where
  service := stateAfter methods s₀ done
  server := .receiving
  client := .ready
  todo := todo
  input := []
  output := []
  returned := (outcomes methods s₀ done).map (·.1)
  states := (outcomes methods s₀ done).map (·.2)

/-- The states a session passes through: for each call the request is sent, received,
handled and answered, and at the end the client says goodbye. -/
inductive Phase : Session σ → Prop where
  | ready (done todo : List Invocation) (split : calls = done ++ todo) :
    Phase (between methods s₀ done todo)
  | requested (done todo : List Invocation) (c : Invocation) (m : Method σ order) (split : calls = done ++ c :: todo)
      (found : methods[c.index]? = some m) :
    Phase { between methods s₀ done todo with
      client := .awaiting c.index m.result
      input := [request client c.index m.params c.args] }
  | received (done todo : List Invocation) (c : Invocation) (m : Method σ order) (split : calls = done ++ c :: todo)
      (found : methods[c.index]? = some m) :
    Phase { between methods s₀ done todo with
      client := .awaiting c.index m.result
      server := .handling (request client c.index m.params c.args) }
  | handled (done todo : List Invocation) (c : Invocation) (m : Method σ order) (split : calls = done ++ c :: todo)
      (found : methods[c.index]? = some m) :
    Phase { between methods s₀ (done ++ [c]) todo with
      returned := (outcomes methods s₀ done).map (·.1)
      client := .awaiting c.index m.result
      server := .replying (makeResponse server c.index (m.carried (invoke methods (stateAfter methods s₀ done) c).1)) }
  | answered (done todo : List Invocation) (c : Invocation) (m : Method σ order) (split : calls = done ++ c :: todo)
      (found : methods[c.index]? = some m) :
    Phase { between methods s₀ (done ++ [c]) todo with
      returned := (outcomes methods s₀ done).map (·.1)
      client := .awaiting c.index m.result
      output := [makeResponse server c.index (m.carried (invoke methods (stateAfter methods s₀ done) c).1)] }
  | goodbye : Phase { between methods s₀ calls [] with client := .done, input := [[]] }
  | stopped : Phase { between methods s₀ calls [] with client := .done, server := .stopped }

variable {methods client server s₀ calls}

/-- Each step leads from one phase to the next. -/
theorem Phase.step (small : methods.length ≤ 256) (callable : ∀ c ∈ calls, Callable methods client c)
    (answerable : Answerable methods server s₀ calls) {s s' : Session σ}
    (phase : Phase methods client server s₀ calls s) {p : Party} (h : exec T methods client server s p = some s') :
    Phase methods client server s₀ calls s' := by
  cases phase with
  | ready done todo split =>
    cases p with
    | server => cases h
    | client =>
      cases todo with
      | nil =>
        cases h
        rw [List.append_nil] at split
        subst split
        exact .goodbye
      | cons c todo =>
        obtain ⟨m, found, -, -, fillable⟩ := callable c (by simp [split])
        simp only [exec, between, clientSend, found, build_eq T fillable] at h
        cases h
        exact .requested done todo c m split found
  | requested done todo c m split found =>
    cases p with
    | client => cases h
    | server =>
      have size : (request client c.index m.params c.args).length ≠ 0 := by
        simpa using request_ne_nil client c.index m.params c.args
      simp only [exec, between, serverReceive, if_neg size] at h
      cases h
      exact .received done todo c m split found
  | received done todo c m split found =>
    cases p with
    | client => cases h
    | server =>
      obtain ⟨m', found', typed, countable, -⟩ := callable c (by simp [split])
      cases found.symm.trans found'
      have fillable := (split ▸ answerable).after found |>.2
      rw [invoke_found found] at fillable
      have answer := dispatch_call T client server small found typed countable fillable
      rw [← invoke_found found] at answer
      simp only [exec, between, serverHandle, answer, Option.some.injEq] at h
      subst h
      have next : Phase methods client server s₀ calls _ := .handled done todo c m split found
      simp only [between, stateAfter_append, outcomes_append, List.map_append] at next
      exact next
  | handled done todo c m split found =>
    cases p with
    | client => cases h
    | server =>
      cases h
      exact .answered done todo c m split found
  | answered done todo c m split found =>
    cases p with
    | server => cases h
    | client =>
      obtain ⟨m', found', typed, -⟩ := callable c (by simp [split])
      cases found.symm.trans found'
      have countable := (split ▸ answerable).after found |>.1
      have returns := m.returns (stateAfter methods s₀ done) c.args typed
      rw [← invoke_found found] at returns
      have read := readResponse_makeResponse client server m c.index returns countable
      simp only [exec, between, clientReceive, read, Option.some.injEq] at h
      subst h
      have next : Phase methods client server s₀ calls _ := .ready (done ++ [c]) todo (by simpa using split)
      simp only [between, outcomes_append, List.map_append] at next ⊢
      exact next
  | goodbye =>
    cases p with
    | client => cases h
    | server =>
      cases h
      exact .stopped
  | stopped => cases p <;> cases h

theorem phase_invariant (T : MessageType) (small : methods.length ≤ 256) (callable : ∀ c ∈ calls, Callable methods client c)
    (answerable : Answerable methods server s₀ calls) :
    Invariant (session T methods client server s₀ calls) (Phase methods client server s₀ calls) :=
  invariant_of_actions (.ready [] calls rfl) fun _ _ _ phase h => phase.step small callable answerable h

/-! ## Every session comes to its end -/

def ClientPc.rank : ClientPc → Nat
  | .ready | .awaiting .. => 6
  | .done | .failed _ => 0

def ServerPc.rank : ServerPc → Nat
  | .handling _ => 3
  | .replying _ => 2
  | .receiving | .stopped | .failed _ => 0

/-- How many steps are left at most. -/
def Session.rank (s : Session σ) : Nat :=
  5 * s.todo.length + 4 * s.input.length + s.output.length + s.client.rank + s.server.rank

theorem clientSend_rank {s s' : Session σ} (ready : s.client = .ready) (h : clientSend T methods client s = some s') :
    s'.rank < s.rank := by
  unfold clientSend at h
  cases todo : s.todo with
  | nil =>
    simp only [todo, Option.some.injEq] at h
    subst h
    simp only [Session.rank, ready, todo, ClientPc.rank, List.length_append, List.length_cons, List.length_nil]
    omega
  | cons c rest =>
    simp only [todo] at h
    split at h
    · split at h <;> cases h <;>
        simp only [Session.rank, ready, todo, ClientPc.rank, List.length_append, List.length_cons, List.length_nil] <;> omega
    · cases h

theorem clientReceive_rank {s s' : Session σ} {index : Nat} {result : Option Ty}
    (waiting : s.client = .awaiting index result)
    (h : clientReceive client order s index result = some s') : s'.rank < s.rank := by
  unfold clientReceive at h
  cases output : s.output with
  | nil => simp [output] at h
  | cons response rest =>
    simp only [output] at h
    split at h <;> cases h <;> simp only [Session.rank, waiting, output, ClientPc.rank, List.length_cons] <;> omega

theorem serverReceive_rank {s s' : Session σ} (idle : s.server = .receiving) (h : serverReceive s = some s') :
    s'.rank < s.rank := by
  unfold serverReceive at h
  cases input : s.input with
  | nil => simp [input] at h
  | cons message rest =>
    simp only [input, Option.some.injEq] at h
    subst h
    simp only [Session.rank, idle, input, List.length_cons]
    split <;> simp only [ServerPc.rank] <;> omega

theorem serverHandle_rank {s : Session σ} {message : Message} (busy : s.server = .handling message) :
    (serverHandle T methods server s message).rank < s.rank := by
  unfold serverHandle
  split <;> simp only [Session.rank, busy, ServerPc.rank] <;> omega

theorem serverSend_rank {s : Session σ} {reply : Message} (busy : s.server = .replying reply) :
    (serverSend s reply).rank < s.rank := by
  simp only [serverSend, Session.rank, busy, ServerPc.rank, List.length_append, List.length_singleton]
  omega

/-- Every step brings the session closer to its end. -/
theorem exec_rank {s s' : Session σ} {p : Party} (h : exec T methods client server s p = some s') :
    s'.rank < s.rank := by
  cases p with
  | client =>
    cases pc : s.client <;> simp only [exec, pc] at h
    · exact clientSend_rank pc h
    · exact clientReceive_rank pc h
    · cases h
    · cases h
  | server =>
    cases pc : s.server <;> simp only [exec, pc] at h
    · exact serverReceive_rank pc h
    · cases h
      exact serverHandle_rank pc
    · cases h
      exact serverSend_rank pc
    · cases h
    · cases h

/-- Only the last phase has no next step. -/
theorem Phase.eq_stopped {s : Session σ} (phase : Phase methods client server s₀ calls s)
    (callable : ∀ c ∈ calls, Callable methods client c) (final : ∀ p, exec T methods client server s p = none) :
    s = { between methods s₀ calls [] with client := .done, server := .stopped } := by
  cases phase with
  | ready done todo split =>
    have stuck := final .client
    cases todo with
    | nil => cases stuck
    | cons c todo =>
      obtain ⟨m, found, -, -, fillable⟩ := callable c (by simp [split])
      simp [exec, between, clientSend, found, build_eq T fillable] at stuck
  | requested | received | handled | goodbye => cases final .server
  | answered =>
    have stuck := final .client
    simp only [exec, clientReceive] at stuck
    split at stuck <;> cases stuck
  | stopped => rfl

/-- What a session shows at any time. -/
theorem Phase.history {s : Session σ} (phase : Phase methods client server s₀ calls s) :
    s.returned <+: (outcomes methods s₀ calls).map (·.1) ∧ s.states <+: (outcomes methods s₀ calls).map (·.2) := by
  have prefixes (done todo : List Invocation) (split : calls = done ++ todo) :
      (outcomes methods s₀ done).map (·.1) <+: (outcomes methods s₀ calls).map (·.1) ∧
        (outcomes methods s₀ done).map (·.2) <+: (outcomes methods s₀ calls).map (·.2) := by
    subst split
    exact ⟨(outcomes_initial s₀ done todo).map _, (outcomes_initial s₀ done todo).map _⟩
  cases phase with
  | ready done todo split => exact prefixes done todo split
  | requested done todo c m split => exact prefixes done _ split
  | received done todo c m split => exact prefixes done _ split
  | handled done todo c m split => exact ⟨(prefixes done _ split).1, (prefixes (done ++ [c]) todo (by simpa using split)).2⟩
  | answered done todo c m split => exact ⟨(prefixes done _ split).1, (prefixes (done ++ [c]) todo (by simpa using split)).2⟩
  | goodbye => exact prefixes calls [] (List.append_nil _).symm
  | stopped => exact prefixes calls [] (List.append_nil _).symm

/-- **Remote calls are local calls.** In every state of every session: the calls that have
returned gave what calling the service directly gives, and the service went through the
same states; neither side has failed; the server stops only after the client's goodbye.
Every run is finite, and where it ends all calls have returned. -/
theorem session_refines (T : MessageType) (methods : List (Method σ order)) (client server : Host) (s₀ : σ)
    (calls : List Invocation) (small : methods.length ≤ 256) (callable : ∀ c ∈ calls, Callable methods client c)
    (answerable : Answerable methods server s₀ calls) {s : Session σ}
    (h : Reachable (session T methods client server s₀ calls) s) :
    s.returned <+: (outcomes methods s₀ calls).map (·.1) ∧
    s.states <+: (outcomes methods s₀ calls).map (·.2) ∧
    (∀ f, s.client ≠ .failed f ∧ s.server ≠ .failed f) ∧
    (s.server = .stopped → s.client = .done ∧ s.returned = (outcomes methods s₀ calls).map (·.1)) ∧
    (∀ n t, Run (session T methods client server s₀ calls) n s t → n ≤ 5 * calls.length + 6) ∧
    ((∀ t, ¬ (session T methods client server s₀ calls).step s t) →
      s.returned = (outcomes methods s₀ calls).map (·.1) ∧ s.states = (outcomes methods s₀ calls).map (·.2) ∧
        s.service = stateAfter methods s₀ calls) := by
  have phase := (phase_invariant T small callable answerable).reachable h
  refine ⟨phase.history.1, phase.history.2, ?_, ?_, ?_, ?_⟩
  · intro f
    cases phase <;> exact ⟨nofun, nofun⟩
  · intro stopped
    cases phase <;> cases stopped
    exact ⟨rfl, rfl⟩
  · intro n t run
    have bounded : Invariant (session T methods client server s₀ calls) fun s => s.rank ≤ 5 * calls.length + 6 :=
      invariant_of_actions (by simp [start, Session.rank, ClientPc.rank, ServerPc.rank]) fun s t p le step =>
        Nat.le_trans (Nat.le_of_lt (exec_rank step)) le
    have length := bounded.run_length_le Session.rank (fun s t _ step => exec_rank step.choose_spec) run
      (bounded.reachable h)
    have start := bounded.reachable h
    omega
  · intro final
    have none : ∀ p, exec T methods client server s p = none := by
      intro p
      cases step : exec T methods client server s p with
      | none => rfl
      | some t => exact absurd ⟨p, step⟩ (final t)
    rw [phase.eq_stopped callable none]
    exact ⟨rfl, rfl, rfl⟩

/-- Every session reaches a state without a next step. -/
theorem reachable_final (T : MessageType) (methods : List (Method σ order)) (client server : Host) (s₀ : σ)
    (calls : List Invocation) :
    ∃ s, Reachable (session T methods client server s₀ calls) s ∧
      ∀ t, ¬ (session T methods client server s₀ calls).step s t := by
  have trivial : Invariant (session T methods client server s₀ calls) fun _ => True :=
    ⟨fun _ _ => trivial, fun _ _ _ _ => trivial⟩
  obtain ⟨n, s, run, -, final⟩ := trivial.exists_final Session.rank (fun s t _ step => exec_rank step.choose_spec)
    (start s₀ calls) True.intro
  exact ⟨s, (Reachable.init rfl).run run, final⟩

/-- A single call returns whatever the client reads from the reply to its request. -/
theorem reachable_of_reply {c : Invocation} {m : Method σ order} (found : methods[c.index]? = some m) {reply : Message}
    {s₁ : σ} {value : Option Val}
    (sendable : build T (requestCalls client c.index m.params c.args) = .ok (request client c.index m.params c.args))
    (answer : (dispatch server (answering T server methods) (request client c.index m.params c.args)).run s₀ = (.ok reply, s₁))
    (read : readResponse order client m.result c.index reply = .ok value) :
    Reachable (session T methods client server s₀ [c]) { start s₁ [] with returned := [value], states := [s₁] } := by
  have size : (request client c.index m.params c.args).length ≠ 0 := by
    simpa using request_ne_nil client c.index m.params c.args
  have sent : Reachable (session T methods client server s₀ [c]) { start s₀ [] with
      client := .awaiting c.index m.result, input := [request client c.index m.params c.args] } :=
    (Reachable.init rfl).step ⟨.client, by simp only [exec, start, clientSend, found, sendable, List.nil_append]⟩
  have received : Reachable (session T methods client server s₀ [c]) { start s₀ [] with
      client := .awaiting c.index m.result, server := .handling (request client c.index m.params c.args) } :=
    sent.step ⟨.server, by simp only [exec, start, serverReceive, if_neg size]⟩
  have handled : Reachable (session T methods client server s₀ [c]) { start s₁ [] with
      client := .awaiting c.index m.result, server := .replying reply, states := [s₁] } :=
    received.step ⟨.server, by simp only [exec, start, serverHandle, answer, List.nil_append]⟩
  have answered : Reachable (session T methods client server s₀ [c]) { start s₁ [] with
      client := .awaiting c.index m.result, output := [reply], states := [s₁] } :=
    handled.step ⟨.server, rfl⟩
  exact answered.step ⟨.client, by simp only [exec, start, clientReceive, read, List.nil_append]⟩

/-- A call whose request does not fit into a message breaks the client. -/
theorem reachable_of_failure {c : Invocation} {m : Method σ order} (found : methods[c.index]? = some m) {f : Failure}
    (broken : build T (requestCalls client c.index m.params c.args) = .error f) :
    Reachable (session T methods client server s₀ [c]) { start s₀ [] with client := .failed f } :=
  (Reachable.init rfl).step ⟨.client, by simp only [exec, start, clientSend, found, broken]⟩

end

/-! ## A flag, and containers that are too large -/

def bool : Ty := .integral ⟨"bool", .bool⟩

def char : Ty := .integral ⟨"char", .signed .w8⟩

theorem char_proper : char.proper = true := rfl

def ofBool (b : Bool) : Val := .int (if b then 1 else 0)

theorem admits_ofBool (order : Containers) (b : Bool) : bool.admits order (ofBool b) = true := by
  cases b <;> rfl

section
variable (order : Containers)

/-- `bool exchange(bool)`: stores its argument and returns what was stored before. -/
def exchangeFlag : Method Bool order where
  params := [bool]
  result := some bool
  body s args := (some (ofBool s), match args with
    | [.int i] => i = 1
    | _ => s)
  proper := ⟨rfl, by simp [bool, Ty.proper]⟩
  returns s _ _ := admits_ofBool order s

/-- `void reset()`. -/
def resetFlag : Method Bool order where
  params := []
  result := none
  body _ _ := (none, false)
  proper := ⟨rfl, by simp⟩
  returns _ _ _ := rfl

/-- `bool empty(vector<T>)`. -/
def emptyVector (t : Ty) (proper : t.proper = true) : Method Unit order where
  params := [.sequence "vector" t]
  result := some bool
  body s args := (some (ofBool (match args with
    | [.list []] => true
    | _ => false)), s)
  proper := ⟨by simp [Ty.properAll, Ty.proper, proper], by simp [bool, Ty.proper]⟩
  returns _ _ _ := admits_ofBool order _

end

/-- The two methods of the flag, called three times. -/
def flagMethods (order : Containers) : List (Method Bool order) := [exchangeFlag order, resetFlag order]

def flagCalls : List Invocation := [⟨0, [.int 1]⟩, ⟨1, []⟩, ⟨0, [.int 0]⟩]

def smallHost : Host := ⟨.little, fun _ => 1⟩

/-- Messages of the default `HybridBuffer<>`, with nothing else on the heap. -/
def defaultMessage : MessageType := ⟨60, .bump, .empty⟩

theorem flag_callable (order : Containers) : ∀ c ∈ flagCalls, Callable (flagMethods order) smallHost c := by
  intro c hc
  simp only [flagCalls, List.mem_cons, List.not_mem_nil, or_false] at hc
  rcases hc with rfl | rfl | rfl
  · exact ⟨exchangeFlag order, rfl, rfl, rfl, .of_sum (Nat.le_of_ble_eq_true rfl)⟩
  · exact ⟨resetFlag order, rfl, rfl, rfl, .of_sum (Nat.le_of_ble_eq_true rfl)⟩
  · exact ⟨exchangeFlag order, rfl, rfl, rfl, .of_sum (Nat.le_of_ble_eq_true rfl)⟩

theorem flag_answerable (order : Containers) : Answerable (flagMethods order) smallHost false flagCalls := by
  refine ⟨?_, ?_, ?_, trivial⟩ <;> rintro m ⟨⟩
  · exact ⟨fun v hv => Option.some.inj hv ▸ rfl, .of_sum (Nat.le_of_ble_eq_true rfl)⟩
  · exact ⟨nofun, .of_sum (Nat.le_of_ble_eq_true rfl)⟩
  · exact ⟨fun v hv => Option.some.inj hv ▸ rfl, .of_sum (Nat.le_of_ble_eq_true rfl)⟩

/-- Three calls return, and the server stops at the goodbye. -/
theorem session_refines_flag :
    let order : Containers := fun _ => .byKey (fun _ => 0) true
    ∃ s, Reachable (session defaultMessage (flagMethods order) smallHost smallHost false flagCalls) s ∧
      s.returned = [some (.int 0), none, some (.int 0)] ∧ s.states = [true, false, false] := by
  intro order
  obtain ⟨s, reached, final⟩ := reachable_final defaultMessage (flagMethods order) smallHost smallHost false flagCalls
  obtain ⟨-, -, -, -, -, ends⟩ := session_refines defaultMessage (flagMethods order) smallHost smallHost false flagCalls
    (by decide) (flag_callable order) (flag_answerable order) reached
  obtain ⟨returned, states, -⟩ := ends final
  exact ⟨s, reached, returned, states⟩

section
variable (order : Containers) (h : Host) {t : Ty} (proper : t.proper = true) {vs : List Val}

/-- A vector whose length the prefix cannot count arrives empty. -/
theorem decode_of_overflow (size : vs.length = 2 ^ 32) :
    ∃ view, deserializeAll order h (emptyVector order t proper).params
      ⟨encodeAll h (emptyVector order t proper).params [.list vs], 0⟩ = .ok ([.list []], view) := by
  have payload : encodeAll h (emptyVector order t proper).params [.list vs] =
      uint32.kind.image 0 ++ written (vs.flatMap (serialize h t)) := by
    show written (serialize h (.sequence "vector" t) (.list vs) ++ []) = _
    rw [List.append_nil, serialize, written_append, written_serializeInt, written_reserve, size]
    rfl
  have image : WireAll order (emptyVector order t proper).params (uint32.kind.image 0) [.list []] :=
    ⟨.list [], [], uint32.kind.image 0, [], rfl, ⟨[], [], by decide, rfl, rfl, rfl⟩, ⟨rfl, rfl⟩, rfl⟩
  exact ⟨_, payload ▸ (denotes_deserializeAll order h _).decodes image [] _⟩

/-- Called remotely with `2 ^ 32` elements that take few bytes, `empty` returns true. -/
theorem reachable_of_overflow (T : MessageType) (size : vs.length = 2 ^ 32)
    (fillable : Fillable 0 (requestCalls h 0 (emptyVector order t proper).params [.list vs])) :
    ∃ s, Reachable (session T [emptyVector order t proper] h h () [⟨0, [.list vs]⟩]) s ∧ s.returned = [some (.int 1)] := by
  obtain ⟨view, decoded⟩ := decode_of_overflow order h proper size
  have found : [emptyVector order t proper][0]? = some (emptyVector order t proper) := rfl
  have handled := dispatch_request T h h (Nat.le_of_ble_eq_true rfl) found (emptyVector order t proper).params [.list vs]
  have small : Fillable 0 (responseCalls h 0 ((emptyVector order t proper).carried (some (ofBool true)))) := by
    apply Fillable.of_sum
    show 0 + ((serializeInt h uint32.kind _ ++ serializeInt h .bool _).map amount).sum < 2147483648
    rw [List.map_append, List.sum_append, sum_serializeInt, sum_serializeInt]
    decide
  have answer := (congrArg (fun handler => handler.run ()) handled).trans
    ((emptyVector order t proper).respond_eq T h 0 decoded small)
  have typed : admitsResult order (emptyVector order t proper).result (some (ofBool true)) = true := admits_ofBool order true
  have read := readResponse_makeResponse h h (emptyVector order t proper) 0 typed fun v hv => Option.some.inj hv ▸ rfl
  exact ⟨_, reachable_of_reply (c := ⟨0, [.list vs]⟩) rfl (build_eq T fillable) answer read, rfl⟩

/-- Called directly with any elements, `empty` returns false. -/
theorem outcomes_of_elements (nonempty : vs ≠ []) :
    (outcomes [emptyVector order t proper] () [⟨0, [.list vs]⟩]).map (·.1) = [some (.int 0)] := by
  cases vs with
  | nil => exact absurd rfl nonempty
  | cons => rfl

theorem admitsAll_elements (typed : ∀ v ∈ vs, t.admits order v = true) :
    Ty.admitsAll order (emptyVector order t proper).params [.list vs] = true := by
  show (vs.all (t.admits order) && true) = true
  rw [Bool.and_true]
  exact List.all_eq_true.mpr typed

end

section
variable (order : Containers) {vs : List Val}

theorem requestCalls_vector (h : Host) {t : Ty} (proper : t.proper = true) :
    requestCalls h 0 (emptyVector order t proper).params [.list vs] =
      serializeIndex h 0 ++ serialize h (.sequence "vector" t) (.list vs) :=
  congrArg (serializeIndex h 0 ++ ·) (List.append_nil _)

/-- The `2 ^ 31` characters are written one by one, until the cursor has wrapped around. -/
theorem build_chars (size : vs.length = 2 ^ 31) (zero : ∀ v ∈ vs, v = .int 0) :
    build defaultMessage (requestCalls paddedHost 0 (emptyVector order char char_proper).params [.list vs]) =
      .error (.memory .outOfBounds) := by
  have one : ∀ v ∈ vs, serialize paddedHost char v = [.write [0]] := by
    intro v hv
    rw [zero v hv]
    rfl
  have fillable : Fillable 0 (serializeIndex paddedHost 0 ++ header paddedHost char (2 ^ 31)) :=
    .of_room (Nat.le_of_ble_eq_true rfl) (Nat.le_of_ble_eq_true rfl)
  rw [requestCalls_vector, build, build_of_elements size (by decide) fillable one (Nat.le_of_ble_eq_true rfl)]
  rfl

/-- Reserving four bytes less than `2 ^ 32` behind eight asks for a block of four. -/
theorem build_gaps (size : vs.length = 2 ^ 30 - 1) :
    build defaultMessage (requestCalls paddedHost 0 (emptyVector order padded padded_proper).params [.list vs]) =
      .error (.memory .outOfBounds) := by
  have broken : defaultMessage.fill (serializeIndex paddedHost 0 ++ header paddedHost padded (2 ^ 30 - 1)) =
      .error .outOfBounds := rfl
  rw [requestCalls_vector, build, build_of_header size broken]
  rfl

theorem fillable_nothing (size : vs.length = 2 ^ 32) (nothing : ∀ v ∈ vs, v = .aggregate []) :
    Fillable 0 (requestCalls paddedHost 0 (emptyVector order emptyClass emptyClass_proper).params [.list vs]) := by
  have none : vs.flatMap (serialize paddedHost emptyClass) = [] := by
    rw [List.flatMap_eq_nil_iff]
    intro v hv
    rw [nothing v hv]
    rfl
  rw [requestCalls_vector, serialize_sequence size, none]
  exact .of_sum (Nat.le_of_ble_eq_true rfl)

end

/-- One byte too many for the cursor, a reservation too many for the capacity, and
elements too many for the prefix: the first two break the client, the third are lost. -/
theorem session_breaks :
    let order : Containers := fun _ => .byKey (fun _ => 0) true
    let chars : List Val := List.replicate (2 ^ 31) (.int 0)
    let gaps : List Val := List.replicate (2 ^ 30 - 1) (.aggregate [.int 0])
    let nothing : List Val := List.replicate (2 ^ 32) (.aggregate [])
    (Ty.admitsAll order (emptyVector order char char_proper).params [.list chars] = true ∧
      (outcomes [emptyVector order char char_proper] () [⟨0, [.list chars]⟩]).map (·.1) = [some (.int 0)] ∧
      ∃ s, Reachable (session defaultMessage [emptyVector order char char_proper] paddedHost paddedHost () [⟨0, [.list chars]⟩]) s ∧
        s.client = .failed (.memory .outOfBounds)) ∧
    (Ty.admitsAll order (emptyVector order padded padded_proper).params [.list gaps] = true ∧
      (outcomes [emptyVector order padded padded_proper] () [⟨0, [.list gaps]⟩]).map (·.1) = [some (.int 0)] ∧
      ∃ s, Reachable (session defaultMessage [emptyVector order padded padded_proper] paddedHost paddedHost () [⟨0, [.list gaps]⟩]) s ∧
        s.client = .failed (.memory .outOfBounds)) ∧
    (Ty.admitsAll order (emptyVector order emptyClass emptyClass_proper).params [.list nothing] = true ∧
      (outcomes [emptyVector order emptyClass emptyClass_proper] () [⟨0, [.list nothing]⟩]).map (·.1) = [some (.int 0)] ∧
      ∃ s, Reachable (session defaultMessage [emptyVector order emptyClass emptyClass_proper] paddedHost paddedHost () [⟨0, [.list nothing]⟩]) s ∧
        s.returned = [some (.int 1)]) := by
  intro order chars gaps nothing
  have manyChars : chars.length = 2 ^ 31 := List.length_replicate
  have manyGaps : gaps.length = 2 ^ 30 - 1 := List.length_replicate
  have tooMany : nothing.length = 2 ^ 32 := List.length_replicate
  have zero : ∀ v ∈ chars, v = .int 0 := fun v => List.eq_of_mem_replicate
  have gap : ∀ v ∈ gaps, v = .aggregate [.int 0] := fun v => List.eq_of_mem_replicate
  have null : ∀ v ∈ nothing, v = .aggregate [] := fun v => List.eq_of_mem_replicate
  have nonempty {vs : List Val} {n : Nat} (size : vs.length = n) (pos : n ≠ 0) : vs ≠ [] := by
    rintro rfl
    exact pos size.symm
  clear_value chars gaps nothing
  refine ⟨⟨?_, ?_, ?_⟩, ⟨?_, ?_, ?_⟩, ?_, ?_, ?_⟩
  · exact admitsAll_elements order _ fun v hv => zero v hv ▸ rfl
  · exact outcomes_of_elements order _ (nonempty manyChars (by decide))
  · exact ⟨_, reachable_of_failure rfl (build_chars order manyChars zero), rfl⟩
  · exact admitsAll_elements order _ fun v hv => gap v hv ▸ rfl
  · exact outcomes_of_elements order _ (nonempty manyGaps (by decide))
  · exact ⟨_, reachable_of_failure rfl (build_gaps order manyGaps), rfl⟩
  · exact admitsAll_elements order _ fun v hv => null v hv ▸ rfl
  · exact outcomes_of_elements order _ (nonempty tooMany (by decide))
  · exact reachable_of_overflow order paddedHost _ defaultMessage tooMany (fillable_nothing order tooMany null)

end Erl.Rpc
