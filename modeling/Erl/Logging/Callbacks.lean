import Erl.Logging.Handlers

/-!
# `ThreadInfo::set_name` and `ThreadInfo::set_parent`

`src/threading/info.cpp` calls `rename` and `set_parent` of the logger proxy without the
timestamp both service methods start with. The proxy takes any arguments, so the calls
compile and the messages are 8 bytes short of what the dispatcher decodes.
-/

namespace Erl.Logging
open Reflect Rpc Decoding

/-- What `ThreadInfo{t}.set_name(s)` sends: `client().rename(id, name)`. -/
def setNameMessage (h : Host) (t : UInt64) (s : List UInt8) : Message :=
  request h 2 [uint64, string] [wordVal t, textVal s]

/-- What `ThreadInfo{t}.set_parent(p)` sends: `client().set_parent(id, parent.id)`. -/
def setParentMessage (h : Host) (t p : UInt64) : Message :=
  request h 3 [uint64, uint64] [wordVal t, wordVal p]

section
variable (order : Containers) (client server : Host) (code : UInt64 → Formatter)

/-- The method decodes the message and uses up its bytes. -/
def UsesUp (m : Method LoggingService order) (message : Message) : Prop :=
  ∃ args, deserializeAll order server m.params ⟨payload message, 0⟩ =
    .ok (args, ⟨payload message, (payload message).length⟩)

/-- The name and the parent of every entry but the one of `t` stay. -/
def OthersKept (t : UInt64) (before after : LoggingService) : Prop :=
  ∀ k, k ≠ t → (after.threadGetInfo k).name = (before.threadGetInfo k).name ∧
    (after.threadGetInfo k).parent = (before.threadGetInfo k).parent

/-- The message of `set_name` names `t`. -/
structure NameReaches (t : UInt64) (s : List UInt8) (service : LoggingService) : Prop where
  decodes : UsesUp order server (renameMethod order) (setNameMessage client t s)
  named : ∃ response after,
    (dispatch server (handlers order server code) (setNameMessage client t s)).run service = (.ok response, after) ∧
      (after.threads t).map CachedThreadInfo.name = some s ∧ OthersKept t service after

/-- The message of `set_parent` gives `t` the parent `p`. -/
structure ParentReaches (t p : UInt64) (service : LoggingService) : Prop where
  decodes : UsesUp order server (setParentMethod order) (setParentMessage client t p)
  parented : ∃ response after,
    (dispatch server (handlers order server code) (setParentMessage client t p)).run service = (.ok response, after) ∧
      (after.threads t).map CachedThreadInfo.parent = some p ∧ OthersKept t service after

end

variable {order : Containers} {client server : Host}

theorem encode_wordVal_length (x : UInt64) : (encode client uint64 (wordVal x)).length = 8 := by
  show (written (serializeInt client _ _)).length = 8
  rw [written_serializeInt, IntKind.length_image]
  rfl

theorem setParent_payload (t p : UInt64) :
    payload (setParentMessage client t p) = encode client uint64 (wordVal t) ++ encode client uint64 (wordVal p) := by
  rw [setParentMessage, payload_request, encodeAll_cons, encodeAll_cons]
  exact congrArg _ (List.append_nil _)

/-- A 64-bit integer at the end of a buffer is not there. -/
theorem deserialize_word_end (order : Containers) (server : Host) (data : List UInt8) :
    deserialize order server uint64 ⟨data, data.length⟩ = .error .overRead := by
  have hread : Decoding.read Fault.overRead 8 (⟨data, data.length⟩ : MessageView) = .error .overRead := by
    unfold Decoding.read
    rw [if_neg (by simp)]
  have hint : deserializeInt server (.unsigned .w64) ⟨data, data.length⟩ = .error .overRead := by
    unfold deserializeInt
    change (Decoding.read Fault.overRead 8 (⟨data, data.length⟩ : MessageView) >>= _) = _
    rw [hread]
    rfl
  change (deserializeInt server (.unsigned .w64) ⟨data, data.length⟩ >>= _) = _
  rw [hint]
  rfl

theorem deserialize_word (order : Containers) (client server : Host) (before rest : List UInt8) (x : UInt64) :
    deserialize order server uint64 ⟨before ++ encode client uint64 (wordVal x) ++ rest, before.length⟩ =
      .ok (wordVal x, ⟨before ++ encode client uint64 (wordVal x) ++ rest, before.length + 8⟩) := by
  have image : Wire order uint64 (encode client uint64 (wordVal x)) (wordVal x) :=
    wire_serialize client uint64 _ rfl (admits_wordVal order _ x) rfl
  have h := (denotes_deserialize order server uint64).decodes image before rest
  rwa [encode_wordVal_length] at h

/-- The third word `set_parent` decodes is behind the message. -/
theorem deserializeAll_setParent (order : Containers) (client server : Host) (t p : UInt64) :
    deserializeAll order server [uint64, uint64, uint64] ⟨payload (setParentMessage client t p), 0⟩ =
      .error .overRead := by
  rw [setParent_payload]
  have hfirst := deserialize_word order client server []
    (encode client uint64 (wordVal p)) t
  have hsecond := deserialize_word order client server
    (encode client uint64 (wordVal t)) [] p
  have hthird := deserialize_word_end order server
    (encode client uint64 (wordVal t) ++ encode client uint64 (wordVal p))
  rw [List.length_append, encode_wordVal_length, encode_wordVal_length] at hthird
  rw [List.nil_append, List.length_nil] at hfirst
  rw [List.append_nil, encode_wordVal_length] at hsecond
  simp only [deserializeAll, bind, StateT.bind, Except.bind, hfirst, Nat.zero_add, hsecond, hthird]

/-! ## What arrives -/

/-- Dispatching `set_parent` reads past the end of the message and leaves the service as
it is. -/
theorem dispatch_setParent (code : UInt64 → Formatter) (t p : UInt64) (service : LoggingService) :
    (dispatch server (handlers order server code) (setParentMessage client t p)).run service =
      (.error (.fault .overRead), service) := by
  have hfound : (handlers order server code)[3]? = some ((setParentMethod order).dispatch server 3) := rfl
  have hdata := deserializeAll_setParent order client server t p
  rw [setParentMessage, payload_request] at hdata
  rw [setParentMessage, request_eq, dispatch_of_handler server (Nat.le_of_ble_eq_true rfl) hfound]
  simp only [Method.dispatch, Method.eval, decode]
  rw [show (setParentMethod order).params = [uint64, uint64, uint64] from rfl, hdata]
  rfl

theorem encode_string_length (s : List UInt8) : (encode client string (textVal s)).length = 4 + s.length := by
  have hchar : ∀ c : UInt8, (written (serialize client char (charVal c))).length = 1 := by
    intro c
    show (written (serializeInt client _ _)).length = 1
    rw [written_serializeInt, IntKind.length_image]
    rfl
  have hchars : (written ((s.map charVal).flatMap (serialize client char))).length = s.length := by
    rw [written_flatMap]
    induction s with
    | nil => rfl
    | cons c s ih =>
      rw [List.map_cons, List.flatMap_cons, List.length_append, hchar, ih, List.length_cons]
      omega
  show (written (serialize client (.sequence "std::string" char) (.list (s.map charVal)))).length = _
  rw [serialize, written_append, written_serializeInt, written_reserve, List.length_append, hchars,
    IntKind.length_image]
  rfl

theorem length_of_wire_word {w : List UInt8} {v : Val} (image : Wire order uint64 w v) : w.length = 8 := by
  rw [uint64, Wire] at image
  obtain ⟨i, -, rfl, -⟩ := image
  exact IntKind.length_image ..

theorem length_of_wire_text {w : List UInt8} {v : Val} (image : Wire order stringView w v) :
    w.length = 4 + (textOf v).length := by
  rw [stringView, Wire] at image
  obtain ⟨vs, w₂, -, rfl, each, rfl⟩ := image
  have hchar : ∀ w v, Wire order char w v → w.length = 1 := by
    intro w v image
    rw [char, Wire] at image
    obtain ⟨i, -, rfl, -⟩ := image
    exact IntKind.length_image ..
  rw [List.length_append, IntKind.length_image, each.length_eq hchar, textOf, List.length_map, Nat.mul_one]
  rfl

/-- A name that `rename` decodes from the message of `set_name`, with all its bytes, is 8
characters shorter. -/
theorem length_of_decoded_name {t : UInt64} {s : List UInt8} {args : List Val}
    (h : deserializeAll order server (renameMethod order).params ⟨payload (setNameMessage client t s), 0⟩ =
      .ok (args, ⟨payload (setNameMessage client t s), (payload (setNameMessage client t s)).length⟩)) :
    ∃ timestamp thread name, args = [timestamp, thread, name] ∧ (textOf name).length + 8 = s.length := by
  have hlength : (payload (setNameMessage client t s)).length = 8 + (4 + s.length) := by
    rw [setNameMessage, payload_request, encodeAll_cons, encodeAll_cons, List.length_append, List.length_append,
      encode_wordVal_length, encode_string_length]
    rfl
  have image := (denotes_deserializeAll order server _).decodes_all_iff.mp h
  obtain ⟨timestamp, _, w₁, w₂₃, hpayload, himage₁, ⟨thread, _, w₂, w₃, rfl, himage₂, ⟨name, _, w, w₄, rfl, himage₃,
    ⟨rfl, rfl⟩, rfl⟩, rfl⟩, rfl⟩ := image
  refine ⟨timestamp, thread, name, rfl, ?_⟩
  rw [hpayload, List.length_append, List.length_append, List.length_append, length_of_wire_word himage₁,
    length_of_wire_word himage₂, length_of_wire_text himage₃, List.length_nil] at hlength
  omega

/-- **Neither message arrives.** For all threads, names and parents and in every state of
the service: the message of `set_parent` is too short for what is decoded from it, and what
is decoded from the bytes of `set_name` is never its name; so the two together never do what
they should. That `set_parent` changes nothing holds where reading past the end of a message
is a fault, as it is here: in the source it depends on what the buffer has behind its end,
which is zeros if the bytes are inline ones. -/
theorem set_name_set_parent_never_reach (order : Containers) (client server : Host) (code : UInt64 → Formatter)
    (t p : UInt64) (s : List UInt8) (service : LoggingService) :
    (dispatch server (handlers order server code) (setParentMessage client t p)).run service =
      (.error (.fault .overRead), service) ∧
    (∀ args, deserializeAll order server (renameMethod order).params ⟨payload (setNameMessage client t s), 0⟩ =
        .ok (args, ⟨payload (setNameMessage client t s), (payload (setNameMessage client t s)).length⟩) →
      ∀ name ∈ args[2]?, textOf name ≠ s) ∧
    ¬ UsesUp order server (setParentMethod order) (setParentMessage client t p) ∧
    ¬ (NameReaches order client server code t s service ∧ ParentReaches order client server code t p service) := by
  have hshort : ¬ UsesUp order server (setParentMethod order) (setParentMessage client t p) := by
    rintro ⟨args, hargs⟩
    have hfault := deserializeAll_setParent order client server t p
    cases hfault.symm.trans hargs
  refine ⟨dispatch_setParent code t p service, ?_, hshort, fun ⟨_, hparent⟩ => hshort hparent.decodes⟩
  · intro args h name hname
    obtain ⟨timestamp, thread, name', rfl, hlength⟩ := length_of_decoded_name h
    obtain rfl : name' = name := Option.some.inj hname
    rintro rfl
    omega

/-- `ThreadInfo{1}.set_name("w")` and `ThreadInfo{1}.set_parent(2)`, at the start. -/
theorem set_name_set_parent_lost :
    let order : Containers := fun _ => .byKey (fun _ => 0) true
    let host : Host := ⟨.little, fun _ => 1⟩
    ¬ ∀ (code : UInt64 → Formatter) (t p : UInt64) (s : List UInt8) (service : LoggingService), Reachable service →
      NameReaches order host host code t s service ∧ ParentReaches order host host code t p service := by
  intro order host h
  obtain ⟨-, hparent⟩ := h (fun _ _ => .error .unreachable) 1 2 (bytes "w") {} ⟨[], rfl⟩
  obtain ⟨args, hargs⟩ := hparent.decodes
  have hfault := deserializeAll_setParent order host host 1 2
  cases hfault.symm.trans hargs

end Erl.Logging
