import Erl.Logging.Service
import Mathlib.Data.List.Induction

/-!
# The thread table after any events

What an event does to the table it does entry by entry: the entry of `k` after an event
depends on the entry of `k` before it (`Event.effect`). So a run is one small automaton for
each thread, and the entry of `k` is a function of the events since `k`'s last exit.

`rename` and `set_parent` insert the entry of the thread they are about without setting its
`id`; a `spawn` of the thread, or its being named as a parent, does.
-/

namespace Erl.Logging

/-- The entry of `k` after the event. -/
def Event.effect (k : UInt64) : Event → Option CachedThreadInfo → Option CachedThreadInfo
  | .spawn _ thread, o => if k = thread then some { o.getD {} with id := k } else o
  | .exit _ thread, o => if k = thread then none else o
  | .rename _ thread name, o => if k = thread then some { o.getD {} with name := name } else o
  | .setParent _ thread parent_id, o =>
    let o := if k = parent_id then some { o.getD {} with id := k } else o
    if k = thread then some { o.getD {} with parent := parent_id } else o
  | .addSink _, o => o
  | .removeSink _, o => o

/-- After the check of `parent.id` the entry of the parent has its id, whatever it had. -/
theorem threads_parentId (s : LoggingService) (parent_id : UInt64) (k : UInt64) :
    (if ((s.store parent_id (s.entry parent_id)).entry parent_id).id ≠ parent_id then
        (s.store parent_id (s.entry parent_id)).store parent_id
          { (s.store parent_id (s.entry parent_id)).entry parent_id with id := parent_id }
      else s.store parent_id (s.entry parent_id)).threads k =
      if k = parent_id then some { s.entry parent_id with id := parent_id } else s.threads k := by
  simp only [LoggingService.entry_store, if_true]
  by_cases hid : (s.entry parent_id).id = parent_id
  · have hsame : ({ s.entry parent_id with id := parent_id } : CachedThreadInfo) = s.entry parent_id := by
      rw [CachedThreadInfo.mk.injEq]
      exact ⟨hid.symm, rfl, rfl⟩
    rw [if_neg (not_not_intro hid), hsame, LoggingService.threads_store]
  · rw [if_pos hid, LoggingService.threads_store, LoggingService.threads_store]
    split <;> rfl

theorem setParent_threads (timestamp thread parent_id : UInt64) (s : LoggingService) (k : UInt64) :
    (s.setParent timestamp thread parent_id).threads k =
      (Event.setParent timestamp thread parent_id).effect k (s.threads k) := by
  have hparent := threads_parentId (s.store thread (s.entry thread)) parent_id
  unfold LoggingService.setParent
  simp only [LoggingService.threads_store, LoggingService.threads_dispatch, LoggingService.entry_dispatch]
  rw [LoggingService.entry, hparent, hparent]
  simp only [LoggingService.entry_store, LoggingService.threads_store, Event.effect]
  by_cases hk : k = thread
  · subst hk
    by_cases hp : k = parent_id
    · subst hp; simp [LoggingService.entry]
    · simp [hp, LoggingService.entry]
  · by_cases hp : k = parent_id
    · subst hp; simp [hk, LoggingService.entry]
    · simp [hk, hp]

/-- The table is a family of independent entries. -/
theorem Event.threads_handle (e : Event) (s : LoggingService) (k : UInt64) :
    (e.handle s).threads k = e.effect k (s.threads k) := by
  cases e with
  | spawn timestamp thread =>
    by_cases h : k = thread
    · subst h; simp [handle, effect, LoggingService.spawn, LoggingService.entry]
    · simp [handle, effect, LoggingService.spawn, h]
  | exit timestamp thread =>
    have herase : ((s.exit timestamp thread).threads k) = if k = thread then none else s.threads k := by
      unfold LoggingService.exit LoggingService.erase
      cases s.threads thread <;> rfl
    exact herase
  | rename timestamp thread name =>
    by_cases h : k = thread
    · subst h; simp [handle, effect, LoggingService.rename, LoggingService.entry]
    · simp [handle, effect, LoggingService.rename, h]
  | setParent timestamp thread parent_id => exact setParent_threads timestamp thread parent_id s k
  | addSink sink => rfl
  | removeSink sink => rfl

/-! ## What the events say about a thread -/

def Event.exits (k : UInt64) : Event → Bool
  | .exit _ thread => thread = k
  | _ => false

/-- The events since the last exit of `k`, the latest first. -/
def recent (k : UInt64) (events : List Event) : List Event := events.reverse.takeWhile fun e => !e.exits k

/-- The name the event gives to `k`. -/
def Event.newName (k : UInt64) : Event → Option (List UInt8)
  | .rename _ thread name => if thread = k then some name else none
  | _ => none

/-- The parent the event gives to `k`. -/
def Event.newParent (k : UInt64) : Event → Option UInt64
  | .setParent _ thread parent_id => if thread = k then some parent_id else none
  | _ => none

def lastName (k : UInt64) (latest : List Event) : List UInt8 :=
  (latest.findSome? (Event.newName k)).getD (bytes "<unnamed>")

def lastParent (k : UInt64) (latest : List Event) : UInt64 := (latest.findSome? (Event.newParent k)).getD 0

/-- The event gives `k` a name or a parent. -/
def Event.describes (k : UInt64) : Event → Bool
  | .rename _ thread _ => thread = k
  | .setParent _ thread _ => thread = k
  | _ => false

/-- The event is the spawn of `k`, or names it as a parent. -/
def Event.identifies (k : UInt64) : Event → Bool
  | .spawn _ thread => thread = k
  | .setParent _ _ parent_id => parent_id = k
  | _ => false

/-- What the events since `k`'s last exit say about it. -/
def told (k : UInt64) (latest : List Event) : CachedThreadInfo where
  id := if latest.any (Event.identifies k) then k else 0
  name := lastName k latest
  parent := lastParent k latest

/-- The entry of `k` behind the events since its last exit. -/
def known (k : UInt64) (latest : List Event) : Option CachedThreadInfo :=
  if latest.any fun e => e.describes k || e.identifies k then some (told k latest) else none

theorem lastName_cons (k : UInt64) (e : Event) (latest : List Event) :
    lastName k (e :: latest) = (e.newName k).getD (lastName k latest) := by
  unfold lastName
  rw [List.findSome?_cons]
  cases e.newName k <;> rfl

theorem lastParent_cons (k : UInt64) (e : Event) (latest : List Event) :
    lastParent k (e :: latest) = (e.newParent k).getD (lastParent k latest) := by
  unfold lastParent
  rw [List.findSome?_cons]
  cases e.newParent k <;> rfl

theorem told_cons (k : UInt64) (e : Event) (latest : List Event) :
    told k (e :: latest) =
      { id := if e.identifies k then k else (told k latest).id
        name := (e.newName k).getD (told k latest).name
        parent := (e.newParent k).getD (told k latest).parent } := by
  unfold told
  rw [lastName_cons, lastParent_cons, List.any_cons]
  cases e.identifies k <;> rfl

theorem told_cons_other {k : UInt64} {e : Event} (latest : List Event) (hd : e.describes k = false)
    (hi : e.identifies k = false) : told k (e :: latest) = told k latest := by
  have hname : e.newName k = none := by
    cases e <;> simp_all [Event.newName, Event.describes]
  have hparent : e.newParent k = none := by
    cases e <;> simp_all [Event.newParent, Event.describes]
  rw [told_cons, hname, hparent, hi]
  rfl

/-- Where there is no entry, `operator[]` inserts what nobody has contradicted. -/
theorem getD_known (k : UInt64) (latest : List Event) : (known k latest).getD {} = told k latest := by
  induction latest with
  | nil => rfl
  | cons e latest ih =>
    cases h : (e :: latest).any fun e => e.describes k || e.identifies k with
    | true => rw [known, if_pos h]; rfl
    | false =>
      rw [List.any_cons, Bool.or_eq_false_iff, Bool.or_eq_false_iff] at h
      obtain ⟨⟨hdescribes, hidentifies⟩, hlatest⟩ := h
      rw [told_cons_other latest hdescribes hidentifies, ← ih, known, known, List.any_cons, hdescribes, hidentifies,
        hlatest]
      rfl

theorem known_cons (k : UInt64) (e : Event) (latest : List Event) (h : e.exits k = false) :
    known k (e :: latest) = e.effect k (known k latest) := by
  have hcons : known k (e :: latest) =
      if e.describes k || e.identifies k then some (told k (e :: latest)) else known k latest := by
    unfold known
    rw [List.any_cons]
    cases hsaid : e.describes k || e.identifies k with
    | true => rfl
    | false =>
      rw [Bool.or_eq_false_iff] at hsaid
      rw [told_cons_other latest hsaid.1 hsaid.2]
      rfl
  rw [hcons, told_cons, ← getD_known]
  cases e with
  | spawn timestamp thread =>
    by_cases hk : k = thread
    · subst hk; simp [Event.effect, Event.describes, Event.identifies, Event.newName, Event.newParent]
    · simp [Event.effect, Event.describes, Event.identifies, hk, Ne.symm hk]
  | exit timestamp thread =>
    have hk : k ≠ thread := by simpa [Event.exits, eq_comm] using h
    simp [Event.effect, Event.describes, Event.identifies, hk]
  | rename timestamp thread name =>
    by_cases hk : k = thread
    · subst hk; simp [Event.effect, Event.describes, Event.identifies, Event.newName, Event.newParent]
    · simp [Event.effect, Event.describes, Event.identifies, hk, Ne.symm hk]
  | setParent timestamp thread parent_id =>
    by_cases hk : k = thread
    · by_cases hp : k = parent_id
      · subst hk; subst hp; simp [Event.effect, Event.describes, Event.identifies, Event.newName, Event.newParent]
      · subst hk
        simp [Event.effect, Event.describes, Event.identifies, Event.newName, Event.newParent, hp, Ne.symm hp]
    · by_cases hp : k = parent_id
      · subst hp
        simp [Event.effect, Event.describes, Event.identifies, Event.newName, Event.newParent, hk, Ne.symm hk]
      · simp [Event.effect, Event.describes, Event.identifies, hk, hp, Ne.symm hk, Ne.symm hp]
  | addSink sink => rfl
  | removeSink sink => rfl

/-- The entry of `k` is a function of the events since its last exit. -/
theorem threads_after (events : List Event) (k : UInt64) : (after events).threads k = known k (recent k events) := by
  induction events using List.reverseRecOn with
  | nil => rfl
  | append_singleton events e ih =>
    rw [after_append, Event.threads_handle, ih]
    unfold recent
    rw [List.reverse_append, List.reverse_singleton, List.singleton_append, List.takeWhile_cons]
    cases hexits : e.exits k with
    | false => exact (known_cons k e _ hexits).symm
    | true =>
      cases e with
      | exit timestamp thread =>
        have hk : k = thread := by simpa [Event.exits, eq_comm] using hexits
        exact if_pos hk
      | _ => simp [Event.exits] at hexits

/-- What the table should say after the events. -/
structure Consistent (events : List Event) (s : LoggingService) : Prop where
  id : ∀ k info, s.threads k = some info → info.id = k
  name : ∀ k info, s.threads k = some info → info.name = lastName k (recent k events)
  parent : ∀ k info, s.threads k = some info → info.parent = lastParent k (recent k events)
  reported : ∀ k, (s.threadGetInfo k).id = k

/-- A thread other than 0 that has been renamed or given a parent since its last exit has
been spawned or named as a parent since then. -/
def IdentifiedFirst (events : List Event) : Prop :=
  ∀ k, k ≠ 0 → (∃ e ∈ recent k events, e.describes k) → ∃ e ∈ recent k events, e.identifies k

/-- **The table is consistent exactly** when every thread that was described was also
identified; names and parents are right in any case. -/
theorem consistent_after_iff (events : List Event) : Consistent events (after events) ↔ IdentifiedFirst events := by
  constructor
  · rintro hc k hk ⟨e, he, hdescribes⟩
    have hknown : known k (recent k events) = some (told k (recent k events)) := by
      refine if_pos (List.any_eq_true.mpr ⟨e, he, ?_⟩)
      rw [hdescribes, Bool.true_or]
    have hid := hc.id k _ ((threads_after events k).trans hknown)
    cases hidentified : (recent k events).any (Event.identifies k) with
    | true => exact List.any_eq_true.mp hidentified
    | false =>
      rw [told, hidentified] at hid
      exact absurd hid.symm hk
  · intro hf
    have hentry : ∀ k info, (after events).threads k = some info → info = told k (recent k events) ∧ info.id = k := by
      intro k info hinfo
      rw [threads_after, known, Option.ite_none_right_eq_some, Option.some.injEq] at hinfo
      obtain ⟨hsaid, rfl⟩ := hinfo
      refine ⟨rfl, ?_⟩
      cases hidentified : (recent k events).any (Event.identifies k) with
      | true => rw [told, hidentified]; rfl
      | false =>
        rw [told, hidentified]
        by_contra hk
        obtain ⟨e, he, hsaid⟩ := List.any_eq_true.mp hsaid
        have hnone : ∀ e' ∈ recent k events, e'.identifies k = false := by simpa using hidentified
        rw [hnone e he, Bool.or_false] at hsaid
        obtain ⟨e', he', hid⟩ := hf k (Ne.symm hk) ⟨e, he, hsaid⟩
        rw [hnone e' he'] at hid
        exact Bool.false_ne_true hid
    refine ⟨fun k info h => (hentry k info h).2, fun k info h => ?_, fun k info h => ?_, fun k => ?_⟩
    · rw [(hentry k info h).1]; rfl
    · rw [(hentry k info h).1]; rfl
    · unfold LoggingService.threadGetInfo
      cases h : (after events).threads k with
      | none => rfl
      | some info => exact (hentry k info h).2

/-- A `rename` that comes first leaves an entry under 5 that says 0. -/
theorem not_consistent_after_rename :
    ¬ ∀ events : List Event, (∀ e ∈ events, ∀ sink, e ≠ .addSink sink ∧ e ≠ .removeSink sink) →
      Consistent events (after events) := by
  intro h
  have hc := h [.rename 0 5 (bytes "worker")] (by simp)
  have hid : ((after [.rename 0 5 (bytes "worker")]).threadGetInfo 5).id = 0 := rfl
  rw [hc.reported 5] at hid
  exact absurd hid (by decide)

end Erl.Logging
