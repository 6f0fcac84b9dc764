import Erl.Platform.Library

/-!
# The life of a plugin

A `Plugin` (`_impl/plugin/impl.hpp`) is a library whose members are the plugin's
description and its two hooks. The constructor looks at the version the plugin was built
for, then calls `plugin_init`; the destructor calls `plugin_fini`, then closes the library.
What leaves the constructor by an exception has no destructor of its own, but the library
under it has. What is in a library is a parameter, and so is whether its `plugin_init`
throws.
-/

namespace Erl.Platform.Plugins
open TransitionSystem Function

/-- `PluginInfo`. -/
structure PluginInfo where
  api_version : Int32
  name : String
  version : String
  description : String

/-- `ERL_API_VERSION`. -/
def apiVersion : Int32 := 1

/-- What a library that has the symbols contains. -/
structure Image where
  plugin_info : Handle → PluginInfo
  initThrows : Handle → Bool

/-- The calls on the loader and on the hooks of the library with a handle. -/
inductive Event where
  | loader (call : Call)
  | init (handle : Option Handle)
  | fini (handle : Option Handle)

def loaderCalls (trace : List Event) : List Call :=
  trace.filterMap fun
    | .loader call => some call
    | _ => none

inductive Failure where
  | library (e : LibraryError)
  | plugin (message : String)
  | hook

abbrev Plugging := ExceptT Failure (StateM (List Event))

/-- Code of the library layer, with its calls appended to the trace. -/
def lift {α : Type} (m : Loading α) : Plugging α := fun trace =>
  let calls := loaderCalls trace
  let (result, after) := m.run.run calls
  (result.mapError .library, trace ++ (after.drop calls.length).map .loader)

def record (e : Event) : Plugging Unit := fun trace => (.ok (), trace ++ [e])

structure Plugin where
  library : Library
  info : PluginInfo

/-- The members of `Interface`. -/
def interface : List String := ["plugin_info", "plugin_init", "plugin_fini"]

section
variable (L : Loader) (image : Image)

/-- `plugin_init()`. -/
def pluginInit (handle : Option Handle) : Plugging Unit := do
  record (.init handle)
  if (handle.map image.initThrows).getD false then throw .hook

/-- An exception destroys what the constructor has built so far: the library. -/
def unwinding (library : Library) (m : Plugging Plugin) : Plugging Plugin :=
  tryCatchThe Failure m fun e => do
    lift library.destroy
    throw e

/-- `Plugin(std::string_view name)`. -/
def construct (name : String) : Plugging Plugin := do
  let library ← lift (Library.construct L interface name)
  unwinding library do
    let info := image.plugin_info (library.handle.getD 0)
    if info.api_version > apiVersion then
      throw (.plugin "Plugin was compiled against newer api version.")
    pluginInit image library.handle
    pure ⟨library, info⟩

/-- `~Plugin()`, and then `~Library()`. -/
def destroy (p : Plugin) : Plugging Unit := do
  record (.fini p.library.handle)
  lift p.library.destroy

/-- `load_plugin`; `join` is `operator/` of paths. -/
def loadPlugin (join : String → String → String) (name base : String) : Plugging Plugin :=
  if base = "" then construct L image name else construct L image (join base name)

inductive Op (ι : Type) where
  | load (i : ι) (name base : String)
  | destroy (i : ι)

structure State (ι : Type) where
  objects : ι → Option Plugin
  trace : List Event

variable {ι : Type} [DecidableEq ι] (join : String → String → String)

/-- One operation, if it is possible. A constructor that throws makes no object. -/
def exec (s : State ι) : Op ι → Option (State ι)
  | .load i name base =>
    match s.objects i with
    | none =>
      match (loadPlugin L image join name base).run.run s.trace with
      | (.ok p, trace) => some ⟨update s.objects i (some p), trace⟩
      | (.error _, trace) => some ⟨s.objects, trace⟩
    | some _ => none
  | .destroy i =>
    match s.objects i with
    | some p => some ⟨update s.objects i none, ((destroy p).run.run s.trace).2⟩
    | none => none

def start : State ι := ⟨fun _ => none, []⟩

end

inductive Deed where
  | opened
  | init
  | fini
  | closed
deriving DecidableEq

/-- What an event does to the library with handle `h`. -/
def Event.deed (h : Handle) : Event → Option Deed
  | .loader (.dlopen _ result) => if result = some h then some .opened else none
  | .loader (.dlclose handle) => if handle = some h then some .closed else none
  | .init handle => if handle = some h then some .init else none
  | .fini handle => if handle = some h then some .fini else none

def life (h : Handle) (trace : List Event) : List Deed := trace.filterMap (Event.deed h)

section
variable (L : Loader) (image : Image)

/-- The life of a handle, as long as a plugin has it and after. -/
def fullLife (h : Handle) (alive : Bool) : List Deed :=
  if interface.any fun name => L.dlsym h name = none then [.opened]
  else if (image.plugin_info h).api_version > apiVersion then [.opened, .closed]
  else if image.initThrows h then [.opened, .init, .closed]
  else if alive then [.opened, .init]
  else [.opened, .init, .fini, .closed]

end

/-! ## One operation -/

section
variable {L : Loader} {image : Image} {trace : List Event}

theorem loaderCalls_append (a b : List Event) : loaderCalls (a ++ b) = loaderCalls a ++ loaderCalls b :=
  List.filterMap_append ..

theorem life_append (h : Handle) (a b : List Event) : life h (a ++ b) = life h a ++ life h b := List.filterMap_append ..

/-- A handle of the loader comes to life when it is returned. -/
theorem life_of_fresh {path : String} {h : Handle} (opened : L.dlopen (loaderCalls trace) path = some h) :
    h ∉ returned (loaderCalls trace) := L.fresh _ _ _ opened

/-- The ways through the constructor. -/
inductive Constructs (L : Loader) (image : Image) (trace : List Event) (path : String) : Except Failure Plugin × List Event → Prop where
  | missing (e : Failure) : Constructs L image trace path (.error e, trace ++ [.loader (.dlopen path none)])
  | symbol (h : Handle) (e : Failure) (opened : L.dlopen (loaderCalls trace) path = some h)
      (lost : interface.any fun name => L.dlsym h name = none) :
      Constructs L image trace path (.error e, trace ++ [.loader (.dlopen path (some h))])
  | newer (h : Handle) (e : Failure) (opened : L.dlopen (loaderCalls trace) path = some h)
      (found : ¬ interface.any fun name => L.dlsym h name = none)
      (version : (image.plugin_info h).api_version > apiVersion) :
      Constructs L image trace path
        (.error e, trace ++ [.loader (.dlopen path (some h)), .loader (.dlclose (some h))])
  | threw (h : Handle) (e : Failure) (opened : L.dlopen (loaderCalls trace) path = some h)
      (found : ¬ interface.any fun name => L.dlsym h name = none)
      (version : ¬ (image.plugin_info h).api_version > apiVersion) (hook : image.initThrows h = true) :
      Constructs L image trace path
        (.error e, trace ++ [.loader (.dlopen path (some h)), .init (some h), .loader (.dlclose (some h))])
  | built (h : Handle) (p : Plugin) (held : p.library.handle = some h)
      (opened : L.dlopen (loaderCalls trace) path = some h)
      (found : ¬ interface.any fun name => L.dlsym h name = none)
      (version : ¬ (image.plugin_info h).api_version > apiVersion) (hook : image.initThrows h = false) :
      Constructs L image trace path (.ok p, trace ++ [.loader (.dlopen path (some h)), .init (some h)])

theorem run_bind {α β : Type} (m : Plugging α) (f : α → Plugging β) (trace : List Event) :
    (m >>= f) trace = match m trace with
      | (.ok a, t) => f a t
      | (.error e, t) => (.error e, t) := by
  show ExceptT.bind m f trace = _
  unfold ExceptT.bind ExceptT.mk
  show ExceptT.bindCont f (m trace).1 (m trace).2 = _
  rcases m trace with ⟨result | result, t⟩ <;> rfl

/-- A call of the library layer that makes one call on the loader. -/
theorem run_lift {α : Type} {m : Loading α} {result : Except LibraryError α} {x : Call}
    (run : m.run.run (loaderCalls trace) = (result, loaderCalls trace ++ [x])) :
    lift m trace = (result.mapError .library, trace ++ [.loader x]) := by
  unfold lift
  simp only [run, List.drop_left, List.map_cons, List.map_nil]

theorem run_destroy (library : Library) (trace : List Event) :
    lift library.destroy trace = (.ok (), trace ++ [.loader (.dlclose library.handle)]) := by
  have run : library.destroy.run.run (loaderCalls trace) = (.ok (), loaderCalls trace ++ [.dlclose library.handle]) := rfl
  rw [run_lift run]
  rfl

theorem run_unwinding (library : Library) (m : Plugging Plugin) (trace : List Event) :
    unwinding library m trace = match m trace with
      | (.ok p, t) => (.ok p, t)
      | (.error e, t) => (.error e, t ++ [.loader (.dlclose library.handle)]) := by
  have handled : unwinding library m trace = match m trace with
      | (.ok p, t) => (.ok p, t)
      | (.error e, t) => (do lift library.destroy; throw e : Plugging Plugin) t := by
    show (ExceptT.tryCatch m _ : Plugging Plugin) trace = _
    unfold ExceptT.tryCatch ExceptT.mk
    show StateT.bind m _ trace = _
    unfold StateT.bind
    rcases m trace with ⟨result | result, t⟩ <;> rfl
  rw [handled]
  rcases m trace with ⟨result | result, t⟩
  · simp only [run_bind, run_destroy]
    rfl
  · rfl

theorem constructs (L : Loader) (image : Image) (trace : List Event) (path : String) :
    Constructs L image trace path (construct L image path trace) := by
  have any_iff (h : Handle) : (interface.any fun name => L.dlsym h name = none) = true ↔
      ¬ ∀ name ∈ interface, L.dlsym h name ≠ none := by
    rw [List.any_eq_true]
    push Not
    simp only [decide_eq_true_eq]
  unfold construct
  rw [run_bind]
  rcases construct_cases L interface path (loaderCalls trace) with ⟨missing, e, run⟩ | ⟨h, symbols, opened, found, run⟩ |
    ⟨h, e, opened, lost, run⟩
  · rw [run_lift run]
    exact .missing _
  · rw [run_lift run]
    have sound : ¬ (interface.any fun name => L.dlsym h name = none) = true := fun lost => (any_iff h).mp lost found
    simp only [Except.mapError, run_unwinding, Option.getD_some]
    by_cases version : (image.plugin_info h).api_version > apiVersion
    · have stops (f : Unit → Plugging Plugin) (t : List Event) : ((throw (.plugin
          "Plugin was compiled against newer api version.") : Plugging Unit) >>= f) t = (.error _, t) := run_bind ..
      simp only [version, if_true, stops, List.append_assoc]
      exact .newer h _ opened sound version
    · have hooks : pluginInit image (some h) (trace ++ [.loader (.dlopen path (some h))]) =
          (if image.initThrows h then .error .hook else .ok (),
            trace ++ [.loader (.dlopen path (some h)), .init (some h)]) := by
        have recorded : record (.init (some h)) (trace ++ [.loader (.dlopen path (some h))]) =
            (.ok (), trace ++ [.loader (.dlopen path (some h)), .init (some h)]) := by
          simp [record]
        rw [pluginInit, run_bind, recorded]
        cases hook : image.initThrows h <;> simp [hook] <;> rfl
      simp only [version, if_false, run_bind, hooks]
      cases hook : image.initThrows h
      · exact .built h _ rfl opened sound version hook
      · have closed := Constructs.threw h (L := L) .hook opened sound version hook
        simpa [hook] using closed
  · rw [run_lift run]
    exact .symbol h _ opened ((any_iff h).mpr lost)

/-- `destroy` calls the hook, then closes the library. -/
theorem run_destroyPlugin (p : Plugin) (trace : List Event) :
    destroy p trace = (.ok (), trace ++ [.fini p.library.handle, .loader (.dlclose p.library.handle)]) := by
  have recorded : record (.fini p.library.handle) trace = (.ok (), trace ++ [.fini p.library.handle]) := rfl
  rw [destroy, run_bind, recorded]
  simp only [run_destroy, List.append_assoc, List.singleton_append]

/-! ## Runs -/

/-- Nothing stands in the way of the plugin. -/
structure Fits (L : Loader) (image : Image) (h : Handle) : Prop where
  symbols : ¬ interface.any fun name => L.dlsym h name = none
  version : ¬ (image.plugin_info h).api_version > apiVersion
  hook : image.initThrows h = false

theorem Fits.fullLife {h : Handle} (fits : Fits L image h) (alive : Bool) :
    fullLife L image h alive = if alive then [.opened, .init] else [.opened, .init, .fini, .closed] := by
  rw [Plugins.fullLife, if_neg fits.symbols, if_neg fits.version, if_neg (by simp [fits.hook])]

variable {ι : Type}

/-- Each plugin has a library of its own at the right point of its life, all other
libraries are at the end of theirs. -/
structure Inv (L : Loader) (image : Image) (s : State ι) : Prop where
  held : ∀ i p, s.objects i = some p → ∃ h, p.library.handle = some h ∧ h ∈ returned (loaderCalls s.trace) ∧
    Fits L image h ∧ life h s.trace = fullLife L image h true
  separate : ∀ i j p q, s.objects i = some p → s.objects j = some q → p.library.handle = q.library.handle → i = j
  gone : ∀ h ∈ returned (loaderCalls s.trace), (∀ i p, s.objects i = some p → p.library.handle ≠ some h) →
    life h s.trace = fullLife L image h false
  unborn : ∀ h, h ∉ returned (loaderCalls s.trace) → life h s.trace = []

theorem inv_start : Inv L image (start : State ι) where
  held _ _ live := by cases live
  separate _ _ _ _ live := by cases live
  gone _ mem := by cases mem
  unborn _ _ := rfl

/-- The events are all about `h`. -/
def About (h : Handle) (events : List Event) : Prop := ∀ k, k ≠ h → life k events = []

theorem life_other {h k : Handle} {events : List Event} (about : About h events) (ne : k ≠ h) :
    life k (trace ++ events) = life k trace := by
  rw [life_append, about k ne, List.append_nil]

variable {s : State ι} {h : Handle} {events : List Event}

/-- A library is opened, and its life is over when the constructor is left. -/
theorem Inv.opens (inv : Inv L image s) (fresh : h ∉ returned (loaderCalls s.trace)) (about : About h events)
    (opened : returned (loaderCalls (s.trace ++ events)) = returned (loaderCalls s.trace) ++ [h])
    (lived : life h events = fullLife L image h false) : Inv L image ⟨s.objects, s.trace ++ events⟩ where
  held i p live := by
    obtain ⟨k, handle, mem, fits, lives⟩ := inv.held i p live
    have ne : k ≠ h := fun same => fresh (same ▸ mem)
    exact ⟨k, handle, opened ▸ List.mem_append_left _ mem, fits, (life_other about ne).trans lives⟩
  separate := inv.separate
  gone k mem free := by
    by_cases same : k = h
    · rw [same, life_append, inv.unborn h fresh, List.nil_append, lived]
    · rw [life_other about same]
      rw [opened] at mem
      exact inv.gone k ((List.mem_append.mp mem).resolve_right (by simpa using same)) free
  unborn k new := by
    rw [opened] at new
    have ne : k ≠ h := fun same => new (List.mem_append_right _ (by simp [same]))
    rw [life_other about ne]
    exact inv.unborn k fun mem => new (List.mem_append_left _ mem)

variable [DecidableEq ι]

theorem live_of_update {objects : ι → Option Plugin} {i j : ι} {new : Option Plugin} {q : Plugin}
    (live : update objects i new j = some q) : (j = i ∧ new = some q) ∨ (j ≠ i ∧ objects j = some q) := by
  by_cases same : j = i
  · subst same
    rw [update_self] at live
    exact .inl ⟨rfl, live⟩
  · rw [update_of_ne same] at live
    exact .inr ⟨same, live⟩

/-- A plugin is built. -/
theorem Inv.builds (inv : Inv L image s) {i : ι} {p : Plugin} (dead : s.objects i = none)
    (handle : p.library.handle = some h) (fresh : h ∉ returned (loaderCalls s.trace)) (fits : Fits L image h)
    (about : About h events)
    (opened : returned (loaderCalls (s.trace ++ events)) = returned (loaderCalls s.trace) ++ [h])
    (lived : life h events = fullLife L image h true) : Inv L image ⟨update s.objects i (some p), s.trace ++ events⟩ where
  held j q live := by
    obtain ⟨rfl, same⟩ | ⟨-, live⟩ := live_of_update live
    · cases same
      refine ⟨h, handle, opened ▸ List.mem_append_right _ (List.mem_singleton_self h), fits, ?_⟩
      rw [life_append, inv.unborn h fresh, List.nil_append, lived]
    · obtain ⟨k, handle', mem, fits', lives⟩ := inv.held j q live
      have ne : k ≠ h := fun same => fresh (same ▸ mem)
      exact ⟨k, handle', opened ▸ List.mem_append_left _ mem, fits', (life_other about ne).trans lives⟩
  separate j k p' q' hj hk same := by
    have other : ∀ l r, s.objects l = some r → r.library.handle ≠ some h := by
      intro l r live eq
      obtain ⟨h', handle', mem, -⟩ := inv.held l r live
      exact fresh (Option.some.inj (handle'.symm.trans eq) ▸ mem)
    obtain ⟨hji, newJ⟩ | ⟨-, oldJ⟩ := live_of_update hj <;> obtain ⟨hki, newK⟩ | ⟨-, oldK⟩ := live_of_update hk
    · exact hji.trans hki.symm
    · cases newJ
      exact absurd (same.symm.trans handle) (other k q' oldK)
    · cases newK
      exact absurd (same.trans handle) (other j p' oldJ)
    · exact inv.separate j k p' q' oldJ oldK same
  gone k mem free := by
    have ne : k ≠ h := fun same => free i p (update_self ..) (same ▸ handle)
    rw [life_other about ne]
    rw [opened] at mem
    refine inv.gone k ((List.mem_append.mp mem).resolve_right (by simpa using ne)) fun j q live => ?_
    refine free j q ((update_of_ne ?_ ..).trans live)
    rintro rfl
    cases dead.symm.trans live
  unborn k new := by
    rw [opened] at new
    have ne : k ≠ h := fun same => new (List.mem_append_right _ (by simp [same]))
    rw [life_other about ne]
    exact inv.unborn k fun mem => new (List.mem_append_left _ mem)

/-- A plugin is destroyed. -/
theorem Inv.destroys (inv : Inv L image s) {i : ι} {p : Plugin} (live : s.objects i = some p) :
    Inv L image ⟨update s.objects i none, s.trace ++ [.fini p.library.handle, .loader (.dlclose p.library.handle)]⟩ := by
  obtain ⟨h, handle, mem, fits, lives⟩ := inv.held i p live
  have about : About h [.fini p.library.handle, .loader (.dlclose p.library.handle)] := by
    intro k ne
    simp [life, Event.deed, handle, Ne.symm ne]
  have lived : life h [.fini p.library.handle, .loader (.dlclose p.library.handle)] = [.fini, .closed] := by
    simp [life, Event.deed, handle]
  have still : returned (loaderCalls (s.trace ++ [.fini p.library.handle, .loader (.dlclose p.library.handle)])) =
      returned (loaderCalls s.trace) := by
    rw [loaderCalls_append]
    exact returned_dlclose
  constructor
  case held =>
    intro j q live'
    obtain ⟨-, same⟩ | ⟨ne, live'⟩ := live_of_update live'
    · cases same
    · obtain ⟨k, handle', mem', fits', lives'⟩ := inv.held j q live'
      have other : k ≠ h := by
        rintro rfl
        exact ne (inv.separate j i q p live' live (handle'.trans handle.symm))
      exact ⟨k, handle', still ▸ mem', fits', (life_other about other).trans lives'⟩
  case separate =>
    intro j k p' q' hj hk same
    obtain ⟨-, hj⟩ | ⟨-, hj⟩ := live_of_update hj
    · cases hj
    · obtain ⟨-, hk⟩ | ⟨-, hk⟩ := live_of_update hk
      · cases hk
      · exact inv.separate j k p' q' hj hk same
  case gone =>
    intro k mem' free
    by_cases same : k = h
    · rw [same, life_append, lives, lived, fits.fullLife, fits.fullLife]
      rfl
    · rw [life_other about same]
      refine inv.gone k (still ▸ mem') fun j q live' => ?_
      by_cases here : j = i
      · subst here
        cases live.symm.trans live'
        rw [handle]
        exact fun eq => same (Option.some.inj eq).symm
      · exact free j q ((update_of_ne here ..).trans live')
  case unborn =>
    intro k new
    rw [still] at new
    have ne : k ≠ h := fun same => new (same ▸ mem)
    rw [life_other about ne]
    exact inv.unborn k new

theorem Inv.loads (inv : Inv L image s) {i : ι} (dead : s.objects i = none) {path : String}
    {out : Except Failure Plugin × List Event} (made : Constructs L image s.trace path out) :
    Inv L image (match out with
      | (.ok p, trace) => ⟨update s.objects i (some p), trace⟩
      | (.error _, trace) => ⟨s.objects, trace⟩) := by
  have opened (h : Handle) (rest : List Event) (quiet : loaderCalls rest = [] ∨ ∃ k, loaderCalls rest = [.dlclose k]) :
      returned (loaderCalls (s.trace ++ .loader (.dlopen path (some h)) :: rest)) =
        returned (loaderCalls s.trace) ++ [h] := by
    rw [loaderCalls_append]
    show returned (loaderCalls s.trace ++ .dlopen path (some h) :: loaderCalls rest) = _
    rcases quiet with none | ⟨k, one⟩
    · rw [none]
      exact returned_dlopen_some
    · rw [one, List.append_cons, returned_dlclose, returned_dlopen_some]
  cases made with
  | missing e =>
    have still : returned (loaderCalls (s.trace ++ [.loader (.dlopen path none)])) = returned (loaderCalls s.trace) := by
      rw [loaderCalls_append]
      exact returned_dlopen_none
    have same (h : Handle) : life h (s.trace ++ [.loader (.dlopen path none)]) = life h s.trace := by
      simp [life, Event.deed]
    constructor
    · intro j q live
      obtain ⟨h, handle, mem, fits, lives⟩ := inv.held j q live
      exact ⟨h, handle, still ▸ mem, fits, (same h).trans lives⟩
    · exact inv.separate
    · intro h mem free
      exact (same h).trans (inv.gone h (still ▸ mem) free)
    · intro h new
      exact (same h).trans (inv.unborn h (still ▸ new))
  | symbol h e found lost =>
    refine inv.opens (life_of_fresh found) ?_ (opened h [] (.inl rfl)) ?_
    · intro k ne
      simp [life, Event.deed, Ne.symm ne]
    · rw [fullLife, if_pos lost]
      simp [life, Event.deed]
  | newer h e opens found version =>
    refine inv.opens (life_of_fresh opens) ?_ (opened h _ (.inr ⟨_, rfl⟩)) ?_
    · intro k ne
      simp [life, Event.deed, Ne.symm ne]
    · rw [fullLife, if_neg found, if_pos version]
      simp [life, Event.deed]
  | threw h e opens found version hook =>
    refine inv.opens (life_of_fresh opens) ?_ (opened h _ (.inr ⟨_, rfl⟩)) ?_
    · intro k ne
      simp [life, Event.deed, Ne.symm ne]
    · rw [fullLife, if_neg found, if_neg version, if_pos hook]
      simp [life, Event.deed]
  | built h p held opens found version hook =>
    have fits : Fits L image h := ⟨found, version, hook⟩
    refine inv.builds dead held (life_of_fresh opens) fits ?_ (opened h _ (.inl rfl)) ?_
    · intro k ne
      simp [life, Event.deed, Ne.symm ne]
    · rw [fits.fullLife]
      simp [life, Event.deed]

variable {join : String → String → String}

theorem Inv.step (inv : Inv L image s) {op : Op ι} {t : State ι} (h : exec L image join s op = some t) : Inv L image t := by
  cases op with
  | load i name base =>
    cases dead : s.objects i with
    | some p => simp [exec, dead] at h
    | none =>
      have made : ∃ path, Constructs L image s.trace path (loadPlugin L image join name base s.trace) := by
        unfold loadPlugin
        split
        · exact ⟨_, constructs L image s.trace _⟩
        · exact ⟨_, constructs L image s.trace _⟩
      obtain ⟨path, made⟩ := made
      have next := inv.loads dead made
      have run : exec L image join s (.load i name base) = some (match loadPlugin L image join name base s.trace with
          | (.ok p, trace) => ⟨update s.objects i (some p), trace⟩
          | (.error _, trace) => ⟨s.objects, trace⟩) := by
        simp only [exec, dead]
        show (match loadPlugin L image join name base s.trace with | (.ok p, trace) => _ | (.error _, trace) => _) = _
        rcases loadPlugin L image join name base s.trace with ⟨result | result, trace⟩ <;> rfl
      cases run.symm.trans h
      exact next
  | destroy i =>
    cases live : s.objects i with
    | none => simp [exec, live] at h
    | some p =>
      simp only [exec, live, Option.some.injEq] at h
      subst h
      have out : ((destroy p).run.run s.trace).2 = _ := congrArg Prod.snd (run_destroyPlugin p s.trace)
      rw [out]
      exact inv.destroys live

/-- **The life of every plugin.** Whatever plugins are loaded and destroyed, in any order
and against any loader that never returns a handle twice: a library that a plugin holds has been opened and initialised, no
more; any other library that was opened has had the whole life that its symbols, its
version and its `plugin_init` allow, each deed once and in order, and was left open only
if a symbol is missing; nothing is done to what was never opened. -/
theorem plugins_live (L : Loader) (image : Image) (join : String → String → String) (ops : List (Op ι)) (s : State ι)
    (run : ops.foldlM (exec L image join) start = some s) :
    (∀ i p, s.objects i = some p → ∃ h, p.library.handle = some h ∧ h ∈ returned (loaderCalls s.trace) ∧
      life h s.trace = fullLife L image h true ∧ life h s.trace = [.opened, .init]) ∧
    (∀ h ∈ returned (loaderCalls s.trace), (∀ i p, s.objects i = some p → p.library.handle ≠ some h) →
      life h s.trace = fullLife L image h false) ∧
    ∀ h, h ∉ returned (loaderCalls s.trace) → life h s.trace = [] := by
  have inv : Inv L image s :=
    holds_along (I := Inv L image) inv_start (fun _ _ _ taken inv => inv.step taken.enabled) ops []
      (List.append_nil ops).symm run
  refine ⟨fun i p live => ?_, inv.gone, inv.unborn⟩
  obtain ⟨h, handle, mem, fits, lives⟩ := inv.held i p live
  refine ⟨h, handle, mem, lives, ?_⟩
  rw [lives, fits.fullLife]
  rfl

end

/-- The library with handle 3 was built for a newer version. -/
def sampleImage : Image where
  plugin_info h := ⟨if h = 3 then 2 else 1, "sample plugin", "v1.0.0", ""⟩
  initThrows _ := false

/-- One plugin is loaded and destroyed, another is refused for its version. -/
theorem plugins_live_two :
    ∃ s : State Nat, [.load 0 "a.so" "", .load 1 "b.so" "plugins", .destroy 0].foldlM
        (exec sampleLoader sampleImage fun base name => base ++ "/" ++ name) start = some s ∧
      life 1 s.trace = [.opened, .init, .fini, .closed] ∧ life 3 s.trace = [.opened, .closed] := by
  obtain ⟨s, run, trace, gone⟩ : ∃ s : State Nat, [.load 0 "a.so" "", .load 1 "b.so" "plugins", .destroy 0].foldlM
      (exec sampleLoader sampleImage fun base name => base ++ "/" ++ name) start = some s ∧
      returned (loaderCalls s.trace) = [1, 3] ∧ ∀ i, s.objects i = none :=
    ⟨_, rfl, rfl, fun i => by rcases i with _ | i <;> rfl⟩
  have free (h : Handle) (i : Nat) (p : Plugin) (live : s.objects i = some p) : p.library.handle ≠ some h := by
    cases (gone i).symm.trans live
  obtain ⟨-, ended, -⟩ := plugins_live sampleLoader sampleImage _ _ s run
  refine ⟨s, run, ?_, ?_⟩
  · rw [ended 1 (by rw [trace]; decide) (free 1)]
    decide
  · rw [ended 3 (by rw [trace]; decide) (free 3)]
    decide

end Erl.Platform.Plugins
