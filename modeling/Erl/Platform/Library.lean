import Erl.Lib.Ownership
import Erl.Lib.System
import Mathlib.Data.List.ReduceOption
import Mathlib.Logic.Equiv.Basic

/-!
# `Library` and the handles it holds

`Library<Wrapper>` (`erl/autoload`) opens a shared library, looks its symbols up and
closes it again. The functions of `platform/library.cpp` under it call the loader of the
operating system, which is a parameter; its calls that open and close are logged.

The destructor closes the handle whatever it is, also null, which a moved-from object
holds. The constructor opens first and then looks the symbols up; if one is missing, the
exception leaves it and no destructor runs.
-/

namespace Erl.Platform
open TransitionSystem Ownership Function

/-- A pointer `dlopen` returned. -/
abbrev Handle := Nat

/-- A pointer `dlsym` returned. -/
abbrev Address := Nat

/-- `none` is null. -/
inductive Call where
  | dlopen (path : String) (result : Option Handle)
  | dlclose (handle : Option Handle)
deriving DecidableEq, Repr

/-- The handles returned by `dlopen`. -/
def returned (calls : List Call) : List Handle :=
  calls.filterMap fun
    | .dlopen _ result => result
    | .dlclose _ => none

/-- What `dlclose` was called with. -/
def closed (calls : List Call) : List (Option Handle) :=
  calls.filterMap fun
    | .dlopen _ _ => none
    | .dlclose handle => some handle

/-- The call `dlerror` is asked about. -/
inductive Failed where
  | dlopen (path : String)
  | dlsym (handle : Handle) (name : String)

/-- The loader. Every handle it returns is new: what `dlopen` returns for a library that is
loaded already is left out. -/
structure Loader where
  dlopen : List Call → String → Option Handle
  fresh : ∀ calls path handle, dlopen calls path = some handle → handle ∉ returned calls
  dlsym : Handle → String → Option Address
  dlerror : Failed → Option String

structure LibraryError where
  message : String

/-- Code that calls the loader. -/
abbrev Loading := ExceptT LibraryError (StateM (List Call))

section
variable (L : Loader)

def getLastError (failed : Failed) : String := (L.dlerror failed).getD ""

def loadLibrary (path : String) : Loading Handle := do
  let calls ← get
  let handle := L.dlopen calls path
  set (calls ++ [.dlopen path handle])
  match handle with
  | some handle => pure handle
  | none => throw ⟨getLastError L (.dlopen path)⟩

def unloadLibrary (handle : Option Handle) : Loading Unit := modify fun calls => calls ++ [.dlclose handle]

def resolveSymbol (handle : Handle) (name : String) : Except LibraryError Address :=
  match L.dlsym handle name with
  | some address => .ok address
  | none => .error ⟨getLastError L (.dlsym handle name)⟩

/-- The handle, and the members of the `Wrapper`. -/
structure Library where
  handle : Option Handle
  symbols : List (Option Address)

namespace Library

/-- `load_symbols`; `names` are the identifiers of the members of the `Wrapper`. -/
def loadSymbols (names : List String) (handle : Handle) : Except LibraryError (List Address) :=
  names.mapM (resolveSymbol L handle)

/-- `Library(std::string_view path)`. -/
def construct (names : List String) (path : String) : Loading Library := do
  let handle ← loadLibrary L path
  match loadSymbols L names handle with
  | .ok symbols => pure ⟨some handle, symbols.map some⟩
  | .error e => throw e

/-- `~Library()`. -/
def destroy (l : Library) : Loading Unit := unloadLibrary l.handle

/-- `Library(Library&& other)`: the new object and what is left of `other`. -/
def moveConstruct (other : Library) : Library × Library :=
  (⟨other.handle, other.symbols⟩, ⟨none, other.symbols.map fun _ => none⟩)

/-- `operator=(Library&& other)` for two different objects: both are swapped. -/
def moveAssign (this other : Library) : Library × Library :=
  (⟨other.handle, other.symbols⟩, ⟨this.handle, this.symbols⟩)

end Library

/-- What is done to the objects `i`. -/
inductive Op (ι : Type) where
  | construct (i : ι) (path : String)
  | moveConstruct (i other : ι)
  | moveAssign (i other : ι)
  | destroy (i : ι)

/-- The live objects and the calls so far. -/
structure State (ι : Type) where
  objects : ι → Option Library
  calls : List Call

variable {ι : Type} [DecidableEq ι] (names : List String)

/-- One operation, if it is possible. A constructor that throws makes no object. -/
def exec (s : State ι) : Op ι → Option (State ι)
  | .construct i path =>
    match s.objects i with
    | none =>
      match (Library.construct L names path).run.run s.calls with
      | (.ok l, calls) => some ⟨update s.objects i (some l), calls⟩
      | (.error _, calls) => some ⟨s.objects, calls⟩
    | some _ => none
  | .moveConstruct i other =>
    match s.objects i, s.objects other with
    | none, some l =>
      let (l, rest) := l.moveConstruct
      some { s with objects := update (update s.objects i (some l)) other (some rest) }
    | _, _ => none
  | .moveAssign i other =>
    match s.objects i, s.objects other with
    | some a, some b =>
      if i = other then some s
      else
        let (a, b) := a.moveAssign b
        some { s with objects := update (update s.objects i (some a)) other (some b) }
    | _, _ => none
  | .destroy i =>
    match s.objects i with
    | some l => some ⟨update s.objects i none, (l.destroy.run.run s.calls).2⟩
    | none => none

def start : State ι := ⟨fun _ => none, []⟩

end

section
variable {ι : Type} (s : State ι)

/-- `unload_library` was called with handles that `load_library` returned only, and with
none of them twice. -/
def State.ReturnedOnly : Prop := (closed s.calls).Nodup ∧ ∀ c ∈ closed s.calls, ∃ h ∈ returned s.calls, c = some h

/-- Every handle that `load_library` returned was passed to `unload_library` once, and
nothing else. -/
def State.ReleasedOnce : Prop := (closed s.calls).Perm ((returned s.calls).map some)

/-- What the calls should be like at any time, and once all objects are destroyed. -/
def State.Balanced : Prop := s.ReturnedOnly ∧ ((∀ i, s.objects i = none) → s.ReleasedOnce)

/-- The object destroyed, if any, has a handle. -/
def HoldsHandle (op : Op ι) : Prop := ∀ i l, op = .destroy i → s.objects i = some l → l.handle ≠ none

/-- The library opened, if any, has all the symbols. -/
def SymbolsFound (L : Loader) (names : List String) (op : Op ι) : Prop :=
  ∀ i path handle, op = .construct i path → L.dlopen s.calls path = some handle →
    ∀ name ∈ names, L.dlsym handle name ≠ none

/-- Which object holds which handle. -/
def State.holder (i : ι) : Option Handle := (s.objects i).bind Library.handle

/-- No handle is closed twice, closed while it is held, or held twice. -/
def Inv : Prop := Held (returned s.calls) (closed s.calls).reduceOption s.holder

/-- No handle is lost. -/
def State.Covered : Prop := Ownership.Covered (returned s.calls) (closed s.calls).reduceOption s.holder

end

section
variable {calls : List Call} {path : String} {handle : Option Handle}

@[simp] theorem returned_dlopen_none : returned (calls ++ [.dlopen path none]) = returned calls := by
  simp [returned]

@[simp] theorem returned_dlopen_some {h : Handle} : returned (calls ++ [.dlopen path (some h)]) = returned calls ++ [h] := by
  simp [returned]

@[simp] theorem returned_dlclose : returned (calls ++ [.dlclose handle]) = returned calls := by
  simp [returned]

@[simp] theorem closed_dlopen {result : Option Handle} : closed (calls ++ [.dlopen path result]) = closed calls := by
  simp [closed]

@[simp] theorem closed_dlclose : closed (calls ++ [.dlclose handle]) = closed calls ++ [handle] := by
  simp [closed]

end

/-! ## One operation -/

section
variable {L : Loader} {names : List String}

/-- `load_symbols` returns exactly if all symbols are there. -/
theorem loadSymbols_isOk_iff {handle : Handle} :
    (∃ symbols, Library.loadSymbols L names handle = .ok symbols) ↔ ∀ name ∈ names, L.dlsym handle name ≠ none := by
  induction names with
  | nil => exact ⟨fun _ _ h => absurd h List.not_mem_nil, fun _ => ⟨[], rfl⟩⟩
  | cons name names ih =>
    rw [List.forall_mem_cons, ← ih]
    simp only [Library.loadSymbols, List.mapM_cons, resolveSymbol]
    cases hname : L.dlsym handle name with
    | none => simp [Bind.bind, Except.bind]
    | some address =>
      cases hrest : names.mapM (resolveSymbol L handle) <;>
        simp [Bind.bind, Except.bind, Pure.pure, Except.pure]

theorem run_loadLibrary (L : Loader) (path : String) (calls : List Call) :
    (loadLibrary L path).run.run calls =
      (match L.dlopen calls path with
        | some handle => .ok handle
        | none => .error ⟨getLastError L (.dlopen path)⟩,
      calls ++ [.dlopen path (L.dlopen calls path)]) := by
  show (match L.dlopen calls path with
    | some handle => pure handle
    | none => throw ⟨getLastError L (.dlopen path)⟩ : Loading Handle).run.run
      (calls ++ [.dlopen path (L.dlopen calls path)]) = _
  cases L.dlopen calls path <;> rfl

/-- Behind `load_library`, the symbols decide. -/
theorem run_construct {path : String} {calls : List Call} {handle : Handle} (hopen : L.dlopen calls path = some handle) :
    (Library.construct L names path).run.run calls =
      ((Library.loadSymbols L names handle).map fun symbols => ⟨some handle, symbols.map some⟩,
        calls ++ [.dlopen path (some handle)]) := by
  rw [Library.construct, ExceptT.run_bind, StateT.run_bind, run_loadLibrary, hopen]
  show (match Library.loadSymbols L names handle with
    | .ok symbols => pure ⟨some handle, symbols.map some⟩
    | .error e => throw e : Loading Library).run.run (calls ++ [.dlopen path (some handle)]) = _
  cases Library.loadSymbols L names handle <;> rfl

/-- The ways through the constructor: nothing is opened, all symbols are found, or one is
missing. -/
theorem construct_cases (L : Loader) (names : List String) (path : String) (calls : List Call) :
    (L.dlopen calls path = none ∧
      ∃ e, (Library.construct L names path).run.run calls = (.error e, calls ++ [.dlopen path none])) ∨
    (∃ handle symbols, L.dlopen calls path = some handle ∧ (∀ name ∈ names, L.dlsym handle name ≠ none) ∧
      (Library.construct L names path).run.run calls =
        (.ok ⟨some handle, symbols⟩, calls ++ [.dlopen path (some handle)])) ∨
    ∃ handle e, L.dlopen calls path = some handle ∧ (¬ ∀ name ∈ names, L.dlsym handle name ≠ none) ∧
      (Library.construct L names path).run.run calls = (.error e, calls ++ [.dlopen path (some handle)]) := by
  cases hopen : L.dlopen calls path with
  | none =>
    left
    refine ⟨rfl, ⟨getLastError L (.dlopen path)⟩, ?_⟩
    rw [Library.construct, ExceptT.run_bind, StateT.run_bind, run_loadLibrary, hopen]
    rfl
  | some handle =>
    right
    have hrun : (Library.construct L names path).run.run calls = _ := run_construct hopen
    cases hload : Library.loadSymbols L names handle with
    | ok symbols =>
      rw [hload] at hrun
      exact .inl ⟨handle, symbols.map some, rfl, loadSymbols_isOk_iff.mp ⟨symbols, hload⟩, hrun⟩
    | error e =>
      rw [hload] at hrun
      refine .inr ⟨handle, e, rfl, ?_, hrun⟩
      intro hall
      obtain ⟨symbols, hok⟩ := loadSymbols_isOk_iff.mpr hall
      cases hload.symm.trans hok

end

/-! ## What an operation does to the records -/

section
variable {ι : Type} {s t : State ι} {L : Loader} {names : List String}

theorem holder_of_dead {i : ι} (hdead : s.objects i = none) : s.holder i = none := by
  rw [State.holder, hdead, Option.bind_none]

theorem holder_of_live {i : ι} {l : Library} (hlive : s.objects i = some l) : s.holder i = l.handle := by
  rw [State.holder, hlive, Option.bind_some]

/-- The log of closed handles stays without null as long as the objects destroyed have
handles; no handle is lost as long as the symbols are found. -/
structure Recorded (L : Loader) (names : List String) (s t : State ι) (op : Op ι) : Prop where
  inv : Inv t
  null : none ∉ closed t.calls ↔ none ∉ closed s.calls ∧ HoldsHandle s op
  covered : t.Covered ↔ s.Covered ∧ SymbolsFound s L names op

/-- Nothing is opened or closed, and handles change places at most. -/
theorem recorded_of_moves (inv : Inv s) {op : Op ι} (hcalls : t.calls = s.calls) (e : Equiv.Perm ι)
    (hholder : t.holder = s.holder ∘ e) (hholds : HoldsHandle s op) (hfound : SymbolsFound s L names op) :
    Recorded L names s t op := by
  refine ⟨?_, ?_, ?_⟩
  · unfold Inv
    rw [hcalls, hholder]
    exact Held.comp inv e
  · rw [hcalls]
    exact (and_iff_left hholds).symm
  · unfold State.Covered
    rw [hcalls, hholder, covered_comp_iff]
    exact (and_iff_left hfound).symm

variable [DecidableEq ι]

theorem holder_update (objects : ι → Option Library) (calls : List Call) (i : ι) (l : Option Library) :
    State.holder ⟨update objects i l, calls⟩ = update (State.holder ⟨objects, calls⟩) i (l.bind Library.handle) := by
  funext k
  by_cases hk : k = i
  · subst hk
    simp only [State.holder, update_self]
  · simp only [State.holder, update_of_ne hk]

/-- Two objects with each other's handles. -/
theorem holder_swap (i other : ι) {a b : Library} {calls : List Call} (ha : a.handle = s.holder other)
    (hb : b.handle = s.holder i) :
    State.holder ⟨update (update s.objects i (some a)) other (some b), calls⟩ = s.holder ∘ Equiv.swap i other := by
  funext k
  by_cases hother : k = other
  · rw [hother, State.holder, Function.comp_apply, Equiv.swap_apply_right]
    simp only [update_self, Option.bind_some, hb]
  · by_cases hi : k = i
    · rw [hi] at hother ⊢
      rw [State.holder, Function.comp_apply, Equiv.swap_apply_left]
      simp only [update_of_ne hother, update_self, Option.bind_some, ha]
    · rw [State.holder, Function.comp_apply, Equiv.swap_apply_of_ne_of_ne hi hother]
      simp only [update_of_ne hother, update_of_ne hi]
      rfl

theorem Recorded.construct (inv : Inv s) {i : ι} {path : String} (hstep : exec L names s (.construct i path) = some t) :
    Recorded L names s t (.construct i path) := by
  have hnull {result : Option Handle} : none ∉ closed (s.calls ++ [.dlopen path result]) ↔
      none ∉ closed s.calls ∧ HoldsHandle s (.construct i path) := by
    rw [closed_dlopen]
    exact (and_iff_left nofun).symm
  simp only [exec] at hstep
  split at hstep
  · rename_i hdead
    have hnone := holder_of_dead hdead
    rcases construct_cases L names path s.calls with ⟨hopen, e, hrun⟩ | ⟨handle, symbols, hopen, hall, hrun⟩ |
      ⟨handle, e, hopen, hmissing, hrun⟩ <;> rw [hrun] at hstep <;> cases hstep
    · have hfound : SymbolsFound s L names (.construct i path) := by
        rintro _ _ handle ⟨⟩ hopen'
        cases hopen.symm.trans hopen'
      refine ⟨?_, hnull, ?_⟩
      · show Held (returned (s.calls ++ [.dlopen path none])) _ s.holder
        rw [returned_dlopen_none, closed_dlopen]
        exact inv
      · show Ownership.Covered (returned (s.calls ++ [.dlopen path none])) _ s.holder ↔ _
        rw [returned_dlopen_none, closed_dlopen]
        exact (and_iff_left hfound).symm
    · have hfresh := L.fresh s.calls path handle hopen
      have hfound : SymbolsFound s L names (.construct i path) := by
        rintro _ _ handle' ⟨⟩ hopen'
        cases hopen.symm.trans hopen'
        exact hall
      refine ⟨?_, hnull, ?_⟩
      · unfold Inv
        rw [holder_update, returned_dlopen_some, closed_dlopen]
        exact Held.acquire inv hfresh
      · unfold State.Covered
        rw [holder_update, returned_dlopen_some, closed_dlopen]
        exact (covered_acquire_iff hfresh hnone).trans (and_iff_left hfound).symm
    · have hfresh := L.fresh s.calls path handle hopen
      have hlost : ¬ SymbolsFound s L names (.construct i path) := fun hfound => hmissing (hfound i path handle rfl hopen)
      refine ⟨?_, hnull, ?_⟩
      · show Held (returned (s.calls ++ [.dlopen path (some handle)])) _ s.holder
        rw [returned_dlopen_some, closed_dlopen]
        exact Held.lose inv hfresh
      · show Ownership.Covered (returned (s.calls ++ [.dlopen path (some handle)])) _ s.holder ↔ _
        rw [returned_dlopen_some, closed_dlopen]
        exact iff_of_false (Held.not_covered_lose inv hfresh) fun h => hlost h.2
  · cases hstep

theorem Recorded.moveConstruct (inv : Inv s) {i other : ι} (hstep : exec L names s (.moveConstruct i other) = some t) :
    Recorded L names s t (.moveConstruct i other) := by
  simp only [exec] at hstep
  split at hstep
  · rename_i l hdead hlive
    cases hstep
    exact recorded_of_moves inv rfl (Equiv.swap i other)
      (holder_swap i other (holder_of_live hlive).symm (holder_of_dead hdead).symm) nofun nofun
  · cases hstep

theorem Recorded.moveAssign (inv : Inv s) {i other : ι} (hstep : exec L names s (.moveAssign i other) = some t) :
    Recorded L names s t (.moveAssign i other) := by
  simp only [exec] at hstep
  split at hstep
  · rename_i a b hi hother
    split at hstep <;> cases hstep
    · exact recorded_of_moves inv rfl (Equiv.refl ι) rfl nofun nofun
    · exact recorded_of_moves inv rfl (Equiv.swap i other)
        (holder_swap i other (holder_of_live hother).symm (holder_of_live hi).symm) nofun nofun
  · cases hstep

theorem Recorded.destroy (inv : Inv s) {i : ι} (hstep : exec L names s (.destroy i) = some t) :
    Recorded L names s t (.destroy i) := by
  have hfound : SymbolsFound s L names (.destroy i) := nofun
  simp only [exec] at hstep
  split at hstep
  · rename_i l hlive
    cases hstep
    have hcalls : (l.destroy.run.run s.calls).2 = s.calls ++ [.dlclose l.handle] := rfl
    rw [hcalls]
    have hholder := holder_of_live hlive
    cases hhandle : l.handle with
    | none =>
      rw [hhandle] at hholder
      have hsame : State.holder ⟨update s.objects i none, s.calls ++ [.dlclose none]⟩ = s.holder := by
        rw [holder_update]
        exact (congrArg (update s.holder i) hholder.symm).trans (update_eq_self i s.holder)
      refine ⟨?_, ?_, ?_⟩
      · unfold Inv
        rw [hsame, returned_dlclose, closed_dlclose, List.reduceOption_append]
        simpa [Inv] using inv
      · rw [closed_dlclose]
        exact iff_of_false (fun h => h (List.mem_append_right _ (List.mem_singleton_self none)))
          fun h => h.2 i l rfl hlive hhandle
      · unfold State.Covered
        rw [hsame, returned_dlclose, closed_dlclose, List.reduceOption_append]
        simpa using fun _ => hfound
    | some handle =>
      rw [hhandle] at hholder
      have hholds : HoldsHandle s (.destroy i) := by
        rintro _ l' ⟨⟩ hlive'
        cases hlive.symm.trans hlive'
        rw [hhandle]
        nofun
      refine ⟨?_, ?_, ?_⟩
      · unfold Inv
        rw [holder_update, returned_dlclose, closed_dlclose, List.reduceOption_append]
        exact Held.release inv hholder
      · rw [closed_dlclose, List.mem_append, List.mem_singleton]
        simpa using fun _ => hholds
      · unfold State.Covered
        rw [holder_update, returned_dlclose, closed_dlclose, List.reduceOption_append]
        exact (covered_release_iff hholder).trans (and_iff_left hfound).symm
  · cases hstep

theorem recorded (inv : Inv s) {op : Op ι} (hstep : exec L names s op = some t) : Recorded L names s t op := by
  cases op with
  | construct i path => exact .construct inv hstep
  | moveConstruct i other => exact .moveConstruct inv hstep
  | moveAssign i other => exact .moveAssign inv hstep
  | destroy i => exact .destroy inv hstep

end

section
variable {ι : Type} {s : State ι}

theorem inv_start : Inv (start : State ι) := held_nil

/-- A log without null is the log of the handles in it. -/
theorem map_some_reduceOption {l : List (Option Handle)} (h : none ∉ l) : l.reduceOption.map some = l := by
  induction l with
  | nil => rfl
  | cons c l ih =>
    obtain ⟨hc, hl⟩ := not_or.mp fun hmem => h (List.mem_cons.mpr hmem)
    obtain ⟨handle, rfl⟩ := Option.ne_none_iff_exists'.mp (Ne.symm hc)
    rw [List.reduceOption_cons_of_some, List.map_cons, ih hl]

/-- Only returned handles have been closed, each once, unless null has. -/
theorem Inv.returnedOnly_iff (inv : Inv s) : s.ReturnedOnly ↔ none ∉ closed s.calls := by
  constructor
  · rintro ⟨-, hall⟩ hnone
    obtain ⟨h, -, hsame⟩ := hall none hnone
    cases hsame
  · intro hnone
    have hlog := map_some_reduceOption hnone
    refine ⟨?_, ?_⟩
    · rw [← hlog]
      exact inv.releasedOnce.map (Option.some_injective _)
    · intro c hc
      rw [← hlog] at hc
      obtain ⟨h, hh, rfl⟩ := List.mem_map.mp hc
      exact ⟨h, inv.known h hh, rfl⟩

/-- Once all objects are gone, everything has been closed once unless a handle is lost. -/
theorem Inv.releasedOnce_iff (inv : Inv s) (hnone : none ∉ closed s.calls) (hend : ∀ i, s.objects i = none) :
    s.ReleasedOnce ↔ s.Covered := by
  have hholder (i : ι) : s.holder i = none := holder_of_dead (hend i)
  rw [State.Covered, Held.covered_iff_perm inv hholder, State.ReleasedOnce]
  conv_lhs => rw [← map_some_reduceOption hnone]
  exact List.map_perm_map_iff (Option.some_injective _)

variable [DecidableEq ι]

/-- **Handles released once.** In every run, of any number of objects and against any
loader: handles are closed that were returned, at most once each, and all of them once all
objects are destroyed, exactly if no object with the null handle is destroyed and, once
all objects are destroyed, no constructor has missed a symbol of a library it had opened. -/
theorem balanced_iff (L : Loader) (names : List String) (ops : List (Op ι)) (s : State ι)
    (hrun : ops.foldlM (exec L names) start = some s) :
    s.Balanced ↔
      (∀ t op u, Takes start (exec L names) ops t op u → HoldsHandle t op) ∧
      ((∀ i, s.objects i = none) →
        ∀ t op u, Takes start (exec L names) ops t op u → SymbolsFound t L names op) := by
  have hkeep : ∀ (s t : State ι) op, Inv s → exec L names s op = some t → Inv t := fun _ _ _ h hstep =>
    (recorded h hstep).inv
  have inv : Inv s :=
    holds_along inv_start (fun s op t h hs => hkeep s t op hs h.enabled) ops [] (List.append_nil ops).symm hrun
  have hnull := record_iff Inv (fun s => none ∉ closed s.calls) HoldsHandle inv_start List.not_mem_nil hkeep
    (fun _ _ _ h hstep => (recorded h hstep).null) ops hrun
  have hcovered := record_iff Inv State.Covered (SymbolsFound · L names) inv_start covered_nil hkeep
    (fun _ _ _ h hstep => (recorded h hstep).covered) ops hrun
  rw [State.Balanced, inv.returnedOnly_iff, ← hnull, ← hcovered]
  apply and_congr_right
  intro hnone
  exact forall_congr' fun hend => inv.releasedOnce_iff hnone hend

end

/-- A handle above all of them. -/
def unused : List Nat → Nat
  | [] => 1
  | h :: rest => h + unused rest + 1

theorem lt_unused {handles : List Nat} {handle : Nat} (hmem : handle ∈ handles) : handle < unused handles := by
  induction handles with
  | nil => cases hmem
  | cons h rest ih =>
    rw [unused]
    rcases List.mem_cons.mp hmem with rfl | hmem
    · omega
    · have hlt := ih hmem
      omega

/-- It opens every library but `absent.so`, and finds every symbol but `missing`. -/
def sampleLoader : Loader where
  dlopen calls path := if path = "absent.so" then none else some (unused (returned calls))
  fresh calls path handle hopen hmem := by
    split at hopen <;> cases hopen
    exact Nat.lt_irrefl _ (lt_unused hmem)
  dlsym _ name := if name = "missing" then none else some 4096
  dlerror _ := none

/-- Two libraries are opened, and a third that is absent; the two change places before
they are closed. -/
def sampleRun : List (Op Nat) :=
  [.construct 0 "a.so", .construct 1 "absent.so", .construct 1 "b.so", .moveAssign 0 1, .destroy 0, .destroy 1]

theorem balanced_two :
    (∀ t op u, Takes start (exec sampleLoader ["run"]) sampleRun t op u → HoldsHandle t op) ∧
      ∀ t op u, Takes start (exec sampleLoader ["run"]) sampleRun t op u → SymbolsFound t sampleLoader ["run"] op := by
  have hempty (i : Nat) : update (update (update (update (update (update (fun _ => none) 0 (some ⟨some 1, [some 4096]⟩)) 1
      (some ⟨some 3, [some 4096]⟩)) 0 (some ⟨some 3, [some 4096]⟩)) 1 (some ⟨some 1, [some 4096]⟩)) 0 none) 1 none i =
      (none : Option Library) := by
    rcases i with _ | _ | i <;> rfl
  have hend (objects : Nat → Option Library) (calls : List Call) (hclosed : closed calls = [some 3, some 1])
      (hreturned : returned calls = [1, 3]) : State.ReleasedOnce ⟨objects, calls⟩ := by
    rw [State.ReleasedOnce, hclosed, hreturned]
    decide
  have hrun := (balanced_iff sampleLoader ["run"] sampleRun _ rfl).mp
    ⟨⟨by decide, by decide⟩, fun _ => hend _ _ rfl rfl⟩
  exact ⟨hrun.1, hrun.2 hempty⟩

/-- A library that is moved and closed through both objects, and one that lacks a symbol. -/
theorem not_balanced :
    (∃ s : State Nat, [.construct 0 "a.so", .moveConstruct 1 0, .destroy 0, .destroy 1].foldlM
        (exec sampleLoader ["run"]) start = some s ∧
      (∀ i, s.objects i = none) ∧ closed s.calls = [none, some 1] ∧ ¬ s.Balanced) ∧
    ∃ s : State Nat, [.construct 0 "a.so"].foldlM (exec sampleLoader ["run", "missing"]) start = some s ∧
      (∀ i, s.objects i = none) ∧ closed s.calls = [] ∧ ¬ s.Balanced := by
  refine ⟨⟨_, rfl, ?_, rfl, ?_⟩, _, rfl, ?_, rfl, ?_⟩
  · intro i
    rcases i with _ | _ | i <;> rfl
  · rintro ⟨⟨-, hall⟩, -⟩
    obtain ⟨h, -, hsame⟩ := hall none (by decide)
    cases hsame
  · intro i
    rfl
  · rintro ⟨-, hend⟩
    have hperm : List.Perm [] [some 1] := hend fun _ => rfl
    exact absurd hperm (by decide)

end Erl.Platform
