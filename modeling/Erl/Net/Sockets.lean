import Erl.Lib.Ownership
import Erl.Lib.System

/-!
# Sockets and their descriptors

`Socket`, `Client` and `Server` of `_impl/net/tcp.hpp` and `src/net/tcp.linux.cpp`, over a
kernel that hands out descriptors. What a call of the kernel returns is part of the
operation; a descriptor it returns is one that is not in use. The rest of the program has
descriptors as well, and may construct a socket on one of them.

The kernel numbers the openings, so that a descriptor in use for the second time is not
mistaken for the first.
-/

namespace Erl.Net
open TransitionSystem Ownership Function

/-- Which descriptors are open, each with the number of its opening; the openings that
sockets closed, and the descriptors they closed that were not open. -/
structure Kernel where
  table : Nat → Option Nat := fun _ => none
  opened : Nat := 0
  closed : List Nat := []
  strays : List Nat := []

/-- A descriptor is handed out. -/
def Kernel.allocate (k : Kernel) (descriptor : Nat) : Kernel :=
  { k with table := update k.table descriptor (some k.opened), opened := k.opened + 1 }

/-- `::close`. -/
def Kernel.close (k : Kernel) (descriptor : Nat) : Kernel :=
  match k.table descriptor with
  | some opening => { k with table := update k.table descriptor none, closed := k.closed ++ [opening] }
  | none => { k with strays := k.strays ++ [descriptor] }

/-- The handles of the sockets that are alive, and the openings that were given to one. -/
structure World (ι : Type) where
  kernel : Kernel
  sockets : ι → Option Int
  given : List Nat

inductive Op (ι : Type) where
  /-- The rest of the program opens a descriptor, or has it open from the start. -/
  | opens (descriptor : Nat)
  /-- `Client()`; for `Server()` there is a declaration only. -/
  | construct (i : ι)
  /-- `Client(handle)` and `Server(handle)`. -/
  | constructOn (i : ι) (handle : Int)
  /-- `Client(std::move(client))`, `Client(server)` and the like: a socket has no constructor
  for it, but is a `bool`, and that is a handle. -/
  | convert (i j : ι)
  /-- `descriptor` is what `::socket` returns, `connected` whether `::connect` succeeds. -/
  | connect (i : ι) (descriptor : Option Nat) (connected : Bool)
  /-- `bound` is whether `bind` succeeds. -/
  | listen (i : ι) (descriptor : Option Nat) (bound : Bool)
  /-- `descriptor` is what `::accept` returns, for the client `j`. -/
  | accept (i j : ι) (descriptor : Option Nat)
  | destroy (i : ι)

variable {ι : Type} [DecidableEq ι]

namespace World

/-- The opening that a handle stands for. -/
def opening (w : World ι) (handle : Int) : Option Nat :=
  if 0 ≤ handle then w.kernel.table handle.toNat else none

/-- `handle(handle)`, for the socket `i`. -/
def hold (w : World ι) (i : ι) (handle : Int) : World ι :=
  { w with sockets := update w.sockets i (some handle), given := (w.opening handle).elim w.given w.given.insert }

/-- `i` gets the handle that the kernel returns. -/
def assignHandle (w : World ι) (i : ι) : Option Nat → Option (World ι)
  | none => some (w.hold i (-1))
  | some descriptor =>
    if w.kernel.table descriptor = none then
      some ({ w with kernel := w.kernel.allocate descriptor }.hold i descriptor)
    else none

/-- `Socket::is_valid`. -/
def isValid (w : World ι) (i : ι) : Option Bool := (w.sockets i).map fun handle => decide (handle > 0)

/-- `Client::Client(handle)`, `Server::Server(handle)`. -/
def constructOn (w : World ι) (i : ι) (handle : Int) : Option (World ι) :=
  if w.sockets i = none then some (w.hold i handle) else none

/-- The socket is constructed on what `operator bool` of `j` returns. -/
def convert (w : World ι) (i j : ι) : Option (World ι) := do
  w.constructOn i (← w.isValid j).toInt

/-- What `connect` and `listen` have in common: the handle is overwritten by what `::socket`
returns, and by `-1` if that cannot be used. -/
def attach (w : World ι) (i : ι) (descriptor : Option Nat) (usable : Bool) : Option (World ι) :=
  if w.sockets i = none then none
  else do
    let w ← w.assignHandle i descriptor
    pure (if descriptor = none then w else if usable then w else w.hold i (-1))

/-- `Client::connect`. -/
def connect (w : World ι) (i : ι) (descriptor : Option Nat) (connected : Bool) : Option (World ι) :=
  w.attach i descriptor connected

/-- `Server::listen`; what `::listen` returns is not looked at. -/
def listen (w : World ι) (i : ι) (descriptor : Option Nat) (bound : Bool) : Option (World ι) :=
  w.attach i descriptor bound

/-- `Server::accept`, with the client it returns. -/
def accept (w : World ι) (i j : ι) (descriptor : Option Nat) : Option (World ι) :=
  if w.sockets i = none ∨ w.sockets j ≠ none then none else w.assignHandle j descriptor

/-- `~Socket`. -/
def destroy (w : World ι) (i : ι) : Option (World ι) :=
  match w.sockets i with
  | none => none
  | some handle =>
    let kernel := if handle > 0 then w.kernel.close handle.toNat else w.kernel
    some { w with kernel, sockets := update w.sockets i none }

/-- An operation of the program; none where it is not one. -/
def exec (w : World ι) : Op ι → Option (World ι)
  | .opens descriptor =>
    if w.kernel.table descriptor = none then some { w with kernel := w.kernel.allocate descriptor } else none
  | .construct i => w.constructOn i (-1)
  | .constructOn i handle => w.constructOn i handle
  | .convert i j => w.convert i j
  | .connect i descriptor connected => w.connect i descriptor connected
  | .listen i descriptor bound => w.listen i descriptor bound
  | .accept i j descriptor => w.accept i j descriptor
  | .destroy i => w.destroy i

def start : World ι := ⟨{}, fun _ => none, []⟩

/-- The opening that a socket's handle stands for. -/
def holder (w : World ι) (i : ι) : Option Nat := (w.sockets i).bind w.opening

/-- Every socket on a descriptor has one that is open, and that no other socket has. -/
def EachItsOwn (w : World ι) : Prop :=
  ∀ i handle, w.sockets i = some handle → 0 ≤ handle →
    w.kernel.table handle.toNat ≠ none ∧ ∀ j, w.sockets j = some handle → j = i

/-- Every open descriptor that was given to a socket is the handle of one. -/
def NoneLost (w : World ι) : Prop :=
  ∀ descriptor opening, w.kernel.table descriptor = some opening → opening ∈ w.given →
    ∃ i, w.sockets i = some (descriptor : Int)

/-- A handle that may be given to a socket: it is no descriptor, or an open one that no
socket has. -/
def Free (w : World ι) (handle : Int) : Prop :=
  0 ≤ handle → w.kernel.table handle.toNat ≠ none ∧ ∀ j, w.sockets j ≠ some handle

/-- The step constructs no socket on a handle that is another's, or closed. -/
def Adopts (w : World ι) : Op ι → Prop
  | .constructOn _ handle => w.Free handle
  | .convert _ j => ∀ valid ∈ w.isValid j, w.Free valid.toInt
  | _ => True

/-- The step loses no descriptor: a socket that connects or listens holds none, and if it
gets one it can use it; a socket that is destroyed does not hold descriptor 0. -/
def LosesNone (w : World ι) : Op ι → Prop
  | .connect i descriptor usable | .listen i descriptor usable =>
    (∀ handle, w.sockets i = some handle → handle < 0) ∧ (descriptor = none ∨ usable = true)
  | .destroy i => w.sockets i ≠ some 0
  | _ => True

/-- Every opening that was given to a socket and not closed is a socket's. -/
def Covered (w : World ι) : Prop := Ownership.Covered w.given w.kernel.closed w.holder

/-- Sockets hold descriptors that are open, and each its own; openings are told apart by
their numbers. -/
structure Inv (w : World ι) : Prop where
  held : Held w.given w.kernel.closed w.holder
  strays : w.kernel.strays = []
  holds : ∀ i handle, w.sockets i = some handle → 0 ≤ handle → w.kernel.table handle.toNat ≠ none
  openings : ∀ descriptor n, w.kernel.table descriptor = some n → n < w.kernel.opened ∧ n ∉ w.kernel.closed
  separate : ∀ d d' n, w.kernel.table d = some n → w.kernel.table d' = some n → d = d'
  numbered : ∀ n ∈ w.given, n < w.kernel.opened
  known : ∀ n ∈ w.given, n ∉ w.kernel.closed → ∃ descriptor, w.kernel.table descriptor = some n

variable {w w' : World ι} {i : ι}

omit [DecidableEq ι] in
@[simp] theorem opening_natCast (descriptor : Nat) : w.opening descriptor = w.kernel.table descriptor := by
  rw [opening, if_pos (Int.natCast_nonneg _), Int.toNat_natCast]

omit [DecidableEq ι] in
theorem opening_of_negative {handle : Int} (negative : handle < 0) : w.opening handle = none :=
  if_neg (by omega)

omit [DecidableEq ι] in
theorem holder_of_negative {handle : Option Int} (h : w.sockets i = handle) (negative : ∀ x ∈ handle, x < 0) :
    w.holder i = none := by
  rw [holder, h]
  cases handle with
  | none => rfl
  | some x => exact opening_of_negative (negative x rfl)

omit [DecidableEq ι] in
theorem holder_of_descriptor {descriptor : Nat} (h : w.sockets i = some (descriptor : Int)) :
    w.holder i = w.kernel.table descriptor := by
  rw [holder, h, Option.bind_some, opening_natCast]

omit [DecidableEq ι] in
/-- What a socket holds depends on its handle and on what is open under it. -/
theorem holder_congr (sockets : w'.sockets i = w.sockets i)
    (table : ∀ x, w.sockets i = some x → 0 ≤ x → w'.kernel.table x.toNat = w.kernel.table x.toNat) :
    w'.holder i = w.holder i := by
  unfold holder
  rw [sockets]
  cases here : w.sockets i with
  | none => rfl
  | some x =>
    rw [Option.bind_some, Option.bind_some, opening, opening]
    split
    · rename_i nonneg
      exact table x here nonneg
    · rfl

omit [DecidableEq ι] in
/-- A socket that holds an opening has its descriptor for a handle. -/
theorem Inv.socket_of_holder (inv : w.Inv) {n descriptor : Nat} (held : w.holder i = some n)
    (found : w.kernel.table descriptor = some n) : w.sockets i = some (descriptor : Int) := by
  rw [holder] at held
  obtain ⟨x, here, standsFor⟩ := Option.bind_eq_some_iff.mp held
  unfold opening at standsFor
  split at standsFor
  · rename_i nonneg
    have same := inv.separate x.toNat descriptor n standsFor found
    rw [here, ← same, Int.toNat_of_nonneg nonneg]
  · cases standsFor

omit [DecidableEq ι] in
/-- A socket that holds nothing open has no handle that could be. -/
theorem Inv.holder_eq_none_iff (inv : w.Inv) :
    w.holder i = none ↔ ∀ handle, w.sockets i = some handle → handle < 0 := by
  constructor
  · intro none handle here
    by_contra negative
    have nonneg : 0 ≤ handle := by omega
    rw [holder, here, Option.bind_some, opening, if_pos nonneg] at none
    exact inv.holds i handle here nonneg none
  · intro negative
    exact holder_of_negative rfl negative

omit [DecidableEq ι] in
theorem Inv.eachItsOwn (inv : w.Inv) : w.EachItsOwn := by
  intro i handle mine nonneg
  refine ⟨inv.holds i handle mine nonneg, fun j other => ?_⟩
  obtain ⟨descriptor, rfl⟩ := Int.eq_ofNat_of_zero_le nonneg
  obtain ⟨n, opening⟩ := Option.ne_none_iff_exists'.mp (inv.holds i descriptor mine nonneg)
  rw [Int.toNat_natCast] at opening
  exact inv.held.separate j i n (by rw [holder_of_descriptor other, opening])
    (by rw [holder_of_descriptor mine, opening])

omit [DecidableEq ι] in
/-- Nothing is lost exactly if every open descriptor given to a socket is a socket's. -/
theorem Inv.covered_iff (inv : w.Inv) : w.Covered ↔ w.NoneLost := by
  constructor
  · intro covered descriptor n found given
    rcases covered n given with closed | ⟨i, held⟩
    · exact absurd closed (inv.openings descriptor n found).2
    · exact ⟨i, inv.socket_of_holder held found⟩
  · intro held n given
    by_cases closed : n ∈ w.kernel.closed
    · exact .inl closed
    · obtain ⟨descriptor, found⟩ := inv.known n given closed
      obtain ⟨i, here⟩ := held descriptor n found given
      exact .inr ⟨i, by rw [holder_of_descriptor here, found]⟩

/-- The socket's handle is overwritten by one that is no descriptor, or the socket is gone. -/
theorem Inv.overwrite (inv : w.Inv) {v : Option Int} (negative : ∀ x ∈ v, x < 0) :
    Inv { w with sockets := update w.sockets i v } ∧
      (Covered { w with sockets := update w.sockets i v } ↔ w.Covered ∧ w.holder i = none) := by
  have holder : holder { w with sockets := update w.sockets i v } = update w.holder i none := by
    funext k
    by_cases hk : k = i
    · subst hk
      rw [update_self]
      exact holder_of_negative (update_self ..) negative
    · rw [update_of_ne hk]
      exact holder_congr (update_of_ne hk ..) fun _ _ _ => rfl
  refine ⟨⟨?_, inv.strays, ?_, inv.openings, inv.separate, inv.numbered, inv.known⟩, ?_⟩
  · rw [holder]
    exact inv.held.drop
  · intro k x here nonneg
    change update w.sockets i v k = some x at here
    by_cases hk : k = i
    · subst hk
      rw [update_self] at here
      have below := negative x here
      omega
    · rw [update_of_ne hk] at here
      exact inv.holds k x here nonneg
  · unfold Covered
    rw [holder]
    exact inv.held.covered_drop_iff

theorem hold_of_negative {handle : Int} (negative : handle < 0) :
    w.hold i handle = { w with sockets := update w.sockets i (some handle) } := by
  rw [hold, opening_of_negative negative, Option.elim_none]

omit [DecidableEq ι] in
/-- A descriptor is opened, for nobody so far. -/
theorem Inv.allocate (inv : w.Inv) {descriptor : Nat} (unused : w.kernel.table descriptor = none) :
    Inv { w with kernel := w.kernel.allocate descriptor } ∧
      World.holder { w with kernel := w.kernel.allocate descriptor } = w.holder := by
  have table : ∀ d, d ≠ descriptor → (w.kernel.allocate descriptor).table d = w.kernel.table d :=
    fun d ne => update_of_ne ne ..
  have new : (w.kernel.allocate descriptor).table descriptor = some w.kernel.opened := update_self ..
  have holder : World.holder { w with kernel := w.kernel.allocate descriptor } = w.holder := by
    funext k
    exact holder_congr rfl fun x here nonneg => table _ fun same => inv.holds k x here nonneg (same ▸ unused)
  refine ⟨⟨?_, inv.strays, ?_, ?_, ?_, ?_, ?_⟩, holder⟩
  · rw [holder]
    exact inv.held
  · intro k x here nonneg
    have ne : x.toNat ≠ descriptor := fun same => inv.holds k x here nonneg (same ▸ unused)
    rw [table _ ne]
    exact inv.holds k x here nonneg
  · intro d n found
    by_cases same : d = descriptor
    · rw [same, new] at found
      cases found
      refine ⟨Nat.lt_succ_self _, fun closed => ?_⟩
      exact absurd (inv.numbered _ (inv.held.known _ closed)) (Nat.lt_irrefl _)
    · rw [table d same] at found
      exact ⟨Nat.lt_succ_of_lt (inv.openings d n found).1, (inv.openings d n found).2⟩
  · intro d d' n found found'
    by_cases first : d = descriptor <;> by_cases second : d' = descriptor
    · rw [first, second]
    · rw [first, new] at found
      rw [table d' second] at found'
      cases found
      exact absurd (inv.openings d' _ found').1 (Nat.lt_irrefl _)
    · rw [second, new] at found'
      rw [table d first] at found
      cases found'
      exact absurd (inv.openings d _ found).1 (Nat.lt_irrefl _)
    · rw [table d first] at found
      rw [table d' second] at found'
      exact inv.separate d d' n found found'
  · intro n given
    exact Nat.lt_succ_of_lt (inv.numbered n given)
  · intro n given still_open
    obtain ⟨d, found⟩ := inv.known n given still_open
    have ne : d ≠ descriptor := by
      rintro rfl
      cases unused.symm.trans found
    exact ⟨d, by rw [table d ne, found]⟩

/-- The socket, which holds nothing, is given a handle that may be given to it. What was
lost is still lost, unless that is what the socket is given. -/
theorem Inv.hold (inv : w.Inv) (empty : w.holder i = none) {handle : Int} (free : w.Free handle) :
    (w.hold i handle).Inv ∧ (w.Covered → (w.hold i handle).Covered) ∧
      ((∀ n ∈ w.opening handle, n ∉ w.given) → (w.hold i handle).Covered → w.Covered) := by
  by_cases nonneg : 0 ≤ handle
  · obtain ⟨descriptor, rfl⟩ := Int.eq_ofNat_of_zero_le nonneg
    obtain ⟨open_, nobody⟩ := free nonneg
    rw [Int.toNat_natCast] at open_
    obtain ⟨n, found⟩ := Option.ne_none_iff_exists'.mp open_
    have given : (w.hold i descriptor).given = w.given.insert n := by
      rw [World.hold, opening_natCast, found, Option.elim_some]
    have holder : (w.hold i descriptor).holder = update w.holder i (some n) := by
      funext k
      by_cases hk : k = i
      · subst hk
        rw [update_self, holder_of_descriptor (update_self ..)]
        exact found
      · rw [update_of_ne hk]
        exact holder_congr (update_of_ne hk ..) fun _ _ _ => rfl
    have live := (inv.openings descriptor n found).2
    have held : Held (w.given.insert n) w.kernel.closed (update w.holder i (some n)) :=
      inv.held.adopt live fun k here => nobody k (inv.socket_of_holder here found)
    have covered_iff : (w.hold i descriptor).Covered ↔
        ∀ s ∈ w.given, s = n ∨ s ∈ w.kernel.closed ∨ ∃ k, w.holder k = some s := by
      unfold Covered
      rw [given, holder]
      exact covered_adopt_iff empty
    refine ⟨⟨?_, inv.strays, ?_, inv.openings, inv.separate, ?_, ?_⟩, ?_, ?_⟩
    · rw [given, holder]
      exact held
    · intro k x here nonneg
      change update w.sockets i (some (descriptor : Int)) k = some x at here
      by_cases hk : k = i
      · subst hk
        rw [update_self] at here
        cases here
        exact open_
      · rw [update_of_ne hk] at here
        exact inv.holds k x here nonneg
    · intro m hm
      rw [given] at hm
      rcases List.mem_insert_iff.mp hm with rfl | hm
      · exact (inv.openings descriptor m found).1
      · exact inv.numbered m hm
    · intro m hm still_open
      rw [given] at hm
      rcases List.mem_insert_iff.mp hm with rfl | hm
      · exact ⟨descriptor, found⟩
      · exact inv.known m hm still_open
    · intro covered
      exact covered_iff.mpr fun s hs => .inr (covered s hs)
    · intro fresh covered s hs
      refine (covered_iff.mp covered s hs).resolve_left ?_
      rintro rfl
      exact fresh s (by rw [opening_natCast]; exact found) hs
  · have negative : handle < 0 := by omega
    obtain ⟨inv', covered⟩ := inv.overwrite (i := i) (v := some handle) (by simpa using negative)
    rw [hold_of_negative negative]
    exact ⟨inv', fun h => covered.mpr ⟨h, empty⟩, fun _ h => (covered.mp h).1⟩

theorem close_of_open {k : Kernel} {descriptor n : Nat} (found : k.table descriptor = some n) :
    k.close descriptor = { k with table := update k.table descriptor none, closed := k.closed ++ [n] } := by
  unfold Kernel.close
  rw [found]

/-- The socket closes its descriptor and is gone. -/
theorem Inv.close (inv : w.Inv) {descriptor : Nat} (here : w.sockets i = some (descriptor : Int)) :
    Inv { w with kernel := w.kernel.close descriptor, sockets := update w.sockets i none } ∧
      (Covered { w with kernel := w.kernel.close descriptor, sockets := update w.sockets i none } ↔ w.Covered) := by
  have open_ := inv.holds i descriptor here (Int.natCast_nonneg _)
  rw [Int.toNat_natCast] at open_
  obtain ⟨n, found⟩ := Option.ne_none_iff_exists'.mp open_
  have held : w.holder i = some n := by rw [holder_of_descriptor here, found]
  rw [close_of_open found]
  have other : ∀ k x, k ≠ i → w.sockets k = some x → 0 ≤ x → x.toNat ≠ descriptor := by
    rintro k x hk mine nonneg rfl
    rw [Int.toNat_of_nonneg nonneg] at here
    exact hk ((inv.eachItsOwn i x here nonneg).2 k mine)
  have kept : ∀ d m, update w.kernel.table descriptor none d = some m → d ≠ descriptor ∧ w.kernel.table d = some m := by
    intro d m here
    by_cases same : d = descriptor
    · rw [same, update_self] at here
      cases here
    · rw [update_of_ne same] at here
      exact ⟨same, here⟩
  generalize hw' : World.mk _ _ _ = w'
  have holder : w'.holder = update w.holder i none := by
    subst hw'
    funext k
    by_cases hk : k = i
    · subst hk
      rw [update_self]
      exact holder_of_negative (update_self ..) (by simp)
    · rw [update_of_ne hk]
      exact holder_congr (update_of_ne hk ..) fun x mine nonneg => update_of_ne (other k x hk mine nonneg) ..
  have given : w'.given = w.given := by rw [← hw']
  have closed : w'.kernel.closed = w.kernel.closed ++ [n] := by rw [← hw']
  constructor
  · refine ⟨?_, ?_, ?_, ?_, ?_, ?_, ?_⟩
    · rw [holder, given, closed]
      exact inv.held.release held
    · rw [← hw']
      exact inv.strays
    · intro k x mine nonneg
      rw [← hw'] at mine ⊢
      change update w.sockets i none k = some x at mine
      by_cases hk : k = i
      · rw [hk, update_self] at mine
        cases mine
      · rw [update_of_ne hk] at mine
        show update w.kernel.table descriptor none x.toNat ≠ none
        rw [update_of_ne (other k x hk mine nonneg)]
        exact inv.holds k x mine nonneg
    · intro d m here
      rw [closed]
      rw [← hw'] at here ⊢
      obtain ⟨ne, here⟩ := kept d m here
      refine ⟨(inv.openings d m here).1, fun gone => ?_⟩
      rcases List.mem_append.mp gone with old | new
      · exact (inv.openings d m here).2 old
      · cases List.mem_singleton.mp new
        exact ne (inv.separate d descriptor n here found)
    · intro d d' m here here'
      rw [← hw'] at here here'
      exact inv.separate d d' m (kept d m here).2 (kept d' m here').2
    · rw [← hw']
      exact inv.numbered
    · intro m hm still_open
      rw [given] at hm
      rw [closed] at still_open
      obtain ⟨d, where_⟩ := inv.known m hm fun gone => still_open (List.mem_append_left _ gone)
      have ne : d ≠ descriptor := by
        rintro rfl
        cases found.symm.trans where_
        exact still_open (List.mem_append_right _ (List.mem_singleton_self _))
      refine ⟨d, ?_⟩
      rw [← hw']
      show update w.kernel.table descriptor none d = some m
      rw [update_of_ne ne, where_]
  · unfold Covered
    rw [holder, given, closed]
    exact covered_release_iff held

/-- A step keeps the invariant, and if nothing was lost so far, nothing is by a step that
meets the condition. -/
def Steps (w w' : World ι) (p : Prop) : Prop := w'.Inv ∧ (w.Covered → (w'.Covered ↔ p))

/-- A socket that holds nothing gets what the kernel returns. -/
theorem Inv.assignHandle (inv : w.Inv) (empty : w.holder i = none) {descriptor : Option Nat}
    (h : w.assignHandle i descriptor = some w') :
    w'.Inv ∧ (w'.Covered ↔ w.Covered) ∧ (w'.holder i = none ↔ descriptor = none) := by
  cases descriptor with
  | none =>
    cases h
    have free : w.Free (-1) := fun nonneg => absurd nonneg (by decide)
    obtain ⟨inv', covered, lost⟩ := inv.hold empty free
    refine ⟨inv', ⟨lost ?_, covered⟩, iff_of_true (holder_of_negative (update_self ..) (by simp)) rfl⟩
    intro n found
    rw [opening_of_negative (by decide)] at found
    cases found
  | some descriptor =>
    by_cases unused : w.kernel.table descriptor = none
    · simp only [World.assignHandle, if_pos unused] at h
      cases h
      obtain ⟨inv₁, same⟩ := inv.allocate unused
      have new : (w.kernel.allocate descriptor).table descriptor = some w.kernel.opened := update_self ..
      have free : Free { w with kernel := w.kernel.allocate descriptor } descriptor := by
        intro _
        rw [Int.toNat_natCast]
        refine ⟨by rw [new]; exact Option.some_ne_none _, fun j mine => ?_⟩
        have open_ := inv.holds j descriptor mine (Int.natCast_nonneg _)
        rw [Int.toNat_natCast] at open_
        exact open_ unused
      obtain ⟨inv₂, covered, lost⟩ := inv₁.hold (i := i) (by rw [same, empty]) free
      have covered_same : Covered { w with kernel := w.kernel.allocate descriptor } ↔ w.Covered := by
        unfold Covered
        rw [same]
        rfl
      refine ⟨inv₂, ?_, iff_of_false ?_ (Option.some_ne_none descriptor)⟩
      · rw [← covered_same]
        refine ⟨lost fun n found given => ?_, covered⟩
        rw [opening_natCast] at found
        cases new.symm.trans found
        exact Nat.lt_irrefl _ (inv.numbered _ given)
      · rw [holder_of_descriptor (update_self ..)]
        exact new ▸ Option.some_ne_none _
    · simp [World.assignHandle, unused] at h

/-- What a socket had for a handle does not matter when it gets another. -/
theorem assignHandle_overwrite (w : World ι) (i : ι) (v : Option Int) (descriptor : Option Nat) :
    assignHandle { w with sockets := update w.sockets i v } i descriptor = w.assignHandle i descriptor := by
  cases descriptor with
  | none => simp only [assignHandle, hold, update_idem]; rfl
  | some descriptor => simp only [assignHandle, hold, update_idem]; rfl

theorem Inv.constructOn (inv : w.Inv) {handle : Int} (free : w.Free handle)
    (h : w.constructOn i handle = some w') : Steps w w' True := by
  unfold World.constructOn at h
  split at h
  · rename_i dead
    cases h
    obtain ⟨inv', covered, -⟩ := inv.hold (holder_of_negative dead (by simp)) free
    exact ⟨inv', fun h => iff_of_true (covered h) trivial⟩
  · cases h

theorem Inv.attach (inv : w.Inv) {descriptor : Option Nat} {usable : Bool}
    (h : w.attach i descriptor usable = some w') :
    Steps w w' ((∀ handle, w.sockets i = some handle → handle < 0) ∧ (descriptor = none ∨ usable = true)) := by
  unfold World.attach at h
  split at h
  · cases h
  · obtain ⟨u, assigned, h⟩ := Option.bind_eq_some_iff.mp h
    -- the old handle is lost first, then the socket gets the new one
    obtain ⟨inv₁, covered₁⟩ := inv.overwrite (i := i) (v := some (-1)) (by simp)
    rw [← assignHandle_overwrite w i (some (-1))] at assigned
    obtain ⟨inv₂, covered₂, holds⟩ := inv₁.assignHandle (holder_of_negative (update_self ..) (by simp)) assigned
    rw [← inv.holder_eq_none_iff]
    by_cases kept : descriptor = none ∨ usable = true
    · have same : w' = u := by
        rcases kept with rfl | rfl
        · exact (Option.some.inj h).symm
        · cases h
          split <;> rfl
      subst same
      exact ⟨inv₂, fun covered => (covered₂.trans covered₁).trans (by simp [covered, kept])⟩
    · rw [not_or, Bool.not_eq_true] at kept
      obtain ⟨given, rfl⟩ := kept
      rw [if_neg given, if_neg Bool.false_ne_true] at h
      cases h
      rw [hold_of_negative (by decide)]
      obtain ⟨inv₃, covered₃⟩ := inv₂.overwrite (i := i) (v := some (-1)) (by simp)
      refine ⟨inv₃, fun _ => covered₃.trans (iff_of_false ?_ ?_)⟩
      · rintro ⟨-, nothing⟩
        exact given (holds.mp nothing)
      · rintro ⟨-, kept⟩
        exact kept.elim given Bool.false_ne_true

theorem Inv.destroy (inv : w.Inv) (h : w.destroy i = some w') : Steps w w' (w.sockets i ≠ some 0) := by
  unfold World.destroy at h
  cases here : w.sockets i with
  | none => simp [here] at h
  | some handle =>
    simp only [here, Option.some.injEq] at h
    subst h
    by_cases valid : handle > 0
    · obtain ⟨descriptor, rfl⟩ := Int.eq_ofNat_of_zero_le (Int.le_of_lt valid)
      obtain ⟨inv', covered⟩ := inv.close here
      rw [if_pos valid, Int.toNat_natCast]
      refine ⟨inv', fun h => iff_of_true (covered.mpr h) ?_⟩
      intro zero
      rw [Option.some.inj zero] at valid
      exact Int.lt_irrefl 0 valid
    · rw [if_neg valid]
      obtain ⟨inv', covered⟩ := inv.overwrite (i := i) (v := none) (by simp)
      refine ⟨inv', fun h => covered.trans ?_⟩
      rw [inv.holder_eq_none_iff, and_iff_right h]
      constructor
      · intro negative zero
        exact absurd (negative 0 (here.trans zero)) (Int.lt_irrefl 0)
      · intro nonzero x same
        cases here.symm.trans same
        have ne : handle ≠ 0 := fun zero => nonzero (by rw [zero])
        omega

theorem Inv.exec (inv : w.Inv) {op : Op ι} (adopts : w.Adopts op) (h : w.exec op = some w') :
    Steps w w' (w.LosesNone op) := by
  cases op with
  | opens descriptor =>
    simp only [World.exec] at h
    split at h
    · rename_i unused
      cases h
      obtain ⟨inv', same⟩ := inv.allocate unused
      refine ⟨inv', fun covered => iff_of_true ?_ trivial⟩
      unfold Covered
      rw [same]
      exact covered
    · cases h
  | construct i => exact inv.constructOn (fun nonneg => absurd nonneg (by decide)) h
  | constructOn i handle => exact inv.constructOn adopts h
  | convert i j =>
    obtain ⟨valid, known, h⟩ := Option.bind_eq_some_iff.mp h
    exact inv.constructOn (adopts valid known) h
  | connect i descriptor connected => exact inv.attach h
  | listen i descriptor bound => exact inv.attach h
  | accept i j descriptor =>
    simp only [World.exec, World.accept] at h
    split at h
    · cases h
    · rename_i alive
      have dead : w.holder j = none := holder_of_negative (of_not_not fun ne => alive (.inr ne)) (by simp)
      obtain ⟨inv', covered, -⟩ := inv.assignHandle dead h
      exact ⟨inv', fun h => iff_of_true (covered.mpr h) trivial⟩
  | destroy i => exact inv.destroy h

/-- A socket that has its own descriptor once it is constructed was given one that nobody
had. -/
theorem free_of_constructOn {handle : Int} (h : w.constructOn i handle = some w') (own : w'.EachItsOwn) :
    w.Free handle := by
  unfold World.constructOn at h
  split at h
  · rename_i dead
    cases h
    intro nonneg
    obtain ⟨open_, mine⟩ := own i handle (update_self ..) nonneg
    refine ⟨open_, fun j other => ?_⟩
    have ne : j ≠ i := by
      rintro rfl
      cases dead.symm.trans other
    exact ne (mine j ((update_of_ne ne ..).trans other))
  · cases h

theorem adopts_of_eachItsOwn {op : Op ι} (h : w.exec op = some w') (own : w'.EachItsOwn) : w.Adopts op := by
  cases op with
  | constructOn i handle => exact free_of_constructOn h own
  | convert i j =>
    intro valid known
    obtain ⟨valid', known', h⟩ := Option.bind_eq_some_iff.mp h
    cases known.symm.trans known'
    exact free_of_constructOn h own
  | _ => trivial

omit [DecidableEq ι] in
theorem inv_start : (start : World ι).Inv where
  held := held_nil
  strays := rfl
  holds i handle here := by cases here
  openings d n here := by cases here
  separate d d' n here := by cases here
  numbered n given := absurd given List.not_mem_nil
  known n given := absurd given List.not_mem_nil

end World

/-- **Descriptors.** In every run, with any number of sockets, whatever the kernel returns
and whatever handles sockets are constructed on: each socket has a descriptor that is open
and its own at all times exactly if none was constructed on a handle that another had, or
that was not open; nothing is lost besides at all times exactly if in addition no step has
overwritten a handle that was held, could not connect or bind the descriptor it got, or
destroyed the socket that held descriptor 0. And if the first holds, what sockets close is
open, was given to one, and is closed once. -/
theorem noneLost_iff (ops : List (Op ι)) :
    ((∀ t op u, Takes World.start World.exec ops t op u → u.EachItsOwn) ↔
      ∀ t op u, Takes World.start World.exec ops t op u → t.Adopts op) ∧
    ((∀ t op u, Takes World.start World.exec ops t op u → u.EachItsOwn ∧ u.NoneLost) ↔
      ∀ t op u, Takes World.start World.exec ops t op u → t.Adopts op ∧ t.LosesNone op) ∧
    ((∀ t op u, Takes World.start World.exec ops t op u → t.Adopts op) →
      ∀ w, ops.foldlM World.exec World.start = some w →
        w.kernel.strays = [] ∧ w.kernel.closed.Nodup ∧ ∀ n ∈ w.kernel.closed, n ∈ w.given) := by
  refine ⟨?_, ?_, fun adopts w run => ?_⟩
  · refine forall_takes_iff World.Inv (fun _ _ u => u.EachItsOwn) World.Adopts World.inv_start ?_ ops
    intro t op u inv step
    refine ⟨fun adopts => ?_, World.adopts_of_eachItsOwn step⟩
    have after := (inv.exec adopts step).1
    exact ⟨after.eachItsOwn, after⟩
  · refine forall_takes_iff (fun w => World.Inv w ∧ World.Covered w) (fun _ _ u => u.EachItsOwn ∧ u.NoneLost)
      (fun t op => t.Adopts op ∧ t.LosesNone op) ⟨World.inv_start, covered_nil⟩ ?_ ops
    rintro t op u ⟨inv, covered⟩ step
    constructor
    · rintro ⟨adopts, keeps⟩
      obtain ⟨after, lost⟩ := inv.exec adopts step
      have all := (lost covered).mpr keeps
      exact ⟨⟨after.eachItsOwn, after.covered_iff.mp all⟩, after, all⟩
    · rintro ⟨own, held⟩
      have adopts := World.adopts_of_eachItsOwn step own
      obtain ⟨after, lost⟩ := inv.exec adopts step
      exact ⟨adopts, (lost covered).mp (after.covered_iff.mpr held)⟩
  · have inv : w.Inv :=
      holds_along World.inv_start (fun _ _ _ h hs => (World.Inv.exec hs (adopts _ _ _ h) h.enabled).1) ops []
        (List.append_nil ops).symm run
    exact ⟨inv.strays, inv.held.releasedOnce, inv.held.known⟩

/-- A server accepts a client, another client is constructed on a descriptor of the
program's, and all are destroyed. -/
def acceptRun : List (Op Nat) :=
  [.opens 5, .constructOn 0 (-1), .listen 0 (some 3) true, .accept 0 1 (some 4), .constructOn 2 5, .destroy 1,
    .destroy 2, .destroy 0]

/-- Its steps lose nothing, and what it closes was given to a socket. Two clients on one
handle close it twice, and a client constructed on a connected one closes descriptor 1. -/
theorem noneLost_accept :
    (∀ t op u, Takes World.start World.exec acceptRun t op u → u.EachItsOwn ∧ u.NoneLost) ∧
    (∃ w : World Nat, acceptRun.foldlM World.exec World.start = some w ∧ w.kernel.closed = [2, 0, 1] ∧
      w.kernel.strays = [] ∧ ∀ n ∈ w.kernel.closed, n ∈ w.given) ∧
    (∃ w : World Nat, [.opens 3, .constructOn 0 3, .constructOn 1 3, .destroy 0, .destroy 1].foldlM World.exec
      World.start = some w ∧ w.kernel.strays = [3]) ∧
    ∃ w : World Nat, [.construct 0, .connect 0 (some 3) true, .convert 1 0, .destroy 1].foldlM World.exec
      World.start = some w ∧ w.kernel.strays = [1] := by
  have steps : ∀ t op u, Takes World.start World.exec acceptRun t op u → t.Adopts op ∧ t.LosesNone op := by
    intro t op u taken
    simp only [acceptRun, takes_cons_iff, not_takes_nil, and_false, exists_false, or_false] at taken
    rcases taken with ⟨rfl, rfl, -⟩ | ⟨w₁, h₁, ⟨rfl, rfl, -⟩ | ⟨w₂, h₂, ⟨rfl, rfl, -⟩ | ⟨w₃, h₃, ⟨rfl, rfl, -⟩ |
      ⟨w₄, h₄, ⟨rfl, rfl, -⟩ | ⟨w₅, h₅, ⟨rfl, rfl, -⟩ | ⟨w₆, h₆, ⟨rfl, rfl, -⟩ | ⟨w₇, h₇, ⟨rfl, rfl, -⟩⟩⟩⟩⟩⟩⟩⟩
    · exact ⟨trivial, trivial⟩
    · exact ⟨fun nonneg => absurd nonneg (by decide), trivial⟩
    · cases h₁
      cases h₂
      exact ⟨trivial, fun handle here => by cases here; decide, .inr rfl⟩
    · exact ⟨trivial, trivial⟩
    · cases h₁
      cases h₂
      cases h₃
      cases h₄
      refine ⟨fun _ => ⟨Option.some_ne_none 0, fun j here => ?_⟩, trivial⟩
      rcases j with _ | _ | j <;> cases here
    all_goals
      cases h₁
      cases h₂
      cases h₃
      cases h₄
      cases h₅
    · exact ⟨trivial, nofun⟩
    · cases h₆
      exact ⟨trivial, nofun⟩
    · cases h₆
      cases h₇
      exact ⟨trivial, nofun⟩
  obtain ⟨strays, -, given⟩ := (noneLost_iff acceptRun).2.2 (fun t op u h => (steps t op u h).1) _ rfl
  exact ⟨(noneLost_iff acceptRun).2.1.mpr steps, ⟨_, rfl, rfl, strays, given⟩, ⟨_, rfl, rfl⟩, _, rfl, rfl⟩

end Erl.Net
