import Mathlib.Data.List.Basic

/-!
# Which members get which opcode

`Policy<Ps...>` walks the named members of a service twice, once for the `Proxy` class and
once for the dispatcher, and counts an index up inside a short-circuiting fold over the
policies (`_impl/rpc/proxy.hpp`). The shipped policies are `DefaultPolicy`, `InProcess`
and `Annotated`. Types are a parameter, `T`.

A builder is asked only by the first policy that takes the member for remote, and then it
builds: so both walks count the same members.
-/

namespace Erl.Rpc.Policies

/-- The function an `annotations::Handler` names. -/
structure HandlerFnc (T : Type) where
  name : String
  return_type : T
deriving DecidableEq, Repr

/-- What reflection says about a member that is a function, a function template (`base` is
its instance without template arguments, if there is one) or something else. -/
inductive MemberKind (T : Type) where
  | function (return_type : T) (callback : Bool) (handler : Option (HandlerFnc T))
  | functionTemplate (base : Option (T × Option (HandlerFnc T)))
  | other
deriving DecidableEq, Repr

/-- A named member of a class. -/
structure MemberInfo (T : Type) where
  name : String
  is_public : Bool
  kind : MemberKind T
deriving DecidableEq, Repr

/-- The types of proxy objects; the index is their opcode. -/
inductive ProxyType (T : Type) where
  | functionProxy (index : Nat) (result : T)
  | customProxy (index : Nat) (result : T) (fnc : MemberInfo T)
  | functionTemplateProxy (fnc : MemberInfo T) (index : Nat)
deriving DecidableEq, Repr

/-- `data_member_spec(type, {.name = ...})`. -/
structure ProxyObject (T : Type) where
  name : String
  type : ProxyType T
deriving DecidableEq, Repr

/-- A non-static data member of the `Proxy` class. -/
inductive DataMember (T : Type) where
  | client
  | proxy (object : ProxyObject T)
deriving DecidableEq, Repr

/-- A case of the dispatcher. -/
inductive DispatchMember (T : Type) where
  | functionDispatcher (fnc : MemberInfo T) (index : Nat)
  | customDispatcher (handler : HandlerFnc T) (index : Nat)
  | functionTemplateDispatcher (fnc : MemberInfo T) (index : Nat)
deriving DecidableEq, Repr

variable {T : Type}

def ProxyObject.index (p : ProxyObject T) : Nat :=
  match p.type with
  | .functionProxy index _ => index
  | .customProxy index _ _ => index
  | .functionTemplateProxy _ index => index

def DispatchMember.index : DispatchMember T → Nat
  | .functionDispatcher _ index => index
  | .customDispatcher _ index => index
  | .functionTemplateDispatcher _ index => index

/-- The handler of the member's annotation, or of its instance's. -/
def MemberInfo.handler (m : MemberInfo T) : Option (HandlerFnc T) :=
  match m.kind with
  | .function _ _ handler => handler
  | .functionTemplate (some (_, handler)) => handler
  | _ => none

/-- The case calls the member `m`, or its handler. -/
def DispatchMember.Carries (m : MemberInfo T) : DispatchMember T → Prop
  | .functionDispatcher fnc _ => fnc = m
  | .customDispatcher handler _ => m.handler = some handler
  | .functionTemplateDispatcher fnc _ => fnc = m

/-- What a builder returns: a reflection, or it does not compile. -/
inductive Built (B : Type) where
  | null
  | made (b : B)
  | ill_formed
deriving DecidableEq, Repr

inductive ShippedPolicy where
  | default
  | inProcess
  | annotated
deriving DecidableEq, Repr

/-- `is_remote`. -/
def ShippedPolicy.isRemote (P : ShippedPolicy) (member : MemberInfo T) : Bool :=
  match P with
  | .default =>
    match member.kind with
    | .function .. => member.is_public
    | _ => false
  | .inProcess =>
    if !member.is_public then false
    else match member.kind with
      | .functionTemplate base => base.isSome
      | _ => false
  | .annotated =>
    if !member.is_public then false
    else match member.kind with
      | .function _ callback handler => callback || handler.isSome
      | .functionTemplate (some (_, handler)) => handler.isSome
      | _ => false

/-- `Annotated::return_of`, of a function with this return type and handler. -/
def returnOf (return_type : T) (handler : Option (HandlerFnc T)) : T :=
  match handler with
  | some handler => handler.return_type
  | none => return_type

/-- `make_proxy_member`. -/
def ShippedPolicy.makeProxyMember (P : ShippedPolicy) (index : Nat) (fnc : MemberInfo T) : Built (ProxyObject T) :=
  match P with
  | .default =>
    match fnc.kind with
    | .function return_type _ _ => .made ⟨fnc.name, .functionProxy index return_type⟩
    | _ => .ill_formed
  | .inProcess => .made ⟨fnc.name, .functionTemplateProxy fnc index⟩
  | .annotated =>
    match fnc.kind with
    | .function return_type _ handler =>
      if handler.isSome then .made ⟨fnc.name, .customProxy index (returnOf return_type handler) fnc⟩
      else .made ⟨fnc.name, .functionProxy index (returnOf return_type handler)⟩
    | .functionTemplate (some (return_type, handler)) =>
      if !handler.isSome then .null
      else .made ⟨fnc.name, .customProxy index (returnOf return_type handler) fnc⟩
    | _ => .ill_formed

/-- `make_dispatch_member`. -/
def ShippedPolicy.makeDispatchMember (P : ShippedPolicy) (index : Nat) (fnc : MemberInfo T) :
    Built (DispatchMember T) :=
  match P with
  | .default => .made (.functionDispatcher fnc index)
  | .inProcess => .made (.functionTemplateDispatcher fnc index)
  | .annotated =>
    match fnc.kind with
    | .function _ _ (some handler) => .made (.customDispatcher handler index)
    | .function _ _ none => .made (.functionDispatcher fnc index)
    | .functionTemplate (some (_, some handler)) => .made (.customDispatcher handler index)
    -- `std::unreachable()`, in a constant expression
    | _ => .ill_formed

section
variable {B : Type} (build : ShippedPolicy → Nat → MemberInfo T → Built B)

/-- `((Ps::is_remote(m) && ((member = build(index++, m)) != info{})) || ...)`: the member
built, if any, and the index behind; `none` does not compile. -/
def buildMember (member : MemberInfo T) : List ShippedPolicy → Nat → Option (Option B × Nat)
  | [], index => some (none, index)
  | P :: Ps, index =>
    if P.isRemote member then
      match build P index member with
      | .made b => some (some b, index + 1)
      | .null => buildMember member Ps (index + 1)
      | .ill_formed => none
    else buildMember member Ps index

/-- The loop over the named members. -/
def buildMembers (Ps : List ShippedPolicy) : List (MemberInfo T) → Nat → Option (List B)
  | [], _ => some []
  | member :: rest, index => do
    let (built, index) ← buildMember build member Ps index
    let args ← buildMembers Ps rest index
    pure (built.toList ++ args)

end

/-- `Policy::make_proxy`: the data members of the `Proxy` class. -/
def makeProxy (Ps : List ShippedPolicy) (members : List (MemberInfo T)) : Option (List (DataMember T)) :=
  (buildMembers ShippedPolicy.makeProxyMember Ps members 0).map fun args => .client :: args.map .proxy

/-- `Policy::make_dispatcher`: the cases of the dispatcher. -/
def makeDispatcher (Ps : List ShippedPolicy) (members : List (MemberInfo T)) : Option (List (DispatchMember T)) :=
  buildMembers ShippedPolicy.makeDispatchMember Ps members 0

/-- `meta::get_nth_member`. -/
def getNthMember (reflection : List (DataMember T)) (n : Nat) : Option (DataMember T) := reflection[n]?

/-! ## What the folds select -/

/-- The members some policy takes for remote, each with the first such policy. -/
def selected (Ps : List ShippedPolicy) (members : List (MemberInfo T)) : List (ShippedPolicy × MemberInfo T) :=
  members.filterMap fun m => (Ps.find? (·.isRemote m)).map (·, m)

theorem isRemote_of_find? {Ps : List ShippedPolicy} {P : ShippedPolicy} {m : MemberInfo T}
    (h : Ps.find? (·.isRemote m) = some P) : P.isRemote m = true :=
  List.find?_some (p := fun Q : ShippedPolicy => Q.isRemote m) h

theorem selected_members (Ps : List ShippedPolicy) (members : List (MemberInfo T)) :
    (selected Ps members).map Prod.snd = members.filter fun m => Ps.any (·.isRemote m) := by
  induction members with
  | nil => rfl
  | cons m members ih =>
    unfold selected at ih ⊢
    cases hfind : Ps.find? (·.isRemote m) with
    | none =>
      have hnone : Ps.any (·.isRemote m) = false := by simpa using hfind
      rw [List.filterMap_cons_none (by rw [hfind]; rfl), List.filter_cons_of_neg (by simp [hnone]), ih]
    | some P =>
      have hsome : Ps.any (·.isRemote m) = true :=
        List.any_eq_true.mpr ⟨P, List.mem_of_find?_eq_some hfind, isRemote_of_find? hfind⟩
      rw [List.filterMap_cons_some (by rw [hfind]; rfl), List.filter_cons_of_pos (p := fun m => Ps.any (·.isRemote m)) hsome,
        List.map_cons, ih]

theorem isRemote_of_mem_selected {Ps : List ShippedPolicy} {members : List (MemberInfo T)} {P : ShippedPolicy}
    {m : MemberInfo T} (h : (P, m) ∈ selected Ps members) : P.isRemote m = true := by
  obtain ⟨m', -, hm'⟩ := List.mem_filterMap.mp h
  rw [Option.map_eq_some_iff] at hm'
  obtain ⟨P', hfind, heq⟩ := hm'
  cases heq
  exact isRemote_of_find? hfind

/-- `bs` are the selected members, built with the indices from `index` on. -/
def Numbered {B : Type} (build : ShippedPolicy → Nat → MemberInfo T → Built B) :
    Nat → List (ShippedPolicy × MemberInfo T) → List B → Prop
  | _, [], [] => True
  | index, (P, m) :: rest, b :: bs => build P index m = .made b ∧ Numbered build (index + 1) rest bs
  | _, _, _ => False

section
variable {B : Type} {build : ShippedPolicy → Nat → MemberInfo T → Built B}

theorem Numbered.length_eq {index : Nat} {sel : List (ShippedPolicy × MemberInfo T)} {bs : List B}
    (h : Numbered build index sel bs) : bs.length = sel.length := by
  induction sel generalizing index bs with
  | nil =>
    cases bs with
    | nil => rfl
    | cons => exact h.elim
  | cons x sel ih =>
    cases bs with
    | nil => exact h.elim
    | cons b bs => rw [List.length_cons, List.length_cons, ih h.2]

/-- The `k`-th member has the `k`-th index. -/
theorem Numbered.getElem? {index : Nat} {sel : List (ShippedPolicy × MemberInfo T)} {bs : List B}
    (h : Numbered build index sel bs) {k : Nat} {P : ShippedPolicy} {m : MemberInfo T} (hk : sel[k]? = some (P, m)) :
    ∃ b, bs[k]? = some b ∧ build P (index + k) m = .made b := by
  induction sel generalizing index bs k with
  | nil => cases hk
  | cons x sel ih =>
    cases bs with
    | nil => exact h.elim
    | cons b bs =>
      cases k with
      | zero =>
        cases hk
        exact ⟨b, rfl, h.1⟩
      | succ k =>
        obtain ⟨b', hb', hmade⟩ := ih h.2 hk
        exact ⟨b', hb', by rwa [Nat.add_right_comm] at hmade⟩

/-- A builder that builds what its policy takes for remote is asked once for each selected
member, and only then. -/
theorem buildMember_eq (hbuild : ∀ (P : ShippedPolicy) m, P.isRemote m = true → ∀ index, ∃ b, build P index m = .made b)
    (m : MemberInfo T) (Ps : List ShippedPolicy) (index : Nat) :
    match Ps.find? (·.isRemote m) with
    | none => buildMember build m Ps index = some (none, index)
    | some P => ∃ b, build P index m = .made b ∧ buildMember build m Ps index = some (some b, index + 1) := by
  induction Ps with
  | nil => rfl
  | cons P Ps ih =>
    rw [List.find?_cons, buildMember]
    cases hremote : P.isRemote m with
    | true =>
      obtain ⟨b, hb⟩ := hbuild P m hremote index
      exact ⟨b, hb, by rw [if_pos rfl, hb]⟩
    | false => exact ih

theorem buildMembers_numbered (build : ShippedPolicy → Nat → MemberInfo T → Built B)
    (hbuild : ∀ (P : ShippedPolicy) m, P.isRemote m = true → ∀ index, ∃ b, build P index m = .made b)
    (Ps : List ShippedPolicy) (members : List (MemberInfo T)) (index : Nat) :
    ∃ bs, buildMembers build Ps members index = some bs ∧ Numbered build index (selected Ps members) bs := by
  induction members generalizing index with
  | nil => exact ⟨[], rfl, trivial⟩
  | cons m members ih =>
    have hone := buildMember_eq hbuild m Ps index
    unfold selected at ih ⊢
    rw [buildMembers]
    cases hfind : Ps.find? (·.isRemote m) with
    | none =>
      rw [hfind] at hone
      simp only at hone
      obtain ⟨bs, hbs, hnumbered⟩ := ih index
      refine ⟨bs, by simp [hone, hbs], ?_⟩
      rwa [List.filterMap_cons_none (by rw [hfind]; rfl)]
    | some P =>
      rw [hfind] at hone
      obtain ⟨b, hb, hone⟩ := hone
      obtain ⟨bs, hbs, hnumbered⟩ := ih (index + 1)
      refine ⟨b :: bs, by simp [hone, hbs], ?_⟩
      rw [List.filterMap_cons_some (by rw [hfind]; rfl)]
      exact ⟨hb, hnumbered⟩

end

/-- What a policy takes for remote it builds a proxy object for, with the opcode asked for
and the member's name. -/
theorem ShippedPolicy.makeProxyMember_made {P : ShippedPolicy} {m : MemberInfo T} (h : P.isRemote m = true)
    (index : Nat) : ∃ p, P.makeProxyMember index m = .made p ∧ p.index = index ∧ p.name = m.name := by
  obtain ⟨name, is_public, kind⟩ := m
  cases P with
  | default =>
    cases kind with
    | function return_type callback handler => exact ⟨_, rfl, rfl, rfl⟩
    | functionTemplate base => simp [isRemote] at h
    | other => simp [isRemote] at h
  | inProcess => exact ⟨_, rfl, rfl, rfl⟩
  | annotated =>
    cases kind with
    | function return_type callback handler =>
      cases handler with
      | none => exact ⟨_, rfl, rfl, rfl⟩
      | some handler => exact ⟨_, rfl, rfl, rfl⟩
    | functionTemplate base =>
      -- without a handler the builder returns a null reflection, but such a template is not remote
      cases base with
      | none => simp [isRemote] at h
      | some base =>
        obtain ⟨return_type, handler⟩ := base
        cases handler with
        | none => simp [isRemote] at h
        | some handler => exact ⟨_, rfl, rfl, rfl⟩
    | other => simp [isRemote] at h

/-- What a policy takes for remote it builds a case for, which calls the member or the
handler of its annotation. -/
theorem ShippedPolicy.makeDispatchMember_made {P : ShippedPolicy} {m : MemberInfo T} (h : P.isRemote m = true)
    (index : Nat) : ∃ d, P.makeDispatchMember index m = .made d ∧ d.index = index ∧ d.Carries m := by
  obtain ⟨name, is_public, kind⟩ := m
  cases P with
  | default => exact ⟨_, rfl, rfl, rfl⟩
  | inProcess => exact ⟨_, rfl, rfl, rfl⟩
  | annotated =>
    cases kind with
    | function return_type callback handler =>
      cases handler with
      | none => exact ⟨_, rfl, rfl, rfl⟩
      | some handler => exact ⟨_, rfl, rfl, rfl⟩
    | functionTemplate base =>
      cases base with
      | none => simp [isRemote] at h
      | some base =>
        obtain ⟨return_type, handler⟩ := base
        cases handler with
        | none => simp [isRemote] at h
        | some handler => exact ⟨_, rfl, rfl, rfl⟩
    | other => simp [isRemote] at h

/-- Member `m`, taken by the policy `P`, has opcode `k` on both sides: the dispatcher case at
position `k` carries the member or its handler, and its proxy object is the data member the
object looks itself up at. -/
structure HasOpcode (proxy : List (DataMember T)) (dispatcher : List (DispatchMember T)) (P : ShippedPolicy)
    (m : MemberInfo T) (k : Nat) : Prop where
  proxied : ∃ p, P.makeProxyMember k m = .made p ∧ p.index = k ∧ p.name = m.name ∧
    getNthMember proxy (p.index + 1) = some (.proxy p)
  dispatched : ∃ d, P.makeDispatchMember k m = .made d ∧ d.index = k ∧ d.Carries m ∧ dispatcher[k]? = some d

/-- **Opcodes.** For every class and every list of shipped policies, `makeProxy` and
`makeDispatcher` compile and select the same members in the same order, namely those some
policy takes for remote; the `k`-th of them has opcode `k` on both sides. -/
theorem opcodes_agree (Ps : List ShippedPolicy) (members : List (MemberInfo T)) :
    (selected Ps members).map Prod.snd = members.filter (fun m => Ps.any (·.isRemote m)) ∧
    ∃ proxy dispatcher, makeProxy Ps members = some proxy ∧ makeDispatcher Ps members = some dispatcher ∧
      proxy.length = (selected Ps members).length + 1 ∧ proxy[0]? = some .client ∧
      dispatcher.length = (selected Ps members).length ∧
      ∀ k P m, (selected Ps members)[k]? = some (P, m) → HasOpcode proxy dispatcher P m k := by
  refine ⟨selected_members Ps members, ?_⟩
  obtain ⟨objects, hobjects, hproxied⟩ := buildMembers_numbered ShippedPolicy.makeProxyMember
    (fun P m h index => (P.makeProxyMember_made h index).imp fun _ hp => hp.1) Ps members 0
  obtain ⟨cases', hcases, hdispatched⟩ := buildMembers_numbered ShippedPolicy.makeDispatchMember
    (fun P m h index => (P.makeDispatchMember_made h index).imp fun _ hd => hd.1) Ps members 0
  refine ⟨.client :: objects.map .proxy, cases', by rw [makeProxy, hobjects]; rfl, hcases, ?_, rfl,
    hdispatched.length_eq, ?_⟩
  · rw [List.length_cons, List.length_map, hproxied.length_eq]
  · intro k P m hk
    have hremote := isRemote_of_mem_selected (List.mem_of_getElem? hk)
    obtain ⟨p, hp, hmade⟩ := hproxied.getElem? hk
    obtain ⟨d, hd, hcase⟩ := hdispatched.getElem? hk
    rw [Nat.zero_add] at hmade hcase
    obtain ⟨p', hp', hindex, hname⟩ := P.makeProxyMember_made hremote k
    obtain ⟨d', hd', hdindex, hcarries⟩ := P.makeDispatchMember_made hremote k
    cases hmade.symm.trans hp'
    cases hcase.symm.trans hd'
    refine ⟨⟨p, hmade, hindex, hname, ?_⟩, ⟨d, hcase, hdindex, hcarries, hd⟩⟩
    rw [hindex, getNthMember, List.getElem?_cons_succ, List.getElem?_map, hp]
    rfl

end Erl.Rpc.Policies
