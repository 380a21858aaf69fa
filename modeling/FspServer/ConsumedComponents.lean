import FspServer.Insertion
import FspServer.RepresentationInvariant

/-!
# The components that do_add uses

`do_add` takes a reference to the front of `PathComponents`, pops that list, and
goes on using the reference. `doAdd` lets a component that has been popped keep its
value. Here a reference knows which element of the list it is to: its use after that
element was popped is an error, and so is a pop of the empty list.

* `doAdd_of_checked`: where nothing goes wrong, `doAdd` computes the same.
* `add_uses_components_iff`: nothing goes wrong exactly when the path is not there and
  every node that `do_add` follows it through is the last one of its siblings.
-/

namespace FspServer

open PathSet Runs

variable {χ : Type}

/-- What `do_add` can do wrong with the list of components. -/
inductive ComponentFault where
  /-- Compares a name with a component that was popped. -/
  | read
  /-- Moves from a component that was popped. -/
  | move
  /-- Pops an empty list. -/
  | popFront
deriving DecidableEq, Repr

/-- `CurrentPathComponent`: a reference to the element of `PathComponents` that has
`behind` elements behind it. The list only loses elements at its front. -/
structure ComponentRef (χ : Type) where
  value : List χ
  behind : Nat

/-- The value, for a use that is the given fault when the element was popped. -/
def ComponentRef.use (r : ComponentRef χ) (fault : ComponentFault)
    (components : List (List χ)) : Except ComponentFault (List χ) :=
  if r.behind < components.length then .ok r.value else .error fault

def popFront : List (List χ) → Except ComponentFault (List (List χ))
  | [] => .error .popFront
  | _ :: rest => .ok rest

namespace Node

variable [DecidableEq χ]

mutual
/-- `do_add`: the node after the call and what is left in `PathComponents`, or the
first fault. As in `doAdd`, the call on the new node is `newBranch`
(`doAddChecked_new`), and a `return` from the loop leaves no components. -/
def doAddChecked : Node χ → List (List χ) → Except ComponentFault (Node χ × List (List χ))
  | .mk n b cs, [] => .ok (.mk n b cs, [])
  | .mk n b cs, front :: components => do
    let current : ComponentRef χ := ⟨front, components.length⟩
    let (cs', left) ← doAddLoopChecked cs current (front :: components)
    match left with
    | [] => .ok (.mk n b cs', [])
    | left => do
      let name ← current.use .move left
      let rest ← popFront left
      .ok (.mk n b (newBranch name rest :: cs'), [])

/-- The loop over the children. Each round begins with a comparison. -/
def doAddLoopChecked : List (Node χ) → ComponentRef χ → List (List χ) →
    Except ComponentFault (List (Node χ) × List (List χ))
  | [], _, components => .ok ([], components)
  | child :: cs, current, components => do
    let name ← current.use .read components
    if child.myName = name then
      match ← popFront components with
      | [] => do
        let name ← current.use .move []
        .ok (child.addChildren (new name) :: cs, [])
      | next :: rest => do
        let (child', left) ← doAddChecked child (next :: rest)
        let (cs', left') ← doAddLoopChecked cs current left
        .ok (child' :: cs', left')
    else do
      let (cs', left) ← doAddLoopChecked cs current components
      .ok (child :: cs', left)
end

/-- `Add`. -/
def addChecked (sep : χ) (path : List χ) (root : Node χ) : Except ComponentFault (Node χ) :=
  (doAddChecked root (getComponents sep path)).map (·.1)

end Node

/-! ## Without a fault it is do_add -/

theorem bind_eq_ok {ε α β : Type} {x : Except ε α} {f : α → Except ε β} {b : β} :
    x >>= f = .ok b ↔ ∃ a, x = .ok a ∧ f a = .ok b := by
  cases x with
  | error e => exact ⟨fun h => (nomatch h), fun ⟨_, h, _⟩ => (nomatch h)⟩
  | ok a => exact ⟨fun h => ⟨a, rfl, h⟩, fun ⟨_, ha, h⟩ => Except.ok.inj ha ▸ h⟩

theorem ok_bind {ε α β : Type} (a : α) (f : α → Except ε β) : .ok a >>= f = f a := rfl

theorem ComponentRef.use_eq_ok_iff {r : ComponentRef χ} {fault : ComponentFault}
    {components : List (List χ)} {value : List χ} :
    r.use fault components = .ok value ↔ r.behind < components.length ∧ r.value = value := by
  rw [use]
  split
  · next h => simp [h]
  · next h => simp [h]

namespace Node

variable [DecidableEq χ]

mutual
theorem doAdd_of_checked {n : Node χ} {p : List (List χ)} {r : Node χ × List (List χ)}
    (h : doAddChecked n p = .ok r) : doAdd n p = some r := by
  match n, p with
  | .mk n b cs, [] =>
    obtain rfl := Except.ok.inj h
    rw [doAdd]
  | .mk n b cs, front :: components =>
    rw [doAddChecked] at h
    obtain ⟨⟨cs', left⟩, hloop, h⟩ := bind_eq_ok.mp h
    simp only [doAdd, doAddLoop_of_checked hloop]
    cases left with
    | nil => exact congrArg some (Except.ok.inj h)
    | cons c left =>
      obtain ⟨name, hname, h⟩ := bind_eq_ok.mp h
      obtain ⟨-, rfl⟩ := ComponentRef.use_eq_ok_iff.mp hname
      exact congrArg some (Except.ok.inj h)

theorem doAddLoop_of_checked {cs : List (Node χ)} {current : ComponentRef χ}
    {components : List (List χ)} {r : List (Node χ) × List (List χ)}
    (h : doAddLoopChecked cs current components = .ok r) :
    doAddLoop cs current.value components = some r := by
  match cs with
  | [] =>
    obtain rfl := Except.ok.inj h
    rw [doAddLoop]
  | child :: cs =>
    rw [doAddLoopChecked] at h
    obtain ⟨name, hname, h⟩ := bind_eq_ok.mp h
    obtain ⟨hvalid, rfl⟩ := ComponentRef.use_eq_ok_iff.mp hname
    simp only [doAddLoop]
    split
    · next hmatch =>
      rw [if_pos hmatch] at h
      obtain ⟨left, hpop, h⟩ := bind_eq_ok.mp h
      match components with
      | [_] =>
        obtain rfl := Except.ok.inj hpop
        obtain ⟨name, hname, h⟩ := bind_eq_ok.mp h
        exact absurd (ComponentRef.use_eq_ok_iff.mp hname).1 (Nat.not_lt_zero _)
      | _ :: next :: rest =>
        obtain rfl := Except.ok.inj hpop
        obtain ⟨⟨child', left⟩, hchild, h⟩ := bind_eq_ok.mp h
        obtain ⟨⟨cs', left'⟩, hloop, h⟩ := bind_eq_ok.mp h
        simp only [doAdd_of_checked hchild, Option.bind_eq_bind, Option.bind_some,
          doAddLoop_of_checked hloop]
        exact congrArg some (Except.ok.inj h)
    · next hmatch =>
      rw [if_neg hmatch] at h
      obtain ⟨⟨cs', left⟩, hloop, h⟩ := bind_eq_ok.mp h
      simp only [doAddLoop_of_checked hloop]
      exact congrArg some (Except.ok.inj h)
end

/-- A fresh node has nothing to loop over: the call on it takes one component after
the other. -/
theorem doAddChecked_new (name : List χ) (rest : List (List χ)) :
    doAddChecked (new name) rest = .ok (newBranch name rest, []) := by
  cases rest with
  | nil => rfl
  | cons next rest =>
    have huse : (⟨next, rest.length⟩ : ComponentRef χ).use .move (next :: rest) = .ok next :=
      ComponentRef.use_eq_ok_iff.mpr ⟨Nat.lt_succ_self _, rfl⟩
    rw [new, doAddChecked]
    exact bind_eq_ok.mpr ⟨_, rfl, bind_eq_ok.mpr ⟨_, huse, rfl⟩⟩

/-! ## When nothing goes wrong -/

/-- The path is not there, and of the children of a node on its way only the last one
may have the name that comes next. -/
structure ThroughLast (n : Node χ) (p : List (List χ)) : Prop where
  fresh : n.Fresh p
  last : ∀ q x m, q ++ [x] <+: p → n.doFindPath q = some m →
    ∀ d ∈ m.myChildrens.dropLast, d.myName ≠ x

/-- Once the path is used up, one more round of the loop is a fault. -/
theorem eq_nil_of_doAddLoopChecked_nil {cs : List (Node χ)} {current : ComponentRef χ}
    {r : List (Node χ) × List (List χ)} (h : doAddLoopChecked cs current [] = .ok r) :
    cs = [] := by
  cases cs with
  | nil => rfl
  | cons c cs =>
    rw [doAddLoopChecked] at h
    obtain ⟨_, huse, -⟩ := bind_eq_ok.mp h
    exact absurd (ComponentRef.use_eq_ok_iff.mp huse).1 (Nat.not_lt_zero _)

/-- The round for a child with another name. -/
theorem doAddLoopChecked_cons_of_ne {c : Node χ} {cs : List (Node χ)} {x : List χ}
    {rest : List (List χ)} (hc : c.myName ≠ x) :
    doAddLoopChecked (c :: cs) ⟨x, rest.length⟩ (x :: rest) =
      (doAddLoopChecked cs ⟨x, rest.length⟩ (x :: rest)).map fun r => (c :: r.1, r.2) := by
  have huse : (⟨x, rest.length⟩ : ComponentRef χ).use .read (x :: rest) = .ok x :=
    ComponentRef.use_eq_ok_iff.mpr ⟨Nat.lt_succ_self _, rfl⟩
  rw [doAddLoopChecked, huse, ok_bind, if_neg hc]
  cases doAddLoopChecked cs ⟨x, rest.length⟩ (x :: rest) with
  | error e => rfl
  | ok r => rfl

/-- The round for a child with the name is the last one. -/
theorem doAddLoopChecked_cons_ok_iff {c : Node χ} {cs : List (Node χ)} {rest : List (List χ)} :
    (∃ r, doAddLoopChecked (c :: cs) ⟨c.myName, rest.length⟩ (c.myName :: rest) = .ok r) ↔
      rest ≠ [] ∧ cs = [] ∧ ∃ r, doAddChecked c rest = .ok r := by
  have huse : (⟨c.myName, rest.length⟩ : ComponentRef χ).use .read (c.myName :: rest) =
      .ok c.myName := ComponentRef.use_eq_ok_iff.mpr ⟨Nat.lt_succ_self _, rfl⟩
  rw [doAddLoopChecked, huse, ok_bind, if_pos rfl, popFront, ok_bind]
  cases rest with
  | nil =>
    refine iff_of_false ?_ fun h => h.1 rfl
    rintro ⟨r, h⟩
    obtain ⟨_, hmove, -⟩ := bind_eq_ok.mp h
    exact absurd (ComponentRef.use_eq_ok_iff.mp hmove).1 (Nat.not_lt_zero _)
  | cons next rest =>
    constructor
    · rintro ⟨r, h⟩
      obtain ⟨⟨c', left⟩, hchild, h⟩ := bind_eq_ok.mp h
      obtain ⟨_, hloop, -⟩ := bind_eq_ok.mp h
      -- the call has used up the path
      obtain rfl := (doAdd_some (doAdd_of_checked hchild)).2
      exact ⟨List.cons_ne_nil _ _, eq_nil_of_doAddLoopChecked_nil hloop, _, hchild⟩
    · rintro ⟨-, rfl, ⟨c', left⟩, hchild⟩
      exact ⟨_, bind_eq_ok.mpr ⟨_, hchild, rfl⟩⟩

/-- The loop ends well exactly when the child it finds is the last one, the path goes on
below it, and the call on it ends well. -/
theorem doAddLoopChecked_ok_iff {cs : List (Node χ)} {c : Node χ} {x : List χ}
    (hc : cs.find? (fun c => c.myName = x) = some c) {rest : List (List χ)} :
    (∃ r, doAddLoopChecked cs ⟨x, rest.length⟩ (x :: rest) = .ok r) ↔
      rest ≠ [] ∧ (∀ d ∈ cs.dropLast, d.myName ≠ x) ∧ ∃ r, doAddChecked c rest = .ok r := by
  induction cs with
  | nil => simp at hc
  | cons e cs ih =>
    by_cases he : e.myName = x
    · obtain rfl : e = c := by simpa [he] using hc
      subst he
      rw [doAddLoopChecked_cons_ok_iff]
      refine and_congr_right fun _ => and_congr_left fun _ => ?_
      constructor
      · rintro rfl
        exact fun d hd => absurd hd List.not_mem_nil
      · intro hlast
        by_contra hcs
        rw [List.dropLast_cons_of_ne_nil hcs] at hlast
        exact hlast e List.mem_cons_self rfl
    · have hc' : cs.find? (fun c => c.myName = x) = some c := by simpa [he] using hc
      have hcs : cs ≠ [] := by
        rintro rfl
        cases hc'
      rw [doAddLoopChecked_cons_of_ne he, List.dropLast_cons_of_ne_nil hcs,
        List.forall_mem_cons, and_iff_right he, ← ih hc']
      cases doAddLoopChecked cs ⟨x, rest.length⟩ (x :: rest) with
      | error fault => exact ⟨fun ⟨_, h⟩ => (nomatch h), fun ⟨_, h⟩ => (nomatch h)⟩
      | ok r => exact ⟨fun _ => ⟨r, rfl⟩, fun _ => ⟨_, rfl⟩⟩

theorem doAddLoopChecked_of_absent {cs : List (Node χ)} {x : List χ}
    (h : ∀ c ∈ cs, c.myName ≠ x) (rest : List (List χ)) :
    doAddLoopChecked cs ⟨x, rest.length⟩ (x :: rest) = .ok (cs, x :: rest) := by
  induction cs with
  | nil => rw [doAddLoopChecked]
  | cons c cs ih =>
    obtain ⟨hc, hcs⟩ := List.forall_mem_cons.mp h
    rw [doAddLoopChecked_cons_of_ne hc, ih hcs]
    rfl

/-- One level of `do_add`: nothing is wrong with a component that is not there, and one
that is there has to belong to the last child, with more to come. -/
theorem doAddChecked_cons_ok_iff {n : Node χ} {x : List χ} {rest : List (List χ)} :
    (∃ r, doAddChecked n (x :: rest) = .ok r) ↔ ∀ c, n.getChildren x = some c →
      rest ≠ [] ∧ (∀ d ∈ n.myChildrens.dropLast, d.myName ≠ x) ∧
        ∃ r, doAddChecked c rest = .ok r := by
  obtain ⟨name, b, cs⟩ := n
  rw [doAddChecked]
  cases hc : (Node.mk name b cs).getChildren x with
  | none =>
    have habsent : ∀ c ∈ cs, c.myName ≠ x := by simpa [getChildren, myChildrens] using hc
    have huse : (⟨x, rest.length⟩ : ComponentRef χ).use .move (x :: rest) = .ok x :=
      ComponentRef.use_eq_ok_iff.mpr ⟨Nat.lt_succ_self _, rfl⟩
    refine iff_of_true ⟨(.mk name b (newBranch x rest :: cs), []), ?_⟩ ?_
    · rw [doAddLoopChecked_of_absent habsent rest, ok_bind]
      exact bind_eq_ok.mpr ⟨x, huse, rfl⟩
    · intro c h
      cases h
  | some c =>
    have hfind : cs.find? (fun c => c.myName = x) = some c := hc
    constructor
    · rintro ⟨r, h⟩ d hd
      obtain rfl := Option.some.inj hd
      obtain ⟨r', hloop, -⟩ := bind_eq_ok.mp h
      exact (doAddLoopChecked_ok_iff hfind).mp ⟨r', hloop⟩
    · intro h
      obtain ⟨⟨cs', left⟩, hloop⟩ := (doAddLoopChecked_ok_iff hfind).mpr (h c rfl)
      rcases doAddLoop_cases (doAddLoop_of_checked hloop) with ⟨-, -, hnone⟩ | ⟨_, _, rfl, -⟩
      · exact absurd (hc.symm.trans hnone) (by simp)
      · exact ⟨_, bind_eq_ok.mpr ⟨_, hloop, rfl⟩⟩

theorem throughLast_nil (n : Node χ) : n.ThroughLast [] :=
  ⟨.inl rfl, fun q x _ h => absurd (List.prefix_nil.mp h) (List.concat_ne_nil x q)⟩

theorem throughLast_cons_iff {n : Node χ} {x : List χ} {rest : List (List χ)} :
    n.ThroughLast (x :: rest) ↔ ∀ c, n.getChildren x = some c →
      rest ≠ [] ∧ (∀ d ∈ n.myChildrens.dropLast, d.myName ≠ x) ∧ c.ThroughLast rest := by
  constructor
  · rintro ⟨hfresh, hlast⟩ c hc
    have habsent : rest ∉ c.paths := fun hrest =>
      hfresh.resolve_left (List.cons_ne_nil x rest) (cons_mem_paths.mpr ⟨c, hc, hrest⟩)
    refine ⟨fun hnil => habsent (hnil ▸ nil_mem_paths c), hlast [] x n ?_ rfl,
      .inr habsent, fun q y m hq hm => hlast (x :: q) y m ?_ ?_⟩
    · exact List.cons_prefix_cons.mpr ⟨rfl, List.nil_prefix⟩
    · exact List.cons_prefix_cons.mpr ⟨rfl, hq⟩
    · rw [doFindPath, hc]
      exact hm
  · intro h
    refine ⟨.inr fun hmem => ?_, fun q y m hq hm => ?_⟩
    · obtain ⟨c, hc, hrest⟩ := cons_mem_paths.mp hmem
      obtain ⟨hne, -, hc'⟩ := h c hc
      exact hc'.fresh.resolve_left hne hrest
    · cases q with
      | nil =>
        obtain rfl := Option.some.inj hm
        obtain ⟨rfl, -⟩ := List.cons_prefix_cons.mp hq
        intro d hd hdy
        cases hc : n.getChildren y with
        | none => exact List.find?_eq_none.mp hc d (List.dropLast_subset _ hd) (by simp [hdy])
        | some c => exact (h c hc).2.1 d hd hdy
      | cons z q =>
        obtain ⟨rfl, hrest⟩ := List.cons_prefix_cons.mp hq
        rw [doFindPath] at hm
        split at hm
        · next c hc => exact (h c hc).2.2.last q y m hrest hm
        · cases hm

/-- On every tree and for every path: `do_add` makes no use of a component that was popped
and pops no empty list exactly when it goes through last siblings to an absent path. -/
theorem doAddChecked_ok_iff {n : Node χ} {p : List (List χ)} :
    (∃ r, doAddChecked n p = .ok r) ↔ n.ThroughLast p := by
  induction p generalizing n with
  | nil =>
    obtain ⟨name, b, cs⟩ := n
    exact iff_of_true ⟨_, by rw [doAddChecked]⟩ (throughLast_nil _)
  | cons x rest ih =>
    rw [doAddChecked_cons_ok_iff, throughLast_cons_iff]
    simp only [ih]

end Node

open Node

variable [DecidableEq χ]

/-- An update; `none` when its `Add` makes a fault. -/
def VfsOp.applyChecked (sep : χ) (owner : List χ) (root : Node χ) : VfsOp χ → Option (Node χ)
  | .Add path => (addChecked sep path root).toOption
  | op => op.apply sep owner root

/-- The condition on an `Add`. -/
def VfsOp.ThroughLast (sep : χ) (root : Node χ) : VfsOp χ → Prop
  | .Add path => root.ThroughLast (getComponents sep path)
  | _ => True

theorem addChecked_eq_ok_iff {sep : χ} {path : List χ} {root root' : Node χ} :
    addChecked sep path root = .ok root' ↔
      root.ThroughLast (getComponents sep path) ∧ add sep path root = some root' := by
  rw [← doAddChecked_ok_iff, addChecked, add]
  constructor
  · intro h
    cases hadd : doAddChecked root (getComponents sep path) with
    | error fault =>
      rw [hadd] at h
      cases h
    | ok r =>
      rw [hadd] at h
      exact ⟨⟨r, rfl⟩, by rw [doAdd_of_checked hadd, ← Except.ok.inj h]; rfl⟩
  · rintro ⟨⟨r, hadd⟩, h⟩
    rw [doAdd_of_checked hadd] at h
    rw [hadd, ← Option.some.inj h]
    rfl

theorem VfsOp.applyChecked_eq_some_iff {sep : χ} {owner : List χ} {root root' : Node χ}
    {op : VfsOp χ} : op.applyChecked sep owner root = some root' ↔
      op.ThroughLast sep root ∧ op.apply sep owner root = some root' := by
  cases op with
  | Add path =>
    show (addChecked sep path root).toOption = some root' ↔
      root.ThroughLast (getComponents sep path) ∧ add sep path root = some root'
    rw [← addChecked_eq_ok_iff]
    cases addChecked sep path root with
    | error fault =>
      constructor
      · intro h
        cases h
      · intro h
        cases h
    | ok root'' =>
      constructor
      · intro h
        exact congrArg Except.ok (Option.some.inj h)
      · intro h
        exact congrArg some (Except.ok.inj h)
  | _ => exact (and_iff_right trivial).symm

theorem VfsOp.isSome_apply_of_throughLast {sep : χ} {owner : List χ} {root : Node χ}
    {op : VfsOp χ} (h : op.ThroughLast sep root) : (op.apply sep owner root).isSome := by
  cases op with
  | Add path =>
    obtain ⟨r, hr⟩ := doAddChecked_ok_iff.mpr h
    show ((doAdd root (getComponents sep path)).map (·.1)).isSome
    rw [doAdd_of_checked hr]
    rfl
  | _ => rfl

/-- For every tree and path: `Add` makes no use of a component that was popped and pops no
empty list exactly when the path is absent and the nodes it is followed through are the
last of their siblings. So of the runs of updates, those go without a fault in which
every `Add` meets this. -/
theorem add_uses_components_iff (sep : χ) (owner : List χ) :
    (∀ (root : Node χ) (path : List χ), (∃ root', addChecked sep path root = .ok root') ↔
      root.ThroughLast (getComponents sep path)) ∧
    ∀ (rootName : List χ) (ops : List (VfsOp χ)),
      (exec (VfsOp.applyChecked sep owner) (new rootName) ops).isSome ↔
        EachStep (VfsOp.apply sep owner) (VfsOp.ThroughLast sep) (new rootName) ops := by
  refine ⟨fun root path => ?_, fun rootName ops => ?_⟩
  · rw [← doAddChecked_ok_iff]
    constructor
    · rintro ⟨root', h⟩
      exact doAddChecked_ok_iff.mpr (addChecked_eq_ok_iff.mp h).1
    · rintro ⟨r, h⟩
      exact ⟨r.1, by rw [addChecked, h]; rfl⟩
  · exact isSome_exec_iff_eachStep (fun _ _ _ => VfsOp.applyChecked_eq_some_iff)
      (fun _ _ => VfsOp.isSome_apply_of_throughLast) (new rootName) ops

/-- The file `/f` is added twice: the second `do_add` moves from the component that it has
popped. The files `/a` and `/b` are there and `/b/x` is added: after the call on `b` the
loop compares the name of `a` with the component that was popped before. -/
theorem add_present_moves_popped :
    (exec (VfsOp.applyChecked '/' "o".toList) (new ['/']) [.Add "/f".toList] =
        some (.mk ['/'] false [new ['f']]) ∧
      doAddChecked (.mk ['/'] false [new ['f']]) (getComponents '/' "/f".toList) =
        .error .move) ∧
    exec (VfsOp.applyChecked '/' "o".toList) (new ['/']) [.Add "/a".toList, .Add "/b".toList] =
        some (.mk ['/'] false [new ['b'], new ['a']]) ∧
      doAddChecked (.mk ['/'] false [new ['b'], new ['a']]) (getComponents '/' "/b/x".toList) =
        .error .read :=
  ⟨⟨rfl, rfl⟩, rfl, rfl⟩

end FspServer
