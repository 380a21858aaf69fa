import FspServer.Replicas
import FspServer.ProcessingCounter

/-!
# What clients see of each other's files

Every processing client keeps a replica of the files of every other one from the
messages it is sent. The replica lists the files of the owner's tree whenever no
handler is between the update of a tree and its announcement
(`replica_lists_files`), in every run in which (`Server.KeepsViews`)

* the counter of processing connections stays exact;
* no tree gets two siblings with one name;
* a client registers with a nickname that no processing client has and that holds no null
  character, and while no processing client has a change that is not announced yet;
* `PUSH_FILES` is executed only for a client that is not processing, and a change
  of the files of a processing client only after its last one was announced;
* nobody announces a change under the nickname of another processing client.

The invariant is that a replica has the paths that the owner's tree had before
the change that is not announced yet (`Behind`).
-/

namespace FspServer

open Node PathSet Runs RepresentationLemmas Server

/-! ## The steps that keep replicas and trees alike -/

namespace Server

/-- The condition on a request that is about to be executed. -/
def RequestKeepsViews (cfg : Config) (s : Server) (c : ConnId) (r : Request) : Prop :=
  match r with
  | .pushFiles _ paths => c ∉ s.registry.processing ∧
      EachStep (VfsOp.apply cfg.PATH_SEPARATOR_CHR (s.registry.nickname c))
        (fun root op => op.KeepsNames cfg.PATH_SEPARATOR_CHR root) (s.tree c) (paths.map .Add)
  | r => ∀ op ∈ r.change, op.KeepsNames cfg.PATH_SEPARATOR_CHR (s.tree c) ∧
      (c ∈ s.registry.processing → s.core.pending c = [])

/-- The condition on a handler that is about to do its next section. -/
def HandlerKeepsViews (s : Server) (c : ConnId) : Continuation → Prop
  | .notifyFilesRegistration => s.core.pending c = [] ∧
      cString (s.registry.nickname c) = s.registry.nickname c ∧ ∀ d ∈ s.registry.processing,
        s.registry.nickname d ≠ s.registry.nickname c ∧ s.core.pending d = []
  | .notifyFileAdd _ | .notifyPathRemoved _ | .notifyPathRenamed .. =>
    ∀ d ∈ s.registry.processing, s.registry.nickname d = s.registry.nickname c → d = c
  | _ => True

/-- The steps that keep replicas and trees alike. -/
def KeepsViews (cfg : Config) (s : Server) (e : Event) : Prop :=
  s.core.KeepsCount e ∧
    match e with
    | .execute i _ _ => ∀ t ∈ s.tasks[i]?, s.RequestKeepsViews cfg t.conn t.request
    | .resume i => ∀ h ∈ s.running[i]?, s.HandlerKeepsViews h.conn h.rest
    | _ => True

instance (cfg : Config) (s : Server) (c : ConnId) (r : Request) :
    Decidable (s.RequestKeepsViews cfg c r) :=
  match r with
  | .pushFiles .. => inferInstanceAs (Decidable (_ ∧ _))
  | .signin .. | .signup .. | .deleteAccount .. | .logout | .downloadFile .. | .addFile .. |
    .removePath .. | .renamePath .. => inferInstanceAs (Decidable (∀ op ∈ _, _))

instance (s : Server) (c : ConnId) (rest : Continuation) :
    Decidable (s.HandlerKeepsViews c rest) :=
  match rest with
  | .notifyFilesRegistration => inferInstanceAs (Decidable (_ ∧ _ ∧ _))
  | .notifyFileAdd _ | .notifyPathRemoved _ | .notifyPathRenamed .. =>
    inferInstanceAs (Decidable (∀ d ∈ _, _))
  | .isLogged .. | .storeLogin .. | .notifyDisconnection .. => inferInstanceAs (Decidable True)

instance (cfg : Config) (s : Server) (e : Event) : Decidable (s.KeepsViews cfg e) :=
  match e with
  | .execute .. => inferInstanceAs (Decidable (_ ∧ ∀ t ∈ _, _))
  | .resume _ => inferInstanceAs (Decidable (_ ∧ ∀ h ∈ _, _))
  | .accept _ | .read .. | .stop _ | .sharedWrite .. | .backupTimer _ | .transactionTimer _ |
    .helloSender _ | .transferCompleted .. | .uploadCompleted _ =>
    inferInstanceAs (Decidable (_ ∧ True))

end Server

/-! ## The invariant -/

/-- The replica has the paths of the tree before the updates that are not
announced yet, of which there is at most one. -/
inductive Behind (sep : Char) (replica tree : Node Char) : List (VfsOp Char) → Prop
  | done : replica.paths = tree.paths → Behind sep replica tree []
  | pending {op : VfsOp Char} : op.KeepsNames sep replica →
      tree.paths = op.onPaths sep replica.paths → Behind sep replica tree [op]

theorem Behind.congr {sep : Char} {replica tree tree' : Node Char} {ops : List (VfsOp Char)}
    (h : Behind sep replica tree ops) (hpaths : tree'.paths = tree.paths) :
    Behind sep replica tree' ops := by
  cases h with
  | done hp => exact .done (hp.trans hpaths.symm)
  | pending hkeep hp => exact .pending hkeep (hpaths.trans hp)

theorem Behind.eq_nil {sep : Char} {replica tree : Node Char} {op : VfsOp Char}
    {before after : List (VfsOp Char)}
    (h : Behind sep replica tree (before ++ [op] ++ after)) : before = [] ∧ after = [] := by
  generalize hops : before ++ [op] ++ after = ops at h
  cases h with
  | done => simp at hops
  | pending => cases before <;> simp_all

/-- The replica that `B` has of the files of `A` is `tree`, up to `ops`. -/
def Sees (cfg : Config) (sent : List Outgoing) (owner : Str) (tree : Node Char)
    (ops : List (VfsOp Char)) : Prop :=
  ∃ root, replica cfg owner sent = some root ∧ WellFormed cfg.PATH_SEPARATOR_CHR root ∧
    root.myName = cfg.PATH_ROOT ∧ Behind cfg.PATH_SEPARATOR_CHR root tree ops

structure Consistent (cfg : Config) (s : Server) : Prop where
  counted : s.core.Counted
  wellFormed : ∀ c, WellFormed cfg.PATH_SEPARATOR_CHR (s.tree c)
  rootName : ∀ c, (s.tree c).myName = cfg.PATH_ROOT
  distinct : ∀ A ∈ s.registry.processing, ∀ B ∈ s.registry.processing,
    s.registry.nickname A = s.registry.nickname B → A = B
  named : ∀ A ∈ s.registry.processing, cString (s.registry.nickname A) = s.registry.nickname A
  sees : ∀ A ∈ s.registry.processing, ∀ B ∈ s.registry.processing, A ≠ B →
    Sees cfg (s.sent B) (s.registry.nickname A) (s.tree A) (s.core.pending A)

namespace Consistent

variable {cfg : Config} {s s' : Server}

/-- Steps that make no client processing and change no replica. -/
theorem of_files (h : Consistent cfg s) (hcounted : s'.core.Counted)
    (hprocessing : ∀ c ∈ s'.registry.processing, c ∈ s.registry.processing)
    (hnick : ∀ c ∈ s'.registry.processing, s'.registry.nickname c = s.registry.nickname c)
    (hreplica : (s'.files cfg).2 = (s.files cfg).2)
    (hwf : ∀ c, WellFormed cfg.PATH_SEPARATOR_CHR (s'.tree c))
    (hroot : ∀ c, (s'.tree c).myName = cfg.PATH_ROOT)
    (hbehind : ∀ A ∈ s.registry.processing, ∀ root,
      WellFormed cfg.PATH_SEPARATOR_CHR root →
      Behind cfg.PATH_SEPARATOR_CHR root (s.tree A) (s.core.pending A) →
      Behind cfg.PATH_SEPARATOR_CHR root (s'.tree A) (s'.core.pending A)) :
    Consistent cfg s' := by
  refine ⟨hcounted, hwf, hroot, fun A hA B hB heq => ?_, fun A hA => ?_,
    fun A hA B hB hne => ?_⟩
  · rw [hnick A hA, hnick B hB] at heq
    exact h.distinct A (hprocessing A hA) B (hprocessing B hB) heq
  · rw [hnick A hA]
    exact h.named A (hprocessing A hA)
  · obtain ⟨root, hrep, hrwf, hrname, hrb⟩ :=
      h.sees A (hprocessing A hA) B (hprocessing B hB) hne
    refine ⟨root, ?_, hrwf, hrname, hbehind A (hprocessing A hA) root hrwf hrb⟩
    rw [hnick A hA]
    exact (congrFun (congrFun hreplica B) _).trans hrep

/-- Steps that change no tree but for `Cached_` flags. -/
theorem quiet (h : Consistent cfg s) (hcounted : s'.core.Counted)
    (hprocessing : ∀ c ∈ s'.registry.processing, c ∈ s.registry.processing)
    (hnick : ∀ c ∈ s'.registry.processing, s'.registry.nickname c = s.registry.nickname c)
    (hfiles : s'.files cfg = s.files cfg)
    (hpending : ∀ c, s'.core.pending c = s.core.pending c) : Consistent cfg s' := by
  have hshape : ∀ c, (s'.tree c).shape = (s.tree c).shape := fun c =>
    congrFun (congrArg Prod.fst hfiles) c
  refine h.of_files hcounted hprocessing hnick (congrArg Prod.snd hfiles)
    (fun c => wellFormed_of_shape_eq (hshape c) (h.wellFormed c)) (fun c => ?_)
    fun A _ root _ hb => ?_
  · rw [← myName_shape, hshape, myName_shape]
    exact h.rootName c
  · rw [hpending]
    exact hb.congr (paths_of_shape_eq (hshape A))

/-- The tree of one client becomes `root`. -/
theorem update (h : Consistent cfg s) {c : ConnId} {root : Node Char}
    (hcounted : s'.core.Counted)
    (hprocessing : ∀ c ∈ s'.registry.processing, c ∈ s.registry.processing)
    (hnick : ∀ c ∈ s'.registry.processing, s'.registry.nickname c = s.registry.nickname c)
    (hfiles : s'.files cfg = (Function.update (s.files cfg).1 c root.shape, (s.files cfg).2))
    (hroot : WellFormed cfg.PATH_SEPARATOR_CHR root) (hname : root.myName = cfg.PATH_ROOT)
    (hpending : ∀ d, d ≠ c → s'.core.pending d = s.core.pending d)
    (hbehind : c ∈ s.registry.processing → ∀ replica,
      Behind cfg.PATH_SEPARATOR_CHR replica (s.tree c) (s.core.pending c) →
      Behind cfg.PATH_SEPARATOR_CHR replica root (s'.core.pending c)) :
    Consistent cfg s' := by
  obtain ⟨htree, hreplica⟩ := Prod.ext_iff.mp hfiles
  have hself : (s'.tree c).shape = root.shape :=
    (congrFun htree c).trans (Function.update_self ..)
  have hother : ∀ d, d ≠ c → (s'.tree d).shape = (s.tree d).shape := fun d hne =>
    (congrFun htree d).trans (Function.update_of_ne hne ..)
  refine h.of_files hcounted hprocessing hnick hreplica (fun d => ?_) (fun d => ?_)
    fun A hA replica _ hb => ?_
  · by_cases hd : d = c
    · exact wellFormed_of_shape_eq (hd ▸ hself) hroot
    · exact wellFormed_of_shape_eq (hother d hd) (h.wellFormed d)
  · rw [← myName_shape]
    by_cases hd : d = c
    · rw [hd, hself, myName_shape, hname]
    · rw [hother d hd, myName_shape]
      exact h.rootName d
  · by_cases hAc : A = c
    · subst hAc
      exact (hbehind hA replica hb).congr (paths_of_shape_eq hself)
    · rw [hpending A hAc]
      exact hb.congr (paths_of_shape_eq (hother A hAc))

/-- Steps of `addAll` are updates. -/
theorem exec_of_addAll {sep : Char} {owner : Str} {paths : List Str} {root root' : Node Char}
    (h : addAll sep paths root = some root') :
    exec (VfsOp.apply sep owner) root (paths.map .Add) = some root' := by
  induction paths generalizing root with
  | nil => exact h
  | cons path paths ih =>
    obtain ⟨mid, hmid, hrest⟩ := Option.bind_eq_some_iff.mp h
    exact Option.bind_eq_some_iff.mpr ⟨mid, hmid, ih hrest⟩

theorem myName_of_addAll {sep : Char} {owner : Str} {paths : List Str} {root root' : Node Char}
    (hwf : EachState (VfsOp.apply sep owner) (WellFormed sep) root (paths.map .Add))
    (h : addAll sep paths root = some root') : root'.myName = root.myName := by
  induction paths generalizing root with
  | nil =>
    obtain rfl := Option.some.inj h
    rfl
  | cons path paths ih =>
    obtain ⟨mid, hmid, hrest⟩ := Option.bind_eq_some_iff.mp h
    have hmid' : (VfsOp.Add path).apply sep owner root = some mid := hmid
    rw [ih (hwf.2 mid hmid) hrest, VfsOp.myName_apply hwf.1 hmid']

/-- A request changes the tree of its client. -/
theorem change (h : Consistent cfg s) {c : ConnId} {op : VfsOp Char} {root : Node Char}
    (hcounted : s'.core.Counted)
    (hprocessing : ∀ c ∈ s'.registry.processing, c ∈ s.registry.processing)
    (hnick : ∀ c ∈ s'.registry.processing, s'.registry.nickname c = s.registry.nickname c)
    (hop : op.apply cfg.PATH_SEPARATOR_CHR (s.registry.nickname c) (s.tree c) = some root)
    (hkeep : op.KeepsNames cfg.PATH_SEPARATOR_CHR (s.tree c))
    (hidle : c ∈ s.registry.processing → s.core.pending c = [])
    (hfiles : s'.files cfg = (Function.update (s.files cfg).1 c root.shape, (s.files cfg).2))
    (hpending : ∀ d, s'.core.pending d = s.core.pending d ++ if c = d then [op] else []) :
    Consistent cfg s' := by
  have hwf := h.wellFormed c
  refine h.update hcounted hprocessing hnick hfiles
    ((VfsOp.wellFormed_apply_iff hwf hop).mpr hkeep)
    ((VfsOp.myName_apply hwf hop).trans (h.rootName c)) (fun d hd => ?_) fun hc replica hb => ?_
  · rw [hpending, if_neg (Ne.symm hd), List.append_nil]
  · rw [hidle hc] at hb
    rw [hpending, hidle hc, if_pos rfl, List.nil_append]
    cases hb with
    | done hp =>
      refine .pending ((VfsOp.keepsNames_congr hp).mpr hkeep) ?_
      rw [VfsOp.paths_apply hwf hkeep hop, hp]

/-- `PUSH_FILES` of a client that is not processing. -/
theorem push (h : Consistent cfg s) {c : ConnId} {paths : List Str} {root : Node Char}
    (hcounted : s'.core.Counted)
    (hprocessing : ∀ c ∈ s'.registry.processing, c ∈ s.registry.processing)
    (hnick : ∀ c ∈ s'.registry.processing, s'.registry.nickname c = s.registry.nickname c)
    (hadd : addAll cfg.PATH_SEPARATOR_CHR paths (s.tree c) = some root)
    (hc : c ∉ s.registry.processing)
    (hkeep : EachStep (VfsOp.apply cfg.PATH_SEPARATOR_CHR (s.registry.nickname c))
      (fun root op => op.KeepsNames cfg.PATH_SEPARATOR_CHR root) (s.tree c) (paths.map .Add))
    (hfiles : s'.files cfg = (Function.update (s.files cfg).1 c root.shape, (s.files cfg).2))
    (hpending : ∀ d, s'.core.pending d = s.core.pending d) : Consistent cfg s' := by
  have hstates := (eachState_iff_eachStep
    (fun _ op hwf => VfsOp.apply_defined (s.registry.nickname c) hwf op)
    (fun _ _ _ hwf hop => VfsOp.wellFormed_apply_iff hwf hop) (h.wellFormed c)
    (paths.map .Add)).mpr hkeep
  exact h.update hcounted hprocessing hnick hfiles (hstates.of_exec (exec_of_addAll hadd))
    ((myName_of_addAll hstates hadd).trans (h.rootName c)) (fun d _ => hpending d)
    fun hmem => absurd hmem hc

/-! ## Announcements -/

theorem replicaStep_change {owner o : Str} {rest : Continuation} {op : VfsOp Char}
    (hop : rest.change = some op) (r : Option (Node Char)) :
    replicaStep cfg owner r (.notification (op.notification o)) =
      if o = owner then r.bind fun root => op.apply cfg.PATH_SEPARATOR_CHR owner root else r := by
  cases rest <;> simp only [Continuation.change, Option.some.injEq, reduceCtorEq] at hop <;>
    subst hop <;> rfl

/-- A replica after the update that was not announced yet. -/
theorem sees_announced {sent : List Outgoing} {owner : Str} {tree : Node Char}
    {rest : Continuation} {op : VfsOp Char} (hop : rest.change = some op)
    (h : Sees cfg sent owner tree [op]) :
    Sees cfg (sent ++ [.notification (op.notification owner)]) owner tree [] := by
  obtain ⟨root, hrep, hwf, hname, hb⟩ := h
  cases hb with
  | pending hkeep hpaths =>
    obtain ⟨root', hroot'⟩ := VfsOp.apply_defined owner hwf op
    refine ⟨root', ?_, (VfsOp.wellFormed_apply_iff hwf hroot').mpr hkeep,
      (VfsOp.myName_apply hwf hroot').trans hname, .done ?_⟩
    · rw [replica_append, replicaStep_change hop, if_pos rfl, hrep]
      exact hroot'
    · rw [VfsOp.paths_apply hwf hkeep hroot', hpaths]

/-- A replica after an announcement of another client. -/
theorem sees_other {sent : List Outgoing} {owner o : Str} {tree : Node Char}
    {ops : List (VfsOp Char)} {rest : Continuation} {op : VfsOp Char}
    (hop : rest.change = some op) (hne : o ≠ owner) (h : Sees cfg sent owner tree ops) :
    Sees cfg (sent ++ [.notification (op.notification o)]) owner tree ops := by
  obtain ⟨root, hrep, hrest⟩ := h
  refine ⟨root, ?_, hrest⟩
  rw [replica_append, replicaStep_change hop, if_neg hne, hrep]

/-- A handler announces its change. -/
theorem notify (h : Consistent cfg s) {i : Nat} {r : Running} {op : VfsOp Char}
    (hi : s.running[i]? = some r) (hop : r.rest.change = some op)
    (hsole : ∀ d ∈ s.registry.processing,
      s.registry.nickname d = s.registry.nickname r.conn → d = r.conn)
    (hcounted : ({ s with running := s.running.eraseIdx i }.doNotify cfg
      (s.registry.nickname r.conn) (op.notification (s.registry.nickname r.conn))).core.Counted) :
    Consistent cfg ({ s with running := s.running.eraseIdx i }.doNotify cfg
      (s.registry.nickname r.conn) (op.notification (s.registry.nickname r.conn))) := by
  generalize hs' : ({ s with running := s.running.eraseIdx i } : Server).doNotify cfg
    (s.registry.nickname r.conn) (op.notification (s.registry.nickname r.conn)) = s' at hcounted ⊢
  have hnodup : s.registry.processing.Nodup := h.counted.base.nodup.filter _
  have hcore : s'.core = { s.core.eraseRunning i with
      registry := s.registry.doNotify cfg (s.registry.nickname r.conn)
        (op.notification (s.registry.nickname r.conn)) } := by
    rw [← hs', core_doNotify]
    rfl
  have hreg := congrArg Core.registry hcore
  have hnick : s'.registry.nickname = s.registry.nickname := by
    rw [show s'.registry = _ from hreg, Registry.nickname_doNotify]
  have hproc : s'.registry.processing = s.registry.processing := by
    rw [show s'.registry = _ from hreg]
    simp [Registry.processing]
  have htree : s'.tree = s.tree := by rw [← hs', tree_doNotify]
  have hpending : ∀ d, s'.core.pending d = (s.core.eraseRunning i).pending d := fun d => by
    rw [hcore]
    rfl
  have hsent := fun B => sent_doNotify cfg (s.registry.nickname r.conn)
    (op.notification (s.registry.nickname r.conn))
    (s := { s with running := s.running.eraseIdx i }) hnodup B
  rw [hs'] at hsent
  refine ⟨hcounted, by rw [htree]; exact h.wellFormed, by rw [htree]; exact h.rootName,
    by rw [hproc, hnick]; exact h.distinct, by rw [hproc, hnick]; exact h.named, ?_⟩
  rw [hproc, hnick, htree]
  intro A hA B hB hne
  rw [hpending, hsent]
  have hsees := h.sees A hA B hB hne
  obtain ⟨before, after, herase, hall⟩ := Core.pending_erase (k := s.core) hi A
  rw [herase]
  by_cases hAc : r.conn = A
  · -- the announced change is the only one, and everybody else is told
    subst hAc
    have hother : s.registry.nickname B ≠ s.registry.nickname r.conn := fun heq =>
      hne (hsole B hB heq).symm
    rw [if_pos ⟨h.counted.counter_ne_one hA hB hne, hB, hother⟩]
    rw [hall, hop, if_pos rfl] at hsees
    obtain ⟨rfl, rfl⟩ : before = [] ∧ after = [] := by
      obtain ⟨root, -, -, -, hb⟩ := hsees
      exact hb.eq_nil
    exact sees_announced hop hsees
  · rw [hall, if_neg hAc, List.append_nil] at hsees
    have hnickA : s.registry.nickname r.conn ≠ s.registry.nickname A := fun heq =>
      hAc (hsole A hA heq.symm).symm
    split
    · exact sees_other hop hnickA hsees
    · exact hsees

/-! ## Registration -/

/-- A replica that was built from the list of files of a tree. -/
theorem sees_of_files (hroot : ∀ a ∈ cfg.PATH_ROOT, a = cfg.PATH_SEPARATOR_CHR)
    {sent : List Outgoing} {owner : Str} {tree : Node Char}
    (hwf : WellFormed cfg.PATH_SEPARATOR_CHR tree) (hname : tree.myName = cfg.PATH_ROOT)
    (h : replica cfg owner sent =
      addAll cfg.PATH_SEPARATOR_CHR (get cfg.PATH_SEPARATOR_CHR .FILE tree [])
        (new cfg.PATH_ROOT)) :
    Sees cfg sent owner tree [] := by
  rw [← hname] at hroot h
  obtain ⟨root, hadd, hrwf, hrname, hpaths⟩ := exists_addAll_files hwf hroot
  exact ⟨root, h.trans hadd, hrwf, hrname.trans hname, .done hpaths⟩

/-- The list in the notification of a registration is the list of files. -/
theorem getD_files (tree : Node Char) :
    (if tree.empty then none else some (getFiles cfg tree)).getD [] =
      get cfg.PATH_SEPARATOR_CHR .FILE tree [] := by
  split
  · next hempty =>
    rw [get_file, List.isEmpty_iff.mp hempty]
    rfl
  · rfl

theorem addFileSystem_of_not_mem {nickname : Str} {list : List Str → List Str}
    {files : List (Str × List Str)} (h : ∀ e ∈ files, e.1 ≠ nickname) :
    addFileSystem nickname list files = files ++ [(nickname, list [])] := by
  induction files with
  | nil => rfl
  | cons e files ih =>
    rw [addFileSystem, if_neg (h e List.mem_cons_self),
      ih fun d hd => h d (List.mem_cons_of_mem _ hd), List.cons_append]

/-- The snapshot of clients with distinct nicknames has one entry for each. -/
theorem fileSystemsOfUsers_eq {users : List ConnId}
    (h : (users.map s.registry.nickname).Nodup)
    (hnamed : ∀ c ∈ users, cString (s.registry.nickname c) = s.registry.nickname c) :
    fileSystemsOfUsers cfg s users = users.map fun c =>
      (s.registry.nickname c, get cfg.PATH_SEPARATOR_CHR .FILE (s.tree c) []) := by
  suffices hfold : ∀ files : List (Str × List Str),
      (∀ e ∈ files, ∀ c ∈ users, e.1 ≠ s.registry.nickname c) →
      users.foldl (fun files c => addFileSystem (cString (s.registry.nickname c))
        (get cfg.PATH_SEPARATOR_CHR .FILE (s.tree c)) files) files =
      files ++ users.map fun c =>
        (s.registry.nickname c, get cfg.PATH_SEPARATOR_CHR .FILE (s.tree c) []) from
    hfold [] fun _ he => absurd he List.not_mem_nil
  induction users with
  | nil => simp
  | cons c users ih =>
    intro files hfiles
    rw [List.map_cons, List.nodup_cons] at h
    rw [List.foldl_cons, hnamed c List.mem_cons_self,
      addFileSystem_of_not_mem fun e he => hfiles e he c List.mem_cons_self,
      ih h.2 fun d hd => hnamed d (List.mem_cons_of_mem _ hd)]
    · simp
    · intro e he d hd
      rcases List.mem_append.mp he with he | he
      · exact hfiles e he d (List.mem_cons_of_mem _ hd)
      · rw [List.mem_singleton.mp he]
        exact fun heq => h.1 (List.mem_map.mpr ⟨d, hd, heq.symm⟩)

theorem find?_fileSystemsOfUsers {users : List ConnId}
    (h : (users.map s.registry.nickname).Nodup)
    (hnamed : ∀ c ∈ users, cString (s.registry.nickname c) = s.registry.nickname c)
    {A : ConnId} (hA : A ∈ users) :
    (fileSystemsOfUsers cfg s users).find? (fun e => e.1 = s.registry.nickname A) =
      some (s.registry.nickname A, get cfg.PATH_SEPARATOR_CHR .FILE (s.tree A) []) := by
  rw [fileSystemsOfUsers_eq h hnamed]
  clear hnamed
  induction users with
  | nil => exact absurd hA List.not_mem_nil
  | cons c users ih =>
    rw [List.map_cons, List.nodup_cons] at h
    rw [List.map_cons, List.find?_cons]
    rcases List.mem_cons.mp hA with rfl | hA
    · simp
    · have hne : s.registry.nickname c ≠ s.registry.nickname A := fun heq =>
        h.1 (List.mem_map.mpr ⟨A, hA, heq.symm⟩)
      simp only [hne, decide_false]
      exact ih h.2 hA

/-- The messages of a registration while other clients are processing. -/
theorem sent_notifyFilesRegistration (cfg : Config) {c : ConnId}
    (hcount : s.registry.processingCounter ≠ 0) (hnodup : s.registry.processing.Nodup)
    (hc : c ∉ s.registry.processing) (d : ConnId) :
    (s.notifyFilesRegistration cfg c).sent d =
      if d = c then s.sent c ++ [.notification (.FILES_OF_OTHER_USERS
        (fileSystemsOfUsers cfg s s.registry.processing))]
      else if d ∈ s.registry.processing then
        s.sent d ++ [.notification (.USER_REGISTERED_FILES (s.registry.nickname c)
          (if (s.tree c).empty then none else some (getFiles cfg (s.tree c))))]
      else s.sent d := by
  unfold notifyFilesRegistration
  dsimp only
  rw [if_neg (by omega)]
  simp only [startWrite, Function.update_apply]
  by_cases hd : d = c
  · subst hd
    rw [if_pos rfl, if_pos rfl]
    exact congrArg₂ (· ++ ·) ((sent_broadcast cfg _ _ hnodup _ d).trans (if_neg hc)) rfl
  · rw [if_neg hd, if_neg hd]
    exact sent_broadcast cfg _ _ hnodup _ d

/-- A client registers. -/
theorem register (h : Consistent cfg s)
    (hroot : ∀ a ∈ cfg.PATH_ROOT, a = cfg.PATH_SEPARATOR_CHR) {i : Nat} {c : ConnId}
    (hi : s.running[i]? = some ⟨c, .notifyFilesRegistration⟩)
    (hmem : c ∈ s.registry.connections) (hc : c ∉ s.registry.processing)
    (hidle : s.core.pending c = [])
    (hnamed : cString (s.registry.nickname c) = s.registry.nickname c)
    (hothers : ∀ d ∈ s.registry.processing,
      s.registry.nickname d ≠ s.registry.nickname c ∧ s.core.pending d = [])
    (hcounted :
      ({ s with running := s.running.eraseIdx i }.notifyFilesRegistration cfg c).core.Counted) :
    Consistent cfg ({ s with running := s.running.eraseIdx i }.notifyFilesRegistration cfg c) := by
  have hnodup : s.registry.processing.Nodup := h.counted.base.nodup.filter _
  have hnames : (s.registry.processing.map s.registry.nickname).Nodup :=
    List.Nodup.map_on (fun A hA B hB heq => h.distinct A hA B hB heq) hnodup
  have hsent := sent_notifyFilesRegistration cfg (s := { s with running := s.running.eraseIdx i })
    (c := c)
  have htree := tree_notifyFilesRegistration cfg c { s with running := s.running.eraseIdx i }
  obtain ⟨n, hcore⟩ :=
    core_notifyFilesRegistration cfg c { s with running := s.running.eraseIdx i }
  generalize ({ s with running := s.running.eraseIdx i } : Server).notifyFilesRegistration cfg c
    = s' at hcounted hsent htree hcore ⊢
  have hreg : s'.registry = s.registry.register cfg c n := congrArg Core.registry hcore
  have hnick : s'.registry.nickname = s.registry.nickname := by
    rw [hreg, Registry.nickname_register]
  have hproc : ∀ d, d ∈ s'.registry.processing → d = c ∨ d ∈ s.registry.processing := fun d hd =>
    Registry.mem_processing_register (hreg ▸ hd)
  have hpending : ∀ d, s'.core.pending d = s.core.pending d := fun d => by
    rw [hcore]
    exact Core.pending_erase_of_none (k := s.core) hi rfl d
  refine ⟨hcounted, by rw [htree]; exact h.wellFormed, by rw [htree]; exact h.rootName, ?_, ?_,
    ?_⟩
  · rw [hnick]
    intro A hA B hB heq
    rcases hproc A hA with rfl | hA' <;> rcases hproc B hB with rfl | hB'
    · rfl
    · exact absurd heq.symm (hothers B hB').1
    · exact absurd heq (hothers A hA').1
    · exact h.distinct A hA' B hB' heq
  · rw [hnick]
    intro A hA
    rcases hproc A hA with rfl | hA'
    · exact hnamed
    · exact h.named A hA'
  · intro A hA B hB hne
    rw [hnick, htree, hpending]
    -- somebody else is processing, so the others are told and the client gets its snapshot
    have hcount : s.registry.processingCounter ≠ 0 := by
      rcases hproc A hA with rfl | hA'
      · exact h.counted.counter_ne_zero ((hproc B hB).resolve_left hne.symm)
      · exact h.counted.counter_ne_zero hA'
    have hsent' := hsent hcount hnodup hc B
    rcases hproc B hB with rfl | hB'
    · have hA' := (hproc A hA).resolve_left hne
      rw [(hothers A hA').2]
      refine sees_of_files hroot (h.wellFormed A) (h.rootName A) ?_
      rw [if_pos rfl] at hsent'
      rw [hsent', replica_append, replicaStep,
        show _ = some (s.registry.nickname A, _) from find?_fileSystemsOfUsers
          (s := { s with running := s.running.eraseIdx i }) hnames h.named hA']
    · have hBc : B ≠ c := fun hBc => hc (hBc ▸ hB')
      rw [if_neg hBc, if_pos hB'] at hsent'
      rw [hsent']
      rcases hproc A hA with rfl | hA'
      · rw [hidle]
        refine sees_of_files hroot (h.wellFormed A) (h.rootName A) ?_
        rw [replica_append, replicaStep, if_pos rfl, getD_files]
      · obtain ⟨root, hrep, hrest⟩ := h.sees A hA' B hB' hne
        refine ⟨root, ?_, hrest⟩
        rw [replica_append, replicaStep, if_neg (hothers A hA').1.symm]
        exact hrep

/-- Every step that keeps the views. -/
theorem step (h : Consistent cfg s)
    (hroot : ∀ a ∈ cfg.PATH_ROOT, a = cfg.PATH_SEPARATOR_CHR) {e : Event}
    (hkeep : s.KeepsViews cfg e) (hstep : s.step cfg e = some s') : Consistent cfg s' := by
  have hcore := step_core hstep
  have hcounted := h.counted.step hkeep.1 hcore
  -- a login is stored on no processing connection
  have hnick : ∀ c ∈ s.registry.processing, s'.registry.nickname c = s.registry.nickname c := by
    intro c hc
    rcases Core.nickname_step hcore c with hsame | ⟨i, code, id, login, rfl, hi, -⟩
    · exact hsame
    · obtain ⟨hmem, hst⟩ := Registry.mem_processing.mp hc
      exact absurd hst (hkeep.1 _ hi hmem)
  have hfile := step_files hstep
  cases hfile with
  | quiet hfiles hpending hreg =>
    have hproc := h.counted.base.processing_step hcore hreg
    exact h.quiet hcounted hproc (fun c hc => hnick c (hproc c hc)) hfiles hpending
  | @change i _ _ t op root _ ht hop happly hfiles hpending =>
    have hproc := h.counted.base.processing_step hcore fun _ he => by simp at he
    have hreq := hkeep.2 t ht
    have hcond : op.KeepsNames cfg.PATH_SEPARATOR_CHR (s.tree t.conn) ∧
        (t.conn ∈ s.registry.processing → s.core.pending t.conn = []) := by
      obtain ⟨priority, c, request⟩ := t
      cases request with
      | pushFiles => simp [Request.change] at hop
      | _ => exact hreq op hop
    exact h.change hcounted hproc (fun c hc => hnick c (hproc c hc)) happly hcond.1 hcond.2 hfiles
      hpending
  | @push i _ _ t id paths root _ ht hrequest hadd hfiles hpending =>
    have hproc := h.counted.base.processing_step hcore fun _ he => by simp at he
    have hreq := hkeep.2 t ht
    rw [hrequest] at hreq
    exact h.push hcounted hproc (fun c hc => hnick c (hproc c hc)) hadd hreq.1 hreq.2 hfiles
      hpending
  | @register i c hi =>
    obtain ⟨hs, hst⟩ := hkeep.1 _ hi
    obtain ⟨hidle, hnamed, hothers⟩ := hkeep.2 _ hi
    have hmem := h.counted.base.mem_of_alive (Or.inr ⟨_, List.mem_of_getElem? hi, rfl⟩) hs
    exact h.register hroot hi hmem (fun hc => hst (Registry.mem_processing.mp hc).2) hidle hnamed
      hothers hcounted
  | @notify i r op hi hop =>
    have hhandler := hkeep.2 r hi
    refine h.notify hi hop ?_ hcounted
    obtain ⟨c, rest⟩ := r
    cases rest with
    | notifyFileAdd => exact hhandler
    | notifyPathRemoved => exact hhandler
    | notifyPathRenamed => exact hhandler
    | _ => simp [Continuation.change] at hop

end Consistent

theorem consistent_initial (cfg : Config) (users : List (Str × Str)) :
    Consistent cfg (Server.initial cfg users) where
  counted := Core.counted_initial cfg users
  wellFormed _ := wellFormed_new _ _
  rootName _ := rfl
  distinct _ hA := absurd hA List.not_mem_nil
  named _ hA := absurd hA List.not_mem_nil
  sees _ hA := absurd hA List.not_mem_nil

/-- The handlers of the requests that change files, between their two steps. -/
def Continuation.isMidway : Continuation → Bool
  | .notifyFilesRegistration | .notifyFileAdd _ | .notifyPathRemoved _ | .notifyPathRenamed .. =>
    true
  | _ => false

/-- In every run whose steps keep the views, in every state with no handler between
its two steps, the replica that a processing client has of the files of another
one lists the same files as its tree. -/
theorem replica_lists_files {cfg : Config} {users : List (Str × Str)} {s : Server}
    (hroot : ∀ a ∈ cfg.PATH_ROOT, a = cfg.PATH_SEPARATOR_CHR)
    (h : Reach (Server.step cfg) (Server.KeepsViews cfg) (Server.initial cfg users) s)
    (hidle : ∀ r ∈ s.running, r.rest.isMidway = false) {A B : ConnId}
    (hA : A ∈ s.registry.processing) (hB : B ∈ s.registry.processing) (hne : A ≠ B) :
    ∃ root, replica cfg (s.registry.nickname A) (s.sent B) = some root ∧
      ∀ text, text ∈ get cfg.PATH_SEPARATOR_CHR .FILE root [] ↔
        text ∈ get cfg.PATH_SEPARATOR_CHR .FILE (s.tree A) [] := by
  have hcons : Consistent cfg s :=
    h.invariant (consistent_initial cfg users) fun _ _ _ hs hk hst => hs.step hroot hk hst
  have hpending : s.core.pending A = [] := by
    refine List.filterMap_eq_nil_iff.mpr fun r hr => ?_
    have hr' := hidle r hr
    obtain ⟨c, rest⟩ := r
    cases rest <;> simp_all [Continuation.isMidway, Continuation.change]
  obtain ⟨root, hrep, hwf, hname, hb⟩ := hcons.sees A hA B hB hne
  rw [hpending] at hb
  cases hb with
  | done hpaths =>
    exact ⟨root, hrep, mem_get_of_paths_eq (hcons.wellFormed A).uniq hwf.uniq
      (hname.trans (hcons.rootName A).symm) hpaths .FILE⟩

open Server.Event in
/-- A client with the file `f` adds `g` and removes `f` while another one is
processing. -/
theorem replica_lists_files_after_changes :
    (∀ a ∈ sampleConfig.PATH_ROOT, a = sampleConfig.PATH_SEPARATOR_CHR) ∧
    ∃ s, Reach (Server.step sampleConfig) (Server.KeepsViews sampleConfig)
        (Server.initial sampleConfig []) s ∧
      s.running = [] ∧ s.registry.processing = [1, 0] ∧
      get '/' .FILE (s.tree 0) [] = [['/', 'g']] ∧
      ∃ root, replica sampleConfig (s.registry.nickname 0) (s.sent 1) = some root ∧
        ∀ text, text ∈ get '/' .FILE root [] ↔ text ∈ get '/' .FILE (s.tree 0) [] := by
  obtain ⟨s, hs, hrunning, hprocessing, hfiles⟩ := exists_reach_of_exec_guarded
    (Server.step sampleConfig) (Server.KeepsViews sampleConfig) (Server.initial sampleConfig [])
    (fun s => s.running = [] ∧ s.registry.processing = [1, 0] ∧
      get '/' .FILE (s.tree 0) [] = [['/', 'g']])
    ([.accept 0, .accept 0] ++ login 0 ['a'] ++ login 1 ['b'] ++ register 0 [['f']] ++
      register 1 [] ++ [readQuerry 0 ['a'] ['g'] [], executeFirst, .resume 0,
        readQuerry 0 ['r'] ['f'] [], executeFirst, .resume 0]) (by decide +kernel)
  have hroot : ∀ a ∈ sampleConfig.PATH_ROOT, a = sampleConfig.PATH_SEPARATOR_CHR := by
    simp [sampleConfig]
  refine ⟨hroot, s, hs, hrunning, hprocessing, hfiles, ?_⟩
  exact replica_lists_files hroot hs (by simp [hrunning]) (by simp [hprocessing])
    (by simp [hprocessing]) (by decide)

open Server.Event in
/-- A client registers between an `Add` of another one and its announcement: it is
given the file in its snapshot and told of it again, and adds it twice. -/
theorem registration_between_steps_adds_twice :
    ∃ s, Reach (Server.step sampleConfig) anyStep (Server.initial sampleConfig []) s ∧
      (∀ r ∈ s.running, r.rest.isMidway = false) ∧
      0 ∈ s.registry.processing ∧ 1 ∈ s.registry.processing ∧
      ¬ ∃ root, replica sampleConfig (s.registry.nickname 0) (s.sent 1) = some root ∧
        ∀ text, text ∈ get '/' .FILE root [] ↔ text ∈ get '/' .FILE (s.tree 0) [] := by
  obtain ⟨s, hs, hrunning, hprocessing, hfiles, hreplica⟩ := exists_reach_of_exec
    (Server.step sampleConfig) (Server.initial sampleConfig [])
    (fun s => s.running = [] ∧ s.registry.processing = [1, 0] ∧
      get '/' .FILE (s.tree 0) [] = [['/', 'f']] ∧
      (replica sampleConfig (s.registry.nickname 0) (s.sent 1)).map (get '/' .FILE · []) =
        some [['/', 'f', '/', 'f']])
    ([.accept 0, .accept 0] ++ login 0 ['a'] ++ login 1 ['b'] ++ register 0 [] ++
      [readQuerry 0 ['a'] ['f'] [], executeFirst, readPushFiles 1 [], executeFirst, .resume 1,
        .resume 0]) (by decide +kernel)
  refine ⟨s, hs, by simp [hrunning], by simp [hprocessing], by simp [hprocessing], ?_⟩
  rintro ⟨root, hroot, hsame⟩
  rw [hroot, Option.map_some, Option.some.injEq] at hreplica
  have htext := (hsame ['/', 'f']).mpr (by simp [hfiles])
  rw [hreplica] at htext
  exact absurd htext (by decide)

end FspServer
