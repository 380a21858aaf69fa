import FspServer.Lib.Lexical
import FspServer.Step
import FspServer.StoragePaths
import FspServer.WindowsPaths

/-!
# Confinement of the local storage

The local files of a client are to lie in the directory that has its nickname, a child
of the server's working directory. Nicknames and paths come from clients and are not
checked: a nickname may be `..` or hold separators, `..` is a name like any other for
the tree, and so is a name with the separator of Windows that is not the protocol's.

`Confined` says of the local paths that the server makes for one request path that
they lie in that directory after `.` and `..` are resolved. `confined_iff` says
exactly when this is so.
-/

namespace FspServer

open Node RepresentationLemmas CacheLemmas

def dots : Lexical.Dots Str := ⟨['.'], ['.', '.'], by decide⟩

/-- What is left of a path after lexical resolution, from the working directory. -/
def resolvePath (p : Disk.Path Str) : Option (List Str) :=
  if p.absolute then none else Lexical.resolve dots p.components

/-- The path lies in the directory, a child of the working directory. -/
def InDirectory (nickname : Str) (p : Disk.Path Str) : Prop :=
  ∃ rest, resolvePath p = some (nickname :: rest)

/-- The local paths that a call of the file system is given. `Rename` appends the file
name to the old path. -/
def DiskOp.localPaths (fileName : Str) : DiskOp Char → List Str
  | .remove localPath => [localPath]
  | .rename oldLocalPath _ => [oldLocalPath, Windows.append oldLocalPath fileName]

/-- Every local path that the server makes for a client and a path of its tree lies in
the client's directory, which is a child of the working directory. -/
structure Confined (sep : Char) (nickname path newPath : Str) (root : Node Char) : Prop where
  /-- `remove_all` of the nickname. -/
  removedAll : resolvePath (Windows.path nickname) = some [nickname]
  /-- The directories that `create_directories` makes and the file that is created and
  opened. -/
  created : ∀ p, p <+: (Windows.path (storagePath nickname path)).components → p ≠ [] →
    InDirectory nickname ⟨(Windows.path (storagePath nickname path)).absolute, p⟩
  /-- The file that `~Node` removes. -/
  removed : ∀ text ∈ foundLocalPath sep nickname path root,
    InDirectory nickname (Windows.path text)
  /-- The two paths that `Rename` gives to the file system. -/
  renamed : ∀ op ∈ (rename sep nickname path newPath root).2.2,
    ∀ text ∈ op.localPaths (filename sep newPath), InDirectory nickname (Windows.path text)

/-- The nickname is one name, what is read of the path starts with a separator, and no
`..` of the path leads out of its start. The new file name of a cached node has no root,
and from the nickname over the path it leads to a place below the nickname. -/
def KeepsInside (sep : Char) (nickname path newPath : Str) (root : Node Char) : Prop :=
  (Windows.Plain nickname ∧ dots.Names nickname) ∧
    Windows.Opens path ∧ Lexical.Grounded dots (Windows.components path) ∧
    (find sep path root = some true → filename sep newPath ≠ [] →
      Windows.hasRoot (filename sep newPath) = false ∧ Lexical.Inside dots nickname
        (nickname :: Windows.components (path ++ '\\' :: filename sep newPath)))

instance (sep : Char) (nickname path newPath : Str) (root : Node Char) :
    Decidable (KeepsInside sep nickname path newPath root) :=
  inferInstanceAs (Decidable (_ ∧ _ ∧ _ ∧ (_ → _ → _)))

section

variable {sep : Char} {nickname path newPath : Str} {root : Node Char}

theorem inDirectory_iff {components : List Str} :
    InDirectory nickname ⟨false, components⟩ ↔ Lexical.Inside dots nickname components := by
  simp [InDirectory, Lexical.Inside, resolvePath]

theorem not_inDirectory_of_rooted {text : Str} (h : Windows.rooted text = true) :
    ¬ InDirectory nickname (Windows.path text) := by
  rintro ⟨rest, hrest⟩
  simp [resolvePath, Windows.path, h] at hrest

/-- Only a nickname that is one name is its own directory. -/
theorem resolvePath_nickname_iff : resolvePath (Windows.path nickname) = some [nickname] ↔
    Windows.Plain nickname ∧ dots.Names nickname := by
  constructor
  · intro h
    cases hroot : Windows.rooted nickname with
    | true => simp [resolvePath, Windows.path, hroot] at h
    | false =>
      have hresolve : Lexical.resolve dots (Windows.components nickname) = some [nickname] := by
        simpa [resolvePath, Windows.path, hroot] using h
      obtain ⟨hmem, hnames⟩ := Lexical.mem_of_resolve hresolve List.mem_cons_self
      exact ⟨Windows.plain_of_mem_components hmem hroot, hnames⟩
  · rintro ⟨hplain, hnames⟩
    have hpath := hplain.path_append Windows.opens_nil
    rw [List.append_nil] at hpath
    simp [hpath, resolvePath, Lexical.resolve_name_cons hnames, Windows.components_nil,
      Lexical.walk]

/-- The calls that `Rename` makes. -/
theorem mem_rename {op : DiskOp Char} : op ∈ (rename sep nickname path newPath root).2.2 ↔
    ∃ text, foundLocalPath sep nickname path root = some text ∧ find sep path root = some true ∧
      filename sep newPath ≠ [] ∧
      op = .rename text (newLocalPath sep text (filename sep newPath)) := by
  rw [foundLocalPath_spec]
  unfold rename find
  cases doFindNode sep path root with
  | none => simp
  | some n =>
    by_cases hfile : filename sep newPath = []
    · simp [hfile]
    · cases hcached : n.cached <;> simp [hfile, hcached]

/-- A file name with a root names no path in the working directory. -/
theorem rooted_of_hasRoot {fileName : Str} (h : Windows.hasRoot fileName = true) :
    Windows.rooted fileName = true := by
  have slashed : ∀ (c : Char) (rest : Str), Windows.slash c = '/' →
      Windows.rooted (c :: rest) = true := by
    intro c rest hc
    simp [Windows.rooted, Windows.readText_cons hc]
  rcases fileName with _ | ⟨c, _ | ⟨d, rest⟩⟩
  · exact absurd h Bool.false_ne_true
  · exact slashed c [] (by simpa [Windows.hasRoot] using h)
  · rcases Bool.or_eq_true_iff.mp h with hslash | hdrive
    · exact slashed c _ (by simpa using hslash)
    · obtain ⟨halpha, hcolon⟩ := Bool.and_eq_true_iff.mp hdrive
      obtain rfl : d = ':' := by simpa using hcolon
      have hne : ∀ x : Char, x.isAlpha = false → c ≠ x := by
        rintro x hx rfl
        simp [hx] at halpha
      have hnull : Char.ofNat 0 ∉ [c, ':'] := by
        simpa using (hne (Char.ofNat 0) (by decide)).symm
      have hread := Windows.readText_append (b := rest) hnull
      have hc : Windows.slash c = c := Windows.slash_eq_self (hne '\\' (by decide))
      have hcolon : Windows.slash ':' = ':' := by decide
      have hfirst : c ≠ '/' := hne '/' (by decide)
      simp only [List.cons_append, List.nil_append, List.map_cons, List.map_nil, hc, hcolon]
        at hread
      simp [Windows.rooted, hread, hfirst]

variable (hplain : Windows.Plain nickname) (hnames : dots.Names nickname)

include hplain hnames

/-- The storage path of a path that starts with a separator. -/
theorem created_iff (hopens : Windows.Opens path) :
    (∀ p, p <+: (Windows.path (storagePath nickname path)).components → p ≠ [] →
      InDirectory nickname ⟨(Windows.path (storagePath nickname path)).absolute, p⟩) ↔
      Lexical.Grounded dots (Windows.components path) := by
  rw [storagePath, hplain.path_append hopens, ← Lexical.forall_inside_iff hnames]
  simp only [inDirectory_iff]
  rw [Lexical.forall_prefix_cons]
  simp

omit hnames in
/-- `LocalPathToMe` names the file under which the path is stored. -/
theorem path_foundLocalPath (hsep : Windows.slash sep = '/') {text : Str}
    (htext : foundLocalPath sep nickname path root = some text) :
    Windows.path text = ⟨false, nickname :: Windows.components path⟩ := by
  have hopens : Windows.Opens (Windows.joined sep (getComponents sep path) ++ []) :=
    Windows.opens_joined hsep fun _ => Windows.opens_nil
  have hcomponents := Windows.components_joined hsep Windows.opens_nil path
  rw [List.append_nil] at hopens hcomponents
  rw [List.append_nil] at hcomponents
  rw [foundLocalPath_eq htext, ← hcomponents]
  exact hplain.path_append hopens

omit hnames in
/-- The new local path of a file. -/
theorem path_append_foundLocalPath (hsep : Windows.slash sep = '/') {text fileName : Str}
    (htext : foundLocalPath sep nickname path root = some text)
    (hne : getComponents sep path ≠ []) (hroot : Windows.hasRoot fileName = false) :
    Windows.path (Windows.append text fileName) =
      ⟨false, nickname :: Windows.components (path ++ '\\' :: fileName)⟩ := by
  have hjoined : Windows.joined sep (getComponents sep path) ≠ [] := by
    simpa [Windows.joined, List.flatMap_eq_nil_iff] using List.exists_mem_of_ne_nil _ hne
  have hopens : Windows.Opens
      (Windows.append (Windows.joined sep (getComponents sep path)) fileName) := by
    obtain ⟨rest, hrest⟩ := Windows.exists_append_eq hroot
    rw [hrest]
    exact Windows.opens_joined hsep fun hnil => absurd hnil hne
  have hname : Windows.Opens ('\\' :: fileName) := Windows.opens_cons rfl
  have hcomponents := Windows.components_joined hsep hname path
  rw [foundLocalPath_eq htext, ← hcomponents, ← Windows.components_append_fileName hroot]
  exact (congrArg Windows.path (Windows.append_append hroot hjoined)).trans
    (hplain.path_append hopens)

end

/-- The separator of the protocol is one of the two of Windows. For every nickname, tree
and path that `Find` accepts, and every new path: the local paths that the server makes
lie in the directory of the client exactly when the nickname is one name, what is read
of the path starts with a separator, and no `..` leads out. -/
theorem confined_iff (sep : Char) (nickname path newPath : Str) (root : Node Char)
    (hsep : Windows.slash sep = '/') (hfound : (find sep path root).isSome) :
    Confined sep nickname path newPath root ↔ KeepsInside sep nickname path newPath root := by
  obtain ⟨cached, hfind⟩ := Option.isSome_iff_exists.mp hfound
  obtain ⟨n, hn, -⟩ := Option.map_eq_some_iff.mp hfind
  have hne : getComponents sep path ≠ [] := (doFindNode_some hn).1
  have hlocal := foundLocalPath_spec sep nickname path root
  rw [hn, Option.map_some] at hlocal
  constructor
  · intro h
    obtain ⟨hplain, hnames⟩ := resolvePath_nickname_iff.mp h.removedAll
    have hopens : Windows.Opens path := by
      by_contra hopens
      obtain ⟨first, rest, hfirst, hcomponents⟩ := hplain.exists_components hopens
      obtain ⟨below, hbelow⟩ := h.created [nickname ++ first]
        (by simp [Windows.path, storagePath, hcomponents]) (List.cons_ne_nil _ _)
      have hinside : Lexical.Inside dots nickname [nickname ++ first] :=
        ⟨below, (Option.ite_none_left_eq_some.mp hbelow).2⟩
      exact hfirst (by simpa using (Lexical.eq_of_inside_singleton hinside).1)
    refine ⟨⟨hplain, hnames⟩, hopens, (created_iff hplain hnames hopens).mp h.created,
      fun hcached hfile => ?_⟩
    have hnew := h.renamed _ (mem_rename.mpr ⟨_, hlocal, hcached, hfile, rfl⟩) _
      (List.mem_cons_of_mem _ List.mem_cons_self)
    cases hroot : Windows.hasRoot (filename sep newPath) with
    | true =>
      rw [Windows.append, if_pos hroot] at hnew
      exact absurd hnew (not_inDirectory_of_rooted (rooted_of_hasRoot hroot))
    | false =>
      rw [path_append_foundLocalPath hplain hsep hlocal hne hroot] at hnew
      exact ⟨rfl, inDirectory_iff.mp hnew⟩
  · rintro ⟨⟨hplain, hnames⟩, hopens, hgrounded, hrenamed⟩
    have hremoved : ∀ text ∈ foundLocalPath sep nickname path root,
        InDirectory nickname (Windows.path text) := by
      intro text htext
      rw [path_foundLocalPath hplain hsep htext, inDirectory_iff]
      exact hgrounded.inside hnames
    refine ⟨resolvePath_nickname_iff.mpr ⟨hplain, hnames⟩,
      (created_iff hplain hnames hopens).mpr hgrounded, hremoved, fun op hop => ?_⟩
    obtain ⟨text, htext, hcached, hfile, rfl⟩ := mem_rename.mp hop
    obtain ⟨hroot, hinside⟩ := hrenamed hcached hfile
    refine List.forall_mem_cons.mpr ⟨hremoved text htext, List.forall_mem_singleton.mpr ?_⟩
    rw [path_append_foundLocalPath hplain hsep htext hne hroot, inDirectory_iff]
    exact hinside

/-- The tree of a client with the cached file `d/f`. -/
def cachedFile : Node Char := .mk ['/'] false [.mk ['d'] false [.mk ['f'] true []]]

/-- The client `a`, and `/d/f` renamed to `/d/g`. -/
theorem confined_cachedFile :
    KeepsInside '/' ['a'] ['/', 'd', '/', 'f'] ['/', 'd', '/', 'g'] cachedFile ∧
      Confined '/' ['a'] ['/', 'd', '/', 'f'] ['/', 'd', '/', 'g'] cachedFile := by
  have hkeeps : KeepsInside '/' ['a'] ['/', 'd', '/', 'f'] ['/', 'd', '/', 'g'] cachedFile := by
    decide +kernel
  exact ⟨hkeeps, (confined_iff '/' _ _ _ cachedFile rfl (by decide +kernel)).mpr hkeeps⟩

open Runs Server.Event in
/-- A client registers as `a` with the file `/../b`, which is stored as `b` beside the
directory of `a`. Another one signs up as `..`, and `remove_all` of that nickname
removes the directory above the working directory. -/
theorem registered_outside :
    ∃ s, Reach (Server.step sampleConfig) anyStep (Server.initial sampleConfig []) s ∧
      s.registry.nickname 0 = ['a'] ∧ s.registry.nickname 1 = ['.', '.'] ∧
      (find '/' ['/', '.', '.', '/', 'b'] (s.tree 0)).isSome ∧
      resolvePath (Windows.path (storagePath ['a'] ['/', '.', '.', '/', 'b'])) = some [['b']] ∧
      (∀ newPath, ¬ Confined '/' ['a'] ['/', '.', '.', '/', 'b'] newPath (s.tree 0)) ∧
      resolvePath (Windows.path ['.', '.']) = none := by
  obtain ⟨s, hs, hfirst, hsecond, hfound⟩ := exists_reach_of_exec (Server.step sampleConfig)
    (Server.initial sampleConfig [])
    (fun s => s.registry.nickname 0 = ['a'] ∧ s.registry.nickname 1 = ['.', '.'] ∧
      (find '/' ['/', '.', '.', '/', 'b'] (s.tree 0)).isSome)
    ([.accept 0, .accept 0] ++ login 0 ['a'] ++ login 1 ['.', '.'] ++
      register 0 [['/', '.', '.', '/', 'b']]) (by decide +kernel)
  have hresolve : resolvePath (Windows.path (storagePath ['a'] ['/', '.', '.', '/', 'b'])) =
      some [['b']] := by decide +kernel
  refine ⟨s, hs, hfirst, hsecond, hfound, hresolve, fun newPath h => ?_, by decide +kernel⟩
  obtain ⟨rest, hrest⟩ := h.created _ (List.prefix_refl _) (by decide +kernel)
  have hb : some [['b']] = some (['a'] :: rest) := hresolve.symm.trans hrest
  simp at hb

end FspServer
