import FspServer.RepresentationInvariant
import FspServer.Lib.Disk

/-!
# Cache coherence

A node whose `Cached_` flag is set stands for a file in the server's local
storage, at the path `LocalPathToMe` computes. This module runs the owner's
tree together with the disk: the owner's `Add`, `Remove` and `Rename`, and
downloads that complete (the file is written at `FileOwner ++ FilePath`, then
`SetFileToCached` sets the flag).

`Rename` moves the local file of a cached node to a path below itself, which
always fails, and moves nothing when a directory above a cached node is
renamed; a download is written where the text of the request says. Coherence
holds in every run that avoids these (`CacheEvent.KeepsCache`).
-/

namespace FspServer

open Runs Node

variable {χ : Type}

/-! ## The files of a tree -/

namespace Node

mutual
/-- The local paths of the cached nodes of a subtree, its root first. -/
def localFiles (sep : χ) (owner : List χ) : List (List χ) → Node χ → List (List χ)
  | above, .mk n c cs =>
    (if c then [localPathToMe sep owner above n []] else []) ++
      localFilesAll sep owner (n :: above) cs

def localFilesAll (sep : χ) (owner : List χ) : List (List χ) → List (Node χ) → List (List χ)
  | _, [] => []
  | above, c :: cs => localFiles sep owner above c ++ localFilesAll sep owner above cs
end

/-- The local paths of the cached nodes of a tree. The root's name is on no path. -/
def cachedFiles (sep : χ) (owner : List χ) (root : Node χ) : List (List χ) :=
  (if root.cached then [localPathToMe sep owner [] root.myName []] else []) ++
    localFilesAll sep owner [] root.myChildrens

mutual
/-- Destroying a subtree removes the files of its cached nodes. -/
theorem destroy_eq (sep : χ) (owner : List χ) (above : List (List χ)) (n : Node χ) :
    destroy sep owner above n = (localFiles sep owner above n).map .remove := by
  match n with
  | .mk name c cs =>
    simp only [destroy, localFiles, destroyAll_eq, List.map_append]
    cases c <;> simp

theorem destroyAll_eq (sep : χ) (owner : List χ) (above : List (List χ)) (cs : List (Node χ)) :
    destroyAll sep owner above cs = (localFilesAll sep owner above cs).map .remove := by
  match cs with
  | [] => rfl
  | c :: cs => simp [destroyAll, localFilesAll, destroy_eq, destroyAll_eq]
end

theorem mem_localFilesAll {sep : χ} {owner : List χ} {above : List (List χ)}
    {cs : List (Node χ)} {text : List χ} :
    text ∈ localFilesAll sep owner above cs ↔ ∃ c ∈ cs, text ∈ localFiles sep owner above c := by
  induction cs with
  | nil => simp [localFilesAll]
  | cons c cs ih => simp [localFilesAll, ih]

theorem head?_append_cons (owner : List χ) (sep : χ) (b : List χ) :
    (owner ++ sep :: b).head? = (owner ++ [sep]).head? := by
  cases owner <;> rfl

theorem parentWalk_eq (sep : χ) (above : List (List χ)) (path : List χ) :
    (parentWalk sep above path).reverse =
      above.reverse.flatMap (· ++ [sep]) ++ path.reverse := by
  induction above generalizing path with
  | nil => rfl
  | cons name above ih =>
    rw [parentWalk, List.foldl_cons, ← parentWalk, ih]
    simp

theorem localPathToMe_eq (sep : χ) (owner : List χ) (above : List (List χ)) (name : List χ) :
    localPathToMe sep owner above name [] =
      owner ++ sep :: (above.reverse.flatMap (· ++ [sep]) ++ name) := by
  simp [localPathToMe, parentWalk_eq]

variable [DecidableEq χ]

/-- The file that a text names. -/
def diskPath (sep : χ) (text : List χ) : Disk.Path (List χ) :=
  ⟨text.head? = some sep, getComponents sep text⟩

/-- Where the file of the node with the components `p` belongs. -/
def filePath (sep : χ) (owner : List χ) (p : List (List χ)) : Disk.Path (List χ) :=
  ⟨(owner ++ [sep]).head? = some sep, getComponents sep owner ++ p⟩

theorem filePath_injective {sep : χ} {owner : List χ} {p q : List (List χ)}
    (h : filePath sep owner p = filePath sep owner q) : p = q := by
  simpa [filePath] using h

/-- `LocalPathToMe` names the file that belongs to the node. -/
theorem diskPath_localPathToMe {sep : χ} (owner : List χ) {above : List (List χ)}
    {name : List χ} (habove : ∀ y ∈ above, GoodName sep y) (hname : GoodName sep name) :
    diskPath sep (localPathToMe sep owner above name []) =
      filePath sep owner (above.reverse ++ [name]) := by
  rw [localPathToMe_eq, diskPath, filePath, head?_append_cons, getComponents_append_cons,
    getComponents_flatMap (fun y hy => habove y (List.mem_reverse.mp hy)),
    getComponents_of_goodName hname]

/-- A request that starts with the separator, or whose owner's name ends with
it, is written where the file belongs. -/
theorem diskPath_append {sep : χ} {owner path : List χ}
    (h : path.head? = some sep ∨ owner.getLast? = some sep) :
    diskPath sep (owner ++ path) = filePath sep owner (getComponents sep path) := by
  rcases h with h | h
  · obtain ⟨rest, rfl⟩ : ∃ rest, path = sep :: rest := by
      cases path with
      | nil => simp at h
      | cons c rest => exact ⟨rest, by simpa using h⟩
    rw [diskPath, filePath, head?_append_cons, getComponents_append_cons, getComponents_cons_sep]
  · obtain ⟨o, rfl⟩ : ∃ o, owner = o ++ [sep] := List.getLast?_eq_some_iff.mp h
    rw [diskPath, filePath, List.append_assoc, List.append_assoc, List.singleton_append,
      List.singleton_append, getComponents_append_cons, getComponents_append_cons,
      getComponents_nil, head?_append_cons o sep path, head?_append_cons o sep [sep],
      List.append_nil]

theorem mem_marked_child {n c : Node χ} {m : Bool → Prop} (h : n.Uniq)
    (hc : c ∈ n.myChildrens) {q : List (List χ)} (hq : q ∈ c.marked m) :
    c.myName :: q ∈ n.marked m :=
  cons_mem_marked.mpr ⟨c, (getChildren_eq_some_iff h).mpr ⟨hc, rfl⟩, hq⟩

/-- Every local path of a subtree belongs to one of its cached nodes. -/
theorem exists_marked_of_mem_localFiles {sep : χ} {owner : List χ} {n : Node χ} (h : n.Uniq)
    (hnamed : n.Named sep) (hname : GoodName sep n.myName) {above : List (List χ)}
    (habove : ∀ y ∈ above, GoodName sep y) {text : List χ}
    (ht : text ∈ localFiles sep owner above n) :
    ∃ q ∈ n.marked (· = true),
      diskPath sep text = filePath sep owner (above.reverse ++ n.myName :: q) := by
  induction h generalizing above with
  | @mk name b cs hnodup hcs ih =>
    rw [localFiles, List.mem_append] at ht
    rcases ht with ht | ht
    · cases b with
      | false => simp at ht
      | true =>
        obtain rfl : text = _ := by simpa using ht
        exact ⟨[], by simp [cached], diskPath_localPathToMe owner habove hname⟩
    · obtain ⟨c, hc, hct⟩ := mem_localFilesAll.mp ht
      obtain ⟨hgood, hdeep⟩ := named_iff.mp hnamed
      obtain ⟨q, hq, hqt⟩ := ih c hc (hdeep c hc) (hgood c hc)
        (List.forall_mem_cons.mpr ⟨hname, habove⟩) hct
      exact ⟨c.myName :: q, mem_marked_child (.mk hnodup hcs) hc hq, by simpa [myName] using hqt⟩

/-- A cached node has a local path. -/
theorem localFiles_ne_nil {sep : χ} {owner : List χ} {n : Node χ} {q : List (List χ)}
    (hq : q ∈ n.marked (· = true)) (above : List (List χ)) :
    localFiles sep owner above n ≠ [] := by
  induction q generalizing n above with
  | nil =>
    obtain ⟨name, b, cs⟩ := n
    obtain rfl : b = true := by simpa [cached] using hq
    simp [localFiles]
  | cons x q ih =>
    obtain ⟨c, hc, hqc⟩ := cons_mem_marked.mp hq
    obtain ⟨text, htext⟩ := List.exists_mem_of_ne_nil _ (ih hqc (n.myName :: above))
    obtain ⟨name, b, cs⟩ := n
    have hmem : text ∈ localFilesAll sep owner (name :: above) cs :=
      mem_localFilesAll.mpr ⟨c, (getChildren_some hc).1, htext⟩
    intro hnil
    rw [localFiles, List.append_eq_nil_iff] at hnil
    rw [hnil.2] at hmem
    exact absurd hmem List.not_mem_nil

theorem doFindPath_append (n : Node χ) (p q : List (List χ)) :
    n.doFindPath (p ++ q) = (n.doFindPath p).bind fun c => c.doFindPath q := by
  induction p generalizing n with
  | nil => rfl
  | cons x p ih =>
    simp only [List.cons_append, doFindPath]
    cases n.getChildren x with
    | none => rfl
    | some c => exact ih c

/-- The cached nodes below a node that a path resolves to. -/
theorem mem_marked_of_append {n c : Node χ} {m : Bool → Prop} {p q : List (List χ)}
    (hp : n.doFindPath p = some c) : p ++ q ∈ n.marked m ↔ q ∈ c.marked m := by
  simp [marked, doFindPath_append, hp]

end Node

/-! ## The tree and the disk together -/

variable [DecidableEq χ]

/-- The owner's tree and the server's disk. -/
structure CacheState (χ : Type) where
  tree : Node χ
  disk : Disk.Store (List χ)

/-- The owner's updates, and a download of `FilePath` from the owner that
completes. -/
inductive CacheEvent (χ : Type) where
  | Add (path : List χ)
  | Remove (path : List χ)
  | Rename (path newPath : List χ)
  | downloadCompleted (filePath : List χ)
deriving DecidableEq

/-- The effect of a file-system call; its errors are only logged. -/
def runDiskOp (sep : χ) (disk : Disk.Store (List χ)) : DiskOp χ → Disk.Store (List χ)
  | .remove localPath => disk.remove (diskPath sep localPath)
  | .rename old new => (disk.rename (diskPath sep old) (diskPath sep new)).getD disk

/-- `assert(SetCached(FilePath, true))` in a build that evaluates assertions:
`none` when it fails. -/
def assertSetCached (sep : χ) (filePath : List χ) (root : Node χ) : Option (Node χ) :=
  match setCached sep filePath true root with
  | (true, root') => some root'
  | (false, _) => none

/-- One event; `none` when it cannot happen (the file cannot be written, an
assertion fails). -/
def cacheStep (sep : χ) (owner : List χ) (s : CacheState χ) :
    CacheEvent χ → Option (CacheState χ)
  | .Add path => (add sep path s.tree).map fun tree => { s with tree }
  | .Remove path =>
    let (_, tree, ops) := remove sep owner path s.tree
    some ⟨tree, ops.foldl (runDiskOp sep) s.disk⟩
  | .Rename path newPath =>
    let (_, tree, ops) := rename sep owner path newPath s.tree
    some ⟨tree, ops.foldl (runDiskOp sep) s.disk⟩
  | .downloadCompleted filePath => do
    let disk ← s.disk.writeFile (diskPath sep (owner ++ filePath))
    let tree ← assertSetCached sep filePath s.tree
    some ⟨tree, disk⟩

/-- Every cached node has its file at the path `LocalPathToMe` computes. -/
def Coherent (sep : χ) (owner : List χ) (s : CacheState χ) : Prop :=
  ∀ text ∈ s.tree.cachedFiles sep owner, s.disk.lookup (diskPath sep text) = some .file

instance (sep : χ) (owner : List χ) (s : CacheState χ) : Decidable (Coherent sep owner s) :=
  inferInstanceAs (Decidable (∀ text ∈ _, _))

/-- The events that keep the cache coherent: an `Add` that keeps sibling names
unique; a `Rename` that finds no node or is given no file name, that gives a
node a name that no sibling has where no node at or below it is cached, or that
gives a node its own name again (if the node is cached, only when its local path
is relative); a download whose path starts with the separator or whose owner's
name ends with it. -/
def CacheEvent.KeepsCache (sep : χ) (owner : List χ) (s : CacheState χ) : CacheEvent χ → Prop
  | .Add path => (VfsOp.Add path).KeepsNames sep s.tree
  | .Remove _ => True
  | .Rename path newPath =>
    ∀ n ∈ doFindNode sep path s.tree,
      filename sep newPath = [] ∨
      (RenameFree s.tree (getComponents sep path) (filename sep newPath) ∧
        n.localFiles sep owner [] = []) ∨
      (n.myName = filename sep newPath ∧
        (n.cached = false ∨ (owner ++ [sep]).head? ≠ some sep))
  | .downloadCompleted filePath => filePath.head? = some sep ∨ owner.getLast? = some sep

instance (sep : χ) (owner : List χ) (s : CacheState χ) (e : CacheEvent χ) :
    Decidable (e.KeepsCache sep owner s) :=
  match e with
  | .Add path => inferInstanceAs (Decidable ((VfsOp.Add path).KeepsNames sep s.tree))
  | .Remove _ => inferInstanceAs (Decidable True)
  | .Rename path _ => inferInstanceAs (Decidable (∀ n ∈ doFindNode sep path s.tree, _ ∨ _ ∨ _))
  | .downloadCompleted _ => inferInstanceAs (Decidable (_ ∨ _))

/-- The invariant behind coherence, on component lists. -/
structure CacheInv (sep : χ) (owner : List χ) (s : CacheState χ) : Prop where
  wellFormed : WellFormed sep s.tree
  root : s.tree.cached = false
  stored : ∀ p ∈ s.tree.marked (· = true), s.disk.lookup (filePath sep owner p) = some .file

namespace CacheLemmas

open RepresentationLemmas

variable {sep : χ} {owner : List χ} {s : CacheState χ}

theorem coherent_of_inv (h : CacheInv sep owner s) : Coherent sep owner s := by
  intro text htext
  rw [cachedFiles, h.root] at htext
  obtain ⟨c, hc, hct⟩ := mem_localFilesAll.mp (by simpa using htext)
  obtain ⟨hgood, hdeep⟩ := named_iff.mp h.wellFormed.named
  obtain ⟨q, hq, hqt⟩ := exists_marked_of_mem_localFiles ((uniq_iff.mp h.wellFormed.uniq).2 c hc)
    (hdeep c hc) (hgood c hc) (fun _ hy => absurd hy List.not_mem_nil) hct
  rw [hqt]
  exact h.stored _ (mem_marked_child h.wellFormed.uniq hc hq)

/-- Removing files keeps a file that is not among them. -/
theorem lookup_foldl_remove {texts : List (List χ)} {disk : Disk.Store (List χ)}
    {q : Disk.Path (List χ)} (hne : ∀ text ∈ texts, q ≠ diskPath sep text) :
    ((texts.map DiskOp.remove).foldl (runDiskOp sep) disk).lookup q = disk.lookup q := by
  induction texts generalizing disk with
  | nil => rfl
  | cons text texts ih =>
    rw [List.map_cons, List.foldl_cons, ih fun t ht => hne t (List.mem_cons_of_mem _ ht)]
    exact Disk.Store.lookup_remove_of_ne (hne text List.mem_cons_self)

theorem inv_add (h : CacheInv sep owner s) {path : List χ}
    (hk : (VfsOp.Add path).KeepsNames sep s.tree) :
    CacheInv sep owner { s with tree := insertPath (getComponents sep path) s.tree } where
  wellFormed := (wellFormed_add h.wellFormed path).mpr hk
  root := by simpa using h.root
  stored := by
    rw [marked_insertPath (by simp) hk]
    exact h.stored

theorem wellFormed_doFindPath {root n : Node χ} {p : List (List χ)} (h : WellFormed sep root)
    (hp : root.doFindPath p = some n) : WellFormed sep n := by
  induction p generalizing root with
  | nil =>
    obtain rfl := Option.some.inj hp
    exact h
  | cons x p ih =>
    simp only [doFindPath] at hp
    split at hp
    · next c hc =>
      have hmem := (getChildren_some hc).1
      exact ih ⟨(uniq_iff.mp h.uniq).2 c hmem, (named_iff.mp h.named).2 c hmem⟩ hp
    · simp at hp

/-- A path ends with the name of the node it resolves to. -/
theorem dropLast_append_myName {root n : Node χ} {p : List (List χ)} (hne : p ≠ [])
    (hp : root.doFindPath p = some n) : p.dropLast ++ [n.myName] = p := by
  induction p generalizing root with
  | nil => exact absurd rfl hne
  | cons x p ih =>
    simp only [doFindPath] at hp
    split at hp
    · next c hc =>
      cases p with
      | nil =>
        obtain rfl := Option.some.inj hp
        simp [(getChildren_some hc).2]
      | cons y p => simpa using ih (by simp) hp
    · simp at hp

/-- The files that `Remove` deletes lie at or below the path. -/
theorem diskPath_of_mem_localFiles {path text : List χ} {n : Node χ}
    (h : WellFormed sep s.tree) (hn : doFindNode sep path s.tree = some n)
    (htext : text ∈ n.localFiles sep owner (getComponents sep path).dropLast.reverse) :
    ∃ q ∈ n.marked (· = true),
      diskPath sep text = filePath sep owner (getComponents sep path ++ q) := by
  obtain ⟨hne, hfind⟩ := doFindNode_some hn
  have hgood : ∀ y ∈ getComponents sep path, GoodName sep y :=
    fun _ hy => goodName_of_mem_getComponents hy
  have hlast := dropLast_append_myName hne hfind
  have hname : GoodName sep n.myName := hgood _ (by rw [← hlast]; simp)
  have hwf := wellFormed_doFindPath h hfind
  obtain ⟨q, hq, hqt⟩ := exists_marked_of_mem_localFiles hwf.uniq hwf.named hname
    (fun y hy => hgood y (List.dropLast_subset _ (List.mem_reverse.mp hy))) htext
  refine ⟨q, hq, hqt.trans ?_⟩
  conv_rhs => rw [← hlast]
  simp

theorem inv_remove (h : CacheInv sep owner s) (path : List χ) :
    CacheInv sep owner ⟨(remove sep owner path s.tree).2.1,
      (remove sep owner path s.tree).2.2.foldl (runDiskOp sep) s.disk⟩ := by
  have hwf := wellFormed_remove h.wellFormed owner path
  unfold remove at hwf ⊢
  split at hwf
  · exact ⟨hwf, h.root, h.stored⟩
  · next n hn =>
    refine ⟨hwf, by simpa using h.root, fun q hq => ?_⟩
    obtain ⟨hne, hfind⟩ := doFindNode_some hn
    simp only [marked_alterAt_delete h.wellFormed.uniq hne, PathSet.mem_cut] at hq
    simp only [destroy_eq]
    rw [lookup_foldl_remove]
    · exact h.stored q hq.1
    · intro text htext heq
      obtain ⟨r, _, hr⟩ := diskPath_of_mem_localFiles h.wellFormed hn htext
      have hqr := filePath_injective (heq.trans hr)
      exact hq.2 ⟨r, hqr.symm⟩

/-- The new path that `Rename` gives the local file has one more component. -/
theorem diskPath_newLocalPath {old fileName : List χ} (hrel : old.head? ≠ some sep)
    (hne : old ≠ []) (hname : GoodName sep fileName) :
    diskPath sep (newLocalPath sep old fileName) =
      ⟨(diskPath sep old).absolute, (diskPath sep old).components ++ [fileName]⟩ := by
  have htext : newLocalPath sep old fileName = old ++ sep :: fileName := by
    obtain ⟨c, rest, rfl⟩ := List.exists_cons_of_ne_nil hne
    have hc : c ≠ sep := fun hc => hrel (by simp [hc])
    simp [newLocalPath, hc]
  have hhead : (old ++ sep :: fileName).head? = old.head? := by
    rw [List.head?_append_of_ne_nil _ hne]
  simp [htext, diskPath, hhead, getComponents_append_cons, getComponents_of_goodName hname]

theorem parent_newLocalPath {old fileName : List χ} (hrel : old.head? ≠ some sep)
    (hne : old ≠ []) (hname : GoodName sep fileName) :
    (diskPath sep (newLocalPath sep old fileName)).parent = diskPath sep old := by
  simp [diskPath_newLocalPath hrel hne hname, Disk.Path.parent]

/-- The call that `Rename` makes for a cached node fails. -/
theorem renameLocal_fails (h : CacheInv sep owner s) {path fileName : List χ} {n : Node χ}
    (hn : doFindNode sep path s.tree = some n) (hcached : n.cached = true)
    (hrel : (owner ++ [sep]).head? ≠ some sep) (hname : GoodName sep fileName) :
    let old := localPathToMe sep owner (getComponents sep path).dropLast.reverse n.myName []
    runDiskOp sep s.disk (.rename old (newLocalPath sep old fileName)) = s.disk := by
  intro old
  obtain ⟨hne, hfind⟩ := doFindNode_some hn
  have hold : old = owner ++ sep ::
      ((getComponents sep path).dropLast.flatMap (· ++ [sep]) ++ n.myName) := by
    simp [old, localPathToMe_eq]
  have htext : old ∈ n.localFiles sep owner (getComponents sep path).dropLast.reverse := by
    obtain ⟨name, b, cs⟩ := n
    obtain rfl : b = true := hcached
    simp [localFiles, old, myName]
  obtain ⟨q, hq, hqt⟩ := diskPath_of_mem_localFiles h.wellFormed hn htext
  have hfile : s.disk.lookup (diskPath sep old) = some .file := by
    rw [hqt]
    exact h.stored _ ((mem_marked_of_append hfind).mpr hq)
  have hparent : (diskPath sep (newLocalPath sep old fileName)).parent = diskPath sep old :=
    parent_newLocalPath (by rwa [hold, head?_append_cons]) (by simp [hold]) hname
  simp [runDiskOp, Disk.Store.rename_below_file hfile hparent]

theorem inv_rename (h : CacheInv sep owner s) {path newPath : List χ}
    (hk : (CacheEvent.Rename path newPath).KeepsCache sep owner s) :
    CacheInv sep owner ⟨(rename sep owner path newPath s.tree).2.1,
      (rename sep owner path newPath s.tree).2.2.foldl (runDiskOp sep) s.disk⟩ := by
  cases hn : doFindNode sep path s.tree with
  | none => simpa [rename, hn] using h
  | some n =>
    obtain ⟨hne, hfind⟩ := doFindNode_some hn
    rcases hk n hn with hfile | ⟨hfree, hnone⟩ | ⟨hsame, hrel⟩
    · simpa [rename, hn, hfile] using h
    · -- nothing at or below the node is cached: no file has to move
      have hclean : ∀ q, q ∉ n.marked (· = true) := fun q hq =>
        localFiles_ne_nil hq [] hnone
      have hcached : n.cached = false := by
        simpa using hclean []
      by_cases hfile : filename sep newPath = []
      · simpa [rename, hn, hfile] using h
      · have hwf := (wellFormed_rename h.wellFormed owner path newPath).mpr
          (Or.inr (Or.inr hfree))
        simp only [rename, hn, hfile, ↓reduceIte, hcached, Bool.false_eq_true,
          List.foldl_nil] at hwf ⊢
        refine ⟨hwf, by simpa using h.root, fun q hq => ?_⟩
        simp only [marked_alterAt_setName h.wellFormed.uniq hne (mem_paths_of_doFindNode hn)
          hfree] at hq
        obtain ⟨q₀, hq₀, rfl⟩ := hq
        rw [PathSet.relabel_of_not_isPrefix]
        · exact h.stored q₀ hq₀
        · rintro ⟨r, rfl⟩
          exact hclean r ((mem_marked_of_append hfind).mp hq₀)
    · -- the name does not change, and the call that would move the file fails
      by_cases hfile : filename sep newPath = []
      · simpa [rename, hn, hfile] using h
      · have htree : alterAt (fun c => [c.setName (filename sep newPath)])
            (getComponents sep path) s.tree = s.tree := by
          refine alterAt_of_fixed fun c hc => ?_
          obtain rfl := Option.some.inj (hfind.symm.trans hc)
          obtain ⟨name, b, cs⟩ := n
          rw [← hsame]
          rfl
        simp only [rename, hn, hfile, ↓reduceIte, htree]
        cases hcached : n.cached with
        | false => exact h
        | true =>
          have hcall := renameLocal_fails h hn hcached (hrel.resolve_left (by simp [hcached]))
            (goodName_filename hfile)
          simp only [↓reduceIte, List.foldl_cons, List.foldl_nil, hcall]
          exact h

theorem inv_downloadCompleted (h : CacheInv sep owner s) {path : List χ}
    (hk : path.head? = some sep ∨ owner.getLast? = some sep) {disk : Disk.Store (List χ)}
    {tree : Node χ} (hdisk : s.disk.writeFile (diskPath sep (owner ++ path)) = some disk)
    (htree : assertSetCached sep path s.tree = some tree) : CacheInv sep owner ⟨tree, disk⟩ := by
  have hwf := wellFormed_setCached h.wellFormed path true
  unfold assertSetCached setCached at htree
  unfold setCached at hwf
  cases hn : doFindNode sep path s.tree with
  | none => simp [hn] at htree
  | some n =>
    obtain ⟨hne, hfind⟩ := doFindNode_some hn
    simp only [hn] at hwf
    obtain rfl : _ = tree := by simpa [hn] using htree
    refine ⟨hwf, by simpa using h.root, fun q hq => ?_⟩
    simp only [mem_marked_alterAt_setCachedFlag hne (mem_paths_of_doFindNode hn)] at hq
    rw [diskPath_append hk] at hdisk
    refine Disk.Store.lookup_writeFile (by simp [filePath, hne]) hdisk ?_
    split at hq
    · next hqp => exact Or.inl (by rw [hqp])
    · exact Or.inr (h.stored q hq)

end CacheLemmas

open CacheLemmas RepresentationLemmas

/-- One event that keeps the cache keeps the invariant. -/
theorem cacheInv_step {sep : χ} {owner : List χ} {s s' : CacheState χ} {e : CacheEvent χ}
    (h : CacheInv sep owner s) (hk : e.KeepsCache sep owner s)
    (hstep : cacheStep sep owner s e = some s') : CacheInv sep owner s' := by
  cases e with
  | Add path =>
    obtain rfl : _ = s' := by simpa [cacheStep, add_eq h.wellFormed.uniq] using hstep
    exact inv_add h hk
  | Remove path =>
    obtain rfl := Option.some.inj hstep
    exact inv_remove h path
  | Rename path newPath =>
    obtain rfl := Option.some.inj hstep
    exact inv_rename h hk
  | downloadCompleted path =>
    obtain ⟨disk, hdisk, hrest⟩ := Option.bind_eq_some_iff.mp hstep
    obtain ⟨tree, htree, hs'⟩ := Option.bind_eq_some_iff.mp hrest
    obtain rfl := Option.some.inj hs'
    exact inv_downloadCompleted h hk hdisk htree

/-- In every run from an empty tree whose events all keep the cache, every
cached node has its file where `LocalPathToMe` says. -/
theorem coherent_of_reach {sep : χ} {owner rootName : List χ} {disk : Disk.Store (List χ)}
    {s : CacheState χ}
    (h : Reach (cacheStep sep owner) (fun s e => e.KeepsCache sep owner s)
      ⟨new rootName, disk⟩ s) : Coherent sep owner s := by
  have hinit : CacheInv sep owner ⟨new rootName, disk⟩ := by
    refine ⟨wellFormed_new sep rootName, rfl, fun p hp => ?_⟩
    exact absurd hp (not_mem_marked_newBranch (by simp) rootName [] p)
  exact coherent_of_inv
    (h.invariant hinit fun _ _ _ hinv hk hstep => cacheInv_step hinv hk hstep)

/-- A file that was downloaded, next to a directory that was renamed. -/
theorem coherent_after_download :
    ∃ s, Reach (cacheStep '/' ['o']) (fun s e => e.KeepsCache '/' ['o'] s)
        ⟨new ['/'], ⟨[]⟩⟩ s ∧
      s.tree.cachedFiles '/' ['o'] = ["o/d/f".toList] ∧ Coherent '/' ['o'] s := by
  obtain ⟨s, hs, hfiles⟩ := exists_reach_of_exec_guarded (cacheStep '/' ['o'])
    (fun s e => e.KeepsCache '/' ['o'] s) ⟨new ['/'], ⟨[]⟩⟩
    (fun s => s.tree.cachedFiles '/' ['o'] = ["o/d/f".toList])
    [.Add "/d/f".toList, .Add "/e/g".toList, .downloadCompleted "/d/f".toList,
      .Rename "/e".toList "/h".toList] (by decide +kernel)
  exact ⟨s, hs, hfiles, coherent_of_reach hs⟩

/-- Renaming a downloaded file leaves its flag set and its file under the old
name. -/
theorem rename_cached_incoherent :
    ∃ s, Reach (cacheStep '/' ['o']) anyStep ⟨new ['/'], ⟨[]⟩⟩ s ∧ ¬ Coherent '/' ['o'] s := by
  obtain ⟨s, hs, hbad⟩ := exists_reach_of_exec (cacheStep '/' ['o'])
    ⟨new ['/'], ⟨[]⟩⟩ (fun s => ¬ Coherent '/' ['o'] s)
    [.Add "/f".toList, .downloadCompleted "/f".toList, .Rename "/f".toList "/g".toList]
    (by decide)
  exact ⟨s, hs, hbad⟩

end FspServer
