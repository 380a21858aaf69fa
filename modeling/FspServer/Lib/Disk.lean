import Mathlib.Data.List.Basic

/-!
# A disk as a map from paths

A disk maps paths to files and directories. A path is a list of components and
says whether it starts at the root; the path without components is the root or
the working directory, which is always there. Two paths are the same file only
when they have the same components: what an operating system further identifies
(letter case, `.` and `..`) is left out.

Each operation is total or returns `none` when it fails; a failed operation
leaves the disk as it is.
-/

namespace Disk

variable {α : Type*}

/-- A path, absolute or relative to the working directory. -/
structure Path (α : Type*) where
  absolute : Bool
  components : List α
deriving DecidableEq

inductive Entry where
  | file
  | directory
deriving DecidableEq, Repr

/-- The entries of a disk. -/
structure Store (α : Type*) where
  entries : List (Path α × Entry)
deriving DecidableEq

def Path.parent (p : Path α) : Path α := { p with components := p.components.dropLast }

namespace Store

variable [DecidableEq α]

/-- What is at a path. -/
def lookup (d : Store α) (p : Path α) : Option Entry :=
  if p.components = [] then some .directory
  else (d.entries.find? fun e => e.1 = p).map (·.2)

def erase (d : Store α) (p : Path α) : Store α := ⟨d.entries.filter fun e => e.1 ≠ p⟩

def put (d : Store α) (p : Path α) (e : Entry) : Store α := ⟨(p, e) :: (d.erase p).entries⟩

/-- Something lies below the path. -/
def hasBelow (d : Store α) (p : Path α) : Bool :=
  d.entries.any fun e =>
    e.1.absolute = p.absolute ∧ p.components <+: e.1.components ∧ p.components ≠ e.1.components

/-- Removes a file or an empty directory. -/
def remove (d : Store α) (p : Path α) : Store α :=
  match d.lookup p with
  | some .file => d.erase p
  | some .directory => if p.components = [] ∨ d.hasBelow p then d else d.erase p
  | none => d

/-- Makes the directories on the way from `done` down the components `rest`. -/
def makeDirectories (absolute : Bool) : List α → List α → Store α → Option (Store α)
  | _, [], d => some d
  | done, x :: rest, d =>
    match d.lookup ⟨absolute, done ++ [x]⟩ with
    | none => makeDirectories absolute (done ++ [x]) rest (d.put ⟨absolute, done ++ [x]⟩ .directory)
    | some .directory => makeDirectories absolute (done ++ [x]) rest d
    | some .file => none

def createDirectories (d : Store α) (p : Path α) : Option (Store α) :=
  makeDirectories p.absolute [] p.components d

/-- Makes the directories above the path and writes a file there, over an
existing file if there is one. -/
def writeFile (d : Store α) (p : Path α) : Option (Store α) := do
  let d ← d.createDirectories p.parent
  match d.lookup p with
  | some .directory => none
  | _ => some (d.put p .file)

/-- Moves what lies at and below `old` to `new`. -/
def moveBelow (d : Store α) (old new : Path α) : Store α :=
  ⟨d.entries.map fun e =>
    if e.1.absolute = old.absolute ∧ old.components <+: e.1.components then
      (⟨new.absolute, new.components ++ e.1.components.drop old.components.length⟩, e.2)
    else e⟩

/-- Renames a file or a directory. It fails when there is nothing at `old`,
when the parent of `new` is not a directory, when a directory is in the way, and
when a directory would be moved below itself. -/
def rename (d : Store α) (old new : Path α) : Option (Store α) :=
  match d.lookup old with
  | none => none
  | some e =>
    if d.lookup new.parent ≠ some .directory ∨ old.components = [] then none
    else if new = old then some d
    else match e, d.lookup new with
      | .file, some .directory => none
      | .file, _ => some ((d.erase old).put new .file)
      | .directory, some _ => none
      | .directory, none =>
        if new.absolute = old.absolute ∧ old.components <+: new.components then none
        else some (d.moveBelow old new)

/-! ## What the operations change -/

theorem lookup_erase_of_ne {d : Store α} {p q : Path α} (h : q ≠ p) :
    (d.erase p).lookup q = d.lookup q := by
  have hfind : ∀ entries : List (Path α × Entry),
      (entries.filter fun e => e.1 ≠ p).find? (fun e => e.1 = q) =
        entries.find? fun e => e.1 = q := by
    intro entries
    rw [List.find?_filter]
    congr 1
    funext e
    by_cases he : e.1 = q
    · simp [he, h]
    · simp [he]
  simp only [lookup, erase, hfind]

theorem lookup_put_self {d : Store α} {p : Path α} (hp : p.components ≠ []) (e : Entry) :
    (d.put p e).lookup p = some e := by
  simp [lookup, put, hp]

theorem lookup_put_of_ne {d : Store α} {p q : Path α} (h : q ≠ p) (e : Entry) :
    (d.put p e).lookup q = d.lookup q := by
  rw [← lookup_erase_of_ne (d := d) h]
  simp [lookup, put, Ne.symm h]

/-- Removing changes no other path. -/
theorem lookup_remove_of_ne {d : Store α} {p q : Path α} (h : q ≠ p) :
    (d.remove p).lookup q = d.lookup q := by
  unfold remove
  split
  · exact lookup_erase_of_ne h
  · split
    · rfl
    · exact lookup_erase_of_ne h
  · rfl

/-- Making directories keeps every file. -/
theorem lookup_makeDirectories {absolute : Bool} {done rest : List α} {d d' : Store α}
    (h : makeDirectories absolute done rest d = some d') {q : Path α}
    (hq : d.lookup q = some .file) : d'.lookup q = some .file := by
  induction rest generalizing done d with
  | nil =>
    obtain rfl := Option.some.inj h
    exact hq
  | cons x rest ih =>
    simp only [makeDirectories] at h
    split at h
    · next hnone =>
      have hne : q ≠ ⟨absolute, done ++ [x]⟩ := by
        rintro rfl
        simp [hnone] at hq
      exact ih h (by rwa [lookup_put_of_ne hne])
    · exact ih h hq
    · simp at h

/-- Writing a file puts it there and keeps every other file. -/
theorem lookup_writeFile {d d' : Store α} {p q : Path α} (hp : p.components ≠ [])
    (h : d.writeFile p = some d') (hq : q = p ∨ d.lookup q = some .file) :
    d'.lookup q = some .file := by
  obtain ⟨d₁, hd₁, hput⟩ := Option.bind_eq_some_iff.mp h
  have hd' : d' = d₁.put p .file := by
    split at hput
    · simp at hput
    · exact (Option.some.inj hput).symm
  subst hd'
  by_cases hqp : q = p
  · rw [hqp, lookup_put_self hp]
  · rw [lookup_put_of_ne hqp]
    exact lookup_makeDirectories hd₁ (hq.resolve_left hqp)

/-- A file cannot be renamed to a path below itself. -/
theorem rename_below_file {d : Store α} {old new : Path α} (hold : d.lookup old = some .file)
    (hnew : new.parent = old) : d.rename old new = none := by
  simp [rename, hold, hnew]

end Store

end Disk
