import FspServer.Lib.Disk
import FspServer.Names
import FspServer.Protocol

/-!
# Local paths on Windows

The server hands its local paths to the system calls of Windows. A call sees a path up
to its first null. A slash and a backslash both separate components, and the path does
not start from the working directory when it begins with one of them, or when its first
component holds a colon: then it names a drive, a device or a stream.

The separator of the protocol is one of the two. A path of the protocol has the same
components when it is put together again from the names it is split into
(`components_joined`).
-/

namespace FspServer

open Node

namespace Windows

/-- A backslash is read as a slash. -/
def slash (c : Char) : Char := if c = '\\' then '/' else c

/-- What a system call sees of a path. -/
def readText (text : Str) : Str := (cString text).map slash

def components (text : Str) : List Str := getComponents '/' (readText text)

/-- The path does not start from the working directory. -/
def rooted (text : Str) : Bool :=
  (readText text).head? = some '/' || ((readText text).takeWhile fun c => c ≠ '/').contains ':'

def path (text : Str) : Disk.Path Str := ⟨rooted text, components text⟩

/-- `parent_path`. -/
def parentPath (text : Str) : Str := text.rdropWhile fun c => slash c ≠ '/'

/-- The file name has a root name or a root directory. -/
def hasRoot : Str → Bool
  | [] => false
  | [c] => slash c = '/'
  | c :: d :: _ => slash c = '/' || c.isAlpha && d = ':'

/-- `path(text).append(fileName)`, for a text without root. -/
def append (text fileName : Str) : Str :=
  if hasRoot fileName then fileName
  else if text.getLast?.map slash = some '/' then text ++ fileName
  else text ++ '\\' :: fileName

/-- Nothing of the text is read, or a separator first. -/
def Opens (text : Str) : Prop := ∀ c ∈ (readText text).head?, c = '/'

-- the bounded instances, which do not run through all characters
instance (text : Str) : Decidable (Opens text) :=
  Option.decidableForallMem (readText text).head?

variable {text a b : Str} {sep : Char}

/-! ## Reading a text -/

theorem slash_eq_self {c : Char} (h : c ≠ '\\') : slash c = c := if_neg h

theorem ne_null_of_slash (h : slash sep = '/') : sep ≠ Char.ofNat 0 := by
  rintro rfl
  exact absurd h (by decide)

theorem readText_append (hnull : Char.ofNat 0 ∉ a) :
    readText (a ++ b) = a.map slash ++ readText b := by
  have hall : ∀ c ∈ a, decide (c ≠ Char.ofNat 0) = true := by
    intro c hc
    simpa using fun h : c = Char.ofNat 0 => hnull (h ▸ hc)
  rw [readText, cString, List.takeWhile_append_of_pos hall, List.map_append]
  rfl

/-- Behind a null nothing is read. -/
theorem readText_append_of_null (hnull : Char.ofNat 0 ∈ a) : readText (a ++ b) = readText a := by
  have hlt : (a.takeWhile fun c => c ≠ Char.ofNat 0).length ≠ a.length := by
    intro hlength
    have hself := (List.takeWhile_prefix fun c => decide (c ≠ Char.ofNat 0)).eq_of_length hlength
    have hall := List.takeWhile_eq_self_iff.mp hself
    simpa using hall _ hnull
  rw [readText, readText, cString, cString, List.takeWhile_append, if_neg hlt]

theorem readText_cons (hsep : slash sep = '/') : readText (sep :: b) = '/' :: readText b := by
  have hnull : Char.ofNat 0 ∉ [sep] := by simpa using (ne_null_of_slash hsep).symm
  simpa [hsep] using readText_append (b := b) hnull

theorem mem_readText {c : Char} (h : c ∈ readText text) :
    c ≠ '\\' ∧ c ≠ Char.ofNat 0 := by
  obtain ⟨x, hx, rfl⟩ := List.mem_map.mp h
  have hnull : x ≠ Char.ofNat 0 := by simpa using List.mem_takeWhile_imp hx
  unfold slash
  split
  · decide
  · next hback => exact ⟨hback, hnull⟩

/-! ## Components -/

theorem components_cons (hsep : slash sep = '/') : components (sep :: b) = components b := by
  rw [components, readText_cons hsep, getComponents_cons_sep, components]

theorem opens_cons (hsep : slash sep = '/') : Opens (sep :: b) := by
  intro c hc
  rw [readText_cons hsep] at hc
  exact (Option.some.inj hc).symm

theorem opens_nil : Opens [] := by simp [Opens, readText, cString]

theorem components_nil : components [] = [] := getComponents_nil '/'

/-- Where a separator stands, or nothing is read, the components are those before and
those behind. -/
theorem components_append (hb : Opens b) :
    components (a ++ b) = components a ++ if Char.ofNat 0 ∈ a then [] else components b := by
  by_cases hnull : Char.ofNat 0 ∈ a
  · rw [if_pos hnull, List.append_nil, components, readText_append_of_null hnull, components]
  · have ha : readText a = a.map slash := by
      simpa [readText, cString] using readText_append (b := []) hnull
    rw [if_neg hnull, components, readText_append hnull, ← ha, components, components]
    cases hread : readText b with
    | nil => simp
    | cons c rest =>
      obtain rfl : c = '/' := hb c (by simp [hread])
      rw [getComponents_append_cons, getComponents_cons_sep]

theorem components_append_congr {b' : Str} (hb : Opens b) (hb' : Opens b')
    (h : components b = components b') : components (a ++ b) = components (a ++ b') := by
  rw [components_append hb, components_append hb', h]

/-- The names that a path is split into, with a separator before each. -/
def joined (sep : Char) (names : List Str) : Str := names.flatMap (sep :: ·)

theorem opens_joined (hsep : slash sep = '/') {names : List Str} {rest : Str}
    (h : names = [] → Opens rest) : Opens (joined sep names ++ rest) := by
  cases names with
  | nil => exact h rfl
  | cons name names =>
    rw [joined, List.flatMap_cons, List.cons_append, List.cons_append]
    exact opens_cons hsep

/-- Induction on the length of the path: the part before its first separator is one
name or nothing. -/
theorem components_joined (hsep : slash sep = '/') {rest : Str} (hrest : Opens rest) (path : Str) :
    components (joined sep (getComponents sep path) ++ rest) = components (path ++ rest) := by
  induction hlength : path.length using Nat.strong_induction_on generalizing path with
  | _ length ih =>
    by_cases hmem : sep ∈ path
    · obtain ⟨first, below, rfl, hfirst⟩ := List.eq_append_cons_of_mem hmem
      have hbelow : components (joined sep (getComponents sep below) ++ rest) =
          components (below ++ rest) := by
        refine ih below.length ?_ below rfl
        rw [← hlength, List.length_append, List.length_cons]
        omega
      rw [getComponents_append_cons, joined, List.flatMap_append, List.append_assoc,
        List.append_assoc, List.cons_append]
      by_cases hempty : first = []
      · subst hempty
        rw [getComponents_nil, List.nil_append, components_cons hsep]
        exact hbelow
      · rw [getComponents_of_goodName ⟨hempty, hfirst⟩, List.flatMap_singleton, List.cons_append,
          components_cons hsep]
        refine components_append_congr (opens_joined hsep fun _ => hrest) (opens_cons hsep) ?_
        rw [components_cons hsep]
        exact hbelow
    · by_cases hempty : path = []
      · subst hempty
        rw [getComponents_nil]
        rfl
      · rw [getComponents_of_goodName ⟨hempty, hmem⟩, joined, List.flatMap_singleton,
          List.cons_append, components_cons hsep]

theorem exists_append_eq (hroot : hasRoot b = false) : ∃ rest, append a b = a ++ rest := by
  simp only [append, hroot, Bool.false_eq_true, if_false]
  split
  · exact ⟨b, rfl⟩
  · exact ⟨'\\' :: b, rfl⟩

/-- A file name without root follows behind a separator. -/
theorem components_append_fileName {fileName : Str} (hroot : hasRoot fileName = false) :
    components (append text fileName) = components (text ++ '\\' :: fileName) := by
  simp only [append, hroot, Bool.false_eq_true, if_false]
  split
  · next hlast =>
    obtain ⟨c, hc, hslash⟩ := Option.map_eq_some_iff.mp hlast
    obtain ⟨above, rfl⟩ := List.getLast?_eq_some_iff.mp hc
    rw [List.append_assoc, List.append_assoc, List.singleton_append, List.singleton_append]
    refine components_append_congr (opens_cons hslash) (opens_cons hslash) ?_
    rw [components_cons hslash, components_cons hslash, components_cons rfl]
  · rfl

theorem append_append {fileName : Str} (hroot : hasRoot fileName = false) (hb : b ≠ []) :
    append (a ++ b) fileName = a ++ append b fileName := by
  have hlast : (a ++ b).getLast? = b.getLast? := List.getLast?_append_of_ne_nil _ hb
  simp only [append, hroot, Bool.false_eq_true, if_false, hlast]
  split
  · rw [List.append_assoc]
  · rw [List.append_assoc]

/-! ## One name -/

/-- The text is the name of a file or a directory and nothing else. -/
def Plain (name : Str) : Prop :=
  name ≠ [] ∧ ∀ c ∈ name, c ≠ '/' ∧ c ≠ '\\' ∧ c ≠ ':' ∧ c ≠ Char.ofNat 0

instance (name : Str) : Decidable (Plain name) :=
  haveI := List.decidableBAll (fun c => c ≠ '/' ∧ c ≠ '\\' ∧ c ≠ ':' ∧ c ≠ Char.ofNat 0) name
  inferInstanceAs (Decidable (_ ∧ _))

variable {name : Str}

theorem Plain.goodName (h : Plain name) : GoodName '/' name :=
  ⟨h.1, fun hc => (h.2 _ hc).1 rfl⟩

theorem Plain.not_null (h : Plain name) : Char.ofNat 0 ∉ name := fun hc => (h.2 _ hc).2.2.2 rfl

theorem Plain.map_slash (h : Plain name) : name.map slash = name := by
  conv_rhs => rw [← List.map_id name]
  exact List.map_congr_left fun c hc => slash_eq_self (h.2 c hc).2.1

theorem Plain.readText_append (h : Plain name) : readText (name ++ b) = name ++ readText b := by
  rw [Windows.readText_append h.not_null, h.map_slash]

/-- A path below a directory that is one name. -/
theorem Plain.path_append (h : Plain name) (hb : Opens b) :
    path (name ++ b) = ⟨false, name :: components b⟩ := by
  have hcomponents : components (name ++ b) = name :: components b := by
    have hname : components name = [name] := by
      have hread := h.readText_append (b := [])
      rw [List.append_nil] at hread
      rw [components, hread]
      simpa [readText, cString] using getComponents_of_goodName h.goodName
    rw [components_append hb, if_neg h.not_null, hname, List.singleton_append]
  have hfirst : (name ++ readText b).takeWhile (fun c => c ≠ '/') = name := by
    rw [List.takeWhile_append_of_pos (by simpa using fun c hc => (h.2 c hc).1)]
    cases hread : readText b with
    | nil => simp
    | cons c rest =>
      obtain rfl : c = '/' := hb c (by simp [hread])
      simp
  have hhead : (name ++ readText b).head? ≠ some '/' := by
    rw [List.head?_append_of_ne_nil _ h.1]
    exact fun hhead => h.goodName.2 (List.mem_of_mem_head? hhead)
  have hcolon : ':' ∉ name := fun hc => (h.2 _ hc).2.2.1 rfl
  rw [path, hcomponents, rooted, h.readText_append, hfirst, decide_eq_false hhead]
  simp [hcolon]

/-- Without a separator between them, the name and what follows are one name. -/
theorem Plain.exists_components (h : Plain name) (hb : ¬ Opens b) : ∃ first rest, first ≠ [] ∧
    components (name ++ b) = (name ++ first) :: rest := by
  have hread : readText b ≠ [] := by
    intro hread
    exact hb (by simp [Opens, hread])
  have hhead : (readText b).head? ≠ some '/' := by
    intro hhead
    exact hb (by simp [Opens, hhead])
  have hgood : ∀ {first : Str}, '/' ∉ first → GoodName '/' (name ++ first) := by
    intro first hfirst
    exact ⟨by simp [h.1], by simp [h.goodName.2, hfirst]⟩
  rw [components, h.readText_append]
  by_cases hmem : '/' ∈ readText b
  · obtain ⟨first, rest, heq, hfirst⟩ := List.eq_append_cons_of_mem hmem
    refine ⟨first, getComponents '/' rest, ?_, ?_⟩
    · rintro rfl
      rw [heq] at hhead
      exact hhead rfl
    · rw [heq, ← List.append_assoc]
      exact getComponents_goodName_cons (hgood hfirst) rest
  · exact ⟨readText b, [], hread, getComponents_of_goodName (hgood hmem)⟩

/-- Only a text that is one name is its own component. -/
theorem plain_of_mem_components (h : name ∈ components name) (hroot : rooted name = false) :
    Plain name := by
  have hgood := goodName_of_mem_getComponents h
  have hread : ∀ c ∈ name, c ≠ '\\' ∧ c ≠ Char.ofNat 0 := by
    intro c hc
    exact mem_readText (mem_of_mem_getComponents h hc)
  have hself : readText name = name := by
    have hnull : Char.ofNat 0 ∉ name := fun hc => (hread _ hc).2 rfl
    have hmap : name.map slash = name := by
      conv_rhs => rw [← List.map_id name]
      exact List.map_congr_left fun c hc => slash_eq_self (hread c hc).1
    simpa [hmap, readText, cString] using readText_append (b := []) hnull
  have hcolon : ':' ∉ name := by
    have hfirst : name.takeWhile (fun c => c ≠ '/') = name :=
      List.takeWhile_eq_self_iff.mpr (by simpa using fun c hc => ne_of_mem_of_not_mem hc hgood.2)
    rw [rooted, hself, hfirst, Bool.or_eq_false_iff] at hroot
    simpa using hroot.2
  refine ⟨hgood.1, fun c hc => ⟨ne_of_mem_of_not_mem hc hgood.2, (hread c hc).1,
    ne_of_mem_of_not_mem hc hcolon, (hread c hc).2⟩⟩

end Windows

end FspServer
