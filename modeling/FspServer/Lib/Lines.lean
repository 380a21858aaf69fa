import Mathlib.Data.List.Infix
import Mathlib.Data.List.TakeWhile

/-!
# Lines of a fragmented stream

A line ends with a separator of any length. A reader collects the fragments that
arrive until what it has collected contains the separator, or until there are no
more.

* `firstLine` is the first line, when it is complete. It depends on the stream
  only, not on where it is cut (`firstLine_readUntil`).
* A reader that then takes what is before some other mark sees the stream only as
  well, when the mark is part of the separator (`takeWhile_readUntil`).
* `splitOn_eq_pair_iff`: a text split at a delimiter into two fields.
-/

namespace Lines

variable {α : Type*} [DecidableEq α]

/-- What is before the first separator; `none` when there is no separator. -/
def firstLine (sep : List α) : List α → Option (List α)
  | [] => if sep = [] then some [] else none
  | c :: rest => if sep <+: c :: rest then some [] else (firstLine sep rest).map (c :: ·)

/-- The fragments collected until the separator is among them. -/
def readUntil (sep : List α) : List α → List (List α) → List α
  | buffer, [] => buffer
  | buffer, f :: fs => if sep <:+: buffer then buffer else readUntil sep (buffer ++ f) fs

variable {sep : List α}

/-! ## The first line -/

theorem firstLine_nil (buffer : List α) : firstLine [] buffer = some [] := by
  cases buffer with
  | nil => rfl
  | cons c rest => exact if_pos List.nil_prefix

theorem isSome_firstLine_iff {buffer : List α} :
    (firstLine sep buffer).isSome ↔ sep <:+: buffer := by
  induction buffer with
  | nil =>
    rw [firstLine, List.infix_nil]
    split <;> simp_all
  | cons c rest ih =>
    rw [firstLine, List.infix_cons_iff, ← ih]
    split <;> simp_all

theorem firstLine_eq_some {buffer line : List α} (h : firstLine sep buffer = some line) :
    ∃ rest, buffer = line ++ (sep ++ rest) := by
  induction buffer generalizing line with
  | nil =>
    rw [firstLine] at h
    split at h
    · next hsep =>
      cases h
      exact ⟨[], by simp [hsep]⟩
    · cases h
  | cons c buffer ih =>
    rw [firstLine] at h
    split at h
    · next hhere =>
      cases h
      obtain ⟨rest, hrest⟩ := hhere
      exact ⟨rest, hrest.symm⟩
    · obtain ⟨line', hline', rfl⟩ := Option.map_eq_some_iff.mp h
      obtain ⟨rest, hrest⟩ := ih hline'
      exact ⟨rest, by rw [hrest]; rfl⟩

/-- What comes later does not change a complete line. -/
theorem firstLine_append {buffer line : List α} (h : firstLine sep buffer = some line)
    (later : List α) : firstLine sep (buffer ++ later) = some line := by
  induction buffer generalizing line with
  | nil =>
    rw [firstLine] at h
    split at h
    · next hsep =>
      cases h
      cases later <;> simp [firstLine, hsep]
    · cases h
  | cons c buffer ih =>
    rw [firstLine] at h
    split at h
    · next hhere =>
      cases h
      exact if_pos (hhere.trans (List.prefix_append _ _))
    · next hnot =>
      obtain ⟨line', hline', rfl⟩ := Option.map_eq_some_iff.mp h
      -- the separator fits into the buffer, so it cannot begin at `c` and end after it
      have hlength : sep.length ≤ (c :: buffer).length := by
        have hinfix : sep <:+: buffer := isSome_firstLine_iff.mp (by simp [hline'])
        exact hinfix.length_le.trans (Nat.le_succ _)
      have hnot' : ¬ sep <+: c :: (buffer ++ later) := fun hhere =>
        hnot (List.prefix_of_prefix_length_le hhere (List.prefix_append (c :: buffer) later)
          hlength)
      rw [List.cons_append, firstLine, if_neg hnot', ih hline']
      rfl

/-! ## Reading until the separator -/

/-- The reader has the separator or everything. -/
theorem readUntil_cases (sep buffer : List α) (fs : List (List α)) :
    ∃ later, buffer ++ fs.flatten = readUntil sep buffer fs ++ later ∧
      (sep <:+: readUntil sep buffer fs ∨ later = []) := by
  induction fs generalizing buffer with
  | nil => exact ⟨[], rfl, .inr rfl⟩
  | cons f fs ih =>
    rw [readUntil]
    split
    · next hsep => exact ⟨f ++ fs.flatten, rfl, .inl hsep⟩
    · obtain ⟨later, hlater, hsep⟩ := ih (buffer ++ f)
      exact ⟨later, by rw [List.flatten_cons, ← List.append_assoc, hlater], hsep⟩

/-- The first line of what was read is the first line of the stream. -/
theorem firstLine_readUntil (sep : List α) (fs : List (List α)) :
    firstLine sep (readUntil sep [] fs) = firstLine sep fs.flatten := by
  obtain ⟨later, hlater, hsep | rfl⟩ := readUntil_cases sep [] fs
  · obtain ⟨line, hline⟩ := Option.isSome_iff_exists.mp (isSome_firstLine_iff.mpr hsep)
    rw [List.nil_append] at hlater
    rw [hlater, firstLine_append hline later, hline]
  · rw [List.nil_append, List.append_nil] at hlater
    rw [hlater]

/-- What is before a mark of the separator is the same in what was read and in the stream. -/
theorem takeWhile_readUntil {mark : α} (hmark : mark ∈ sep) (fs : List (List α)) :
    (readUntil sep [] fs).takeWhile (· ≠ mark) = fs.flatten.takeWhile (· ≠ mark) := by
  obtain ⟨later, hlater, hsep | rfl⟩ := readUntil_cases sep [] fs
  · have hmem : mark ∈ readUntil sep [] fs := hsep.subset hmark
    rw [List.nil_append] at hlater
    rw [hlater, List.takeWhile_append, if_neg]
    intro hall
    have hwhole : (readUntil sep [] fs).takeWhile (· ≠ mark) = readUntil sep [] fs :=
      (List.takeWhile_prefix _).eq_of_length hall
    simpa using List.takeWhile_eq_self_iff.mp hwhole mark hmem
  · rw [List.nil_append, List.append_nil] at hlater
    rw [hlater]

/-! ## Fields -/

theorem two_le_length_splitOn {d : α} {field : List α} (h : d ∈ field) :
    2 ≤ (field.splitOn d).length := by
  obtain ⟨before, after, rfl⟩ := List.append_of_mem h
  rw [List.splitOn_append_cons_self, List.length_append]
  have hbefore := List.length_pos_iff.mpr (List.splitOn_ne_nil d before)
  have hafter := List.length_pos_iff.mpr (List.splitOn_ne_nil d after)
  omega

theorem splitOn_eq_pair_iff {d : α} {text a b : List α} :
    text.splitOn d = [a, b] ↔ text = a ++ d :: b ∧ d ∉ a ∧ d ∉ b := by
  constructor
  · intro h
    have htext : text = a ++ d :: b := by
      have hjoin : [d].intercalate (text.splitOn d) = text := List.intercalate_splitOn d
      rw [h] at hjoin
      simpa [List.intercalate] using hjoin.symm
    have hlength : (a.splitOn d).length + (b.splitOn d).length = 2 := by
      rw [htext, List.splitOn_append_cons_self] at h
      simpa using congrArg List.length h
    have ha := List.length_pos_iff.mpr (List.splitOn_ne_nil d a)
    have hb := List.length_pos_iff.mpr (List.splitOn_ne_nil d b)
    refine ⟨htext, fun hmem => ?_, fun hmem => ?_⟩
    · have := two_le_length_splitOn hmem
      omega
    · have := two_le_length_splitOn hmem
      omega
  · rintro ⟨rfl, ha, hb⟩
    rw [List.splitOn_append_cons_self, List.splitOn_eq_singleton ha, List.splitOn_eq_singleton hb]
    rfl

end Lines
