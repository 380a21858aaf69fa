import Mathlib.Data.List.Basic

/-!
# Scans of a list that changes

A list of cells is read from front to back, one cell at a time, while others
write the cells and put new ones in front. Nothing is taken away, so the place
of a scan is the number of cells that it has still to read.

* `IsSnapshot`: what was read, followed by what is still to be read, is one of
  the lists that existed since the scan began.
* `Allows`: a write that changes no cell ahead of the scan, or that leaves the
  cells behind it as they were read.
* `IsSnapshot.write`, `IsSnapshot.next`: under `Allows` a scan stays a snapshot;
  `IsSnapshot.read_mem`: a scan that has ended then read one of those lists.
-/

namespace Scan

variable {β : Type*}

/-- The cells that a scan with `k` cells to read has ahead. -/
def ahead (k : Nat) (cells : List β) : List β := cells.drop (cells.length - k)

/-- The cells that it has behind, those put in front meanwhile included. -/
def behind (k : Nat) (cells : List β) : List β := cells.take (cells.length - k)

@[simp] theorem ahead_zero (cells : List β) : ahead 0 cells = [] := by simp [ahead]

@[simp] theorem behind_zero (cells : List β) : behind 0 cells = cells := by simp [behind]

@[simp] theorem ahead_length (cells : List β) : ahead cells.length cells = cells := by
  simp [ahead]

@[simp] theorem behind_length (cells : List β) : behind cells.length cells = [] := by
  simp [behind]

/-- Reading the next cell moves it from ahead to behind. -/
theorem exists_next (cells : List β) {k : Nat} (h : k < cells.length) :
    ∃ b, ahead (k + 1) cells = b :: ahead k cells ∧
      behind k cells = behind (k + 1) cells ++ [b] := by
  have hlt : cells.length - (k + 1) < cells.length := by omega
  have hsucc : cells.length - k = cells.length - (k + 1) + 1 := by omega
  refine ⟨cells[cells.length - (k + 1)], ?_, ?_⟩
  · rw [ahead, ahead, hsucc]
    exact List.drop_eq_getElem_cons hlt
  · rw [behind, behind, hsucc]
    exact List.take_succ_eq_append_getElem hlt

/-- The cells now, how many of them a scan has still to read, what it has read,
and the lists that existed since it began. -/
structure State (β : Type*) where
  cells : List β
  unread : Nat
  read : List β
  history : List (List β)

namespace State

/-- A scan begins. -/
def start (cells : List β) : State β := ⟨cells, cells.length, [], [cells]⟩

/-- A write; a list that comes after the end of the scan is not one of its time. -/
def write (s : State β) (cells : List β) : State β :=
  { s with cells, history := if s.unread = 0 then s.history else s.history ++ [cells] }

/-- The scan reads its next cell; `none` at the end. -/
def next (s : State β) : Option (State β) :=
  match s.unread, ahead s.unread s.cells with
  | k + 1, b :: _ => some { s with unread := k, read := s.read ++ [b] }
  | _, _ => none

end State

/-- A scan that ended without another write would have read one of the lists. -/
def IsSnapshot (s : State β) : Prop :=
  ∃ l ∈ s.history, s.unread ≤ l.length ∧ behind s.unread l = s.read ∧
    ahead s.unread l = ahead s.unread s.cells

/-- A write that cannot be told from one before the scan, or from one after it. -/
def Allows (s : State β) (cells : List β) : Prop :=
  ahead s.unread cells = ahead s.unread s.cells ∨ behind s.unread cells = s.read

instance [DecidableEq β] (s : State β) (cells : List β) : Decidable (Allows s cells) :=
  inferInstanceAs (Decidable (_ ∨ _))

theorem isSnapshot_start (cells : List β) : IsSnapshot (State.start cells) :=
  ⟨cells, List.mem_singleton_self cells, Nat.le_refl _, behind_length cells, rfl⟩

theorem IsSnapshot.write {s : State β} (h : IsSnapshot s) {cells : List β}
    (hlen : s.unread ≤ cells.length) (hallows : Allows s cells) : IsSnapshot (s.write cells) := by
  obtain ⟨l, hl, hle, hread, hahead⟩ := h
  have hold : l ∈ (s.write cells).history := by
    rw [State.write]
    split
    · exact hl
    · exact List.mem_append_left _ hl
  rcases hallows with hsame | hbehind
  · exact ⟨l, hold, hle, hread, hahead.trans hsame.symm⟩
  · rcases Nat.eq_zero_or_pos s.unread with hzero | hpos
    · refine ⟨l, hold, hle, hread, ?_⟩
      show ahead s.unread l = ahead s.unread cells
      rw [hzero, ahead_zero, ahead_zero]
    · refine ⟨cells, ?_, hlen, hbehind, rfl⟩
      show cells ∈ if s.unread = 0 then s.history else s.history ++ [cells]
      rw [if_neg (Nat.ne_of_gt hpos)]
      exact List.mem_append_right _ (List.mem_singleton_self cells)

theorem next_some {s s' : State β} (h : s.next = some s') :
    ∃ b rest, s.unread = s'.unread + 1 ∧ ahead s.unread s.cells = b :: rest ∧
      s' = { s with unread := s'.unread, read := s.read ++ [b] } := by
  rw [State.next] at h
  split at h
  · next k b rest hk hahead =>
    obtain rfl := Option.some.inj h
    exact ⟨b, rest, hk, hahead, rfl⟩
  · exact absurd h (by simp)

theorem IsSnapshot.next {s s' : State β} (h : IsSnapshot s) (hlen : s.unread ≤ s.cells.length)
    (hnext : s.next = some s') : IsSnapshot s' := by
  obtain ⟨b, rest, hunread, hb, hs'⟩ := next_some hnext
  obtain ⟨l, hl, hle, hread, hahead⟩ := h
  rw [hunread] at hb hlen hle hread hahead
  obtain ⟨c, hc, hbehind⟩ := exists_next l hle
  obtain ⟨d, hd, -⟩ := exists_next s.cells hlen
  have hbd : b = d ∧ rest = ahead s'.unread s.cells := List.cons.inj (hb.symm.trans hd)
  have hcd : c = d ∧ ahead s'.unread l = ahead s'.unread s.cells :=
    List.cons.inj (hc.symm.trans (hahead.trans hd))
  rw [hs']
  refine ⟨l, hl, Nat.le_of_succ_le hle, ?_, hcd.2⟩
  show behind s'.unread l = s.read ++ [b]
  rw [hbehind, hread, hcd.1, hbd.1]

/-- A snapshot at the end of the scan is one of the lists. -/
theorem IsSnapshot.read_mem {s : State β} (h : IsSnapshot s) (hend : s.unread = 0) :
    s.read ∈ s.history := by
  obtain ⟨l, hl, -, hread, -⟩ := h
  rw [hend, behind_zero] at hread
  exact hread ▸ hl

end Scan
