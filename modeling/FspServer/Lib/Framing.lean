import Mathlib.Data.List.TakeDrop

/-!
# Length headers over a fragmented byte stream

A peer sees a byte stream as a list of fragments, cut anywhere.

* `read n` takes `n` bytes from the fragments, or all there are. What it takes
  and what it leaves depend on the stream only, not on where it is cut
  (`read_fst`, `flatten_read_snd`).
* `padded w n` is the decimal text of `n` filled with zeros to the width `w`. As
  bytes it has length `w` when the digits fit, and reading the digits back gives
  `n`.
-/

namespace Framing

/-! ## Reading from fragments -/

section Fragments

variable {α : Type*}

/-- The first `n` elements of the stream, and the fragments that are left. -/
def read : Nat → List (List α) → List α × List (List α)
  | _, [] => ([], [])
  | n, f :: fs =>
    if n < f.length then (f.take n, f.drop n :: fs)
    else
      let (a, rest) := read (n - f.length) fs
      (f ++ a, rest)

theorem read_eq (n : Nat) (fs : List (List α)) :
    (read n fs).1 = fs.flatten.take n ∧ (read n fs).2.flatten = fs.flatten.drop n := by
  induction fs generalizing n with
  | nil => simp [read]
  | cons f fs ih =>
    obtain ⟨htake, hdrop⟩ := ih (n - f.length)
    rw [read]
    by_cases hn : n < f.length
    · rw [if_pos hn, List.flatten_cons]
      constructor
      · exact (List.take_append_of_le_length (Nat.le_of_lt hn)).symm
      · exact (List.drop_append_of_le_length (Nat.le_of_lt hn)).symm
    · rw [if_neg hn, List.flatten_cons, List.take_append, List.drop_append,
        List.take_of_length_le (Nat.le_of_not_lt hn), List.drop_of_length_le (Nat.le_of_not_lt hn)]
      exact ⟨congrArg (f ++ ·) htake, hdrop⟩

theorem read_fst (n : Nat) (fs : List (List α)) : (read n fs).1 = fs.flatten.take n :=
  (read_eq n fs).1

theorem flatten_read_snd (n : Nat) (fs : List (List α)) :
    (read n fs).2.flatten = fs.flatten.drop n :=
  (read_eq n fs).2

/-- Reading as many elements as a part of the stream has gives that part. -/
theorem read_append {n : Nat} {fs : List (List α)} {a b : List α} (hn : a.length = n)
    (hfs : fs.flatten = a ++ b) : (read n fs).1 = a ∧ (read n fs).2.flatten = b := by
  rw [read_fst, flatten_read_snd, hfs, ← hn]
  exact ⟨List.take_left, List.drop_left⟩

end Fragments

/-! ## Decimal headers -/

/-- `n` in decimal, filled with zeros on the left to the width `w`. -/
def padded (w n : Nat) : List Char :=
  List.replicate (w - (Nat.toDigits 10 n).length) '0' ++ Nat.toDigits 10 n

theorem length_padded {w n : Nat} (h : (Nat.toDigits 10 n).length ≤ w) :
    (padded w n).length = w := by
  rw [padded, List.length_append, List.length_replicate]
  omega

theorem isDigit_of_mem_padded {w n : Nat} {c : Char} (h : c ∈ padded w n) : c.isDigit = true := by
  rw [padded, List.mem_append] at h
  cases h with
  | inl zero =>
    rw [List.eq_of_mem_replicate zero]
    rfl
  | inr digit => exact Nat.isDigit_of_mem_toDigits (by decide) (by decide) digit

theorem ofDigitChars_padded (w n : Nat) : Nat.ofDigitChars 10 (padded w n) 0 = n := by
  rw [padded, Nat.ofDigitChars_append, Nat.ofDigitChars_replicate_zero, Nat.mul_zero,
    Nat.ofDigitChars_ten_toDigits]

/-! ## Text as bytes -/

def toBytes (text : List Char) : List UInt8 := text.map Char.toUInt8

def ofBytes (bytes : List UInt8) : List Char := bytes.map Char.ofUInt8

@[simp] theorem length_toBytes (text : List Char) : (toBytes text).length = text.length :=
  List.length_map ..

theorem ofUInt8_toUInt8 {c : Char} (h : c.isDigit = true) : Char.ofUInt8 c.toUInt8 = c := by
  have hc : c.val.toNat ≤ 57 := by
    simp only [Char.isDigit, Bool.and_eq_true, decide_eq_true_eq] at h
    exact UInt32.le_iff_toNat_le.mp h.2
  apply Char.ext
  rw [← UInt32.toNat_inj]
  show c.val.toUInt8.toUInt32.toNat = c.val.toNat
  rw [UInt8.toNat_toUInt32, UInt32.toNat_toUInt8]
  omega

theorem ofBytes_toBytes {text : List Char} (h : ∀ c ∈ text, c.isDigit = true) :
    ofBytes (toBytes text) = text := by
  rw [ofBytes, toBytes, List.map_map]
  exact (List.map_congr_left (g := id) fun c hc => ofUInt8_toUInt8 (h c hc)).trans (List.map_id _)

end Framing
