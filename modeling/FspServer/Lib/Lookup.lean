import Mathlib.Algebra.GroupWithZero.Nat
import Mathlib.Data.List.Basic
import Mathlib.Logic.Function.Basic

/-!
# Lookups in a map with natural keys

What a map holds after `insert`, `insertIfNew` and `erase`, key by key and as an
update of the lookup function; and the sum of a measure of its values (`total`).
The same for a list of rows, of which the first one with a key counts.
-/

namespace Lookup

variable {α : Type*} (m : Std.TreeMap Nat α) (id : Nat) (a : α)

theorem getElem?_insert (j : Nat) : (m.insert id a)[j]? = if j = id then some a else m[j]? := by
  rw [Std.TreeMap.getElem?_insert]
  simp only [Nat.compare_eq_eq, eq_comm (a := id)]

theorem getElem?_erase (j : Nat) : (m.erase id)[j]? = if j = id then none else m[j]? := by
  rw [Std.TreeMap.getElem?_erase]
  simp only [Nat.compare_eq_eq, eq_comm (a := id)]

/-- What is found after an insertion is the new value, or was there before. -/
theorem of_getElem?_insert {m : Std.TreeMap Nat α} {id j : Nat} {a b : α}
    (h : (m.insert id a)[j]? = some b) : j = id ∧ a = b ∨ j ≠ id ∧ m[j]? = some b := by
  rw [getElem?_insert] at h
  split at h
  · next hj => exact .inl ⟨hj, Option.some.inj h⟩
  · next hj => exact .inr ⟨hj, h⟩

theorem of_getElem?_insertIfNew {m : Std.TreeMap Nat α} {id j : Nat} {a b : α}
    (h : (m.insertIfNew id a)[j]? = some b) : j = id ∧ a = b ∨ m[j]? = some b := by
  rw [Std.TreeMap.getElem?_insertIfNew] at h
  split at h
  · next hj => exact .inl ⟨(Nat.compare_eq_eq.mp hj.1).symm, Option.some.inj h⟩
  · exact .inr h

theorem of_getElem?_erase {m : Std.TreeMap Nat α} {id j : Nat} {b : α}
    (h : (m.erase id)[j]? = some b) : j ≠ id ∧ m[j]? = some b := by
  rw [getElem?_erase] at h
  split at h
  · cases h
  · next hj => exact ⟨hj, h⟩

theorem mem_of_getElem? {m : Std.TreeMap Nat α} {id : Nat} {a : α} (h : m[id]? = some a) :
    id ∈ m := by
  rw [Std.TreeMap.mem_iff_isSome_getElem?, h]
  rfl

/-- Another value for a key that is there. -/
theorem contains_insert_of_getElem? {m : Std.TreeMap Nat α} {id : Nat} {a : α}
    (h : m[id]? = some a) (b : α) (j : Nat) : (m.insert id b).contains j = m.contains j := by
  rw [Std.TreeMap.contains_insert]
  by_cases hj : j = id
  · simp [hj, mem_of_getElem? h]
  · simp [Ne.symm hj]

/-- A new key is inserted. -/
theorem getElem?_insertIfNew {m : Std.TreeMap Nat α} {id : Nat} (h : m[id]? = none) (a : α)
    (j : Nat) : (m.insertIfNew id a)[j]? = if j = id then some a else m[j]? := by
  have hnew : id ∉ m := by
    rw [Std.TreeMap.mem_iff_isSome_getElem?, h]
    simp
  rw [Std.TreeMap.getElem?_insertIfNew]
  by_cases hj : j = id
  · subst hj
    simp [hnew]
  · have hne : ¬ id = j := fun heq => hj heq.symm
    simp [hj, hne]

theorem getElem?_insert_eq_update :
    (fun j => (m.insert id a)[j]?) = Function.update (fun j => m[j]?) id (some a) := by
  funext j
  rw [getElem?_insert, Function.update_apply]

theorem getElem?_erase_eq_update :
    (fun j => (m.erase id)[j]?) = Function.update (fun j => m[j]?) id none := by
  funext j
  rw [getElem?_erase, Function.update_apply]

theorem contains_insertIfNew_eq_update :
    (fun j => (m.insertIfNew id a).contains j) =
      Function.update (fun j => m.contains j) id true := by
  funext j
  rw [Std.TreeMap.contains_insertIfNew, Function.update_apply]
  by_cases hj : j = id
  · simp [hj]
  · simp [hj, Ne.symm hj]

/-! ## Sums over a map -/

/-- The sum of `f` over the values. -/
def total (f : α → Nat) (m : Std.TreeMap Nat α) : Nat := (m.toList.map fun e => f e.2).sum

theorem nodup_toList (m : Std.TreeMap Nat α) : m.toList.Nodup := by
  refine (Std.TreeMap.distinct_keys_toList (t := m)).imp fun {a b} hab heq => ?_
  rw [heq] at hab
  exact hab (Nat.compare_eq_eq.mpr rfl)

/-- Maps that differ at one key only have the same other entries. -/
theorem filter_toList_perm {m m' : Std.TreeMap Nat α} {id : Nat}
    (h : ∀ j, j ≠ id → m'[j]? = m[j]?) :
    (m'.toList.filter fun e => e.1 ≠ id).Perm (m.toList.filter fun e => e.1 ≠ id) := by
  refine (List.perm_ext_iff_of_nodup ((nodup_toList _).filter _)
    ((nodup_toList m).filter _)).mpr fun e => ?_
  obtain ⟨j, b⟩ := e
  rw [List.mem_filter, List.mem_filter, Std.TreeMap.mem_toList_iff_getElem?_eq_some,
    Std.TreeMap.mem_toList_iff_getElem?_eq_some]
  exact and_congr_left fun hj => by rw [h j (of_decide_eq_true hj)]

/-- The entries of a map are that of a key and the others. -/
theorem toList_perm (m : Std.TreeMap Nat α) (id : Nat) :
    m.toList.Perm (m[id]?.toList.map (fun a => (id, a)) ++
      m.toList.filter fun e => e.1 ≠ id) := by
  have hself : (m[id]?.toList.map fun a => (id, a)).Nodup := by
    cases m[id]? <;> simp
  refine (List.perm_ext_iff_of_nodup (nodup_toList m) (List.nodup_append.mpr
    ⟨hself, (nodup_toList m).filter _, ?_⟩)).mpr fun e => ?_
  · rintro e he _ he' rfl
    obtain ⟨a, -, rfl⟩ := List.mem_map.mp he
    simp at he'
  · obtain ⟨j, b⟩ := e
    rw [List.mem_append, List.mem_filter, Std.TreeMap.mem_toList_iff_getElem?_eq_some]
    rcases eq_or_ne j id with rfl | hj
    · simp
    · simp [hj, Ne.symm hj]

variable (f : α → Nat)

theorem total_eq : total f m = m[id]?.elim 0 f +
    ((m.toList.filter fun e => e.1 ≠ id).map fun e => f e.2).sum := by
  rw [total, ((toList_perm m id).map _).sum_nat]
  cases m[id]? <;> simp

/-- Erasing a key takes its value out of the sum. -/
theorem total_erase : total f (m.erase id) + m[id]?.elim 0 f = total f m := by
  have hothers : ((m.erase id).toList.filter fun e => e.1 ≠ id).Perm
      (m.toList.filter fun e => e.1 ≠ id) :=
    filter_toList_perm fun j hj => by rw [getElem?_erase, if_neg hj]
  rw [total_eq m id, total_eq (m.erase id) id, (hothers.map _).sum_nat, getElem?_erase,
    if_pos rfl]
  simp only [Option.elim_none]
  omega

/-- An insertion puts the new value in the place of the old one. -/
theorem total_insert : total f (m.insert id a) + m[id]?.elim 0 f = total f m + f a := by
  have hothers : ((m.insert id a).toList.filter fun e => e.1 ≠ id).Perm
      (m.toList.filter fun e => e.1 ≠ id) :=
    filter_toList_perm fun j hj => by rw [getElem?_insert, if_neg hj]
  rw [total_eq m id, total_eq (m.insert id a) id, (hothers.map _).sum_nat, getElem?_insert,
    if_pos rfl]
  simp only [Option.elim_some]
  omega

/-! ## Rows with a key -/

section Rows

variable {α β : Type*} [BEq α] [LawfulBEq α] [DecidableEq α] (k : α)

theorem lookup_cons_ite (row : α × β) (rows : List (α × β)) :
    (row :: rows).lookup k = if k = row.1 then some row.2 else rows.lookup k := by
  rw [List.lookup_cons]
  rcases eq_or_ne k row.1 with rfl | hne
  · simp
  · rw [if_neg hne, beq_false_of_ne hne]

/-- The first row with a key, looked up. -/
theorem map_find?_key (rows : List (α × β)) :
    (rows.find? fun row => row.1 = k).map Prod.snd = rows.lookup k := by
  induction rows with
  | nil => rfl
  | cons row rows ih =>
    rw [List.find?_cons, lookup_cons_ite]
    rcases eq_or_ne row.1 k with rfl | hne
    · simp
    · simp [hne, hne.symm, ih]

/-- A row with a new key at the end. -/
theorem lookup_concat {rows : List (α × β)} (h : rows.lookup k = none) (b : β) (j : α) :
    (rows ++ [(k, b)]).lookup j =
      Function.update (fun j => rows.lookup j) k (some b) j := by
  rw [List.lookup_append, lookup_cons_ite, Function.update_apply]
  rcases eq_or_ne j k with rfl | hne
  · simp [h]
  · simp [hne]

/-- A row with a new key in front. -/
theorem lookup_cons_eq_update (rows : List (α × β)) (b : β) (j : α) :
    ((k, b) :: rows).lookup j = Function.update (fun j => rows.lookup j) k (some b) j := by
  rw [lookup_cons_ite, Function.update_apply]

/-- Without the rows of a key. -/
theorem lookup_filter_key (rows : List (α × β)) (j : α) :
    (rows.filter fun row => row.1 ≠ k).lookup j =
      Function.update (fun j => rows.lookup j) k none j := by
  rw [Function.update_apply]
  induction rows with
  | nil => simp
  | cons row rows ih =>
    rw [List.filter_cons, lookup_cons_ite]
    rcases eq_or_ne row.1 k with rfl | hne
    · rw [if_neg (by simp), ih]
      split <;> rfl
    · rw [if_pos (by simpa using hne), lookup_cons_ite, ih]
      rcases eq_or_ne j k with rfl | hj
      · simp [hne.symm]
      · simp [hj]

end Rows
end Lookup
