/-
Association lists kept in key order.

`insert` replaces the value of a key that is there and otherwise puts the new
pair before the first larger key.  The two laws of `find` hold of every list,
sorted or not.

* `Sorted.insertAll` — the keys stay in order;
* `insertAll_append` — members that come in order are appended.
-/
import Mathlib.Data.List.Basic

namespace SortedAssoc

variable {κ ν : Type*} [DecidableEq κ]

/-- The value of a key. -/
def find (key : κ) : List (κ × ν) → Option ν
  | [] => none
  | (k, v) :: rest => if key = k then some v else find key rest

theorem mem_of_find {key : κ} {value : ν} {l : List (κ × ν)} (h : find key l = some value) :
    (key, value) ∈ l := by
  induction l with
  | nil => cases h
  | cons q rest ih =>
    obtain ⟨k, v⟩ := q
    rw [find] at h
    split_ifs at h with hk
    · obtain rfl := Option.some.inj h
      exact hk ▸ .head _
    · exact .tail _ (ih h)

theorem find_map (f : ν → ν) (key : κ) (l : List (κ × ν)) :
    find key (l.map fun p => (p.1, f p.2)) = (find key l).map f := by
  induction l with
  | nil => rfl
  | cons q rest ih =>
    rw [List.map_cons, find, find, ih]
    split_ifs <;> rfl

section Insert

variable [LT κ] [DecidableLT κ]

/-- Set the value of a key. -/
def insert (key : κ) (value : ν) : List (κ × ν) → List (κ × ν)
  | [] => [(key, value)]
  | (k, v) :: rest =>
    if key = k then (key, value) :: rest
    else if key < k then (key, value) :: (k, v) :: rest
    else (k, v) :: insert key value rest

@[simp] theorem find_insert_self (key : κ) (value : ν) (l : List (κ × ν)) :
    find key (insert key value l) = some value := by
  induction l with
  | nil => simp [insert, find]
  | cons pair rest ih =>
    obtain ⟨k, v⟩ := pair
    rw [insert]
    split_ifs with h h'
    · simp [find]
    · simp [find]
    · rw [find, if_neg h, ih]

theorem find_insert_ne {key key' : κ} (h : key' ≠ key) (value : ν) (l : List (κ × ν)) :
    find key' (insert key value l) = find key' l := by
  induction l with
  | nil => simp [insert, find, h]
  | cons pair rest ih =>
    obtain ⟨k, v⟩ := pair
    rw [insert]
    split_ifs with hk hlt
    · subst hk
      simp [find, h]
    · simp [find, h]
    · rw [find, find, ih]

/-- The last value that is set counts. -/
@[simp] theorem insert_insert_self (key : κ) (value value' : ν) (l : List (κ × ν)) :
    insert key value (insert key value' l) = insert key value l := by
  induction l with
  | nil => simp [insert]
  | cons pair rest ih =>
    obtain ⟨k, v⟩ := pair
    rw [insert, insert]
    split_ifs with h h'
    · simp [insert]
    · simp [insert]
    · rw [insert, if_neg h, if_neg h', ih]

/-- Set several keys, the later ones last. -/
def insertAll (fields : List (κ × ν)) (l : List (κ × ν)) : List (κ × ν) :=
  fields.foldl (fun acc field => insert field.1 field.2 acc) l

theorem find_insertAll_of_notMem {key : κ} (fields l : List (κ × ν))
    (h : key ∉ fields.map Prod.fst) : find key (insertAll fields l) = find key l := by
  induction fields generalizing l with
  | nil => rfl
  | cons field fields ih =>
    simp only [List.map_cons, List.mem_cons, not_or] at h
    show find key (insertAll fields (insert field.1 field.2 l)) = find key l
    rw [ih _ h.2, find_insert_ne h.1]

theorem find_insertAll_congr {key : κ} (fields : List (κ × ν)) {l l' : List (κ × ν)}
    (h : find key l = find key l') :
    find key (insertAll fields l) = find key (insertAll fields l') := by
  induction fields generalizing l l' with
  | nil => exact h
  | cons field fields ih =>
    refine ih ?_
    by_cases hk : key = field.1
    · rw [hk, find_insert_self, find_insert_self]
    · rw [find_insert_ne hk, find_insert_ne hk, h]

theorem insert_map (f : ν → ν) (key : κ) (value : ν) (l : List (κ × ν)) :
    insert key (f value) (l.map fun p => (p.1, f p.2))
      = (insert key value l).map fun p => (p.1, f p.2) := by
  induction l with
  | nil => rfl
  | cons q rest ih =>
    rw [List.map_cons, insert, insert, ih]
    split_ifs <;> rfl

theorem mem_insert {key : κ} {value : ν} {l : List (κ × ν)} {p : κ × ν}
    (h : p ∈ insert key value l) : p = (key, value) ∨ p ∈ l := by
  induction l with
  | nil => exact .inl (List.mem_singleton.mp h)
  | cons q rest ih =>
    obtain ⟨k, v⟩ := q
    rw [insert] at h
    split_ifs at h with hk hlt
    · exact (List.mem_cons.mp h).imp_right (.tail _)
    · exact List.mem_cons.mp h
    · rcases List.mem_cons.mp h with rfl | h
      · exact .inr (.head _)
      · exact (ih h).imp_right (.tail _)

theorem mem_insertAll {fields l : List (κ × ν)} {p : κ × ν} (h : p ∈ insertAll fields l) :
    p ∈ fields ∨ p ∈ l := by
  induction fields generalizing l with
  | nil => exact .inr h
  | cons field fields ih =>
    rcases ih (l := insert field.1 field.2 l) h with h | h
    · exact .inl (.tail _ h)
    · rcases mem_insert h with rfl | h
      · exact .inl (.head _)
      · exact .inr h

/-- The keys ascend. -/
def Sorted (l : List (κ × ν)) : Prop := l.Pairwise fun p q => p.1 < q.1

theorem Sorted.map {κ ν : Type*} [LT κ] {l : List (κ × ν)} (h : Sorted l) (f : ν → ν) :
    Sorted (l.map fun p => (p.1, f p.2)) := List.pairwise_map.mpr h

end Insert

section Order

variable [LT κ] [DecidableLT κ] [LE κ] [Std.LawfulOrderLT κ]

/-- A larger key goes to the end. -/
theorem insert_of_forall_lt {key : κ} {l : List (κ × ν)} (h : ∀ p ∈ l, p.1 < key) (value : ν) :
    insert key value l = l ++ [(key, value)] := by
  induction l with
  | nil => rfl
  | cons q rest ih =>
    obtain ⟨k, v⟩ := q
    obtain ⟨hk, hrest⟩ := List.forall_mem_cons.mp h
    rw [insert, if_neg (Std.ne_of_lt hk).symm, if_neg (Std.not_gt_of_lt hk), ih hrest]
    rfl

/-- Members in order are set one behind the other. -/
theorem insertAll_append {fields l : List (κ × ν)} (h : Sorted (l ++ fields)) :
    insertAll fields l = l ++ fields := by
  induction fields generalizing l with
  | nil => exact (List.append_nil l).symm
  | cons field fields ih =>
    have hlt : ∀ p ∈ l, p.1 < field.1 := fun p hp =>
      (List.pairwise_append.mp h).2.2 p hp field (.head _)
    show insertAll fields (insert field.1 field.2 l) = _
    rw [insert_of_forall_lt hlt, ih (by rwa [List.append_assoc]), List.append_assoc]
    rfl

variable [Std.IsLinearOrder κ]

/-- `insert` keeps the order. -/
theorem Sorted.insert {l : List (κ × ν)} (h : Sorted l) (key : κ) (value : ν) :
    Sorted (SortedAssoc.insert key value l) := by
  induction l with
  | nil => exact List.pairwise_singleton _ _
  | cons q rest ih =>
    obtain ⟨k, v⟩ := q
    obtain ⟨hk, hrest⟩ := List.pairwise_cons.mp h
    rw [SortedAssoc.insert]
    split_ifs with heq hlt
    · subst heq
      exact List.pairwise_cons.mpr ⟨hk, hrest⟩
    · refine List.pairwise_cons.mpr ⟨List.forall_mem_cons.mpr ⟨hlt, fun p hp => ?_⟩, h⟩
      exact Std.lt_trans hlt (hk p hp)
    · refine List.pairwise_cons.mpr ⟨fun p hp => ?_, ih hrest⟩
      rcases mem_insert hp with rfl | hp
      · exact Std.lt_of_le_of_ne (Std.not_lt.mp hlt) (Ne.symm heq)
      · exact hk p hp

theorem Sorted.insertAll {l : List (κ × ν)} (h : Sorted l) (fields : List (κ × ν)) :
    Sorted (SortedAssoc.insertAll fields l) := by
  induction fields generalizing l with
  | nil => exact h
  | cons field fields ih => exact ih (h.insert field.1 field.2)

end Order

end SortedAssoc
