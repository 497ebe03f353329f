import Mathlib.Data.List.Nodup

/-!
# Finding the entries of a list

Tables, pools and scopes keep their entries in lists and find them by a key. Where no key occurs twice, the
key of an entry finds it, and an entry that is put behind the others with a new key changes no other answer.
-/

namespace ClassLang

section

variable {α β κ : Type} {l : List α} {a b : α}

theorem mem_of_lookup [BEq κ] [LawfulBEq κ] {k : κ} {v : β} {l : List (κ × β)} (h : l.lookup k = some v) :
    (k, v) ∈ l := by
  obtain ⟨l₁, l₂, rfl, _⟩ := List.lookup_eq_some_iff.mp h
  simp

/-- Where no key occurs twice, the key of an entry finds it. -/
theorem find_of_nodup [BEq κ] [LawfulBEq κ] {key : α → κ} (hnd : (l.map key).Nodup) (ha : a ∈ l) :
    l.find? (key · == key a) = some a := by
  induction l with
  | nil => cases ha
  | cons b l ih =>
    rw [List.map_cons, List.nodup_cons] at hnd
    rcases List.mem_cons.mp ha with rfl | ha
    · simp
    · have hne : key b ≠ key a := fun heq => hnd.1 (heq ▸ List.mem_map_of_mem ha)
      rw [List.find?_cons_of_neg (by simpa using hne), ih hnd.2 ha]

/-! ## An entry behind the others -/

/-- An entry with a new key at the end is found by it, and the others are found as before. -/
theorem find_snoc [DecidableEq κ] {key : α → κ} (hnew : l.find? (key · == key a) = none) (k : κ) :
    (l ++ [a]).find? (key · == k) = if key a = k then some a else l.find? (key · == k) := by
  rw [List.find?_append, List.find?_singleton]
  by_cases hk : key a = k
  · subst hk
    simp [hnew]
  · simp [hk]

theorem getElem_snoc {i : Nat} :
    (l ++ [a])[i]? = some b ↔ l[i]? = some b ∨ i = l.length ∧ a = b := by
  rcases Nat.lt_trichotomy i l.length with hlt | rfl | hgt
  · simp [List.getElem?_append_left hlt, Nat.ne_of_lt hlt]
  · simp
  · have hbehind : (l ++ [a]).length ≤ i := by simpa using Nat.succ_le_of_lt hgt
    simp [List.getElem?_eq_none hbehind, List.getElem?_eq_none (Nat.le_of_lt hgt), Nat.ne_of_gt hgt]

theorem nodup_snoc (h : l.Nodup) (ha : a ∉ l) : (l ++ [a]).Nodup :=
  List.concat_eq_append ▸ h.concat ha

end

end ClassLang
