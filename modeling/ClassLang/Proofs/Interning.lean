import ClassLang.Proofs.Growth
import Mathlib.Data.List.Dedup

/-!
# Interning of constants

The pool of constants is an exact interning table (`ConstantPool.interns`). Its indices read back what was added
and never move, two additions get one index exactly if they add the same string or numbers with the same bits,
and nothing is held twice.

A pool can be searched, as `ConstantPool` is, or it can find its entries by lookups, one for the bits of numbers
and one for strings (`IndexedPool`). The lookups and the entries have to stay in step (`IndexedPool.InStep`). Of
either pool it is shown what one addition does to the entries (`Appends`), and from that, by induction, what any
number of additions does (`Appends.run`). Two pools whose additions do the same to their entries give the same
answers (`Appends.agree`), so the search can stand for the lookups.
-/

namespace ClassLang

variable {σ σ' γ γ' κ : Type}

/-! ## Additions -/

/-- Adds values one after the other: the index of each, and the pool with all of them. -/
def addAll (add : σ → γ → Nat × σ) (pool : σ) : List γ → List Nat × σ
  | [] => ([], pool)
  | c :: cs =>
    let (index, pool') := add pool c
    let (indices, pool'') := addAll add pool' cs
    (index :: indices, pool'')

theorem addAll_append (add : σ → γ → Nat × σ) (pool : σ) (cs ds : List γ) :
    (addAll add pool (cs ++ ds)).2 = (addAll add (addAll add pool cs).2 ds).2 := by
  induction cs generalizing pool with
  | nil => rfl
  | cons c cs ih => exact ih (add pool c).2

/-- A pool that is filled from `start` on interns exactly. Values are the same for it if they have the same
key. -/
structure Interns [DecidableEq κ] (add : σ → γ → Nat × σ) (get? : σ → Nat → Option γ) (size : σ → Nat)
    (key : γ → κ) (start : σ) : Prop where
  /-- Every addition gets an index. -/
  answers : ∀ cs, (addAll add start cs).1.length = cs.length
  /-- The index reads back the value, at once and behind any later additions. -/
  reads : ∀ cs later (k i : Nat) c, (addAll add start cs).1[k]? = some i → cs[k]? = some c →
    (get? (addAll add start (cs ++ later)).2 i).map key = some (key c)
  /-- Two additions get the same index exactly if they add the same value. -/
  same : ∀ cs (j k i i' : Nat) c c', (addAll add start cs).1[j]? = some i →
    (addAll add start cs).1[k]? = some i' → cs[j]? = some c → cs[k]? = some c' →
    (i = i' ↔ key c = key c')
  /-- What is held is what was added. -/
  holds : ∀ cs x, (∃ i, (get? (addAll add start cs).2 i).map key = some x) ↔ x ∈ cs.map key
  /-- It is held once. -/
  once : ∀ cs i j x, (get? (addAll add start cs).2 i).map key = some x →
    (get? (addAll add start cs).2 j).map key = some x → i = j
  /-- The pool has as many entries as there are different values, at the indices from 0 on. -/
  counts : ∀ cs, size (addAll add start cs).2 = (cs.map key).dedup.length
  dense : ∀ cs i, (get? (addAll add start cs).2 i).isSome ↔ i < size (addAll add start cs).2
  /-- An index is at most the number of additions in front of its own, so 32 bits hold those of the first `2 ^ 32`
  additions. -/
  bounded : ∀ cs (k i : Nat), (addAll add start cs).1[k]? = some i → i ≤ k

/-- What an addition does to a pool with the given entries. The index is that of the entry with the key; if
there is none, one is put behind the others. The pool may have to be `ready` for that, and then it stays so. -/
structure Appends [DecidableEq κ] (add : σ → γ → Nat × σ) (key : γ → κ) (entries : σ → List κ)
    (ready : σ → Prop) : Prop where
  stays : ∀ s c, ready s → ready (add s c).2
  index : ∀ s c, ready s → (add s c).1 = (entries s).idxOf (key c)
  appended : ∀ s c, ready s → entries (add s c).2 =
    if key c ∈ entries s then entries s else entries s ++ [key c]

namespace Appends

variable [DecidableEq κ] {add : σ → γ → Nat × σ} {key : γ → κ} {entries : σ → List κ} {ready : σ → Prop}
  {add' : σ' → γ' → Nat × σ'} {key' : γ' → κ} {entries' : σ' → List κ} {ready' : σ' → Prop}

/-- A pool that finds the entry with the key, or else puts one behind the others. -/
theorem of_find (find : σ → γ → Option Nat) (push : σ → γ → σ)
    (hadd : ∀ s c, add s c = match find s c with
      | some index => (index, s)
      | none => ((entries s).length, push s c))
    (hfind : ∀ s c, ready s → find s c = (entries s).idxOf? (key c))
    (hpush : ∀ s c, entries (push s c) = entries s ++ [key c])
    (hready : ∀ s c, ready s → find s c = none → ready (push s c)) : Appends add key entries ready := by
  have hcases (s : σ) (c : γ) (hs : ready s) :
      (key c ∈ entries s ∧ add s c = ((entries s).idxOf (key c), s)) ∨
        (key c ∉ entries s ∧ find s c = none ∧ add s c = ((entries s).length, push s c)) := by
    cases hfound : find s c with
    | some i =>
      have hmem : key c ∈ entries s := by
        rw [← List.isSome_idxOf?, ← hfind s c hs, hfound, Option.isSome_some]
      have hi : i = (entries s).idxOf (key c) := by
        rw [List.idxOf_eq_getD_idxOf?, ← hfind s c hs, hfound, Option.getD_some]
      exact .inl ⟨hmem, by rw [hadd, hfound, hi]⟩
    | none =>
      have hnot : key c ∉ entries s := List.idxOf?_eq_none_iff.mp (hfind s c hs ▸ hfound)
      exact .inr ⟨hnot, rfl, by rw [hadd, hfound]⟩
  constructor
  case stays =>
    intro s c hs
    rcases hcases s c hs with ⟨_, heq⟩ | ⟨_, hnone, heq⟩
    · rwa [heq]
    · rw [heq]
      exact hready s c hs hnone
  case index =>
    intro s c hs
    rcases hcases s c hs with ⟨_, heq⟩ | ⟨hnot, _, heq⟩
    · rw [heq]
    · rw [heq, List.idxOf_of_notMem hnot]
  case appended =>
    intro s c hs
    rcases hcases s c hs with ⟨hmem, heq⟩ | ⟨hnot, _, heq⟩
    · rw [heq, if_pos hmem]
    · rw [heq, if_neg hnot, hpush]

/-- Additions leave the entries where they are, and each value behind its index. -/
structure Run (key : γ → κ) (before after : List κ) (cs : List γ) (indices : List Nat) : Prop where
  kept : before <+: after
  indices : indices = cs.map fun c => after.idxOf (key c)
  mem : ∀ x, x ∈ after ↔ x ∈ before ∨ x ∈ cs.map key
  nodup : before.Nodup → after.Nodup

/-- One addition. -/
theorem step (h : Appends add key entries ready) {s : σ} (hs : ready s) (c : γ) :
    Run key (entries s) (entries (add s c).2) [c] [(add s c).1] := by
  rw [h.index s c hs, h.appended s c hs]
  by_cases hmem : key c ∈ entries s
  · rw [if_pos hmem]
    exact ⟨List.prefix_rfl, rfl, fun x => by simp; rintro rfl; exact hmem, id⟩
  · rw [if_neg hmem]
    refine ⟨List.prefix_append _ _, ?_, by simp, fun hnd => ?_⟩
    · simp [List.idxOf_append_of_notMem hmem, List.idxOf_of_notMem hmem]
    · exact List.nodup_append.mpr ⟨hnd, by simp, by
        rintro x hx y hy rfl
        exact hmem (List.mem_singleton.mp hy ▸ hx)⟩

/-- Any number of additions. -/
theorem run (h : Appends add key entries ready) {s : σ} (hs : ready s) (cs : List γ) :
    ready (addAll add s cs).2 ∧
      Run key (entries s) (entries (addAll add s cs).2) cs (addAll add s cs).1 := by
  induction cs generalizing s with
  | nil => exact ⟨hs, List.prefix_rfl, rfl, by simp [addAll], id⟩
  | cons c cs ih =>
    have hfirst := h.step hs c
    obtain ⟨hready, hrest⟩ := ih (h.stays s c hs)
    refine ⟨hready, hfirst.kept.trans hrest.kept, ?_, fun x => ?_, fun hnd => hrest.nodup (hfirst.nodup hnd)⟩
    · -- The entry of the first value is there behind the first addition, and it stays where it is.
      have hmem : key c ∈ entries (add s c).2 := (hfirst.mem _).mpr (.inr (by simp))
      have hindex : (add s c).1 = (entries (add s c).2).idxOf (key c) := by
        simpa using hfirst.indices
      simp only [addAll, List.map_cons, hindex, hrest.kept.idxOf_eq_of_mem hmem, hrest.indices]
    · simp only [addAll, hrest.mem, hfirst.mem, List.map_cons, List.map_nil, List.mem_cons,
        List.not_mem_nil, or_false, or_assoc]

/-- Two pools with the same entries give the same answers to additions of values with the same keys, and have
the same entries again. -/
theorem agree (h : Appends add key entries ready) (h' : Appends add' key' entries' ready') {s : σ} {s' : σ'}
    (hs : ready s) (hs' : ready' s') (heq : entries s = entries' s') {cs : List γ} {cs' : List γ'}
    (hcs : cs.map key = cs'.map key') :
    (addAll add s cs).1 = (addAll add' s' cs').1 ∧
      entries (addAll add s cs).2 = entries' (addAll add' s' cs').2 := by
  induction cs generalizing s s' cs' with
  | nil =>
    obtain rfl := List.map_eq_nil_iff.mp hcs.symm
    exact ⟨rfl, heq⟩
  | cons c cs ih =>
    obtain ⟨c', cs', rfl, hc, hcs⟩ := List.map_eq_cons_iff.mp hcs.symm
    have hnext : entries (add s c).2 = entries' (add' s' c').2 := by
      rw [h.appended s c hs, h'.appended s' c' hs', heq, hc]
    obtain ⟨hindices, hentries⟩ := ih (h.stays s c hs) (h'.stays s' c' hs') hnext hcs.symm
    refine ⟨?_, hentries⟩
    simp only [addAll, hindices, h.index s c hs, h'.index s' c' hs', heq, hc]

/-- What an index was given for stands at the index. -/
theorem Run.stands {before after : List κ} {cs : List γ} {indices : List Nat} (h : Run key before after cs indices)
    {k i : Nat} {c : γ} (hi : indices[k]? = some i) (hc : cs[k]? = some c) :
    i = after.idxOf (key c) ∧ key c ∈ after := by
  rw [h.indices, List.getElem?_map, hc, Option.map_some, Option.some_inj] at hi
  exact ⟨hi.symm, (h.mem _).mpr (.inr (List.mem_map_of_mem (List.mem_of_getElem? hc)))⟩

/-- An empty pool to which this is what an addition does interns exactly. -/
theorem interns_empty (h : Appends add key entries ready) {get? : σ → Nat → Option γ} {size : σ → Nat} {start : σ}
    (hstart : ready start) (hempty : entries start = [])
    (hget : ∀ s i, (get? s i).map key = (entries s)[i]?) (hsize : ∀ s, size s = (entries s).length) :
    Interns add get? size key start := by
  have hrun (cs : List γ) : Run key [] (entries (addAll add start cs).2) cs (addAll add start cs).1 :=
    hempty ▸ (h.run hstart cs).2
  have hmem (cs : List γ) (x : κ) : x ∈ entries (addAll add start cs).2 ↔ x ∈ cs.map key := by
    simpa using (hrun cs).mem x
  have hnodup (cs : List γ) : (entries (addAll add start cs).2).Nodup := (hrun cs).nodup List.nodup_nil
  have hcount (cs : List γ) : (entries (addAll add start cs).2).length = (cs.map key).dedup.length := by
    refine ((List.perm_ext_iff_of_nodup (hnodup cs) (List.nodup_dedup _)).mpr fun x => ?_).length_eq
    rw [hmem, List.mem_dedup]
  constructor
  case answers =>
    intro cs
    rw [(hrun cs).indices, List.length_map]
  case reads =>
    intro cs later k i c hi hc
    obtain ⟨rfl, hheld⟩ := (hrun cs).stands hi hc
    have hkept := (h.run (h.run hstart cs).1 later).2.kept
    rw [hget, addAll_append, hkept.idxOf_eq_of_mem hheld]
    exact List.getElem?_idxOf (hkept.mem hheld)
  case same =>
    intro cs j k i i' c c' hi hi' hc hc'
    obtain ⟨rfl, hheld⟩ := (hrun cs).stands hi hc
    obtain ⟨rfl, _⟩ := (hrun cs).stands hi' hc'
    exact List.idxOf_inj hheld
  case holds =>
    intro cs x
    simp only [hget, ← hmem, List.mem_iff_getElem?]
  case once =>
    intro cs i j x hi hj
    rw [hget] at hi hj
    exact (List.getElem?_inj (List.getElem?_eq_some_iff.mp hi).1 (hnodup cs)).mp (hi.trans hj.symm)
  case counts => exact fun cs => (hsize _).trans (hcount cs)
  case dense =>
    intro cs i
    rw [hsize, ← Option.isSome_map, hget]
    simp
  case bounded =>
    intro cs k i hi
    -- The value is among the entries that the first additions, its own being the last of them, leave.
    have hk : k < cs.length := by
      simpa [(hrun cs).indices] using (List.getElem?_eq_some_iff.mp hi).1
    obtain ⟨rfl, _⟩ := (hrun cs).stands hi (List.getElem?_eq_getElem hk)
    have hheld : key cs[k] ∈ entries (addAll add start (cs.take (k + 1))).2 :=
      (hmem _ _).mpr (List.mem_map_of_mem (List.mem_take_iff_getElem.mpr ⟨k, by omega, rfl⟩))
    have hkept := (h.run (h.run hstart (cs.take (k + 1))).1 (cs.drop (k + 1))).2.kept
    rw [← addAll_append, List.take_append_drop] at hkept
    have hlt := List.idxOf_lt_length_of_mem hheld
    have hle := calc (entries (addAll add start (cs.take (k + 1))).2).length
      _ = ((cs.take (k + 1)).map key).dedup.length := hcount _
      _ ≤ ((cs.take (k + 1)).map key).length := (List.dedup_sublist _).length_le
      _ ≤ k + 1 := by
        rw [List.length_map]
        exact List.length_take_le _ _
    rw [← hkept.idxOf_eq_of_mem hheld]
    omega

end Appends

/-! ## Constants -/

/-- What tells constants apart: the bits of a number, or a string. All patterns of 64 bits are keys, also the many
that are not a number, of which `Float` has but one. -/
inductive ConstantKey where
  | number (bits : UInt64)
  | string (content : String)
deriving DecidableEq

/-- The key of a constant. -/
def Constant.key : Constant → ConstantKey
  | .number x => .number x.toBits
  | .string s => .string s

/-- Constants with one key are the same constant. -/
theorem Constant.same_iff {c d : Constant} : c.same d = true ↔ c.key = d.key := by
  cases c <;> cases d <;> simp [same, key]

namespace ConstantPool

/-- The keys of the constants in the order of their indices. -/
def keys (pool : ConstantPool) : List ConstantKey := pool.values.toList.map Constant.key

/-- The search for a constant finds the entry with its key. -/
theorem add_appends : Appends add Constant.key keys fun _ => True := by
  have hsame (c : Constant) : (·.same c) = (· == c.key) ∘ Constant.key := by
    funext d
    rw [Bool.eq_iff_iff, Constant.same_iff, Function.comp_apply, beq_iff_eq]
  refine .of_find (fun pool c => pool.values.findIdx? (·.same c)) (fun pool c => ⟨pool.values.push c⟩)
    (fun pool c => ?_) (fun pool c _ => ?_) (fun pool c => ?_)
    fun _ _ _ _ => trivial
  · simp only [add, keys, List.length_map, Array.length_toList]
    rfl
  · rw [hsame, keys, List.idxOf?, List.findIdx?_map, ← List.findIdx?_toArray, Array.toArray_toList]
  · simp [keys]

end ConstantPool

/-- A pool that finds what it holds by lookups: the keys in the order of the indices, the index of the bits of each
number, and that of each string. -/
structure IndexedPool where
  values : Array ConstantKey
  numbers : Std.HashMap UInt64 Nat
  strings : Std.HashMap String Nat

namespace IndexedPool

/-- A pool without constants. -/
def empty : IndexedPool := ⟨#[], ∅, ∅⟩

/-- The number of constants. -/
def size (pool : IndexedPool) : Nat := pool.values.size

/-- The key at an index. -/
def get? (pool : IndexedPool) (index : Nat) : Option ConstantKey := pool.values[index]?

/-- The index of a key, by the lookup for its kind. -/
def lookup? (pool : IndexedPool) : ConstantKey → Option Nat
  | .number bits => pool.numbers[bits]?
  | .string content => pool.strings[content]?

/-- Puts a key behind the others and enters it into the lookup for its kind. -/
def push (pool : IndexedPool) (key : ConstantKey) : IndexedPool :=
  match key with
  | .number bits => ⟨pool.values.push key, pool.numbers.insert bits pool.size, pool.strings⟩
  | .string content => ⟨pool.values.push key, pool.numbers, pool.strings.insert content pool.size⟩

/-- The index of a key, and the pool with it. -/
def add (pool : IndexedPool) (key : ConstantKey) : Nat × IndexedPool :=
  match pool.lookup? key with
  | some index => (index, pool)
  | none => (pool.size, pool.push key)

/-- The lookups find each key where it stands, and nothing else. -/
def InStep (pool : IndexedPool) : Prop :=
  ∀ key (i : Nat), pool.lookup? key = some i ↔ pool.get? i = some key

variable {pool : IndexedPool} {key : ConstantKey}

theorem values_push : (pool.push key).values = pool.values.push key := by
  cases key <;> rfl

theorem lookup_push {key' : ConstantKey} :
    (pool.push key).lookup? key' = if key = key' then some pool.size else pool.lookup? key' := by
  cases key <;> cases key' <;> simp [push, lookup?, Std.HashMap.getElem?_insert]

theorem inStep_empty : empty.InStep := by
  intro key i
  cases key <;> simp [empty, lookup?, get?]

/-- A key that is not there may be put behind the others. -/
theorem InStep.push (h : pool.InStep) (hnew : pool.lookup? key = none) : (pool.push key).InStep := by
  intro key' i
  rw [lookup_push, get?, values_push, Array.getElem?_push]
  by_cases hkey : key = key'
  · subst hkey
    have hnot : ¬ pool.values[i]? = some key := fun hi => by simp [(h key i).mpr hi] at hnew
    by_cases hi : i = pool.values.size
    · simp [hi, size]
    · simp [hi, hnot, size, eq_comm]
  · by_cases hi : i = pool.values.size
    · have hnot : ¬ pool.lookup? key' = some i := fun hfound => by
        simpa [get?, hi] using (h key' i).mp hfound
      simp [hi ▸ hnot, hkey, hi]
    · simpa [hkey, hi, get?] using h key' i

/-- A lookup finds the entry with the key. -/
theorem InStep.lookup_eq (h : pool.InStep) : pool.lookup? key = pool.values.toList.idxOf? key := by
  cases hfound : pool.values.toList.idxOf? key with
  | none =>
    refine Option.eq_none_iff_forall_not_mem.mpr fun i hi => ?_
    have hentry : pool.values.toList[i]? = some key := by simpa [get?] using (h key i).mp hi
    exact List.idxOf?_eq_none_iff.mp hfound (List.mem_of_getElem? hentry)
  | some i =>
    obtain ⟨hlt, hentry, _⟩ := List.idxOf?_eq_some_iff.mp hfound
    refine (h key i).mpr ?_
    rw [get?, ← Array.getElem?_toList, List.getElem?_eq_getElem hlt]
    exact congrArg some (by simpa using hentry)

theorem add_appends : Appends add id (·.values.toList) InStep := by
  refine .of_find lookup? push (fun _ _ => rfl) (fun _ _ h => h.lookup_eq) (fun pool key => ?_)
    fun _ _ h => h.push
  rw [values_push, Array.toList_push, id]

end IndexedPool

/-- The pool of constants interns exactly, by strings and bits of numbers, and so does the pool that works with
lookups, by whatever keys. To the same additions they give the same answers, and they hold the same. -/
theorem ConstantPool.interns :
    Interns ConstantPool.add ConstantPool.get? ConstantPool.size Constant.key .empty ∧
    Interns IndexedPool.add IndexedPool.get? IndexedPool.size id .empty ∧
    ∀ cs : List Constant,
      (addAll ConstantPool.add .empty cs).1 = (addAll IndexedPool.add .empty (cs.map Constant.key)).1 ∧
      ∀ i, ((addAll ConstantPool.add .empty cs).2.get? i).map Constant.key =
        (addAll IndexedPool.add .empty (cs.map Constant.key)).2.get? i := by
  refine ⟨add_appends.interns_empty trivial rfl (fun pool i => ?_) (fun pool => ?_),
    IndexedPool.add_appends.interns_empty IndexedPool.inStep_empty rfl (fun pool i => ?_) (fun pool => ?_),
    fun cs => ?_⟩
  · simp [get?, keys]
  · simp [size, keys]
  · simp [IndexedPool.get?]
  · simp [IndexedPool.size]
  · obtain ⟨hindices, hentries⟩ := add_appends.agree IndexedPool.add_appends trivial IndexedPool.inStep_empty
      (rfl : ConstantPool.empty.keys = IndexedPool.empty.values.toList) (List.map_id (cs.map Constant.key)).symm
    refine ⟨hindices, fun i => ?_⟩
    have hentry := congrArg (·[i]?) hentries
    simpa [keys, get?, IndexedPool.get?] using hentry

/-- Zeros of different sign, and a string that reads like a number. -/
example : (addAll ConstantPool.add .empty
    [.number 0.0, .number (-0.0), .string "0", .number 0.0, .string "", .string "0"]).1 = [0, 1, 2, 0, 3, 2] := by
  decide +kernel

end ClassLang
