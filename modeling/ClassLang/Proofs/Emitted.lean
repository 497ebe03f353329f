import ClassLang.Proofs.Growth
import Mathlib.Data.List.Forall2

/-!
# The code of a tree

What lowering emits, said as a relation between trees and instructions and apart from the algorithm
(`Emits` for expressions, `EmitsStmt` for statements). The relation knows the final pools only, and of
the slots it knows that the visible names have the slots from 1 on, the latest name the highest.

Lowering is right for these relations (`expr_emits`, `stmt_emits`). A closed scope gives its slots back,
which is why the visible names alone determine the slots.
-/

namespace ClassLang

/-- The slots of the visible names, the latest first. The receiver has slot 0. -/
def slotsOf : List String → List (String × Nat)
  | [] => []
  | x :: xs => (x, xs.length + 1) :: slotsOf xs

/-- The names that are visible behind a statement. -/
def Stmt.visible {ν : Type} (s : Stmt ν) (names : List String) : List String :=
  match s with
  | .define x _ _ _ => x.name :: names
  | _ => names

/-- An instruction that pushes a number. -/
inductive NumberCode (q : Pools) : Float → Instr → Prop
  | zero : NumberCode q 0.0 .pushZero
  | one : NumberCode q 1.0 .pushOne
  | pooled {x : Float} {i : Nat} :
      q.constants.get? i = some (.number x) → NumberCode q x (.pushConst i)

section

variable (q : Pools) (t : ClassTable)

/-- `Emits q t names e code`: where `names` are visible, `code` is the code of `e`. -/
inductive Emits (names : List String) : Expr Typing → List Instr → Prop
  | number {x : Float} {n : Typing} {i : Instr} :
      NumberCode q x i → Emits names (.number x n) [i]
  | string {c : String} {n : Typing} {i : Nat} :
      q.constants.get? i = some (.string c) → Emits names (.string c n) [.pushConst i]
  | boolean {b : Bool} {n : Typing} :
      Emits names (.boolean b n) [if b then .pushTrue else .pushFalse]
  | null {n : Typing} : Emits names (.null n) [.pushNull]
  | name {x : String} {n : Typing} {i : Nat} :
      (slotsOf names).lookup x = some i → Emits names (.name x n) [.load i]
  | this {n : Typing} : Emits names (.this n) [.load 0]
  | base {n : Typing} : Emits names (.base n) [.load 0]
  | member {e : Expr Typing} {x : Ident} {n : Typing} {code : List Instr} {τ : Ty} {owner : TypeId}
      {f : Field} :
      Emits names e code → e.note.type = some τ →
      t.lookupField? (Lower.classOf τ) x.name = some (owner, f) →
      Emits names (.member e x n) (code ++ [.getField f.offset])
  | call {e : Expr Typing} {x : Ident} {n n' : Typing} {es : List (Expr Typing)} {code : List Instr}
      {codes : List (List Instr)} {τ : Ty} {k m : Nat} :
      Emits names e code → e.note.type = some τ → TypeId.construct? (Lower.classOf τ) = some k →
      q.members[m]? = some (.named x.name) → List.Forall₂ (Emits names) es codes →
      Emits names (.call (.member e x n) es n') (code ++ codes.flatten ++ [Lower.call e k m])
  | new {c : Ident} {es : List (Expr Typing)} {n : Typing} {codes : List (List Instr)} {id : TypeId}
      {k m : Nat} :
      t.find? c.name = some id → TypeId.construct? id = some k →
      q.members[m]? = some .constructor → List.Forall₂ (Emits names) es codes →
      Emits names (.new c es n) ([.new k, .dup] ++ codes.flatten ++ [.invoke k m, .pop])
  | assignName {x : String} {n n' : Typing} {v : Expr Typing} {code : List Instr} {i : Nat} :
      (slotsOf names).lookup x = some i → Emits names v code →
      Emits names (.assign (.name x n) v n') (code ++ [.dup, .store i])
  | assignMember {e v : Expr Typing} {x : Ident} {n n' : Typing} {code code' : List Instr} {τ : Ty}
      {owner : TypeId} {f : Field} :
      Emits names e code → e.note.type = some τ →
      t.lookupField? (Lower.classOf τ) x.name = some (owner, f) → Emits names v code' →
      Emits names (.assign (.member e x n) v n') (code ++ code' ++ [.setField f.offset])
  | primitive {op : BinaryOp} {l r : Expr Typing} {n : Typing} {τ υ : Ty} {code code' : List Instr} :
      Emits names l code → Emits names r code' → l.note.type = some τ → r.note.type = some υ →
      Lower.isDedicated op τ υ = true →
      Emits names (.binary op l r n) (code ++ code' ++ [.binary op])
  | binary {op : BinaryOp} {l r : Expr Typing} {n : Typing} {τ υ : Ty} {code code' : List Instr}
      {k m : Nat} :
      Emits names l code → Emits names r code' → l.note.type = some τ → r.note.type = some υ →
      Lower.isDedicated op τ υ = false → TypeId.construct? (Lower.classOf τ) = some k →
      q.members[m]? = some (.binary op) →
      Emits names (.binary op l r n) (code ++ code' ++
        [if τ.isNullable && op.isEquality then .virtualOrAny k m else .callVirtual k m])
  | unaryPrimitive {op : UnaryOp} {e : Expr Typing} {n : Typing} {τ : Ty} {code : List Instr} :
      Emits names e code → e.note.type = some τ → Lower.isDedicatedUnary op τ = true →
      Emits names (.unary op e n) (code ++ [.unary op])
  | unary {op : UnaryOp} {e : Expr Typing} {n : Typing} {τ : Ty} {code : List Instr} {k m : Nat} :
      Emits names e code → e.note.type = some τ → Lower.isDedicatedUnary op τ = false →
      TypeId.construct? (Lower.classOf τ) = some k → q.members[m]? = some (.unary op) →
      Emits names (.unary op e n) (code ++ [.callVirtual k m])
  | assert {e : Expr Typing} {n : Typing} {code : List Instr} :
      Emits names e code → Emits names (.assert e n) (code ++ [.assert])
  | nullTest {e : Expr Typing} {w : TypeName} {n : Typing} {code : List Instr} :
      Emits names e code → t.resolveType w = .ok .null →
      Emits names (.instanceTest e w n) (code ++ [.isNull])
  | instanceTest {e : Expr Typing} {w : TypeName} {n : Typing} {code : List Instr} {υ : Ty}
      {id : TypeId} {k : Nat} :
      Emits names e code → t.resolveType w = .ok υ → υ.class? = some id →
      TypeId.construct? id = some k →
      Emits names (.instanceTest e w n) (code ++ [.isInstance k υ.isNullable])
  | cast {e : Expr Typing} {w : TypeName} {n : Typing} {code : List Instr} {υ : Ty} {id : TypeId}
      {k : Nat} :
      Emits names e code → t.resolveType w = .ok υ → υ.class? = some id →
      TypeId.construct? id = some k →
      Emits names (.cast e w n) (code ++ [.cast k υ.isNullable])

variable (room : Nat)

mutual

/-- `EmitsStmt q t room names start s code`: where `names` are visible, `code` is the code of `s` from
instruction `start` on in a chunk with `room` slots. -/
inductive EmitsStmt : List String → Nat → Stmt Typing → List Instr → Prop
  | define {names : List String} {start : Nat} {x : Ident} {w : Option TypeName} {e : Expr Typing}
      {s : Span} {code : List Instr} :
      Emits q t names e code → names.length + 1 < room →
      EmitsStmt names start (.define x w e s) (code ++ [.store (names.length + 1)])
  | return {names : List String} {start : Nat} {e : Expr Typing} {s : Span} {code : List Instr} :
      Emits q t names e code → EmitsStmt names start (.return (some e) s) (code ++ [.return])
  | returnNone {names : List String} {start : Nat} {s : Span} :
      EmitsStmt names start (.return none s) [.pushNull, .return]
  | ifThen {names : List String} {start : Nat} {c : Expr Typing} {b : Stmt Typing} {s : Span}
      {test code : List Instr} :
      Emits q t names c test → EmitsStmt names (start + test.length + 1) b code →
      EmitsStmt names start (.ifThen c b s)
        (test ++ .jumpIfFalse (start + test.length + 1 + code.length) :: code)
  | ifElse {names : List String} {start : Nat} {c : Expr Typing} {b o : Stmt Typing} {s : Span}
      {test code code' : List Instr} :
      Emits q t names c test → EmitsStmt names (start + test.length + 1) b code →
      EmitsStmt names (start + test.length + 1 + code.length + 1) o code' →
      EmitsStmt names start (.ifElse c b o s)
        (test ++ .jumpIfFalse (start + test.length + 1 + code.length + 1) :: code ++
          .jump (start + test.length + 1 + code.length + 1 + code'.length) :: code')
  | while {names : List String} {start : Nat} {c : Expr Typing} {b : Stmt Typing} {s : Span}
      {test code : List Instr} :
      Emits q t names c test → EmitsStmt names (start + test.length + 1) b code →
      EmitsStmt names start (.while c b s)
        (test ++ .jumpIfFalse (start + test.length + 1 + code.length + 1) :: code ++ [.jump start])
  | block {names : List String} {start : Nat} {ss : List (Stmt Typing)} {s : Span}
      {code : List Instr} :
      EmitsStmts names start ss code → EmitsStmt names start (.block ss s) code
  | expression {names : List String} {start : Nat} {e : Expr Typing} {s : Span} {code : List Instr} :
      Emits q t names e code → EmitsStmt names start (.expression e s) (code ++ [.pop])

/-- `EmitsStmt` for statements one after the other. -/
inductive EmitsStmts : List String → Nat → List (Stmt Typing) → List Instr → Prop
  | nil {names : List String} {start : Nat} : EmitsStmts names start [] []
  | cons {names : List String} {start : Nat} {s : Stmt Typing} {ss : List (Stmt Typing)}
      {code rest : List Instr} :
      EmitsStmt names start s code → EmitsStmts (s.visible names) (start + code.length) ss rest →
      EmitsStmts names start (s :: ss) (code ++ rest)

end

end

namespace Lower

/-- The slots of a chunk under construction are those of the visible names. -/
structure Numbered (σ : Slots) (names : List String) : Prop where
  flat : (σ.current :: σ.outer).flatMap (·.names) = slotsOf names
  next : σ.next = names.length + 1

namespace EmittedLemmas

variable {q : Pools} {t : ClassTable} {σ σ' : Slots} {names : List String} {p p' : Pools}

theorem lookup_numbered (h : Numbered σ names) (x : String) :
    σ.lookup? x = (slotsOf names).lookup x := by
  have hall : ∀ scopes : List SlotScope, scopes.findSome? (·.names.lookup x) =
      (scopes.flatMap (·.names)).lookup x := by
    intro scopes
    induction scopes with
    | nil => rfl
    | cons scope scopes ih =>
      rw [List.findSome?_cons, List.flatMap_cons, List.lookup_append]
      cases scope.names.lookup x with
      | none => simpa using ih
      | some i => rfl
  rw [Slots.lookup?, hall, h.flat]

theorem lookup_ok {x : String} {i : Nat} (h : Numbered σ names) (hx : σ.lookup x = .ok i) :
    (slotsOf names).lookup x = some i := by
  rw [← lookup_numbered h]
  unfold Slots.lookup at hx
  split at hx
  · next hi => rw [hi, Except.ok.inj hx]
  · cases hx

theorem constructOf_ok {id : TypeId} {k : Nat} :
    Gives (constructOf t id) p k p' ↔ TypeId.construct? id = some k ∧ p = p' := by
  unfold constructOf
  split <;> simp_all

theorem typeOf_ok {e : Expr Typing} {τ : Ty} :
    Gives (typeOf e) p τ p' ↔ e.note.type = some τ ∧ p = p' := by
  unfold typeOf
  split <;> simp_all

theorem fieldOffset_ok {id : TypeId} {x : String} {o : Nat} :
    Gives (fieldOffset t id x) p o p' ↔
      (∃ owner f, t.lookupField? id x = some (owner, f) ∧ f.offset ≤ 65535 ∧ f.offset = o) ∧
        p = p' := by
  unfold fieldOffset
  split
  · next owner f hf =>
    split
    · simp_all
    · next hlarge =>
      simp only [fail_gives, false_iff, not_and]
      rintro ⟨owner', f', hf', hsmall, _⟩
      rw [hf] at hf'
      cases hf'
      exact absurd hsmall hlarge
  · simp_all

theorem testTarget_ok {w : TypeName} {υ : Ty} :
    Gives (testTarget t w) p υ p' ↔ t.resolveType w = .ok υ ∧ p = p' := by
  unfold testTarget
  split <;> simp_all

theorem number_emits {x : Float} {i : Instr} (h : Gives (number x) p i p') (hq : p'.Le q) :
    NumberCode q x i := by
  unfold number at h
  split at h
  · next hx =>
    obtain ⟨rfl, rfl⟩ := pure_gives.mp h
    exact Float.eq_of_toBits hx ▸ .zero
  · split at h
    · next hx =>
      obtain ⟨rfl, rfl⟩ := pure_gives.mp h
      exact Float.eq_of_toBits hx ▸ .one
    · obtain ⟨i, hi, rfl⟩ := map_gives.mp h
      exact .pooled (hq.constants _ _ (constant_gives hi))

end EmittedLemmas

open EmittedLemmas

mutual

/-- Lowering an expression emits its code. -/
theorem expr_emits {q : Pools} {t : ClassTable} {σ : Slots} {names : List String}
    (hσ : Numbered σ names) : ∀ {e : Expr Typing} {p p' : Pools} {code : List Instr},
      Gives (expr t σ e) p code p' → p'.Le q → Emits q t names e code
  | .number x n, p, p', code, h, hq => by
    simp only [expr, bind_gives, pure_gives] at h
    obtain ⟨i, _, hi, rfl, rfl⟩ := h
    exact .number (number_emits hi hq)
  | .string c n, p, p', code, h, hq => by
    simp only [expr, bind_gives, pure_gives] at h
    obtain ⟨i, _, hi, rfl, rfl⟩ := h
    exact .string (hq.constants _ _ (constant_gives hi))
  | .boolean b n, p, p', code, h, hq => by
    obtain ⟨rfl, rfl⟩ := pure_gives.mp h
    exact .boolean
  | .null n, p, p', code, h, hq => by
    obtain ⟨rfl, rfl⟩ := pure_gives.mp h
    exact .null
  | .name x n, p, p', code, h, hq => by
    simp only [expr, bind_gives, pure_gives, lift_gives] at h
    obtain ⟨i, _, ⟨hi, rfl⟩, rfl, rfl⟩ := h
    exact .name (lookup_ok hσ hi)
  | .this n, p, p', code, h, hq => by
    obtain ⟨rfl, rfl⟩ := pure_gives.mp h
    exact .this
  | .base n, p, p', code, h, hq => by
    obtain ⟨rfl, rfl⟩ := pure_gives.mp h
    exact .base
  | .member o x n, p, p', code, h, hq => by
    simp only [expr, bind_gives, pure_gives, typeOf_ok, fieldOffset_ok] at h
    obtain ⟨code, _, ho, τ, _, ⟨hτ, rfl⟩, _, _, ⟨⟨owner, f, hf, _, rfl⟩, rfl⟩, rfl, rfl⟩ := h
    exact .member (expr_emits hσ ho hq) hτ hf
  | .call e es n', p, p', code, h, hq => by
    cases e with
    | member o x n =>
      simp only [expr, bind_gives, pure_gives, typeOf_ok, constructOf_ok] at h
      obtain ⟨m, _, hm, τ, _, ⟨hτ, rfl⟩, k, _, ⟨hk, rfl⟩, code, _, ho, rest, _, hes, rfl, rfl⟩ := h
      have hq' := (exprs_grows t σ es hes).1.trans hq
      have hq'' := (expr_grows t σ o ho).1.trans hq'
      obtain ⟨codes, hcodes, rfl⟩ := exprs_emits hσ hes hq
      exact .call (expr_emits hσ ho hq') hτ hk (hq''.members _ _ (member_gives hm)) hcodes
    | _ => exact (fail_gives.mp h).elim
  | .new c es n, p, p', code, h, hq => by
    simp only [expr] at h
    split at h
    · exact (fail_gives.mp h).elim
    · next id hid =>
      simp only [bind_gives, pure_gives, constructOf_ok] at h
      obtain ⟨k, _, ⟨hk, rfl⟩, m, _, hm, rest, _, hes, rfl, rfl⟩ := h
      have hq' := (exprs_grows t σ es hes).1.trans hq
      obtain ⟨codes, hcodes, rfl⟩ := exprs_emits hσ hes hq
      have hfind : t.find? c.name = some id := by
        unfold ClassTable.resolve at hid
        split at hid
        · next hfound => rw [hfound, Except.ok.inj hid]
        · cases hid
      exact .new hfind hk (hq'.members _ _ (member_gives hm)) hcodes
  | .assign e v n', p, p', code, h, hq => by
    cases e with
    | name x n =>
      simp only [expr, bind_gives, pure_gives, lift_gives] at h
      obtain ⟨i, _, ⟨hi, rfl⟩, code, _, hv, rfl, rfl⟩ := h
      exact .assignName (lookup_ok hσ hi) (expr_emits hσ hv hq)
    | member o x n =>
      simp only [expr, bind_gives, pure_gives, typeOf_ok, fieldOffset_ok] at h
      obtain ⟨τ, _, ⟨hτ, rfl⟩, _, _, ⟨⟨owner, f, hf, _, rfl⟩, rfl⟩, code, _, ho, code', _, hv,
        rfl, rfl⟩ := h
      exact .assignMember (expr_emits hσ ho ((expr_grows t σ v hv).1.trans hq)) hτ hf
        (expr_emits hσ hv hq)
    | _ => exact (fail_gives.mp h).elim
  | .binary op l r n, p, p', all, h, hq => by
    simp only [expr, bind_gives, typeOf_ok] at h
    obtain ⟨τ, _, ⟨hτ, rfl⟩, υ, _, ⟨hυ, rfl⟩, code, _, hl, code', _, hr, h⟩ := h
    split at h
    · next hd =>
      obtain ⟨rfl, rfl⟩ := pure_gives.mp h
      exact .primitive (expr_emits hσ hl ((expr_grows t σ r hr).1.trans hq)) (expr_emits hσ hr hq)
        hτ hυ hd
    · next hd =>
      simp only [bind_gives, constructOf_ok] at h
      obtain ⟨m, q', hm, k, _, ⟨hk, rfl⟩, h⟩ := h
      have hcode : code ++ code' ++ [if τ.isNullable && op.isEquality then .virtualOrAny k m
          else .callVirtual k m] = all ∧ q' = p' := by
        split at h
        · next hn => simpa [hn] using pure_gives.mp h
        · next hn => simpa [hn] using pure_gives.mp h
      obtain ⟨rfl, rfl⟩ := hcode
      have hq' := (member_grows hm).1.trans hq
      exact .binary (expr_emits hσ hl ((expr_grows t σ r hr).1.trans hq')) (expr_emits hσ hr hq')
        hτ hυ (by simpa using hd) hk (hq.members _ _ (member_gives hm))
  | .unary op o n, p, p', code, h, hq => by
    simp only [expr, bind_gives, typeOf_ok] at h
    obtain ⟨τ, _, ⟨hτ, rfl⟩, code, _, ho, h⟩ := h
    split at h
    · next hd =>
      obtain ⟨rfl, rfl⟩ := pure_gives.mp h
      exact .unaryPrimitive (expr_emits hσ ho hq) hτ hd
    · next hd =>
      simp only [bind_gives, pure_gives, constructOf_ok] at h
      obtain ⟨k, _, ⟨hk, rfl⟩, m, _, hm, rfl, rfl⟩ := h
      exact .unary (expr_emits hσ ho ((member_grows hm).1.trans hq)) hτ (by simpa using hd) hk
        (hq.members _ _ (member_gives hm))
  | .assert o n, p, p', code, h, hq => by
    simp only [expr, bind_gives, pure_gives] at h
    obtain ⟨code, _, ho, rfl, rfl⟩ := h
    exact .assert (expr_emits hσ ho hq)
  | .instanceTest o w n, p, p', code, h, hq => by
    simp only [expr, bind_gives, testTarget_ok] at h
    obtain ⟨code, _, ho, υ, _, ⟨hw, rfl⟩, h⟩ := h
    cases υ with
    | null =>
      obtain ⟨rfl, rfl⟩ := pure_gives.mp h
      exact .nullTest (expr_emits hσ ho hq) hw
    | plain id =>
      simp only [bind_gives, pure_gives, constructOf_ok] at h
      obtain ⟨k, _, ⟨hk, rfl⟩, rfl, rfl⟩ := h
      exact .instanceTest (expr_emits hσ ho hq) hw rfl hk
    | option id =>
      simp only [bind_gives, pure_gives, constructOf_ok] at h
      obtain ⟨k, _, ⟨hk, rfl⟩, rfl, rfl⟩ := h
      exact .instanceTest (expr_emits hσ ho hq) hw rfl hk
  | .cast o w n, p, p', code, h, hq => by
    simp only [expr, bind_gives, testTarget_ok] at h
    obtain ⟨code, _, ho, υ, _, ⟨hw, rfl⟩, h⟩ := h
    cases υ with
    | null => exact (fail_gives.mp h).elim
    | plain id =>
      simp only [bind_gives, pure_gives, constructOf_ok] at h
      obtain ⟨k, _, ⟨hk, rfl⟩, rfl, rfl⟩ := h
      exact .cast (expr_emits hσ ho hq) hw rfl hk
    | option id =>
      simp only [bind_gives, pure_gives, constructOf_ok] at h
      obtain ⟨k, _, ⟨hk, rfl⟩, rfl, rfl⟩ := h
      exact .cast (expr_emits hσ ho hq) hw rfl hk

theorem exprs_emits {q : Pools} {t : ClassTable} {σ : Slots} {names : List String}
    (hσ : Numbered σ names) : ∀ {es : List (Expr Typing)} {p p' : Pools} {code : List Instr},
      Gives (exprs t σ es) p code p' → p'.Le q →
      ∃ codes, List.Forall₂ (Emits q t names) es codes ∧ codes.flatten = code
  | [], p, p', code, h, hq => by
    obtain ⟨rfl, rfl⟩ := pure_gives.mp h
    exact ⟨[], .nil, rfl⟩
  | e :: es, p, p', code, h, hq => by
    simp only [exprs, bind_gives, pure_gives] at h
    obtain ⟨code, _, he, rest, _, hes, rfl, rfl⟩ := h
    obtain ⟨codes, hcodes, rfl⟩ := exprs_emits hσ hes hq
    exact ⟨code :: codes, .cons (expr_emits hσ he ((exprs_grows t σ es hes).1.trans hq)) hcodes, rfl⟩

end

/-! ## Statements -/

/-- Slots behind a part of a scope: more names may be bound, and the scope is the same. -/
structure Extends (σ σ' : Slots) : Prop where
  outer : σ'.outer = σ.outer
  first : σ'.current.first = σ.current.first
  highest : σ.highest ≤ σ'.highest

namespace EmittedLemmas

variable {σ σ' σ'' : Slots} {names names' : List String}

theorem extends_refl : Extends σ σ := ⟨rfl, rfl, Nat.le_refl _⟩

theorem extends_trans (h : Extends σ σ') (h' : Extends σ' σ'') : Extends σ σ'' :=
  ⟨h'.outer.trans h.outer, h'.first.trans h.first, Nat.le_trans h.highest h'.highest⟩

theorem numbered_enter (h : Numbered σ names) : Numbered σ.enter names :=
  ⟨by simpa [Slots.enter] using h.flat, h.next⟩

/-- Behind a scope the slots are what they were before it. -/
theorem exit_of_enter (h : Extends σ.enter σ') : σ'.exit = { σ with highest := σ'.highest } := by
  have houter : σ'.outer = σ.current :: σ.outer := h.outer
  have hfirst : σ'.current.first = σ.next := h.first
  simp [Slots.exit, houter, hfirst]

theorem numbered_exit (hσ : Numbered σ names) (h : Extends σ.enter σ') :
    Numbered σ'.exit names ∧ Extends σ σ'.exit ∧ σ'.exit.highest = σ'.highest := by
  rw [exit_of_enter h]
  exact ⟨⟨hσ.flat, hσ.next⟩, ⟨rfl, rfl, h.highest⟩, rfl⟩

theorem declare_ok {x : String} {i : Nat} (hσ : Numbered σ names)
    (h : σ.declare x = .ok (i, σ')) :
    i = names.length + 1 ∧ i < σ'.highest ∧ Extends σ σ' ∧ Numbered σ' (x :: names) := by
  unfold Slots.declare at h
  split at h
  · cases h
    refine ⟨hσ.next, Nat.le_max_right _ _, ⟨rfl, rfl, Nat.le_max_left _ _⟩, ?_, by simp [hσ.next]⟩
    have hflat := hσ.flat
    simp only [List.flatMap_cons] at hflat
    simp [slotsOf, hσ.next, hflat]
  · cases h

end EmittedLemmas

/-- What lowering a statement, or several, does: it keeps the scope, numbers the visible names and emits
the code for every chunk that has room for the slots. -/
structure StmtEmitted (q : Pools) (t : ClassTable) (σ σ' : Slots) (names' : List String)
    (emits : Nat → Prop) : Prop where
  scope : Extends σ σ'
  numbered : Numbered σ' names'
  emits : ∀ room, σ'.highest ≤ room → emits room

mutual

/-- Lowering a statement emits its code. -/
theorem stmt_emits {q : Pools} {t : ClassTable} : ∀ {s : Stmt Typing} {σ σ' : Slots} {start : Nat}
    {names : List String} {p p' : Pools} {code : List Instr}, Numbered σ names →
    Gives (stmt t σ start s) p (code, σ') p' → p'.Le q →
    StmtEmitted q t σ σ' (s.visible names) fun room => EmitsStmt q t room names start s code
  | .define x w e s, σ, σ', start, names, p, p', code, hσ, h, hq => by
    simp only [stmt, bind_gives, pure_gives, lift_gives, Prod.exists, Prod.mk.injEq] at h
    obtain ⟨code, _, he, i, σ', _, ⟨hi, rfl⟩, ⟨rfl, rfl⟩, rfl⟩ := h
    obtain ⟨rfl, hroom, hext, hnum⟩ := declare_ok hσ hi
    exact ⟨hext, hnum, fun room hr => .define (expr_emits hσ he hq) (Nat.lt_of_lt_of_le hroom hr)⟩
  | .return (some e) s, σ, σ', start, names, p, p', code, hσ, h, hq => by
    simp only [stmt, bind_gives, pure_gives, Prod.mk.injEq] at h
    obtain ⟨code, _, he, ⟨rfl, rfl⟩, rfl⟩ := h
    exact ⟨extends_refl, hσ, fun _ _ => .return (expr_emits hσ he hq)⟩
  | .return none s, σ, σ', start, names, p, p', code, hσ, h, hq => by
    obtain ⟨h, rfl⟩ := pure_gives.mp h
    cases h
    exact ⟨extends_refl, hσ, fun _ _ => .returnNone⟩
  | .ifThen c b s, σ, σ', start, names, p, p', code, hσ, h, hq => by
    simp only [stmt, bind_gives, pure_gives, Prod.exists, Prod.mk.injEq] at h
    obtain ⟨test, _, hc, body, σ₁, _, hb, ⟨rfl, rfl⟩, rfl⟩ := h
    have hbody := stmt_emits (numbered_enter hσ) hb hq
    obtain ⟨hnum, hext, hhigh⟩ := numbered_exit hσ hbody.scope
    exact ⟨hext, hnum, fun room hr =>
      .ifThen (expr_emits hσ hc ((stmt_grows t _ _ b hb).1.trans hq)) (hbody.emits room (hhigh ▸ hr))⟩
  | .ifElse c b o s, σ, σ', start, names, p, p', code, hσ, h, hq => by
    simp only [stmt, bind_gives, pure_gives, Prod.exists, Prod.mk.injEq] at h
    obtain ⟨test, _, hc, body, σ₁, _, hb, other, σ₂, _, ho, ⟨rfl, rfl⟩, rfl⟩ := h
    have hq' := (stmt_grows t _ _ o ho).1.trans hq
    have hbody := stmt_emits (numbered_enter hσ) hb hq'
    obtain ⟨hnum, hext, hhigh⟩ := numbered_exit hσ hbody.scope
    have hother := stmt_emits (numbered_enter hnum) ho hq
    obtain ⟨hnum', hext', hhigh'⟩ := numbered_exit hnum hother.scope
    refine ⟨extends_trans hext hext', hnum', fun room hr => .ifElse
      (expr_emits hσ hc ((stmt_grows t _ _ b hb).1.trans hq')) (hbody.emits room ?_)
      (hother.emits room (hhigh' ▸ hr))⟩
    exact Nat.le_trans (hhigh ▸ hext'.highest) hr
  | .while c b s, σ, σ', start, names, p, p', code, hσ, h, hq => by
    simp only [stmt, bind_gives, pure_gives, Prod.exists, Prod.mk.injEq] at h
    obtain ⟨test, _, hc, body, σ₁, _, hb, ⟨rfl, rfl⟩, rfl⟩ := h
    have hbody := stmt_emits (numbered_enter hσ) hb hq
    obtain ⟨hnum, hext, hhigh⟩ := numbered_exit hσ hbody.scope
    exact ⟨hext, hnum, fun room hr =>
      .while (expr_emits hσ hc ((stmt_grows t _ _ b hb).1.trans hq)) (hbody.emits room (hhigh ▸ hr))⟩
  | .block ss s, σ, σ', start, names, p, p', code, hσ, h, hq => by
    simp only [stmt, bind_gives, pure_gives, Prod.exists, Prod.mk.injEq] at h
    obtain ⟨body, σ₁, _, hb, ⟨rfl, rfl⟩, rfl⟩ := h
    obtain ⟨names', hbody⟩ := stmts_emits (numbered_enter hσ) hb hq
    obtain ⟨hnum, hext, hhigh⟩ := numbered_exit hσ hbody.scope
    exact ⟨hext, hnum, fun room hr => .block (hbody.emits room (hhigh ▸ hr))⟩
  | .expression e s, σ, σ', start, names, p, p', code, hσ, h, hq => by
    simp only [stmt, bind_gives, pure_gives, Prod.mk.injEq] at h
    obtain ⟨code, _, he, ⟨rfl, rfl⟩, rfl⟩ := h
    exact ⟨extends_refl, hσ, fun _ _ => .expression (expr_emits hσ he hq)⟩

theorem stmts_emits {q : Pools} {t : ClassTable} : ∀ {ss : List (Stmt Typing)} {σ σ' : Slots}
    {start : Nat} {names : List String} {p p' : Pools} {code : List Instr}, Numbered σ names →
    Gives (stmts t σ start ss) p (code, σ') p' → p'.Le q →
    ∃ names', StmtEmitted q t σ σ' names' fun room => EmitsStmts q t room names start ss code
  | [], σ, σ', start, names, p, p', code, hσ, h, hq => by
    obtain ⟨h, rfl⟩ := pure_gives.mp h
    cases h
    exact ⟨names, extends_refl, hσ, fun _ _ => .nil⟩
  | s :: ss, σ, σ', start, names, p, p', code, hσ, h, hq => by
    simp only [stmts, bind_gives, pure_gives, Prod.exists, Prod.mk.injEq] at h
    obtain ⟨code, σ₁, _, hs, rest, σ₂, _, hss, ⟨rfl, rfl⟩, rfl⟩ := h
    have hfirst := stmt_emits hσ hs ((stmts_grows t _ _ ss hss).1.trans hq)
    obtain ⟨names', hrest⟩ := stmts_emits hfirst.numbered hss hq
    exact ⟨names', extends_trans hfirst.scope hrest.scope, hrest.numbered, fun room hr =>
      .cons (hfirst.emits room (Nat.le_trans hrest.scope.highest hr)) (hrest.emits room hr)⟩

end

end Lower

end ClassLang
