import ClassLang.Proofs.Emitted
import ClassLang.Proofs.Hierarchy

/-!
# The parts of an image

What lowering makes of a program (`image_assembled`): a construct for every class but the unit type, with
the name, the parent and the number of fields that the class table tells, and a body for every method. As
for code, this is said as a relation apart from the algorithm. A body table goes by member index; since
no member is in the pools twice, it has a body for a member exactly if the class has one under its key
(`tableOf_bodies`).
-/

namespace ClassLang

/-- The pools of a finished image. -/
def Image.pools (image : Image) : Pools := ⟨image.members, image.constants⟩

/-- The names of parameters, the last one first. -/
def paramNames (params : List Param) : List String := (params.map (·.name.name)).reverse

section

variable (q : Pools) (t : ClassTable)

/-- The chunk of a member with parameters: some code in front, the body, and null as the result. -/
structure EmitsChunk (params : List Param) (before : List Instr) (body : Option (Stmt Typing))
    (chunk : Chunk) : Prop where
  arguments : chunk.arguments = params.length + 1
  room : params.length + 1 ≤ chunk.locals
  code : ∃ code, chunk.code.toList = before ++ code ++ [.pushNull, .return] ∧
    match body with
    | none => code = []
    | some s => EmitsStmt q t chunk.locals (paramNames params) before.length s code

/-- The code that stores the initial value of a field. -/
inductive EmitsField (id : TypeId) : FieldDecl Typing → List Instr → Prop
  | blank {d : FieldDecl Typing} : d.initializer = none → EmitsField id d []
  | initial {d : FieldDecl Typing} {e : Expr Typing} {owner : TypeId} {f : Field}
      {code : List Instr} :
      d.initializer = some e → t.lookupField? id d.name.name = some (owner, f) →
      Emits q t [] e code →
      EmitsField id d (.load 0 :: code ++ [.setField f.offset, .pop])

/-- The code that calls the constructor of the parent construct. -/
inductive EmitsBaseCall (parent : Nat) (names : List String) : List (Expr Typing) → List Instr → Prop
  | call {es : List (Expr Typing)} {codes : List (List Instr)} {m : Nat} :
      List.Forall₂ (Emits q t names) es codes → q.members[m]? = some .constructor →
      EmitsBaseCall parent names es (.load 0 :: codes.flatten ++ [.invoke parent m, .pop])

/-- The body under each key of a class whose parent has the construct `parent`. -/
inductive Implements (id : TypeId) (parent : Nat) (d : ClassDecl Typing) : MemberKey → Body → Prop
  | initializer {chunk : Chunk} {m : Nat} {codes : List (List Instr)} :
      q.members[m]? = some .initializer → List.Forall₂ (EmitsField q t id) d.fields codes →
      chunk.code.toList = [.load 0, .invoke parent m, .pop] ++ codes.flatten ++ [.load 0, .return] →
      chunk.arguments = 1 → chunk.locals = 1 →
      Implements id parent d .initializer (.compiled chunk)
  | method {md : MethodDecl Typing} {chunk : Chunk} :
      md ∈ d.methods → EmitsChunk q t md.params [] (some md.body) chunk →
      Implements id parent d md.name.key (.compiled chunk)
  | constructor {c : ConstructorDecl Typing} {chunk : Chunk} {before : List Instr} :
      d.constructors.head? = some c →
      EmitsBaseCall q t parent (paramNames c.params) (c.baseArguments.getD []) before →
      EmitsChunk q t c.params before (some c.body) chunk →
      Implements id parent d .constructor (.compiled chunk)
  | implicitConstructor {chunk : Chunk} {before : List Instr} :
      d.constructors.head? = none → EmitsBaseCall q t parent [] [] before →
      EmitsChunk q t [] before none chunk →
      Implements id parent d .constructor (.compiled chunk)

/-- The keys under which a class has a body. -/
def ClassDecl.HasBody (d : ClassDecl Typing) (key : MemberKey) : Prop :=
  key = .initializer ∨ key = .constructor ∨ ∃ md ∈ d.methods, md.name.key = key

/-- A body table has a body for exactly the keys of `has`, and `gives` relates them. -/
structure TableOf (table : BodyTable) (has : MemberKey → Prop) (gives : MemberKey → Body → Prop) :
    Prop where
  known : ∀ (m : Nat) body, table.find? m = some body → ∃ key, q.members[m]? = some key
  found : ∀ (m : Nat) key body, q.members[m]? = some key → table.find? m = some body → gives key body
  each : ∀ (m : Nat) key, q.members[m]? = some key → (has key ↔ (table.find? m).isSome = true)
  member : ∀ key, has key → ∃ m : Nat, q.members[m]? = some key

/-- The construct of a class. -/
structure EmitsClass (id : TypeId) (d : ClassDecl Typing) (c : Construct) : Prop where
  name : c.name = d.name.name
  fieldCount : c.fieldCount = t.fieldCount id
  bodies : ∃ p parent, t.parent? id = some p ∧ TypeId.construct? p = some parent ∧
    c.parent = some parent ∧ TableOf q c.bodies d.HasBody (Implements q t id parent d)

/-- The construct of a built-in class. -/
structure EmitsBuiltin (b : BuiltinClass) (c : Construct) : Prop where
  name : c.name = b.name
  parent : c.parent = b.parent
  fieldCount : c.fieldCount = b.fields.length
  bodies : TableOf q c.bodies (fun key => ∃ m ∈ b.methods, m.key = key)
    fun key body => ∃ m ∈ b.methods, m.key = key ∧ body = .ofNative m.native

end

/-- The chunk that a program starts with. -/
structure EmitsEntry (t : ClassTable) (image : Image) (id : TypeId) : Prop where
  found : t.find? entryClass = some id
  notBuiltin : t.isBuiltin id = false
  construct : TypeId.construct? id = some image.main
  noParams : ∀ m, t.constructor? id = some m → m.params = []
  code : ∃ m, image.members[m]? = some .constructor ∧
    image.entry = ⟨#[.new image.main, .invoke image.main m, .return], 0, 0⟩

/-- The image of a program. -/
structure Assembled (a : Analysis) (image : Image) : Prop where
  distinct : image.pools.Distinct
  size : image.constructs.size = Builtin.count + a.program.classes.length
  builtin : ∀ (i : Nat) b, Builtin.classes[i]? = some b →
    ∃ c, image.construct? i = some c ∧ EmitsBuiltin image.pools b c
  user : ∀ (i : Nat) d, a.program.classes[i]? = some d → ∃ c,
    image.construct? (Builtin.count + i) = some c ∧
      EmitsClass image.pools a.classes (TypeId.first + i) d c
  entry : ∃ id, EmitsEntry a.classes image id

namespace BodyTable

theorem lookup_insertEntry (m k : Nat) (body : Body) (es : List (Nat × Body)) :
    (insertEntry m body es).lookup k = if k = m then some body else es.lookup k := by
  induction es with
  | nil =>
    by_cases h : k = m
    · simp [insertEntry, h]
    · simp [insertEntry, List.lookup_cons, beq_eq_false_iff_ne.mpr h, h]
  | cons e es ih =>
    obtain ⟨i, b⟩ := e
    simp only [insertEntry]
    split
    · by_cases h : k = m
      · simp [h]
      · rw [List.lookup_cons, beq_eq_false_iff_ne.mpr h, if_neg h]
    · split
      · next heq =>
        subst heq
        by_cases h : k = m
        · simp [h]
        · rw [List.lookup_cons, List.lookup_cons, beq_eq_false_iff_ne.mpr h, if_neg h]
      · next hne =>
        by_cases h : k = i
        · subst h
          have hkm : k ≠ m := fun h => hne h.symm
          simp [hkm]
        · simp only [List.lookup_cons, beq_eq_false_iff_ne.mpr h, ih]

theorem find_insert (t : BodyTable) (m k : Nat) (body : Body) :
    (t.insert m body).find? k = if k = m then some body else t.find? k :=
  lookup_insertEntry m k body t.entries

end BodyTable

namespace Lower

namespace AssembledLemmas

variable {q : Pools} {t : ClassTable} {p p' : Pools} {names : List String} {parent : Nat}

/-- What a fold of insertions finds is one of the entries or was there before. -/
theorem find_fold (entries : List (Nat × Body)) (table : BodyTable) (m : Nat) :
    (∀ body, (entries.foldl (fun t e => t.insert e.1 e.2) table).find? m = some body →
      (m, body) ∈ entries ∨ table.find? m = some body) ∧
    (((entries.foldl (fun t e => t.insert e.1 e.2) table).find? m).isSome = true ↔
      m ∈ entries.map (·.1) ∨ (table.find? m).isSome = true) := by
  induction entries generalizing table with
  | nil => simp
  | cons e entries ih =>
    obtain ⟨i, b⟩ := e
    simp only [List.foldl_cons, List.map_cons, List.mem_cons]
    obtain ⟨hfound, hsome⟩ := ih (table.insert i b)
    rw [BodyTable.find_insert] at hfound hsome
    refine ⟨fun body h => ?_, hsome.trans ?_⟩
    · rcases hfound body h with hin | hin
      · exact .inl (.inr hin)
      · split at hin
        · next heq => cases hin; exact .inl (.inl (by rw [heq]))
        · exact .inr hin
    · by_cases h : m = i <;> simp [h]

/-- The table of entries whose indices are those of keys. -/
theorem tableOf_bodies {entries : List (Nat × Body)} {has : MemberKey → Prop}
    {gives : MemberKey → Body → Prop} (hd : q.Distinct)
    (hentries : ∀ e ∈ entries, ∃ key, q.members[e.1]? = some key ∧ has key ∧ gives key e.2)
    (hall : ∀ key, has key → ∃ e ∈ entries, q.members[e.1]? = some key) :
    TableOf q (bodies entries) has gives := by
  have hfold := find_fold entries .empty
  refine ⟨fun m body hb => ?_, fun m key body hm hb => ?_, fun m key hm => ?_, fun key h => ?_⟩
  · rcases (hfold m).1 body hb with hin | hin
    · obtain ⟨key, hm, _⟩ := hentries _ hin
      exact ⟨key, hm⟩
    · cases hin
  · rcases (hfold m).1 body hb with hin | hin
    · obtain ⟨key', hm', _, hgives⟩ := hentries _ hin
      rw [hm] at hm'
      cases hm'
      exact hgives
    · cases hin
  · rw [bodies, (hfold m).2]
    constructor
    · intro h
      obtain ⟨e, he, hkey⟩ := hall key h
      exact .inl (hd _ _ _ hkey hm ▸ List.mem_map_of_mem he)
    · rintro (h | h)
      · obtain ⟨e, he, rfl⟩ := List.mem_map.mp h
        obtain ⟨key', hm', hhas, _⟩ := hentries e he
        rw [hm] at hm'
        cases hm'
        exact hhas
      · cases h
  · obtain ⟨e, _, hkey⟩ := hall key h
    exact ⟨e.1, hkey⟩

/-- Lowering one after the other, where later steps only add to the pools. -/
theorem mapM_gives {α β : Type} {f : α → Lower β} {R : α → β → Prop} (hf : ∀ a, Grows (f a))
    {as : List α} (hR : ∀ a ∈ as, ∀ p b p', Gives (f a) p b p' → p'.Le q → R a b) {bs : List β}
    (h : Gives (as.mapM f) p bs p') (hq : p'.Le q) : List.Forall₂ R as bs := by
  induction as generalizing bs p with
  | nil =>
    obtain ⟨rfl, _⟩ := pure_gives.mp h
    exact .nil
  | cons a as ih =>
    simp only [List.mapM_cons, bind_gives, pure_gives] at h
    obtain ⟨b, p₁, hb, bs, p₂, hbs, rfl, rfl⟩ := h
    have hle := (Grows.mapM hf as hbs).1.trans hq
    exact .cons (hR a List.mem_cons_self _ _ _ hb hle)
      (ih (fun a ha => hR a (List.mem_cons_of_mem _ ha)) hbs)

/-! ## Chunks -/

theorem addParams_ok {params : List String} {b b' : ChunkBuilder} (hσ : Numbered b.slots names)
    (hhigh : b.slots.next ≤ b.slots.highest) (h : b.addParams params = .ok b') :
    b'.code = b.code ∧ b'.arguments = b.arguments + params.length ∧
      Numbered b'.slots (params.reverse ++ names) ∧ b'.slots.next ≤ b'.slots.highest := by
  induction params generalizing b names with
  | nil =>
    cases h
    exact ⟨rfl, rfl, hσ, hhigh⟩
  | cons x xs ih =>
    simp only [ChunkBuilder.addParams, ChunkBuilder.declare, bind_eq_ok, pure_eq_ok,
      Prod.exists, Prod.mk.injEq] at h
    obtain ⟨i, b₁, ⟨i', σ, hi, rfl, rfl⟩, h⟩ := h
    obtain ⟨rfl, hlt, _, hnum⟩ := EmittedLemmas.declare_ok hσ hi
    obtain ⟨hcode, hargs, hnum', hhigh'⟩ := ih (b := ⟨b.code, b.arguments + 1, σ⟩) hnum
      (by rw [hnum.next]; exact hlt) h
    refine ⟨hcode, ?_, by simpa using hnum', hhigh'⟩
    rw [hargs, List.length_cons, Nat.add_assoc, Nat.add_comm 1]

theorem start_ok {params : List Param} {b : ChunkBuilder}
    (h : ChunkBuilder.start (params.map (·.name.name)) = .ok b) :
    b.code = #[] ∧ b.arguments = params.length + 1 ∧ Numbered b.slots (paramNames params) ∧
      params.length + 1 ≤ b.slots.highest := by
  obtain ⟨hcode, hargs, hnum, hhigh⟩ := addParams_ok (show Numbered _ [] from ⟨rfl, rfl⟩)
    (Nat.le_refl _) h
  rw [List.append_nil] at hnum
  refine ⟨hcode, ?_, hnum, ?_⟩
  · rw [hargs, List.length_map]
    exact Nat.add_comm _ _
  · have hnext := hnum.next
    simp only [List.length_reverse, List.length_map] at hnext
    omega

theorem memberChunk_emits {params : List Param} {before : Slots → Lower (List Instr)}
    {body : Option (Stmt Typing)} {chunk : Chunk}
    (h : Gives (memberChunk t params before body) p chunk p') (hq : p'.Le q) :
    ∃ σ first p₁ p₂, Numbered σ (paramNames params) ∧ Gives (before σ) p₁ first p₂ ∧ p₂.Le q ∧
      EmitsChunk q t params first body chunk := by
  unfold memberChunk at h
  simp only [bind_gives, lift_gives] at h
  obtain ⟨b, _, ⟨hb, rfl⟩, first, p₁, hfirst, h⟩ := h
  obtain ⟨hcode, hargs, hnum, hhigh⟩ := start_ok hb
  cases body with
  | none =>
    obtain ⟨rfl, rfl⟩ := h
    refine ⟨_, _, _, _, hnum, hfirst, hq, hargs, hhigh, [], ?_, rfl⟩
    simp [ChunkBuilder.finish, ChunkBuilder.append, hcode]
  | some s =>
    simp only [bind_gives, pure_gives, Prod.exists] at h
    obtain ⟨code, σ', _, hs, rfl, rfl⟩ := h
    have hstmt := stmt_emits hnum hs hq
    refine ⟨_, _, _, _, hnum, hfirst, (stmt_grows t _ _ s hs).1.trans hq, hargs,
      Nat.le_trans hhigh hstmt.scope.highest, code, ?_, hstmt.emits _ (Nat.le_refl _)⟩
    simp [ChunkBuilder.finish, ChunkBuilder.append, hcode]

theorem baseCall_emits {es : List (Expr Typing)} {σ : Slots} {code : List Instr}
    (hσ : Numbered σ names) (h : Gives (baseCall t parent es σ) p code p') (hq : p'.Le q) :
    EmitsBaseCall q t parent names es code := by
  simp only [baseCall, bind_gives, pure_gives] at h
  obtain ⟨code, _, hes, m, _, hm, rfl, rfl⟩ := h
  obtain ⟨codes, hcodes, rfl⟩ := exprs_emits hσ hes ((member_grows hm).1.trans hq)
  exact .call hcodes (hq.members _ _ (member_gives hm))

theorem fieldInitializer_emits {id : TypeId} {d : FieldDecl Typing} {code : List Instr}
    (h : Gives (fieldInitializer t id d) p code p') (hq : p'.Le q) : EmitsField q t id d code := by
  unfold fieldInitializer at h
  cases hd : d.initializer with
  | none =>
    simp only [hd, pure_gives] at h
    obtain ⟨rfl, rfl⟩ := h
    exact .blank hd
  | some e =>
    simp only [hd, bind_gives, pure_gives, EmittedLemmas.fieldOffset_ok] at h
    obtain ⟨_, _, ⟨⟨owner, f, hf, _, rfl⟩, rfl⟩, code, _, he, rfl, rfl⟩ := h
    exact .initial hd hf (expr_emits ⟨rfl, rfl⟩ he hq)

/-! ## Classes -/

theorem initializer_emits {id : TypeId} {d : ClassDecl Typing} {e : Nat × Body}
    (h : Gives (initializer t id parent d) p e p') (hq : p'.Le q) :
    q.members[e.1]? = some .initializer ∧ Implements q t id parent d .initializer e.2 := by
  simp only [initializer, bind_gives, pure_gives, lift_gives] at h
  obtain ⟨b, _, ⟨hb, rfl⟩, m, _, hm, codes, _, hcodes, rfl, rfl⟩ := h
  have hb' : ChunkBuilder.start (([] : List Param).map (·.name.name)) = .ok b := hb
  obtain ⟨hcode, hargs, hnum, hhigh⟩ := start_ok hb'
  have hm' := ((Grows.mapM fieldInitializer_grows _ hcodes).1.trans hq).members _ _ (member_gives hm)
  have hlocals : b.slots.highest = 1 := by
    cases hb
    rfl
  refine ⟨hm', .initializer hm' (mapM_gives fieldInitializer_grows
    (fun d _ p b p' h hq => fieldInitializer_emits h hq) hcodes hq) ?_ hargs hlocals⟩
  simp [ChunkBuilder.finish, ChunkBuilder.append, hcode]

theorem method_emits {id : TypeId} {d : ClassDecl Typing} {md : MethodDecl Typing} {e : Nat × Body}
    (hmd : md ∈ d.methods) (h : Gives (method t md) p e p') (hq : p'.Le q) :
    q.members[e.1]? = some md.name.key ∧ Implements q t id parent d md.name.key e.2 := by
  simp only [method, bind_gives, pure_gives] at h
  obtain ⟨chunk, _, hchunk, m, _, hm, rfl, rfl⟩ := h
  obtain ⟨_, _, _, _, _, hfirst, _, hemits⟩ :=
    memberChunk_emits hchunk ((member_grows hm).1.trans hq)
  obtain ⟨rfl, _⟩ := pure_gives.mp hfirst
  exact ⟨hq.members _ _ (member_gives hm), .method hmd hemits⟩

theorem constructor_emits (id : TypeId) {d : ClassDecl Typing} {e : Nat × Body}
    (h : Gives (constructor t parent d.constructors.head?) p e p') (hq : p'.Le q) :
    q.members[e.1]? = some .constructor ∧ Implements q t id parent d .constructor e.2 := by
  have hnil : paramNames [] = [] := rfl
  unfold constructor at h
  cases hd : d.constructors.head? with
  | none =>
    simp only [hd, bind_gives, pure_gives] at h
    obtain ⟨chunk, _, hchunk, m, _, hm, rfl, rfl⟩ := h
    obtain ⟨_, _, _, _, hσ, hfirst, hq', hemits⟩ :=
      memberChunk_emits hchunk ((member_grows hm).1.trans hq)
    exact ⟨hq.members _ _ (member_gives hm),
      .implicitConstructor hd (baseCall_emits hσ hfirst hq') hemits⟩
  | some c =>
    simp only [hd, bind_gives, pure_gives] at h
    obtain ⟨chunk, _, hchunk, m, _, hm, rfl, rfl⟩ := h
    obtain ⟨_, _, _, _, hσ, hfirst, hq', hemits⟩ :=
      memberChunk_emits hchunk ((member_grows hm).1.trans hq)
    exact ⟨hq.members _ _ (member_gives hm),
      .constructor hd (baseCall_emits hσ hfirst hq') hemits⟩

theorem classDecl_emits {id : TypeId} {d : ClassDecl Typing} {c : Construct} (hd : q.Distinct)
    (h : Gives (classDecl t id d) p c p') (hq : p'.Le q) : EmitsClass q t id d c := by
  unfold classDecl at h
  cases hp : t.parent? id with
  | none =>
    simp only [hp] at h
    exact (fail_gives.mp h).elim
  | some parentId =>
    simp only [hp, bind_gives, pure_gives, EmittedLemmas.constructOf_ok] at h
    obtain ⟨parent, _, ⟨hk, rfl⟩, first, _, hfirst, ms, _, hms, last, _, hlast, rfl, rfl⟩ := h
    have hq₂ := (constructor_grows hlast).1.trans hq
    have hq₁ := (Grows.mapM method_grows _ hms).1.trans hq₂
    obtain ⟨hfirst, hinit⟩ := initializer_emits hfirst hq₁
    obtain ⟨hlast, hctor⟩ := constructor_emits id hlast hq
    have hmethods := mapM_gives (q := q) (R := fun md e => q.members[e.1]? = some md.name.key ∧
        Implements q t id parent d md.name.key e.2) method_grows
      (fun md hmd _ _ _ h hq => method_emits hmd h hq) hms hq₂
    refine ⟨rfl, rfl, parentId, parent, hp, hk, rfl, tableOf_bodies hd ?_ ?_⟩
    · intro e he
      simp only [List.cons_append, List.mem_cons, List.mem_append, List.not_mem_nil, or_false] at he
      rcases he with rfl | he | rfl
      · exact ⟨_, hfirst, .inl rfl, hinit⟩
      · obtain ⟨i, hi, rfl⟩ := List.mem_iff_getElem.mp he
        have hlen := hmethods.length_eq
        obtain ⟨hm, himpl⟩ := hmethods.get (hlen ▸ hi) hi
        exact ⟨_, hm, .inr (.inr ⟨_, List.getElem_mem _, rfl⟩), himpl⟩
      · exact ⟨_, hlast, .inr (.inl rfl), hctor⟩
    · rintro key (rfl | rfl | ⟨md, hmd, rfl⟩)
      · exact ⟨first, by simp, hfirst⟩
      · exact ⟨last, by simp, hlast⟩
      · obtain ⟨i, hi, rfl⟩ := List.mem_iff_getElem.mp hmd
        have hi' := hmethods.length_eq ▸ hi
        exact ⟨ms[i], by simp, (hmethods.get hi hi').1⟩

theorem classes_emits {ds : List (ClassDecl Typing)} {id : Nat} {cs : List Construct}
    (hd : q.Distinct) (h : Gives (classes t id ds) p cs p') (hq : p'.Le q) :
    cs.length = ds.length ∧ ∀ (i : Nat) d, ds[i]? = some d →
      ∃ c, cs[i]? = some c ∧ EmitsClass q t (id + i) d c := by
  induction ds generalizing id p cs p' with
  | nil =>
    obtain ⟨rfl, _⟩ := pure_gives.mp h
    simp
  | cons d ds ih =>
    simp only [classes, bind_gives, pure_gives] at h
    obtain ⟨c, _, hc, cs, _, hcs, rfl, rfl⟩ := h
    obtain ⟨hlen, hrest⟩ := ih hcs hq
    refine ⟨by simp [hlen], fun i d' hd' => ?_⟩
    cases i with
    | zero =>
      cases hd'
      exact ⟨c, rfl, classDecl_emits hd hc ((classes_grows hcs).1.trans hq)⟩
    | succ i =>
      obtain ⟨c', hc', hemits⟩ := hrest i d' hd'
      refine ⟨c', hc', ?_⟩
      rwa [Nat.add_assoc, Nat.add_comm 1] at hemits

theorem builtin_emits {b : BuiltinClass} {c : Construct} (hd : q.Distinct)
    (h : Gives (builtin b) p c p') (hq : p'.Le q) : EmitsBuiltin q b c := by
  simp only [builtin, bind_gives, pure_gives] at h
  obtain ⟨es, _, hes, rfl, rfl⟩ := h
  have hgrows : ∀ m : BuiltinMethod, Grows (do return (← member m.key, Body.ofNative m.native)) :=
    fun _ => .bind member_grows fun _ => .pure
  have hall := mapM_gives (q := q) (R := fun m e => q.members[e.1]? = some m.key ∧
      e.2 = Body.ofNative m.native) hgrows (fun m _ p e p' h hq => by
    simp only [bind_gives, pure_gives] at h
    obtain ⟨i, _, hi, rfl, rfl⟩ := h
    exact ⟨hq.members _ _ (member_gives hi), rfl⟩) hes hq
  refine ⟨rfl, rfl, rfl, tableOf_bodies hd ?_ ?_⟩
  · intro e he
    obtain ⟨i, hi, rfl⟩ := List.mem_iff_getElem.mp he
    obtain ⟨hm, hbody⟩ := hall.get (hall.length_eq ▸ hi) hi
    exact ⟨_, hm, ⟨_, List.getElem_mem _, rfl⟩, _, List.getElem_mem _, rfl, hbody⟩
  · rintro key ⟨m, hm, rfl⟩
    obtain ⟨i, hi, rfl⟩ := List.mem_iff_getElem.mp hm
    have hi' := hall.length_eq ▸ hi
    exact ⟨es[i], List.getElem_mem _, (hall.get hi hi').1⟩

theorem entryConstruct_ok {main : Nat} (h : Gives (entryConstruct t) p main p') :
    p = p' ∧ ∃ id, t.find? entryClass = some id ∧ t.isBuiltin id = false ∧
      TypeId.construct? id = some main ∧ ∀ m, t.constructor? id = some m → m.params = [] := by
  unfold entryConstruct at h
  split at h
  · exact (throw_gives.mp h).elim
  · next id hid =>
    rw [Option.filter_eq_some_iff] at hid
    obtain ⟨hfind, hbuiltin⟩ := hid
    have hb : t.isBuiltin id = false := by simpa using hbuiltin
    split at h
    · next m hm =>
      split at h
      · next hempty =>
        obtain ⟨hk, rfl⟩ := EmittedLemmas.constructOf_ok.mp h
        refine ⟨rfl, id, hfind, hb, hk, fun m' hm' => ?_⟩
        rw [hm] at hm'
        cases hm'
        simpa using hempty
      · exact (throw_gives.mp h).elim
    · next hnone =>
      obtain ⟨hk, rfl⟩ := EmittedLemmas.constructOf_ok.mp h
      exact ⟨rfl, id, hfind, hb, hk, fun m' hm' => by simp [hnone] at hm'⟩

end AssembledLemmas

open AssembledLemmas

/-- Lowering a program assembles its image. -/
theorem image_assembled {a : Analysis} {image : Image} (h : Lower.image a = .ok image) :
    Assembled a image := by
  simp only [Lower.image, bind_eq_ok, Prod.exists, pure_eq_ok] at h
  obtain ⟨main, constructs, entry, pools, hparts, rfl⟩ := h
  have hgives : Gives (parts a) .empty (main, constructs, entry) pools := hparts
  simp only [parts, entryChunk, bind_gives, pure_gives, Prod.mk.injEq] at hgives
  obtain ⟨_, _, hmain, natives, _, hnatives, user, _, huser, _, _, ⟨m, pools, hm, rfl, rfl⟩,
    ⟨rfl, rfl, rfl⟩, rfl⟩ := hgives
  obtain ⟨rfl, id, hfind, hbuiltin, hk, hparams⟩ := entryConstruct_ok hmain
  obtain ⟨hle₁, hd₁⟩ := Grows.mapM builtin_grows _ hnatives
  obtain ⟨hle₂, hd₂⟩ := classes_grows huser
  obtain ⟨hle₃, hd₃⟩ := member_grows hm
  have hdistinct : pools.Distinct := hd₃ (hd₂ (hd₁ fun i j key hi => by simp [Pools.empty] at hi))
  obtain ⟨hlen, hclasses⟩ := classes_emits hdistinct huser hle₃
  have hbuiltins := mapM_gives (q := pools) (R := EmitsBuiltin pools) builtin_grows
    (fun b _ p c p' h hq => builtin_emits hdistinct h hq) hnatives (hle₂.trans hle₃)
  have hcount : natives.length = Builtin.count := hbuiltins.length_eq.symm
  refine ⟨hdistinct, by simp [hlen, hcount], fun i b hb => ?_, fun i d hd => ?_,
    id, hfind, hbuiltin, hk, hparams, m, member_gives hm, rfl⟩
  · obtain ⟨hi, rfl⟩ := List.getElem?_eq_some_iff.mp hb
    have hi' : i < natives.length := hbuiltins.length_eq ▸ hi
    refine ⟨natives[i], ?_, hbuiltins.get hi hi'⟩
    simp [Image.construct?, List.getElem?_append_left hi']
  · obtain ⟨c, hc, hemits⟩ := hclasses i d hd
    refine ⟨c, ?_, hemits⟩
    rw [Image.construct?, ← hcount, List.getElem?_toArray,
      List.getElem?_append_right (Nat.le_add_right _ _), Nat.add_sub_cancel_left, hc]

end Lower

end ClassLang
