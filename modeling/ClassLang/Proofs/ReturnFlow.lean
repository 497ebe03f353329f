import ClassLang.Proofs.NullSafety
import ClassLang.Proofs.StackDepth

/-!
# Where control comes to in a statement

The indices of the code of a statement that a frame can come to once it is at its start, whatever the values
of the conditions, follow from the statement alone (`Stmt.Live`): behind a statement that always returns
nothing is reached. An instruction at such an index leads to another one or right behind the statement, and
there only if the statement does not always return (`EmitsStmt.leads_live`).

So a frame in the code of a statement that always returns stays in it until it returns, and the null at the
end of a method that has to return a value is never pushed (`Lower.returns_in_code`).
-/

namespace ClassLang

namespace Stmt

variable {ν : Type}

mutual

/-- Control can come to an index of the code of a statement that starts at an index. -/
def Live (start i : Nat) : Stmt ν → Prop
  | .ifThen c b _ => (start ≤ i ∧ i ≤ start + c.width) ∨ b.Live (start + c.width + 1) i
  | .ifElse c b o _ => (start ≤ i ∧ i ≤ start + c.width) ∨ b.Live (start + c.width + 1) i ∨
      (i = start + c.width + 1 + b.width ∧ b.alwaysReturns = false) ∨
      o.Live (start + c.width + 1 + b.width + 1) i
  | .while c b _ => (start ≤ i ∧ i ≤ start + c.width) ∨ b.Live (start + c.width + 1) i ∨
      (i = start + c.width + 1 + b.width ∧ b.alwaysReturns = false)
  | .block ss _ => AnyLive start i ss
  | .define _ _ e _ | .return (some e) _ | .expression e _ => start ≤ i ∧ i ≤ start + e.width
  | .return none _ => start ≤ i ∧ i ≤ start + 1

/-- `Live` for statements one after the other: behind one that always returns, nothing is reached. -/
def AnyLive (start i : Nat) : List (Stmt ν) → Prop
  | [] => False
  | s :: ss => s.Live start i ∨ (s.alwaysReturns = false ∧ AnyLive (start + s.width) i ss)

end

/-- Control can come from the start of a statement to an index: to one of its code, or behind it. -/
def Flows (start : Nat) (s : Stmt ν) (i : Nat) : Prop :=
  s.Live start i ∨ (i = start + s.width ∧ s.alwaysReturns = false)

/-- `Flows` for statements one after the other. -/
def AnyFlows (start : Nat) (ss : List (Stmt ν)) (i : Nat) : Prop :=
  AnyLive start i ss ∨ (i = start + widths ss ∧ anyReturns ss = false)

/-! ## Ranges -/

mutual

/-- Live indices are those of the code of the statement. -/
theorem live_range : ∀ {s : Stmt ν} {start i : Nat}, s.Live start i → start ≤ i ∧ i < start + s.width
  | .ifThen c b _, start, i, h => by
    simp only [Live, width] at h ⊢
    rcases h with h | h
    · omega
    · have := live_range h
      omega
  | .ifElse c b o _, start, i, h => by
    simp only [Live, width] at h ⊢
    rcases h with h | h | h | h
    · omega
    · have := live_range h
      omega
    · omega
    · have := live_range h
      omega
  | .while c b _, start, i, h => by
    simp only [Live, width] at h ⊢
    rcases h with h | h | h
    · omega
    · have := live_range h
      omega
    · omega
  | .block ss _, start, i, h => anyLive_range h
  | .define _ _ e _, start, i, h | .return (some e) _, start, i, h | .expression e _, start, i, h
  | .return none _, start, i, h => by
    simp only [Live, width] at h ⊢
    omega

theorem anyLive_range : ∀ {ss : List (Stmt ν)} {start i : Nat}, AnyLive start i ss →
    start ≤ i ∧ i < start + widths ss
  | [], _, _, h => h.elim
  | s :: ss, start, i, h => by
    simp only [AnyLive, widths] at h ⊢
    rcases h with h | ⟨_, h⟩
    · have := live_range h
      omega
    · have := anyLive_range h
      omega

end

/-- From a statement that does not always return, control comes to the ones behind it. -/
theorem anyFlows_tail {s : Stmt ν} {ss : List (Stmt ν)} {start i : Nat} (hs : s.alwaysReturns = false)
    (h : AnyFlows (start + s.width) ss i) : AnyFlows start (s :: ss) i :=
  h.imp (fun h => .inr ⟨hs, h⟩) fun ⟨hi, hss⟩ =>
    ⟨by rw [hi, widths, Nat.add_assoc], by rw [anyReturns, hs, hss, Bool.false_or]⟩

mutual

/-- Control is at the start. -/
theorem flows_start : ∀ (s : Stmt ν) (start : Nat), s.Flows start start
  | .ifThen .., _ | .ifElse .., _ | .while .., _ => .inl (.inl ⟨Nat.le_refl _, Nat.le_add_right _ _⟩)
  | .block ss _, start => anyFlows_start ss start
  | .define .., _ | .return (some _) _, _ | .expression .., _ | .return none _, _ =>
    .inl ⟨Nat.le_refl _, Nat.le_add_right _ _⟩

theorem anyFlows_start : ∀ (ss : List (Stmt ν)) (start : Nat), AnyFlows start ss start
  | [], _ => .inr ⟨rfl, rfl⟩
  | s :: ss, start => by
    rcases flows_start s start with h | ⟨h, hs⟩
    · exact .inl (.inl h)
    · have hrest := anyFlows_start ss (start + s.width)
      rw [← h] at hrest
      exact anyFlows_tail hs (by rwa [← h])

end

theorem anyFlows_head {s : Stmt ν} {ss : List (Stmt ν)} {start i : Nat} (h : s.Flows start i) :
    AnyFlows start (s :: ss) i := by
  rcases h with h | ⟨rfl, hs⟩
  · exact .inl (.inl h)
  · exact anyFlows_tail hs (anyFlows_start ss _)

/-! ## The statements in a statement -/

mutual

/-- The code of a statement in another one is a part of the code of that one. -/
theorem places_range : ∀ {s : Stmt ν} {start : Nat}, ∀ p ∈ s.places start,
    start ≤ p.1 ∧ p.1 + p.2.width ≤ start + s.width
  | .define .., _ | .return .., _ | .expression .., _ =>
    List.forall_mem_singleton.mpr ⟨Nat.le_refl _, Nat.le_refl _⟩
  | .ifThen c b _, start => by
    refine List.forall_mem_cons.mpr ⟨⟨Nat.le_refl _, Nat.le_refl _⟩, fun p hp => ?_⟩
    have := places_range p hp
    rw [width]
    omega
  | .ifElse c b o _, start => by
    refine List.forall_mem_cons.mpr ⟨⟨Nat.le_refl _, Nat.le_refl _⟩,
      List.forall_mem_append.mpr ⟨fun p hp => ?_, fun p hp => ?_⟩⟩
    · have := places_range p hp
      rw [width]
      omega
    · have := places_range p hp
      rw [width]
      omega
  | .while c b _, start => by
    refine List.forall_mem_cons.mpr ⟨⟨Nat.le_refl _, Nat.le_refl _⟩, fun p hp => ?_⟩
    have := places_range p hp
    rw [width]
    omega
  | .block ss _, start =>
    List.forall_mem_cons.mpr ⟨⟨Nat.le_refl _, Nat.le_refl _⟩, placesAll_range⟩

theorem placesAll_range : ∀ {ss : List (Stmt ν)} {start : Nat}, ∀ p ∈ placesAll start ss,
    start ≤ p.1 ∧ p.1 + p.2.width ≤ start + widths ss
  | [], _ => by simp [placesAll]
  | s :: ss, start => by
    refine List.forall_mem_append.mpr ⟨fun p hp => ?_, fun p hp => ?_⟩
    · have := places_range p hp
      rw [widths]
      omega
    · have := placesAll_range p hp
      rw [widths]
      omega

end

mutual

/-- Where control comes to in a statement, it comes to in the statements in it. -/
theorem live_at_place : ∀ {s : Stmt ν} {start i : Nat}, s.Live start i → ∀ p ∈ s.places start,
    p.1 ≤ i → i < p.1 + p.2.width → p.2.Live p.1 i
  | .define .., _, _, h | .return .., _, _, h | .expression .., _, _, h =>
    List.forall_mem_singleton.mpr fun _ _ => h
  | .ifThen c b _, start, i, h => by
    refine List.forall_mem_cons.mpr ⟨fun _ _ => h, fun p hp hge hlt => ?_⟩
    have hrange := places_range p hp
    rcases h with h | h
    · omega
    · exact live_at_place h p hp hge hlt
  | .ifElse c b o _, start, i, h => by
    refine List.forall_mem_cons.mpr ⟨fun _ _ => h,
      List.forall_mem_append.mpr ⟨fun p hp hge hlt => ?_, fun p hp hge hlt => ?_⟩⟩
    -- The ranges of the parts tell which of them the index belongs to.
    · have hrange := places_range p hp
      rcases h with h | h | h | h
      · omega
      · exact live_at_place h p hp hge hlt
      · omega
      · have := live_range h
        omega
    · have hrange := places_range p hp
      rcases h with h | h | h | h
      · omega
      · have := live_range h
        omega
      · omega
      · exact live_at_place h p hp hge hlt
  | .while c b _, start, i, h => by
    refine List.forall_mem_cons.mpr ⟨fun _ _ => h, fun p hp hge hlt => ?_⟩
    have hrange := places_range p hp
    rcases h with h | h | h
    · omega
    · exact live_at_place h p hp hge hlt
    · omega
  | .block ss _, start, i, h => List.forall_mem_cons.mpr ⟨fun _ _ => h, anyLive_at_place h⟩

theorem anyLive_at_place : ∀ {ss : List (Stmt ν)} {start i : Nat}, AnyLive start i ss →
    ∀ p ∈ placesAll start ss, p.1 ≤ i → i < p.1 + p.2.width → p.2.Live p.1 i
  | [], _, _, h => h.elim
  | s :: ss, start, i, h => by
    refine List.forall_mem_append.mpr ⟨fun p hp hge hlt => ?_, fun p hp hge hlt => ?_⟩
    · have hrange := places_range p hp
      rcases h with h | ⟨_, h⟩
      · exact live_at_place h p hp hge hlt
      · have := anyLive_range h
        omega
    · have hrange := placesAll_range p hp
      rcases h with h | ⟨_, h⟩
      · have := live_range h
        omega
      · exact anyLive_at_place h p hp hge hlt

end

end Stmt

/-! ## Code -/

section

variable {code : Array Instr} {i j : Nat}

theorem Leads.mem {instr : Instr} (h : Leads code i j) (hi : code[i]? = some instr) :
    j ∈ instr.successors i := by
  obtain ⟨_, hi', hj⟩ := h
  rw [hi] at hi'
  cases hi'
  exact hj

/-- Code without jumps leads to the next index. -/
theorem CodeAt.leads_straight {start : Nat} {is : List Instr} (hcode : CodeAt code start is)
    (hstraight : ∀ i ∈ is, i.Straight) (hge : start ≤ i) (hlt : i < start + is.length)
    (h : Leads code i j) : j = i + 1 := by
  obtain ⟨k, rfl⟩ := Nat.exists_eq_add_of_le hge
  have hk : k < is.length := by omega
  have hj := h.mem (hcode k is[k] (List.getElem?_eq_getElem hk))
  rw [hstraight _ (List.getElem_mem hk)] at hj
  exact List.mem_singleton.mp hj

/-- A value and an instruction that takes it. -/
theorem CodeAt.leads_value {start n : Nat} {is : List Instr} {instr : Instr} (hn : is.length = n)
    (hcode : CodeAt code start (is ++ [instr])) (hstraight : ∀ i ∈ is, i.Straight)
    (hi : start ≤ i ∧ i ≤ start + n) (h : Leads code i j) :
    (start ≤ j ∧ j ≤ start + n) ∨ j ∈ instr.successors (start + n) := by
  subst hn
  by_cases hlt : i < start + is.length
  · have := hcode.left.leads_straight hstraight hi.1 hlt h
    omega
  · obtain rfl : i = start + is.length := by omega
    exact .inr (h.mem hcode.right.head)

/-- A condition and the jump behind it. -/
theorem CodeAt.leads_test {start n target : Nat} {is : List Instr} (hn : is.length = n)
    (hcode : CodeAt code start (is ++ [Instr.jumpIfFalse target])) (hstraight : ∀ i ∈ is, i.Straight)
    (hi : start ≤ i ∧ i ≤ start + n) (h : Leads code i j) :
    (start ≤ j ∧ j ≤ start + n) ∨ j = start + n + 1 ∨ j = target :=
  (hcode.leads_value hn hstraight hi h).imp_right fun hj => by
    simpa only [Instr.successors, List.mem_cons, List.not_mem_nil, or_false] using hj

variable {q : Pools} {t : ClassTable} {room : Nat}

open Stmt

mutual

/-- From a live index of a statement control goes on to another one, or to the end of the statement if it
does not always return. -/
theorem EmitsStmt.leads_live : ∀ {s : Stmt Typing} {names : List String} {start i j : Nat}
    {is : List Instr}, EmitsStmt q t room names start s is → CodeAt code start is →
      s.Live start i → Leads code i j → s.Flows start j
  | .define x w e _, _, start, i, j, _, h, hcode, hi, hij => by
    cases h with
    | define he =>
      refine (hcode.leads_value he.length_eq he.straight hi hij).imp_right fun hj => ⟨?_, rfl⟩
      exact List.mem_singleton.mp hj
  | .expression e _, _, start, i, j, _, h, hcode, hi, hij => by
    cases h with
    | expression he =>
      refine (hcode.leads_value he.length_eq he.straight hi hij).imp_right fun hj => ⟨?_, rfl⟩
      exact List.mem_singleton.mp hj
  | .return (some e) _, _, start, i, j, _, h, hcode, hi, hij => by
    cases h with
    | «return» he =>
      exact (hcode.leads_value he.length_eq he.straight hi hij).imp_right fun hj =>
        absurd hj List.not_mem_nil
  | .return none _, _, start, i, j, _, h, hcode, hi, hij => by
    cases h
    exact (CodeAt.leads_value (show [Instr.pushNull].length = 1 from rfl) hcode
      (List.forall_mem_singleton.mpr fun _ => rfl) hi hij).imp_right fun hj => absurd hj List.not_mem_nil
  | .ifThen c b _, _, start, i, j, _, h, hcode, hi, hij => by
    obtain ⟨test, body, hc, hb, htest, hbody⟩ := h.ifThen_parts hcode
    have hflows {k : Nat} (hk : b.Flows (start + c.width + 1) k) :
        (Stmt.ifThen c b ‹_›).Flows start k :=
      hk.imp .inr fun ⟨hk, _⟩ => ⟨by rw [hk, width]; omega, rfl⟩
    rcases hi with hi | hi
    · rcases htest.leads_test hc.length_eq hc.straight hi hij with hj | rfl | rfl
      · exact .inl (.inl hj)
      · exact hflows (flows_start b _)
      · exact .inr ⟨by rw [width]; omega, rfl⟩
    · exact hflows (hb.leads_live hbody hi hij)
  | .ifElse c b o _, _, start, i, j, _, h, hcode, hi, hij => by
    obtain ⟨test, body, other, hc, hb, ho, htest, hbody, hother⟩ := h.ifElse_parts hcode
    have hthen {k : Nat} (hk : b.Flows (start + c.width + 1) k) :
        (Stmt.ifElse c b o ‹_›).Flows start k :=
      .inl (.inr (hk.imp_right .inl))
    have helse {k : Nat} (hk : o.Flows (start + c.width + 1 + b.width + 1) k) :
        (Stmt.ifElse c b o ‹_›).Flows start k := by
      refine hk.imp (fun hk => .inr (.inr (.inr hk))) fun ⟨hk, hr⟩ => ⟨by rw [hk, width]; omega, ?_⟩
      rw [alwaysReturns, hr, Bool.and_false]
    rcases hi with hi | hi | ⟨rfl, hr⟩ | hi
    · rcases htest.leads_test hc.length_eq hc.straight hi hij with hj | rfl | rfl
      · exact .inl (.inl hj)
      · exact hthen (flows_start b _)
      · exact helse (flows_start o _)
    · exact hthen (hb.leads_live hbody hi hij)
    · -- The jump over the other branch is reached only from a branch that does not always return.
      obtain rfl := List.mem_singleton.mp (hij.mem hother.head)
      exact .inr ⟨by rw [width]; omega, by rw [alwaysReturns, hr, Bool.false_and]⟩
    · exact helse (ho.leads_live hother.tail hi hij)
  | .while c b _, _, start, i, j, _, h, hcode, hi, hij => by
    obtain ⟨test, body, hc, hb, htest, hbody, hback⟩ := h.while_parts hcode
    have hflows {k : Nat} (hk : b.Flows (start + c.width + 1) k) :
        (Stmt.while c b ‹_›).Flows start k :=
      .inl (.inr hk)
    rcases hi with hi | hi | ⟨rfl, _⟩
    · rcases htest.leads_test hc.length_eq hc.straight hi hij with hj | rfl | rfl
      · exact .inl (.inl hj)
      · exact hflows (flows_start b _)
      · exact .inr ⟨by rw [width]; omega, rfl⟩
    · exact hflows (hb.leads_live hbody hi hij)
    · obtain rfl := List.mem_singleton.mp (hij.mem hback)
      exact flows_start _ _
  | .block ss _, _, start, i, j, _, h, hcode, hi, hij => by
    cases h with
    | block hss => exact hss.leads_live hcode hi hij

/-- `EmitsStmt.leads_live` for statements one after the other. -/
theorem EmitsStmts.leads_live : ∀ {ss : List (Stmt Typing)} {names : List String} {start i j : Nat}
    {is : List Instr}, EmitsStmts q t room names start ss is → CodeAt code start is →
      AnyLive start i ss → Leads code i j → AnyFlows start ss j
  | [], _, _, _, _, _, _, _, hi, _ => hi.elim
  | s :: ss, _, start, i, j, _, h, hcode, hi, hij => by
    cases h with
    | cons hs hss =>
      have hright := hcode.right
      rw [hs.length_eq] at hss hright
      rcases hi with hi | ⟨hr, hi⟩
      · exact anyFlows_head (hs.leads_live hcode.left hi hij)
      · exact anyFlows_tail hr (hss.leads_live hright hi hij)

end

end

/-! ## Chunks -/

section

variable {a : Analysis} {image : Image} {chunk : Chunk}

/-- Control in a chunk with a body is in front of it, at a live index of it, or behind it, and there only if
the body does not always return. -/
theorem EmitsChunk.reached {params : List Param} {before : List Instr} {body : Stmt Typing} {i : Nat}
    (h : EmitsChunk image.pools a.classes params before (some body) chunk)
    (hstraight : ∀ i ∈ before, i.Straight) (hi : Relation.ReflTransGen (Leads chunk.code) 0 i) :
    i < before.length ∨ body.Live before.length i ∨
      (before.length + body.width ≤ i ∧ body.alwaysReturns = false) := by
  obtain ⟨_, hbody, hcode, hlast, hsize⟩ := h.body_at
  obtain ⟨_, hwhole, _⟩ := h.code
  have hfront : CodeAt chunk.code 0 before := (CodeAt.whole hwhole).left.left
  have hflows {j : Nat} (hj : body.Flows before.length j) : j < before.length ∨
      body.Live before.length j ∨ (before.length + body.width ≤ j ∧ body.alwaysReturns = false) :=
    .inr (hj.imp_right fun ⟨hj, hr⟩ => ⟨Nat.le_of_eq hj.symm, hr⟩)
  have hbegin (j : Nat) (hj : j ≤ before.length) : j < before.length ∨
      body.Live before.length j ∨ (before.length + body.width ≤ j ∧ body.alwaysReturns = false) :=
    (Nat.lt_or_eq_of_le hj).elim .inl fun heq => hflows (heq ▸ body.flows_start _)
  induction hi with
  | refl => exact hbegin 0 (Nat.zero_le _)
  | @tail i j _ hij ih =>
    rcases ih with hlt | hlive | ⟨hge, hr⟩
    · exact hbegin j (hfront.leads_straight hstraight (Nat.zero_le _) (by omega) hij ▸ hlt)
    · exact hflows (hbody.leads_live hcode hlive hij)
    · -- Behind the body only the end of the chunk is left.
      have hlt : i < chunk.code.size := by
        obtain ⟨_, hinstr, _⟩ := hij
        exact (Array.getElem?_eq_some_iff.mp hinstr).1
      rcases CodeAt.leads_value (show [Instr.pushNull].length = 1 from rfl) hlast
        (List.forall_mem_singleton.mpr fun _ => rfl) ⟨hge, by rw [hsize] at hlt; omega⟩ hij with hj | hj
      · exact .inr (.inr ⟨hj.1, hr⟩)
      · cases hj

/-- Where control comes to in a chunk, it comes to in the statements of the program. -/
theorem Analysis.StatementAt.live (W : WellTyped a) (A : Assembled a image) {index i : Nat}
    {s : Stmt Typing} (h : a.StatementAt image chunk index s)
    (hi : Relation.ReflTransGen (Leads chunk.code) 0 i) (hge : index ≤ i) (hlt : i < index + s.width) :
    s.Live index i := by
  have hplace {body : Stmt Typing} {params : List Param} {before : List Instr}
      (hchunk : EmitsChunk image.pools a.classes params before (some body) chunk)
      (hstraight : ∀ i ∈ before, i.Straight) (hp : (index, s) ∈ body.places before.length) :
      s.Live index i := by
    have hrange : before.length ≤ index ∧ index + s.width ≤ before.length + body.width :=
      body.places_range _ hp
    rcases hchunk.reached hstraight hi with hi | hi | ⟨hi, _⟩
    · omega
    · exact body.live_at_place hi _ hp hge hlt
    · omega
  cases h with
  | @method i d c md hd hc hmd hunder hp =>
    obtain ⟨_, _, ht⟩ := W.each i d hd
    exact hplace (method_chunk A hd ht hc hmd hunder) (by simp) hp
  | @constructor i d c cd hd hc hcd hunder hp =>
    obtain ⟨_, _, ht⟩ := W.each i d hd
    obtain ⟨_, before, _, hbefore, hchunk⟩ := constructor_chunk A hd ht hc hcd hunder
    refine hplace hchunk hbefore.straight ?_
    rwa [hbefore.length_eq]

/-- In a statement that always returns, no path leads out of its code. -/
theorem Analysis.StatementAt.leads_inside (W : WellTyped a) (A : Assembled a image) {index i j : Nat}
    {s : Stmt Typing} (h : a.StatementAt image chunk index s) (hreturns : s.alwaysReturns = true)
    (hi : Relation.ReflTransGen (Leads chunk.code) 0 i) (hge : index ≤ i) (hlt : i < index + s.width)
    (hij : Leads chunk.code i j) : index ≤ j ∧ j < index + s.width := by
  obtain ⟨_, _, _, hemits, hcode, _⟩ := h.emits W A
  rcases hemits.leads_live hcode (h.live W A hi hge hlt) hij with hj | ⟨_, hr⟩
  · exact Stmt.live_range hj
  · rw [hreturns] at hr
    cases hr

end

/-! ## Runs -/

/-- A frame is where control comes to in its code. -/
def Frame.Follows (f : Frame) : Prop := Relation.ReflTransGen (Leads f.code) 0 f.ip

theorem Image.follows_kept (image : Image) : image.Keeps fun _ f => f.Follows where
  starts _ _ _ := .refl
  passes f f' i due hf hi hpasses := by
    rw [Frame.Follows, hpasses.code]
    exact hf.tail ⟨i, hi, hpasses.next⟩
  resumes _ _ hf := hf

/-- A frame that is in the code of a statement that always returns stays in it until it returns, on every
path through its code and in every run. The last two instructions of a method with a result are never
reached. -/
theorem Lower.returns_in_code {p : Program Span} {a : Analysis} {image : Image}
    (hcheck : Check.program p = .ok a) (hlower : Lower.image a = .ok image) :
    (∀ chunk index s, a.StatementAt image chunk index s → s.alwaysReturns = true →
      (∃ room names code, EmitsStmt image.pools a.classes room names index s code ∧
        CodeAt chunk.code index code ∧ code.length = s.width) ∧
      (∀ i j, Relation.ReflTransGen (Leads chunk.code) 0 i → index ≤ i → i < index + s.width →
        Leads chunk.code i j → index ≤ j ∧ j < index + s.width) ∧
      ∀ bound console m m' f, image.run bound console = .unfinished m → m.frame.code = chunk.code →
        index ≤ m.frame.ip → m.frame.ip < index + s.width → m.step image = .next m' →
        m'.frameAt? m.callers.length = some f → index ≤ f.ip ∧ f.ip < index + s.width) ∧
    ∀ (i : Nat) d c md r meth chunk, a.program.classes[i]? = some d →
      image.construct? (Builtin.count + i) = some c → md ∈ d.methods →
      a.classes.record? (TypeId.first + i) = some r → r.method? md.name.key = some meth →
      meth.returns ≠ .unit → image.ChunkUnder c md.name.key chunk →
      CodeAt chunk.code (chunk.code.size - 2) [.pushNull, .return] ∧
      ∀ bound console m, image.run bound console = .unfinished m → m.frame.code = chunk.code →
        m.frame.ip < chunk.code.size - 2 := by
  have W := Check.program_wellTyped hcheck
  have A := Lower.image_assembled hlower
  have hfollows {bound : Nat} {console : Console} {m : Machine}
      (hrun : image.run bound console = .unfinished m) : m.Frames fun _ f => f.Follows :=
    Machine.run_frames image.follows_kept (Machine.start_frames image.follows_kept _) hrun
  refine ⟨fun chunk index s hs hreturns => ⟨hs.emits W A, fun i j hi hge hlt hij =>
    hs.leads_inside W A hreturns hi hge hlt hij, ?_⟩, ?_⟩
  · intro bound console m m' f hrun hcode hge hlt hstep hf
    obtain ⟨i, due, hi, hpasses⟩ := Machine.frameAt_step hstep hf
    rw [hcode] at hi
    have hfrom := (hfollows hrun).frame
    rw [Frame.Follows, hcode] at hfrom
    exact hs.leads_inside W A hreturns hfrom hge hlt ⟨i, hi, hpasses.next⟩
  · intro i d c md r meth chunk hd hc hmd hr hm hunit hunder
    obtain ⟨_, r', ht⟩ := W.each i d hd
    have hchunk := method_chunk A hd ht hc hmd hunder
    obtain ⟨_, _, _, hlast, hsize⟩ := hchunk.body_at
    have hend : chunk.code.size - 2 = 0 + md.body.width := by
      rw [hsize]
      rfl
    refine ⟨hend ▸ hlast, fun bound console m hrun hcode => ?_⟩
    have hreturns : md.body.alwaysReturns = true :=
      (Check.program_returns hcheck i hd hmd r meth hr hm).resolve_left hunit
    have hfrom := (hfollows hrun).frame
    rw [Frame.Follows, hcode] at hfrom
    rw [hend]
    rcases hchunk.reached (by simp) hfrom with hi | hi | ⟨_, hno⟩
    · exact absurd hi (Nat.not_lt_zero _)
    · exact (Stmt.live_range hi).2
    · rw [hreturns] at hno
      cases hno

/-- A method both branches of whose `if` return, with a statement behind it. -/
def choosing : String :=
  "class Main : IO\n\x7b\n public new() = this.out(this.pick(true))\n\n" ++
    " public pick(first: boolean): string\n \x7b\n if first then return \"a\" else return \"b\"\n" ++
    " this.out(\"never\")\n \x7d\n\x7d\n"

/-- The chunk of the method. Its jump over the second branch leads behind the `if`. -/
def choice : Chunk where
  code := #[.load 1, .jumpIfFalse 5, .pushConst 0, .return, .jump 7, .pushConst 1, .return, .load 0,
    .pushConst 2, .callVirtual 5 17, .pop, .pushNull, .return]
  arguments := 2
  locals := 2

/-- No run executes the jump and goes behind the `if`, and none comes to the null at the end. -/
theorem choice_returns : ∃ p a image, Program.ofSource choosing = .ok p ∧ Check.program p = .ok a ∧
    Lower.image a = .ok image ∧ image.HasChunk choice ∧
    (∃ s, a.StatementAt image choice 0 s ∧ s.alwaysReturns = true ∧ s.width = 7) ∧
    (∀ bound console m m' f, image.run bound console = .unfinished m → m.frame.code = choice.code →
      m.frame.ip < 7 → m.step image = .next m' → m'.frameAt? m.callers.length = some f → f.ip < 7) ∧
    ∀ bound console m, image.run bound console = .unfinished m → m.frame.code = choice.code →
      m.frame.ip < 11 := by
  have hrun : (Image.ofSource choosing).toOption.bind (fun (image : Image) =>
      (Analysis.ofSource choosing).toOption.bind fun (a : Analysis) =>
      a.program.classes[0]?.bind fun (d : ClassDecl Typing) =>
      d.methods[0]?.bind fun (md : MethodDecl Typing) =>
      (md.body.places 0)[1]?.bind fun (s : Nat × Stmt Typing) =>
      (a.classes.record? 6).bind fun r => (r.method? md.name.key).bind fun meth =>
      (image.construct? 5).bind fun c => (c.bodies.find? 19).bind fun body =>
      some (decide (image.members[19]? = some (MemberKey.named "pick") ∧ md.name.key = .named "pick" ∧
        meth.returns = .string ∧ s.1 = 0 ∧ s.2.width = 7 ∧ s.2.alwaysReturns = true ∧
        body = .compiled choice))) = some true := by decide +kernel
  simp only [Option.bind_eq_some_iff, Option.some.injEq, toOption_eq_some, decide_eq_true_eq] at hrun
  obtain ⟨image, himage, a, ha, d, hd, md, hmd, ⟨_, s⟩, hs, r, hr, meth, hmeth, c, hc, body, hfind, hm, hkey,
    hreturns, rfl, hwidth, hall, rfl⟩ := hrun
  obtain ⟨p, a', hp, ha', hcheck, hlower⟩ := Image.ofSource_stages himage
  obtain rfl : a' = a := Except.ok.inj (ha'.symm.trans ha)
  have hunder : image.ChunkUnder c md.name.key choice := ⟨19, hkey ▸ hm, hfind⟩
  have hmethod : md ∈ d.methods := List.mem_of_getElem? hmd
  have hat : a'.StatementAt image choice 0 s := .method hd hc hmethod hunder (List.mem_of_getElem? hs)
  obtain ⟨hstatements, hmethods⟩ := Lower.returns_in_code hcheck hlower
  obtain ⟨_, _, hstays⟩ := hstatements choice 0 s hat hall
  obtain ⟨_, hnever⟩ := hmethods 0 d c md r meth choice hd hc hmethod hr hmeth
    (hreturns ▸ by decide) hunder
  have hend : choice.code.size - 2 = 11 := rfl
  rw [hend] at hnever
  refine ⟨p, a', image, hp, hcheck, hlower, hunder.hasChunk hc, ⟨s, hat, hall, hwidth⟩, ?_, hnever⟩
  intro bound console m m' f hrun hcode hlt hstep hf
  have hwidth : s.width = 7 := hwidth
  rw [hwidth, Nat.zero_add] at hstays
  exact (hstays bound console m m' f hrun hcode (Nat.zero_le _) hlt hstep hf).2

end ClassLang
