import ClassLang.Proofs.Productions
import ClassLang.Proofs.ReadingStatements

/-!
# Derivations of what is read

The tree that a parser reads has the tokens that the parser passes as a derivation (`Yields`). There is a
lemma for each parser, along its own recursion; a loop that goes on behind an operand turns each
derivation of the operand into one of the whole. No parser passes a token in any other way, so in a file
that is read no token is left over, skipped or used twice (`program_derives`). Recovery from an error skips
tokens, but then nothing is read.

A parser that fails points to the token in front of which it fails, or to the one before it
(`Cursor.Raises`), so every syntax error points to a token or to the end of the file (`classList_places`).
-/

namespace ClassLang

/-- The places at a cursor: those of the tokens to come and the end of the file. -/
def Cursor.places (c : Cursor) : List Span := c.tokens.map (·.span) ++ [c.finish]

/-- From one cursor to another some tokens are passed, and nothing else happens. -/
structure Cursor.Passes (c d : Cursor) (used : List (Located Token)) : Prop where
  tokens : c.tokens = used ++ d.tokens
  finish : d.finish = c.finish
  previous : d.previous = used.getLast?.or c.previous

/-- The value that was read and the cursor behind it. -/
def Parsed.view {α : Type} {c : Cursor} (p : Parsed α c) : α × Cursor := (p.value, p.rest)

@[simp]
theorem Parsed.view_mk {α : Type} {c d : Cursor} {a : α} {h : d.size < c.size} :
    (⟨a, d, h⟩ : Parsed α c).view = (a, d) := rfl

/-- The value that was read and the cursor behind it. -/
def Continued.view {α : Type} {c : Cursor} (p : Continued α c) : α × Cursor := (p.value, p.rest)

@[simp]
theorem Continued.view_mk {α : Type} {c d : Cursor} {a : α} {h : d.size ≤ c.size} :
    (⟨a, d, h⟩ : Continued α c).view = (a, d) := rfl

/-- Only the last token matters for where a stretch ends. -/
theorem Span.upTo_append {us : List (Located Token)} (s : Span) (ts : List (Located Token))
    (hne : us ≠ []) : s.upTo (ts ++ us) = s.upTo us := by
  rw [Span.upTo, Span.upTo, List.getLast?_append, List.getLast?_eq_some_getLast hne]
  rfl

namespace Cursor

variable {c d e : Cursor} {ts us : List (Located Token)} {t : Located Token}

namespace Passes

theorem refl (c : Cursor) : Passes c c [] := ⟨rfl, rfl, rfl⟩

theorem trans (h : Passes c d ts) (h' : Passes d e us) : Passes c e (ts ++ us) where
  tokens := by rw [h.tokens, h'.tokens, List.append_assoc]
  finish := h'.finish.trans h.finish
  previous := by rw [h'.previous, h.previous, List.getLast?_append, Option.or_assoc]

theorem advance (h : c.tokens = t :: ts) : Passes c c.advance [t] := by
  unfold Cursor.advance
  rw [h]
  exact ⟨h, rfl, rfl⟩

theorem ne_nil (h : Passes c d ts) (hlt : d.size < c.size) : ts ≠ [] := by
  rintro rfl
  have htokens := h.tokens
  rw [List.nil_append] at htokens
  exact absurd hlt (by rw [size, size, htokens]; exact Nat.lt_irrefl _)

theorem size (h : Passes c d ts) : c.size = ts.length + d.size := by
  rw [Cursor.size, Cursor.size, h.tokens, List.length_append]

theorem places_eq (h : Passes c d ts) : c.places = ts.map (·.span) ++ d.places := by
  rw [Cursor.places, Cursor.places, h.finish, h.tokens, List.map_append, List.append_assoc]

theorem places_suffix (h : Passes c d ts) : d.places <:+ c.places := ⟨_, h.places_eq.symm⟩

theorem places (h : Passes c d ts) : ∀ s ∈ d.places, s ∈ c.places := h.places_suffix.subset

theorem spanFrom (h : Passes c d ts) (hne : ts ≠ []) (s : Span) : d.spanFrom s = s.upTo ts := by
  obtain ⟨us, t, rfl⟩ := (List.eq_nil_or_concat ts).resolve_left hne
  rw [Cursor.spanFrom, previousSpan, h.previous, Span.upTo]
  simp

/-- A stretch that starts in front of the tokens that were passed ends with the last of them as well. -/
theorem spanFrom_behind (h : Passes c d ts) (hne : ts ≠ []) (s : Span) (us : List (Located Token)) :
    d.spanFrom s = s.upTo (us ++ ts) := by
  rw [h.spanFrom hne, Span.upTo_append s us hne]

theorem skipBreaks (c : Cursor) : ∃ breaks, Grammar.Breaks breaks ∧ Passes c c.skipBreaks breaks := by
  obtain ⟨previous, ts, finish⟩ := c
  induction ts generalizing previous with
  | nil => exact ⟨[], List.forall_mem_nil _, .refl _⟩
  | cons t ts ih =>
    obtain ⟨item, span⟩ := t
    cases item with
    | lineBreak =>
      obtain ⟨breaks, hbreaks, hpasses⟩ := ih (some ⟨.lineBreak, span⟩)
      exact ⟨_, List.forall_mem_cons.mpr ⟨rfl, hbreaks⟩, (advance rfl).trans hpasses⟩
    | _ => exact ⟨[], List.forall_mem_nil _, .refl _⟩

end Passes

theorem length_places (c : Cursor) : c.places.length = c.size + 1 := by
  simp [places, size]

/-- The next place at a cursor comes first. -/
theorem places_cons (c : Cursor) : ∃ rest, c.places = c.span :: rest := by
  obtain ⟨previous, ts, finish⟩ := c
  cases ts with
  | nil => exact ⟨[], rfl⟩
  | cons t ts => exact ⟨ts.map (·.span) ++ [finish], rfl⟩

/-- An error of a parser at `c` points to the place next to a cursor that the parser has come to. It is
raised there, or behind the token there. -/
def Raises (c : Cursor) (e : ParseError) : Prop :=
  ∃ d used, Passes c d used ∧ e.span = d.span ∧ e.remaining ≤ d.size ∧ d.size ≤ e.remaining + 1

namespace Raises

variable {e : ParseError}

theorem here (hspan : e.span = c.span) (hsize : e.remaining = c.size) : c.Raises e :=
  ⟨c, [], .refl c, hspan, Nat.le_of_eq hsize, hsize ▸ Nat.le_succ _⟩

theorem after (hc : Passes c d ts) (h : d.Raises e) : c.Raises e := by
  obtain ⟨d', used, hpasses, h⟩ := h
  exact ⟨d', _, hc.trans hpasses, h⟩

theorem mem_places (h : c.Raises e) : e.span ∈ c.places := by
  obtain ⟨d, used, hpasses, hspan, _⟩ := h
  obtain ⟨rest, hrest⟩ := d.places_cons
  refine hpasses.places _ ?_
  rw [hspan, hrest]
  exact List.mem_cons_self

end Raises

end Cursor

namespace Grammar

open Cursor

section

variable {α β γ δ : Type} {c d e : Cursor} {ts us : List (Located Token)} {t : Located Token}
  {P : List (Located Token) → α → Prop} {Q : List (Located Token) → β → Prop}

/-! ## Outcomes -/

/-- A parser that reads a value has passed tokens that `P` relates to the value. A parser that fails has come
to the place that its error points to. -/
def Yields (view : γ → α × Cursor) (c : Cursor) (P : List (Located Token) → α → Prop) :
    Except ParseError γ → Prop
  | .ok p => ∃ used, Passes c (view p).2 used ∧ P used (view p).1
  | .error e => c.Raises e

theorem Yields.after {v : γ → α × Cursor} {w : δ → β × Cursor} {x : Except ParseError γ}
    {k : γ → Except ParseError δ} (hc : Passes c d ts) (hx : Yields v d P x)
    (hk : ∀ p used, Passes c (v p).2 (ts ++ used) → P used (v p).1 → Yields w c Q (k p)) :
    Yields w c Q (x >>= k) := by
  cases x with
  | error e => exact Raises.after hc hx
  | ok p =>
    obtain ⟨used, hpasses, hp⟩ := hx
    exact hk p used (hc.trans hpasses) hp

theorem Yields.bind {v : γ → α × Cursor} {w : δ → β × Cursor} {x : Except ParseError γ}
    {k : γ → Except ParseError δ} (hx : Yields v c P x)
    (hk : ∀ p used, Passes c (v p).2 used → P used (v p).1 → Yields w c Q (k p)) :
    Yields w c Q (x >>= k) :=
  .after (.refl c) hx hk

theorem Yields.imp {v : γ → α × Cursor} {x : Except ParseError γ} {P' : List (Located Token) → α → Prop}
    (hx : Yields v c P x) (h : ∀ ts a, P ts a → P' ts a) : Yields v c P' x := by
  cases x with
  | error e => exact hx
  | ok p =>
    obtain ⟨used, hpasses, hp⟩ := hx
    exact ⟨used, hpasses, h _ _ hp⟩

/-- The first of the tokens that were passed is the next one at the cursor. -/
theorem Yields.cons {x : Parse α c} (hx : Yields Parsed.view c P x) : Yields Parsed.view c
    (fun ts a => P ts a ∧ ∃ t us, ts = t :: us ∧ t.item.kind = c.kind) x := by
  cases x with
  | error e => exact hx
  | ok p =>
    obtain ⟨used, hpasses, hp⟩ := hx
    obtain ⟨t, us, rfl⟩ := List.exists_cons_of_ne_nil (hpasses.ne_nil p.shorter)
    refine ⟨_, hpasses, hp, t, us, rfl, ?_⟩
    rw [kind, current, hpasses.tokens]
    rfl

/-! ## Single tokens -/

theorem accept_passes {k : TokenKind} {p : Parsed (Located Token) c} (h : c.accept? k = some p) :
    Passes c p.rest [p.value] ∧ p.value.item.kind = k := by
  obtain ⟨previous, ts, finish⟩ := c
  cases ts with
  | nil => cases h
  | cons t ts =>
    rw [accept_cons] at h
    split at h
    · next hkind =>
      cases h
      exact ⟨.advance rfl, hkind⟩
    · cases h

/-- One token was passed, the next one, and it is of a kind. -/
def Single (c : Cursor) (k : TokenKind) (ts : List (Located Token)) (t : Located Token) : Prop :=
  ts = [t] ∧ t.item.kind = k ∧ t = c.current

theorem expect_yields (c : Cursor) (k : TokenKind) : Yields Parsed.view c (Single c k) (c.expect k) := by
  unfold Cursor.expect
  cases h : c.accept? k with
  | none => exact Raises.here rfl rfl
  | some p =>
    obtain ⟨hpasses, hkind⟩ := accept_passes h
    refine ⟨_, hpasses, rfl, hkind, ?_⟩
    rw [current, hpasses.tokens]
    rfl

theorem expectName_yields (c : Cursor) :
    Yields Parsed.view c (fun ts x => ts = [⟨.name x.name, x.span⟩]) c.expectName := by
  unfold Cursor.expectName
  split
  · next h => exact ⟨_, .advance h, rfl⟩
  · exact Raises.here rfl rfl

/-! ## Types -/

theorem marks_passes (c₀ c₁ c : Cursor) : ∃ marks,
    Passes c (typeName.marks c₀ c₁ c).1 marks ∧ ∀ t ∈ marks, t.item.kind = .symbol .question := by
  rw [typeName.marks]
  split
  · exact ⟨[], .refl c, List.forall_mem_nil _⟩
  · next t d hlt h =>
    obtain ⟨hpasses, hkind⟩ := accept_passes h
    obtain ⟨marks, hmarks, hall⟩ := marks_passes c₀ c₁ d
    exact ⟨_, hpasses.trans hmarks, List.forall_mem_cons.mpr ⟨hkind, hall⟩⟩
termination_by c.size

theorem typeName_yields (allowNull : Bool) (c : Cursor) :
    Yields Parsed.view c (fun ts w => Derives ts (.type allowNull w)) (typeName allowNull c) := by
  unfold typeName
  split
  · next t d _ h =>
    cases allowNull with
    | false => cases h
    | true =>
      obtain ⟨hpasses, hkind⟩ := accept_passes h
      exact ⟨_, hpasses, .nullType hkind⟩
  · refine .bind (expectName_yields c) ?_
    rintro ⟨name, c₁, h₁⟩ _ hname rfl
    dsimp only
    split
    · exact ⟨_, hname, .namedType⟩
    · next t c₂ _ h =>
      obtain ⟨hmark, hkind⟩ := accept_passes h
      obtain ⟨marks, hmarks, hall⟩ := marks_passes c c₁ c₂
      have hpasses := hname.trans (hmark.trans hmarks)
      have hspan : (typeName.marks c c₁ c₂).1.spanFrom name.span = name.span.upTo (t :: marks) :=
        (hmark.trans hmarks).spanFrom (List.cons_ne_nil _ _) _
      refine ⟨_, hpasses, ?_⟩
      show Derives _ (.type allowNull (.optional name _))
      rw [hspan]
      exact .optionalType (List.cons_ne_nil _ _) (List.forall_mem_cons.mpr ⟨hkind, hall⟩)

/-! ## Expressions -/

theorem accept_if_passes {p : Prop} [Decidable p] {k : TokenKind} {q : Parsed (Located Token) c}
    (h : (if p then c.accept? k else none) = some q) :
    p ∧ Passes c q.rest [q.value] ∧ q.value.item.kind = k := by
  split at h
  · next hp => exact ⟨hp, accept_passes h⟩
  · cases h

theorem operatorAt_symbol {level : Nat} {k : TokenKind} {op : BinaryOp}
    (h : operatorAt? level k = some op) : k = .symbol op.symbol ∧ op.rank = level + 3 := by
  have hsymbol : ∀ s : Symbol, ∀ level < 6, ∀ op ∈ operatorAt? level (.symbol s),
      s = op.symbol ∧ op.rank = level + 3 := by
    intro s
    cases s <;> decide
  cases k with
  | symbol s =>
    have hlevel : level < 6 := by
      refine Nat.lt_of_not_le fun hge => ?_
      have hnone : operatorLevels[level]? = none := List.getElem?_eq_none hge
      simp [operatorAt?, hnone] at h
    obtain ⟨rfl, hrank⟩ := hsymbol s level hlevel op h
    exact ⟨rfl, hrank⟩
  | _ => cases h

theorem unaryOp_symbol {k : TokenKind} {op : UnaryOp} (h : unaryOp? k = some op) :
    k = .symbol op.symbol := by
  unfold unaryOp? at h
  split at h <;> cases h <;> rfl

end

mutual

theorem expression_yields (c : Cursor) :
    Yields Parsed.view c (fun ts e => Derives ts (.expr 9 e)) (expression c) := by
  rw [expression]
  refine .bind (binary_yields 6 c) ?_
  rintro ⟨target, c₁, h₁⟩ ts hts htarget
  dsimp only
  split
  · exact ⟨_, hts, htarget.looser (by decide)⟩
  · next t c₂ h₂ heq =>
    obtain ⟨hpasses, hkind⟩ := accept_passes heq
    refine .after (hts.trans hpasses) (expression_yields c₂) ?_
    rintro ⟨value, c₃, h₃⟩ us hus hvalue
    refine ⟨_, hus, ?_⟩
    simpa using htarget.assign hkind hvalue
termination_by (c.size, 20)

theorem binary_yields (height : Nat) (c : Cursor) :
    Yields Parsed.view c (fun ts e => Derives ts (.expr (height + 2) e)) (binary height c) := by
  cases height with
  | zero =>
    rw [binary]
    exact unary_yields c
  | succ level =>
    rw [binary]
    refine .bind (binary_yields level c) ?_
    rintro ⟨left, c₁, h₁⟩ ts hts hleft
    refine .after hts (binaryRest_yields level left c₁) ?_
    rintro ⟨whole, c₂, h₂⟩ us hus hwhole
    exact ⟨_, hus, hwhole _ (hleft.looser (Nat.le_succ _))⟩
termination_by (c.size, 10 + height)

theorem binaryRest_yields (level : Nat) (left : Expr Span) (c : Cursor) :
    Yields Continued.view c (fun us e => ∀ ts, Derives ts (.expr (level + 3) left) →
      Derives (ts ++ us) (.expr (level + 3) e)) (binaryRest level left c) := by
  rw [binaryRest]
  split
  · next t c₁ h₁ heq =>
    obtain ⟨rfl, hpasses, hkind⟩ := accept_if_passes heq
    refine .after hpasses (typeName_yields true c₁) ?_
    rintro ⟨target, c₂, h₂⟩ us hus htarget
    refine .after hus (binaryRest_yields _ _ c₂) ?_
    rintro ⟨whole, c₃, h₃⟩ vs hvs hwhole
    refine ⟨_, hvs, fun ts hleft => ?_⟩
    simpa using hwhole _ (hleft.instanceTest hkind htarget)
  · split
    · next t c₁ h₁ heq =>
      obtain ⟨rfl, hpasses, hkind⟩ := accept_if_passes heq
      refine .after hpasses (typeName_yields false c₁) ?_
      rintro ⟨target, c₂, h₂⟩ us hus htarget
      refine .after hus (binaryRest_yields _ _ c₂) ?_
      rintro ⟨whole, c₃, h₃⟩ vs hvs hwhole
      refine ⟨_, hvs, fun ts hleft => ?_⟩
      simpa using hwhole _ (hleft.cast hkind htarget)
    · split
      · exact ⟨[], .refl c, fun ts hleft => by simpa using hleft⟩
      · next op hop =>
        obtain ⟨hsymbol, hrank⟩ := operatorAt_symbol hop
        refine .bind (expect_yields c c.kind) ?_
        rintro ⟨t, c₁, h₁⟩ _ ht ⟨rfl, hkind, _⟩
        refine .after ht (binary_yields level c₁) ?_
        rintro ⟨right, c₂, h₂⟩ us hus hright
        refine .after hus (binaryRest_yields _ _ c₂) ?_
        rintro ⟨whole, c₃, h₃⟩ vs hvs hwhole
        refine ⟨_, hvs, fun ts hleft => ?_⟩
        have hright : Derives us (.expr (op.rank - 1) right) := by
          rw [hrank]
          exact hright
        rw [← hrank] at hleft hwhole ⊢
        simpa using hwhole _ (hleft.binary (hkind.trans hsymbol) hright)
termination_by (c.size, 0)

theorem unary_yields (c : Cursor) :
    Yields Parsed.view c (fun ts e => Derives ts (.expr 2 e)) (unary c) := by
  rw [unary]
  split
  · exact (chain_yields c).imp fun ts e h => h.looser (Nat.le_succ 1)
  · next op hop =>
    refine .bind (expect_yields c c.kind) ?_
    rintro ⟨t, c₁, h₁⟩ _ ht ⟨rfl, hkind, _⟩
    refine .after ht (unary_yields c₁) ?_
    rintro ⟨operand, c₂, h₂⟩ us hus hoperand
    exact ⟨_, hus, .unary (hkind.trans (unaryOp_symbol hop)) hoperand⟩
termination_by (c.size, 9)

theorem chain_yields (c : Cursor) :
    Yields Parsed.view c (fun ts e => Derives ts (.expr 1 e)) (chain c) := by
  rw [chain]
  refine .bind (primary_yields c) ?_
  rintro ⟨e, c₁, h₁⟩ ts hts he
  refine .after hts (chainRest_yields e c₁) ?_
  rintro ⟨whole, c₂, h₂⟩ us hus hwhole
  exact ⟨_, hus, hwhole _ (he.looser (Nat.zero_le 1))⟩
termination_by (c.size, 8)

theorem chainRest_yields (e : Expr Span) (c : Cursor) :
    Yields Continued.view c (fun us e' => ∀ ts, Derives ts (.expr 1 e) →
      Derives (ts ++ us) (.expr 1 e')) (chainRest e c) := by
  rw [chainRest]
  split
  · next t c₁ h₁ heq =>
    obtain ⟨hpasses, hkind⟩ := accept_passes heq
    refine .after hpasses (expectName_yields c₁) ?_
    rintro ⟨property, c₂, h₂⟩ _ hproperty rfl
    refine .after hproperty (chainRest_yields _ c₂) ?_
    rintro ⟨whole, c₃, h₃⟩ us hus hwhole
    refine ⟨_, hus, fun ts he => ?_⟩
    simpa using hwhole _ (he.member hkind)
  · split
    · refine .bind (arguments_yields c) ?_
      rintro ⟨args, c₁, h₁⟩ us hus hargs
      have hspan : c₁.spanFrom e.note = e.note.upTo us := hus.spanFrom (hus.ne_nil h₁) _
      refine .after hus (chainRest_yields _ c₁) ?_
      rintro ⟨whole, c₂, h₂⟩ vs hvs hwhole
      rw [hspan] at hwhole
      refine ⟨_, hvs, fun ts he => ?_⟩
      simpa using hwhole _ (he.call hargs)
    · split
      · next t c₁ h₁ heq =>
        obtain ⟨hpasses, hkind⟩ := accept_passes heq
        have hspan : c₁.spanFrom e.note = e.note.through t.span :=
          hpasses.spanFrom (List.cons_ne_nil _ _) _
        refine .after hpasses (chainRest_yields _ c₁) ?_
        rintro ⟨whole, c₂, h₂⟩ us hus hwhole
        rw [hspan] at hwhole
        refine ⟨_, hus, fun ts he => ?_⟩
        simpa using hwhole _ (he.assert hkind)
      · exact ⟨[], .refl c, fun ts he => by simpa using he⟩
termination_by (c.size, 2)

theorem primary_yields (c : Cursor) :
    Yields Parsed.view c (fun ts e => Derives ts (.expr 0 e)) (primary c) := by
  rw [primary]
  split
  · next t c₁ h₁ heq =>
    obtain ⟨hpasses, hkind⟩ := accept_passes heq
    refine .after hpasses (expectName_yields c₁) ?_
    rintro ⟨name, c₂, h₂⟩ _ hname rfl
    refine .after hname (arguments_yields c₂) ?_
    rintro ⟨args, c₃, h₃⟩ us hus hargs
    have hspan : c₃.spanFrom t.span = _ := hus.spanFrom (List.cons_ne_nil _ _) _
    refine ⟨_, hus, ?_⟩
    rw [hspan]
    exact .new hkind hargs rfl
  · split
    · next t c₁ h₁ heq =>
      obtain ⟨hpasses, hkind⟩ := accept_passes heq
      refine .after hpasses (expression_yields c₁) ?_
      rintro ⟨inner, c₂, h₂⟩ ts hts hinner
      refine .after hts (expect_yields c₂ _) ?_
      rintro ⟨t', c₃, h₃⟩ _ ht' ⟨rfl, hkind', _⟩
      refine ⟨_, ht', ?_⟩
      simpa using Derives.parens hkind hinner hkind'
    · split
      · next e he =>
        refine .bind (expect_yields c c.kind) ?_
        rintro ⟨t, c₁, h₁⟩ _ ht ⟨rfl, _, hcurrent⟩
        have hspan : c.span = t.span := congrArg (·.span) hcurrent.symm
        rw [← hcurrent, hspan] at he
        exact ⟨_, ht, .atom he⟩
      · exact Raises.here rfl rfl
termination_by (c.size, 7)

theorem arguments_yields (c : Cursor) :
    Yields Parsed.view c (fun ts es => Derives ts (.arguments es)) (arguments c) := by
  rw [arguments]
  refine .bind (expect_yields c _) ?_
  rintro ⟨t, c₁, h₁⟩ _ ht ⟨rfl, hkind, _⟩
  dsimp only
  split
  · next t' c₂ h₂ heq =>
    obtain ⟨hpasses, hkind'⟩ := accept_passes heq
    exact ⟨_, ht.trans hpasses, .noArguments hkind hkind'⟩
  · refine .after ht (argumentList_yields c₁) ?_
    rintro ⟨args, c₂, h₂⟩ ts hts hargs
    refine .after hts (expect_yields c₂ _) ?_
    rintro ⟨t', c₃, h₃⟩ _ ht' ⟨rfl, hkind', _⟩
    refine ⟨_, ht', ?_⟩
    simpa using Derives.arguments hkind hargs hkind'
termination_by (c.size, 1)

theorem argumentList_yields (c : Cursor) :
    Yields Parsed.view c (fun ts es => Derives ts (.exprs es)) (argumentList c) := by
  rw [argumentList]
  refine .bind (expression_yields c) ?_
  rintro ⟨e, c₁, h₁⟩ ts hts he
  dsimp only
  split
  · exact ⟨_, hts, .oneExpr he⟩
  · next t c₂ h₂ heq =>
    obtain ⟨hpasses, hkind⟩ := accept_passes heq
    refine .after (hts.trans hpasses) (argumentList_yields c₂) ?_
    rintro ⟨es, c₃, h₃⟩ us hus hes
    refine ⟨_, hus, ?_⟩
    simpa using Derives.moreExprs he hkind hes
termination_by (c.size, 21)

end

/-! ## Statements -/

theorem typeAnnotation_yields (c : Cursor) :
    Yields Continued.view c (fun ts w => Derives ts (.annotated w)) ( typeAnnotation c) := by
  unfold typeAnnotation
  split
  · exact ⟨[], .refl c, .unannotated⟩
  · next t c₁ h₁ heq =>
    obtain ⟨hpasses, hkind⟩ := accept_passes heq
    refine .after hpasses (typeName_yields false c₁) ?_
    rintro ⟨type, c₂, h₂⟩ ts hts htype
    exact ⟨_, hts, .annotated hkind htype⟩

theorem define_yields (c : Cursor) :
    Yields Parsed.view c (fun ts s => Derives ts (.stmt s)) (define c) := by
  unfold define
  refine .bind (expect_yields c _) ?_
  rintro ⟨t, c₁, h₁⟩ _ ht ⟨rfl, hkind, _⟩
  refine .after ht (expectName_yields c₁) ?_
  rintro ⟨name, c₂, h₂⟩ _ hname rfl
  refine .after hname (typeAnnotation_yields c₂) ?_
  rintro ⟨type, c₃, h₃⟩ us hus htype
  refine .after hus (expect_yields c₃ _) ?_
  rintro ⟨eq, c₄, h₄⟩ _ heq ⟨rfl, hkind', _⟩
  refine .after heq (expression_yields c₄) ?_
  rintro ⟨value, c₅, h₅⟩ vs hvs hvalue
  have hspan : c₅.spanFrom t.span = _ := hvs.spanFrom (List.cons_ne_nil _ _) _
  refine ⟨_, hvs, ?_⟩
  rw [hspan]
  exact .define hkind htype hkind' hvalue (by simp)

theorem returnStmt_yields (c : Cursor) :
    Yields Parsed.view c (fun ts s => Derives ts (.stmt s)) (returnStmt c) := by
  unfold returnStmt
  refine .bind (expect_yields c _) ?_
  rintro ⟨t, c₁, h₁⟩ _ ht ⟨rfl, hkind, _⟩
  dsimp only
  split
  · have hspan : c₁.spanFrom t.span = _ := ht.spanFrom (List.cons_ne_nil _ _) _
    refine ⟨_, ht, ?_⟩
    rw [hspan]
    exact .returnNothing hkind
  · refine .after ht (expression_yields c₁) ?_
    rintro ⟨value, c₂, h₂⟩ us hus hvalue
    have hspan : c₂.spanFrom t.span = _ := hus.spanFrom (List.cons_ne_nil _ _) _
    refine ⟨_, hus, ?_⟩
    rw [hspan]
    exact .return hkind hvalue rfl

theorem statementBreak_yields (c : Cursor) :
    Yields Parsed.view c (Single c .lineBreak) (statementBreak c) := by
  have h := expect_yields c .lineBreak
  unfold statementBreak
  split
  · next p heq => rwa [heq] at h
  · next e heq =>
    rw [heq] at h
    exact h

mutual

theorem statement_yields (c : Cursor) :
    Yields Parsed.view c (fun ts s => Derives ts (.stmt s)) (statement c) := by
  rw [statement]
  split
  · exact define_yields c
  · exact returnStmt_yields c
  · refine .bind (expect_yields c _) ?_
    rintro ⟨t, c₁, h₁⟩ _ ht ⟨rfl, hkind, _⟩
    refine .after ht (expression_yields c₁) ?_
    rintro ⟨condition, c₂, h₂⟩ us hus hcondition
    refine .after hus (expect_yields c₂ _) ?_
    rintro ⟨thenWord, c₃, h₃⟩ _ hthen ⟨rfl, hkind', _⟩
    refine .after hthen (statement_yields c₃) ?_
    rintro ⟨branch, c₄, h₄⟩ vs hvs hbranch
    dsimp only
    split
    · have hspan : c₄.spanFrom t.span = _ := hvs.spanFrom (List.cons_ne_nil _ _) _
      refine ⟨_, hvs, ?_⟩
      rw [hspan]
      exact .ifThen hkind hcondition hkind' hbranch (by simp)
    · next elseWord c₅ h₅ heq =>
      obtain ⟨helse, hkind''⟩ := accept_passes heq
      refine .after (hvs.trans helse) (statement_yields c₅) ?_
      rintro ⟨otherwise, c₆, h₆⟩ ws hws hotherwise
      have hspan : c₆.spanFrom t.span = _ := hws.spanFrom (List.cons_ne_nil _ _) _
      refine ⟨_, hws, ?_⟩
      rw [hspan]
      exact .ifElse hkind hcondition hkind' hbranch hkind'' hotherwise (by simp)
  · refine .bind (expect_yields c _) ?_
    rintro ⟨t, c₁, h₁⟩ _ ht ⟨rfl, hkind, _⟩
    refine .after ht (expression_yields c₁) ?_
    rintro ⟨condition, c₂, h₂⟩ us hus hcondition
    refine .after hus (expect_yields c₂ _) ?_
    rintro ⟨doWord, c₃, h₃⟩ _ hdo ⟨rfl, hkind', _⟩
    refine .after hdo (statement_yields c₃) ?_
    rintro ⟨body, c₄, h₄⟩ vs hvs hbody
    have hspan : c₄.spanFrom t.span = _ := hvs.spanFrom (List.cons_ne_nil _ _) _
    refine ⟨_, hvs, ?_⟩
    rw [hspan]
    exact .while hkind hcondition hkind' hbody (by simp)
  · refine (block_yields c).imp ?_
    rintro ts _ ⟨ss, span, rfl, h⟩
    exact h
  · refine .bind (expression_yields c) ?_
    rintro ⟨value, c₁, h₁⟩ ts hts hvalue
    exact ⟨_, hts, .expression hvalue⟩
termination_by (c.size, 2)

theorem block_yields (c : Cursor) : Yields Parsed.view c
    (fun ts s => ∃ ss span, s = .block ss span ∧ Derives ts (.stmt (.block ss span))) (block c) := by
  rw [block]
  refine .bind (expect_yields c _) ?_
  rintro ⟨t, c₁, h₁⟩ _ ht ⟨rfl, hkind, _⟩
  obtain ⟨breaks, hbreaks, hskip⟩ := Passes.skipBreaks c₁
  have h := c₁.size_skipBreaks
  refine .after (ht.trans hskip) (blockRest_yields c₁.skipBreaks) ?_
  rintro ⟨statements, c₂, h₂⟩ us hus hstatements
  refine .after hus (expect_yields c₂ _) ?_
  rintro ⟨t', c₃, h₃⟩ _ ht' ⟨rfl, hkind', _⟩
  have hspan : c₃.spanFrom t.span = _ := ht'.spanFrom (List.cons_ne_nil _ _) _
  refine ⟨_, ht', ?_⟩
  rw [hspan]
  exact ⟨_, _, rfl, .block hkind hbreaks hstatements hkind' (by simp)⟩
termination_by (c.size, 1)

theorem blockRest_yields (c : Cursor) :
    Yields Continued.view c (fun ts ss => Derives ts (.stmts ss)) (blockRest c) := by
  rw [blockRest]
  split
  · exact ⟨[], .refl c, .noStmts⟩
  · refine .bind (statement_yields c) ?_
    rintro ⟨s, c₁, h₁⟩ ts hts hs
    dsimp only
    split
    · exact ⟨_, hts, .lastStmt hs⟩
    · refine .after hts (statementBreak_yields c₁) ?_
      rintro ⟨t, c₂, h₂⟩ _ ht ⟨rfl, hkind, _⟩
      obtain ⟨breaks, hbreaks, hskip⟩ := Passes.skipBreaks c₂
      have h := c₂.size_skipBreaks
      refine .after (ht.trans hskip) (blockRest_yields c₂.skipBreaks) ?_
      rintro ⟨ss, c₃, h₃⟩ us hus hss
      refine ⟨_, hus, ?_⟩
      have hmore := hs.moreStmts (List.cons_ne_nil t breaks)
        (List.forall_mem_cons.mpr ⟨hkind, hbreaks⟩) hss
      simpa using hmore
termination_by (c.size, 3)

end

/-! ## Members -/

theorem access_yields (c : Cursor) : Yields Parsed.view c
    (fun ts level => ∃ t, ts = [t] ∧ access? t.item.kind = some level ∧ t.span = c.span) (access c) := by
  unfold access
  split
  · next level hlevel =>
    refine .bind (expect_yields c c.kind) ?_
    rintro ⟨t, c₁, h₁⟩ _ ht ⟨rfl, hkind, hcurrent⟩
    exact ⟨_, ht, t, rfl, hkind ▸ hlevel, congrArg (·.span) hcurrent⟩
  · exact Raises.here rfl rfl

theorem binaryOp_symbol {k : TokenKind} {op : BinaryOp} (h : binaryOp? k = some op) :
    k = .symbol op.symbol := by
  have hsymbol : ∀ s : Symbol, ∀ op ∈ binaryOp? (.symbol s), s = op.symbol := by
    intro s
    cases s <;> decide
  cases k with
  | symbol s => rw [hsymbol s op h]
  | _ => cases h

theorem binaryName_yields (c : Cursor) :
    Yields Parsed.view c (fun ts name => Derives ts (.methodName name)) (binaryName c) := by
  unfold binaryName
  refine .bind (expect_yields c _) ?_
  rintro ⟨t, c₁, h₁⟩ _ ht ⟨rfl, hkind, _⟩
  dsimp only
  split
  · next op hop =>
    refine .after ht (expect_yields c₁ c₁.kind) ?_
    rintro ⟨t', c₂, h₂⟩ _ ht' ⟨rfl, hkind', _⟩
    have hspan : c₂.spanFrom t.span = _ := ht'.spanFrom (List.cons_ne_nil _ _) _
    refine ⟨_, ht', ?_⟩
    rw [hspan]
    exact .binaryMethod hkind (hkind'.trans (binaryOp_symbol hop))
  · exact Raises.after ht (.here rfl rfl)

theorem unaryName_yields (c : Cursor) :
    Yields Parsed.view c (fun ts name => Derives ts (.methodName name)) (unaryName c) := by
  unfold unaryName
  refine .bind (expect_yields c _) ?_
  rintro ⟨t, c₁, h₁⟩ _ ht ⟨rfl, hkind, _⟩
  dsimp only
  split
  · next op hop =>
    refine .after ht (expect_yields c₁ c₁.kind) ?_
    rintro ⟨t', c₂, h₂⟩ _ ht' ⟨rfl, hkind', _⟩
    have hspan : c₂.spanFrom t.span = _ := ht'.spanFrom (List.cons_ne_nil _ _) _
    refine ⟨_, ht', ?_⟩
    rw [hspan]
    exact .unaryMethod hkind (hkind'.trans (unaryOp_symbol hop))
  · exact Raises.after ht (.here rfl rfl)

theorem paramList_yields (c : Cursor) :
    Yields Parsed.view c (fun ts ps => Derives ts (.paramList ps)) (paramList c) := by
  rw [paramList]
  refine .bind (expectName_yields c) ?_
  rintro ⟨name, c₁, h₁⟩ _ hname rfl
  refine .after hname (expect_yields c₁ _) ?_
  rintro ⟨colon, c₂, h₂⟩ _ hcolon ⟨rfl, hkind, _⟩
  refine .after hcolon (typeName_yields false c₂) ?_
  rintro ⟨type, c₃, h₃⟩ ts hts htype
  have hspan : c₃.spanFrom name.span = _ := hts.spanFrom (List.cons_ne_nil _ _) _
  have hparam := Derives.oneParam (x := name.name) (s := name.span) hkind htype rfl
  dsimp only
  rw [hspan]
  split
  · exact ⟨_, hts, hparam⟩
  · next t c₄ h₄ heq =>
    obtain ⟨hpasses, hkind'⟩ := accept_passes heq
    refine .after (hts.trans hpasses) (paramList_yields c₄) ?_
    rintro ⟨params, c₅, h₅⟩ us hus hparams
    refine ⟨_, hus, ?_⟩
    simpa using hparam.moreParams hkind' hparams
termination_by c.size

theorem params_yields (c : Cursor) :
    Yields Parsed.view c (fun ts ps => Derives ts (.params ps)) (params c) := by
  unfold params
  refine .bind (expect_yields c _) ?_
  rintro ⟨t, c₁, h₁⟩ _ ht ⟨rfl, hkind, _⟩
  dsimp only
  split
  · next t' c₂ h₂ heq =>
    obtain ⟨hpasses, hkind'⟩ := accept_passes heq
    exact ⟨_, ht.trans hpasses, .noParams hkind hkind'⟩
  · refine .after ht (paramList_yields c₁) ?_
    rintro ⟨list, c₂, h₂⟩ ts hts hlist
    refine .after hts (expect_yields c₂ _) ?_
    rintro ⟨t', c₃, h₃⟩ _ ht' ⟨rfl, hkind', _⟩
    refine ⟨_, ht', ?_⟩
    simpa using Derives.params hkind hlist hkind'

theorem body_yields (returnsValue : Bool) (c : Cursor) :
    Yields Parsed.view c (fun ts s => Derives ts (.body returnsValue s)) (body returnsValue c) := by
  unfold body
  split
  · next eq c₁ h₁ heq =>
    obtain ⟨hpasses, hkind⟩ := accept_passes heq
    split
    · next hexpr =>
      obtain ⟨rfl, _⟩ := Bool.and_eq_true _ _ ▸ hexpr
      refine .after hpasses (expression_yields c₁) ?_
      rintro ⟨value, c₂, h₂⟩ ts hts hvalue
      exact ⟨_, hts, .returned hkind hvalue⟩
    · next hstmt =>
      refine .after hpasses (statement_yields c₁).cons ?_
      rintro ⟨s, c₂, h₂⟩ _ hts ⟨hs, t, ts, rfl, hfirst⟩
      refine ⟨_, hts, .bodyStmt hkind (fun hvalue => ?_) hs⟩
      rw [hfirst]
      simpa [hvalue] using hstmt
  · split
    · refine (block_yields c).imp ?_
      rintro ts _ ⟨ss, span, rfl, h⟩
      exact .bodyBlock h
    · exact Raises.here rfl rfl

theorem fieldRest_yields (level : Access) (name : Ident) (start : Span) (c : Cursor) :
    Yields Parsed.view c (fun ts m => ∀ t : Located Token, access? t.item.kind = some level →
      t.span = start → Derives (t :: ⟨.name name.name, name.span⟩ :: ts) (.member m))
      (fieldRest level name start c) := by
  unfold fieldRest
  refine .bind (expect_yields c _) ?_
  rintro ⟨colon, c₁, h₁⟩ _ hcolon ⟨rfl, hkind, _⟩
  refine .after hcolon (typeName_yields false c₁) ?_
  rintro ⟨type, c₂, h₂⟩ us hus htype
  dsimp only
  split
  · have hspan us : c₂.spanFrom start = _ := hus.spanFrom_behind (List.cons_ne_nil _ _) _ us
    refine ⟨_, hus, ?_⟩
    rintro t hlevel rfl
    rw [hspan [t, ⟨.name name.name, name.span⟩]]
    exact .field hlevel hkind htype .noInitializer (by simp)
  · next eq c₃ h₃ heq =>
    obtain ⟨hpasses, hkind'⟩ := accept_passes heq
    refine .after (hus.trans hpasses) (expression_yields c₃) ?_
    rintro ⟨value, c₄, h₄⟩ vs hvs hvalue
    have hspan us : c₄.spanFrom start = _ := hvs.spanFrom_behind (List.cons_ne_nil _ _) _ us
    refine ⟨_, hvs, ?_⟩
    rintro t hlevel rfl
    rw [hspan [t, ⟨.name name.name, name.span⟩]]
    exact .field hlevel hkind htype (.initializer hkind' hvalue) (by simp)

theorem methodRest_yields (level : Access) (isOverride : Bool) (name : MethodName) (start : Span)
    (c : Cursor) : Yields Parsed.view c (fun ts m => ∀ (t : Located Token) (us vs : List (Located Token)),
      access? t.item.kind = some level → t.span = start → Derives us (.overriding isOverride) →
      Derives vs (.methodName name) → Derives (t :: (us ++ (vs ++ ts))) (.member m))
      (methodRest level isOverride name start c) := by
  unfold methodRest
  refine .bind (params_yields c).cons ?_
  rintro ⟨params, c₁, h₁⟩ _ hws ⟨hparams, _, ws, rfl, _⟩
  refine .after hws (typeAnnotation_yields c₁) ?_
  rintro ⟨returns, c₂, h₂⟩ xs hxs hreturns
  refine .after hxs (body_yields (returnsValue returns) c₂) ?_
  rintro ⟨body, c₃, h₃⟩ ys hys hbody
  have hspan us : c₃.spanFrom start = _ := hys.spanFrom_behind (List.cons_ne_nil _ _) _ us
  refine ⟨_, hys, ?_⟩
  rintro t us vs hlevel rfl hoverride hname
  rw [hspan (t :: us ++ vs), List.append_assoc (t :: us) vs]
  exact .method hlevel hoverride hname hparams hreturns hbody (by simp)

theorem constructorRest_yields (level : Access) (start : Span) (c : Cursor) : Yields Parsed.view c
    (fun ts m => ∀ t : Located Token, access? t.item.kind = some level → t.span = start →
      Derives (t :: ts) (.member m)) (constructorRest level start c) := by
  unfold constructorRest
  refine .bind (expect_yields c _) ?_
  rintro ⟨new, c₁, h₁⟩ _ hnew ⟨rfl, hkind, _⟩
  refine .after hnew (params_yields c₁) ?_
  rintro ⟨params, c₂, h₂⟩ us hus hparams
  dsimp only
  split
  · refine .after hus (body_yields false c₂) ?_
    rintro ⟨body, c₃, h₃⟩ ws hws hbody
    have hspan us : c₃.spanFrom start = _ := hws.spanFrom_behind (List.cons_ne_nil _ _) _ us
    refine ⟨_, hws, ?_⟩
    rintro t hlevel rfl
    rw [hspan [t]]
    exact .constructor hlevel hkind hparams .noBaseCall hbody (by simp)
  · next colon c₃ h₃ heq =>
    obtain ⟨hpasses, hkind'⟩ := accept_passes heq
    refine .after (hus.trans hpasses) (expect_yields c₃ _) ?_
    rintro ⟨base, c₄, h₄⟩ _ hbase ⟨rfl, hkind'', _⟩
    refine .after hbase (arguments_yields c₄) ?_
    rintro ⟨args, c₅, h₅⟩ vs hvs hargs
    refine .after hvs (body_yields false c₅) ?_
    rintro ⟨body, c₆, h₆⟩ ws hws hbody
    have hspan us : c₆.spanFrom start = _ := hws.spanFrom_behind (List.cons_ne_nil _ _) _ us
    refine ⟨_, hws, ?_⟩
    rintro t hlevel rfl
    rw [hspan [t]]
    exact .constructor hlevel hkind hparams (.baseCall hkind' hkind'' hargs) hbody (by simp)

theorem namedMember_yields (level : Access) (isOverride : Bool) (start : Span) (c : Cursor) :
    Yields Parsed.view c (fun ts m => ∀ (t : Located Token) (us : List (Located Token)),
      access? t.item.kind = some level → t.span = start → Derives us (.overriding isOverride) →
      Derives (t :: (us ++ ts)) (.member m)) (namedMember level isOverride start c) := by
  unfold namedMember
  split
  · refine .bind (binaryName_yields c) ?_
    rintro ⟨name, c₁, h₁⟩ vs hvs hname
    refine .after hvs (methodRest_yields level isOverride name start c₁) ?_
    rintro ⟨m, c₂, h₂⟩ ts hts hm
    exact ⟨_, hts, fun t us hlevel hstart hoverride => hm t us vs hlevel hstart hoverride hname⟩
  · refine .bind (unaryName_yields c) ?_
    rintro ⟨name, c₁, h₁⟩ vs hvs hname
    refine .after hvs (methodRest_yields level isOverride name start c₁) ?_
    rintro ⟨m, c₂, h₂⟩ ts hts hm
    exact ⟨_, hts, fun t us hlevel hstart hoverride => hm t us vs hlevel hstart hoverride hname⟩
  · refine .bind (expectName_yields c) ?_
    rintro ⟨name, c₁, h₁⟩ _ hname rfl
    dsimp only
    split
    · split
      · -- The error points to the name, which has been passed.
        have hspan : name.span = c.span := by
          rw [span, current, hname.tokens]
          rfl
        have hsize := hname.size
        exact ⟨c, [], .refl c, hspan, by simp [invalid, hsize], by simp [invalid, hsize, Nat.add_comm]⟩
      · next hplain =>
        refine .after hname (fieldRest_yields level name start c₁) ?_
        rintro ⟨m, c₂, h₂⟩ ts hts hm
        refine ⟨_, hts, fun t us hlevel hstart hoverride => ?_⟩
        cases hoverride with
        | notOverriding => exact hm t hlevel hstart
        | overriding => exact absurd rfl hplain
    · refine .after hname (methodRest_yields level isOverride (.named name) start c₁) ?_
      rintro ⟨m, c₂, h₂⟩ ts hts hm
      exact ⟨_, hts, fun t us hlevel hstart hoverride => hm t us _ hlevel hstart hoverride .methodNamed⟩

theorem member_yields (c : Cursor) :
    Yields Parsed.view c (fun ts m => Derives ts (.member m)) (member c) := by
  unfold member
  refine .bind (access_yields c) ?_
  rintro ⟨level, c₁, h₁⟩ _ ht ⟨t, rfl, hlevel, hstart⟩
  dsimp only
  split
  · refine .after ht (constructorRest_yields level c.span c₁) ?_
    rintro ⟨m, c₂, h₂⟩ ts hts hm
    exact ⟨_, hts, hm t hlevel hstart⟩
  · split
    · refine .after ht (namedMember_yields level false c.span c₁) ?_
      rintro ⟨m, c₂, h₂⟩ ts hts hm
      exact ⟨_, hts, hm t [] hlevel hstart .notOverriding⟩
    · next t' c₂ h₂ heq =>
      obtain ⟨hpasses, hkind⟩ := accept_passes heq
      split
      · exact Raises.after (ht.trans hpasses) (.here rfl rfl)
      · refine .after (ht.trans hpasses) (namedMember_yields level true c.span c₂) ?_
        rintro ⟨m, c₃, h₃⟩ ts hts hm
        exact ⟨_, hts, hm t [t'] hlevel hstart (.overriding hkind)⟩

theorem memberList_yields (c : Cursor) :
    Yields Continued.view c (fun ts ms => Derives ts (.members ms)) (memberList c) := by
  rw [memberList]
  split
  · exact ⟨[], .refl c, .noMembers⟩
  · refine .bind (member_yields c) ?_
    rintro ⟨m, c₁, h₁⟩ ts hts hm
    dsimp only
    split
    · exact ⟨_, hts, .lastMember hm⟩
    · refine .after hts (expect_yields c₁ _) ?_
      rintro ⟨t, c₂, h₂⟩ _ ht ⟨rfl, hkind, _⟩
      obtain ⟨breaks, hbreaks, hskip⟩ := Passes.skipBreaks c₂
      have h := c₂.size_skipBreaks
      refine .after (ht.trans hskip) (memberList_yields c₂.skipBreaks) ?_
      rintro ⟨ms, c₃, h₃⟩ us hus hms
      refine ⟨_, hus, ?_⟩
      have hmore := hm.moreMembers (List.cons_ne_nil t breaks)
        (List.forall_mem_cons.mpr ⟨hkind, hbreaks⟩) hms
      simpa using hmore
termination_by c.size

/-! ## Classes -/

theorem parentName_yields (c : Cursor) :
    Yields Continued.view c (fun ts parent => Derives ts (.parent parent)) (parentName c) := by
  unfold parentName
  split
  · exact ⟨[], .refl c, .noParent⟩
  · next t c₁ h₁ heq =>
    obtain ⟨hpasses, hkind⟩ := accept_passes heq
    refine .after hpasses (expectName_yields c₁) ?_
    rintro ⟨name, c₂, h₂⟩ _ hname rfl
    exact ⟨_, hname, .parent hkind⟩

theorem classDecl_yields (c : Cursor) :
    Yields Parsed.view c (fun ts decl => Derives ts (.classDecl decl)) (classDecl c) := by
  unfold classDecl
  refine .bind (expect_yields c _) ?_
  rintro ⟨t, c₁, h₁⟩ _ ht ⟨rfl, hkind, _⟩
  refine .after ht (expectName_yields c₁) ?_
  rintro ⟨name, c₂, h₂⟩ _ hname rfl
  refine .after hname (parentName_yields c₂) ?_
  rintro ⟨parent, c₃, h₃⟩ us hus hparent
  refine .after hus (expect_yields c₃ _) ?_
  rintro ⟨left, c₄, h₄⟩ _ hleft ⟨rfl, hkind', _⟩
  obtain ⟨breaks, hbreaks, hskip⟩ := Passes.skipBreaks c₄
  refine .after (hleft.trans hskip) (memberList_yields c₄.skipBreaks) ?_
  rintro ⟨members, c₅, h₅⟩ vs hvs hmembers
  refine .after hvs (expect_yields c₅ _) ?_
  rintro ⟨right, c₆, h₆⟩ _ hright ⟨rfl, hkind'', _⟩
  have hspan : c₆.spanFrom t.span = _ := hright.spanFrom (List.cons_ne_nil _ _) _
  refine ⟨_, hright, ?_⟩
  rw [hspan]
  exact .classDecl hkind hparent hkind' hbreaks hmembers hkind'' (by simp)

/-! ## Files -/

theorem classList_derives {c : Cursor} {decls : List (ClassDecl Span)}
    (h : classList c = (decls, [])) : Derives c.tokens (.classes decls) := by
  rw [classList] at h
  split at h
  · next hsize =>
    cases h
    rw [List.eq_nil_of_length_eq_zero hsize]
    exact .noClasses
  · have hdecl := classDecl_yields c
    split at h
    · next decl d hlt heq =>
      rw [heq] at hdecl
      obtain ⟨ts, hts, hdecl⟩ := hdecl
      obtain ⟨breaks, hbreaks, hskip⟩ := Passes.skipBreaks d
      have := d.size_skipBreaks
      cases hrest : classList d.skipBreaks with
      | mk decls' errors =>
        simp only [hrest, Prod.mk.injEq] at h
        obtain ⟨rfl, rfl⟩ := h
        have hmore := hdecl.moreClasses hbreaks (classList_derives hrest)
        rwa [← hskip.tokens, ← show c.tokens = ts ++ d.tokens from hts.tokens] at hmore
    · cases h
termination_by c.size

theorem advanceBy_passes (n : Nat) (c : Cursor) : ∃ ts, Passes c (advanceBy n c) ts := by
  induction n generalizing c with
  | zero => exact ⟨[], .refl c⟩
  | succ n ih =>
    obtain ⟨us, hus⟩ := ih c.advance
    cases h : c.tokens with
    | nil =>
      rw [Cursor.advance, h] at hus
      exact ⟨us, by rwa [advanceBy, Cursor.advance, h]⟩
    | cons t ts => exact ⟨_, (Passes.advance h).trans hus⟩

theorem seekClass_passes (c : Cursor) : ∃ ts, Passes c (seekClass c) ts := by
  obtain ⟨previous, ts, finish⟩ := c
  rw [seekClass]
  induction ts generalizing previous with
  | nil => exact ⟨[], .refl _⟩
  | cons t ts ih =>
    rw [seekClassFrom]
    split
    · exact ⟨[], .refl _⟩
    · obtain ⟨us, hus⟩ := ih (some t)
      exact ⟨_, (Passes.advance rfl).trans hus⟩

/-- Recovery goes on at a later place of the same file. -/
theorem recover_passes (c : Cursor) (e : ParseError) : ∃ ts, Passes c (recover c e) ts := by
  obtain ⟨ts, hts⟩ := advanceBy_passes (c.size - e.remaining - 1 + 1) c
  obtain ⟨us, hus⟩ := seekClass_passes (advanceBy (c.size - e.remaining - 1) c.advance)
  exact ⟨_, hts.trans hus⟩

/-- Every syntax error points to a token or to the end of the file. -/
theorem classList_places (c : Cursor) : ∀ e ∈ (classList c).2, e.span ∈ c.places := by
  rw [classList]
  split
  · exact List.forall_mem_nil _
  · have hdecl := classDecl_yields c
    split
    · next decl d hlt heq =>
      rw [heq] at hdecl
      obtain ⟨ts, hts, _⟩ := hdecl
      obtain ⟨breaks, _, hskip⟩ := Passes.skipBreaks d
      have := d.size_skipBreaks
      exact fun e he => (hts.trans hskip).places _ (classList_places d.skipBreaks e he)
    · next error heq =>
      rw [heq] at hdecl
      obtain ⟨ts, hts⟩ := recover_passes c error
      obtain ⟨breaks, _, hskip⟩ := Passes.skipBreaks (recover c error)
      have := (recover c error).size_skipBreaks
      have := size_recover c error
      refine List.forall_mem_cons.mpr ⟨hdecl.mem_places, fun e he => ?_⟩
      exact (hts.trans hskip).places _ (classList_places (recover c error).skipBreaks e he)
termination_by c.size

/-- The end of the file is the last token and no other. -/
def EndsOnce (ts : List (Located Token)) : Prop :=
  ∃ body fin, ts = body ++ [⟨.endOfFile, fin⟩] ∧ ∀ t ∈ body, t.item.kind ≠ .endOfFile

theorem ofTokens_concat (body : List (Located Token)) (fin : Span) :
    Cursor.ofTokens (body ++ [⟨.endOfFile, fin⟩]) = ⟨none, body, fin⟩ := by
  rw [Cursor.ofTokens, List.getLast?_concat, List.dropLast_concat]

/-- Every token of a file that is read is used, in order and once: the whole stream is a derivation of
the program. -/
theorem program_derives {ts : List (Located Token)} {p : Program Span} (hend : EndsOnce ts)
    (h : program ts = .ok p) : Derives ts (.program p) := by
  obtain ⟨body, fin, rfl, _⟩ := hend
  obtain ⟨breaks, hbreaks, hskip⟩ := Passes.skipBreaks ⟨none, body, fin⟩
  obtain ⟨first, ts, hfirst⟩ : ∃ first ts, body ++ [⟨.endOfFile, fin⟩] = first :: ts :=
    List.exists_cons_of_ne_nil (List.append_ne_nil_of_right_ne_nil body (List.cons_ne_nil _ _))
  have hspan : Cursor.span ⟨none, body, fin⟩ = first.span := by
    cases body <;> cases hfirst <;> rfl
  have hstream : breaks ++ ((Cursor.skipBreaks ⟨none, body, fin⟩).tokens ++ [⟨.endOfFile, fin⟩]) =
      first :: ts := by
    rw [← List.append_assoc, ← hfirst]
    exact congrArg (· ++ _) hskip.tokens.symm
  simp only [program, ofTokens_concat, hspan] at h
  split at h
  · next decls heq =>
    have hprogram := Derives.program hbreaks (classList_derives heq) hstream
    rw [← Except.ok.inj h, hfirst]
    cases hlast : decls.getLast? <;> simpa [hlast] using hprogram
  · cases h

/-- The tokens of a file with a line break at the start, two question marks, parentheses, and a body
that leaves `return` out. -/
def layeredFile : List (Located Token) := placed [.lineBreak, .keyword .classWord, .name "A",
  .symbol .colon, .name "B", .symbol .leftBrace, .keyword .privateWord, .name "x", .symbol .colon,
  .name "T", .symbol .question, .symbol .question, .symbol .equal, .symbol .leftParen,
  .keyword .nullWord, .symbol .rightParen, .lineBreak, .keyword .publicWord, .name "f",
  .symbol .leftParen, .symbol .rightParen, .symbol .colon, .name "T", .symbol .equal, .name "x",
  .symbol .bang, .symbol .rightBrace, .endOfFile]

theorem layeredFile_derives :
    EndsOnce layeredFile ∧ ∃ p, program layeredFile = .ok p ∧ Derives layeredFile (.program p) := by
  have hend : EndsOnce layeredFile := ⟨layeredFile.dropLast, .none, rfl, by decide⟩
  have hread : (program layeredFile).isOk = true := by decide +kernel
  cases h : program layeredFile with
  | error e =>
    rw [h] at hread
    cases hread
  | ok p => exact ⟨hend, p, rfl, program_derives hend h⟩

end Grammar

end ClassLang
