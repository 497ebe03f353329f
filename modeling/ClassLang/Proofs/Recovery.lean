import ClassLang.Proofs.Derivation

/-!
# Recovery from syntax errors

The loop that reads the classes of a file goes on after an error, at the next `class` that starts a line. What
a pass through the loop reads, and where the next pass starts, is a function of the cursor (`Pass.of`), and a
finite number of passes leads to the end of any file (`loop_exists`).

A class may fail without a token having been passed, on the very `class` at which recovery stops, or at the
end of the file. A pass that fails still gets on. If it stands at no `class`, recovery passes the token; if it
stands at one, the error is raised behind it (`classDecl_raises`). For the same reason the errors of a file are
raised at later and later places: the pass behind a recovery starts at a `class` that lies no earlier than the
last error, and its own error lies behind that `class` (`Loop.reported`).
-/

namespace ClassLang.Grammar

open Cursor

variable {c d : Cursor} {e : ParseError} {ts : List (Located Token)}

/-! ## Where errors are raised -/

theorem Yields.raises {α γ : Type} {v : γ → α × Cursor} {P : List (Located Token) → α → Prop}
    {x : Except ParseError γ} (hx : Yields v c P x) (h : x = .error e) : c.Raises e := by
  subst h
  exact hx

/-- In front of another token a class fails at once. -/
theorem classDecl_unexpected (hkind : c.kind ≠ .keyword .classWord) :
    classDecl c = .error (c.unexpected [.keyword .classWord]) := by
  have hexpect : c.expect (.keyword .classWord) = .error (c.unexpected [.keyword .classWord]) := by
    unfold Cursor.expect
    cases h : c.accept? (.keyword .classWord) with
    | none => rfl
    | some p =>
      obtain ⟨hpasses, hclass⟩ := accept_passes h
      refine absurd ?_ hkind
      rw [kind, current, hpasses.tokens]
      exact hclass
  unfold classDecl
  rw [hexpect]
  rfl

/-- In front of `class` a class fails behind it. -/
theorem classDecl_raises (hkind : c.kind = .keyword .classWord) (h : classDecl c = .error e) :
    c.advance.Raises e ∧ c.advance.size < c.size := by
  obtain ⟨previous, ts, finish⟩ := c
  cases ts with
  | nil => cases hkind
  | cons t ts =>
    refine ⟨?_, size_advance rfl⟩
    unfold classDecl at h
    rw [expect_cons (t := t) hkind] at h
    -- The rest of the declaration is read at the cursor behind `class`.
    refine Yields.raises (v := Parsed.view) (P := fun _ _ => True) ?_ h
    refine .bind (v := Parsed.view) (P := fun _ _ => True) ⟨[], .refl _, trivial⟩ ?_
    rintro ⟨_, c₁, h₁⟩ _ ht _
    refine .after ht (expectName_yields c₁) ?_
    rintro ⟨name, c₂, h₂⟩ _ hname _
    refine .after hname (parentName_yields c₂) ?_
    rintro ⟨parent, c₃, h₃⟩ _ hparent _
    refine .after hparent (expect_yields c₃ _) ?_
    rintro ⟨left, c₄, h₄⟩ _ hleft _
    obtain ⟨breaks, _, hskip⟩ := Passes.skipBreaks c₄
    refine .after (hleft.trans hskip) (memberList_yields c₄.skipBreaks) ?_
    rintro ⟨members, c₅, h₅⟩ _ hmembers _
    refine .after hmembers (expect_yields c₅ _) ?_
    rintro ⟨right, c₆, h₆⟩ _ hright _
    exact ⟨_, hright, trivial⟩

/-- The cursor at which an error of the declaration at `c` was raised. -/
def raisedAt (c : Cursor) (e : ParseError) : Cursor := advanceBy (c.size - e.remaining) c

theorem size_advance_eq (c : Cursor) : c.advance.size = c.size - 1 := by
  unfold Cursor.advance Cursor.size
  split <;> simp_all

theorem size_advanceBy_eq (n : Nat) (c : Cursor) : (advanceBy n c).size = c.size - n := by
  induction n generalizing c with
  | zero => rfl
  | succ n ih =>
    rw [advanceBy, ih, size_advance_eq]
    omega

theorem raises_remaining_le (h : c.Raises e) : e.remaining ≤ c.size := by
  obtain ⟨d, used, hpasses, _, hle, _⟩ := h
  exact Nat.le_trans hle (hpasses.size ▸ Nat.le_add_left _ _)

/-- As many tokens are left as the error says. -/
theorem raisedAt_size (h : classDecl c = .error e) : (raisedAt c e).size = e.remaining := by
  have hle := raises_remaining_le ((classDecl_yields c).raises h)
  rw [raisedAt, size_advanceBy_eq]
  omega

theorem seekClass_advance (hkind : c.kind ≠ .keyword .classWord) : seekClass c.advance = seekClass c := by
  obtain ⟨previous, ts, finish⟩ := c
  cases ts with
  | nil => rfl
  | cons t ts =>
    simp only [seekClass, Cursor.advance]
    rw [seekClassFrom, if_neg fun h => hkind h.1]

/-- Recovery starts where the error was raised. To pass the next token first makes no difference. -/
theorem recover_eq (h : classDecl c = .error e) : recover c e = seekClass (raisedAt c e) := by
  by_cases hkind : c.kind = .keyword .classWord
  · obtain ⟨hraises, hlt⟩ := classDecl_raises hkind h
    have hle := raises_remaining_le hraises
    have hcount : c.size - e.remaining = (c.size - e.remaining - 1) + 1 := by omega
    rw [raisedAt, hcount]
    rfl
  · cases (classDecl_unexpected hkind).symm.trans h
    have hcount : c.size - (c.unexpected [.keyword .classWord]).remaining = 0 := Nat.sub_self _
    rw [recover, raisedAt, hcount]
    exact seekClass_advance hkind

/-- Recovery stops at a `class` or at the end of the file, and there is no line break to skip then. -/
theorem seekClass_stops (c : Cursor) :
    (seekClass c).skipBreaks = seekClass c ∧
      ((seekClass c).kind = .keyword .classWord ∨ (seekClass c).tokens = []) := by
  obtain ⟨previous, ts, finish⟩ := c
  rw [seekClass]
  induction ts generalizing previous with
  | nil => exact ⟨rfl, .inr rfl⟩
  | cons t ts ih =>
    rw [seekClassFrom]
    split
    · next hclass =>
      refine ⟨?_, .inl hclass.1⟩
      obtain ⟨item, span⟩ := t
      cases item with
      | lineBreak => exact absurd hclass.1 (by simp [Token.kind])
      | _ => rfl
    · exact ih (some t)

/-! ## Passes through the loop -/

/-- A pass through the loop that reads the classes of a file: where it starts, what reading a class there
leads to, and where the next pass starts. -/
structure Pass where
  first : Cursor
  outcome : Except ParseError (ClassDecl Span)
  last : Cursor

namespace Pass

/-- The pass that starts at a cursor. After an error it goes on to the next `class` that starts a line, from
the place where the error was raised. -/
def of (c : Cursor) : Pass :=
  match classDecl c with
  | .ok p => ⟨c, .ok p.value, p.rest.skipBreaks⟩
  | .error e => ⟨c, .error e, (seekClass (raisedAt c e)).skipBreaks⟩

/-- The class that was read. -/
def class? (p : Pass) : Option (ClassDecl Span) := p.outcome.toOption

/-- The error, if the pass failed. -/
def error? (p : Pass) : Option ParseError :=
  match p.outcome with
  | .ok _ => none
  | .error e => some e

end Pass

/-- The passes from a cursor on, up to the end of the file. -/
inductive Loop : Cursor → List Pass → Prop
  | finish {c : Cursor} : c.kind = .endOfFile → Loop c []
  | pass {c : Cursor} {passes : List Pass} :
      c.kind ≠ .endOfFile → Loop (Pass.of c).last passes → Loop c (Pass.of c :: passes)

/-- What a pass does, by its outcome. -/
theorem Pass.of_cases (c : Cursor) :
    (∃ p, classDecl c = .ok p ∧ Pass.of c = ⟨c, .ok p.value, p.rest.skipBreaks⟩) ∨
      ∃ e, classDecl c = .error e ∧ Pass.of c = ⟨c, .error e, seekClass (raisedAt c e)⟩ := by
  unfold Pass.of
  split
  · next p h => exact .inl ⟨p, h, rfl⟩
  · next e h => exact .inr ⟨e, h, by rw [(seekClass_stops _).1]⟩

/-- A pass moves the cursor forward in the same stream. -/
theorem Pass.of_passes (hne : c.kind ≠ .endOfFile) :
    ∃ used, used ≠ [] ∧ c.Passes (Pass.of c).last used := by
  obtain ⟨t, ts, htokens⟩ : ∃ t ts, c.tokens = t :: ts := by
    refine List.exists_cons_of_ne_nil fun hnil => hne ?_
    rw [kind, current, hnil]
    rfl
  rcases Pass.of_cases c with ⟨p, hread, hof⟩ | ⟨e, hfail, hof⟩
  · have hyields := classDecl_yields c
    rw [hread] at hyields
    obtain ⟨used, hpasses, _⟩ := hyields
    obtain ⟨breaks, _, hskip⟩ := Passes.skipBreaks p.rest
    rw [hof]
    exact ⟨_, List.append_ne_nil_of_left_ne_nil (hpasses.ne_nil p.shorter) _, hpasses.trans hskip⟩
  · rw [hof, ← recover_eq hfail, recover]
    obtain ⟨us, hus⟩ := advanceBy_passes (c.size - e.remaining - 1) c.advance
    obtain ⟨vs, hvs⟩ := seekClass_passes (advanceBy (c.size - e.remaining - 1) c.advance)
    exact ⟨_, by simp, (Passes.advance htokens).trans (hus.trans hvs)⟩

theorem Pass.of_shorter (hne : c.kind ≠ .endOfFile) : (Pass.of c).last.size < c.size := by
  obtain ⟨used, hused, hpasses⟩ := Pass.of_passes hne
  rw [hpasses.size]
  exact Nat.lt_add_of_pos_left (List.length_pos_iff.mpr hused)

/-- The classes and the errors of the passes. -/
def results (passes : List Pass) : List (ClassDecl Span) × List ParseError :=
  (passes.filterMap Pass.class?, passes.filterMap Pass.error?)

/-- The loop ends, and what is read is what its passes read. -/
theorem loop_exists (c : Cursor) (hbody : ∀ t ∈ c.tokens, t.item.kind ≠ .endOfFile) :
    ∃ passes, Loop c passes ∧ classList c = results passes := by
  by_cases hkind : c.kind = .endOfFile
  · have hnil : c.tokens = [] := by
      obtain ⟨previous, ts, finish⟩ := c
      cases ts with
      | nil => rfl
      | cons t ts => exact absurd hkind (hbody t List.mem_cons_self)
    refine ⟨[], .finish hkind, ?_⟩
    rw [classList, dif_pos (show c.size = 0 from List.length_eq_zero_iff.mpr hnil)]
    rfl
  · have hlt := Pass.of_shorter hkind
    obtain ⟨used, _, hpasses⟩ := Pass.of_passes hkind
    obtain ⟨passes, hloop, hlist⟩ := loop_exists (Pass.of c).last fun t ht =>
      hbody t (hpasses.tokens ▸ List.mem_append_right _ ht)
    refine ⟨_, .pass hkind hloop, ?_⟩
    rw [classList, dif_neg (by omega)]
    rcases Pass.of_cases c with ⟨p, hread, hof⟩ | ⟨e, hfail, hof⟩
    · rw [hof] at hlist ⊢
      simp only [hread, hlist, results]
      rfl
    · rw [hof] at hlist ⊢
      have hskip : (recover c e).skipBreaks = seekClass (raisedAt c e) := by
        rw [recover_eq hfail, (seekClass_stops _).1]
      simp only [hfail, hskip, hlist, results]
      rfl
termination_by c.size

theorem Loop.forward {passes : List Pass} (h : Loop c passes) :
    ∀ p ∈ passes, ∃ used, used ≠ [] ∧ p.first.Passes p.last used := by
  induction h with
  | finish => simp
  | @pass c passes hne _ ih =>
    have hfirst : (Pass.of c).first = c := by
      rcases Pass.of_cases c with ⟨p, _, hof⟩ | ⟨e, _, hof⟩ <;> rw [hof]
    refine List.forall_mem_cons.mpr ⟨?_, ih⟩
    rw [hfirst]
    exact Pass.of_passes hne

/-! ## The places of errors -/

/-- Errors that were raised one behind the other, in front of the given places, and point to different ones of
them, in their order. -/
structure Reported (places : List Span) (es : List ParseError) : Prop where
  order : es.Pairwise fun e e' => e'.remaining < e.remaining
  bound : ∀ e ∈ es, e.remaining < places.length
  places : (es.map (·.span)).Sublist places

namespace Reported

variable {places places' : List Span} {es : List ParseError}

theorem nil (places : List Span) : Reported places [] := ⟨.nil, List.forall_mem_nil _, List.nil_sublist _⟩

theorem mono (h : Reported places es) (hsuffix : places <:+ places') : Reported places' es where
  order := h.order
  bound := fun e he => Nat.lt_of_lt_of_le (h.bound e he) hsuffix.length_le
  places := h.places.trans hsuffix.sublist

/-- An error in front of others that were raised behind a `class` no earlier. -/
theorem cons {s : Span} {rest : List Span} (h : Reported places es) (hsuffix : places <:+ rest)
    (hspan : e.span = s) (hle : places.length ≤ e.remaining) (hlt : e.remaining < (s :: rest).length) :
    Reported (s :: rest) (e :: es) where
  order := List.pairwise_cons.mpr ⟨fun e' he' => Nat.lt_of_lt_of_le (h.bound e' he') hle, h.order⟩
  bound := List.forall_mem_cons.mpr ⟨hlt, (h.mono (hsuffix.trans (List.suffix_cons s rest))).bound⟩
  places := by
    rw [List.map_cons, hspan]
    exact (h.places.trans hsuffix.sublist).cons_cons s

end Reported

/-- Behind the next token, its place is left out. -/
theorem places_suffix_tail (h : Passes c d ts) (hne : ts ≠ []) : d.places <:+ c.places.tail := by
  obtain ⟨t, ts, rfl⟩ := List.exists_cons_of_ne_nil hne
  rw [h.places_eq]
  exact List.suffix_append _ _

/-- Where the error of a pass points to. If the pass starts at a `class`, this is a place behind it. -/
theorem classDecl_points (h : classDecl c = .error e) : ∃ d : Cursor, e.span = d.span ∧
    e.remaining ≤ d.size ∧ d.places <:+ c.places ∧
      (c.kind = .keyword .classWord → d.places <:+ c.places.tail) := by
  by_cases hkind : c.kind = .keyword .classWord
  · obtain ⟨⟨d, used, hpasses, hspan, hle, _⟩, hlt⟩ := classDecl_raises hkind h
    cases htokens : c.tokens with
    | nil => simp [Cursor.size, htokens] at hlt
    | cons t ts =>
      have hbehind := (Passes.advance htokens).trans hpasses
      exact ⟨d, hspan, hle, hbehind.places_suffix, fun _ => places_suffix_tail hbehind (by simp)⟩
  · cases (classDecl_unexpected hkind).symm.trans h
    exact ⟨c, rfl, Nat.le_refl _, List.suffix_refl _, fun h => absurd h hkind⟩

/-- The errors of the loop. If it starts at a `class`, they were raised behind it. -/
theorem Loop.reported {passes : List Pass} (h : Loop c passes) :
    Reported c.places (passes.filterMap Pass.error?) ∧
      (c.kind = .keyword .classWord → Reported c.places.tail (passes.filterMap Pass.error?)) := by
  induction h with
  | finish => exact ⟨.nil _, fun _ => .nil _⟩
  | @pass c passes hne hloop ih =>
    obtain ⟨used, hused, hpasses⟩ := Pass.of_passes hne
    rcases Pass.of_cases c with ⟨p, hread, hof⟩ | ⟨e, hfail, hof⟩
    · have hnone : (Pass.of c).error? = none := by rw [hof]; rfl
      rw [List.filterMap_cons_none hnone]
      exact ⟨ih.1.mono hpasses.places_suffix, fun _ => ih.1.mono (places_suffix_tail hpasses hused)⟩
    · have hsome : (Pass.of c).error? = some e := by rw [hof]; rfl
      rw [List.filterMap_cons_some hsome]
      rw [hof] at hloop ih hpasses
      generalize hr : seekClass (raisedAt c e) = r at hloop ih hpasses
      -- The passes behind the recovery report nothing at the `class` that they start at.
      have hrest : Reported r.places.tail (passes.filterMap Pass.error?) := by
        rcases hr ▸ (seekClass_stops (raisedAt c e)).2 with hclass | hnil
        · exact ih.2 hclass
        · cases hloop with
          | finish => exact .nil _
          | pass hne => exact absurd (by rw [kind, current, hnil]; rfl) hne
      have hsize : r.size ≤ e.remaining := by
        obtain ⟨vs, hvs⟩ := seekClass_passes (raisedAt c e)
        rw [← raisedAt_size hfail, hvs.size, hr]
        exact Nat.le_add_left _ _
      obtain ⟨d, hspan, hle, hd, hd'⟩ := classDecl_points hfail
      have hreported : Reported d.places (e :: passes.filterMap Pass.error?) := by
        have hlength := d.length_places
        have htail : r.places.tail.length = r.size := by rw [List.length_tail, length_places]; rfl
        obtain ⟨rest, hcons⟩ := d.places_cons
        rw [hcons] at hd hlength ⊢
        refine hrest.cons ?_ hspan (by omega) (by omega)
        refine List.suffix_of_suffix_length_le ((List.tail_suffix _).trans hpasses.places_suffix)
          ((List.suffix_cons _ _).trans hd) ?_
        simp only [List.length_cons] at hlength
        omega
      exact ⟨hreported.mono hd, fun hclass => hreported.mono (hd' hclass)⟩

/-! ## Files -/

/-- The index of the token in front of which an error was raised. -/
def position (ts : List (Located Token)) (e : ParseError) : Nat := ts.length - 1 - e.remaining

/-- A file is refused with the errors of its classes, if there are any. -/
theorem program_eq_error {es : List ParseError} : program ts = .error es ↔
    es ≠ [] ∧ (classList (Cursor.ofTokens ts).skipBreaks).2 = es := by
  cases hlist : classList (Cursor.ofTokens ts).skipBreaks with
  | mk classes errors =>
    simp only [program, hlist]
    cases errors with
    | nil => simp [eq_comm]
    | cons e errors =>
      constructor
      · rintro ⟨⟩
        exact ⟨List.cons_ne_nil _ _, rfl⟩
      · rintro ⟨_, rfl⟩
        rfl

theorem error_of_outcome {p : Pass} : (∃ e, p.outcome = .error e) ↔ ∃ e, p.error? = some e := by
  unfold Pass.error?
  cases p.outcome <;> simp

/-- The loop over a file comes to its end, and each pass gets on. The file is refused exactly if a pass
fails, with the errors of the passes that fail, one for each. They were raised at later and later tokens, and
no token is reported twice. -/
theorem program_recovers (hend : EndsOnce ts) : ∃ passes, Loop (Cursor.ofTokens ts).skipBreaks passes ∧
    (∀ p ∈ passes, ∃ used, used ≠ [] ∧ p.first.Passes p.last used) ∧
    ((∃ es, program ts = .error es) ↔ ∃ p ∈ passes, ∃ e, p.outcome = .error e) ∧
    (∀ es, program ts = .error es → es = passes.filterMap Pass.error?) ∧
    ((passes.filterMap Pass.error?).map (position ts)).Pairwise (· < ·) ∧
    ((passes.filterMap Pass.error?).map (·.span)).Sublist (ts.map (·.span)) := by
  obtain ⟨body, fin, rfl, hbody⟩ := hend
  have hstream : ((⟨none, body, fin⟩ : Cursor).places) =
      (body ++ [(⟨.endOfFile, fin⟩ : Located Token)]).map (·.span) := by
    rw [Cursor.places, List.map_append]
    rfl
  obtain ⟨breaks, _, hskip⟩ := Passes.skipBreaks ⟨none, body, fin⟩
  have htokens : body = breaks ++ (Cursor.skipBreaks ⟨none, body, fin⟩).tokens := hskip.tokens
  obtain ⟨passes, hloop, hlist⟩ := loop_exists (Cursor.skipBreaks ⟨none, body, fin⟩) fun t ht =>
    hbody t (htokens ▸ List.mem_append_right _ ht)
  have hreported := hloop.reported.1.mono (hstream ▸ hskip.places_suffix)
  have herror {es : List ParseError} : program (body ++ [⟨.endOfFile, fin⟩]) = .error es ↔
      es ≠ [] ∧ passes.filterMap Pass.error? = es := by
    rw [program_eq_error, ofTokens_concat, hlist, results]
  rw [ofTokens_concat]
  refine ⟨passes, hloop, hloop.forward, ?_, fun es h => (herror.mp h).2.symm, ?_, hreported.places⟩
  · constructor
    · rintro ⟨es, h⟩
      obtain ⟨hne, rfl⟩ := herror.mp h
      obtain ⟨e, he⟩ := List.exists_mem_of_ne_nil _ hne
      obtain ⟨p, hp, hfails⟩ := List.mem_filterMap.mp he
      exact ⟨p, hp, error_of_outcome.mpr ⟨e, hfails⟩⟩
    · rintro ⟨p, hp, hfails⟩
      obtain ⟨e, he⟩ := error_of_outcome.mp hfails
      exact ⟨_, herror.mpr ⟨List.ne_nil_of_mem (List.mem_filterMap.mpr ⟨p, hp, he⟩), rfl⟩⟩
  · rw [List.pairwise_map]
    refine hreported.order.imp_of_mem fun {e e'} he he' hlt => ?_
    have hbound := hreported.bound e he
    rw [List.length_map] at hbound
    unfold position
    omega

/-- The tokens of a file, one column for each, with four classes that cannot be read. The third has a field
that is marked as an override, and the last ends with the file. -/
def brokenFile : List (Located Token) :=
  [.keyword .classWord, .name "A", .symbol .colon, .lineBreak, .keyword .classWord, .keyword .classWord,
    .lineBreak, .keyword .classWord, .name "B", .symbol .leftBrace, .keyword .publicWord,
    .keyword .overrideWord, .name "x", .symbol .colon, .lineBreak, .keyword .classWord,
    .endOfFile].zipIdx.map fun (t, i) => (⟨t, ⟨i, i + 1, 1, i + 1⟩⟩ : Located Token)

/-- The second error is raised at a `class`, but at none that starts a line. The third points to the name in
front of the colon at which it is raised. -/
theorem brokenFile_recovers : EndsOnce brokenFile ∧
    (program brokenFile).mapError (·.map fun e => (position brokenFile e, e.span.start)) =
      .error [(3, 3), (5, 5), (13, 12), (16, 16)] ∧
    ∃ passes, Loop (Cursor.ofTokens brokenFile).skipBreaks passes ∧
      (∀ p ∈ passes, ∃ used, used ≠ [] ∧ p.first.Passes p.last used) ∧
      ((∃ es, program brokenFile = .error es) ↔ ∃ p ∈ passes, ∃ e, p.outcome = .error e) ∧
      (∀ es, program brokenFile = .error es → es = passes.filterMap Pass.error?) ∧
      ((passes.filterMap Pass.error?).map (position brokenFile)).Pairwise (· < ·) ∧
      ((passes.filterMap Pass.error?).map (·.span)).Sublist (brokenFile.map (·.span)) := by
  have hend : EndsOnce brokenFile := ⟨brokenFile.dropLast, ⟨16, 17, 1, 17⟩, rfl, by decide⟩
  refine ⟨hend, ?_, program_recovers hend⟩
  have hread : (match program brokenFile with
      | .error es => es.map fun e => (position brokenFile e, e.span.start)
      | .ok _ => []) = [(3, 3), (5, 5), (13, 12), (16, 16)] := by decide +kernel
  cases h : program brokenFile with
  | error es =>
    rw [h] at hread
    exact congrArg _ hread
  | ok p =>
    rw [h] at hread
    cases hread

end ClassLang.Grammar
