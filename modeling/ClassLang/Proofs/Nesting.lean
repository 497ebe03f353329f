import ClassLang.Proofs.Stages
import ClassLang.Proofs.Stretches
import Mathlib.Data.String.Basic

/-!
# Spans nest

In a text that is read, the span of a node of the tree contains those of its parts, and the parts stand one
behind the other in the order of the text (`Program.ofSource_spans_nest`). Every span, and the place of
every syntax error, is a stretch of the text.
-/

namespace ClassLang

namespace Grammar

/-! ## Files -/

section

variable {source : List Char} {ts : List (Located Token)} {p : Program Span}

/-- The classes of a program that is read are written in one part of the file. -/
theorem program_classes (hend : EndsOnce ts) (h : program ts = .ok p) :
    ∃ before us after, ts = before ++ us ++ after ∧ Derives us (.classes p.classes) := by
  obtain ⟨body, fin, rfl, _⟩ := hend
  obtain ⟨breaks, _, hskip⟩ := Cursor.Passes.skipBreaks ⟨none, body, fin⟩
  have hbody : body = breaks ++ (Cursor.skipBreaks ⟨none, body, fin⟩).tokens := hskip.tokens
  simp only [program, ofTokens_concat] at h
  split at h
  · next decls heq =>
    obtain rfl := Except.ok.inj h
    exact ⟨breaks, _, [⟨.endOfFile, fin⟩], congrArg (· ++ _) hbody, classList_derives heq⟩
  · cases h

/-- The span of a program leads from the first token to the end of the last class. -/
theorem program_span (hend : EndsOnce ts) (h : program ts = .ok p) : ∃ first rest, ts = first :: rest ∧
    p.span = p.classes.getLast?.elim first.span fun last => first.span.through last.span := by
  obtain ⟨body, fin, rfl, _⟩ := hend
  obtain ⟨first, rest, hfirst⟩ : ∃ first rest, body ++ [⟨.endOfFile, fin⟩] = first :: rest :=
    List.exists_cons_of_ne_nil (List.append_ne_nil_of_right_ne_nil body (List.cons_ne_nil _ _))
  have hspan : Cursor.span ⟨none, body, fin⟩ = first.span := by
    cases body <;> cases hfirst <;> rfl
  refine ⟨first, rest, hfirst, ?_⟩
  simp only [program, ofTokens_concat, hspan] at h
  split at h
  · next decls _ =>
    rw [← Except.ok.inj h]
    cases decls.getLast? <;> rfl
  · cases h

/-- The tree that is read of a file nests in the text. -/
theorem program_nested (hplaced : ∀ t ∈ ts, t.span.In source) (hts : Lined ts) (hend : EndsOnce ts)
    (h : program ts = .ok p) : p.outline.Nested (Span.In source) := by
  obtain ⟨before, us, after, heq, hclasses⟩ := program_classes hend h
  have hlaid : Laid ts (p.classes.map ClassDecl.outline) := by
    rw [heq] at hts ⊢
    exact (hclasses.laid hts.left.right).right.left
  obtain ⟨first, rest, rfl, hspan⟩ := program_span hend h
  have hroot : Laid (first :: rest) [p.outline] := by
    rw [Program.outline, hspan]
    cases hlast : p.classes.getLast? with
    | none =>
      rw [List.getLast?_eq_none_iff.mp hlast]
      exact .leaf (.head first rest)
    | some last =>
      have hsized := fun t ht => (hplaced t ht).ordered
      exact .throughLast (o := last.outline) hts hsized hlaid (by rw [List.getLast?_map, hlast]; rfl)
  refine (hroot.nested _ (List.mem_singleton_self _)).mono fun s hs => ?_
  obtain ⟨t, ht, u, hu, hle, rfl⟩ := hs
  exact (hplaced t ht).through (hplaced u hu) hle

/-- Every syntax error is found at a token. -/
theorem program_errors_placed {es : List ParseError} (hplaced : ∀ t ∈ ts, t.span.In source)
    (hend : EndsOnce ts) (h : program ts = .error es) : ∀ e ∈ es, e.span.In source := by
  obtain ⟨body, fin, rfl, _⟩ := hend
  obtain ⟨breaks, _, hskip⟩ := Cursor.Passes.skipBreaks ⟨none, body, fin⟩
  simp only [program, ofTokens_concat] at h
  split at h
  · cases h
  · next decls errors _ heq =>
    obtain rfl := Except.error.inj h
    intro e he
    have hplace := hskip.places _ (classList_places _ e (heq ▸ he))
    rcases List.mem_append.mp hplace with hplace | hplace
    · obtain ⟨t, ht, hspan⟩ := List.mem_map.mp hplace
      exact hspan ▸ hplaced t (List.mem_append_left _ ht)
    · rw [List.mem_singleton.mp hplace]
      exact hplaced _ (List.mem_append_right _ (List.mem_singleton_self _))

end

end Grammar

/-! ## Texts -/

/-- The span does not end before it starts, nor behind the text, and starts at the line and the column that
are looked up for its offset. -/
structure Span.Placed (source : String) (s : Span) : Prop where
  ordered : s.start ≤ s.stop
  inside : s.stop ≤ source.utf8ByteSize
  first : Position.start.advanceTo s.start source.toList = s.first

theorem utf8ByteSize_eq_byteSize (source : String) : source.utf8ByteSize = byteSize source.toList := by
  rw [← source.ofList_toList, String.utf8ByteSize_ofList, String.toList_ofList]
  induction source.toList with
  | nil => rfl
  | cons c cs ih => rw [String.utf8Len_cons, ih, byteSize, Nat.add_comm]

theorem Span.In.placed {source : String} {s : Span} (h : s.In source.toList) : s.Placed source where
  ordered := h.ordered
  inside := by
    obtain ⟨before, piece, rest, hsource, rfl⟩ := h
    rw [utf8ByteSize_eq_byteSize]
    exact byteSize_mono ⟨rest, by rw [hsource, List.append_assoc]⟩
  first := by
    obtain ⟨before, piece, rest, hsource, rfl⟩ := h
    rw [hsource]
    exact Position.advanceTo_behind [] before (piece ++ rest)

section

variable {source : String} {p : Program Span}

/-- The tree that is read of a text nests in it. -/
theorem Program.ofSource_nested (h : Program.ofSource source = .ok p) :
    p.outline.Nested (Span.In source.toList) := by
  simp only [Program.ofSource, bind_eq_ok, mapError_eq_ok] at h
  obtain ⟨ts, hts, hp⟩ := h
  obtain ⟨us, hus, rfl⟩ := significantTokens_eq_ok.mp hts
  obtain ⟨hplaced, horder, hend⟩ := significantBreaks_placed hus
  exact Grammar.program_nested hplaced ⟨horder, significantBreaks_apart hus⟩ hend hp

/-- In a text that is read, the span of each node starts and ends in the text, at the line and the column
of its start; it contains the spans of all nodes below it, and the parts of the node stand one behind the
other in the order of the text. -/
theorem Program.ofSource_spans_nest (h : Program.ofSource source = .ok p) :
    ∀ o ∈ p.outline.nodes, o.span.Placed source ∧
      (∀ o' ∈ o.nodes, o.span.Contains o'.span) ∧ o.parts.Pairwise Outline.Before := by
  intro o ho
  obtain ⟨hnode, _⟩ := (Program.ofSource_nested h).of_mem_nodes o ho
  exact ⟨hnode.span.placed, fun o' ho' => (hnode.of_mem_nodes o' ho').2, hnode.parts_apart⟩

/-- The classes of a text that is read stand one behind the other. -/
theorem Program.ofSource_apart (h : Program.ofSource source = .ok p) : p.classes.Pairwise fun d e =>
    ∀ s ∈ d.outline.spans, ∀ s' ∈ e.outline.spans, s.stop ≤ s'.start := by
  have hnested := Program.ofSource_nested h
  cases hnested with
  | node _ hclasses _ hapart =>
    rw [List.forall_mem_map] at hclasses
    refine (List.pairwise_map.mp hapart).imp_of_mem fun hd he hbefore s hs s' hs' => ?_
    obtain ⟨_, hdecl⟩ := (hclasses _ hd).of_mem_spans s hs
    obtain ⟨_, hdecl'⟩ := (hclasses _ he).of_mem_spans s' hs'
    exact Nat.le_trans hdecl.stop (Nat.le_trans hbefore hdecl'.start)

end

/-- A field whose value has parentheses around an operand and around a part of it. -/
def grouped : String := "class A \x7b private b: B = x * (x + (x)) \x7d"

/-- The spans of its nodes. The product and the sum end with the last operand, in front of the parentheses,
and the field ends behind them. -/
def groupedSpans : List Span := [⟨0, 40, 1, 1⟩, ⟨0, 40, 1, 1⟩, ⟨6, 7, 1, 7⟩, ⟨10, 38, 1, 11⟩, ⟨18, 19, 1, 19⟩,
  ⟨21, 22, 1, 22⟩, ⟨21, 22, 1, 22⟩, ⟨25, 36, 1, 26⟩, ⟨25, 26, 1, 26⟩, ⟨30, 36, 1, 31⟩, ⟨30, 31, 1, 31⟩,
  ⟨35, 36, 1, 36⟩]

theorem grouped_spans_nest : ∃ p, Program.ofSource grouped = .ok p ∧
    p.outline.nodes.map Outline.span = groupedSpans ∧ ∀ o ∈ p.outline.nodes, o.span.Placed grouped ∧
      (∀ o' ∈ o.nodes, o.span.Contains o'.span) ∧ o.parts.Pairwise Outline.Before := by
  have hread : (Program.ofSource grouped).toOption.map (fun p => p.outline.nodes.map Outline.span) =
      some groupedSpans := by decide +kernel
  obtain ⟨p, hp, hspans⟩ := Option.map_eq_some_iff.mp hread
  have hsource := toOption_eq_some.mp hp
  exact ⟨p, hsource, hspans, Program.ofSource_spans_nest hsource⟩

end ClassLang
