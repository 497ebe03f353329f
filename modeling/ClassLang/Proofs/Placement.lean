import ClassLang.Proofs.Significant
import ClassLang.Report.Diagnostic

/-!
# Stretches of a text

A span is a stretch of a text if it starts behind one part of the text and ends behind a longer one, with
the line and the column of its start (`Span.In`). All marks of a scan are stretches, in the order of the
text. Spans are joined by `merge` and `through`; where the first one precedes the second, both lead from its
start to the end of the second, and a stretch comes out. The points at which a label starts and ends are
looked up by their offsets, and for a stretch the start is found where the span says it is
(`Label.ends_placed`).
-/

namespace ClassLang

/-! ## Positions -/

namespace Position

variable {p q r : Position} {front back source : List Char}

theorem lineColumnLE_iff :
    p.lineColumnLE q = true ↔ p.line < q.line ∨ p.line = q.line ∧ p.column ≤ q.column := by
  simp [lineColumnLE]

theorem lineColumnLE_refl (p : Position) : p.lineColumnLE p = true :=
  lineColumnLE_iff.mpr (.inr ⟨rfl, Nat.le_refl _⟩)

theorem lineColumnLE_trans (h : p.lineColumnLE q = true) (h' : q.lineColumnLE r = true) :
    p.lineColumnLE r = true := by
  rw [lineColumnLE_iff] at *
  omega

theorem lineColumnLE_next (p : Position) (c : Char) : p.lineColumnLE (p.next c) = true := by
  rw [lineColumnLE_iff, next]
  split
  · exact .inl (Nat.lt_succ_self _)
  · exact .inr ⟨rfl, Nat.le_succ _⟩

/-- A longer part of a text ends at a later line and column. -/
theorem behind_lineColumnLE (h : front <+: back) : (behind front).lineColumnLE (behind back) = true := by
  obtain ⟨more, rfl⟩ := h
  induction more generalizing front with
  | nil => simpa using lineColumnLE_refl _
  | cons c more ih =>
    have hnext := @ih (front ++ [c])
    rw [List.append_assoc, List.singleton_append, ← behind_next] at hnext
    exact lineColumnLE_trans (lineColumnLE_next _ c) hnext

theorem line_behind_pos (text : List Char) : 0 < (behind text).line :=
  Nat.lt_of_lt_of_le Nat.one_pos (Nat.le_add_right ..)

/-- The position is that of a point of the text. -/
def In (source : List Char) (p : Position) : Prop := ∃ front, front <+: source ∧ p = .behind front

/-- The offset behind a part of a text is looked up as the place behind it. -/
theorem advanceTo_behind (front more rest : List Char) :
    (behind front).advanceTo (behind (front ++ more)).offset (more ++ rest) = behind (front ++ more) := by
  induction more generalizing front with
  | nil =>
    rw [List.append_nil]
    cases rest with
    | nil => rfl
    | cons c rest => exact if_pos (Nat.le_refl _)
  | cons c more ih =>
    have hlt : (behind front).offset < (behind (front ++ c :: more)).offset := by
      have hpos := c.utf8Size_pos
      simp only [behind, byteSize_append, byteSize]
      omega
    have hnext := ih (front ++ [c])
    rw [List.append_assoc, List.singleton_append] at hnext
    rw [List.cons_append, advanceTo, if_neg (Nat.not_le_of_lt hlt), behind_next, hnext]

end Position

theorem byteSize_mono {front back : List Char} (h : front <+: back) : byteSize front ≤ byteSize back := by
  obtain ⟨more, rfl⟩ := h
  rw [byteSize_append]
  exact Nat.le_add_right ..

/-- Of two parts of a text, that with fewer bytes is the shorter one. -/
theorem front_of_byteSize {front back source : List Char} (h : front <+: source) (h' : back <+: source)
    (hsize : byteSize front ≤ byteSize back) : front <+: back := by
  rcases List.prefix_or_prefix_of_prefix h h' with hfront | ⟨more, rfl⟩
  · exact hfront
  · cases more with
    | nil => rw [List.append_nil]
    | cons c more =>
      have hpos := c.utf8Size_pos
      rw [byteSize_append, byteSize] at hsize
      omega

/-! ## Spans -/

namespace Span

/-- The first span starts and ends no later than the second one, by offset and by line and column. -/
structure Precedes (s t : Span) : Prop where
  start : s.start ≤ t.start
  stop : s.stop ≤ t.stop
  first : s.first.lineColumnLE t.first = true

/-- The span is a stretch of the text. -/
def In (source : List Char) (s : Span) : Prop :=
  ∃ before piece rest, source = before ++ (piece ++ rest) ∧ s = .over before piece

variable {s t : Span} {source : List Char}

namespace Precedes

theorem refl (s : Span) : s.Precedes s := ⟨Nat.le_refl _, Nat.le_refl _, Position.lineColumnLE_refl _⟩

theorem merge_eq (h : s.Precedes t) : s.merge t = s.through t := by
  unfold merge through
  rw [if_pos h.first, Nat.min_eq_left h.start, Nat.max_eq_right h.stop]

end Precedes

theorem over_precedes {before before' piece piece' : List Char} (h : before <+: before')
    (h' : before ++ piece <+: before' ++ piece') :
    (Span.over before piece).Precedes (Span.over before' piece') :=
  ⟨byteSize_mono h, byteSize_mono h', Position.behind_lineColumnLE h⟩

theorem In.line_pos (h : s.In source) : 0 < s.line := by
  obtain ⟨before, piece, rest, _, rfl⟩ := h
  exact Position.line_behind_pos before

theorem In.ordered (h : s.In source) : s.start ≤ s.stop := by
  obtain ⟨before, piece, rest, _, rfl⟩ := h
  exact Position.behind_mono before piece

theorem In.through (h : s.In source) (h' : t.In source) (hle : s.Precedes t) : (s.through t).In source := by
  obtain ⟨a, p, x, hs, rfl⟩ := h
  obtain ⟨b, q, y, ht, rfl⟩ := h'
  have hfront : a <+: b ++ q := by
    refine front_of_byteSize ⟨p ++ x, hs.symm⟩ ⟨y, (List.append_assoc ..).trans ht.symm⟩ ?_
    exact Nat.le_trans hle.start (byteSize_mono (List.prefix_append ..))
  obtain ⟨m, hm⟩ := hfront
  refine ⟨a, m, y, ?_, ?_⟩
  · rw [← List.append_assoc, hm, List.append_assoc, ht]
  · rw [Span.over, Span.over, Span.over, hm]
    rfl

end Span

/-- The points that are looked up for a stretch are points of the text: that for its start is the one of the
span, and that for its end does not lie before it. -/
theorem Label.ends_placed {source : String} (l : Label) (h : l.span.In source.toList) :
    ∃ last, l.ends source = (l.span.first, last) ∧ last.offset = l.span.stop ∧
      l.span.first.In source.toList ∧ last.In source.toList ∧ l.span.first.lineColumnLE last = true := by
  obtain ⟨before, piece, rest, hsource, hspan⟩ := h
  have hfirst : Position.start.advanceTo l.span.start source.toList = .behind before := by
    rw [hspan, hsource]
    exact Position.advanceTo_behind [] before (piece ++ rest)
  have hlast : Position.start.advanceTo l.span.stop source.toList = .behind (before ++ piece) := by
    have hfound := Position.advanceTo_behind [] (before ++ piece) rest
    rw [List.append_assoc, ← hsource] at hfound
    rw [hspan]
    exact hfound
  have hbehind : l.span.first = .behind before := by rw [hspan]; rfl
  refine ⟨.behind (before ++ piece), ?_, by rw [hspan]; rfl, ⟨before, ?_, hbehind⟩,
    ⟨before ++ piece, ?_, rfl⟩, ?_⟩
  · rw [ends, hfirst, hlast, hbehind]
  · exact ⟨piece ++ rest, hsource.symm⟩
  · exact ⟨rest, by rw [hsource, List.append_assoc]⟩
  · rw [hbehind]
    exact Position.behind_lineColumnLE (List.prefix_append ..)

/-! ## Scans -/

/-- The span is a stretch of the text that starts behind the text in front. -/
def Span.Behind (before source : List Char) (s : Span) : Prop :=
  ∃ a p b, source = a ++ (p ++ b) ∧ before <+: a ∧ s = .over a p

namespace Span.Behind

variable {before piece rest source : List Char} {s : Span}

theorem stands_in (h : Behind before source s) : s.In source := by
  obtain ⟨a, p, b, hsource, _, hspan⟩ := h
  exact ⟨a, p, b, hsource, hspan⟩

theorem next (h : Behind (before ++ piece) (before ++ piece ++ rest) s) :
    Behind before (before ++ (piece ++ rest)) s := by
  obtain ⟨a, p, b, hsource, hfront, hspan⟩ := h
  exact ⟨a, p, b, by rw [← List.append_assoc, hsource], (List.prefix_append ..).trans hfront, hspan⟩

theorem here (before piece rest : List Char) :
    Behind before (before ++ (piece ++ rest)) (.over before piece) :=
  ⟨before, piece, rest, rfl, List.prefix_rfl, rfl⟩

/-- A piece precedes all that stands behind it. -/
theorem precedes (h : Behind (before ++ piece) source s) : (Span.over before piece).Precedes s := by
  obtain ⟨a, p, b, _, hfront, rfl⟩ := h
  exact over_precedes ((List.prefix_append ..).trans hfront) (hfront.trans (List.prefix_append ..))

end Span.Behind

/-- The marks of a scan are stretches of the whole text. -/
theorem Scans.placed {before rest : List Char} {marks : List Mark} (h : Scans before rest marks) :
    ∀ m ∈ marks, m.span.Behind before (before ++ rest) := by
  induction h with
  | @finish before => exact List.forall_mem_singleton.mpr (.here before [] [])
  | skip _ _ _ ih => exact fun m hm => (ih m hm).next
  | token _ _ _ ih => exact List.forall_mem_cons.mpr ⟨.here .., fun m hm => (ih m hm).next⟩
  | error _ _ _ _ ih => exact List.forall_mem_cons.mpr ⟨.here .., fun m hm => (ih m hm).next⟩

/-- Each mark of a scan precedes those behind it. -/
theorem Scans.precedes {before rest : List Char} {marks : List Mark} (h : Scans before rest marks) :
    marks.Pairwise fun m n => m.span.Precedes n.span := by
  induction h with
  | finish => exact List.pairwise_singleton ..
  | skip _ _ _ ih => exact ih
  | token _ _ hscans ih => exact .cons (fun m hm => (hscans.placed m hm).precedes) ih
  | error _ _ _ hscans ih => exact .cons (fun m hm => (hscans.placed m hm).precedes) ih

/-! ## Tokens -/

/-- Each token precedes those behind it. -/
def InOrder (ts : List (Located Token)) : Prop := ts.Pairwise fun t u => t.span.Precedes u.span

namespace InOrder

variable {t : Located Token} {ts us : List (Located Token)}

theorem tail (h : InOrder (t :: ts)) : InOrder ts := (List.pairwise_cons.mp h).2

theorem head (h : InOrder (t :: ts)) : ∀ u ∈ t :: ts, t.span.Precedes u.span :=
  List.forall_mem_cons.mpr ⟨.refl _, (List.pairwise_cons.mp h).1⟩

theorem left (h : InOrder (ts ++ us)) : InOrder ts := (List.pairwise_append.mp h).1

theorem right (h : InOrder (ts ++ us)) : InOrder us := (List.pairwise_append.mp h).2.1

theorem across (h : InOrder (ts ++ us)) : ∀ t ∈ ts, ∀ u ∈ us, t.span.Precedes u.span :=
  (List.pairwise_append.mp h).2.2

end InOrder

/-- The errors of a text that cannot be scanned are stretches of it. -/
theorem tokenize_errors_placed {source : String} {es : List LexError} (h : tokenize source = .error es) :
    ∀ e ∈ es, e.span.In source.toList := by
  obtain ⟨marks, hscans, htokenize⟩ := exists_scans source
  rw [htokenize] at h
  split at h <;> cases h
  intro e he
  obtain ⟨m, hm, heq⟩ := List.mem_filterMap.mp he
  cases m <;> cases heq
  exact (hscans.placed _ hm).stands_in

/-- The tokens of a text that matter are stretches of it in its order, and the end of the file is the last
of them and no other. -/
theorem significantBreaks_placed {source : String} {ts : List (Located Token)}
    (h : tokenize source = .ok ts) : (∀ t ∈ significantBreaks ts, t.span.In source.toList) ∧
      InOrder (significantBreaks ts) ∧ Grammar.EndsOnce (significantBreaks ts) := by
  have hlexes := tokenize_eq_ok.mp h
  obtain ⟨marks, hscans, _⟩ := exists_scans source
  obtain rfl := hlexes.unique hscans
  have hsub := significantBreaks_sublist ts
  refine ⟨fun t ht => ?_, ?_, significantBreaks_endsOnce hlexes.endsOnce⟩
  · exact (hscans.placed _ (List.mem_map_of_mem (hsub.subset ht))).stands_in
  · exact (List.pairwise_map.mp hscans.precedes).sublist hsub

/-- The tokens of a text that matter do not overlap. -/
theorem significantBreaks_apart {source : String} {ts : List (Located Token)}
    (h : tokenize source = .ok ts) :
    (significantBreaks ts).Pairwise fun t u => t.span.stop ≤ u.span.start := by
  obtain ⟨marks, hscans, _⟩ := exists_scans source
  obtain rfl := (tokenize_eq_ok.mp h).unique hscans
  exact (List.pairwise_map.mp hscans.ordered).sublist (significantBreaks_sublist ts)

end ClassLang
