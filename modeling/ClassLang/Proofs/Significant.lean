import ClassLang.Proofs.Derivation
import ClassLang.Proofs.Rescanning

/-!
# Significant tokens

Of the tokens of a text all are kept but some line breaks, in their order (`significantBreaks_sublist`). The
end of the file is the last token of a stream and of what is kept of it (`significantBreaks_endsOnce`).
-/

namespace ClassLang

open Grammar

variable {t : Located Token} {ts : List (Located Token)}

theorem Token.eq_lineBreak {item : Token} (h : item.isBreak = true) : item = .lineBreak := by
  cases item <;> first | rfl | cases h

theorem firstColumn_break (h : t.item.isBreak = true) : firstColumn (t :: ts) = firstColumn ts := by
  simp [firstColumn, h]

theorem firstColumn_token (h : t.item.isBreak = false) : firstColumn (t :: ts) = t.span.column := by
  simp [firstColumn, h]

namespace Layout

variable {l : Layout}

theorem keep_break (h : t.item.isBreak = true) : l.keep (t :: ts) = (l.meetBreak t).keep ts := by
  rw [keep, Token.eq_lineBreak h]

theorem keep_token (h : t.item.isBreak = false) :
    l.keep (t :: ts) = l.breakBefore t ++ t :: (l.pass t).keep ts := by
  obtain ⟨item, s⟩ := t
  cases item <;> first | rfl | cases h

theorem breakBefore_continues (h : t.item.continuesLine = true) : l.breakBefore t = [] := by
  unfold breakBefore
  split
  · simp [h]
  · rfl

theorem keep_endOfFile (s : Span) : l.keep [⟨.endOfFile, s⟩] = [⟨.endOfFile, s⟩] := by
  rw [keep_token rfl, breakBefore_continues rfl]
  rfl

/-- A token that is no line break stays the last one. -/
theorem keep_concat (l : Layout) (ts : List (Located Token)) (h : t.item.isBreak = false) :
    ∃ kept, l.keep (ts ++ [t]) = kept ++ [t] := by
  induction ts generalizing l with
  | nil => exact ⟨l.breakBefore t, keep_token h⟩
  | cons u ts ih =>
    cases hu : u.item.isBreak with
    | true =>
      obtain ⟨kept, hkept⟩ := ih (l.meetBreak u)
      exact ⟨kept, (keep_break hu).trans hkept⟩
    | false =>
      obtain ⟨kept, hkept⟩ := ih (l.pass u)
      refine ⟨l.breakBefore u ++ u :: kept, ?_⟩
      rw [List.cons_append, keep_token hu, hkept, List.append_assoc, List.cons_append]

/-- A pending line break comes first, and what is kept of a stream stands in its order. -/
theorem keep_sublist (l : Layout) (ts : List (Located Token)) :
    (l.keep ts).Sublist (l.pending.toList ++ ts) := by
  induction ts generalizing l with
  | nil => exact List.nil_sublist _
  | cons t ts ih =>
    cases ht : t.item.isBreak with
    | true =>
      rw [keep_break ht]
      refine (ih (l.meetBreak t)).trans ?_
      unfold meetBreak
      split
      · exact (List.sublist_cons_self t ts).append_left _
      · cases l.pending with
        | none => exact List.Sublist.refl _
        | some b => exact (List.sublist_cons_self t ts).cons_cons b
    | false =>
      have hrest : ((l.pass t).keep ts).Sublist ts := by
        have hnone : (l.pass t).pending = none := by
          unfold pass
          dsimp only
          split <;> rfl
        simpa [hnone] using ih (l.pass t)
      have hbreak : (l.breakBefore t).Sublist l.pending.toList := by
        unfold breakBefore
        split
        · next b hb =>
          rw [hb]
          split
          · exact List.Sublist.refl _
          · exact List.nil_sublist _
        · exact List.nil_sublist _
      rw [keep_token ht]
      exact hbreak.append (hrest.cons_cons t)

end Layout

theorem significantBreaks_sublist (ts : List (Located Token)) : (significantBreaks ts).Sublist ts :=
  Layout.keep_sublist (.start (firstColumn ts)) ts

theorem significantBreaks_endsOnce (h : EndsOnce ts) : EndsOnce (significantBreaks ts) := by
  obtain ⟨body, s, rfl, hbody⟩ := h
  obtain ⟨kept, hkept⟩ := Layout.keep_concat (t := ⟨.endOfFile, s⟩)
    (.start (firstColumn (body ++ [⟨.endOfFile, s⟩]))) body rfl
  refine ⟨kept, s, hkept, fun t ht => hbody t ?_⟩
  have hsub := significantBreaks_sublist (body ++ [⟨.endOfFile, s⟩])
  rw [significantBreaks, hkept] at hsub
  exact ((List.append_sublist_append_right _).mp hsub).subset ht

theorem Lexes.endsOnce {before rest : List Char} (h : Lexes before rest ts) : EndsOnce ts := by
  induction h with
  | finish => exact ⟨[], _, rfl, List.forall_mem_nil _⟩
  | skip _ _ _ ih => exact ih
  | @token _ _ _ t _ hwritten _ _ ih =>
    obtain ⟨body, s, rfl, hbody⟩ := ih
    refine ⟨_ :: body, s, rfl, List.forall_mem_cons.mpr ⟨fun hkind => ?_, hbody⟩⟩
    cases t <;> cases hkind
    exact hwritten

end ClassLang
