import ClassLang.Proofs.Outlines
import ClassLang.Proofs.Placement
import Mathlib.Data.List.Pairwise

/-!
# Places in a tree

Every span in a tree that is read runs from the start of one of its tokens to the end of the same token or
of a later one (`Stretch`). Spans of a tree are joined in two ways. A `merge` joins two parts that stand one
behind the other, and `through` leads from the start of a phrase to its last token; as tokens stand in
order, both give such a stretch again.

The span of a node may be smaller than the stretch of its tokens, since parentheses around an operand are
tokens of it and outside its span. So what holds of a derivation is not that a node covers its tokens, but
that each of its spans is some stretch of them (`Derives.laid`). This is enough to put the parts of a node
one behind the other, since their tokens are. That the node contains them depends on how its span is made:
a `merge` contains what it joins, and a stretch up to the last token ends no sooner than any of the tokens.
-/

namespace ClassLang

namespace Span

variable {s t : Span}

theorem merge_left (s t : Span) : (s.merge t).Contains s := ⟨Nat.min_le_left .., Nat.le_max_left ..⟩

theorem merge_right (s t : Span) : (s.merge t).Contains t := ⟨Nat.min_le_right .., Nat.le_max_right ..⟩

@[simp]
theorem upTo_start (s : Span) (ts : List (Located Token)) : (s.upTo ts).start = s.start := by
  unfold upTo
  split <;> rfl

end Span

namespace Grammar

/-! ## Stretches of tokens -/

/-- The span runs from the start of one of the tokens to the end of one that does not stand before it. -/
def Stretch (ts : List (Located Token)) (s : Span) : Prop :=
  ∃ t ∈ ts, ∃ u ∈ ts, t.span.Precedes u.span ∧ s = t.span.through u.span

/-- Each token precedes those behind it, and ends before they start. -/
structure Lined (ts : List (Located Token)) : Prop where
  order : InOrder ts
  apart : ts.Pairwise fun t u => t.span.stop ≤ u.span.start

section

variable {t u : Located Token} {ts us : List (Located Token)} {s s' : Span}

namespace Lined

theorem tail (h : Lined (t :: ts)) : Lined ts := ⟨h.order.tail, (List.pairwise_cons.mp h.apart).2⟩

theorem left (h : Lined (ts ++ us)) : Lined ts := ⟨h.order.left, (List.pairwise_append.mp h.apart).1⟩

theorem right (h : Lined (ts ++ us)) : Lined us := ⟨h.order.right, (List.pairwise_append.mp h.apart).2.1⟩

end Lined

namespace Stretch

theorem mono (h : Stretch ts s) (hsub : ts ⊆ us) : Stretch us s := by
  obtain ⟨t, ht, u, hu, hle, rfl⟩ := h
  exact ⟨t, hsub ht, u, hsub hu, hle, rfl⟩

theorem token (h : t ∈ ts) : Stretch ts t.span := ⟨t, h, t, h, .refl _, rfl⟩

theorem one (t : Located Token) : Stretch [t] t.span := .token (List.mem_singleton_self t)

theorem head (t : Located Token) (ts : List (Located Token)) : Stretch (t :: ts) t.span :=
  .token List.mem_cons_self

/-- A stretch goes on to the end of one that stands behind it. -/
theorem through (h : InOrder (ts ++ us)) (hs : Stretch ts s) (hs' : Stretch us s') :
    Stretch (ts ++ us) (s.through s') := by
  obtain ⟨t, ht, _, _, _, rfl⟩ := hs
  obtain ⟨_, _, u, hu, _, rfl⟩ := hs'
  have hle := h.across t ht u hu
  exact ⟨t, List.mem_append_left _ ht, u, List.mem_append_right _ hu, hle, rfl⟩

/-- A stretch precedes one that stands behind it. -/
theorem precedes (h : InOrder (ts ++ us)) (hs : Stretch ts s) (hs' : Stretch us s') : s.Precedes s' := by
  obtain ⟨t, ht, u, hu, _, rfl⟩ := hs
  obtain ⟨t', ht', u', hu', _, rfl⟩ := hs'
  exact ⟨(h.across t ht t' ht').start, (h.across u hu u' hu').stop, (h.across t ht t' ht').first⟩

theorem merge (h : InOrder (ts ++ us)) (hs : Stretch ts s) (hs' : Stretch us s') :
    Stretch (ts ++ us) (s.merge s') := by
  rw [(hs.precedes h hs').merge_eq]
  exact hs.through h hs'

/-- A stretch goes on to the last token of a phrase that stands behind it. -/
theorem upTo (h : InOrder (ts ++ us)) (hs : Stretch ts s) (hne : us ≠ []) :
    Stretch (ts ++ us) (s.upTo us) := by
  rw [Span.upTo, List.getLast?_eq_some_getLast hne]
  exact hs.through h (.token (List.getLast_mem hne))

/-- The stretch of a whole phrase. -/
theorem whole (h : InOrder (t :: ts)) : Stretch (t :: ts) (t.span.upTo (t :: ts)) := by
  rcases eq_or_ne ts [] with rfl | hne
  · exact .one t
  · rw [← List.singleton_append, Span.upTo_append _ _ hne]
    exact (one t).upTo h hne

/-- No stretch starts before the first token. -/
theorem start_le (h : InOrder (t :: ts)) (hs : Stretch (t :: ts) s) : t.span.start ≤ s.start := by
  obtain ⟨u, hu, _, _, _, rfl⟩ := hs
  exact (h.head u hu).start

/-- No stretch ends behind the last token. -/
theorem stop_le (h : InOrder ts) (hs : Stretch ts s) (s' : Span) : s.stop ≤ (s'.upTo ts).stop := by
  obtain ⟨_, _, u, hu, _, rfl⟩ := hs
  have hlast := h.rel_getLast_of_rel_getLast_getLast hu (.refl _)
  rw [Span.upTo, List.getLast?_eq_some_getLast (List.ne_nil_of_mem hu)]
  exact hlast.stop

/-- Where no token ends before it starts, no stretch does. -/
theorem ordered (hsized : ∀ t ∈ ts, t.span.start ≤ t.span.stop) (hs : Stretch ts s) : s.start ≤ s.stop := by
  obtain ⟨_, _, u, hu, hle, rfl⟩ := hs
  exact hle.start.trans (hsized u hu)

/-- A stretch may be drawn back to the first token. -/
theorem back (h : InOrder (t :: ts)) (hs : Stretch (t :: ts) s) :
    Stretch (t :: ts) (t.span.through s) := by
  obtain ⟨_, _, u, hu, _, rfl⟩ := hs
  exact ⟨t, List.mem_cons_self, u, hu, h.head u hu, rfl⟩

/-- A stretch ends before one starts that stands behind it. -/
theorem before (h : Lined (ts ++ us)) (hs : Stretch ts s) (hs' : Stretch us s') :
    s.stop ≤ s'.start := by
  obtain ⟨_, _, u, hu, _, rfl⟩ := hs
  obtain ⟨t, ht, _, _, _, rfl⟩ := hs'
  exact (List.pairwise_append.mp h.apart).2.2 u hu t ht

end Stretch

end

/-! ## Outlines of tokens -/

/-- The outlines of what tokens are written for. -/
def Phrase.outlines : Phrase → List Outline
  | .type _ w => [w.outline]
  | .annotated w => w.toList.map TypeName.outline
  | .expr _ e => [e.outline]
  | .exprs es | .arguments es => Expr.outlines es
  | .initializer e => Expr.outlines e.toList
  | .stmt s | .body _ s => [s.outline]
  | .stmts ss => Stmt.outlines ss
  | .overriding _ => []
  | .methodName name => [name.outline]
  | .paramList ps | .params ps => ps.map Param.outline
  | .baseCall es => Expr.outlines (es.getD [])
  | .member m => [m.outline]
  | .members ms => ms.map MemberDecl.outline
  | .parent name => name.toList.map Ident.outline
  | .classDecl decl => [decl.outline]
  | .classes decls => decls.map ClassDecl.outline
  | .program p => p.classes.map ClassDecl.outline

/-- The spans of the outlines are stretches of the tokens; they nest, and one outline stands behind the
other. -/
structure Laid (ts : List (Located Token)) (os : List Outline) : Prop where
  nested : ∀ o ∈ os, o.Nested (Stretch ts)
  apart : os.Pairwise Outline.Before

section

variable {t : Located Token} {ts us : List (Located Token)} {o o' : Outline} {os os' : List Outline}
  {s : Span}

namespace Laid

theorem nil : Laid ts [] := ⟨nofun, .nil⟩

theorem one (h : o.Nested (Stretch ts)) : Laid ts [o] :=
  ⟨List.forall_mem_singleton.mpr h, List.pairwise_singleton ..⟩

theorem leaf (h : Stretch ts s) : Laid ts [.node s []] := .one (.leaf h)

/-- A name is a token. -/
theorem name (x : Ident) : Laid [⟨.name x.name, x.span⟩] [x.outline] := .leaf (.one ⟨.name x.name, x.span⟩)

theorem root (h : Laid ts [o]) : Stretch ts o.span := (h.nested o (List.mem_singleton_self o)).span

theorem mono (h : Laid ts os) (hsub : ts ⊆ us) : Laid us os :=
  ⟨fun o ho => (h.nested o ho).mono fun _ hs => hs.mono hsub, h.apart⟩

theorem left (h : Laid ts os) : Laid (ts ++ us) os := h.mono (List.subset_append_left ts us)

theorem right (h : Laid us os) : Laid (ts ++ us) os := h.mono (List.subset_append_right ts us)

theorem behind (h : Laid ts os) : Laid (t :: ts) os := h.mono (List.subset_cons_self t ts)

theorem append (hts : Lined (ts ++ us)) (h : Laid ts os) (h' : Laid us os') :
    Laid (ts ++ us) (os ++ os') where
  nested := List.forall_mem_append.mpr ⟨h.left.nested, h'.right.nested⟩
  apart := List.pairwise_append.mpr ⟨h.apart, h'.apart, fun o ho o' ho' =>
    (h.nested o ho).span.before hts (h'.nested o' ho').span⟩

/-- A name in front. -/
theorem named {x : String} (hts : Lined (⟨.name x, s⟩ :: ts)) (h : Laid ts os) :
    Laid (⟨.name x, s⟩ :: ts) (Ident.outline ⟨x, s⟩ :: os) := append hts (name ⟨x, s⟩) h

/-- A node over its parts. The lemmas below are about the ways in which its span is made. -/
theorem node (h : Laid ts os) (hs : Stretch ts s) (hin : ∀ o ∈ os, s.Contains o.span) :
    Laid ts [.node s os] := .one (.node hs h.nested hin h.apart)

/-- The node stands where its only part does. -/
theorem same (h : Laid ts [o]) : Laid ts [.node o.span [o]] :=
  h.node h.root (List.forall_mem_singleton.mpr (.refl _))

/-- The node is the whole phrase. -/
theorem whole (hts : Lined (t :: ts)) (h : Laid (t :: ts) os) :
    Laid (t :: ts) [.node (t.span.upTo (t :: ts)) os] := by
  refine h.node (.whole hts.order) fun o ho => ?_
  have hspan := (h.nested o ho).span
  exact ⟨by simpa using hspan.start_le hts.order, hspan.stop_le hts.order _⟩

/-- The node starts with its first part and goes on to the last token. -/
theorem upTo (hts : Lined (ts ++ us)) (h : Laid ts [o]) (hne : us ≠ []) (h' : Laid us os) :
    Laid (ts ++ us) [.node (o.span.upTo us) (o :: os)] := by
  refine (append hts h h').node (h.root.upTo hts.order hne) (List.forall_mem_cons.mpr ⟨?_, fun o' ho' => ?_⟩)
  · have hlast := (Stretch.token (List.getLast_mem hne)).stop_le hts.order.right o.span
    have hle := h.root.precedes hts.order (.token (List.getLast_mem hne))
    exact ⟨by simp, hle.stop.trans hlast⟩
  · have hspan := (h'.nested o' ho').span
    exact ⟨by simpa using (h.root.precedes hts.order hspan).start, hspan.stop_le hts.order.right _⟩

/-- The node joins two parts. -/
theorem join (hts : Lined (ts ++ us)) (h : Laid ts [o]) (h' : Laid us [o']) :
    Laid (ts ++ us) [.node (o.span.merge o'.span) [o, o']] := by
  refine (append hts h h').node (h.root.merge hts.order h'.root) ?_
  exact List.forall_mem_cons.mpr ⟨Span.merge_left .., List.forall_mem_singleton.mpr (Span.merge_right ..)⟩

/-- The node joins a token and its part. -/
theorem prefixed (hts : Lined (t :: ts)) (h : Laid ts [o]) :
    Laid (t :: ts) [.node (t.span.merge o.span) [o]] :=
  h.behind.node ((Stretch.one t).merge hts.order h.root)
    (List.forall_mem_singleton.mpr (Span.merge_right ..))

/-- The node starts with the first token and goes on to the end of its last part. -/
theorem throughLast (hts : Lined (t :: ts)) (hsized : ∀ u ∈ t :: ts, u.span.start ≤ u.span.stop)
    (h : Laid (t :: ts) os) (ho : o ∈ os.getLast?) : Laid (t :: ts) [.node (t.span.through o.span) os] := by
  obtain ⟨hne, rfl⟩ := List.mem_getLast?_eq_getLast ho
  have hspan := fun o ho => (h.nested o ho).span
  have hstops : os.Pairwise fun o o' => o.span.stop ≤ o'.span.stop :=
    h.apart.imp_of_mem fun _ ho' hle => hle.trans ((hspan _ ho').ordered hsized)
  refine h.node ((hspan _ (List.getLast_mem hne)).back hts.order) fun o ho => ?_
  exact ⟨(hspan o ho).start_le hts.order,
    hstops.rel_getLast_of_rel_getLast_getLast ho (Nat.le_refl _)⟩

end Laid

/-- A list of arguments has its parentheses at least. -/
theorem Derives.arguments_ne_nil {es : List (Expr Span)} (h : Derives ts (.arguments es)) : ts ≠ [] := by
  cases h <;> exact List.cons_ne_nil _ _

end

/-- What tokens are written for is laid out over them. -/
theorem Derives.laid {ts : List (Located Token)} {phrase : Phrase} (h : Derives ts phrase)
    (hts : Lined ts) : Laid ts phrase.outlines := by
  induction h with
  | nullType => exact .leaf (.one _)
  | @namedType _ x s => exact (Laid.name ⟨x, s⟩).same
  | @optionalType _ x s marks hne => exact .upTo hts (.name ⟨x, s⟩) hne .nil
  | unannotated => exact .nil
  | annotated _ _ ih => exact (ih hts.tail).behind
  | @atom t e hatom =>
    have houtline : e.outline = .node t.span [] := by
      unfold atom? at hatom
      split at hatom <;> cases hatom <;> rfl
    simpa only [Phrase.outlines, houtline] using Laid.leaf (.one t)
  | parens _ _ _ ih => exact (ih hts.tail.left).left.behind
  | new _ _ heq ih =>
    subst heq
    simpa only [Phrase.outlines, Expr.outline] using
      Laid.whole hts (Laid.named hts.tail (ih hts.tail.tail)).behind
  | @member _ _ dot x s _ _ ih =>
    have hname : Laid [dot, ⟨.name x, s⟩] [Ident.outline ⟨x, s⟩] := (Laid.name ⟨x, s⟩).behind
    simpa only [Phrase.outlines, Expr.outline, Expr.outline_span, Ident.outline_span] using
      Laid.join hts (ih hts.left) hname
  | call _ hargs ihe ihargs =>
    simpa only [Phrase.outlines, Expr.outline, Expr.outline_span] using
      Laid.upTo hts (ihe hts.left) hargs.arguments_ne_nil (ihargs hts.right)
  | @assert _ _ t _ _ ih =>
    simpa only [Phrase.outlines, Expr.outline, Expr.outline_span, Span.upTo, List.getLast?_singleton] using
      Laid.upTo hts (ih hts.left) (List.cons_ne_nil t []) .nil
  | unary _ _ ih =>
    simpa only [Phrase.outlines, Expr.outline, Expr.outline_span] using Laid.prefixed hts (ih hts.tail)
  | binary _ _ _ ihl ihr =>
    simpa only [Phrase.outlines, Expr.outline, Expr.outline_span] using
      Laid.join hts (ihl hts.left) (ihr hts.right.tail).behind
  | instanceTest _ _ _ ihe ihw =>
    simpa only [Phrase.outlines, Expr.outline, Expr.outline_span, TypeName.outline_span] using
      Laid.join hts (ihe hts.left) (ihw hts.right.tail).behind
  | cast _ _ _ ihe ihw =>
    simpa only [Phrase.outlines, Expr.outline, Expr.outline_span, TypeName.outline_span] using
      Laid.join hts (ihe hts.left) (ihw hts.right.tail).behind
  | assign _ _ _ ihl ihr =>
    simpa only [Phrase.outlines, Expr.outline, Expr.outline_span] using
      Laid.join hts (ihl hts.left) (ihr hts.right.tail).behind
  | looser _ _ ih => exact ih hts
  | oneExpr _ ih => exact ih hts
  | moreExprs _ _ _ ihe ihes => exact .append hts (ihe hts.left) (ihes hts.right.tail).behind
  | noArguments => exact .nil
  | arguments _ _ _ ih => exact (ih hts.tail.left).left.behind
  | define _ _ _ _ heq ihw ihe =>
    subst heq
    have htail := hts.tail.tail
    have hparts := Laid.append htail (ihw htail.left) (ihe htail.right.tail).behind
    simpa only [Phrase.outlines, Stmt.outline] using Laid.whole hts (Laid.named hts.tail hparts).behind
  | returnNothing => exact .whole hts .nil
  | «return» _ _ heq ih =>
    subst heq
    exact .whole hts (ih hts.tail).behind
  | ifThen _ _ _ _ heq ihe ihb =>
    subst heq
    have htail := hts.tail
    have hparts := Laid.append htail (ihe htail.left) (ihb htail.right.tail).behind
    exact .whole hts hparts.behind
  | ifElse _ _ _ _ _ _ heq ihe ihb iho =>
    subst heq
    have htail := hts.tail
    have hbranches := htail.right.tail
    have hparts := Laid.append hbranches (ihb hbranches.left) (iho hbranches.right.tail).behind
    exact .whole hts (Laid.append htail (ihe htail.left) hparts.behind).behind
  | «while» _ _ _ _ heq ihe ihb =>
    subst heq
    have htail := hts.tail
    have hparts := Laid.append htail (ihe htail.left) (ihb htail.right.tail).behind
    exact .whole hts hparts.behind
  | block _ _ _ _ heq ih =>
    subst heq
    exact .whole hts (ih hts.tail.right.left).left.right.behind
  | @expression _ e _ ih =>
    simpa only [Phrase.outlines, Stmt.outline, Expr.outline_span] using (ih hts).same
  | noStmts => exact .nil
  | lastStmt _ ih => exact ih hts
  | moreStmts _ _ _ _ ihs ihss => exact .append hts (ihs hts.left) (ihss hts.right.right).right
  | returned _ _ ih =>
    simpa only [Phrase.outlines, Stmt.outline, Option.toList, Expr.outlines, Expr.outline_span] using
      (ih hts.tail).behind.same
  | bodyStmt _ _ _ ih => exact (ih hts.tail).behind
  | bodyBlock _ ih => exact ih hts
  | noInitializer => exact .nil
  | initializer _ _ ih => exact (ih hts.tail).behind
  | notOverriding => exact .nil
  | overriding => exact .nil
  | @methodNamed x s => exact (Laid.name ⟨x, s⟩).same
  | binaryMethod => exact .whole hts .nil
  | unaryMethod => exact .whole hts .nil
  | @oneParam x s colon _ _ _ _ _ heq ih =>
    subst heq
    exact .whole hts (Laid.named hts (ih hts.tail.tail).behind)
  | moreParams _ _ _ ihp ihps => exact .append hts (ihp hts.left) (ihps hts.right.tail).behind
  | noParams => exact .nil
  | params _ _ _ ih => exact (ih hts.tail.left).left.behind
  | noBaseCall => exact .nil
  | baseCall _ _ _ ih => exact (ih hts.tail.tail).behind.behind
  | field _ _ _ _ heq ihw ihe =>
    subst heq
    have htail := hts.tail.tail.tail
    have hparts := Laid.append htail (ihw htail.left) (ihe htail.right)
    exact .whole hts (Laid.named hts.tail hparts.behind).behind
  | method _ _ _ _ _ _ heq _ ihn ihps ihw ihb =>
    subst heq
    have hnamed := hts.tail.right
    have hparams := hnamed.right
    have hannotated := hparams.right
    have hrest := Laid.append hannotated (ihw hannotated.left) (ihb hannotated.right)
    have hparts := Laid.append hnamed (ihn hnamed.left) (.append hparams (ihps hparams.left) hrest)
    exact .whole hts hparts.right.behind
  | constructor _ _ _ _ _ heq ihps ihes ihb =>
    subst heq
    have hparams := hts.tail.tail
    have hbase := hparams.right
    have hrest := Laid.append hbase (ihes hbase.left) (ihb hbase.right)
    exact .whole hts (Laid.append hparams (ihps hparams.left) hrest).behind.behind
  | noMembers => exact .nil
  | lastMember _ ih => exact ih hts
  | moreMembers _ _ _ _ ihm ihms => exact .append hts (ihm hts.left) (ihms hts.right.right).right
  | noParent => exact .nil
  | @parent colon x s _ => exact (Laid.name ⟨x, s⟩).behind
  | classDecl _ _ _ _ _ _ heq ihp ihms =>
    subst heq
    have htail := hts.tail.tail
    have hmembers := htail.right.tail.right
    have hparts := Laid.append htail (ihp htail.left) (ihms hmembers.left).left.right.behind
    exact .whole hts (Laid.named hts.tail hparts).behind
  | noClasses => exact .nil
  | moreClasses _ _ _ ihd ihds => exact .append hts (ihd hts.left) (ihds hts.right.right).right
  | program _ _ heq ih =>
    rw [← heq] at hts ⊢
    exact (ih hts.right.left).left.right

end Grammar

end ClassLang
