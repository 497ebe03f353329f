import ClassLang.Proofs.Significant

/-!
# Which line breaks are significant

Whether a line break is kept can be told from the other tokens, without a walk through the stream
(`Significant`): the next token has to stand in the column of the innermost block that is open there. A block
is open as long as, counted from its opening brace, no more braces were closed than opened, so closing
braces that close nothing play no part.

On the way through the tokens the open blocks form a stack (`Blocks`), and the layout knows the column of
each (`Layout.Knows`). From there it follows which breaks are kept (`significantBreaks_exact`).
-/

namespace ClassLang

/-! ## Blocks -/

/-- The token opens a block. -/
def Token.opensBlock : Token → Bool
  | .symbol .leftBrace => true
  | _ => false

/-- The token closes a block. -/
def Token.closesBlock : Token → Bool
  | .symbol .rightBrace => true
  | _ => false

/-- The tokens of a stream that are no line breaks. -/
def words (ts : List (Located Token)) : List (Located Token) := ts.filter (!·.item.isBreak)

/-- The number of blocks that tokens open. -/
def openings (ts : List (Located Token)) : Nat := ts.countP (·.item.opensBlock)

/-- The number of blocks that tokens close. -/
def closings (ts : List (Located Token)) : Nat := ts.countP (·.item.closesBlock)

/-- A block that is open behind some tokens, told by the tokens behind its brace: nowhere on the way more
blocks were closed than opened. -/
structure OpenBlock (before inside : List (Located Token)) : Prop where
  brace : ∃ front brace, brace.item.opensBlock = true ∧ before = front ++ brace :: inside
  balanced : ∀ p, p <+: inside → closings p ≤ openings p

/-- The tokens of the innermost block that is open behind some tokens, or all of these if none is open. -/
def Innermost (before inside : List (Located Token)) : Prop :=
  (OpenBlock before inside ∧ ∀ other, OpenBlock before other → inside.length ≤ other.length) ∨
    (∀ other, ¬ OpenBlock before other) ∧ inside = before

/-- A line break ends a statement behind some tokens and in front of a next one: no block was just opened,
the next token cannot go on with a line, and it stands in the column of the first token of the innermost
open block. -/
structure Significant (before : List (Located Token)) (next : Located Token) : Prop where
  behind : ∀ t ∈ before.getLast?, t.item.opensBlock = false
  ahead : next.item.continuesLine = false
  column : ∃ inside, Innermost before inside ∧ next.span.column = (inside.headD next).span.column

/-- The stream does not end with a line break. -/
def EndsPlain (ts : List (Located Token)) : Prop := ∀ t ∈ ts.getLast?, t.item.isBreak = false

/-- All the line breaks of a stream in front of one of its words. -/
structure Gap (ts before breaks : List (Located Token)) (next : Located Token)
    (after : List (Located Token)) : Prop where
  split : ts = before ++ breaks ++ next :: after
  before : EndsPlain before
  breaks : ∀ b ∈ breaks, b.item.isBreak = true
  next : next.item.isBreak = false

namespace BreaksLemmas

variable {k t : Located Token} {ks ts us inside : List (Located Token)} {S : List (List (Located Token))}

theorem openings_concat : openings (ts ++ [t]) = openings ts + if t.item.opensBlock then 1 else 0 := by
  simp [openings, List.countP_append, List.countP_cons]

theorem closings_concat : closings (ts ++ [t]) = closings ts + if t.item.closesBlock then 1 else 0 := by
  simp [closings, List.countP_append, List.countP_cons]

theorem closesBlock_of_opensBlock {item : Token} (h : item.opensBlock = true) :
    item.closesBlock = false := by
  unfold Token.opensBlock at h
  split at h
  · rfl
  · cases h

theorem headD_concat : (ts ++ [t]).headD k = ts.headD t := by
  cases ts <;> rfl

theorem words_append : words (ts ++ us) = words ts ++ words us := List.filter_append ..

theorem words_break (h : t.item.isBreak = true) : words [t] = [] := by
  simp [words, h]

theorem words_token (h : t.item.isBreak = false) : words [t] = [t] := by
  simp [words, h]

/-- The blocks that are open behind one more token. -/
theorem openBlock_concat : OpenBlock (ks ++ [k]) inside ↔
    (k.item.opensBlock = true ∧ inside = []) ∨
      ∃ shorter, inside = shorter ++ [k] ∧ OpenBlock ks shorter ∧ closings inside ≤ openings inside := by
  constructor
  · rintro ⟨⟨front, brace, hbrace, heq⟩, hbalanced⟩
    rcases List.eq_nil_or_concat' inside with rfl | ⟨shorter, last, rfl⟩
    · obtain ⟨_, hk⟩ := List.append_inj' heq rfl
      cases hk
      exact .inl ⟨hbrace, rfl⟩
    · rw [← List.cons_append, ← List.append_assoc] at heq
      obtain ⟨hks, hk⟩ := List.append_inj' heq rfl
      cases hk
      exact .inr ⟨shorter, rfl, ⟨⟨front, brace, hbrace, hks⟩,
        fun p hp => hbalanced p (hp.trans (List.prefix_append _ _))⟩, hbalanced _ (List.prefix_refl _)⟩
  · rintro (⟨hk, rfl⟩ | ⟨shorter, rfl, ⟨⟨front, brace, hbrace, rfl⟩, hbalanced⟩, hend⟩)
    · exact ⟨⟨ks, k, hk, rfl⟩, fun p hp => by rw [List.prefix_nil.mp hp]; exact Nat.le_refl _⟩
    · refine ⟨⟨front, brace, hbrace, by simp⟩, fun p hp => ?_⟩
      rcases List.prefix_concat_iff.mp hp with rfl | hp
      · exact hend
      · exact hbalanced p hp

/-! ## The stack of open blocks -/

/-- The blocks that are open behind some tokens, the innermost first. In each one as many blocks are open as
stand in front of it. -/
structure Blocks (ks : List (Located Token)) (S : List (List (Located Token))) : Prop where
  mem : ∀ inside, OpenBlock ks inside ↔ inside ∈ S
  depth : ∀ (i : Nat) inside, S[i]? = some inside → openings inside = closings inside + i
  ordered : S.Pairwise fun inside outside => inside.length < outside.length

/-- The stack behind one more token. -/
def pushToken (S : List (List (Located Token))) (k : Located Token) : List (List (Located Token)) :=
  if k.item.opensBlock then [] :: S.map (· ++ [k])
  else if k.item.closesBlock then S.tail.map (· ++ [k])
  else S.map (· ++ [k])

theorem Blocks.nil : Blocks [] [] := by
  refine ⟨fun inside => ⟨fun h => ?_, nofun⟩, fun i inside h => ?_, .nil⟩
  · obtain ⟨front, brace, _, heq⟩ := h.brace
    cases front <;> cases heq
  · rw [List.getElem?_nil] at h
    cases h

theorem ordered_map (h : S.Pairwise fun inside outside => inside.length < outside.length)
    (k : Located Token) :
    (S.map (· ++ [k])).Pairwise fun inside outside => inside.length < outside.length := by
  rw [List.pairwise_map]
  exact h.imp fun hlt => by simpa using hlt

/-- A token that opens a block. -/
theorem Blocks.opens (h : Blocks ks S) (hk : k.item.opensBlock = true) :
    Blocks (ks ++ [k]) ([] :: S.map (· ++ [k])) := by
  have hclose := closesBlock_of_opensBlock hk
  refine ⟨fun inside => ?_, fun i inside hi => ?_, List.pairwise_cons.mpr ⟨?_, ordered_map h.ordered k⟩⟩
  · rw [openBlock_concat, List.mem_cons, List.mem_map]
    constructor
    · rintro (⟨_, rfl⟩ | ⟨shorter, rfl, hopen, _⟩)
      · exact .inl rfl
      · exact .inr ⟨shorter, (h.mem shorter).mp hopen, rfl⟩
    · rintro (rfl | ⟨shorter, hmem, rfl⟩)
      · exact .inl ⟨hk, rfl⟩
      · have hopen := (h.mem shorter).mpr hmem
        have hbalanced := hopen.balanced shorter (List.prefix_refl _)
        refine .inr ⟨shorter, rfl, hopen, ?_⟩
        rw [openings_concat, closings_concat, hk, hclose]
        simp only [Bool.false_eq_true, if_false, if_true]
        omega
  · cases i with
    | zero =>
      cases hi
      rfl
    | succ i =>
      rw [List.getElem?_cons_succ, List.getElem?_map] at hi
      obtain ⟨shorter, hshorter, rfl⟩ := Option.map_eq_some_iff.mp hi
      have := h.depth i shorter hshorter
      rw [openings_concat, closings_concat, hk, hclose]
      simp only [Bool.false_eq_true, if_false, if_true]
      omega
  · intro inside hmem
    obtain ⟨shorter, _, rfl⟩ := List.mem_map.mp hmem
    simp

/-- A token that closes the innermost block, if any is open. -/
theorem Blocks.closes (h : Blocks ks S) (hk : k.item.opensBlock = false)
    (hclose : k.item.closesBlock = true) : Blocks (ks ++ [k]) (S.tail.map (· ++ [k])) := by
  refine ⟨fun inside => ?_, fun i inside hi => ?_, ordered_map h.ordered.tail k⟩
  · rw [openBlock_concat, List.mem_map]
    constructor
    · rintro (⟨hopens, _⟩ | ⟨shorter, rfl, hopen, hle⟩)
      · exact absurd hopens (Bool.eq_false_iff.mp hk)
      · refine ⟨shorter, ?_, rfl⟩
        obtain ⟨i, hi⟩ := List.getElem?_of_mem ((h.mem shorter).mp hopen)
        have hdepth := h.depth i shorter hi
        rw [openings_concat, closings_concat, hk, hclose] at hle
        simp only [Bool.false_eq_true, if_false, if_true] at hle
        -- At the bottom of the stack nothing is left to close.
        obtain ⟨j, rfl⟩ : ∃ j, i = j + 1 := ⟨i - 1, by omega⟩
        exact List.mem_of_getElem? (by rwa [List.getElem?_tail])
    · rintro ⟨shorter, hmem, rfl⟩
      obtain ⟨i, hi⟩ := List.getElem?_of_mem hmem
      rw [List.getElem?_tail] at hi
      have hdepth := h.depth (i + 1) shorter hi
      refine .inr ⟨shorter, rfl, (h.mem shorter).mpr (List.mem_of_getElem? hi), ?_⟩
      rw [openings_concat, closings_concat, hk, hclose]
      simp only [Bool.false_eq_true, if_false, if_true]
      omega
  · rw [List.getElem?_map, List.getElem?_tail] at hi
    obtain ⟨shorter, hshorter, rfl⟩ := Option.map_eq_some_iff.mp hi
    have := h.depth (i + 1) shorter hshorter
    rw [openings_concat, closings_concat, hk, hclose]
    simp only [Bool.false_eq_true, if_false, if_true]
    omega

/-- A token that leaves the blocks as they are. -/
theorem Blocks.stays (h : Blocks ks S) (hk : k.item.opensBlock = false)
    (hclose : k.item.closesBlock = false) : Blocks (ks ++ [k]) (S.map (· ++ [k])) := by
  have hopenings (b : List (Located Token)) : openings (b ++ [k]) = openings b := by
    simp [openings_concat, hk]
  have hclosings (b : List (Located Token)) : closings (b ++ [k]) = closings b := by
    simp [closings_concat, hclose]
  refine ⟨fun inside => ?_, fun i inside hi => ?_, ordered_map h.ordered k⟩
  · rw [openBlock_concat, List.mem_map]
    constructor
    · rintro (⟨hopens, _⟩ | ⟨shorter, rfl, hopen, _⟩)
      · exact absurd hopens (Bool.eq_false_iff.mp hk)
      · exact ⟨shorter, (h.mem shorter).mp hopen, rfl⟩
    · rintro ⟨shorter, hmem, rfl⟩
      have hopen := (h.mem shorter).mpr hmem
      refine .inr ⟨shorter, rfl, hopen, ?_⟩
      rw [hopenings, hclosings]
      exact hopen.balanced shorter (List.prefix_refl _)
  · rw [List.getElem?_map] at hi
    obtain ⟨shorter, hshorter, rfl⟩ := Option.map_eq_some_iff.mp hi
    rw [hopenings, hclosings]
    exact h.depth i shorter hshorter

theorem Blocks.push (h : Blocks ks S) (k : Located Token) : Blocks (ks ++ [k]) (pushToken S k) := by
  unfold pushToken
  split
  · next hk => exact h.opens hk
  · next hk =>
    split
    · next hclose => exact h.closes (Bool.eq_false_iff.mpr hk) hclose
    · next hclose => exact h.stays (Bool.eq_false_iff.mpr hk) (Bool.eq_false_iff.mpr hclose)

/-- The innermost block is on the top of the stack. -/
theorem Blocks.innermost (h : Blocks ks S) : Innermost ks inside ↔ inside = S.headD ks := by
  cases S with
  | nil =>
    have hnone : ∀ other, ¬ OpenBlock ks other := fun other hopen =>
      List.not_mem_nil ((h.mem other).mp hopen)
    exact ⟨fun hin => hin.elim (fun hopen => absurd hopen.1 (hnone _)) (·.2), fun heq => .inr ⟨hnone, heq⟩⟩
  | cons top S =>
    have htop : OpenBlock ks top := (h.mem top).mpr List.mem_cons_self
    have hleast : ∀ other, OpenBlock ks other → other = top ∨ top.length < other.length := fun other hopen =>
      (List.mem_cons.mp ((h.mem other).mp hopen)).imp id ((List.pairwise_cons.mp h.ordered).1 other)
    constructor
    · rintro (⟨hopen, hmin⟩ | ⟨hnone, _⟩)
      · exact (hleast inside hopen).resolve_right (Nat.not_lt.mpr (hmin top htop))
      · exact absurd htop (hnone top)
    · rintro rfl
      exact .inl ⟨htop, fun other hopen =>
        (hleast other hopen).elim (fun heq => heq ▸ Nat.le_refl _) Nat.le_of_lt⟩

end BreaksLemmas

open BreaksLemmas

/-! ## The layout behind some tokens -/

namespace Layout

/-- The layout behind one more token. -/
def next (l : Layout) (t : Located Token) : Layout := if t.item.isBreak then l.meetBreak t else l.pass t

/-- The layout behind some tokens. -/
def behind (l : Layout) (ts : List (Located Token)) : Layout := ts.foldl next l

/-- Behind some words, in a file whose first word stands in a column, the layout knows whether a block was
just opened, and from the next word on the column of every open block. -/
structure Knows (l : Layout) (column : Nat) (before : List (Located Token)) : Prop where
  opening : l.opening = before.getLast?.any (·.item.opensBlock)
  columns : ∃ S, Blocks before S ∧
    ∀ next, l.opened next = S.map (fun inside => (inside.headD next).span.column) ++ [column]

variable {l : Layout} {t : Located Token} {ts us before : List (Located Token)} {column : Nat}

theorem next_break (h : t.item.isBreak = true) : l.next t = l.meetBreak t := if_pos h

theorem next_token (h : t.item.isBreak = false) : l.next t = l.pass t := if_neg (by simp [h])

theorem behind_cons : l.behind (t :: ts) = (l.next t).behind ts := rfl

theorem behind_concat : l.behind (ts ++ [t]) = (l.behind ts).next t := by
  simp [behind]

/-- What is kept of a first part does not depend on the rest. -/
theorem keep_append : l.keep (ts ++ us) = l.keep ts ++ (l.behind ts).keep us := by
  induction ts generalizing l with
  | nil => rfl
  | cons t ts ih =>
    cases ht : t.item.isBreak with
    | true => rw [List.cons_append, keep_break ht, keep_break ht, ih, behind_cons, next_break ht]
    | false =>
      rw [List.cons_append, keep_token ht, keep_token ht, ih, behind_cons, next_token ht, List.append_assoc,
        List.cons_append]

theorem words_breakBefore (hpending : ∀ b ∈ l.pending, b.item.isBreak = true) :
    words (l.breakBefore t) = [] := by
  unfold breakBefore
  split
  · next b hb =>
    split
    · exact words_break (hpending b hb)
    · rfl
  · rfl

theorem pass_pending : (l.pass t).pending = none := by
  unfold pass
  dsimp only
  split <;> rfl

theorem meetBreak_pending (ht : t.item.isBreak = true) (hpending : ∀ b ∈ l.pending, b.item.isBreak = true) :
    ∀ b ∈ (l.meetBreak t).pending, b.item.isBreak = true := by
  unfold meetBreak
  split
  · exact hpending
  · cases hp : l.pending with
    | none => simpa using ht
    | some b => simpa [hp] using hpending

/-- All words are kept. -/
theorem words_keep (hpending : ∀ b ∈ l.pending, b.item.isBreak = true) : words (l.keep ts) = words ts := by
  induction ts generalizing l with
  | nil => rfl
  | cons t ts ih =>
    cases ht : t.item.isBreak with
    | true =>
      rw [keep_break ht, ih (meetBreak_pending ht hpending), ← List.singleton_append, words_append,
        words_break ht, List.nil_append]
    | false =>
      have hrest : words ((l.pass t).keep ts) = words ts := ih (by rw [pass_pending]; exact nofun)
      rw [keep_token ht, words_append, words_breakBefore hpending, List.nil_append,
        ← List.singleton_append, words_append, hrest, ← words_append, List.singleton_append]

/-! ### Columns -/

theorem opened_next (hopening : l.opening = true) : l.opened t = t.span.column :: l.columns := by
  simp [opened, hopening]

theorem opened_same (hopening : l.opening = false) : l.opened t = l.columns := by
  simp [opened, hopening]

theorem pass_opens (h : t.item.opensBlock = true) : l.pass t = ⟨l.opened t, none, true⟩ := by
  obtain ⟨item, s⟩ := t
  unfold Token.opensBlock at h
  split at h
  · next heq =>
    obtain rfl : item = .symbol .leftBrace := heq
    rfl
  · cases h

theorem pass_closes (h : t.item.closesBlock = true) : l.pass t =
    ⟨if 1 < (l.opened t).length then (l.opened t).tail else l.opened t, none, false⟩ := by
  obtain ⟨item, s⟩ := t
  unfold Token.closesBlock at h
  split at h
  · next heq =>
    obtain rfl : item = .symbol .rightBrace := heq
    rfl
  · cases h

theorem pass_stays (h : t.item.opensBlock = false) (h' : t.item.closesBlock = false) :
    l.pass t = ⟨l.opened t, none, false⟩ := by
  obtain ⟨item, s⟩ := t
  unfold pass
  dsimp only
  split
  · cases h
  · cases h'
  · rfl

theorem Knows.start : (start column).Knows column [] :=
  ⟨rfl, [], .nil, fun _ => rfl⟩

theorem Knows.meetBreak (h : l.Knows column before) : (l.meetBreak t).Knows column before := by
  unfold Layout.meetBreak
  split
  · exact h
  · exact ⟨h.opening, h.columns⟩

theorem Knows.pass (h : l.Knows column before) : (l.pass t).Knows column (before ++ [t]) := by
  obtain ⟨S, hblocks, hcolumns⟩ := h.columns
  have hmap (S : List (List (Located Token))) (next : Located Token) :
      (S.map (· ++ [t])).map (fun inside => (inside.headD next).span.column) =
        S.map fun inside => (inside.headD t).span.column := by
    simp only [List.map_map, Function.comp_def, headD_concat]
  refine ⟨?_, _, hblocks.push t, fun next => ?_⟩
  · rw [List.getLast?_concat, Option.any_some]
    cases hk : t.item.opensBlock with
    | true => rw [pass_opens hk]
    | false =>
      cases hclose : t.item.closesBlock with
      | true => rw [pass_closes hclose]
      | false => rw [pass_stays hk hclose]
  · unfold pushToken
    split
    · next hk =>
      rw [pass_opens hk, opened_next rfl, hcolumns, List.map_cons, hmap]
      rfl
    · next hk =>
      split
      · next hclose =>
        rw [pass_closes hclose, opened_same rfl, hcolumns, hmap]
        cases S <;> simp
      · next hclose =>
        rw [pass_stays (Bool.eq_false_iff.mpr hk) (Bool.eq_false_iff.mpr hclose), opened_same rfl, hcolumns,
          hmap]

/-- One more token, and with it all tokens. -/
theorem Knows.next (h : l.Knows column (words ts)) : (l.next t).Knows column (words (ts ++ [t])) := by
  rw [words_append]
  cases ht : t.item.isBreak with
  | true =>
    rw [next_break ht, words_break ht, List.append_nil]
    exact h.meetBreak
  | false =>
    rw [next_token ht, words_token ht]
    exact h.pass

theorem knows_behind (column : Nat) (ts : List (Located Token)) :
    ((start column).behind ts).Knows column (words ts) := by
  induction ts using List.reverseRecOn with
  | nil => exact .start
  | append_singleton ts t ih =>
    rw [behind_concat]
    exact ih.next

/-! ### Pending line breaks -/

theorem behind_pending (h : EndsPlain ts) : ((start column).behind ts).pending = none := by
  rcases List.eq_nil_or_concat' ts with rfl | ⟨front, t, rfl⟩
  · rfl
  · rw [behind_concat, next_token (h t (by simp)), pass_pending]

theorem behind_breaks (hbreaks : ∀ b ∈ ts, b.item.isBreak = true) : l.behind ts =
    if l.opening then l else { l with pending := l.pending.or ts.head? } := by
  induction ts generalizing l with
  | nil =>
    split
    · rfl
    · rw [List.head?_nil, Option.or_none]
      rfl
  | cons b ts ih =>
    obtain ⟨hb, hts⟩ := List.forall_mem_cons.mp hbreaks
    rw [behind_cons, next_break hb, ih hts]
    cases hopening : l.opening with
    | true => simp [meetBreak, hopening]
    | false => cases hp : l.pending <;> simp [meetBreak, hopening, hp]

/-- Line breaks alone are not kept. -/
theorem keep_breaks (hbreaks : ∀ b ∈ ts, b.item.isBreak = true) : l.keep ts = [] := by
  induction ts generalizing l with
  | nil => rfl
  | cons b ts ih =>
    obtain ⟨hb, hts⟩ := List.forall_mem_cons.mp hbreaks
    rw [keep_break hb, ih hts]

/-- A line break is significant if the layout says so. -/
theorem Knows.significant (h : l.Knows column before) (hcolumn : column = (before.headD t).span.column) :
    Significant before t ↔ l.opening = false ∧ t.item.continuesLine = false ∧
      l.columns.head? = some t.span.column := by
  obtain ⟨S, hblocks, hcolumns⟩ := h.columns
  have hopening : l.opening = false ↔ ∀ k ∈ before.getLast?, k.item.opensBlock = false := by
    rw [h.opening]
    cases before.getLast? <;> simp
  have hinnermost (hfalse : l.opening = false) :
      l.columns.head? = some ((S.headD before).headD t).span.column := by
    rw [← opened_same (t := t) hfalse, hcolumns, hcolumn]
    cases S <;> rfl
  constructor
  · rintro ⟨hbehind, hahead, inside, hinside, heq⟩
    have hfalse := hopening.mpr hbehind
    exact ⟨hfalse, hahead, by rw [hinnermost hfalse, heq, hblocks.innermost.mp hinside]⟩
  · rintro ⟨hfalse, hahead, hhead⟩
    refine ⟨hopening.mp hfalse, hahead, _, hblocks.innermost.mpr rfl, ?_⟩
    exact Option.some.inj (hhead.symm.trans (hinnermost hfalse))

/-- What is kept of a run of line breaks in front of a word. -/
theorem Knows.breakBefore (h : l.Knows column before) (hcolumn : column = (before.headD t).span.column)
    (hpending : l.pending = none) (hbreaks : ∀ b ∈ ts, b.item.isBreak = true) :
    Significant before t ∧ (l.behind ts).breakBefore t = ts.head?.toList ∨
      ¬ Significant before t ∧ (l.behind ts).breakBefore t = [] := by
  have hbefore : (l.behind ts).breakBefore t =
      if l.opening = false ∧ t.item.continuesLine = false ∧ l.columns.head? = some t.span.column
      then ts.head?.toList else [] := by
    rw [behind_breaks hbreaks]
    cases hopening : l.opening with
    | true => simp [Layout.breakBefore, hpending]
    | false => cases ts <;> simp [Layout.breakBefore, hpending]
  rw [h.significant hcolumn, hbefore]
  split
  · next hs => exact .inl ⟨hs, rfl⟩
  · next hs => exact .inr ⟨hs, rfl⟩

theorem keep_endsPlain : EndsPlain (l.keep ts) := by
  induction ts generalizing l with
  | nil => exact nofun
  | cons t ts ih =>
    cases ht : t.item.isBreak with
    | true =>
      rw [keep_break ht]
      exact ih
    | false =>
      intro u hu
      rw [keep_token ht, List.getLast?_append_cons, List.getLast?_cons] at hu
      cases hlast : ((l.pass t).keep ts).getLast? with
      | none =>
        rw [hlast] at hu
        cases hu
        exact ht
      | some v =>
        rw [hlast] at hu
        cases hu
        exact ih v hlast

theorem breakBefore_cases (l : Layout) (t : Located Token) :
    l.breakBefore t = [] ∨ ∃ b, l.pending = some b ∧ l.breakBefore t = [b] := by
  unfold breakBefore
  split
  · next b hb =>
    split
    · exact .inr ⟨b, hb, rfl⟩
    · exact .inl rfl
  · exact .inl rfl

/-- What is kept is kept again. -/
theorem keep_keep (hpending : ∀ b ∈ l.pending, b.item.isBreak = true)
    (hopening : l.opening = true → l.pending = none) :
    { l with pending := none }.keep (l.keep ts) = l.keep ts := by
  induction ts generalizing l with
  | nil => rfl
  | cons t ts ih =>
    cases ht : t.item.isBreak with
    | true =>
      have hsame : ({ l with pending := none } : Layout) = { l.meetBreak t with pending := none } := by
        unfold meetBreak
        split <;> rfl
      rw [keep_break ht, hsame]
      refine ih (meetBreak_pending ht hpending) fun hl => ?_
      unfold meetBreak at hl ⊢
      split at hl
      · next hopen => exact (congrArg pending (if_pos hopen)).trans (hopening hl)
      · next hopen => exact absurd hl hopen
    | false =>
      have hrest : (l.pass t).keep ((l.pass t).keep ts) = (l.pass t).keep ts := by
        have hsame : ({ l.pass t with pending := none } : Layout) = l.pass t := by
          rw [← pass_pending (l := l) (t := t)]
        have := ih (l := l.pass t) (by rw [pass_pending]; exact nofun) fun _ => pass_pending
        rwa [hsame] at this
      rw [keep_token ht]
      rcases breakBefore_cases l t with hnone | ⟨b, hb, hkept⟩
      · rw [hnone, List.nil_append, keep_token ht]
        exact congrArg (t :: ·) hrest
      · -- The line break that was kept is pending again in front of the same word.
        have hclosed : l.opening = false := by
          by_contra hopen
          rw [hopening (by simpa using hopen)] at hb
          cases hb
        have hmet : ({ l with pending := none } : Layout).meetBreak b = l := by
          rw [meetBreak, if_neg (by simp [hclosed]), Option.none_or, ← hb]
        rw [hkept, List.singleton_append, keep_break (hpending b hb), hmet, keep_token ht, hkept, hrest]
        rfl

end Layout

theorem firstColumn_words (ts : List (Located Token)) :
    firstColumn ts = ((words ts).head?.map (·.span.column)).getD 1 := by
  rw [words, List.head?_filter, firstColumn]
  cases ts.find? (!·.item.isBreak) <;> rfl

theorem words_significantBreaks (ts : List (Located Token)) : words (significantBreaks ts) = words ts :=
  Layout.words_keep nofun

theorem significantBreaks_significantBreaks (ts : List (Located Token)) :
    significantBreaks (significantBreaks ts) = significantBreaks ts := by
  have hcolumn : firstColumn (significantBreaks ts) = firstColumn ts := by
    rw [firstColumn_words, words_significantBreaks, firstColumn_words]
  rw [significantBreaks, hcolumn]
  exact Layout.keep_keep (l := .start (firstColumn ts)) (fun b hb => by cases hb) fun _ => rfl

/-- All words are kept, and of each run of line breaks the first one if the line break is significant there, and
none otherwise. Line breaks behind the last word are not kept. What is left does not change any more. -/
theorem significantBreaks_exact (ts : List (Located Token)) :
    words (significantBreaks ts) = words ts ∧ EndsPlain (significantBreaks ts) ∧
    (∀ before breaks next after, Gap ts before breaks next after → ∃ before' breaks' after',
      Gap (significantBreaks ts) before' breaks' next after' ∧
      words before' = words before ∧ words after' = words after ∧
      (Significant (words before) next ∧ breaks' = breaks.head?.toList ∨
        ¬ Significant (words before) next ∧ breaks' = [])) ∧
    significantBreaks (significantBreaks ts) = significantBreaks ts := by
  refine ⟨words_significantBreaks ts, Layout.keep_endsPlain, fun before breaks next after h => ?_,
    significantBreaks_significantBreaks ts⟩
  have hcolumn : firstColumn ts = ((words before).headD next).span.column := by
    have hnone : words breaks = [] := by
      rw [words, List.filter_eq_nil_iff]
      intro b hb
      simp [h.breaks b hb]
    rw [firstColumn_words, h.split, ← List.singleton_append, words_append, words_append, words_append, hnone,
      words_token h.next]
    cases words before <;> rfl
  let l := (Layout.start (firstColumn ts)).behind before
  have hgap := (Layout.knows_behind (firstColumn ts) before).breakBefore hcolumn
    (Layout.behind_pending h.before) h.breaks
  have hkeep : significantBreaks ts = (Layout.start (firstColumn ts)).keep before ++
      (l.behind breaks).breakBefore next ++ next :: ((l.behind breaks).pass next).keep after := by
    have hrest : l.keep (breaks ++ next :: after) =
        (l.behind breaks).breakBefore next ++ next :: ((l.behind breaks).pass next).keep after := by
      rw [Layout.keep_append, Layout.keep_breaks h.breaks, List.nil_append, Layout.keep_token h.next]
    calc significantBreaks ts
      _ = (Layout.start (firstColumn ts)).keep (before ++ (breaks ++ next :: after)) :=
        congrArg (Layout.start (firstColumn ts)).keep (h.split.trans (List.append_assoc ..))
      _ = _ := by rw [Layout.keep_append, hrest, List.append_assoc]
  refine ⟨_, _, _, ⟨hkeep, Layout.keep_endsPlain, fun b hb => ?_, h.next⟩, Layout.words_keep nofun,
    Layout.words_keep ?_, hgap⟩
  · rcases hgap with ⟨_, hgap⟩ | ⟨_, hgap⟩
    · rw [hgap] at hb
      exact h.breaks b (List.mem_of_mem_head? (Option.mem_toList.mp hb))
    · rw [hgap] at hb
      exact absurd hb List.not_mem_nil
  · rw [Layout.pass_pending]
    exact nofun

/-- Behind an opening brace and a name, the block of the brace is open. -/
theorem innermost_pair {brace name : Located Token} (hbrace : brace.item.opensBlock = true)
    (hname : name.item.opensBlock = false) (hclose : name.item.closesBlock = false) :
    Innermost [brace, name] [name] :=
  Blocks.innermost ((Blocks.nil.opens hbrace).stays hname hclose) |>.mpr rfl

/-- A block with two names in one column, and two line breaks between them. -/
def twoNames : List (Located Token) :=
  [⟨.symbol .leftBrace, ⟨0, 1, 1, 1⟩⟩, ⟨.name "a", ⟨2, 3, 1, 3⟩⟩, ⟨.lineBreak, ⟨3, 4, 1, 4⟩⟩,
    ⟨.lineBreak, ⟨4, 5, 2, 1⟩⟩, ⟨.name "b", ⟨7, 8, 3, 3⟩⟩]

/-- The first of them is kept. -/
theorem twoNames_break : ∃ before after, Gap (significantBreaks twoNames) before
    [⟨.lineBreak, ⟨3, 4, 1, 4⟩⟩] ⟨.name "b", ⟨7, 8, 3, 3⟩⟩ after := by
  have hgap : Gap twoNames (twoNames.take 2) ((twoNames.drop 2).take 2)
      ⟨.name "b", ⟨7, 8, 3, 3⟩⟩ [] :=
    ⟨rfl, by simp [twoNames, EndsPlain, Token.isBreak], by simp [twoNames, Token.isBreak], rfl⟩
  have hsignificant : Significant (words (twoNames.take 2)) ⟨.name "b", ⟨7, 8, 3, 3⟩⟩ :=
    ⟨by simp [twoNames, words, Token.isBreak, Token.opensBlock], rfl, _, innermost_pair rfl rfl rfl, rfl⟩
  obtain ⟨_, _, hbreaks, _⟩ := significantBreaks_exact twoNames
  obtain ⟨before, breaks, after, hkept, _, _, ⟨_, rfl⟩ | ⟨hnot, _⟩⟩ := hbreaks _ _ _ _ hgap
  · exact ⟨before, after, hkept⟩
  · exact absurd hsignificant hnot

end ClassLang
