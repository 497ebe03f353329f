import ClassLang.Proofs.Callees
import ClassLang.Proofs.Success
import ClassLang.Proofs.Stages
import Mathlib.Data.List.DropRight
import Mathlib.Data.List.GetD

/-!
# Lines of input

`Console.lines` cuts a text into lines without their terminators, where a carriage return belongs to the
terminator only if it stands directly in front of the line feed. `Image.readings_are_lines`: in every run the
n-th call of `in` returns the n-th line up to the carriage returns at its end, and the empty text behind the
last one. Nothing else of the text is lost, whatever its characters are and however they are encoded as bytes.

A line that ends in carriage returns of its own loses them (`marking_loses_return`), since reading drops
all line feeds and carriage returns from the end of a line and not one terminator.
-/

namespace ClassLang

namespace Console

/-- The lines of a text without their terminators: a line feed, or a carriage return and a line feed. The last
line may have none. -/
def lines : List Char → List (List Char)
  | [] => []
  | '\n' :: cs => [] :: lines cs
  | '\r' :: '\n' :: cs => [] :: lines cs
  | c :: cs =>
    match lines cs with
    | [] => [[c]]
    | line :: rest => (c :: line) :: rest

namespace InputLemmas

/-! ## Texts as bytes -/

section Bytes

variable {α : Type} {isEnd : α → Bool}

/-- Elements that end no line all go to the front of the first one. -/
theorem cutLines_append {x : α} {xs : List α} (ys : List α) (h : ∀ y ∈ x :: xs, isEnd y = false) :
    cutLines isEnd (x :: xs ++ ys) =
      match cutLines isEnd ys with
      | [] => [x :: xs]
      | line :: lines => (x :: xs ++ line) :: lines := by
  induction xs generalizing x with
  | nil =>
    rw [List.cons_append, cutLines, if_neg (by simp [h x (by simp)]), List.nil_append]
    cases cutLines isEnd ys <;> rfl
  | cons y xs ih =>
    rw [List.cons_append, cutLines, if_neg (by simp [h x (by simp)]),
      ih fun z hz => h z (List.mem_cons_of_mem _ hz)]
    cases cutLines isEnd ys <;> rfl

end Bytes

/-- The byte of a line feed is no part of another character. -/
theorem utf8EncodeChar_not_feed {c : Char} (hc : c ≠ '\n') :
    ∀ b ∈ String.utf8EncodeChar c, (b == 10) = false := by
  have hv : c.val.toNat ≠ 10 := fun h => hc (Char.ext (UInt32.toNat_inj.mp h))
  have byte (n : Nat) (hn : n % 256 ≠ 10) : (UInt8.ofNat n == 10) = false :=
    beq_eq_false_iff_ne.mpr fun h => hn (by simpa using congrArg UInt8.toNat h)
  intro b hb
  simp only [String.utf8EncodeChar] at hb
  split_ifs at hb
  all_goals
    simp only [List.mem_cons, List.not_mem_nil, or_false] at hb
    rcases hb with rfl | rfl | rfl | rfl <;> exact byte _ (by omega)

theorem utf8EncodeChar_ne_nil (c : Char) : String.utf8EncodeChar c ≠ [] := by
  simp only [String.utf8EncodeChar]
  split_ifs <;> simp

/-- The lines of encoded text are the lines of the text, encoded. -/
theorem cutLines_utf8 (cs : List Char) :
    cutLines (· == 10) (cs.flatMap String.utf8EncodeChar) =
      (cutLines (· == '\n') cs).map (List.flatMap String.utf8EncodeChar) := by
  induction cs with
  | nil => rfl
  | cons c cs ih =>
    rw [List.flatMap_cons]
    by_cases hc : c = '\n'
    · subst hc
      exact congrArg ([10] :: ·) ih
    · obtain ⟨b, bs, hbytes⟩ := List.exists_cons_of_ne_nil (utf8EncodeChar_ne_nil c)
      rw [hbytes, cutLines_append _ (hbytes ▸ utf8EncodeChar_not_feed hc), ih, cutLines,
        if_neg (by simpa using hc)]
      cases cutLines (· == '\n') cs <;> simp [hbytes]

theorem lineOfBytes_utf8 (cs : List Char) : lineOfBytes (cs.flatMap String.utf8EncodeChar) = .text cs := by
  have hbytes : (⟨(cs.flatMap String.utf8EncodeChar).toArray⟩ : ByteArray) = cs.utf8Encode :=
    ByteArray.ext List.data_toByteArray.symm
  have hread : String.fromUTF8? cs.utf8Encode = some (String.ofList cs) := by
    rw [String.fromUTF8?, dif_pos ByteArray.isValidUTF8_utf8Encode]
    exact congrArg some (String.toByteArray_inj.mp String.toByteArray_ofList.symm)
  simp only [lineOfBytes, hbytes, hread, String.toList_ofList]

/-! ## Terminators -/

theorem rdropWhile_cons {α : Type} (p : α → Bool) (x : α) (xs : List α) :
    (x :: xs).rdropWhile p = if xs.rdropWhile p = [] then [x].rdropWhile p else x :: xs.rdropWhile p := by
  simp only [List.rdropWhile, List.reverse_cons, List.dropWhile_append, List.isEmpty_iff,
    List.reverse_eq_nil_iff, List.reverse_nil, List.nil_append]
  split_ifs <;> simp

/-- What is read of a line is the line without its terminator and without the carriage returns in front. -/
theorem cutLines_withoutEnd (cs : List Char) :
    (cutLines (· == '\n') cs).map withoutEnd =
      (lines cs).map fun line => String.ofList (line.rdropWhile (· == '\r')) := by
  have hend (line : List Char) :
      withoutEnd line = String.ofList (line.rdropWhile fun c => c == '\n' || c == '\r') := rfl
  have single {c : Char} (hc : c ≠ '\n') :
      [c].rdropWhile (fun c => c == '\n' || c == '\r') = [c].rdropWhile (· == '\r') := by
    simp [List.rdropWhile, List.dropWhile_cons, hc]
  fun_induction lines cs with
  | case1 => rfl
  | case2 cs ih => exact congrArg ("" :: ·) ih
  | case3 cs ih => exact congrArg ("" :: ·) ih
  | case4 c cs hfeed hreturn hnil ih =>
    rw [hnil, List.map_nil, List.map_eq_nil_iff] at ih
    have hc : c ≠ '\n' := hfeed
    simp only [cutLines, beq_iff_eq, hc, if_false, ih, List.map_cons, List.map_nil, hend, single hc]
  | case5 c cs hfeed hreturn line rest hcons ih =>
    have hc : c ≠ '\n' := hfeed
    rw [hcons, List.map_cons] at ih
    obtain ⟨first, others, hcut, hfirst, hothers⟩ := List.map_eq_cons_iff.mp ih
    rw [hend, String.ofList_inj] at hfirst
    simp only [cutLines, beq_iff_eq, hc, if_false, hcut, List.map_cons, hothers, hend]
    rw [rdropWhile_cons _ c first, rdropWhile_cons _ c line, hfirst, single hc]

end InputLemmas

open InputLemmas

/-- The bytes of a text are read as the text. -/
theorem ofBytes_utf8 (input : String) : ofBytes input.toUTF8.data.toList = ofText input := by
  have hbytes : input.toUTF8.data.toList = input.toList.flatMap String.utf8EncodeChar := by
    rw [String.toUTF8_eq_toByteArray, ← String.utf8Encode_toList]
    exact List.toList_data_toByteArray
  rw [ofBytes, hbytes, cutLines_utf8, List.map_map, ofText]
  congr 1
  exact List.map_congr_left fun line _ => lineOfBytes_utf8 line

end Console

/-! ## Steps -/

theorem Console.readLine_text {console : Console} {ls : List (List Char)}
    (hpending : console.pending = ls.map .text) :
    console.readLine = (.ok (withoutEnd (ls.headD [])), { console with pending := ls.tail.map .text }) := by
  obtain ⟨pending, output⟩ := console
  subst hpending
  cases ls <;> rfl

/-- A native other than `in` takes no line away, and `in` itself none without the receiver that it takes. -/
theorem Native.call_pending {image : Image} {heap : Heap} {console : Console} {native : Native}
    {args : List Value} (h : native = .consoleIn → ∀ receiver, args ≠ [receiver]) :
    (native.call image heap console args).2.pending = console.pending := by
  unfold call apply
  split
  · rfl
  · next receiver => exact absurd rfl (h rfl receiver)
  · rfl

/-- The operand that an instruction leaves on top, if the machine goes on. -/
def Outcome.top? : Outcome → Option Value
  | .next m => m.frame.stack.head?
  | .halt .. | .fault .. => none

namespace Machine

/-- The next instruction calls `in` on the receiver that it takes. -/
def reads (image : Image) (m : Machine) : Bool :=
  match m.called? image with
  | some (.native .consoleIn _, [_]) => true
  | _ => false

variable {image : Image} {m m' : Machine} {ls : List (List Char)}

/-- A call of `in` returns the first of the lines that are left, and takes no other away. -/
theorem step_of_reads (h : m.reads image = true) (hpending : m.console.pending = ls.map .text) :
    ∃ m', m.step image = .next m' ∧
      m'.frame.stack.head? = some (.string (Console.withoutEnd (ls.headD []))) ∧
      m'.console.pending = ls.tail.map .text := by
  unfold reads at h
  split at h
  · next n receiver hcalled =>
    obtain ⟨m₁, hconsole, hstep⟩ := step_of_called hcalled
    rw [← hconsole] at hpending
    have hnext : m.step image = .next { m₁ with
        frame := m₁.frame.push (.string (Console.withoutEnd (ls.headD [])))
        console := { m₁.console with pending := ls.tail.map .text } } := by
      simp only [hstep, call, Native.call, Native.apply, Console.readLine_text hpending, Except.map]
    exact ⟨_, hnext, rfl, rfl⟩
  · cases h

/-- No other step takes a line away. -/
theorem pending_of_not_reads (h : m.reads image = false) (hstep : m.step image = .next m') :
    m'.console.pending = m.console.pending := by
  cases hcalled : m.called? image with
  | none => rw [console_of_not_called hcalled hstep]
  | some target =>
    obtain ⟨body, args⟩ := target
    obtain ⟨m₁, hconsole, hcall⟩ := step_of_called hcalled
    rw [hcall] at hstep
    rw [← hconsole]
    cases body with
    | compiled chunk =>
      cases hstep
      rfl
    | native native arguments =>
      have hother : native = .consoleIn → ∀ receiver, args ≠ [receiver] := by
        rintro rfl receiver rfl
        simp [reads, hcalled] at h
      have hkept : (native.call image m₁.heap m₁.console args).2.pending = m₁.console.pending :=
        Native.call_pending hother
      simp only [call] at hstep
      split at hstep
      · next v console hresult =>
        cases hstep
        rwa [hresult] at hkept
      · cases hstep

/-! ## Runs -/

/-- What the calls of `in` in a number of steps return, in their order. One that stops the machine returns
nothing. -/
def readings (image : Image) : Nat → Machine → List (Option Value)
  | 0, _ => []
  | bound + 1, m =>
    let later :=
      match m.step image with
      | .next m' => readings image bound m'
      | .halt .. | .fault .. => []
    if m.reads image then (m.step image).top? :: later else later

/-- A run from a state with lines ahead returns them in turn. -/
theorem readings_of_pending {bound n : Nat} {r : Option Value} (hpending : m.console.pending = ls.map .text)
    (h : (m.readings image bound)[n]? = some r) : r = some (.string (Console.withoutEnd (ls.getD n []))) := by
  induction bound generalizing m ls n with
  | zero => cases h
  | succ bound ih =>
    cases hreads : m.reads image with
    | true =>
      obtain ⟨m', hstep, htop, hpending'⟩ := step_of_reads hreads hpending
      simp only [readings, hstep, hreads, if_true, Outcome.top?, htop] at h
      cases n with
      | zero => cases ls <;> cases h <;> rfl
      | succ n =>
        have hn := ih hpending' h
        cases ls <;> simpa using hn
    | false =>
      simp only [readings, hreads, Bool.false_eq_true, if_false] at h
      split at h
      · next m' hstep => exact ih ((pending_of_not_reads hreads hstep).trans hpending) h
      all_goals cases h

end Machine

/-- What the calls of `in` in a run return. -/
def Image.readings (image : Image) (bound : Nat) (console : Console) : List (Option Value) :=
  (Machine.start image console).readings image bound

namespace Console

/-- A line without the carriage returns at its end. -/
theorem exists_returns (line : List Char) :
    ∃ k, line = line.rdropWhile (· == '\r') ++ List.replicate k '\r' ∧
      (line.rdropWhile (· == '\r')).getLast? ≠ some '\r' := by
  refine ⟨(line.rtakeWhile (· == '\r')).length, ?_, fun hlast => ?_⟩
  · have hreturns : line.rtakeWhile (· == '\r') = List.replicate (line.rtakeWhile (· == '\r')).length '\r' :=
      List.eq_replicate_of_mem fun c hc => by simpa using List.mem_rtakeWhile_imp hc
    rw [← hreturns, List.rdropWhile_append_rtakeWhile]
  · have hne : line.rdropWhile (· == '\r') ≠ [] := by
      intro hnil
      simp [hnil] at hlast
    rw [List.getLast?_eq_some_getLast hne, Option.some_inj] at hlast
    exact List.rdropWhile_last_not (· == '\r') line hne (by simp [hlast])

open InputLemmas in
theorem getD_cutLines (input : List Char) (n : Nat) :
    withoutEnd ((cutLines (· == '\n') input).getD n []) =
      String.ofList (((lines input).getD n []).rdropWhile (· == '\r')) := by
  have hn := congrArg (·.getD n "") (cutLines_withoutEnd input)
  rwa [show "" = withoutEnd [] from rfl, List.getD_map, show withoutEnd [] = (fun line =>
    String.ofList (line.rdropWhile (· == '\r'))) [] from rfl, List.getD_map] at hn

end Console

/-- In every run on the bytes of a text, each call of `in` returns a text: the n-th call the n-th line of the
input, or the empty one if there is none, without the carriage returns at its end. -/
theorem Image.readings_are_lines (image : Image) (input : String) (bound n : Nat) (r : Option Value)
    (h : (image.readings bound (.ofBytes input.toUTF8.data.toList))[n]? = some r) :
    ∃ text k, r = some (.string text) ∧
      (Console.lines input.toList).getD n [] = text.toList ++ List.replicate k '\r' ∧
      text.toList.getLast? ≠ some '\r' := by
  rw [Console.ofBytes_utf8] at h
  have hr := Machine.readings_of_pending (m := .start image (.ofText input)) rfl h
  rw [Console.getD_cutLines] at hr
  obtain ⟨k, hline, hlast⟩ := Console.exists_returns ((Console.lines input.toList).getD n [])
  exact ⟨_, k, hr, by rwa [String.toList_ofList], by rwa [String.toList_ofList]⟩

/-- A program that reads a line and writes it with a mark behind it. -/
def marking : String :=
  "class Main : IO\n\x7b\n public new()\n \x7b\n this.out(this.in() + \"|\")\n \x7d\n\x7d\n"

theorem marking_readings : ∃ image, Image.ofSource marking = .ok image ∧
    image.readings 20 (.ofBytes "a\r\r\n".toUTF8.data.toList) = [some (.string "a")] := by
  have hread : (Image.ofSource marking).toOption.map (fun image =>
      (image.readings 20 (.ofText "a\r\r\n")).map (·.bind (·.asString.toOption))) = some [some "a"] := by
    decide +kernel
  obtain ⟨image, himage, hread⟩ := Option.map_eq_some_iff.mp hread
  obtain ⟨r, hreadings, hr⟩ := List.map_eq_singleton_iff.mp hread
  obtain ⟨v, rfl, hv⟩ := Option.bind_eq_some_iff.mp hr
  refine ⟨image, toOption_eq_some.mp himage, ?_⟩
  rw [Console.ofBytes_utf8, hreadings]
  cases v <;> cases hv
  rfl

/-- The line is `a` and a carriage return, and what is read of it is `a`. -/
theorem marking_loses_return : ∃ image, Image.ofSource marking = .ok image ∧
    (image.readings 20 (.ofBytes "a\r\r\n".toUTF8.data.toList))[0]? ≠
      some (some (.string (String.ofList ((Console.lines "a\r\r\n".toList).getD 0 [])))) := by
  obtain ⟨image, himage, hreadings⟩ := marking_readings
  have hline : String.ofList ((Console.lines "a\r\r\n".toList).getD 0 []) = "a\r" := by decide
  refine ⟨image, himage, ?_⟩
  rw [hreadings, hline]
  simp

theorem marking_reads_line : ∃ image, Image.ofSource marking = .ok image ∧
    ∃ r, (image.readings 20 (.ofBytes "a\r\r\n".toUTF8.data.toList))[0]? = some r ∧
      ∃ text k, r = some (.string text) ∧
        (Console.lines "a\r\r\n".toList).getD 0 [] = text.toList ++ List.replicate k '\r' ∧
        text.toList.getLast? ≠ some '\r' := by
  obtain ⟨image, himage, hreadings⟩ := marking_readings
  have hfirst : (image.readings 20 (.ofBytes "a\r\r\n".toUTF8.data.toList))[0]? =
      some (some (.string "a")) := by
    rw [hreadings]
    rfl
  exact ⟨image, himage, _, hfirst, Image.readings_are_lines image _ 20 0 _ hfirst⟩

end ClassLang
