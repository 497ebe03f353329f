import ClassLang.Image.Json
import ClassLang.Proofs.JsonText
import Mathlib.Data.List.Basic
import Mathlib.Data.List.Forall2

/-!
# Images survive being kept

An image is read back as it was from the value that it is kept as and from the text of that value
(`Image.load_saved`).

Each part of an image has one lemma: the value written for it is proper, and it is read as the part
(`Json.Carries`). Lists, structures and variants put such values together. The bodies of a construct are
an object, whose fields may be written in any order; a table is the same whatever the order in which its
entries arrive, since it keeps them ascending.

Two things are asked of an image. Its operands and counts have the width that the format reads
(`Image.Fits`), and its numbers are finite and come back from their numerals, which reading does not
promise for every double.
-/

namespace ClassLang

/-! ## Shapes -/

namespace Json

/-- A proper value that is read as `x`. -/
structure Carries {α : Type} (read? : Json → Option α) (x : α) (j : Json) : Prop where
  proper : j.Proper
  back : read? j = some x

theorem variant_ofString (s : String) : (ofString s).variant? = some (s, none) := by
  simp [ofString, variant?, decode_encode]

theorem variant_variant (name : String) (payload : Json) :
    (variant name payload).variant? = some (name, some payload) := by
  simp [variant, ofFields, variant?, decode_encode]

theorem plainVariant_ofString (s : String) : (ofString s).plainVariant? = some s := by
  rw [plainVariant?, variant_ofString]

theorem plainVariant_variant (name : String) {payload : Json} (h : payload ≠ .null) :
    (variant name payload).plainVariant? = none := by
  rw [plainVariant?, variant_variant]
  cases payload <;> first | rfl | exact absurd rfl h

theorem ofFields_proper {fields : List (String × Json)} (h : ∀ f ∈ fields, f.2.Proper) :
    (ofFields fields).Proper := by
  refine .object (fun f hf => ?_) fun f hf => ?_
  all_goals obtain ⟨e, he, rfl⟩ := List.mem_map.mp hf
  · exact encode_isLiteral e.1
  · exact h e he

theorem variant_proper {name : String} {payload : Json} (h : payload.Proper) :
    (variant name payload).Proper := ofFields_proper (by simpa using h)

theorem ofNat_carries {n bits : Nat} (h : n < Nat.pow 2 bits) : Carries (toNat? bits) n (.ofNat n) :=
  ⟨.number (ofNat_proper n), toNat_ofNat h⟩

namespace RoundTripLemmas

theorem mapM_some {α β : Type} {f : β → Option α} {g : α → β} {l : List α}
    (h : ∀ x ∈ l, f (g x) = some x) : (l.map g).mapM f = some l := by
  induction l with
  | nil => rfl
  | cons x l ih =>
    obtain ⟨hx, hl⟩ := List.forall_mem_cons.mp h
    simp [hx, ih hl]

/-- Of fields with different names each is found. -/
theorem field_of_mem {fields : List (String × Json)} (h : (fields.map (·.1)).Nodup)
    {f : String × Json} (hf : f ∈ fields) : field? f.1 fields = some (some f.2) := by
  have honly : fields.filter (·.1 == f.1) = [f] := by
    induction fields with
    | nil => cases hf
    | cons e es ih =>
      obtain ⟨he, hes⟩ := List.nodup_cons.mp h
      rcases List.mem_cons.mp hf with rfl | hf
      · have hnone : es.filter (·.1 == f.1) = [] := List.filter_eq_nil_iff.mpr fun e' he' heq =>
          he (List.mem_map.mpr ⟨e', he', by simpa using heq⟩)
        rw [List.filter_cons_of_pos (by simp), hnone]
      · have hne : (e.1 == f.1) = false := beq_eq_false_iff_ne.mpr fun heq =>
          he (List.mem_map.mpr ⟨f, hf, heq.symm⟩)
        rw [List.filter_cons_of_neg (by simp [hne]), ih hes hf]
  rw [field?, honly]

end RoundTripLemmas

open RoundTripLemmas

theorem structure_ofFields {fields : List (String × Json)} (h : (fields.map (·.1)).Nodup) :
    (ofFields fields).structure? (fields.map (·.1)) = some (fields.map fun f => some f.2) := by
  have hnamed : (fields.map fun f => (encode f.1, f.2)).mapM
      (fun f => do return (← decode? f.1, f.2)) = some fields :=
    mapM_some fun f _ => by simp [decode_encode]
  have hall : ∀ l ⊆ fields, (l.map (·.1)).mapM (field? · fields) = some (l.map fun f => some f.2) := by
    intro l
    induction l with
    | nil => exact fun _ => rfl
    | cons f l ih =>
      intro hl
      obtain ⟨hf, hl⟩ := List.cons_subset.mp hl
      simp [field_of_mem h hf, ih hl]
  exact Option.bind_eq_some_iff.mpr ⟨fields, hnamed, hall fields (List.Subset.refl _)⟩

theorem toList_carries {α : Type} {read? : Json → Option α} {xs : List α} {js : List Json}
    (h : List.Forall₂ (Carries read?) xs js) : Carries (toList? read?) xs (.array js) := by
  induction h with
  | nil => exact ⟨.array (by simp), rfl⟩
  | @cons x j xs js hx _ ih =>
    obtain ⟨hproper, hback⟩ := ih
    cases hproper with | array hjs =>
    simp only [toList?] at hback
    exact ⟨.array (List.forall_mem_cons.mpr ⟨hx.proper, hjs⟩), by simp [toList?, hx.back, hback]⟩

theorem map_carries {α : Type} {read? : Json → Option α} {write : α → Json} {xs : List α}
    (h : ∀ x ∈ xs, Carries read? x (write x)) : Carries (toList? read?) xs (.array (xs.map write)) :=
  toList_carries (List.forall₂_map_right_iff.mpr (List.forall₂_same.mpr h))

/-! ## Doubles -/

namespace RoundTripLemmas

open Float.Model in
/-- The exponent field of a finite double is not full. -/
theorem field_of_isFinite {x : Float} (h : x.isFinite = true) :
    x.toBits.toNat / Nat.pow 2 52 % Nat.pow 2 11 ≠ 2047 := by
  intro hfield
  have hexponent : @UnpackedFloat.unpackExponent Format.binary64 x.toModel.toBits.toBitVec = -1#11 := by
    apply BitVec.eq_of_toNat_eq
    change (x.toBits.toNat >>> 52) % Nat.pow 2 11 = 2047
    rw [Nat.shiftRight_eq_div_pow]
    exact hfield
  have hinfinite : x.isFinite = false := by
    unfold Float.isFinite Float.Model.isFinite Float.Model.unpack UnpackedFloat.unpack
    dsimp only
    rw [if_pos hexponent]
    split <;> rfl
  rw [hinfinite] at h
  cases h

/-- Every finite double can be written. -/
theorem ofFloat_isSome {x : Float} (h : x.isFinite = true) : ∃ n, Numeral.ofFloat? x = some n := by
  have hshape : ∃ negative mantissa exponent,
      Number.Shape.ofFloat x = .finite negative mantissa exponent := by
    unfold Number.Shape.ofFloat
    simp only [if_neg (field_of_isFinite h)]
    split <;> exact ⟨_, _, _, rfl⟩
  obtain ⟨negative, mantissa, exponent, hshape⟩ := hshape
  simp only [Numeral.ofFloat?, hshape]
  split <;> exact ⟨_, rfl⟩

end RoundTripLemmas

end Json

/-! ## Keys and constants -/

open Json RoundTripLemmas

theorem BinaryOp.ofImageName_imageName (op : BinaryOp) : ofImageName? op.imageName = some op := by
  cases op <;> rfl

theorem UnaryOp.ofImageName_imageName (op : UnaryOp) : ofImageName? op.imageName = some op := by
  cases op <;> rfl

theorem Native.ofText_text (operation : Native) : ofText? operation.text = some operation := by
  cases operation <;> rfl

theorem MemberKey.carries (key : MemberKey) : Carries ofJson? key key.toJson := by
  have hplain (name s : String) : (variant name (.ofString s)).plainVariant? = none :=
    plainVariant_variant name (by simp [ofString])
  cases key with
  | named name =>
    refine ⟨variant_proper (ofString_proper name), ?_⟩
    simp [toJson, ofJson?, hplain, variant_variant, toString_ofString]
  | binary op =>
    refine ⟨variant_proper (ofString_proper _), ?_⟩
    simp [toJson, ofJson?, hplain, variant_variant, plainVariant_ofString,
      BinaryOp.ofImageName_imageName]
  | unary op =>
    refine ⟨variant_proper (ofString_proper _), ?_⟩
    simp [toJson, ofJson?, hplain, variant_variant, plainVariant_ofString,
      UnaryOp.ofImageName_imageName]
  | constructor => exact ⟨ofString_proper _, by simp [toJson, ofJson?, plainVariant_ofString]⟩
  | initializer => exact ⟨ofString_proper _, by simp [toJson, ofJson?, plainVariant_ofString]⟩

/-- A finite number whose numeral is read as the number. -/
def Constant.Legible : Constant → Prop
  | .number x => x.isFinite = true ∧ ∀ n, Numeral.ofFloat? x = some n → n.toFloat? = some x
  | .string _ => True

theorem Constant.carries {c : Constant} (h : c.Legible) : Carries ofJson? c c.toJson := by
  cases c with
  | number x =>
    obtain ⟨hfinite, hkept⟩ := h
    obtain ⟨n, hn⟩ := ofFloat_isSome hfinite
    have hjson : (Constant.number x).toJson = .variant "Number" (.number n) := by simp [toJson, hn]
    have hfloat : (Json.number n).toFloat? = some x := hkept n hn
    refine ⟨hjson ▸ variant_proper (.number (ofFloat_proper hn)), ?_⟩
    simp [hjson, ofJson?, variant_variant, hfloat]
  | string s =>
    refine ⟨variant_proper (ofString_proper s), ?_⟩
    simp [toJson, ofJson?, variant_variant, toString_ofString]

/-! ## Instructions -/

namespace Instr

/-- The operands have the width that the format gives them. -/
def Fits : Instr → Prop
  | .pushConst n | .new n | .jump n | .jumpIfFalse n => n < Nat.pow 2 32
  | .load n | .store n | .getField n | .setField n => n < Nat.pow 2 16
  | .invoke c m | .callVirtual c m | .virtualOrAny c m => c < Nat.pow 2 32 ∧ m < Nat.pow 2 32
  | .isInstance c _ | .cast c _ => c < Nat.pow 2 32
  | _ => True

/-- An instruction without operands is read from its name. -/
theorem plain_carries {i : Instr} (hjson : i.toJson = .ofString i.imageName)
    (hfind : plain.find? (·.imageName == i.imageName) = some i) : Carries ofJson? i i.toJson := by
  refine ⟨hjson ▸ ofString_proper _, ?_⟩
  rw [hjson, ofJson?, plainVariant_ofString, Option.bind_some, hfind]

/-- An instruction with operands is read from its name and its operands. -/
theorem withOperands_carries {i : Instr} {operands : Json} (hjson : i.toJson = .variant i.imageName operands)
    (hproper : operands.Proper) (hne : operands ≠ .null)
    (hread : withOperands? i.imageName operands = some i) : Carries ofJson? i i.toJson := by
  refine ⟨hjson ▸ variant_proper hproper, ?_⟩
  rw [hjson, ofJson?, plainVariant_variant _ hne, variant_variant]
  exact hread

theorem call_callJson {make : Nat → Nat → Instr} {c m : Nat} (hc : c < Nat.pow 2 32) (hm : m < Nat.pow 2 32) :
    call? make (callJson c m) = some (make c m) := by
  have hfields : (callJson c m).structure? ["construct", "member"] =
      some [some (.ofNat c), some (.ofNat m)] := structure_ofFields (by simp)
  simp [call?, hfields, toNat_ofNat hc, toNat_ofNat hm]

theorem test_testJson {make : Nat → Bool → Instr} {c : Nat} {nullable : Bool} (hc : c < Nat.pow 2 32) :
    test? make (testJson c nullable) = some (make c nullable) := by
  have hfields : (testJson c nullable).structure? ["construct", "nullable"] =
      some [some (.ofNat c), some (.boolean nullable)] := structure_ofFields (by simp)
  simp [test?, hfields, toNat_ofNat hc, toBool?]

theorem callJson_proper (c m : Nat) : (callJson c m).Proper :=
  ofFields_proper (by simp [Json.ofNat, Proper.number, ofNat_proper])

theorem testJson_proper (c : Nat) (nullable : Bool) : (testJson c nullable).Proper :=
  ofFields_proper (by simp [Json.ofNat, Proper.number, Proper.boolean, ofNat_proper])

theorem carries {i : Instr} (h : i.Fits) : Carries ofJson? i i.toJson := by
  have hnumber (n : Nat) : (Json.ofNat n).Proper := .number (ofNat_proper n)
  cases i with
  | pushConst n | new n | jump n | jumpIfFalse n | load n | store n | getField n | setField n =>
    refine withOperands_carries rfl (hnumber n) (by simp [Json.ofNat]) ?_
    simp [withOperands?, imageName, toNat_ofNat h]
  | invoke c m | callVirtual c m | virtualOrAny c m =>
    exact withOperands_carries rfl (callJson_proper c m) (by simp [callJson, ofFields])
      (call_callJson h.1 h.2)
  | isInstance c nullable | cast c nullable =>
    exact withOperands_carries rfl (testJson_proper c nullable) (by simp [testJson, ofFields])
      (test_testJson h)
  | binary op | unary op => cases op <;> exact plain_carries rfl rfl
  | _ => exact plain_carries rfl rfl

end Instr

/-! ## Chunks and bodies -/

namespace Chunk

/-- The instructions and the counts have the width that the format gives them. -/
structure Fits (c : Chunk) : Prop where
  code : ∀ i ∈ c.code.toList, i.Fits
  arguments : c.arguments < Nat.pow 2 64
  locals : c.locals < Nat.pow 2 64

theorem carries {c : Chunk} (h : c.Fits) : Carries ofJson? c c.toJson := by
  have hcode : Carries (toList? Instr.ofJson?) c.code.toList (.array (c.code.toList.map Instr.toJson)) :=
    map_carries fun i hi => Instr.carries (h.code i hi)
  have harguments := ofNat_carries h.arguments
  have hlocals := ofNat_carries h.locals
  have hfields : c.toJson.structure? ["code", "arguments", "locals"] =
      some [some (.array (c.code.toList.map Instr.toJson)), some (.ofNat c.arguments),
        some (.ofNat c.locals)] := structure_ofFields (by simp)
  refine ⟨ofFields_proper (by simp [hcode.proper, harguments.proper, hlocals.proper]), ?_⟩
  simp [ofJson?, hfields, hcode.back, harguments.back, hlocals.back]

end Chunk

namespace Body

/-- The counts and operands of a body have the width that the format gives them. -/
def Fits : Body → Prop
  | .native _ arguments => arguments < Nat.pow 2 64
  | .compiled chunk => chunk.Fits

theorem carries {b : Body} (h : b.Fits) : Carries ofJson? b b.toJson := by
  cases b with
  | native operation arguments =>
    have harguments := ofNat_carries h
    have hfields : (ofFields [("id", .ofString operation.text), ("arguments", .ofNat arguments)]).structure?
        ["id", "arguments"] = some [some (.ofString operation.text), some (.ofNat arguments)] :=
      structure_ofFields (by simp)
    refine ⟨variant_proper (ofFields_proper (by simp [ofString_proper, harguments.proper])), ?_⟩
    simp [toJson, ofJson?, variant_variant, hfields, plainVariant_ofString, Native.ofText_text,
      harguments.back]
  | compiled chunk =>
    have hchunk := Chunk.carries h
    refine ⟨variant_proper hchunk.proper, ?_⟩
    simp [toJson, ofJson?, variant_variant, hchunk.back]

end Body

/-! ## Tables -/

namespace BodyTable

/-- The object of the entries in a given order. -/
def entriesJson (entries : List (Nat × Body)) : Json :=
  .object (entries.map fun e => (Number.digitsOf e.1, e.2.toJson))

theorem member_digitsOf {m : Nat} (h : m < Nat.pow 2 32) : member? (Number.digitsOf m) = some m := by
  have hread : readWhole? (Number.digitsOf m ++ []) = some (Number.digitsOf m, []) :=
    TextLemmas.readWhole_append (ofNat_proper m).whole (ofNat_proper m).wholeDigits
      (ofNat_proper m).leading (by simp)
  rw [List.append_nil] at hread
  rw [member?, hread]
  simp only [Number.ofDigits_digitsOf]
  exact Option.filter_eq_some_iff.mpr ⟨rfl, by simpa using h⟩

/-- A new entry is added to the others. -/
theorem insertEntry_perm {m : Nat} {b : Body} {es : List (Nat × Body)} (h : m ∉ es.map (·.1)) :
    (insertEntry m b es).Perm ((m, b) :: es) := by
  induction es with
  | nil => exact .refl _
  | cons e es ih =>
    obtain ⟨hne, hes⟩ := List.ne_and_not_mem_of_not_mem_cons h
    simp only [insertEntry, if_neg hne]
    split
    · exact .refl _
    · exact ((ih hes).cons e).trans (.swap _ _ _)

/-- Entries of different members that a table does not have are added to it. -/
theorem addEntries_perm {entries : List (Nat × Body)} {t : BodyTable}
    (hfits : ∀ e ∈ entries, e.1 < Nat.pow 2 32 ∧ e.2.Fits)
    (hnodup : (entries.map (·.1)).Nodup)
    (hnew : ∀ e ∈ entries, e.1 ∉ t.entries.map (·.1)) :
    ∃ t', addEntries? t (entries.map fun e => (Number.digitsOf e.1, e.2.toJson)) = some t' ∧
      t'.entries.Perm (entries ++ t.entries) := by
  induction entries generalizing t with
  | nil => exact ⟨t, rfl, .refl _⟩
  | cons e entries ih =>
    obtain ⟨m, b⟩ := e
    obtain ⟨⟨hm, hb⟩, hfits⟩ := List.forall_mem_cons.mp hfits
    obtain ⟨hfresh, hnodup⟩ := List.nodup_cons.mp hnodup
    obtain ⟨hnewm, hnew⟩ := List.forall_mem_cons.mp hnew
    have hperm : (t.insert m b).entries.Perm ((m, b) :: t.entries) := insertEntry_perm hnewm
    have hnew' : ∀ e ∈ entries, e.1 ∉ (t.insert m b).entries.map (·.1) := by
      intro e he hin
      rcases List.mem_cons.mp ((hperm.map (·.1)).mem_iff.mp hin) with heq | hin
      · exact hfresh (List.mem_map.mpr ⟨e, he, heq⟩)
      · exact hnew e he hin
    obtain ⟨t', hadd, hperm'⟩ := ih hfits hnodup hnew'
    refine ⟨t', ?_, hperm'.trans ((hperm.append_left entries).trans List.perm_middle)⟩
    simp [addEntries?, member_digitsOf hm, (Body.carries hb).back, hadd]

/-- A table is known from its entries in any order. -/
theorem eq_of_perm {t t' : BodyTable} (h : t.entries.Perm t'.entries) : t = t' := by
  have hentries : t.entries = t'.entries := by
    refine h.eq_of_pairwise (fun a b _ _ hab hba => ?_) (List.pairwise_map.mp t.ascending)
      (List.pairwise_map.mp t'.ascending)
    exact absurd (Nat.lt_trans hab hba) (Nat.lt_irrefl _)
  obtain ⟨es, _⟩ := t
  obtain ⟨es', _⟩ := t'
  cases hentries
  rfl

/-- The entries may be written in any order. -/
theorem carries {t : BodyTable} {entries : List (Nat × Body)} (hperm : entries.Perm t.entries)
    (hfits : ∀ e ∈ t.entries, e.1 < Nat.pow 2 32 ∧ e.2.Fits) : Carries ofJson? t (entriesJson entries) := by
  have hfits' : ∀ e ∈ entries, e.1 < Nat.pow 2 32 ∧ e.2.Fits := fun e he => hfits e (hperm.mem_iff.mp he)
  have hdistinct : (t.entries.map (·.1)).Nodup := t.ascending.imp Nat.ne_of_lt
  have hnodup : (entries.map (·.1)).Nodup := (hperm.map (·.1)).nodup_iff.mpr hdistinct
  -- Reading starts with an empty table, so no entry replaces another.
  obtain ⟨t', hadd, hperm'⟩ := addEntries_perm (t := .empty) hfits' hnodup (by simp [empty])
  have heq : t' = t := eq_of_perm (hperm'.trans (by simpa [empty] using hperm))
  refine ⟨.object (fun f hf => ?_) (fun f hf => ?_), hadd.trans (congrArg some heq)⟩
  all_goals obtain ⟨e, he, rfl⟩ := List.mem_map.mp hf
  · exact encode_digits (Number.digitsOf_isDigit e.1) ▸ encode_isLiteral _
  · exact (Body.carries (hfits' e he).2).proper

end BodyTable

/-! ## Constructs -/

namespace Construct

/-- The numbers of a construct and of its bodies have the width that the format gives them. -/
structure Fits (c : Construct) : Prop where
  parent : ∀ p ∈ c.parent, p < Nat.pow 2 32
  fieldCount : c.fieldCount < Nat.pow 2 64
  bodies : ∀ e ∈ c.bodies.entries, e.1 < Nat.pow 2 32 ∧ e.2.Fits

/-- The value of a construct with a given value for its bodies. -/
def jsonWith (c : Construct) (chunks : Json) : Json :=
  .ofFields [("name", .ofString c.name), ("parent", (c.parent.map Json.ofNat).getD .null),
    ("field_count", .ofNat c.fieldCount), ("chunks", chunks)]

/-- A value of a construct, its bodies in any order. -/
def Writes (c : Construct) (j : Json) : Prop :=
  ∃ entries : List (Nat × Body), entries.Perm c.bodies.entries ∧
    j = c.jsonWith (BodyTable.entriesJson entries)

theorem writes_toJson (c : Construct) : c.Writes c.toJson := ⟨c.bodies.entries, .refl _, rfl⟩

theorem parent_carries {parent : Option Nat} (h : ∀ p ∈ parent, p < Nat.pow 2 32) :
    Carries (toOption? (toNat? 32)) parent ((parent.map Json.ofNat).getD .null) := by
  cases parent with
  | none => exact ⟨.null, rfl⟩
  | some p =>
    have hp := ofNat_carries (h p rfl)
    refine ⟨hp.proper, ?_⟩
    have hread : toOption? (toNat? 32) (.ofNat p) = ((Json.ofNat p).toNat? 32).map some := rfl
    simp [hread, hp.back]

theorem carries {c : Construct} {j : Json} (h : c.Fits) (hj : c.Writes j) : Carries ofJson? c j := by
  obtain ⟨entries, hperm, rfl⟩ := hj
  have hparent := parent_carries h.parent
  have hcount := ofNat_carries h.fieldCount
  have hbodies := BodyTable.carries hperm h.bodies
  have hfields : (c.jsonWith (BodyTable.entriesJson entries)).structure?
      ["name", "parent", "field_count", "chunks"] = some [some (.ofString c.name),
        some ((c.parent.map Json.ofNat).getD .null), some (.ofNat c.fieldCount),
        some (BodyTable.entriesJson entries)] := structure_ofFields (by simp)
  refine ⟨ofFields_proper
    (by simp [ofString_proper, hparent.proper, hcount.proper, hbodies.proper]), ?_⟩
  simp only [ofJson?, hfields, toString_ofString, Option.getD_some, hparent.back, hcount.back,
    hbodies.back]
  rfl

end Construct

/-! ## Images -/

namespace Image

/-- The numbers of an image have the width that the format gives them. -/
structure Fits (i : Image) : Prop where
  version : i.version < Nat.pow 2 32
  constructs : ∀ c ∈ i.constructs.toList, c.Fits
  main : i.main < Nat.pow 2 32
  entry : i.entry.Fits

/-- The value of an image with given values for its constructs. -/
def jsonWith (i : Image) (constructs : List Json) : Json :=
  .ofFields [("magic", .ofString i.magic), ("version", .ofNat i.version),
    ("constructs", .array constructs), ("main", .ofNat i.main),
    ("constants", .array (i.constants.values.toList.map Constant.toJson)),
    ("members", .array (i.members.toList.map MemberKey.toJson)), ("entry", i.entry.toJson)]

/-- A value of an image: the bodies of its constructs may stand in any order. -/
def Writes (i : Image) (j : Json) : Prop :=
  ∃ constructs, List.Forall₂ Construct.Writes i.constructs.toList constructs ∧ j = i.jsonWith constructs

theorem writes_toJson (i : Image) : i.Writes i.toJson :=
  ⟨_, List.forall₂_map_right_iff.mpr (List.forall₂_same.mpr fun c _ => c.writes_toJson), rfl⟩

theorem carries {i : Image} {j : Json} (h : i.Fits)
    (hlegible : ∀ c ∈ i.constants.values.toList, c.Legible) (hj : i.Writes j) : Carries ofJson? i j := by
  obtain ⟨constructs, hwrites, rfl⟩ := hj
  have hversion := ofNat_carries h.version
  have hmain := ofNat_carries h.main
  have hentry := Chunk.carries h.entry
  have hconstructs : Carries (toList? Construct.ofJson?) i.constructs.toList (.array constructs) :=
    toList_carries (((List.forall₂_and_left _ _).mpr ⟨h.constructs, hwrites⟩).imp fun _ _ hc =>
      Construct.carries hc.1 hc.2)
  have hconstants := map_carries fun c hc => Constant.carries (hlegible c hc)
  have hmembers : Carries (toList? MemberKey.ofJson?) i.members.toList
      (.array (i.members.toList.map MemberKey.toJson)) := map_carries fun key _ => key.carries
  have hfields : (i.jsonWith constructs).structure?
      ["magic", "version", "constructs", "main", "constants", "members", "entry"] =
        some [some (.ofString i.magic), some (.ofNat i.version), some (.array constructs),
          some (.ofNat i.main), some (.array (i.constants.values.toList.map Constant.toJson)),
          some (.array (i.members.toList.map MemberKey.toJson)), some i.entry.toJson] :=
    structure_ofFields (by simp)
  refine ⟨ofFields_proper (by simp [ofString_proper, hversion.proper, hmain.proper, hentry.proper,
    hconstructs.proper, hconstants.proper, hmembers.proper]), ?_⟩
  simp only [ofJson?, hfields, toString_ofString, hversion.back, hmain.back, hentry.back,
    hconstructs.back, hconstants.back, hmembers.back]
  rfl

theorem load_read {i : Image} {j : Json} {text : String} (hback : ofJson? j = some i)
    (hread : Json.read? text = some j) : load text = i.validate.map fun _ => i := by
  have hi : read text = .ok i := by simp [read, hread, hback]
  have hload : load text = (i.validate >>= fun _ => .ok i) := by
    rw [load, hi]
    rfl
  rw [hload]
  cases i.validate <;> rfl

end Image

/-- The value that an image is kept as, with the bodies of each construct in any order, is read as the
same image, and so is its text. A text that holds the value is loaded if and only if the image is valid,
and the outcome is the image; otherwise the fault of the image is reported. Operands and counts have the
width of the format, numbers are finite, and the numerals that are written for them are read as the same
numbers. -/
theorem Image.load_saved {i : Image} (hfits : i.Fits)
    (hfinite : ∀ x, .number x ∈ i.constants.values → x.isFinite = true)
    (hnumerals : ∀ x n, .number x ∈ i.constants.values → Numeral.ofFloat? x = some n →
      n.toFloat? = some x) :
    i.Writes i.toJson ∧ ∀ j, i.Writes j → Image.ofJson? j = some i ∧ Json.read? j.text = some j ∧
      ∀ text, Json.read? text = some j →
        (∀ i', Image.load text = .ok i' ↔ i.validate = .ok () ∧ i' = i) ∧
        ∀ e, Image.load text = .error e ↔ i.validate = .error e := by
  have hlegible : ∀ c ∈ i.constants.values.toList, c.Legible := by
    intro c hc
    cases c with
    | number x =>
      have hx := Array.mem_toList_iff.mp hc
      exact ⟨hfinite x hx, fun n => hnumerals x n hx⟩
    | string => trivial
  refine ⟨i.writes_toJson, fun j hj => ?_⟩
  obtain ⟨hproper, hback⟩ := carries hfits hlegible hj
  refine ⟨hback, read_text hproper, fun text htext => ?_⟩
  rw [load_read hback htext]
  cases i.validate with
  | ok => simp [Except.map, eq_comm]
  | error => simp [Except.map]

/-- A class that inherits, with a native and instructions of several shapes. -/
def samplerMain : Construct := ⟨"Main", some 0, 2,
  (BodyTable.empty.insert 4 (.ofNative .consoleOut)).insert 0 (.compiled
    ⟨#[.load 0, .pushConst 1, .setField 1, .pop, .pushConst 0, .unary .negate, .pushOne,
      .binary .lessEqual, .jumpIfFalse 10, .callVirtual 1 0, .return], 1, 1⟩)⟩

/-- An image with this class, constants of both sorts and keys of every sort. -/
def sampler : Image where
  magic := Image.formatMagic
  version := Image.formatVersion
  constructs := #[⟨"any", none, 0, .empty⟩, samplerMain]
  main := 1
  constants := ⟨#[.number 2.5, .string "a\"b\n"]⟩
  members := #[.named "out", .binary .add, .unary .not, .constructor, .initializer]
  entry := ⟨#[.new 1, .pop, .pushNull, .isInstance 1 true, .return], 0, 0⟩

/-- The text it is kept as is loaded as the same image. -/
theorem sampler_load_saved : sampler.Fits ∧ sampler.validate = .ok () ∧
    Image.ofJson? sampler.toJson = some sampler ∧ Image.load sampler.save = .ok sampler := by
  have hnumber : ∀ x, .number x ∈ sampler.constants.values → x = 2.5 := by simp [sampler]
  have hwritten : Numeral.ofFloat? 2.5 = some ⟨false, ['2'], ['5'], none⟩ := by decide +kernel
  have hfits : sampler.Fits := by
    have hentry : sampler.entry.Fits := ⟨by simp [sampler, Instr.Fits], by decide, by decide⟩
    have hany : (⟨"any", none, 0, .empty⟩ : Construct).Fits :=
      ⟨by simp, by decide, by simp [BodyTable.empty]⟩
    have hmain : samplerMain.Fits := by
      refine ⟨by simp [samplerMain], by decide, List.forall_mem_cons.mpr ⟨⟨by decide, ?_⟩, ?_⟩⟩
      · exact ⟨by simp [Instr.Fits], by decide, by decide⟩
      · have harity : Native.arity .consoleOut < Nat.pow 2 64 := by decide
        exact List.forall_mem_singleton.mpr ⟨by decide, harity⟩
    exact ⟨by decide, List.forall_mem_cons.mpr ⟨hany, List.forall_mem_singleton.mpr hmain⟩,
      by decide, hentry⟩
  have hvalid : sampler.validate = .ok () := by decide
  obtain ⟨hwrites, hsaved⟩ := Image.load_saved hfits
    (fun x hx => by rw [hnumber x hx]; decide +kernel)
    (fun x n hx hn => by
      rw [hnumber x hx] at hn ⊢
      cases hwritten.symm.trans hn
      decide +kernel)
  obtain ⟨hback, hread, hload⟩ := hsaved _ hwrites
  exact ⟨hfits, hvalid, hback, ((hload _ hread).1 _).mpr ⟨hvalid, rfl⟩⟩

end ClassLang
