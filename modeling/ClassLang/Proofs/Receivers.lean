import ClassLang.Proofs.Operands
import ClassLang.Proofs.StackDepth

/-!
# The receiver among the operands

Where the shape of the stack has the receiver of the member, there is the receiver of the frame, in every
frame of a run of a checked program (`Machine.operand_receiver`). One instruction puts it there, the load of
its slot (`Machine.receiving_load`). All others leave it where it was, at most (`Image.receiver_of_effect`), so
that the table of what instructions make of a frame is enough for them (`Image.receiving_passes`).
-/

namespace ClassLang

/-! ## Shapes -/

namespace Image

variable {image : Image} {own : Bool} {i : Instr} {σ σ' : List Slot}

theorem receiver_of_plainEffect (h : image.plainEffect? i σ = some σ') : ∃ n, image.pops? i = some n ∧
    ∀ k, σ'[k]? = some .receiver → i.pushes ≤ k ∧ σ[k - i.pushes + n]? = some .receiver := by
  obtain ⟨n, hn, h⟩ := Option.bind_eq_some_iff.mp h
  split at h
  · cases h
    refine ⟨n, hn, fun k hk => ?_⟩
    rcases Nat.lt_or_ge k i.pushes with hlt | hge
    · rw [List.getElem?_append_left (by simpa using hlt), List.getElem?_replicate, if_pos hlt] at hk
      cases hk
    · rw [List.getElem?_append_right (by simpa using hge), List.getElem?_drop, List.length_replicate,
        Nat.add_comm] at hk
      exact ⟨hge, hk⟩
  · cases h

theorem receiver_of_buildEffect {c m : Nat} (h : image.buildEffect? own c m σ = some σ') :
    ∃ n, image.pops? (.invoke c m) = some n ∧
      ∀ k, σ'[k]? = some .receiver → 1 ≤ k ∧ σ[k - 1 + n]? = some .receiver := by
  obtain ⟨n, hn, h⟩ := Option.bind_eq_some_iff.mp h
  split at h
  · next hpos =>
    -- The first of the operands from the receiver of the call on is replaced by an ordinary value, and so is
    -- a new object below it.
    have hbehind : ∀ k, σ'[k]? = some .receiver →
        ∃ j, k = j + 1 ∧ (σ.drop (n - 1))[j + 1]? = some .receiver := by
      split at h
      · next heq =>
        split at h <;> cases h
        rintro (_ | k) hk
        · cases hk
        · exact ⟨k, rfl, heq ▸ hk⟩
      · next heq _ =>
        split at h <;> cases h
        rintro (_ | _ | k) hk
        · cases hk
        · cases hk
        · exact ⟨k + 1, rfl, heq ▸ hk⟩
      · next heq _ =>
        split at h <;> cases h
        rintro (_ | k) hk
        · cases hk
        · exact ⟨k, rfl, heq ▸ hk⟩
      · cases h
    refine ⟨n, hn, fun k hk => ?_⟩
    obtain ⟨j, rfl, hj⟩ := hbehind k hk
    rw [List.getElem?_drop, show n - 1 + (j + 1) = j + n by omega] at hj
    exact ⟨Nat.succ_pos j, hj⟩
  · cases h

/-- An operand with the shape of the receiver lay on the stack before, unless the slot of the receiver was
loaded. -/
theorem receiver_of_effect (h : image.effect? own i σ = some σ') (hload : i ≠ .load 0) :
    ∃ n, image.pops? i = some n ∧
      ∀ k, σ'[k]? = some .receiver → i.pushes ≤ k ∧ σ[k - i.pushes + n]? = some .receiver := by
  unfold effect? at h
  split at h
  · cases h
    refine ⟨0, rfl, ?_⟩
    rintro (_ | k) hk
    · cases hk
    · exact ⟨Nat.succ_pos k, hk⟩
  · exact absurd rfl hload
  · cases h
  · cases h
    refine ⟨1, rfl, ?_⟩
    rintro (_ | _ | k) hk
    · cases hk
    · cases hk
    · exact ⟨Nat.le_add_left 2 k, hk⟩
  · split at h
    · exact receiver_of_buildEffect h
    · exact receiver_of_plainEffect h
  · split at h
    · cases h
    · exact receiver_of_plainEffect h

/-! ## Frames -/

/-- A frame of a chunk of the image that has its receiver wherever the shape of its stack tells so. Results
that are due are not among its operands yet. -/
def Receiving (image : Image) (due : Nat) (f : Frame) : Prop :=
  ∃ chunk σ, image.HasChunk chunk ∧ f.code = chunk.code ∧ image.shape? f.code f.ip = some σ ∧
    ∀ k, σ[k]? = some .receiver → due ≤ k ∧ f.stack[k - due]? = some f.receiver

section

variable {a : Analysis} {f f' : Frame} {due : Nat}

/-- What an instruction makes of a frame, if it does not load the receiver. -/
theorem receiving_passes (W : WellTyped a) (A : Assembled a image) (hf : image.Receiving 0 f)
    (hi : f.code[f.ip]? = some i) (hload : i ≠ .load 0) (hpasses : f.Passes image i due f') :
    image.Receiving due f' := by
  obtain ⟨chunk, σ, hchunk, hcode, hσ, hstack⟩ := hf
  obtain ⟨_, _, hsettled⟩ := image_settled W A hchunk
  have hlt : f.ip < chunk.code.size := by
    rw [hcode] at hi
    exact (Array.getElem?_eq_some_iff.mp hi).1
  obtain ⟨σ₁, σ', hσ₁, heffect, hnext, _⟩ := hsettled f.ip (Nat.zero_le _) hlt i (hcode ▸ hi)
  rw [hcode] at hσ
  obtain rfl : σ = σ₁ := Option.some.inj (hσ.symm.trans hσ₁)
  refine ⟨chunk, σ', hchunk, hpasses.code.trans hcode, ?_, fun k hk => ?_⟩
  · rw [hpasses.code, hcode]
    exact (hnext _ hpasses.next).2
  · obtain ⟨n, hn, hbefore⟩ := receiver_of_effect heffect hload
    obtain ⟨n', pushed, hn', _, hstack', hpushed⟩ := hpasses.operands
    obtain rfl : n = n' := Option.some.inj (hn.symm.trans hn')
    obtain ⟨hge, hbefore⟩ := hbefore k hk
    have hstore : i ≠ .store 0 := by
      rintro rfl
      cases σ <;> cases heffect
    have hreceiver : f'.receiver = f.receiver := by
      rw [Frame.receiver, hpasses.slots 0 hstore, Frame.receiver]
    have hplace : k - due - pushed.length = k - i.pushes := by omega
    refine ⟨by omega, ?_⟩
    rw [hstack', List.getElem?_append_right (by omega), List.getElem?_drop, hplace, hreceiver, Nat.add_comm]
    exact (hstack _ hbefore).2

/-- A result arrives where the shape tells of no receiver. -/
theorem receiving_push (hf : image.Receiving 1 f) (v : Value) : image.Receiving 0 (f.push v) := by
  obtain ⟨chunk, σ, hchunk, hcode, hσ, hstack⟩ := hf
  refine ⟨chunk, σ, hchunk, hcode, hσ, fun k hk => ?_⟩
  obtain ⟨hpos, hk⟩ := hstack k hk
  obtain ⟨k, rfl⟩ := Nat.exists_eq_add_of_le' hpos
  exact ⟨Nat.zero_le _, hk⟩

end

end Image

/-! ## Runs -/

namespace Machine

variable {a : Analysis} {image : Image} {m m' : Machine}

/-- The load of the receiver puts it where the shape tells. -/
theorem receiving_load (hf : image.Receiving 0 m.frame) (hi : m.frame.code[m.frame.ip]? = some (.load 0))
    (h : m.step image = .next m') : image.Receiving 0 m'.frame ∧ m'.callers = m.callers := by
  obtain ⟨chunk, σ, hchunk, hcode, hσ, hstack⟩ := hf
  unfold step Frame.fetch at h
  rw [hi] at h
  simp only [execute, Frame.load] at h
  split at h
  · next w hw =>
    cases h
    have hreceiver : m.frame.receiver = w := by rw [Frame.receiver, hw, Option.getD_some]
    have heffect : image.effect? true (.load 0) σ = some (.receiver :: σ) := by cases σ <;> rfl
    refine ⟨⟨chunk, _, hchunk, hcode, Image.shape?_next hi hσ heffect, ?_⟩, rfl⟩
    rintro (_ | k) hk
    · exact ⟨Nat.le_refl _, congrArg some hreceiver.symm⟩
    · exact ⟨Nat.zero_le _, (hstack k hk).2⟩
  · cases h

theorem step_receiving (W : WellTyped a) (A : Assembled a image) (hm : m.Frames image.Receiving)
    (h : m.step image = .next m') : m'.Frames image.Receiving := by
  by_cases hload : m.frame.code[m.frame.ip]? = some (.load 0)
  · obtain ⟨hframe, hcallers⟩ := receiving_load hm.frame hload h
    exact ⟨hframe, hcallers ▸ hm.callers⟩
  · obtain ⟨i, hi, hmoves⟩ := step_moves h
    have hne : i ≠ .load 0 := fun heq => hload (heq ▸ hi)
    cases hmoves with
    | within hpasses _ => exact ⟨Image.receiving_passes W A hm.frame hi hne hpasses, hm.callers⟩
    | enters hpasses _ hbody _ =>
      exact ⟨⟨_, [], Image.hasChunk_of_resolve hbody, rfl, rfl, by simp⟩,
        List.forall_mem_cons.mpr ⟨Image.receiving_passes W A hm.frame hi hne hpasses, hm.callers⟩⟩
    | leaves _ hcallers _ =>
      have hall := hm.callers
      rw [hcallers] at hall
      obtain ⟨hcaller, hrest⟩ := List.forall_mem_cons.mp hall
      exact ⟨Image.receiving_push hcaller _, hrest⟩

/-- Where the shape of the operands has the receiver, there it is. -/
theorem operand_receiver (W : WellTyped a) (A : Assembled a image) {bound : Nat} {console : Console}
    (hrun : image.run bound console = .unfinished m) :
    ∃ chunk σ, image.HasChunk chunk ∧ m.frame.code = chunk.code ∧
      image.shape? m.frame.code m.frame.ip = some σ ∧
      ∀ k : Nat, σ[k]? = some .receiver → m.frame.stack[k]? = some m.frame.receiver := by
  have hstart : (start image console).Frames image.Receiving :=
    ⟨⟨_, [], .inl rfl, rfl, rfl, by simp⟩, by simp [start]⟩
  obtain ⟨chunk, σ, hchunk, hcode, hσ, hstack⟩ := (run_keeps (fun _ _ => step_receiving W A) hstart hrun).frame
  exact ⟨chunk, σ, hchunk, hcode, hσ, fun k hk => (hstack k hk).2⟩

/-- Behind the load of the receiver and the code of some arguments, the receiver lies below these. -/
theorem receiver_below (W : WellTyped a) (A : Assembled a image) {bound index n : Nat} {console : Console}
    {code : Array Instr} {args is : List Instr} (hrun : image.run bound console = .unfinished m)
    (hat : m.frame.code = code) (hcode : CodeAt code index (.load 0 :: args ++ is))
    (hargs : image.Computes n args) (hip : m.frame.ip = index + args.length + 1) :
    m.frame.stack[n]? = some m.frame.receiver := by
  obtain ⟨chunk, σ, hchunk, hchunk', hσ, hstack⟩ := operand_receiver W A hrun
  rw [← hat] at hcode
  have hload : m.frame.code[index]? = some (.load 0) := hcode.head
  obtain ⟨_, _, hsettled⟩ := image_settled W A hchunk
  have hlt : index < chunk.code.size := by
    rw [hchunk'] at hload
    exact (Array.getElem?_eq_some_iff.mp hload).1
  obtain ⟨σ₀, _, hσ₀, _⟩ := hsettled index (Nat.zero_le _) hlt _ (hchunk' ▸ hload)
  rw [← hchunk'] at hσ₀
  have heffect : image.effect? true (.load 0) σ₀ = some (.receiver :: σ₀) := by cases σ₀ <;> rfl
  obtain ⟨vs, rfl, _, hshape⟩ :=
    hargs.behind hcode.tail.left (Image.shape?_next hload hσ₀ heffect)
  rw [show index + 1 + args.length = m.frame.ip by omega] at hshape
  obtain rfl := Option.some.inj (hσ.symm.trans hshape)
  exact hstack _ (by simp)

end Machine

end ClassLang
