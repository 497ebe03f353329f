import ClassLang.Lowering.Pools

/-!
# Success of a sequence

A sequence of steps that may fail succeeds exactly if its first step does and the rest succeeds on the
result. These equations open every `do` block of the checker and of the lowering.
-/

namespace ClassLang

section

variable {ε α β : Type}

@[simp] theorem bind_eq_ok {x : Except ε α} {f : α → Except ε β} {b : β} :
    (x >>= f) = .ok b ↔ ∃ a, x = .ok a ∧ f a = .ok b := by
  cases x with
  | error e => exact ⟨fun h => (nomatch h), fun ⟨_, h, _⟩ => (nomatch h)⟩
  | ok a =>
    refine ⟨fun h => ⟨a, rfl, h⟩, fun ⟨a', ha, h⟩ => ?_⟩
    cases ha
    exact h

@[simp] theorem pure_eq_ok {a b : α} : (pure a : Except ε α) = .ok b ↔ a = b :=
  Except.ok.injEq a b ▸ Iff.rfl

@[simp] theorem throw_eq_ok {e : ε} {a : α} : (throw e : Except ε α) = .ok a ↔ False :=
  ⟨fun h => (nomatch h), False.elim⟩

theorem toOption_eq_some {x : Except ε α} {a : α} : x.toOption = some a ↔ x = .ok a := by
  cases x with
  | error e => exact ⟨nofun, nofun⟩
  | ok b => exact Option.some_inj.trans (Except.ok.injEq b a ▸ Iff.rfl)

end

namespace Lower

variable {α β : Type} {p p' : Pools}

/-- What a step of lowering gives from some pools. -/
abbrev Gives (x : Lower α) (p : Pools) (a : α) (p' : Pools) : Prop := x.run p = .ok (a, p')

@[simp] theorem bind_gives {x : Lower α} {f : α → Lower β} {b : β} :
    Gives (x >>= f) p b p' ↔ ∃ a q, Gives x p a q ∧ Gives (f a) q b p' := by
  simp only [Gives, StateT.run_bind, bind_eq_ok, Prod.exists]

@[simp] theorem pure_gives {a b : α} : Gives (pure a) p b p' ↔ a = b ∧ p = p' := by
  simp only [Gives, StateT.run_pure, pure_eq_ok, Prod.mk.injEq]

@[simp] theorem fail_gives {d : LoweringDefect} {a : α} :
    Gives (fail d) p a p' ↔ False :=
  ⟨fun h => (nomatch h), False.elim⟩

@[simp] theorem throw_gives {e : BuildError} {a : α} :
    Gives (throw e) p a p' ↔ False :=
  ⟨fun h => (nomatch h), False.elim⟩

@[simp] theorem map_gives {x : Lower α} {f : α → β} {b : β} :
    Gives (f <$> x) p b p' ↔ ∃ a, Gives x p a p' ∧ f a = b := by
  rw [map_eq_pure_bind]
  simp only [bind_gives, pure_gives]
  exact ⟨fun ⟨a, q, h, hb, hq⟩ => ⟨a, hq ▸ h, hb⟩, fun ⟨a, h, hb⟩ => ⟨a, p', h, hb, rfl⟩⟩

/-- A step that cannot touch the pools, among steps that can. -/
@[simp] theorem lift_gives {x : Except BuildError α} {a : α} :
    Gives (liftM x) p a p' ↔ x = .ok a ∧ p = p' := by
  cases x with
  | error e => exact ⟨fun h => (nomatch h), fun h => (nomatch h.1)⟩
  | ok b =>
    refine ⟨fun h => ?_, fun ⟨h, hp⟩ => ?_⟩
    · cases h
      exact ⟨rfl, rfl⟩
    · cases h
      subst hp
      rfl

end Lower

end ClassLang
