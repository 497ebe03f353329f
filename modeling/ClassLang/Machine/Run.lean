import ClassLang.Machine.Step

/-!
# Runs

A run repeats steps until the machine halts or stops. It need not end, so it gets a bound on its steps;
a run that ends within some bound ends in the same way within every larger one.
-/

namespace ClassLang

/-- The end of a run. -/
inductive RunResult where
  | halted (result : Value) (heap : Heap) (console : Console)
  | faulted (cause : Fault) (console : Console)
  | unfinished (machine : Machine)
deriving Repr

namespace Machine

/-- Takes at most `bound` steps. -/
def run (image : Image) : Nat → Machine → RunResult
  | 0, m => .unfinished m
  | bound + 1, m =>
    match m.step image with
    | .next m' => run image bound m'
    | .halt v heap console => .halted v heap console
    | .fault e console => .faulted e console

end Machine

/-- The console behind a run. -/
def RunResult.console : RunResult → Console
  | .halted _ _ console | .faulted _ console => console
  | .unfinished m => m.console

/-- Runs an image from its entry chunk with at most `bound` steps. -/
def Image.run (image : Image) (bound : Nat) (console : Console) : RunResult :=
  (Machine.start image console).run image bound

/-- Runs an image several times. Every run starts afresh but goes on with the console of the one before. -/
def Image.runTimes (image : Image) (bound : Nat) : Nat → Console → List RunResult × Console
  | 0, console => ([], console)
  | n + 1, console =>
    let first := image.run bound console
    let (others, last) := image.runTimes bound n first.console
    (first :: others, last)

end ClassLang
