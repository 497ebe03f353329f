import ClassLang.Build.Stages
import ClassLang.Image.Json
import ClassLang.Image.Listing
import ClassLang.Report.Json

/-!
# Command line

`run` and `exec` run a program or an image, `check` looks for errors, `build` writes an image and
`disasm` lists one. The exit code is 1 if anything is wrong.
-/

namespace ClassLang.CommandLine

/-- What the command line offers. -/
def usage : String :=
  "usage: run FILE | check [--json] FILE... | build FILE [-o IMAGE] | exec IMAGE | disasm FILE"

/-- A file name without its extension, and the extension if there is one. -/
def splitExtension (file : String) : String × Option String :=
  let reversed := file.toList.reverse
  let extension := reversed.takeWhile fun c => c != '.' && c != '/'
  match reversed.drop extension.length with
  | '.' :: c :: stem =>
    if c = '/' then (file, none)
    else (String.ofList (c :: stem).reverse, some (String.ofList extension.reverse))
  | _ => (file, none)

/-- The name of the image of a source file. -/
def imageFile (file : String) : String := (splitExtension file).1 ++ ".json"

/-- The summary of a failure with diagnostics. -/
def summary (file : String) (count : Nat) : String :=
  let mark := if count = 1 then "" else "s"
  s!"could not compile `{file}` due to {count} previous error{mark}"

/-- Prints an error and gives the exit code. -/
def fail (message : String) : IO UInt32 := do
  IO.eprintln s!"Error: {message}"
  return 1

/-- Prints the diagnostics of a failure and its summary. -/
def report (file : String) (f : Failure) : IO Unit := do
  let found := f.diagnostics
  for d in found do IO.eprintln (d.oneLine file)
  IO.eprintln (if found.isEmpty then f.message else summary file found.length)

/-- Everything that is left of the input. -/
partial def readAll (input : IO.FS.Stream) (bytes : ByteArray) : IO ByteArray := do
  let more ← input.read 65536
  if more.isEmpty then return bytes else readAll input (bytes ++ more)

/-- Runs a machine and prints its output as it comes. -/
partial def runOn (image : Image) (m : Machine) : IO UInt32 := do
  let result := m.run image 65536
  IO.print result.console.output
  (← IO.getStdout).flush
  match result with
  | .halted .. => return 0
  | .faulted e _ => fail e.message
  | .unfinished m => runOn image { m with console := { m.console with output := "" } }

/-- Runs an image on the standard input and output. -/
def runImage (image : Image) : IO UInt32 := do
  let input ← readAll (← IO.getStdin) .empty
  runOn image (.start image (.ofBytes input.toList))

/-- Goes on with the image of a source file. -/
def withSource (file : String) (act : Image → IO UInt32) : IO UInt32 := do
  match Image.ofSource (← IO.FS.readFile file) with
  | .ok image => act image
  | .error f => report file f; return 1

/-- Goes on with the image in a file. -/
def withImage (file : String) (act : Image → IO UInt32) : IO UInt32 := do
  match Image.load (← IO.FS.readFile file) with
  | .ok image => act image
  | .error e => fail s!"`{file}` is not a valid image: {e.message}"

/-- Checks files one after the other. -/
def check (json : Bool) (files : List String) : IO UInt32 := do
  let mut failed := 0
  let mut reports := #[]
  for file in files do
    let source ← IO.FS.readFile file
    match Analysis.ofSource source with
    | .ok _ => if !json then IO.println s!"ok {file}"
    | .error f =>
      failed := failed + 1
      reports := reports ++ (f.diagnostics.map (·.toJson file source)).toArray
      if !json then report file f
  if json then IO.println (Json.array reports.toList).text
  if failed = 0 then return 0
  else fail s!"{failed} of {files.length} file(s) failed to check"

/-- Writes the image of a source file. -/
def build (file output : String) : IO UInt32 :=
  withSource file fun image => do
    IO.FS.writeFile output image.save
    IO.println s!"Built {file} -> {output}"
    return 0

/-- Prints the listing of a source file or an image. -/
def list (file : String) : IO UInt32 :=
  let print (image : Image) : IO UInt32 := do
    IO.print image.listingText
    return 0
  if (splitExtension file).2 = some "json" then withImage file print else withSource file print

end ClassLang.CommandLine

open ClassLang.CommandLine in
/-- Carries out a command. -/
def main (args : List String) : IO UInt32 :=
  match args with
  | ["run", file] => withSource file runImage
  | "check" :: "--json" :: file :: files => check true (file :: files)
  | "check" :: file :: files => check false (file :: files)
  | ["build", file] => build file (imageFile file)
  | ["build", file, "-o", output] => build file output
  | ["exec", file] => withImage file runImage
  | ["disasm", file] => list file
  | _ => fail usage
