import IncludeBlock.Command
import IncludeBlock.Disk.Image

/-!
# The program

Runs the command line on the disk image in the file that `INCLUDE_DISK` names,
and writes the image anew. Without the variable the disk is empty.
-/

open IncludeBlock

/-- The disk that a run starts with. -/
def startingDisk (image : Option String) : IO Disk := do
  match image with
  | none => return ∅
  | some file =>
      let text ← IO.FS.readFile file
      match (Json.parse? (Text.encode text)).bind Disk.ofImage? with
      | some disk => return disk
      | none => throw (IO.userError s!"{file} holds no disk image")

/-- Runs the program: prints what a run prints and gives its exit code. -/
def main (words : List String) : IO UInt32 := do
  let env : Environment :=
    ⟨← IO.getEnv "XDG_CONFIG_HOME", ← IO.getEnv "HOME"⟩
  let image ← IO.getEnv "INCLUDE_DISK"
  let outcome := Command.run words env (← startingDisk image)
  IO.print outcome.out
  IO.eprint outcome.err
  if let some file := image then
    IO.FS.writeFile file (outcome.disk.toImage.pretty ++ "\n")
  return UInt32.ofNat outcome.code
