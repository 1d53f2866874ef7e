import CurveArt.CommandLine.Run
import CurveArt.Drawing.Png

/-!
# The program

The outer layer of the command line: files, the standard streams and the exit code.
-/

open CurveArt

/-- The text of a file, unless it cannot be read. -/
def textOfFile? (path : String) : IO (Option String) := do
  try return some (← IO.FS.readFile path) catch _ => return none

/-- Writes a document and says whether that was possible. -/
def writeDocument (path : String) (document : Document) : IO Bool := do
  try
    match document with
    | .text text => IO.FS.writeFile path text
    | .raster figure dpi width height =>
      IO.FS.writeBinFile path (Png.file (Canvas.ofFigure figure dpi width height))
    return true
  catch _ => return false

/-- The file system, with seeds from the system's random numbers. -/
def fileSystem : Workspace IO where
  read := textOfFile?
  write := writeDocument
  drawSeed := return (← IO.rand seedRange.1 seedRange.2).toUInt64

def main (words : List String) : IO UInt32 := do
  let outcome ← Command.runWords fileSystem words
  for event in outcome.shownEvents do
    IO.eprintln ("[" ++ event.level.name ++ "] " ++ event.message)
  IO.print outcome.output
  match outcome.failure with
  | none => pure ()
  | some failure => IO.eprintln ("Error: " ++ failure.message)
  return outcome.exitCode
