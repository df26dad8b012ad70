import ObjectLang.CommandLine

/-!
The program: reads the file that the command needs and standard input, and writes the report.
-/

namespace ObjectLang

def readFile (path : String) : IO (Option ByteArray) := do
  try
    return some (← IO.FS.readBinFile path)
  catch _ =>
    return none

partial def readAll (stream : IO.FS.Stream) (read : ByteArray) : IO ByteArray := do
  let chunk ← stream.read 65536
  if chunk.isEmpty then return read
  readAll stream (read ++ chunk)

def fuel : Nat := 0x4000000000000000

/-- Only a program that runs reads standard input. -/
def inputFor : Command → IO (List UInt8)
  | .run _ _ _ => do return (← readAll (← IO.getStdin) .empty).toList
  | _ => return []

end ObjectLang

open ObjectLang in
def main (args : List String) : IO UInt32 := do
  let command := Command.ofArguments args
  let file ← match command.path? with
    | some path => readFile path
    | none => pure none
  match command.report fuel file (← inputFor command) with
  | some report =>
    IO.print report.out
    IO.eprint report.err
    return report.code.toUInt32
  | none => return 1
