import SchemaLang.CommandLine.Run

/-!
# The program

Takes a picture of the files that a command reads, runs the command on it, and carries its outcome
out.
-/

namespace SchemaLang.CommandLine

open Files

/-- What is at a path of the real file system, if anything. -/
partial def snapshot (path : String) : IO (Option Node) := do
  let here := (← IO.currentDir) / path
  if ← here.isDir then
    let mut entries := []
    for entry in ← here.readDir do
      if let some node ← snapshot (path ++ "/" ++ entry.fileName) then
        entries := (entry.fileName, node) :: entries
    return some (.directory entries)
  else if ← here.pathExists then
    return some (.file (← IO.FS.readBinFile here).data.toList)
  else
    return none

def pathNames (path : String) : List String :=
  (components path).filter fun c => c ≠ "" ∧ c ≠ "."

/-- The directory that a path is in, without its entries. -/
def plantParent (files : Node) (path : String) : IO Node := do
  let names := (pathNames path).dropLast
  let parent := "/".intercalate ((components path).dropLast)
  if (files.descend names).isSome then return files
  else if ← ((← IO.currentDir) / parent).isDir then return Node.plant .empty names files
  else return files

partial def readAll (stream : IO.FS.Stream) (bytes : ByteArray) : IO ByteArray := do
  let more ← stream.read 65536
  if more.isEmpty then return bytes else readAll stream (bytes ++ more)

def readInput (command : Command) : IO Input := do
  if command.readsInput then
    let bytes ← readAll (← IO.getStdin) ByteArray.empty
    return (Text.ofBytes? bytes.data.toList).elim (.error .notText) .ok
  else
    return .ok ""

def usage : String :=
  "usage: schema-markdown compile [-o OUTPUT] [-t TITLE] [--compact] [--extension EXT] [PATHS]"
    ++ "\nusage: schema-markdown validate -s SCHEMA -t TYPE [--extension EXT] [INPUTS]"

end SchemaLang.CommandLine

open SchemaLang SchemaLang.CommandLine in
def main (args : List String) : IO UInt32 := do
  match Command.parse? args with
  | none =>
    IO.eprintln usage
    return 2
  | some command =>
    let mut files := Files.Node.empty
    for path in command.sources do
      if let some node ← snapshot path then
        files := Files.Node.plant node (pathNames path) files
    if let some path := command.output? then
      files ← plantParent files path
    let outcome := command.run files (← readInput command)
    if let some path := command.output? then
      if outcome.code = 0 then
        if let .ok content := outcome.files.readBytes path then
          IO.FS.writeBinFile path ⟨content.toArray⟩
    IO.print outcome.output
    IO.eprint outcome.errors
    return outcome.code.toUInt32
