import Predictive.CommandLine.Report

set_option autoImplicit false

namespace Predictive.CommandLine

/-- Names the reason for which a file could not be read. -/
def readFault : IO.Error → ReadFault
  | .noFileOrDirectory .. => .notFound
  | .inappropriateType .. => .isDirectory
  | error => .other (toString error)

/-- Everything on a stream, from what was read before. -/
def readToEnd (stream : IO.FS.Stream) : IO ByteArray := do
  let mut bytes := ByteArray.empty
  repeat
    let chunk ← stream.read 65536
    if chunk.isEmpty then break
    bytes := bytes ++ chunk
  return bytes

/-- The text of the grammar, from a file or from standard input. -/
def readSource (file : Option String) : IO (Except ReadFault String) := do
  try
    let bytes ← match file with
      | some path => IO.FS.readBinFile path
      | none => readToEnd (← IO.getStdin)
    match String.fromUTF8? bytes with
    | some text => return .ok text
    | none => return .error .notUtf8
  catch error => return .error (readFault error)

end Predictive.CommandLine

open Predictive.CommandLine in
def main (arguments : List String) : IO UInt32 := do
  match request arguments with
  | .error fault =>
    IO.eprintln ("error: " ++ fault.message)
    return 2
  | .ok .version =>
    IO.print versionLine
    return 0
  | .ok (.run options) =>
    match report options (← readSource options.file) with
    | .ok written =>
      IO.eprint written.stderr
      IO.print written.stdout
      return written.code.toUInt32
    | .error fault =>
      IO.eprintln fault.message
      return 101
