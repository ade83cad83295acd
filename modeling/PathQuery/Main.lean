import PathQuery.CommandLine.Run

/-! The command line program. -/

namespace PathQuery.CommandLine

/-- An error of the system by its number, which may be given negated. -/
def ReadError.ofCode (code : UInt32) (details : String) : ReadError :=
  match if code.toInt32 < 0 then 0 - code else code with
  | 2 => .notFound
  | 20 => .notADirectory
  | 21 => .isADirectory
  | 36 => .nameTooLong
  | number => .other (details.capitalize ++ " (os error " ++ toString number ++ ")")

/-- What went wrong while a source was read. -/
def ReadError.ofSystem : IO.Error → ReadError
  | .noFileOrDirectory _ code details | .inappropriateType _ code details
  | .invalidArgument _ code details | .permissionDenied _ code details
  | .resourceExhausted _ code details | .noSuchThing _ code details
  | .hardwareFault code details | .resourceBusy code details
  | .illegalOperation code details | .otherError code details => .ofCode code details
  | error => .other (toString error)

def readSource (file : Option String) : IO (Except ReadError ByteArray) := do
  try
    match file with
    | some path => return .ok (← IO.FS.readBinFile path)
    | none => return .ok (← (← IO.getStdin).readBinToEnd)
  catch error => return .error (.ofSystem error)

end PathQuery.CommandLine

open PathQuery in
def main (arguments : List String) : IO UInt32 := do
  let outcome ← CommandLine.run .builtIn CommandLine.readSource arguments
  (← IO.getStdout).putStr outcome.output
  (← IO.getStderr).putStr outcome.errors
  return outcome.status
