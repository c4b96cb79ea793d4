import StyleHoist.CommandLine.Run

/-!
The program: files of the system, a random stamp, and the standard streams.
-/

set_option autoImplicit false
set_option relaxedAutoImplicit false

namespace StyleHoist

private def numberedFault (code : UInt32) (reason : String) : Fault :=
  .other (utf8 reason ++ utf8 " (os error " ++ Numeral.decimal code.toNat ++ utf8 ")")

private def faultOf : IO.Error → Fault
  | .noFileOrDirectory _ _ _ => .notFound
  | .inappropriateType _ code reason =>
    if code = 20 then .notADirectory
    else if code = 21 then .isADirectory
    else numberedFault code reason
  | .invalidArgument _ code reason =>
    if code = 36 then .nameTooLong else numberedFault code reason
  | .permissionDenied _ code reason => numberedFault code reason
  | .resourceExhausted _ code reason => numberedFault code reason
  | error => .other (utf8 (toString error))

private def fileName (path : Path) : Except Fault String :=
  if path.contains 0 then .error .zeroByte
  else
    match String.fromUTF8? ⟨path.toArray⟩ with
    | some name => .ok name
    | none => .error .notFound

instance : FileAccess IO where
  read path := do
    match fileName path with
    | .error fault => return .error fault
    | .ok name =>
      try
        return .ok (← IO.FS.readBinFile name).data.toList
      catch error => return .error (faultOf error)
  write path content := do
    match fileName path with
    | .error fault => return .error fault
    | .ok name =>
      try
        IO.FS.writeBinFile name ⟨content.toArray⟩
        return .ok ()
      catch error => return .error (faultOf error)

end StyleHoist

open StyleHoist in
def main (arguments : List String) : IO UInt32 := do
  let seed := (← IO.getRandomBytes 16).data.toList.foldl (fun n b => n * 256 + b.toNat) 0
  let response ← (CommandLine.run (Stamp.fresh seed) (arguments.map utf8) : IO _)
  (← IO.getStdout).write ⟨response.output.toArray⟩
  (← IO.getStderr).write ⟨response.errors.toArray⟩
  return response.code.toUInt32
