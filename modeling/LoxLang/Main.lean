import LoxLang.Command

/-!
# The program

Reads the command line and the file it names, or holds a dialogue over the standard input.
-/

namespace LoxLang

/-- The budget of a run. No program can use it up. -/
def budget : Nat := Nat.pow 2 60

/-- The bytes of the next line with its newline, if any are left. -/
partial def nextLine (input : IO.FS.Stream) (read : List UInt8) : IO (List UInt8) := do
  match (← input.read 1).data.toList with
  | [] => return read.reverse
  | b :: _ => if b = byte '\n' then return (b :: read).reverse else nextLine input (b :: read)

/-- Say why a dialogue ended. -/
def finish (ending : Ending) : IO UInt32 := do
  let (code, lastWords) := Command.endingEffect ending
  (← IO.getStderr).putStr lastWords
  return code.toUInt32

/-- Hold a dialogue line by line, so that each answer is seen before the next line. -/
partial def converse (s : Session) : IO UInt32 := do
  let output ← IO.getStdout
  output.putStr Dialogue.prompt
  output.flush
  match Dialogue.splitLines [] (← nextLine (← IO.getStdin) []) with
  | [] =>
    output.putStrLn ""
    finish .endOfInput
  | line :: _ =>
    match Utf8.decode? line with
    | none => finish .notText
    | some text =>
      let (exchange, ending, s) := Dialogue.exchange budget s text
      output.putStr exchange.printed
      (← IO.getStderr).putStr (Command.reportLines exchange.reports)
      match ending with
      | none => converse s
      | some ending => finish ending

/-- What the system says about a file that cannot be used. -/
def fileFault : IO.Error → Command.FileFault
  | .noFileOrDirectory .. => .missing
  | .inappropriateType none .. => .directory
  | .inappropriateType (some _) .. => .notADirectory
  | .invalidArgument .. => .nameTooLong
  | .permissionDenied .. => .cannotOpen "Permission denied" 13
  | other => .cannotOpen other.toString 5

/-- The contents of a file. -/
def contentsOf (file : String) : IO (Except Command.FileFault (List UInt8)) := do
  try
    return .ok (← IO.FS.readBinFile file).data.toList
  catch e => return .error (fileFault e)

/-- Write what a command has to say. -/
def write (effect : Command.Effect) : IO UInt32 := do
  (← IO.getStdout).putStr effect.out
  (← IO.getStderr).putStr effect.err
  return effect.code.toUInt32

end LoxLang

open LoxLang in
/-- Carry out the command that the arguments give. -/
def main (arguments : List String) : IO UInt32 := do
  match Command.parse? arguments with
  | none => write Command.usageEffect
  | some .dialogue => converse (Session.start .plain (.working ""))
  | some command =>
    let contents ← match command.file? with
      | some file => contentsOf file
      | none => pure (.ok [])
    write (command.perform .plain budget contents [])
