import TypedReads.Command.Config
import TypedReads.Command.Files
import TypedReads.Json.Document
import TypedReads.Value.JsonText
import TypedReads.Value.Native

/-!
# Errors of the program

All that can go wrong while a command line is carried out, and the one diagnostic that tells a
user about it: what failed, where if that is known, and why.
-/

namespace TypedReads

/-- Anything that can go wrong. -/
inductive AppError where
  | usage (e : UsageError)
  | decode (e : DecodeError)
  | encode (e : EncodeError)
  | argument (e : ArgumentError)
  | config (e : ConfigError)
  | file (e : FileError)

/-- An error as a user sees it. -/
inductive Diagnostic where
  | usage (message : Text)
  | decode (message : Text)
  | encode (path message : Text)
  | argument (message : Text)
  | config (message : Text)
  | file (message : Text)
  deriving DecidableEq

/-- The diagnostic of an error. -/
def AppError.diagnostic : AppError → Diagnostic
  | usage e => .usage e.message
  | decode e => .decode e.message
  | encode e => .encode e.path.toText e.message
  | argument e => .argument e.message
  | config e => .config e.message
  | file e => .file e.message

/-- The text of a diagnostic. -/
def Diagnostic.toText : Diagnostic → Text
  | usage message => units "Invalid arguments: " ++ message
  | decode message => units "Cannot decode JSON: " ++ message
  | encode path message => units "Cannot encode JSON at " ++ path ++ units ": " ++ message
  | argument message => units "Invalid argument: " ++ message
  | config message => units "Invalid config: " ++ message
  | file message => units "File error: " ++ message

end TypedReads
