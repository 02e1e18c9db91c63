import Reckoner.InputError
import Reckoner.Source.Location
import Reckoner.Text.Quoted

/-!
# Resolving locations

A resolver opens what a text names. If the text reads as a URL, the handlers of its scheme are asked
in order, and the first that can serve it does; failing that, the text is tried as the name of a
file, exactly as it is written. A handler may be any function, so that one of the network, which this
library does not have, is one of them.
-/

namespace Reckoner

/-- What the file system opens under a name, if it opens anything. -/
abbrev Files : Type := String → Option Source

/-- Opens URLs of some schemes. -/
structure Handler (υ : Type := Location) where
  schemes : List String
  serve : υ → Option Source

/-- Handlers in the order in which they are asked, and the files behind them. -/
structure Resolver (υ : Type := Location) where
  files : Files
  handlers : List (Handler υ)

namespace Resolver

variable {υ : Type}

/-- Adds a handler, which is asked after those before it. -/
def register (r : Resolver υ) (h : Handler υ) : Resolver υ :=
  { r with handlers := r.handlers ++ [h] }

/-- The schemes of the handlers in order, as diagnostics show them. -/
def shown (r : Resolver υ) : String :=
  let schemes := r.handlers.flatMap (·.schemes)
  "SourceResolver \x7b schemes: " ++ Text.Quoted.list (schemes.map Text.Quoted.text) ++ " \x7d"

end Resolver

variable {υ : Type} [Url υ]

namespace Handler

/-- Serves URLs of the file system. -/
def file (files : Files) : Handler υ :=
  ⟨["file"], fun u => (Url.fileName? u).bind files⟩

/-- Whether the handler has the scheme of the URL, in letters of either case. -/
def covers (h : Handler υ) (u : υ) : Bool :=
  h.schemes.any fun s => s.map Char.toLower = Url.scheme u

end Handler

namespace Resolver

/-- The resolver that handles the file system alone. -/
def standard (files : Files) : Resolver υ :=
  ⟨files, [.file files]⟩

/-- What the handlers make of a text. -/
def handled (r : Resolver υ) (text : String) : Option Source :=
  (Url.read? text).bind fun u => (r.handlers.filter (·.covers u)).findSome? fun h => h.serve u

/-- Opens what the text names. -/
def resolve (r : Resolver υ) (text : String) : Except InputError Source :=
  match (r.handled text).or (r.files text) with
  | some s => .ok s
  | none => .error (.cannotOpen text)

/-- The file names that the standard resolver may ask for. -/
def fileNames (text : String) : List String :=
  (((Location.read? text).filter (·.scheme = "file")).bind Location.fileName?).toList ++ [text]

end Resolver

end Reckoner
