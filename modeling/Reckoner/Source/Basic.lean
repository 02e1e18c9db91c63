/-!
# Character sources

A source answers each request for a character with a reply: a character, or a stop, which is the end
of the input or a failure to read it. A source is the list of replies it would give, and says that
the input ended once the list has run out, so also what it would answer if asked again after a stop
can be told.
-/

namespace Reckoner

/-- Why reading failed. -/
inductive ReadFailure where
  /-- The bytes are not the encoding of a character. -/
  | invalidData
  /-- The transport itself failed. -/
  | ioError
  deriving DecidableEq, Repr

/-- How input comes to a stop. -/
inductive Ending where
  | ended
  | failed (why : ReadFailure)
  deriving DecidableEq, Repr

/-- One answer of a source. -/
inductive Reply where
  | char (c : Char)
  | stop (how : Ending)
  deriving DecidableEq, Repr

/-- A producer of characters, as the replies it gives in turn. -/
structure Source where
  replies : List Reply
  deriving DecidableEq, Repr

namespace Source

/-- A source that yields the characters and then ends. -/
def ofList (cs : List Char) : Source :=
  ⟨cs.map Reply.char⟩

/-- A source that yields the characters and then stops as told. -/
def ofListThen (cs : List Char) (how : Ending) : Source :=
  ⟨cs.map Reply.char ++ [Reply.stop how]⟩

/-- The next reply, and the source after it. -/
def ask (s : Source) : Reply × Source :=
  match s.replies with
  | [] => (.stop .ended, s)
  | r :: rest => (r, ⟨rest⟩)

/-- The characters up to the first stop. -/
def toList (s : Source) : List Char :=
  s.replies.takeWhile (fun | .char _ => true | .stop _ => false)
    |>.filterMap (fun | .char c => some c | .stop _ => none)

/-- How the source first stops. -/
def ending (s : Source) : Ending :=
  (s.replies.findSome? fun | .char _ => none | .stop how => some how).getD .ended

@[simp] theorem toList_ofList (cs : List Char) : (ofList cs).toList = cs := by
  induction cs with
  | nil => rfl
  | cons c cs ih => simpa [toList, ofList] using ih

end Source

end Reckoner
