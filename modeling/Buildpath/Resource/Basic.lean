import Buildpath.Path

/-!
# Resources

The kinds of resources and why an access to one can fail.
-/

namespace Buildpath

/-- What a resource is. -/
inductive ResourceKind where
  | file
  | folder
  | project
deriving DecidableEq, Repr, Inhabited

namespace ResourceKind

/-- Whether resources of a kind hold others. -/
def isContainer : ResourceKind → Bool
  | file => false
  | folder | project => true

/-- The word for a kind in a report. -/
def reportWord : ResourceKind → String
  | file => "file"
  | folder => "folder"
  | project => "project"

end ResourceKind

/-- Why a resource cannot be read or written. -/
inductive AccessCause where
  | notFound
  | notADirectory
  | isADirectory
  | alreadyExists
  | invalidInput
  | nameTooLong
  | invalidData
deriving DecidableEq, Repr, Inhabited

/-- The system's message for a cause. -/
def AccessCause.systemMessage : AccessCause → String
  | notFound => "No such file or directory (os error 2)"
  | notADirectory => "Not a directory (os error 20)"
  | isADirectory => "Is a directory (os error 21)"
  | alreadyExists => "File exists (os error 17)"
  | invalidInput => "file name contained an unexpected NUL byte"
  | nameTooLong => "File name too long (os error 36)"
  | invalidData => "stream did not contain valid UTF-8"

/-- A failed access to a resource: its cause and the message for it. -/
structure AccessError where
  cause : AccessCause
  message : String
deriving DecidableEq, Repr, Inhabited

/-- The error of the system for a cause. -/
def AccessError.ofCause (cause : AccessCause) : AccessError := ⟨cause, cause.systemMessage⟩

/-- The error for a workspace path without a resource. -/
def AccessError.missing (path : Path) : AccessError :=
  ⟨.notFound, "resource not found: " ++ path.toString⟩

/-- The nature of projects that declare none. -/
def defaultNature : String := "org.eclipse.dltk.core.scriptnature"

end Buildpath
