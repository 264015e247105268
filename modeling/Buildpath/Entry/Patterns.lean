import Buildpath.Entry.Basic
import Buildpath.Glob.Parse

/-!
# Inclusion and exclusion

Which resources below an entry its patterns hide. A pattern is relative to the path of the entry; one
that ends with a slash stands for a folder and everything below it. Exclusion patterns hide files and
folders, inclusion patterns hide the files that none of them matches. A text that is not a pattern
matches nothing.
-/

namespace Buildpath

/-- The globs that a pattern stands for. -/
def patternGlobs (pattern : String) : List (List Char) :=
  match pattern.toList.reverse with
  | '/' :: folder => [folder.reverse, folder.reverse ++ ['/', '*', '*']]
  | _ => [pattern.toList]

/-- Whether one of some patterns matches a relative path. -/
def matchesPattern (patterns : List String) (relative : String) : Bool :=
  let text := relative.toUTF8.toList
  (patterns.flatMap patternGlobs).any fun glob =>
    (Glob.parse? glob).any fun pattern => Glob.isMatch pattern text

/-- Whether the patterns of an entry hide a path below it. -/
def Entry.isExcluded (e : Entry) (path : Path) (isFolder : Bool) : Bool :=
  if !e.path.isPrefixOf path || e.path = path then false
  else
    let relative := (path.dropFirst e.path.segmentCount).toString
    if !e.exclusions.isEmpty && matchesPattern e.exclusions relative then true
    else !isFolder && !e.inclusions.isEmpty && !matchesPattern e.inclusions relative

end Buildpath
