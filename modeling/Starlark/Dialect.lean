/-!
# Dialects

The kinds of file written in the language. The grammar is the same for all of
them; the dialect decides how top-level statements are spaced. It is guessed
from the last component of a file name, letter case aside.
-/

set_option autoImplicit false

namespace Starlark

/-- The kind of file a source belongs to. -/
inductive Dialect where
  | build
  | bzl
  | workspace
  | module
  | default
  deriving DecidableEq, Inhabited

namespace Dialect

/-- The name a dialect is reported by. -/
def shown : Dialect → String
  | .build => "BUILD"
  | .bzl => ".bzl"
  | .workspace => "WORKSPACE"
  | .module => "MODULE.bazel"
  | .default => "default"

/-- Whether files of the dialect list targets rather than define functions. -/
def listsTargets : Dialect → Bool
  | .build | .workspace | .module => true
  | .bzl | .default => false

/-- The lower-case form of a character, as far as file names need it: an ASCII
capital gives its small letter and the Kelvin sign gives `k`. No other
character has an ASCII letter standing alone as its lower-case form, so none
can help to spell one of the names below. -/
def lowerChar (c : Char) : Char := if c = '\u212A' then 'k' else c.toLower

/-- The last component of a file name, in lower case. -/
def baseName (name : List Char) : List Char :=
  let isSeparator (c : Char) : Bool := c == '/' || c == '\\'
  ((name.reverse.takeWhile (!isSeparator ·)).reverse).map lowerChar

/-- A base name without one closing `.oss`. -/
def dropOss (base : List Char) : List Char :=
  if ".oss".toList.isSuffixOf base then base.take (base.length - 4) else base

/-- What follows the last dot of a base name, the dot included; empty when it
has no dot. -/
def extension (base : List Char) : List Char :=
  if base.contains '.' then '.' :: (base.reverse.takeWhile (· != '.')).reverse else []

/-- The dialect a file name suggests. -/
def ofFileName (name : String) : Dialect :=
  let base := dropOss (baseName name.toList)
  let ext := extension base
  if base = "module.bazel".toList then .module
  else if ext = ".bzl".toList then .bzl
  else if ext = ".sky".toList then .default
  else if ext = ".build".toList || base = "build".toList || "build.".toList.isPrefixOf base then
    .build
  else if ext = ".workspace".toList || base = "workspace".toList ||
      "workspace.".toList.isPrefixOf base then
    .workspace
  else .default

end Dialect

end Starlark
