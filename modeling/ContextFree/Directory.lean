import ContextFree.Text.Basic

/-!
# Directories

A directory of texts, and what is found in it under a path. A path is followed part by part, the
parts standing between slashes. An empty part and `.` stay where they are, `..` leads to the
directory above, of which nothing is known but that it is a directory, and nothing lies below a
text. A path that begins with a slash starts above.
-/

namespace ContextFree

inductive ReadFailure where
  | notFound
  | denied
  | notADirectory
  | isADirectory
  | nameTooLong
  /-- What is found is not encoded in UTF-8. -/
  | notText
  deriving DecidableEq

def ReadFailure.message : ReadFailure → Text
  | notFound => "No such file or directory (os error 2)".toList
  | denied => "Permission denied (os error 13)".toList
  | notADirectory => "Not a directory (os error 20)".toList
  | isADirectory => "Is a directory (os error 21)".toList
  | nameTooLong => "File name too long (os error 36)".toList
  | notText => "stream did not contain valid UTF-8".toList

structure Directory where
  texts : List (Text × Text)
  deriving DecidableEq

namespace Directory

inductive Place where
  | here
  | above
  | text (content : Text)
  deriving DecidableEq

def longestPart : Nat := 255

def longestPath : Nat := 4095

def follow (d : Directory) : Place → Text → Except ReadFailure Place
  | .text _, _ => .error .notADirectory
  | place, part =>
    if part = [] ∨ part = ['.'] then .ok place
    else if part = ['.', '.'] then .ok .above
    else if longestPart < Text.byteLength part then .error .nameTooLong
    else match place, d.texts.lookup part with
      | .here, some content => .ok (.text content)
      | _, _ => .error .notFound

def startOf : Text → Place
  | '/' :: _ => .above
  | _ => .here

def read (d : Directory) (path : Text) : Except ReadFailure Text :=
  if path = [] then .error .notFound
  else if longestPath < Text.byteLength path then .error .nameTooLong
  else
    match (path.splitOn '/').foldlM d.follow (startOf path) with
    | .ok (.text content) => .ok content
    | .ok _ => .error .isADirectory
    | .error e => .error e

end Directory

end ContextFree
