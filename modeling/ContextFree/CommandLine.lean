import ContextFree.Directory
import ContextFree.Notation.Definition
import ContextFree.Summary

/-!
# The command line

Reads a grammar definition from a file, converts the grammar to Chomsky normal form and prints what
the options ask for. All of it is a function of the options and the content of the file.
-/

namespace ContextFree

structure Options where
  path : Text
  steps : Bool
  summary : Bool
  /-- Up to which length to print the words of the language, as it was written. -/
  words : Option Text
  deriving DecidableEq

namespace Options

/-- The options seen so far, perhaps without a path. -/
structure Draft where
  path : Option Text
  steps : Bool
  summary : Bool
  words : Option Text

/-- Whether an argument is no value but a flag; a dash alone is a value. -/
def isFlag (arg : Text) : Bool := arg.head? = some '-' && arg != ['-']

/-- Reads arguments one by one; `none` if they make no sense. Equals signs in front of the value of
`--words=` do not belong to it. -/
def Draft.read (d : Draft) : List Text → Option Draft
  | [] => some d
  | arg :: args =>
    if arg = "-s".toList ∨ arg = "--steps".toList then { d with steps := true }.read args
    else if arg = "--summary".toList then { d with summary := true }.read args
    else if arg = "-w".toList ∨ arg = "--words".toList then
      match args with
      | n :: args => if isFlag n then none else { d with words := some n }.read args
      | [] => none
    else if "--words=".toList.isPrefixOf arg then
      { d with words := some ((arg.drop 8).dropWhile (· = '=')) }.read args
    else if d.path.isSome ∨ isFlag arg then none
    else { d with path := some arg }.read args

def read? (args : List Text) : Option Options := do
  let d ← Draft.read ⟨none, false, false, none⟩ args
  let path ← d.path
  return ⟨path, d.steps, d.summary, d.words⟩

end Options

inductive NumberError where
  | empty
  | invalidDigit
  | tooLarge
  deriving DecidableEq

def NumberError.message : NumberError → Text
  | empty => "cannot parse integer from empty string".toList
  | invalidDigit => "invalid digit found in string".toList
  | tooLarge => "number too large to fit in target type".toList

namespace WordLength

/-- The greatest length that can be asked for, the greatest number of 64 bits. -/
def bound : Nat := 18446744073709551615

/-- Reads the digits that follow a number read so far; the first fault counts. -/
def readDigits (n : Nat) : Text → Except NumberError Nat
  | [] => .ok n
  | c :: t =>
    if !c.isDigit then .error .invalidDigit
    else
      let n := 10 * n + (c.toNat - '0'.toNat)
      if n ≤ bound then readDigits n t else .error .tooLarge

/-- Reads a number in decimal, perhaps with a plus sign in front. -/
def read : Text → Except NumberError Nat
  | [] => .error .empty
  | ['+'] => .error .invalidDigit
  | '+' :: t => readDigits 0 t
  | t => readDigits 0 t

end WordLength

/-- What the program prints, and how it ends. -/
structure Response where
  exitCode : Nat
  output : Text
  errors : Text
  deriving DecidableEq

namespace CommandLine

def indent (t : Text) : Text := t.flatMap fun c => if c = '\n' then "\n    ".toList else [c]

/-- The causes of a failure; they are numbered if there is more than one. -/
def causeLines : List Text → Text
  | [cause] => "    ".toList ++ indent cause ++ ['\n']
  | causes => causes.zipIdx.flatMap fun (cause, i) =>
    "    ".toList ++ Text.decimal i ++ [':', ' '] ++ indent cause ++ ['\n']

def failure (output what : Text) (causes : List Text) : Response where
  exitCode := 1
  output := output
  errors := "Error: ".toList ++ what ++ "\n\nCaused by:\n".toList ++ causeLines causes

/-- An error in the symbols of a grammar is the cause of an error in its definition that has the
same text. -/
def causes : NotationError → List Text
  | .grammar e => [e.message.toList, e.message.toList]
  | e => [e.message.toList]

def block (heading content : Text) : Text := heading ++ [':', '\n'] ++ content ++ ['\n']

def stagesText : Nat → List StageRecord → Text
  | _, [] => []
  | i, r :: rs =>
    "Step ".toList ++ Text.decimal i ++ [':', ' '] ++ r.stage.title.toList ++ ['\n'] ++
      r.grammar.description.text ++ ['\n'] ++ stagesText (i + 1) rs

def report (options : Options) (g : Grammar) : Text :=
  let n := g.normalize
  block "Original grammar".toList g.description.text ++
    (if options.steps then stagesText 1 n.records else []) ++
    (if options.summary then n.summary ++ ['\n'] else []) ++
    block "Chomsky normal form".toList n.normalForm.description.text ++
    (if n.isLanguageEmpty then "The grammar generates the empty language.\n".toList else [])

def wordsText (n : Nat) (words : List Sentence) : Text :=
  "Words up to length ".toList ++ Text.decimal n ++ " (".toList ++ Text.decimal words.length ++
    "):\n".toList ++ words.flatMap fun u => [' ', ' '] ++ spell u ++ ['\n']

/-- Answers the options, given what was found at their path. -/
def respond (options : Options) (found : Except ReadFailure Text) : Response :=
  match found with
  | .error e => failure [] ("cannot read ".toList ++ options.path) [e.message]
  | .ok source =>
    match Grammar.ofDefinition source with
    | .error e => failure [] ("cannot parse ".toList ++ options.path) (causes e)
    | .ok g =>
      let output := report options g
      match options.words with
      | none => ⟨0, output, []⟩
      | some text =>
        match WordLength.read text with
        | .error e =>
          failure output ("invalid word length `".toList ++ text ++ "`".toList) [e.message]
        | .ok n => ⟨0, output ++ wordsText n (g.normalize.normalForm.shortWords n), []⟩

end CommandLine

end ContextFree
