-- Which packages and which archives a scan takes in. Packages are named by a package at or
-- above them and archives by patterns of file names; a rejection wins over an acceptance,
-- and a list of acceptances that is empty accepts all.
import ClassAtlas.Name
import ClassAtlas.Text.Blank
import ClassAtlas.Text.Regex

namespace ClassAtlas

/-! ## Packages -/

namespace PackagePattern

/-- A text without all pairs `.*` at its end. -/
def dropStars (reversed : List Char) : List Char :=
  match reversed with
  | '*' :: '.' :: rest => dropStars rest
  | text => text

/-- The dotted package that a pattern names. Blanks around it, stars below it and dots at
its end do not count, and slashes count as dots. -/
def normalize (pattern : String) : String :=
  let text := (dropStars (Text.trimmed pattern.toList).reverse).reverse
  Text.replaceChar '/' '.' (String.ofList (Text.dropEndWhile (· = '.') text))

end PackagePattern

/-- Whether a package is the package `top` or below it. The empty name is above all. -/
def withinPackage (package top : String) : Bool :=
  if top = "" then true
  else
    match Text.dropFront? top.toList package.toList with
    | some [] => true
    | some (c :: _) => c = '.'
    | none => false

/-! ## Archives

A star in a pattern stands for any run of characters, a question mark for one, and every
other character for itself. No wildcard stands for a line feed. A pattern has to match the
whole name. -/

/-- A pattern for the file names of archives. -/
structure Glob where
  /-- The pattern as it was given. -/
  pattern : String
deriving DecidableEq

namespace Glob

/-- What a character of a pattern is in a regular expression. -/
def expressionOf (c : Char) : List Char :=
  if c = '*' then ['.', '*'] else if c = '?' then ['.'] else Regex.escape c

/-- The regular expression of a pattern. It reaches from one end of a name to the other. -/
def expression (g : Glob) : String :=
  String.ofList ('^' :: (g.pattern.toList.flatMap expressionOf ++ ['$']))

end Glob

/-! ## Filters -/

structure NameFilter where
  acceptPackages : List String := []
  rejectPackages : List String := []
  acceptArchives : List Glob := []
  rejectArchives : List Glob := []
deriving DecidableEq

namespace NameFilter

/-- The filter of four lists of patterns. -/
def ofPatterns (acceptPackages rejectPackages acceptArchives rejectArchives : List String) :
    NameFilter where
  acceptPackages := acceptPackages.map PackagePattern.normalize
  rejectPackages := rejectPackages.map PackagePattern.normalize
  acceptArchives := acceptArchives.map Glob.mk
  rejectArchives := rejectArchives.map Glob.mk

/-- Whether some rejected package is the package or above it. -/
def rejectsPackage (f : NameFilter) (package : String) : Bool :=
  f.rejectPackages.any (withinPackage package)

/-- Whether the classes of a package are taken in. -/
def packageAccepted (f : NameFilter) (package : String) : Bool :=
  !f.rejectsPackage package &&
    (f.acceptPackages.isEmpty || f.acceptPackages.any (withinPackage package))

/-- Whether a class of that name is taken in. -/
def classAccepted (f : NameFilter) (name : String) : Bool := f.packageAccepted (Name.package name)

/-- Whether a package or one below it may hold classes that are taken in. -/
def packageMayContainAccepted (f : NameFilter) (package : String) : Bool :=
  !f.rejectsPackage package &&
    (f.acceptPackages.isEmpty ||
      f.acceptPackages.any fun top => withinPackage package top || withinPackage top package)

/-- Whether an archive of that file name is taken in. The expressions of the patterns are searched
for by `search`. -/
def archiveAcceptedWith (search : String → String → Bool) (f : NameFilter) (fileName : String) :
    Bool :=
  !(f.rejectArchives.any fun g => search g.expression fileName) &&
    (f.acceptArchives.isEmpty || f.acceptArchives.any fun g => search g.expression fileName)

/-- Whether an archive of that file name is taken in by the search of this library. -/
def archiveAccepted : NameFilter → String → Bool := archiveAcceptedWith Regex.search

/-! ## Fingerprints -/

/-- One more than the greatest digit of a fingerprint. -/
def fingerprintBase : Nat := 0x110002

/-- The digits of a list of texts: two more than the code of each character, a one after
each text and a zero after the last. -/
def digitsOfTexts (texts : List String) : List Nat :=
  texts.flatMap (fun text => text.toList.map (fun c => c.toNat + 2) ++ [1]) ++ [0]

/-- A number that tells filters apart: two filters have the same one exactly when their
lists are the same. -/
def fingerprint (f : NameFilter) : Nat :=
  let digits := digitsOfTexts f.acceptPackages ++ digitsOfTexts f.rejectPackages ++
    digitsOfTexts (f.acceptArchives.map Glob.pattern) ++
    digitsOfTexts (f.rejectArchives.map Glob.pattern)
  digits.foldl (fun n d => n * fingerprintBase + d) 1

end NameFilter

end ClassAtlas
