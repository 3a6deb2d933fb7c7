import Jumpship.Lib.Hex
import Jumpship.Lib.Regex
import Jumpship.Lib.Sha256
import Jumpship.Lib.Unicode
import Jumpship.Py.Text

/-!
# The living source

`parse_living_source` on the bytes of the file. `normalize` is `unicodedata.normalize("NFKD", …)`.
-/

namespace Capabilities

open Pattern Regex Unicode

inductive CapabilityError where
  | notUtf8
  | noAddendum
  | noNumbered
  | noSlug (value : List Char)
  /-- `ValueError`: `int` takes 4300 digits at most. -/
  | tooManyDigits

/-! ## Lines -/

section Lines

def isSpace (c : Char) : Bool := Py.isSpaceCode c.toNat

/-- The line boundaries of `str.splitlines`, `"\r\n"` apart. -/
def isLineBreak (c : Char) : Bool :=
  c.toNat ∈ [0x0A, 0x0B, 0x0C, 0x0D, 0x1C, 0x1D, 0x1E, 0x85, 0x2028, 0x2029]

/-- `text.splitlines()`, with the line read so far. -/
def splitlinesFrom (line : List Char) : List Char → List (List Char)
  | [] => if line = [] then [] else [line]
  | '\r' :: '\n' :: rest => line :: splitlinesFrom [] rest
  | c :: rest =>
    if isLineBreak c then line :: splitlinesFrom [] rest else splitlinesFrom (line ++ [c]) rest

def splitlines (text : List Char) : List (List Char) := splitlinesFrom [] text

def isDigit (c : Char) : Bool := '0' ≤ c && c ≤ '9'

def isLower (c : Char) : Bool := 'a' ≤ c && c ≤ 'z'

/-- `\s+(.+)$`: all of the space, but for its last character where nothing else is left. -/
def afterSpace (s : List Char) : Option (List Char) :=
  let space := s.takeWhile isSpace
  let rest := s.dropWhile isSpace
  if space = [] then none
  else if rest ≠ [] then some rest
  else if 2 ≤ space.length then some (space.drop (space.length - 1))
  else none

/-- `NUMBERED_RE`: the label and the body. -/
def matchNumbered (line : List Char) : Option (List Char × List Char) :=
  let digits := line.takeWhile isDigit
  let rest := line.dropWhile isDigit
  let letter := (rest.take 1).filter isLower
  if digits = [] then none
  else
    match rest.drop letter.length with
    | '.' :: rest => (afterSpace rest).map fun body => (digits ++ letter, body)
    | _ => none

/-- `HEADING_RE`: the number of marks and the title, without the space behind it. -/
def matchHeading (line : List Char) : Option (ℕ × List Char) :=
  let marks := line.takeWhile (· = '#')
  if 2 ≤ marks.length ∧ marks.length ≤ 4 then
    (afterSpace (line.dropWhile (· = '#'))).map fun title =>
      (marks.length,
        if title.all isSpace then title else (title.reverse.dropWhile isSpace).reverse)
  else none

end Lines

/-! ## Slugs -/

section Slugs

variable (normalize : List Char → List Char)

/-- ``re.sub(r"`([^`]*)`", r"\1", value)``, by the length of the value. -/
def unquote : ℕ → List Char → List Char
  | n + 1, '\x60' :: s =>
    match s.dropWhile (· ≠ '\x60') with
    | _ :: rest => s.takeWhile (· ≠ '\x60') ++ unquote n rest
    | [] => '\x60' :: s
  | n + 1, c :: s => c :: unquote n s
  | _, s => s

/-- `re.sub(r"\[([^]]+)\]\([^)]*\)", r"\1", value)`, by the length of the value. -/
def unlink : ℕ → List Char → List Char
  | n + 1, '[' :: s =>
    match s.takeWhile (· ≠ ']'), s.dropWhile (· ≠ ']') with
    | c :: text, _ :: '(' :: target =>
      match target.dropWhile (· ≠ ')') with
      | _ :: rest => c :: text ++ unlink n rest
      | [] => '[' :: unlink n s
    | _, _ => '[' :: unlink n s
  | n + 1, c :: s => c :: unlink n s
  | _, s => s

/-- `_strip_markdown` -/
def stripMarkdown (value : List Char) : List Char :=
  let value := unquote value.length value
  let value := unlink value.length value
  let value := value.flatMap fun c => if c = '&' then [' ', 'a', 'n', 'd', ' '] else [c]
  (normalize value).filter fun c => c.toNat < 128

def isWordChar (c : Char) : Bool := isLower c || isDigit c

/-- `re.findall(r"[a-z0-9]+", value)` -/
def findWords (value : List Char) : List (List Char) :=
  (value.splitBy fun c d => isWordChar c = isWordChar d).filter fun word => word.all isWordChar

/-- The words of a slug, none an error. -/
def slugWords (value : List Char) (limitWords : Option ℕ) : Except CapabilityError (List (List Char)) :=
  let words := findWords ((stripMarkdown normalize value).map Char.toLower)
  let words := match limitWords with
    | some limit => words.take limit
    | none => words
  if words = [] then throw (.noSlug value) else pure words

def slugify (value : List Char) (limitWords : Option ℕ) : Except CapabilityError (List Char) := do
  let words ← slugWords normalize value limitWords
  pure (['-'].intercalate words)

end Slugs

/-! ## Anchors -/

section Anchors

variable (normalize : List Char → List Char)

def sha256Hex (text : List Char) : List Char := Hex.encodeToString (Sha256.sha256 (utf8 text))

def decimalText (n : ℕ) : List Char := Nat.toDigits 10 n

structure NumberedAnchor where
  anchorId : List Char
  contentSha256 : List Char
  display : List Char
  occurrence : ℕ
  occurrenceCount : ℕ
  sourceLine : ℕ
  title : List Char

structure AddendumAnchor where
  anchorId : List Char
  contentSha256 : List Char
  headingLevel : ℕ
  headingPath : List (List Char)
  sourceLine : ℕ
  title : List Char

/-- A line of `numbered_candidates`. -/
structure Candidate where
  index : ℕ
  line : List Char
  label : List Char
  body : List Char

def intOf (digits : List Char) : ℕ := digits.foldl (fun n c => 10 * n + (c.toNat - 48)) 0

/-- The line is a candidate before the addenda, or as a number from 142 on. -/
def candidateOf (addendumStart : ℕ) (entry : List Char × ℕ) :
    Except CapabilityError (Option Candidate) :=
  match matchNumbered entry.1 with
  | none => pure none
  | some (label, body) =>
    let digits := label.takeWhile isDigit
    if 4300 < digits.length then throw .tooManyDigits
    else if entry.2 < addendumStart ∨ 142 ≤ intOf digits then
      pure (some ⟨entry.2, entry.1, label, body⟩)
    else pure none

def numberedPrefix : List Char := "numbered-list:".toList

def addendumPrefix : List Char := "addendum:".toList

/-- `f"numbered-list:{label}:{base_slug}"` -/
def numberedId (label slug : List Char) : List Char := numberedPrefix ++ label ++ ':' :: slug

/-- The loop over the candidates; `labels` are those of the candidates before. -/
def numberedAnchors (count : List Char → ℕ) :
    List (List Char) → List (List Char) → List Candidate → Except CapabilityError (List NumberedAnchor)
  | _, _, [] => pure []
  | used, labels, candidate :: candidates => do
    let labels := labels ++ [candidate.label]
    let baseSlug ← slugify normalize candidate.body (some 8)
    let anchorId := numberedId candidate.label baseSlug
    let anchorId :=
      if used.contains anchorId then anchorId ++ '-' :: (sha256Hex candidate.line).take 8
      else anchorId
    let anchors ← numberedAnchors count (used ++ [anchorId]) labels candidates
    pure (⟨anchorId, sha256Hex (candidate.line ++ ['\n']), candidate.label,
      labels.count candidate.label, count candidate.label, candidate.index + 1,
      candidate.body⟩ :: anchors)

/-- `heading_stack` with a heading put in and the deeper ones taken out; its keys are in order. -/
def pushHeading (stack : List (ℕ × List Char)) (level : ℕ) (slug : List Char) : List (ℕ × List Char) :=
  stack.filter (·.1 < level) ++ [(level, slug)]

/-- The lines of a section: down to the next heading of its level or above. -/
def sectionLines (level : ℕ) (lines : List (List Char)) : List (List Char) :=
  lines.takeWhile fun line => !(matchHeading line).any (·.1 ≤ level)

/-- `f"addendum:{path_slug}"` -/
def addendumId (path : List (List Char)) : List Char :=
  addendumPrefix ++ ['-', '-'].intercalate path

/-- The loop over the lines from the first addendum on, the first of them at `index`. -/
def addendumAnchors : List (List Char) → List (ℕ × List Char) → ℕ → List (List Char) →
    Except CapabilityError (List AddendumAnchor)
  | _, _, _, [] => pure []
  | used, stack, index, line :: lines =>
    match matchHeading line with
    | none => addendumAnchors used stack (index + 1) lines
    | some (level, title) => do
      let slug ← slugify normalize title none
      let stack := pushHeading stack level slug
      let path := stack.map Prod.snd
      let anchorId := addendumId path
      let anchorId :=
        if used.contains anchorId then anchorId ++ '-' :: decimalText (index + 1) else anchorId
      let text := ['\n'].intercalate (line :: sectionLines level lines) ++ ['\n']
      let anchors ← addendumAnchors (used ++ [anchorId]) stack (index + 1) lines
      pure (⟨anchorId, sha256Hex text, level, path, index + 1, title⟩ :: anchors)

/-- `numbered_candidates` -/
def numberedCandidates (addendumStart : ℕ) (lines : List (List Char)) :
    Except CapabilityError (List Candidate) := do
  let candidates ← lines.zipIdx.mapM (candidateOf addendumStart)
  pure candidates.reduceOption

def startsAddendum (line : List Char) : Bool := "## Addendum".toList.isPrefixOf line

def parseLines (lines : List (List Char)) :
    Except CapabilityError (List NumberedAnchor × List AddendumAnchor) := do
  let addendumStart := lines.findIdx startsAddendum
  if addendumStart = lines.length then throw .noAddendum
  let candidates ← numberedCandidates addendumStart lines
  if candidates = [] then throw .noNumbered
  let labels := candidates.map (·.label)
  let numbered ← numberedAnchors normalize (labels.count ·) [] [] candidates
  let addenda ← addendumAnchors normalize (numbered.map (·.anchorId)) [] addendumStart
    (lines.drop addendumStart)
  pure (numbered, addenda)

/-- `parse_living_source`: the hash of the file, and its anchors of both kinds in order. -/
def parseLivingSource (raw : List UInt8) :
    Except CapabilityError (List Char × List NumberedAnchor × List AddendumAnchor) := do
  match utf8Decode raw with
  | none => throw .notUtf8
  | some text =>
    let (numbered, addenda) ← parseLines normalize (splitlines text)
    pure (Hex.encodeToString (Sha256.sha256 raw), numbered, addenda)

end Anchors

end Capabilities
