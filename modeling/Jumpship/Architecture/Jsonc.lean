import Jumpship.Py.Json
import Jumpship.Py.Text

/-!
# Reading a JSONC file

`_strip_jsonc_comments`, `_strip_jsonc_trailing_commas` and `_load_jsonc` of the architecture checker.
-/

namespace Architecture

open Py Unicode

/-- `in_string` and `escaped`. -/
inductive StringState where
  | outside
  | inside (escaped : Bool)

/-- What follows a character of a string. -/
def nextInside (escaped : Bool) (char : Char) : StringState :=
  if escaped then .inside false
  else if char = '\\' then .inside true
  else if char = '"' then .outside
  else .inside false

/-- The loop of `_strip_jsonc_comments` is in one of its loops over a comment, or in neither. -/
inductive CommentState where
  | text (state : StringState)
  | line
  | block

def stripJsoncCommentsFrom : CommentState → List Char → List Char
  | _, [] => []
  | .text (.inside escaped), char :: rest =>
    char :: stripJsoncCommentsFrom (.text (nextInside escaped char)) rest
  | .text .outside, '"' :: rest => '"' :: stripJsoncCommentsFrom (.text (.inside false)) rest
  | .text .outside, '/' :: '/' :: rest => ' ' :: ' ' :: stripJsoncCommentsFrom .line rest
  | .text .outside, '/' :: '*' :: rest => ' ' :: ' ' :: stripJsoncCommentsFrom .block rest
  | .text .outside, char :: rest => char :: stripJsoncCommentsFrom (.text .outside) rest
  | .line, '\n' :: rest => '\n' :: stripJsoncCommentsFrom (.text .outside) rest
  | .line, _ :: rest => ' ' :: stripJsoncCommentsFrom .line rest
  | .block, '*' :: '/' :: rest => ' ' :: ' ' :: stripJsoncCommentsFrom (.text .outside) rest
  | .block, char :: rest =>
    (if char = '\n' then '\n' else ' ') :: stripJsoncCommentsFrom .block rest

/-- `_strip_jsonc_comments` -/
def stripJsoncComments (content : List Char) : List Char :=
  stripJsoncCommentsFrom (.text .outside) content

/-- What the cursor stops at is a closing bracket. -/
def closesNext : List Char → Bool
  | [] => false
  | char :: rest => if isSpaceCode char.toNat then closesNext rest else char = '}' || char = ']'

def stripJsoncTrailingCommasFrom : StringState → List Char → List Char
  | _, [] => []
  | .inside escaped, char :: rest =>
    char :: stripJsoncTrailingCommasFrom (nextInside escaped char) rest
  | .outside, char :: rest =>
    if char = '"' then char :: stripJsoncTrailingCommasFrom (.inside false) rest
    else if char = ',' && closesNext rest then ' ' :: stripJsoncTrailingCommasFrom .outside rest
    else char :: stripJsoncTrailingCommasFrom .outside rest

/-- `_strip_jsonc_trailing_commas` -/
def stripJsoncTrailingCommas (content : List Char) : List Char :=
  stripJsoncTrailingCommasFrom .outside content

/-- What `_load_jsonc` hands to `json.loads`. -/
def reduceJsonc (content : List Char) : List Char :=
  stripJsoncTrailingCommas (stripJsoncComments content)

/-- `path.read_text(encoding="utf-8")`, with its universal newlines. -/
def universalNewlines : List Char → List Char
  | [] => []
  | '\r' :: '\n' :: rest => '\n' :: universalNewlines rest
  | '\r' :: rest => '\n' :: universalNewlines rest
  | char :: rest => char :: universalNewlines rest

/-- `_load_jsonc` on the bytes of the file. -/
def loadJsonc (raw : List UInt8) : Option Dict := do
  let content ← utf8Decode raw
  match ← loads (reduceJsonc (universalNewlines content)) with
  | .obj value => some value
  | _ => none

end Architecture
