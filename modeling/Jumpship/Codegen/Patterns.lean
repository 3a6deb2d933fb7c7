import Jumpship.Lib.Regex
import Jumpship.Lib.Unicode

/-!
# The patterns of the contracts

The anchored patterns that the generator shares between the schemas, and the string schemas that the
signature envelope is made of. A schema's pattern is found as ECMAScript finds it.
-/

namespace Codegen.Patterns

open Pattern Regex Unicode

/-! ## Patterns -/

def digit : Regex := .cls [('0', '9')]

def hexDigit : Regex := .cls [('0', '9'), ('a', 'f')]

/-- `HASH_PATTERN` -/
def hashPattern : Regex := .times hexDigit 64

/-- `UUID_PATTERN` -/
def uuidPattern : Regex :=
  seq [.times hexDigit 8, .literal '-', .times hexDigit 4, .literal '-', .literal '7',
    .times hexDigit 3, .literal '-', .cls [('8', '8'), ('9', '9'), ('a', 'a'), ('b', 'b')],
    .times hexDigit 3, .literal '-', .times hexDigit 12]

/-- `(?:0|[1-9][0-9]*)` -/
def versionNumber : Regex := .alt (.literal '0') (.cat (.cls [('1', '9')]) (.star digit))

/-- `(?:-[0-9A-Za-z.-]+)` -/
def preRelease : Regex :=
  .group (.cat (.literal '-')
    (.plus (.cls [('0', '9'), ('A', 'Z'), ('a', 'z'), ('.', '.'), ('-', '-')])))

/-- `SEMVER_PATTERN` -/
def semverPattern : Regex :=
  seq [versionNumber, .literal '.', versionNumber, .literal '.', versionNumber, .opt preRelease]

/-- `RFC3339_PATTERN` -/
def rfc3339Pattern : Regex :=
  seq [.times digit 4, .literal '-', .times digit 2, .literal '-', .times digit 2, .literal 'T',
    .times digit 2, .literal ':', .times digit 2, .literal ':', .times digit 2,
    .opt (.group (.cat (.literal '.') (.range digit 1 9))), .literal 'Z']

def base64Digit : Regex := .cls [('A', 'Z'), ('a', 'z'), ('0', '9'), ('+', '+'), ('/', '/')]

/-- `_BASE64_PATTERN` -/
def base64Pattern : Regex :=
  .cat (.star (.group (.times base64Digit 4)))
    (.opt (.alt (seq [.times base64Digit 2, .literal '=', .literal '='])
      (.cat (.times base64Digit 3) (.literal '='))))

/-- `_SAFE_NAME_PATTERN` -/
def safeNamePattern : Regex :=
  .cat (.cls [('a', 'z')])
    (.range (.cls [('a', 'z'), ('0', '9'), ('_', '_'), ('.', '.'), ('-', '-')]) 0 127)

/-- The pattern of `public_key_pem`. -/
def publicKeyPemPattern : Regex :=
  .cat (word "-----BEGIN PUBLIC KEY-----")
    (.cat (.plus (.cls [('A', 'Z'), ('a', 'z'), ('0', '9'), ('+', '+'), ('/', '/'), ('=', '='),
      ('\r', '\r'), ('\n', '\n'), ('-', '-')])) (word "-----END PUBLIC KEY-----"))

def contractPatterns : List Regex :=
  [hashPattern, uuidPattern, semverPattern, rfc3339Pattern, base64Pattern, safeNamePattern,
    publicKeyPemPattern]

theorem contractPatterns_ascii : ∀ p ∈ contractPatterns, p.Ascii := by decide +kernel

/-- How they are written, the longest two apart. -/
example : [hashPattern, safeNamePattern, rfc3339Pattern].map anchored =
    ["^[0-9a-f]{64}$".toList, "^[a-z][a-z0-9_.-]{0,127}$".toList,
      "^[0-9]{4}-[0-9]{2}-[0-9]{2}T".toList ++ "[0-9]{2}:[0-9]{2}:[0-9]{2}".toList ++
        "(?:\\.[0-9]{1,9})?Z$".toList] := by
  decide +kernel

/-! ## Schemas -/

/-- What `s_string` puts in a schema, `enum`, `const` and the annotations apart. -/
structure StringSchema where
  pattern : Option Regex
  minLength : ℕ
  maxLength : Option ℕ

def StringSchema.admits (schema : StringSchema) (value : List Char) : Bool :=
  schema.minLength ≤ value.length && schema.maxLength.all (value.length ≤ ·) &&
    schema.pattern.all fun p => Dialect.ecmaScript.finds p (utf16 value)

/-- `object_type` in `_signature_envelope_schema` -/
def objectTypeSchema : StringSchema := ⟨some safeNamePattern, 0, some 128⟩

/-- `object_schema_version` in `_signature_envelope_schema` -/
def objectSchemaVersionSchema : StringSchema := ⟨some semverPattern, 0, some 64⟩

end Codegen.Patterns
