import Jumpship.Codegen.Patterns

/-!
# Return paths

The schemas of the paths that a login or a grant comes back to: `return_path` in
`_operation_request_schema`, and the `Location` of the completion responses in `_operation`.
-/

namespace Codegen.ReturnPaths

open Codegen.Patterns Pattern Regex

def pathCharacters : Regex :=
  .cls [('A', 'Z'), ('a', 'z'), ('0', '9'), ('_', '_'), ('.', '.'), ('/', '/'), ('?', '?'), ('=', '='),
    ('&', '&'), ('%', '%'), ('-', '-')]

/-- `^/[A-Za-z0-9_./?=&%-]*$` -/
def pathPattern : Regex := .cat (.literal '/') (.star pathCharacters)

theorem pathPattern_ascii : pathPattern.Ascii := by decide

example : anchored pathPattern = "^/[A-Za-z0-9_./?=&%-]*$".toList := by decide +kernel

/-- `return_path` of `startIdentityOAuth` -/
def startIdentityOAuth : StringSchema := ⟨some pathPattern, 0, some 1024⟩

/-- `return_path` of `beginConnectorGrant` -/
def beginConnectorGrant : StringSchema := ⟨some pathPattern, 0, some 1024⟩

/-- `Location` of `completeIdentityOAuth` and `completeConnectorOAuth` -/
def completionLocation : StringSchema := ⟨some pathPattern, 0, some 1024⟩

def returnPathSchemas : List StringSchema :=
  [startIdentityOAuth, beginConnectorGrant, completionLocation]

end Codegen.ReturnPaths
