import StyleHoist.Stylesheet.Rule

/-!
Rewriting a marked text: each token gives way to the attributes of its record, and the rules of
the records make up a stylesheet.  Rewriting fails exactly when a token is missing behind the one
before it.
-/

set_option autoImplicit false
set_option relaxedAutoImplicit false

namespace StyleHoist

/-- A marked text rewritten, and the rules of its records in order. -/
structure Rewrite where
  html : Bytes
  rules : List Rule
  deriving DecidableEq

inductive RewriteError where
  /-- A token does not occur behind the one before it. -/
  | missingToken (token : Bytes)
  deriving DecidableEq

def RewriteError.message : RewriteError → Bytes
  | missingToken token =>
    utf8 "placeholder " ++ token ++ utf8 " is missing from the scanned text"

structure Substitution where
  token : Bytes
  replacement : Bytes
  deriving DecidableEq

/-- Replaces each token at its first occurrence behind the one before it. -/
def substitute : List Substitution → Bytes → Except RewriteError Bytes
  | [], text => .ok text
  | s :: substitutions, text =>
    match Bytes.splitFirst? s.token text with
    | none => .error (.missingToken s.token)
    | some (before, after) =>
      (substitute substitutions after).map fun rest => before ++ s.replacement ++ rest

/-- The rules of records, numbered from one. -/
def rulesOf (scope : Bytes) (records : List Record) : List Rule :=
  (records.zipIdx 1).map fun (r, number) => r.rule scope number

def rewrite (scope : Bytes) (marked : Bytes) (records : List Record) :
    Except RewriteError Rewrite :=
  let rules := rulesOf scope records
  let substitutions := (records.zip rules).map fun (r, rule) => ⟨r.token, rule.attributes r⟩
  (substitute substitutions marked).map fun html => ⟨html, rules⟩

def Rewrite.css (r : Rewrite) : Bytes := r.rules.flatMap Rule.block

end StyleHoist
