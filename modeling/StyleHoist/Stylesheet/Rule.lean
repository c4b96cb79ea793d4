import StyleHoist.Stylesheet.Key

/-!
Rules of the generated stylesheet.  A rule selects the elements that have all of its class names,
and the rewritten tag gets those names as its classes.
-/

set_option autoImplicit false
set_option relaxedAutoImplicit false

namespace StyleHoist

structure Rule where
  /-- The class names that an element has to have. -/
  names : List Bytes
  declarations : Bytes
  deriving DecidableEq

/-- Declarations with a line feed behind each semicolon. -/
def breakDeclarations (style : Bytes) : Bytes :=
  style.flatMap fun b => if b = Ascii.semicolon then [b, Ascii.lineFeed] else [b]

/-- The class names of a rewritten tag: the classes that it had and a key, or in place of them its
id, or a key alone. -/
def Record.classNames (scope : Bytes) (number : Nat) (r : Record) : List Bytes :=
  match Ascii.words r.classes with
  | [] => if r.id = [] then [r.key scope number] else [r.id]
  | words => words ++ [r.key scope number]

def Record.rule (scope : Bytes) (number : Nat) (r : Record) : Rule :=
  ⟨r.classNames scope number, breakDeclarations r.style⟩

namespace Rule

/-- The compound selector: a dot before each name. -/
def selector (rule : Rule) : Bytes := rule.names.flatMap fun name => Ascii.dot :: name

def classAttribute (rule : Rule) : Bytes := Bytes.join [Ascii.space] rule.names

def block (rule : Rule) : Bytes :=
  rule.selector ++ utf8 "\x7b\n" ++ rule.declarations ++ utf8 "\x7d\n\n"

/-- The attributes that stand for a record's token: its id, the classes of the rule and the other
attributes as they were written. -/
def attributes (rule : Rule) (r : Record) : Bytes :=
  let id := if r.id = [] then [] else utf8 " id=\"" ++ r.id ++ utf8 "\""
  let classes := utf8 " class=\"" ++ rule.classAttribute ++ utf8 "\""
  let others := if r.others = [] then [] else Ascii.space :: r.others
  id ++ classes ++ others

end Rule

end StyleHoist
