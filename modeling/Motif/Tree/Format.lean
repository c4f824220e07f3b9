import Motif.Json.Parser
import Motif.Json.Printer
import Motif.Number.Decimal
import Motif.Tree.Node

/-!
# Trees as JSON documents

A node is an object with `id`, `span` and `kind`; a kind is an object whose `tag` names it. Reading
is lenient about what it does not know (other fields are passed over, ids and spans may be missing)
and strict about the rest: a known field may occur only once, and a document may not nest more than
127 containers.
-/

namespace Motif

/-- The name of a kind in documents: like its name, with a small first letter. -/
def Tag.key (tag : Tag) : String :=
  match tag.name.toList with
  | [] => ""
  | c :: cs => String.ofList (c.toLower :: cs)

def Tag.ofKey? (key : String) : Option Tag := Tag.all.find? fun tag => tag.key == key

/-! ## Writing -/

structure Format where
  number : Float → Json
  /-- Spans of zeros are written too. -/
  writesEmptySpan : Bool

namespace Format

/-- The form that is read back: numbers as JSON numbers, `null` where JSON has none. -/
def document : Format where
  number x := ((Number.jsonText? x).map Json.number).getD .null
  writesEmptySpan := true

def inspection : Format where
  number x :=
    if Number.isFinite x then
      .ofText (if Number.isZero x && Number.isNegative x then "-0" else Number.text x)
    else .null
  writesEmptySpan := false

section Write

variable (format : Format)

mutual

def value : Value → Json
  | .nothing => .ofText "Nothing"
  | .null => .ofText "Null"
  | .bool b => .ofEntries [("Bool", .bool b)]
  | .number x => .ofEntries [("Number", format.number x)]
  | .string s => .ofEntries [("String", .ofText s)]
  | .array items => .ofEntries [("Array", .array (valueItems items))]
  | .object entries => .ofEntries [("Object", .array (valueEntries entries))]

def valueItems : List Value → List Json
  | [] => []
  | v :: vs => value v :: valueItems vs

def valueEntries : List (String × Value) → List Json
  | [] => []
  | (key, v) :: entries => .array [.ofText key, value v] :: valueEntries entries

end

def span (s : Span) : Json :=
  .ofEntries [("start", .ofNat s.start), ("end", .ofNat s.stop), ("line", .ofNat s.line),
    ("col", .ofNat s.column)]

def target : Target → Json
  | .name name => .ofEntries [("name", .ofText name)]
  | .array names => .ofEntries [("array", .array (names.map .ofText))]
  | .object names => .ofEntries [("object", .array (names.map fun n => .array [.ofText n.1, .ofText n.2]))]

def item (i : ModuleItem) : Json :=
  .ofEntries [("name", .ofText i.name), ("alias", (i.otherName.map .ofText).getD .null)]

def fields : Kind Json → List (String × Json)
  | .module body => [("body", .array body)]
  | .declare assignments => [("assignments", .array assignments)]
  | .assign t v => [("target", target t), ("value", v)]
  | .branch condition thenBody elseBody =>
    [("condition", condition), ("then_body", .array thenBody), ("else_body", .array elseBody)]
  | .loop ranges body elseBody =>
    [("ranges", .array ranges), ("body", .array body), ("else_body", .array elseBody)]
  | .range t collection guard =>
    [("target", target t), ("collection", collection), ("guard", guard.getD .null)]
  | .ret v => [("value", v)]
  | .exprStmt expr => [("expr", expr)]
  | .function name params guard body =>
    [("name", .ofText name), ("params", .array params), ("guard", guard.getD .null),
      ("body", .array body)]
  | .param name pattern variadic =>
    [("name", .ofText name), ("pattern", pattern.getD .null), ("variadic", .bool variadic)]
  | .importAll source localName => [("module", .ofText source), ("alias", .ofText localName)]
  | .importFrom source items => [("module", .ofText source), ("items", .array (items.map item))]
  | .exported decl items => [("decl", decl.getD .null), ("items", .array (items.map item))]
  | .literal v => [("value", value format v)]
  | .ident name => [("name", .ofText name)]
  | .context => []
  | .unary op operand => [("op", .ofText op.name), ("operand", operand)]
  | .binary op left right => [("op", .ofText op.name), ("left", left), ("right", right)]
  | .conj left right => [("left", left), ("right", right)]
  | .disj left right => [("left", left), ("right", right)]
  | .cond condition consequent alternative =>
    [("condition", condition), ("consequent", consequent), ("alternative", alternative)]
  | .array elements => [("elements", .array elements)]
  | .object entries => [("entries", .array entries)]
  | .entry key v => [("key", key), ("value", v)]
  | .member object property => [("object", object), ("property", property)]
  | .call callee args => [("callee", callee), ("args", .array args)]
  | .lambda params body => [("params", .array params), ("body", body)]
  | .reduce accumulators ranges body =>
    [("accumulators", .array accumulators), ("ranges", .array ranges), ("body", .array body)]
  | .choose v clauses elseBody => [("value", v), ("clauses", .array clauses), ("else_body", .array elseBody)]
  | .clause patterns body => [("patterns", .array patterns), ("body", .array body)]
  | .pattern expr => [("expr", expr)]
  | .objectPattern elements => [("elements", .array elements)]
  | .arrayPattern elements => [("elements", .array elements)]
  | .element key v => [("key", key.getD .null), ("value", v)]
  | .regex pattern flags => [("pattern", .ofText pattern), ("flags", .ofText flags)]
  | .doBlock body => [("body", .array body)]
  | .generator body => [("body", .array body)]
  | .await resolver v => [("resolver", .ofText resolver.name), ("value", v)]
  | .emit v => [("value", v)]

def node : Node → Json :=
  Node.fold fun n k =>
    let span := if format.writesEmptySpan || n.span != Span.none then [("span", span n.span)] else []
    let kind := Json.ofEntries (("tag", .ofText k.tag.key) :: fields format k)
    .ofEntries ([("id", .ofNat n.id)] ++ span ++ [("kind", kind)])

end Write

end Format

/-! ## Reading -/

namespace Json

def entries? : Json → Option (List (String × Json))
  | .object entries => entries.mapM fun entry => do return (← Text.Quoted.decode? entry.1, entry.2)
  | _ => none

/-- The entry under a key that has to occur exactly once. -/
def field? (entries : List (String × Json)) (key : String) : Option Json :=
  match entries.filter fun entry => entry.1 == key with
  | [entry] => some entry.2
  | _ => none

/-- The entry under a key that may be missing, but may not occur twice. -/
def optional? (entries : List (String × Json)) (key : String) : Option (Option Json) :=
  match entries.filter fun entry => entry.1 == key with
  | [] => some none
  | [entry] => some (some entry.2)
  | _ => none

/-- Like `optional?`, with `null` for a missing entry too. -/
def nullable? (entries : List (String × Json)) (key : String) : Option (Option Json) :=
  (optional? entries key).map fun found =>
    match found with
    | some .null => none
    | found => found

/-- A choice between alternatives: a name alone, or an object with the name as its only key. -/
def choice? : Json → Option (String × Option Json)
  | .string escaped => (Text.Quoted.decode? escaped).map fun name => (name, none)
  | j => do
    match ← j.entries? with
    | [(name, content)] => some (name, some content)
    | _ => none

def bareChoice? (j : Json) : Option String := do
  match ← j.choice? with
  | (name, none) => some name
  | (name, some .null) => some name
  | (name, some (.object [])) => some name
  | _ => none

def pair? (j : Json) : Option (Json × Json) := do
  match ← j.items? with
  | [a, b] => some (a, b)
  | _ => none

/-- A whole number without a sign up to a limit. -/
def natUpTo? (limit : Nat) (j : Json) : Option Nat := do
  let n ← j.nat?
  if n ≤ limit then some n else none

mutual

/-- Whether a document is sound throughout: containers nest at most `limit` deep, every string can
be read and every number is in range. -/
def isSound (limit : Nat) : Json → Bool
  | .number literal => ((literal? literal).bind Literal.float?).isSome
  | .string escaped => (Text.Quoted.decode? escaped).isSome
  | .array items =>
    match limit with
    | 0 => false
    | limit + 1 => areSound limit items
  | .object entries =>
    match limit with
    | 0 => false
    | limit + 1 => entriesAreSound limit entries
  | _ => true

def areSound (limit : Nat) : List Json → Bool
  | [] => true
  | item :: items => isSound limit item && areSound limit items

def entriesAreSound (limit : Nat) : List (String × Json) → Bool
  | [] => true
  | (key, value) :: entries =>
    (Text.Quoted.decode? key).isSome && isSound limit value && entriesAreSound limit entries

end

end Json

namespace Format

open Json

def readValue? : Nat → Json → Option Value
  | 0, _ => none
  | depth + 1, j => do
    match ← j.choice? with
    | ("Bool", some content) => return .bool (← content.bool?)
    | ("Number", some content) => return .number (← content.float?)
    | ("String", some content) => return .string (← content.text?)
    | ("Array", some content) => return .array (← (← content.items?).mapM fun item => readValue? depth item)
    | ("Object", some content) =>
      return .object (← (← content.items?).mapM fun item => do
        let (key, v) ← item.pair?
        return (← key.text?, ← readValue? depth v))
    | _ =>
      match ← j.bareChoice? with
      | "Nothing" => return .nothing
      | "Null" => return .null
      | _ => none

def readSpan? (j : Json) : Option Span := do
  let entries ← j.entries?
  let number := fun key => do natUpTo? maxSignificand (← field? entries key)
  return { start := ← number "start", stop := ← number "end", line := ← number "line",
           column := ← number "col" }

def readTarget? (j : Json) : Option Target := do
  match ← j.choice? with
  | ("name", some content) => return .name (← content.text?)
  | ("array", some content) => return .array (← (← content.items?).mapM text?)
  | ("object", some content) =>
    return .object (← (← content.items?).mapM fun item => do
      let (key, name) ← item.pair?
      return (← key.text?, ← name.text?))
  | _ => none

def readItem? (j : Json) : Option ModuleItem := do
  let entries ← j.entries?
  let otherName ← match ← nullable? entries "alias" with
    | none => pure none
    | some otherName => pure (some (← otherName.text?))
  return { name := ← (← field? entries "name").text?, otherName }

/-- The kind with the given tag from its fields. Children are read by `node`. -/
def readKind? (node : Json → Option Node) (tag : Tag) (entries : List (String × Json)) : Option (Kind Node) :=
  let child := fun key => do node (← field? entries key)
  let children := fun key => do (← (← field? entries key).items?).mapM node
  let child? := fun key => do
    match ← nullable? entries key with
    | none => pure none
    | some j => pure (some (← node j))
  let text := fun key => do (← field? entries key).text?
  let items := fun key => do (← (← field? entries key).items?).mapM readItem?
  let target := do readTarget? (← field? entries "target")
  match tag with
  | .module => return .module (← children "body")
  | .declare => return .declare (← children "assignments")
  | .assign => return .assign (← target) (← child "value")
  | .branch => return .branch (← child "condition") (← children "then_body") (← children "else_body")
  | .loop => return .loop (← children "ranges") (← children "body") (← children "else_body")
  | .range => return .range (← target) (← child "collection") (← child? "guard")
  | .ret => return .ret (← child "value")
  | .exprStmt => return .exprStmt (← child "expr")
  | .function => return .function (← text "name") (← children "params") (← child? "guard") (← children "body")
  | .param => return .param (← text "name") (← child? "pattern") (← (← field? entries "variadic").bool?)
  | .importAll => return .importAll (← text "module") (← text "alias")
  | .importFrom => return .importFrom (← text "module") (← items "items")
  | .exported => return .exported (← child? "decl") (← items "items")
  | .literal => return .literal (← readValue? 128 (← field? entries "value"))
  | .ident => return .ident (← text "name")
  | .context => return .context
  | .unary => return .unary (← UnaryOp.ofName? (← (← field? entries "op").bareChoice?)) (← child "operand")
  | .binary =>
    return .binary (← BinaryOp.ofName? (← (← field? entries "op").bareChoice?)) (← child "left")
      (← child "right")
  | .conj => return .conj (← child "left") (← child "right")
  | .disj => return .disj (← child "left") (← child "right")
  | .cond => return .cond (← child "condition") (← child "consequent") (← child "alternative")
  | .array => return .array (← children "elements")
  | .object => return .object (← children "entries")
  | .entry => return .entry (← child "key") (← child "value")
  | .member => return .member (← child "object") (← child "property")
  | .call => return .call (← child "callee") (← children "args")
  | .lambda => return .lambda (← children "params") (← child "body")
  | .reduce => return .reduce (← children "accumulators") (← children "ranges") (← children "body")
  | .choose => return .choose (← child "value") (← children "clauses") (← children "else_body")
  | .clause => return .clause (← children "patterns") (← children "body")
  | .pattern => return .pattern (← child "expr")
  | .objectPattern => return .objectPattern (← children "elements")
  | .arrayPattern => return .arrayPattern (← children "elements")
  | .element => return .element (← child? "key") (← child "value")
  | .regex => return .regex (← text "pattern") (← text "flags")
  | .doBlock => return .doBlock (← children "body")
  | .generator => return .generator (← children "body")
  | .await =>
    return .await (← Resolver.ofName? (← (← field? entries "resolver").bareChoice?))
      (← child "value")
  | .emit => return .emit (← child "value")

/-- A tag, given by its name. Inside another node its number will do as well. -/
def readTag? (inside : Bool) (j : Json) : Option Tag :=
  match j.text? with
  | some key => Tag.ofKey? key
  | none => if inside then j.nat?.bind fun n => Tag.all[n]? else none

def readNode? (inside : Bool) : Nat → Json → Option Node
  | 0, _ => none
  | depth + 1, j => do
    let entries ← j.entries?
    let id ← match ← optional? entries "id" with
      | none => pure 0
      | some id => natUpTo? (Nat.pow 2 32 - 1) id
    let span ← match ← optional? entries "span" with
      | none => pure Span.none
      | some span => readSpan? span
    let kind ← (← field? entries "kind").entries?
    let tag ← readTag? inside (← field? kind "tag")
    return { id, span, kind := ← readKind? (readNode? true depth) tag kind }

end Format

namespace Tree

def nestingLimit : Nat := 127

/-- Reads a tree from a document. What stands in unknown fields of the outermost object is not
looked at. -/
def ofDocument? (j : Json) : Option Tree := do
  let kind ← Json.field? (← j.entries?) "kind"
  if kind.isSound (nestingLimit - 1) then
    return ofRoot (← Format.readNode? false (nestingLimit + 1) j)
  else none

def parse? (text : String) : Option Tree := (Json.parse? text).bind ofDocument?

def render (t : Tree) : String := (Format.document.node t.root).pretty

end Tree

end Motif
