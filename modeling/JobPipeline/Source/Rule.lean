/-
The named rules of the spec text's grammar, as a syntax error lists them.
-/
namespace JobPipeline
namespace Source

inductive Rule where
  | endOfInput
  | source
  | edgeStatement
  | nodeStatement
  | attributeList
  | attribute
  | quoted
  | quotedInner
  | html
  | htmlInner
  | bare
  | identifier
deriving DecidableEq, Repr

namespace Rule

/-- Every rule, in the order in which a message names them. -/
def all : List Rule :=
  [.endOfInput, .source, .edgeStatement, .nodeStatement, .attributeList, .attribute, .quoted,
    .quotedInner, .html, .htmlInner, .bare, .identifier]

def name : Rule → String
  | .endOfInput => "EOI"
  | .source => "source"
  | .edgeStatement => "edge_stmt"
  | .nodeStatement => "node_stmt"
  | .attributeList => "attr_list"
  | .attribute => "attr"
  | .quoted => "quoted"
  | .quotedInner => "quoted_inner"
  | .html => "html"
  | .htmlInner => "html_inner"
  | .bare => "bare"
  | .identifier => "ident"

end Rule
end Source
end JobPipeline
