/-!
# The manual

Reference pages on the grammars of the clauses, and on what a selection is. A page is found by
the name of its clause or of its parameter.
-/

namespace ResourceQuery

set_option autoImplicit false

inductive Topic where
  | prefixes | condition | select | orderBy | searchTerms | selection
  deriving DecidableEq, Repr

namespace Topic

/-- A name in the form that topics are looked up by: in small letters, with underscores for
hyphens and full stops. No topic has a letter that a character beyond the English capitals
becomes in small letters, so those are left alone. -/
def normalName (name : String) : List Char :=
  name.toList.map fun c => if c = '-' ∨ c = '.' then '_' else c.toLower

def ofName? (name : String) : Option Topic :=
  match String.ofList (normalName name) with
  | "prefix" | "prefixes" | "oslc_prefix" => some prefixes
  | "where" | "oslc_where" => some condition
  | "select" | "properties" | "oslc_select" | "oslc_properties" => some select
  | "order_by" | "orderby" | "oslc_orderby" => some orderBy
  | "search_terms" | "searchterms" | "oslc_searchterms" => some searchTerms
  | "selection" | "invert" | "inversion" => some selection
  | _ => none

end Topic

namespace Manual

def page (lines : List String) : String := String.join (lines.map (· ++ "\n"))

def overview : String :=
  page [
    "OSLC QUERY DOCUMENTATION",
    "",
    "oslcq parses the query-string parameters of the OSLC Core query capability",
    "and prints the resulting trees as JSON. Expressions are given URL-decoded.",
    "",
    "DOCUMENTATION TOPICS",
    "",
    "  prefix            oslc.prefix: binding namespace prefixes",
    "  where             oslc.where: filtering with comparisons, in-lists and scopes",
    "  select            oslc.select and oslc.properties: choosing properties",
    "  order-by          oslc.orderBy: sort keys",
    "  search-terms      oslc.searchTerms: full-text phrases",
    "  selection         How a selection is inverted for serialization",
    "",
    "QUICK REFERENCE",
    "",
    "  oslcq check prefix 'dcterms=<http://purl.org/dc/terms/>'",
    "  oslcq check where 'dcterms:title=\"Bug\"' --prefixes 'dcterms=<http://purl.org/dc/terms/>'",
    "  oslcq check select '*\x7bdcterms:title\x7d' --invert --pretty",
    "  echo '\"foobar\"' | oslcq check search-terms",
    "",
    "  OSLC_PREFIXES     Default for --prefixes",
    "  RUST_LOG          Log filter (default: warn)",
    "",
    "Run 'oslcq doc <topic>' for detailed documentation."]

def prefixes : String :=
  page [
    "PREFIX - Namespace Bindings",
    "",
    "GRAMMAR",
    "  prefix_defs := prefix_def (',' prefix_def)*",
    "  prefix_def  := name '=' '<' uri '>'",
    "",
    "  Example:",
    "    qm=<http://qm.example.com/ns/>,oslc=<http://open-services.net/ns/core#>",
    "",
    "RULES",
    "  - Every prefix used by another clause must be bound here",
    "  - An empty clause binds nothing",
    "  - A prefix bound twice keeps its last namespace",
    "  - An unterminated URI is a syntax error:",
    "      qm=<http://qm.example.com/ns/>,XXX>"]

def condition : String :=
  page [
    "WHERE - Filtering",
    "",
    "GRAMMAR",
    "  compound_term := simple_term ('and' simple_term)*",
    "  simple_term   := term | scoped_term",
    "  term          := pname op value | pname 'in' '[' value (',' value)* ']'",
    "  scoped_term   := pname '\x7b' compound_term '\x7d'",
    "  op            := '=' | '!=' | '<' | '>' | '<=' | '>='",
    "",
    "VALUES",
    "  <http://example.org/tests/24>          URI reference",
    "  true, false                            boolean",
    "  10, -47.0, +3.25                       decimal (scale kept)",
    "  \"Done\"                                 string",
    "  \"2011-10-10T07:00:00Z\"^^xs:dateTime    typed string",
    "  \"The End\"@en-US                        language-tagged string",
    "",
    "  Examples:",
    "    qm:testCase=<http://example.org/tests/24>",
    "    qm:state in [\"Done\",\"Open\"]",
    "    oslc:verified_by\x7boslc:owner=\"Steve\" and qm:duration=-47.0\x7d",
    "",
    "  Constraints:",
    "    - Terms are joined with 'and' only, there is no 'or'",
    "    - An 'in' list needs at least one value",
    "    - A quoted \"*\" is an ordinary string"]

def select : String :=
  page [
    "SELECT - Choosing Properties",
    "",
    "GRAMMAR",
    "  properties := property (',' property)*",
    "  property   := pname | '*' | pname '\x7b' properties '\x7d' | '*' '\x7b' properties '\x7d'",
    "",
    "  oslc.properties uses the same grammar as oslc.select.",
    "",
    "  Examples:",
    "    qm:testcase,*",
    "    qm:state\x7boslc:verified_by\x7boslc:owner,qm:duration\x7d\x7d",
    "    *\x7bdcterms:title\x7d",
    "",
    "  Meaning:",
    "    pname            emit the property",
    "    *                emit every property",
    "    pname\x7b...\x7d       emit the property and recurse into the related resource",
    "    *\x7b...\x7d           emit every property and recurse into each with \x7b...\x7d",
    "",
    "Use --invert to print the lookup structure a serializer would use."]

def orderBy : String :=
  page [
    "ORDER-BY - Sort Keys",
    "",
    "GRAMMAR",
    "  sort_terms := sort_term (',' sort_term)*",
    "  sort_term  := ('+' | '-') pname | ('+' | '-')? pname '\x7b' sort_terms '\x7d'",
    "",
    "  Examples:",
    "    -qm:priority,+oslc:name",
    "    +qm:tested_by\x7b-oslc:name\x7d",
    "",
    "  Constraints:",
    "    - A plain key needs its direction sign",
    "    - A scoped key without a sign sorts ascending"]

def searchTerms : String :=
  page [
    "SEARCH-TERMS - Full-Text Phrases",
    "",
    "GRAMMAR",
    "  search_terms := string (',' string)*",
    "",
    "  Example:",
    "    \"foobar\",\"whatsis\"",
    "",
    "  Constraints:",
    "    - At least one phrase is required",
    "    - Quotes are stripped, escapes are kept as written"]

def selection : String :=
  page [
    "SELECTION - Inverted Property Selection",
    "",
    "A parsed selection is inverted into a map from full property URI to either",
    "'emit' or 'emit and recurse with this nested selection'. Each level also",
    "records whether '*' or '*\x7b...\x7d' was given.",
    "",
    "RULES",
    "  - Sibling order never changes the result",
    "  - A nested entry wins over a plain entry for the same property",
    "  - Repeated nested entries merge recursively",
    "  - A plain name next to '*' adds nothing",
    "  - '*\x7b...\x7d' is merged into every named property at its level",
    "",
    "  Example:",
    "    *\x7bqm:a\x7d,qm:b\x7bqm:c\x7d",
    "",
    "    qm:b    emit, recurse with \x7bqm:a, qm:c\x7d",
    "    other   emit, recurse with \x7bqm:a\x7d",
    "",
    "Try: oslcq check select '*\x7bqm:a\x7d,qm:b\x7bqm:c\x7d' --invert --prefixes 'qm=<http://qm.example.com/ns/>'"]

end Manual

def Topic.page : Topic → String
  | prefixes => Manual.prefixes
  | condition => Manual.condition
  | select => Manual.select
  | orderBy => Manual.orderBy
  | searchTerms => Manual.searchTerms
  | selection => Manual.selection

end ResourceQuery
