import ScimQuery.Text.Ascii

/-!
# The manual

The pages that explain filters: an overview and one page for each topic. A page is asked for by any
of the names of its topic (`Topic.ofName?`).
-/

namespace ScimQuery

/-- What a page of the manual is about. -/
inductive Topic
  | lexical
  | comparators
  | logic
  | arrays
  | values
deriving DecidableEq

namespace Topic

/-- The names of a topic, in lower case. -/
def names : Topic → List String
  | .lexical => ["syntax"]
  | .comparators => ["comparators", "comparator", "ops"]
  | .logic => ["logic", "logical", "and_or"]
  | .arrays => ["arrays", "array", "array_filters"]
  | .values => ["values", "value", "types"]

/-- Every topic. -/
def all : List Topic := [.lexical, .comparators, .logic, .arrays, .values]

/-- The topic that a name stands for. Case does not matter, and a hyphen stands for an underscore. No
letter outside ASCII has a letter of these names as its lower case. -/
def ofName? (name : String) : Option Topic :=
  let key := String.ofList ((Text.lower name).toList.map fun c => if c = '-' then '_' else c)
  all.find? fun topic => topic.names.contains key

end Topic

namespace Manual

/-- The text of lines, each of them with an end. -/
def ofLines (lines : List String) : String := String.join (lines.map (· ++ "\n"))

/-- The list of topics. -/
def overviewText : String := ofLines [
  "SCIM2MONGO DOCUMENTATION",
  "",
  "scim2mongo turns SCIM filter expressions into MongoDB query documents.",
  "A filter is a chain of attribute conditions joined by 'and' / 'or'.",
  "",
  "DOCUMENTATION CATEGORIES",
  "",
  "  syntax            Tokens, attribute paths, and grouping",
  "  comparators       The ten comparators and the query each one produces",
  "  logic             'and' / 'or' chains and how they nest",
  "  arrays            Bracketed filters over multi-valued attributes",
  "  values            Quoted and unquoted operands, number and boolean typing",
  "",
  "QUICK REFERENCE",
  "",
  "  userName eq \"Joe\"               \x7b\"userName\": \x7b\"$eq\": \"Joe\"\x7d\x7d",
  "  age pr                          \x7b\"age\": \x7b\"$exists\": true\x7d\x7d",
  "  a eq 1 and b eq 2               \x7b\"$and\": [...]\x7d",
  "  emails[type eq \"work\"]          \x7b\"emails\": \x7b\"$elemMatch\": \x7b...\x7d\x7d\x7d",
  "",
  "Run 'scim2mongo doc <category>' for detailed documentation."]

/-- On tokens and grouping. -/
def lexicalText : String := ofLines [
  "SYNTAX - Tokens and Grouping",
  "",
  "CONDITIONS",
  "  <attribute> <comparator> <value>",
  "  <attribute> pr",
  "",
  "    Attribute paths are letters, digits, underscores and dots:",
  "      userName",
  "      name.familyName",
  "",
  "GROUPING",
  "  ( <filter> )",
  "    Parentheses group a sub-filter.",
  "",
  "    Example:",
  "      (title pr or nickName pr) and active eq true",
  "",
  "WHITESPACE",
  "  Whitespace between tokens is ignored. Brackets and parentheses do not",
  "  need surrounding spaces:",
  "      emails[type eq \"work\"]",
  "      emails [ type eq \"work\" ]",
  "",
  "  Constraints:",
  "    - Characters outside letters, digits, '_', '.', brackets and quoted",
  "      strings are skipped",
  "    - Runs of whitespace collapse to one space, also inside quotes"]

/-- On the ten comparators. -/
def comparatorsText : String := ofLines [
  "COMPARATORS",
  "",
  "  aco   array contains      \x7b\"a\": v\x7d",
  "  co    contains            \x7b\"a\": \x7b\"$regex\": \"v\", \"$options\": \"i\"\x7d\x7d",
  "  eq    equal               \x7b\"a\": \x7b\"$eq\": v\x7d\x7d",
  "  ew    ends with           \x7b\"a\": \x7b\"$regex\": \"v$\", \"$options\": \"i\"\x7d\x7d",
  "  ge    greater or equal    \x7b\"a\": \x7b\"$gte\": v\x7d\x7d",
  "  gt    greater than        \x7b\"a\": \x7b\"$gt\": v\x7d\x7d",
  "  le    less or equal       \x7b\"a\": \x7b\"$lte\": v\x7d\x7d",
  "  lt    less than           \x7b\"a\": \x7b\"$lt\": v\x7d\x7d",
  "  pr    present             \x7b\"a\": \x7b\"$exists\": true\x7d\x7d",
  "  sw    starts with         \x7b\"a\": \x7b\"$regex\": \"^v\", \"$options\": \"i\"\x7d\x7d",
  "",
  "  Comparators are case-insensitive: 'EQ' and 'eq' are the same.",
  "",
  "  Constraints:",
  "    - co, ew and sw escape regex metacharacters: 'a.b' matches only \"a.b\"",
  "    - pr takes no value; every other comparator requires one"]

/-- On chains. -/
def logicText : String := ofLines [
  "LOGIC - and / or",
  "",
  "  a eq 1 and b eq 2 and c eq 3",
  "    => \x7b\"$and\": [\x7ba\x7d, \x7bb\x7d, \x7bc\x7d]\x7d",
  "",
  "  'and' and 'or' have the SAME precedence and group left to right:",
  "",
  "  a eq 1 and b eq 2 or c eq 3",
  "    => \x7b\"$or\": [\x7b\"$and\": [\x7ba\x7d, \x7bb\x7d]\x7d, \x7bc\x7d]\x7d",
  "",
  "  a eq 1 or b eq 2 and c eq 3",
  "    => \x7b\"$and\": [\x7b\"$or\": [\x7ba\x7d, \x7bb\x7d]\x7d, \x7bc\x7d]\x7d",
  "",
  "  Use parentheses when you mean otherwise:",
  "",
  "  a eq 1 or (b eq 2 and c eq 3)",
  "",
  "  Keywords are case-insensitive.",
  "",
  "  Constraints:",
  "    - Runs of one operator may be any length",
  "    - Each switch between 'and' and 'or' counts toward --max-depth,",
  "      like a pair of parentheses"]

/-- On array filters. -/
def arraysText : String := ofLines [
  "ARRAYS - Filters over Multi-Valued Attributes",
  "",
  "  <attribute>[<filter>]",
  "    Matches documents where at least one element of the array satisfies",
  "    the whole inner filter.",
  "",
  "    Example:",
  "      emails[type eq \"work\" and primary eq true]",
  "      => \x7b\"emails\": \x7b\"$elemMatch\": \x7b\"$and\": [",
  "           \x7b\"type\": \x7b\"$eq\": \"work\"\x7d\x7d,",
  "           \x7b\"primary\": \x7b\"$eq\": true\x7d\x7d",
  "         ]\x7d\x7d\x7d",
  "",
  "  Array filters nest and combine with and / or like any condition."]

/-- On operands. -/
def valuesText : String := ofLines [
  "VALUES - Operand Typing",
  "",
  "QUOTED",
  "  \"30\"    always a string, never converted",
  "",
  "UNQUOTED",
  "  30      integer",
  "  2.5     float",
  "  true    boolean (any case)",
  "  Joe     string",
  "",
  "  Example:",
  "    age eq 30      => \x7b\"age\": \x7b\"$eq\": 30\x7d\x7d",
  "    age eq \"30\"    => \x7b\"age\": \x7b\"$eq\": \"30\"\x7d\x7d"]

/-- The page on a topic. -/
def page : Topic → String
  | .lexical => lexicalText
  | .comparators => comparatorsText
  | .logic => logicText
  | .arrays => arraysText
  | .values => valuesText

end Manual

end ScimQuery
