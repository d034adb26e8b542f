import ScimQuery.Filter.Basic
import ScimQuery.Filter.ParseError
import ScimQuery.Text.Ascii

/-!
# Reading a filter token by token

A filter is a chain of terms joined by connectives, and a term is a condition, a filter in round
brackets, or a path with a filter in square brackets:

* chain: `term ((and | or) term)*`
* term: `( chain )`, `path [ chain ]` or a condition
* condition: `path pr` or `path comparator operand`

`Reading` is what is known after some of the tokens: what may come next, the part of the chain before
it, and the chains around the open brackets. `step` takes one token, so that whatever is said about
the state after some tokens holds for every way in which they may go on.

The depth counts open brackets and, until their chain ends, the places where a chain changes its
connective, since each of them adds a level to the query. What would go beyond the limit is refused
before it is read.
-/

namespace ScimQuery

/-! ### The state -/

/-- What an open bracket is a part of. -/
inductive Group
  | parentheses
  | array (path : String)

namespace Group

/-- The kind of the bracket. -/
def bracket : Group → Bracket
  | .parentheses => .round
  | .array _ => .square

/-- The term that a group is, with a filter between its brackets. -/
def term (inner : Filter) : Group → Filter
  | .parentheses => inner
  | .array path => .array path inner

end Group

/-- The part of a chain before the term that is being read. -/
structure Chain where
  /-- The terms so far and the connective behind them. -/
  before : Option (Filter × Connective)
  /-- How often the connective has changed. -/
  switches : Nat

namespace Chain

/-- The beginning of a chain. -/
def empty : Chain := ⟨none, 0⟩

/-- The chain with one more term, as a filter. -/
def join (chain : Chain) (term : Filter) : Filter :=
  match chain.before with
  | some (left, c) => .logical c left term
  | none => term

/-- Whether a connective behind the next term differs from the one before it. -/
def switchesTo (chain : Chain) (c : Connective) : Bool :=
  chain.before.any (·.2 != c)

end Chain

/-- An open group and the chain that it is a term of. -/
structure Frame where
  group : Group
  outer : Chain

/-- What may come next. -/
inductive Phase
  /-- A term begins here. -/
  | term
  /-- A path has been read: a comparator or a square bracket follows. -/
  | comparator (path : String)
  /-- An operand follows. -/
  | operand (path : String) (comparator : Comparator)
  /-- A term has been read: a connective follows, or the chain ends. -/
  | joint (term : Filter)

/-- What is known of a filter after some of its tokens. -/
structure Reading where
  phase : Phase
  chain : Chain
  /-- The open groups, the innermost first. -/
  frames : List Frame
  depth : Nat

/-- An error and the depth at which it leaves the reading. -/
structure Failure where
  error : ParseError
  depth : Nat

namespace Reading

/-- The state before the first token, at a depth that is taken already. -/
def start (depth : Nat) : Reading := ⟨.term, .empty, [], depth⟩

/-! ### One token -/

/-- Goes one level deeper, if the limit admits it. -/
def deepen (limit position : Nat) (r : Reading) : Except Failure Reading :=
  if limit ≤ r.depth then .error ⟨.nestingTooDeep limit position, r.depth⟩
  else .ok { r with depth := r.depth + 1 }

/-- Begins the chain between the brackets of a group. -/
def enter (group : Group) (r : Reading) : Reading :=
  { r with phase := .term, chain := .empty, frames := ⟨group, r.chain⟩ :: r.frames }

/-- The depth when the chain that is being read ends. -/
def chainDepth (r : Reading) : Nat := r.depth - r.chain.switches

/-- Reads a connective behind a term. -/
def connect (limit position : Nat) (c : Connective) (term : Filter) (r : Reading) :
    Except Failure Reading :=
  let before := some (r.chain.join term, c)
  if r.chain.switchesTo c then
    (r.deepen limit position).map fun r =>
      { r with phase := .term, chain := ⟨before, r.chain.switches + 1⟩ }
  else .ok { r with phase := .term, chain := ⟨before, r.chain.switches⟩ }

/-- Reads a token that ends the chain behind a term. It has to close the innermost group. -/
def close (position : Nat) (token : Token) (term : Filter) (r : Reading) :
    Except Failure Reading :=
  match r.frames with
  | [] => .error ⟨.unexpectedToken token position, r.chainDepth⟩
  | ⟨group, outer⟩ :: frames =>
    if token = .closing group.bracket then
      .ok ⟨.joint (group.term (r.chain.join term)), outer, frames, r.chainDepth - 1⟩
    else .error ⟨.missingClosing group.bracket position, r.chainDepth⟩

/-- The connective that a token stands for. -/
def connective? : Token → Option Connective
  | .word w => Connective.ofWord? w
  | _ => none

/-- Reads one token. A path that a square bracket follows is refused at its own place if the group
would be too deep. -/
def step (limit position : Nat) (r : Reading) (token : Token) : Except Failure Reading :=
  match r.phase with
  | .term =>
    match token with
    | .opening .round => (r.deepen limit position).map (enter .parentheses)
    | .word path => .ok { r with phase := .comparator path }
    | _ => .error ⟨.invalidCondition position, r.depth⟩
  | .comparator path =>
    match token with
    | .opening .square => (r.deepen limit (position - 1)).map (enter (.array path))
    | .word w =>
      match Comparator.ofWord? w with
      | some c =>
        if c.takesOperand then .ok { r with phase := .operand path c }
        else .ok { r with phase := .joint (.condition ⟨path, c, none⟩) }
      | none => .error ⟨.unsupportedComparator (Text.lower w) position, r.depth⟩
    | _ => .error ⟨.unsupportedComparator token.text position, r.depth⟩
  | .operand path c =>
    match token with
    | .quoted s => .ok { r with phase := .joint (.condition ⟨path, c, some (.text s)⟩) }
    | .word w => .ok { r with phase := .joint (.condition ⟨path, c, some (.ofWord w)⟩) }
    | _ => .error ⟨.invalidCondition position, r.depth⟩
  | .joint term =>
    match connective? token with
    | some c => r.connect limit position c term
    | none => r.close position token term

/-! ### All tokens -/

/-- The filter that has been read when there are no more tokens, and the depth after it. -/
def finish (position : Nat) (r : Reading) : Except Failure (Filter × Nat) :=
  match r.phase with
  | .joint term =>
    match r.frames with
    | [] => .ok (r.chain.join term, r.chainDepth)
    | ⟨group, _⟩ :: _ => .error ⟨.missingClosing group.bracket position, r.chainDepth⟩
  | _ => .error ⟨.invalidCondition position, r.depth⟩

/-- Reads tokens to their end, the first of them at a position. -/
def run (limit position : Nat) (r : Reading) : List Token → Except Failure (Filter × Nat)
  | [] => r.finish position
  | token :: tokens =>
    match r.step limit position token with
    | .ok r => run limit (position + 1) r tokens
    | .error failure => .error failure

end Reading

end ScimQuery
