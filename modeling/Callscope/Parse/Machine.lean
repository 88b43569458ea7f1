import Callscope.Lookahead.Choose
import Callscope.Parse.Diagnostic
import Callscope.Parse.Tree

/-!
# The parser as a machine

A state of the machine is the rest of the tokens and a stack of frames, one for each rule that has
been begun and not ended. A frame holds what it has read of its rule and the tasks that are left of
its right-hand side, so what may come next can always be told from the frames. One step takes one
task.

When a token does not fit, the machine first tries to go on as if one token were too many or one were
missing. Otherwise it reports the problem, ends the rule, and skips tokens until one comes that some
caller can go on with. It reports nothing more until a token fits again.
-/

namespace Callscope

inductive Task where
  | item (i : Item)
  /-- The end of one repetition of a loop. -/
  | again (i : Item)
  deriving Inhabited

structure Frame where
  rule : Rule
  /-- The loosest level at which operators are taken. -/
  level : Nat
  /-- The site of the call; the outermost rule has none. -/
  site : Option Nat
  /-- The name under which the caller keeps the phrase. -/
  label : Option Label
  first : Token
  /-- What has been read, last first. -/
  read : List Tree
  labels : List (Label × String)
  todo : List Task
  /-- The sites to which the calls around this rule return. -/
  stack : Stack
  deriving Inhabited

structure Machine where
  /-- The current token. -/
  current : Token
  /-- The tokens after it. After the end of the text there are none. -/
  rest : List Token
  /-- The last token taken. -/
  last : Option Token
  frame : Frame
  callers : List Frame
  /-- Whether a problem was reported and no token has fitted since. -/
  recovering : Bool
  /-- Where rules were last given up since a token fitted, and at which sites. -/
  gaveUpAt : Option Nat
  gaveUpSites : List Nat
  /-- The reports, last first. -/
  reports : List Diagnostic
  /-- The index of the furthest token asked for. -/
  seen : Nat
  deriving Inhabited

/-- What a decision can fail with. -/
abbrev Attempt (α : Type) := Except (Token × Problem) α

namespace Machine

variable (a : Lookahead.Automata)

/-! ## What may come next -/

/-- The looks of what follows the calls of the frames, innermost first. -/
def afterCalls (m : Machine) : List Look :=
  (m.frame :: m.callers).filterMap fun f => f.site.map fun s => a.tables.look (s + 1)

/-- The kinds expected from a look on, where the rest of the rules around it follows what can end. -/
def expectedFrom (l : Look) : List Look → KindSet
  | [] => if l.ends then l.kinds.insert .eof else l.kinds
  | k :: ks => if l.ends then l.kinds.union (expectedFrom k ks) else l.kinds

/-- The kinds expected at a site. -/
def expected (m : Machine) (site : Nat) : KindSet :=
  expectedFrom (a.tables.look site) (m.afterCalls a)

/-- The kinds with which some caller can go on. -/
def recoverySet (m : Machine) : KindSet :=
  (m.afterCalls a).foldl (fun s l => s.union l.kinds) .empty

/-! ## Tokens -/

/-- Notes that the tokens up to an index have been asked for. -/
def ask (m : Machine) (index : Nat) : Machine := { m with seen := max m.seen index }

def addLeaf (m : Machine) (t : Tree) : Machine :=
  { m with frame := { m.frame with read := t :: m.frame.read } }

/-- Goes on to the next token. The end of the text stays current. -/
def advance (m : Machine) : Machine :=
  match m.rest with
  | [] => m
  | t :: rest => { m with current := t, rest, last := some m.current, seen := max m.seen t.index }

/-- Takes the current token: it is read, or skipped while recovering. -/
def take (m : Machine) : Machine :=
  (m.addLeaf (if m.recovering then .skipped m.current else .token m.current)).advance

/-- A token has fitted. -/
def fitted (m : Machine) : Machine :=
  { m with recovering := false, gaveUpAt := none, gaveUpSites := [] }

/-- Skips tokens until one of a set of kinds or the end of the text. -/
def skipUntil (s : KindSet) : List Token → Machine → Machine
  | [], m => m
  | _ :: rest, m =>
    if m.current.kind == .eof || s.contains m.current.kind then m else skipUntil s rest m.take

/-- Skips tokens until one of a set of kinds or the end of the text. -/
def skipTo (m : Machine) (s : KindSet) : Machine := skipUntil s (m.current :: m.rest) m

/-- The report that no alternative fits quotes the text and asks for all of its tokens. -/
def askFor (m : Machine) : Problem → Machine
  | .noAlternative first =>
    if first.kind = .eof then m else m.ask (m.rest.getLast?.getD m.current).index
  | _ => m

/-- Reports a problem, unless one has been reported since the last token that fitted. -/
def report (m : Machine) (token : Token) (problem : Problem) : Machine :=
  if m.recovering then m
  else
    let m := m.askFor problem
    { m with recovering := true, reports := ⟨token, problem, m.seen⟩ :: m.reports }

/-! ## Errors -/

/-- Gives up the rule because of a problem at a site. A second failure at the same token and site
takes that token, so the machine cannot stay where it is for ever. -/
def giveUp (m : Machine) (site : Nat) (token : Token) (problem : Problem) : Machine :=
  let m := m.report token problem
  let m := if m.gaveUpAt == some m.current.index && m.gaveUpSites.contains site then m.take else m
  let m := { m with gaveUpAt := some m.current.index, gaveUpSites := site :: m.gaveUpSites }
  let m := m.skipTo (m.recoverySet a)
  { m with frame := { m.frame with todo := [] } }

/-- If the token after the current one is expected, the current one is one too many and skipped. -/
def dropExtra (m : Machine) (site : Nat) : Option Machine :=
  let m := match m.rest with
    | [] => m
    | t :: _ => m.ask t.index
  let next := (m.rest.head?.getD m.current).kind
  let expected := m.expected a site
  if expected.contains next then
    some (m.report m.current (.extraneous expected)).take.fitted
  else none

/-- If the current token is expected after the one at the site, that one is missing. -/
def supplyMissing (m : Machine) (site : Nat) : Option (Machine × Kind) :=
  if (m.expected a (site + 1)).contains m.current.kind then
    let expected := m.expected a site
    some (m.report m.current (.missing expected), expected.toList.headD .eof)
  else none

/-- Before a decision: a token that can neither be read nor end the rule is dealt with. -/
def syncEntry (m : Machine) (site : Nat) : Attempt Machine :=
  let look := a.tables.look site
  if m.recovering || look.ends || look.kinds.contains m.current.kind then .ok m
  else match m.dropExtra a site with
    | some m => .ok m
    | none => .error (m.current, .mismatched (m.expected a site))

/-- After a repetition: tokens are skipped until one with which the loop, the rule or a caller can go
on. -/
def syncAgain (m : Machine) (site : Nat) : Machine :=
  let look := a.tables.look site
  if m.recovering || look.ends || look.kinds.contains m.current.kind then m
  else
    let expected := m.expected a site
    let m := m.report m.current (.extraneous expected)
    m.skipTo (expected.union (m.recoverySet a))

/-! ## Decisions -/

/-- The first choice that a kind of token speaks for. -/
def choiceOf (k : Kind) : List KindSet → Option Nat
  | [] => none
  | s :: ss => if s.contains k then some 0 else (choiceOf k ss).map (· + 1)

/-- Takes the decision of a site, by one token or by reading ahead. Gives the number of the choice
from 0. `otherwise` is the choice that needs no token to speak for it. -/
def decideAt (m : Machine) (site : Nat) (otherwise : Option Nat) : Attempt (Machine × Nat) :=
  match a.tables.decision? site with
  | none => .ok (m, 0)
  | some d =>
    if d.direct then
      match (choiceOf m.current.kind d.heads).or otherwise with
      | some i => .ok (m, i)
      | none => .error (m.current, .noAlternative m.current)
    else
      let (outcome, furthest) :=
        Lookahead.choose a d site m.frame.level m.frame.stack m.current (m.current :: m.rest)
      let m := m.ask furthest.index
      match outcome with
      | .choose alt => .ok (m, alt - 1)
      | .fail token => .error (token, .noAlternative m.current)

/-! ## Steps -/

def setTodo (m : Machine) (todo : List Task) : Machine :=
  { m with frame := { m.frame with todo } }

def setLabel (m : Machine) (label : Option Label) (text : String) : Machine :=
  match label with
  | none => m
  | some l => { m with frame := { m.frame with labels := (l, text) :: m.frame.labels } }

/-- What has been read of the innermost rule, as a node. -/
def close (m : Machine) : Tree :=
  .node m.frame.rule m.frame.first m.last m.frame.labels m.frame.read.reverse

/-- What has been read becomes the left operand of an operator. -/
def wrap (m : Machine) : Machine :=
  { m with frame := { m.frame with read := [m.close], labels := [] } }

/-- Begins a rule. -/
def enter (m : Machine) (site : Nat) (rule : Rule) (level : Nat) (label : Option Label) : Machine :=
  { m with
    frame :=
      { rule, level, site := some site, label, first := m.current, read := [], labels := []
        todo := (a.tables.rule rule).items.map .item
        stack := m.frame.stack.push (a.tables.returnSite site) }
    callers := m.frame :: m.callers }

/-- Ends the innermost rule. The tree is complete when that was the outermost one. -/
def leave (m : Machine) : Machine ⊕ Tree :=
  let node := m.close
  match m.callers with
  | [] => .inr node
  | caller :: callers =>
    let m' := { m with frame := { caller with read := node :: caller.read }, callers }
    .inl (match m.frame.label with
      | none => m'
      | some l => m'.setLabel (some l) node.text)

/-- A token of one kind. -/
def stepTerminal (m : Machine) (site : Nat) (kind : Kind) (label : Option Label) : Machine :=
  if m.current.kind = kind then m.fitted.take.setLabel label m.current.text
  else match m.dropExtra a site with
    | some m => m.take.setLabel label m.current.text
    | none => match m.supplyMissing a site with
      | some (m, k) => (m.addLeaf (.missing k)).setLabel label k.missingText
      | none => m.giveUp a site m.current (.mismatched (m.expected a site))

/-- A token of one of several kinds. One that is missing leaves no leaf. -/
def stepTerminalOf (m : Machine) (site : Nat) (kinds : List Kind) (label : Option Label) : Machine :=
  let m := m.setLabel label m.current.text
  if kinds.contains m.current.kind then m.fitted.take
  else match m.dropExtra a site with
    | some m => m.take.setLabel label m.current.text
    | none => match m.supplyMissing a site with
      | some (m, k) => m.setLabel label k.missingText
      | none => m.giveUp a site m.current (.mismatched (m.expected a site))

/-- Takes one of several alternatives. -/
def stepBranch (m : Machine) (site : Nat) (alts : List (List Item)) (todo : List Task) : Machine :=
  match m.syncEntry a site with
  | .error (token, problem) => m.giveUp a site token problem
  | .ok m =>
    let otherwise := if (alts.getLastD [default]).isEmpty then some (alts.length - 1) else none
    match m.decideAt a site otherwise with
    | .error (token, problem) => m.giveUp a site token problem
    | .ok (m, i) => m.setTodo ((alts.getD i []).map .item ++ todo)

/-- Decides at `here` on one more repetition of a loop; the decision belongs to `site`. -/
def stepRepeat (m : Machine) (here site : Nat) (loop : Item) (body : List Item) (todo : List Task) :
    Machine :=
  match m.decideAt a site (some 1) with
  | .error (token, problem) => m.giveUp a here token problem
  | .ok (m, 0) => m.setTodo (body.map .item ++ .again loop :: todo)
  | .ok (m, _) => m.setTodo todo

/-- Takes an operator, unless it binds too loosely. -/
def stepOperator (m : Machine) (loop : Item) (op : Nat × List Item) (todo : List Task) : Machine :=
  let m := m.wrap
  if m.frame.level ≤ op.1 then m.setTodo (op.2.map .item ++ .again loop :: todo)
  else m.giveUp a (Item.guardSite op.2) m.current (.looseOperator m.frame.rule op.1)

/-- Decides at `here` on one more operator. -/
def stepClimb (m : Machine) (here site : Nat) (ops : List (Nat × List Item)) (todo : List Task) :
    Machine :=
  match m.decideAt a site none with
  | .error (token, problem) => m.giveUp a here token problem
  | .ok (m, 0) =>
    match ops with
    | [op] => m.stepOperator a (.climb site ops) op todo
    | _ =>
      match m.syncEntry a (site + 2) with
      | .error (token, problem) => m.giveUp a (site + 2) token problem
      | .ok m =>
        match m.decideAt a (site + 2) none with
        | .error (token, problem) => m.giveUp a (site + 2) token problem
        | .ok (m, i) => m.stepOperator a (.climb site ops) (ops.getD i default) todo
  | .ok (m, _) => m.setTodo todo

/-- Does a task; `todo` is what comes after it. -/
def stepTask (m : Machine) (task : Task) (todo : List Task) : Machine :=
  let m := m.setTodo todo
  match task with
  | .item (.terminal site kind label) => m.stepTerminal a site kind label
  | .item (.terminalOf site kinds label) => m.stepTerminalOf a site kinds label
  | .item (.call site rule level label) => m.enter a site rule level label
  | .item (.branch site alts) => m.stepBranch a site alts todo
  | .item (.loop site body) =>
    match m.syncEntry a site with
    | .error (token, problem) => m.giveUp a site token problem
    | .ok m => m.stepRepeat a site site (.loop site body) body todo
  | .item (.loopOnce site body) =>
    match m.syncEntry a site with
    | .error (token, problem) => m.giveUp a site token problem
    | .ok m => m.setTodo (body.map .item ++ .again (.loopOnce site body) :: todo)
  | .item (.climb site ops) =>
    match m.syncEntry a site with
    | .error (token, problem) => m.giveUp a site token problem
    | .ok m => m.stepClimb a site site ops todo
  | .again (.loop site body) =>
    (m.syncAgain a (site + 1)).stepRepeat a (site + 1) site (.loop site body) body todo
  | .again (.loopOnce site body) =>
    (m.syncAgain a (site + 1)).stepRepeat a (site + 1) (site + 1) (.loopOnce site body) body todo
  | .again (.climb site ops) => (m.syncAgain a (site + 1)).stepClimb a (site + 1) site ops todo
  | .again _ => m

/-- One step: the next task of the innermost rule, or its end. -/
def step (m : Machine) : Machine ⊕ Tree :=
  match m.frame.todo with
  | [] => m.leave
  | task :: todo => .inl (m.stepTask a task todo)

/-- Steps until the tree is complete; none if that takes more than `fuel` steps. -/
def run : Nat → Machine → Option (Machine × Tree)
  | 0, _ => none
  | fuel + 1, m =>
    match m.step a with
    | .inl m => run fuel m
    | .inr tree => some (m, tree)

/-- The machine before a rule, with the tokens of a text. -/
def start (rule : Rule) (level : Nat) (current : Token) (rest : List Token) : Machine :=
  { current, rest, last := none
    frame := { rule, level, site := none, label := none, first := current, read := [], labels := []
               todo := (a.tables.rule rule).items.map .item
               stack := .root }
    callers := [], recovering := false, gaveUpAt := none, gaveUpSites := [], reports := []
    seen := current.index }

end Machine

end Callscope
